import TextMining.Lib.Leaves
import TextMining.NBClassifier.ClassTree

/-!
# Ancestors and leaves

`GetAncestorID` goes up to the class below the root. `LoadClassTree` counts
the leaves of each class by a walk from every leaf.
-/

namespace TextMining.NBClassifier

open ClassMap (links IsTree)
open Forest (Father linksOf)

section
variable {m : ClassMap} {depth : Int32 → Nat} {c : Int32}

def ClassNode.link (n : ClassNode) : Int32 × List Int32 := (n.fatherId, n.sons)

end

end TextMining.NBClassifier
