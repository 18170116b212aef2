import TextMining.AhoCorasick.Match
import TextMining.CrfDataNoSeg.InWord
import TextMining.Lib.Bytes
import TextMining.Lib.OrdMap
import TextMining.Lib.Runs

/-!
# Labels for the tags of a name

For each name `segment_line` matches the tags of a class and writes a line for
every character that is not a space: the character, where it stands in its
word, and whether it begins or continues a tag.
-/

namespace TextMining.CrfDataNoSeg

open AhoCorasick (Dict clear lastId Root)
open Runs (Label)

-- ---------------------------------------------------------------------------
-- Matching
-- ---------------------------------------------------------------------------

/-- `multiset<pair<int,int>,setcomp>`, in the order of the insertions. -/
abbrev MatchSet := List (Int × Nat)

/-- `str - orig_str` is `pos`. -/
def matchOffLoop (A : AhoCorasick) : Nat → Nat → MatchSet → List UInt8 → Option MatchSet
  | _, _, ret, [] => some ret
  | off, pos, ret, c :: str =>
    (A.fallBack c A.size off).bind fun off =>
      match (A.node off).child c with
      | none => matchOffLoop A off (pos + 1) ret str
      | some off => (A.backIds A.size off).bind fun ids =>
        matchOffLoop A off (pos + 1) (ret ++ ids.map fun id => (id, pos)) str

/-- `get_match_off`, which here keeps every pair. -/
def getMatchOff (A : AhoCorasick) (str : List UInt8) : Option MatchSet :=
  matchOffLoop A Root 0 [] str

def totalSet (automata : List AhoCorasick) (name : List UInt8) : Option MatchSet :=
  automata.foldlM (fun total A => (getMatchOff A name).map fun found => total ++ found) []

/-- `InTag`. A tag id without a name gets the empty name. -/
def inTag (curse : Int) (matchSet : MatchSet) (tagNameMap : OrdMap Int32 (List UInt8)) : Bool :=
  matchSet.any fun it =>
    let len : Int := ((tagNameMap.lookup (Int32.ofInt it.1)).getD []).length
    it.2 - len < curse ∧ curse ≤ it.2

-- ---------------------------------------------------------------------------
-- Lines
-- ---------------------------------------------------------------------------

/-- `isutf`: the byte does not continue a character. -/
def isUtf (b : UInt8) : Bool := b &&& 0xC0 ≠ 0x80

/-- What `u8_inc` adds to the offset; behind the text is a NUL. -/
def u8Inc (s : List UInt8) : Nat :=
  if isUtf (s[1]?.getD 0) then 1
  else if isUtf (s[2]?.getD 0) then 2
  else if isUtf (s[3]?.getD 0) then 3
  else 4

structure Token where
  curse : Nat
  buf : List UInt8
  wordBflag : Nat
  tag : Label
  deriving DecidableEq

def Token.text (t : Token) : List UInt8 :=
  t.buf ++
    TextMining.text (if t.wordBflag = 0 then "\tB" else if t.wordBflag = 1 then "\tM"
      else if t.wordBflag = 2 then "\tE" else "\tN") ++
    TextMining.text (match t.tag with
      | .begin => "\tB"
      | .inside => "\tE"
      | .outside => "\tN") ++ [10]

def labelLoop (inTag : Nat → Bool) (wordBflag : Nat → Nat) :
    Nat → Nat → Bool → List UInt8 → Option (List Token)
  | _, _, _, [] => some []
  | 0, _, _, _ :: _ => none
  | fuel + 1, curse, bflag, b :: rest =>
    let i := u8Inc (b :: rest)
    let buf := (b :: rest).take i
    -- a space leaves the flag as it is
    if b = 32 then labelLoop inTag wordBflag fuel (curse + i) bflag ((b :: rest).drop i)
    else if inTag curse then
      (labelLoop inTag wordBflag fuel (curse + i) false ((b :: rest).drop i)).map
        (⟨curse, buf, wordBflag curse, if bflag then .begin else .inside⟩ :: ·)
    else
      (labelLoop inTag wordBflag fuel (curse + i) true ((b :: rest).drop i)).map
        (⟨curse, buf, wordBflag curse, .outside⟩ :: ·)

section
variable (tagMapAC : OrdMap (List UInt8) AhoCorasick) (targetKeyList : List (List UInt8))
  (tagNameMap : OrdMap Int32 (List UInt8)) (scwout : ScwOut) (name : List UInt8)

def labelled (total : MatchSet) : Option (List Token) :=
  if total = [] then some []
  else labelLoop (fun curse => inTag curse total tagNameMap) (fun curse => inWord curse scwout)
    name.length 0 true name

def tokens : Option (List Token) :=
  (totalSet (targetKeyList.filterMap tagMapAC.lookup) name).bind
    (labelled tagNameMap scwout name)

def output : Option (List UInt8) :=
  (totalSet (targetKeyList.filterMap tagMapAC.lookup) name).bind fun total =>
    (labelled tagNameMap scwout name total).map fun ts =>
      if total = [] then [] else ts.flatMap Token.text ++ [10]

end

-- ---------------------------------------------------------------------------
-- Names
-- ---------------------------------------------------------------------------

/-- A first byte and bytes that continue it, none of them NUL. -/
def Character.IsUtf8 (c : Character) : Prop :=
  ∃ b rest, c.bytes = b :: rest ∧ b ≠ 0 ∧ isUtf b = true ∧ ∀ x ∈ rest, isUtf x = false

def Character.isSpace (c : Character) : Bool := c.bytes.head? = some 32

def placed : Nat → List Character → List (Nat × Character)
  | _, [] => []
  | off, c :: cs => (off, c) :: placed (off + c.bytes.length) cs

section
variable {c : Character} {cs : List Character}

theorem u8Inc_append (hc : c.IsUtf8) {s : List UInt8} (hs : ∀ x ∈ s.head?, isUtf x = true) :
    u8Inc (c.bytes ++ s) = c.bytes.length := by
  obtain ⟨b, rest, hb, -, -, hrest⟩ := hc
  have hshort := c.short
  have hnext : isUtf (s[0]?.getD 0) = true := by
    cases s with
    | nil => rfl
    | cons x s => exact hs x rfl
  rw [hb] at hshort ⊢
  rw [u8Inc]
  match rest, hrest, hshort with
  | [], _, _ => simp [hnext]
  | [x], hrest, _ =>
    have hx := hrest x (by simp)
    simp [hnext, hx]
  | [x, y], hrest, _ =>
    have hx := hrest x (by simp)
    have hy := hrest y (by simp)
    simp [hnext, hx, hy]
  | [x, y, z], hrest, _ =>
    have hx := hrest x (by simp)
    have hy := hrest y (by simp)
    have hz := hrest z (by simp)
    simp [hx, hy, hz]
  | _ :: _ :: _ :: _ :: _, _, hshort =>
    simp only [List.length_cons] at hshort
    omega

theorem head_bytesOf (hcs : ∀ c ∈ cs, c.IsUtf8) : ∀ x ∈ (bytesOf cs).head?, isUtf x = true := by
  cases cs with
  | nil => exact fun x hx => by cases hx
  | cons c cs =>
    obtain ⟨b, rest, hb, -, hutf, -⟩ := hcs c List.mem_cons_self
    intro x hx
    rw [bytesOf_cons, hb, List.cons_append, List.head?_cons, Option.mem_some_iff] at hx
    exact hx ▸ hutf

def tokenOf (wordBflag : Nat → Nat) (e : (Nat × Character) × Label) : Token :=
  ⟨e.1.1, e.1.2.bytes, wordBflag e.1.1, e.2⟩

theorem labelLoop_eq {inTag : Nat → Bool} {wordBflag : Nat → Nat} {fuel curse : Nat}
    {bflag : Bool} (hcs : ∀ c ∈ cs, c.IsUtf8) (hfuel : (bytesOf cs).length ≤ fuel) :
    labelLoop inTag wordBflag fuel curse bflag (bytesOf cs) =
      some ((Runs.labels (fun e => e.2.isSpace) (fun e => inTag e.1) bflag (placed curse cs)).map
        (tokenOf wordBflag)) := by
  induction cs generalizing fuel curse bflag with
  | nil =>
    cases fuel with
    | zero => rfl
    | succ fuel => rfl
  | cons c cs ih =>
    have hutf := hcs c List.mem_cons_self
    have hrest := fun x hx => hcs x (List.mem_cons_of_mem c hx)
    have hinc := u8Inc_append hutf (head_bytesOf hrest)
    have hdrop : (c.bytes ++ bytesOf cs).drop c.bytes.length = bytesOf cs := List.drop_left
    have htake : (c.bytes ++ bytesOf cs).take c.bytes.length = c.bytes := List.take_left
    rw [bytesOf_cons, List.length_append] at hfuel
    have hpos := c.nonempty
    rw [bytesOf_cons, placed, Runs.labels, Character.isSpace]
    obtain ⟨b, rest, hb, -⟩ := hutf
    cases fuel with
    | zero => omega
    | succ fuel =>
      have hstep := fun flag => @ih fuel (curse + c.bytes.length) flag hrest (by omega)
      simp only [hb, List.cons_append] at hinc hdrop htake hstep ⊢
      rw [labelLoop]
      simp only [hinc, hdrop, htake, hstep, List.head?_cons, Option.some.injEq, decide_eq_true_eq]
      split
      · rfl
      · split
        · simp only [Option.map_some, List.map_cons, tokenOf, hb]
        · simp only [Option.map_some, List.map_cons, tokenOf, hb]

end

end TextMining.CrfDataNoSeg
