import TextMining.Lib.Cooccurrence
import TextMining.WordNet.Invariant

/-!
# The first indexer of posts

`RecordTerm`, `ParseLineOriginal` and `AddCooc` of `WeiboProcessor`, over an
arbitrary string hash. A post is the terms that the segmenter finds in it and
that are neither short nor of a low idf. A write or a read past the end of
`mRelateInfo` ends the run. The field `df_history`, which is never set, and the
log calls are left out.
-/

namespace TextMining.WeiboWordNet

open WordNet (RelateTermInfo)
open WordNet.State (positions)

def stlHashString (s : List UInt8) : UInt32 :=
  s.foldl (fun h c => 5 * h + c.toInt8.toInt32.toUInt32) 0

structure WordItem where
  term : List UInt8
  isGoodTerm : Bool

abbrev Post := List WordItem

def Post.terms (post : Post) : List (List UInt8) := post.map WordItem.term

structure TermInfo where
  termstr : List UInt8
  dfNow : UInt32
  relateTermNum : UInt32
  coocTerm : HashMap UInt32 Nat

structure State where
  mTermIndex : HashMap UInt32 Nat
  mTermInfo : List TermInfo
  mRelateInfo : List RelateTermInfo
  mTermNum : Nat
  mRelateTermNum : Nat
  mWeiboNum : UInt64

def State.empty : State := ⟨∅, [], [], 0, 0, 0⟩

namespace State

def modifyTerm (s : State) (i : Nat) (f : TermInfo → TermInfo) : State :=
  { s with mTermInfo := s.mTermInfo.modify i f }

def findCooc (s : State) (i : Nat) (hash : UInt32) : Option Nat :=
  s.mTermInfo[i]?.bind fun t => t.coocTerm.lookup hash

/-- The body of the loops of `AddCooc` for two different terms of the post.
The counter moves on before it is stored. -/
def addPair (s : State) (hashI hashJ : UInt32) : Option State :=
  let termIndex := (s.mTermIndex.lookup hashI).getD 0
  match s.findCooc termIndex hashJ with
  | none =>
    let s := { s with
      mRelateTermNum := s.mRelateTermNum + 1
      mRelateInfo := s.mRelateInfo ++ [RelateTermInfo.fresh] }
    some <| s.modifyTerm termIndex fun t =>
      { t with
        coocTerm := t.coocTerm.insert hashJ s.mRelateTermNum
        relateTermNum := t.relateTermNum + 1 }
  | some relateIndex =>
    if relateIndex < s.mRelateInfo.length then
      some { s with mRelateInfo :=
        s.mRelateInfo.modify relateIndex fun r => { r with numNow := r.numNow + 1 } }
    else none

def addCooc (s : State) (hashValues : List UInt32) : Option State :=
  (positions hashValues.length).foldlM
    (fun s p => s.addPair (hashValues.getD p.1 0) (hashValues.getD p.2 0)) s

section
variable (hashString : List UInt8 → UInt32)

/-- The answer is `false` for -1. -/
def recordTerm (s : State) (item : WordItem) : Bool × State :=
  let isGoodTerm : UInt32 := if item.isGoodTerm then 1 else 0
  let hashValue := hashString item.term
  match s.mTermIndex.lookup hashValue with
  | none =>
    let s := { s with
      mTermIndex := s.mTermIndex.insert hashValue s.mTermNum
      mTermInfo := s.mTermInfo ++ [⟨snprintf 64 item.term, isGoodTerm, 0, ∅⟩]
      mTermNum := s.mTermNum + 1 }
    (s.mTermInfo.length = s.mTermNum, s)
  | some termIndex =>
    (true, s.modifyTerm termIndex fun t => { t with dfNow := t.dfNow + isGoodTerm })

/-- One term of the post; `hmInWeibo` has the hashes of `hash_values`. -/
def scanTerm (acc : State × List UInt32) (item : WordItem) : State × List UInt32 :=
  let hashValue := hashString item.term
  if hashValue ∈ acc.2 then acc
  else
    match acc.1.recordTerm hashString item with
    | (false, s) => (s, acc.2)
    | (true, s) => (s, acc.2 ++ [hashValue])

def scanTerms (s : State) (post : Post) : State × List UInt32 :=
  post.foldl (scanTerm hashString) (s, [])

def parseLineOriginal (s : State) (post : Post) : Option State :=
  let scanned := s.scanTerms hashString post
  (scanned.1.addCooc scanned.2).map fun s => { s with mWeiboNum := s.mWeiboNum + 1 }

def slotOf (s : State) (a b : List UInt8) : Option Nat :=
  (s.mTermIndex.lookup (hashString a)).bind fun i => s.findCooc i (hashString b)

end

end State

def run (hashString : List UInt8 → UInt32) (posts : List Post) : Option State :=
  posts.foldlM (State.parseLineOriginal hashString) State.empty

-- ---------------------------------------------------------------------------
-- The containers and their counters
-- ---------------------------------------------------------------------------

namespace State

structure Inv (s : State) : Prop where
  termNum : s.mTermInfo.length = s.mTermNum
  relateTermNum : s.mRelateInfo.length = s.mRelateTermNum
  index : ∀ hash i, s.mTermIndex.lookup hash = some i → i < s.mTermInfo.length

theorem inv_empty : Inv empty := ⟨rfl, rfl, fun _ _ h => by simp [empty] at h⟩

section
variable {s s' : State} {hashString : List UInt8 → UInt32}

theorem findCooc_modifyTerm {f : TermInfo → TermInfo} (hf : ∀ t, (f t).coocTerm = t.coocTerm)
    (i j : Nat) (hash : UInt32) : (s.modifyTerm i f).findCooc j hash = s.findCooc j hash := by
  simp only [findCooc, modifyTerm, List.getElem?_modify]
  split
  · cases s.mTermInfo[j]? with
    | none => rfl
    | some t => simp [hf]
  · simp

theorem Inv.recordTerm_of_none (h : Inv s) {item : WordItem}
    (hn : s.mTermIndex.lookup (hashString item.term) = none) :
    s.recordTerm hashString item = (true,
      { s with
        mTermIndex := s.mTermIndex.insert (hashString item.term) s.mTermNum
        mTermInfo := s.mTermInfo ++
          [⟨snprintf 64 item.term, if item.isGoodTerm then 1 else 0, 0, ∅⟩]
        mTermNum := s.mTermNum + 1 }) := by
  simp only [State.recordTerm, hn, List.length_append, List.length_singleton, h.termNum,
    decide_true]

theorem recordTerm_of_some {item : WordItem} {i : Nat}
    (hs : s.mTermIndex.lookup (hashString item.term) = some i) :
    s.recordTerm hashString item = (true, s.modifyTerm i fun t =>
      { t with dfNow := t.dfNow + if item.isGoodTerm then 1 else 0 }) := by
  simp only [State.recordTerm, hs]

variable (hashString) in
theorem Inv.recordTerm (h : Inv s) (item : WordItem) :
    ∃ s', s.recordTerm hashString item = (true, s') ∧ Inv s' ∧
      s'.mRelateTermNum = s.mRelateTermNum ∧
      (∀ hash, hash ∈ s'.mTermIndex ↔ hash = hashString item.term ∨ hash ∈ s.mTermIndex) ∧
      ∀ a b slot, s.slotOf hashString a b = some slot → s'.slotOf hashString a b = some slot := by
  cases hl : s.mTermIndex.lookup (hashString item.term) with
  | none =>
    refine ⟨_, h.recordTerm_of_none hl, ⟨?_, h.relateTermNum, ?_⟩, rfl,
      fun hash => AList.mem_insert _, ?_⟩
    · simp [h.termNum]
    · intro hash i hi
      rw [List.length_append, List.length_singleton]
      by_cases he : hash = hashString item.term
      · rw [he, AList.lookup_insert, Option.some.injEq, ← h.termNum] at hi
        exact hi ▸ Nat.lt_succ_self _
      · rw [AList.lookup_insert_ne he] at hi
        exact Nat.lt_succ_of_lt (h.index _ _ hi)
    · intro a b slot hs
      obtain ⟨i, hi, hf⟩ := Option.bind_eq_some_iff.mp hs
      have hne : hashString a ≠ hashString item.term := fun he => by
        rw [he, hl] at hi
        cases hi
      simp only [slotOf, AList.lookup_insert_ne hne, hi, Option.bind_some, findCooc,
        List.getElem?_append_left (h.index _ _ hi)]
      exact hf
  | some i =>
    refine ⟨_, recordTerm_of_some hl, ⟨?_, h.relateTermNum, ?_⟩, rfl, fun hash => ?_, ?_⟩
    · simpa [modifyTerm] using h.termNum
    · intro hash j hj
      simpa [modifyTerm] using h.index hash j hj
    · exact ⟨.inr, fun hh => hh.elim (fun he => he ▸ HashMap.mem_of_lookup hl) id⟩
    · intro a b slot hs
      obtain ⟨j, hj, hf⟩ := Option.bind_eq_some_iff.mp hs
      refine Option.bind_eq_some_iff.mpr ⟨j, hj, (findCooc_modifyTerm ?_ i j _).trans hf⟩
      exact fun _ => rfl

variable (hashString) in
/-- How an iteration of `AddCooc` that stays in range ends: the record of the
pair is updated, or the last slot number given out is the pair's own. -/
theorem Inv.addPair (h : Inv s) {hashI hashJ : UInt32} (hi : hashI ∈ s.mTermIndex)
    (hs : s.addPair hashI hashJ = some s') :
    Inv s' ∧ s'.mTermIndex = s.mTermIndex ∧ 0 < s'.mRelateTermNum ∧
      (s'.mRelateTermNum = s.mRelateTermNum ∧ s'.mTermInfo = s.mTermInfo ∨
        ∀ a b, hashString a = hashI → hashString b = hashJ →
          s'.slotOf hashString a b = some s'.mRelateTermNum) := by
  obtain ⟨i, hl⟩ := HashMap.exists_of_mem hi
  have hlt := h.index _ _ hl
  simp only [State.addPair, hl, Option.getD_some] at hs
  cases hf : s.findCooc i hashJ with
  | none =>
    simp only [hf, Option.some.injEq] at hs
    subst hs
    refine ⟨⟨?_, ?_, ?_⟩, rfl, Nat.succ_pos _, .inr ?_⟩
    · simpa [modifyTerm] using h.termNum
    · simp [modifyTerm, h.relateTermNum]
    · intro hash j hj
      simpa [modifyTerm] using h.index hash j hj
    · rintro a b rfl rfl
      simp [slotOf, modifyTerm, hl, findCooc, hlt]
  | some slot =>
    simp only [hf] at hs
    split at hs
    · rename_i hslot
      cases hs
      refine ⟨⟨h.termNum, ?_, h.index⟩, rfl, ?_, .inl ⟨rfl, rfl⟩⟩
      · simpa using h.relateTermNum
      · exact h.relateTermNum ▸ Nat.zero_lt_of_lt hslot
    · cases hs

end

end State

end TextMining.WeiboWordNet
