import TextMining.Lib.Bytes
import Mathlib.Data.List.Range
import Mathlib.Data.List.Sort

/-!
# The sentences of an article

`sentence_number` of the article checker. The closing test compares the last
cut with `length - 1` where it means `length`, so a sentence of the last word
alone is not closed.
-/

namespace TextMining.HotBlog

/-- A word of the segmenter: the tag of its part of speech, and the C string
that `uniToBytes` makes of it. -/
structure Word where
  postagid : UInt8
  bytes : List UInt8

/-- The GBK strings `a`, `b`, `bb`, `c`, `cc`, `d` and `dd`. -/
def terminators : List (List UInt8) :=
  [[0xa1, 0xa3], [0xa3, 0xbf], text "?", [0xa3, 0xa1], text "!", [0xa3, 0xbb], text ";"]

def endsSentence (wordlist : List Word) (i : Nat) : Bool :=
  match wordlist[i]? with
  | none => false
  | some word => terminators.contains word.bytes

def punctuation (wordlist : List Word) (i : Nat) : Bool :=
  match wordlist[i]? with
  | none => false
  | some word => !(word.postagid < 150 || word.postagid > 156)

/-- The body of the loop; `sentenceLen`, which nothing reads, is left out. -/
def sentenceStep (wordlist : List Word) (segments : List Nat) (i : Nat) : List Nat :=
  if punctuation wordlist i then
    if endsSentence wordlist i then
      if endsSentence wordlist (i + 1) then segments else segments ++ [i + 1]
    else segments
  else segments

def sentenceNumber (wordlist : List Word) (start length : Nat) (segments : List Nat) :
    Nat × List Nat :=
  let segments := (List.range' start (start + length - 1 - start)).foldl (sentenceStep wordlist)
    (segments ++ [0])
  let sentencenum := segments.length - 1
  if (segments.getD sentencenum 0 : Int) ≠ (length : Int) - 1 then
    (sentencenum + 1, segments ++ [length])
  else (sentencenum, segments)

/-- `checkArticle` calls `body_judge`, which divides by the number. -/
def bodyJudged (wordlist : List Word) : Prop :=
  ¬ ((sentenceNumber wordlist 0 wordlist.length []).1 ≤ 2 ∧ wordlist.length ≤ 20)

/-- The number `k` and the cuts divide the words into `k` ranges. -/
structure Covers (wordlist : List Word) (k : Nat) (segments : List Nat) : Prop where
  entries : k + 1 ≤ segments.length
  first : segments[0]? = some 0
  increasing : segments.Pairwise (· < ·)
  last : segments[k]? = some wordlist.length
  divides : bodyJudged wordlist → 1 ≤ k

-- ---------------------------------------------------------------------------
-- The cuts
-- ---------------------------------------------------------------------------

def cutAfter (wordlist : List Word) (i : Nat) : Bool :=
  punctuation wordlist i && endsSentence wordlist i && !endsSentence wordlist (i + 1)

def LastWordAlone (wordlist : List Word) : Prop :=
  wordlist.length = 1 ∨ ∃ i, i + 2 = wordlist.length ∧ cutAfter wordlist i = true

section
variable (wordlist : List Word)

theorem foldl_sentenceStep (is segments : List Nat) :
    is.foldl (sentenceStep wordlist) segments =
      segments ++ (is.filter (cutAfter wordlist)).map (· + 1) := by
  induction is generalizing segments with
  | nil => simp
  | cons i is ih =>
    have hstep : sentenceStep wordlist segments i =
        if cutAfter wordlist i then segments ++ [i + 1] else segments := by
      rw [sentenceStep, cutAfter]
      cases punctuation wordlist i <;> cases endsSentence wordlist i <;>
        cases endsSentence wordlist (i + 1) <;> rfl
    rw [List.foldl_cons, ih, hstep, List.filter_cons]
    split
    · rw [List.map_cons, List.append_assoc, List.singleton_append]
    · rfl

def cuts : List Nat :=
  0 :: ((List.range (wordlist.length - 1)).filter (cutAfter wordlist)).map (· + 1)

theorem pairwise_cuts : (cuts wordlist).Pairwise (· < ·) := by
  refine List.pairwise_cons.mpr ⟨fun n hn => ?_, ?_⟩
  · obtain ⟨i, -, rfl⟩ := List.mem_map.mp hn
    exact Nat.succ_pos i
  · exact List.pairwise_map.mpr
      ((List.pairwise_lt_range.filter _).imp fun h => Nat.succ_lt_succ h)

theorem mem_cuts {n : Nat} : n ∈ cuts wordlist ↔
    n = 0 ∨ ∃ i, i + 1 = n ∧ n < wordlist.length ∧ cutAfter wordlist i = true := by
  rw [cuts, List.mem_cons, List.mem_map]
  refine or_congr Iff.rfl (exists_congr fun i => ?_)
  rw [List.mem_filter, List.mem_range]
  constructor
  · rintro ⟨⟨hlt, hcut⟩, rfl⟩
    exact ⟨rfl, by omega, hcut⟩
  · rintro ⟨rfl, hlt, hcut⟩
    exact ⟨⟨by omega, hcut⟩, rfl⟩

def lastCut : Nat := (cuts wordlist).getLast (List.cons_ne_nil _ _)

theorem le_lastCut {n : Nat} (h : n ∈ cuts wordlist) : n ≤ lastCut wordlist := by
  have hsplit := List.dropLast_append_getLast (List.cons_ne_nil 0
    (((List.range (wordlist.length - 1)).filter (cutAfter wordlist)).map (· + 1)))
  have hp := pairwise_cuts wordlist
  rw [cuts, ← hsplit] at h hp
  rcases List.mem_append.mp h with h | h
  · exact ((List.pairwise_append.mp hp).2.2 n h _ List.mem_cons_self).le
  · exact (List.mem_singleton.mp h).le

theorem lastCut_eq_iff (hpos : 1 ≤ wordlist.length) :
    lastCut wordlist = wordlist.length - 1 ↔ LastWordAlone wordlist := by
  have hmem : lastCut wordlist ∈ cuts wordlist := List.getLast_mem _
  constructor
  · intro h
    rw [h] at hmem
    rcases (mem_cuts wordlist).mp hmem with h0 | ⟨i, hi, -, hcut⟩
    · exact .inl (by omega)
    · exact .inr ⟨i, by omega, hcut⟩
  · intro h
    have hle : lastCut wordlist ≤ wordlist.length - 1 := by
      rcases (mem_cuts wordlist).mp hmem with h0 | ⟨i, hi, hlt, -⟩ <;> omega
    refine Nat.le_antisymm hle ?_
    rcases h with hone | ⟨i, hi, hcut⟩
    · omega
    · have := le_lastCut wordlist ((mem_cuts wordlist).mpr
        (.inr ⟨i, rfl, by omega, hcut⟩))
      omega

theorem getLast?_cuts : (cuts wordlist)[(cuts wordlist).length - 1]? = some (lastCut wordlist) := by
  rw [← List.getLast?_eq_getElem?]
  exact List.getLast?_eq_some_getLast _

theorem sentenceNumber_eq (hpos : 1 ≤ wordlist.length) :
    sentenceNumber wordlist 0 wordlist.length [] =
      if lastCut wordlist = wordlist.length - 1 then
        ((cuts wordlist).length - 1, cuts wordlist)
      else ((cuts wordlist).length, cuts wordlist ++ [wordlist.length]) := by
  have hloop : (List.range' 0 (0 + wordlist.length - 1 - 0)).foldl (sentenceStep wordlist)
      ([] ++ [0]) = cuts wordlist := by
    rw [foldl_sentenceStep, Nat.zero_add, Nat.sub_zero, ← List.range_eq_range']
    rfl
  have hlast : (cuts wordlist).getD ((cuts wordlist).length - 1) 0 = lastCut wordlist := by
    rw [List.getD_eq_getElem?_getD, getLast?_cuts, Option.getD_some]
  have hlen : (cuts wordlist).length - 1 + 1 = (cuts wordlist).length :=
    Nat.sub_add_cancel (Nat.succ_pos _)
  simp only [sentenceNumber, hloop, hlast, hlen]
  have hcond : ((lastCut wordlist : Int) ≠ (wordlist.length : Int) - 1) ↔
      ¬ lastCut wordlist = wordlist.length - 1 := by omega
  by_cases h : lastCut wordlist = wordlist.length - 1
  · rw [if_neg (not_not.mpr h ∘ hcond.mp), if_pos h]
  · rw [if_pos (hcond.mpr h), if_neg h]

/-- The ranges cover the words if and only if the last word is no sentence of
its own. -/
theorem sentenceNumber_covers_iff (hpos : 1 ≤ wordlist.length) :
    Covers wordlist (sentenceNumber wordlist 0 wordlist.length []).1
        (sentenceNumber wordlist 0 wordlist.length []).2 ↔ ¬ LastWordAlone wordlist := by
  have hnum := sentenceNumber_eq wordlist hpos
  rw [← lastCut_eq_iff wordlist hpos]
  by_cases h : lastCut wordlist = wordlist.length - 1
  · rw [if_pos h] at hnum
    rw [hnum]
    refine iff_of_false (fun hc => ?_) (not_not.mpr h)
    have := Option.some.inj ((getLast?_cuts wordlist).symm.trans hc.last)
    omega
  · rw [if_neg h] at hnum
    rw [hnum]
    refine iff_of_true ?_ h
    constructor
    · rw [List.length_append, List.length_singleton]
    · rfl
    · refine List.pairwise_append.mpr ⟨pairwise_cuts wordlist, List.pairwise_singleton _ _, ?_⟩
      intro n hn m hm
      rw [List.mem_singleton.mp hm]
      rcases (mem_cuts wordlist).mp hn with h0 | ⟨i, hi, hlt, -⟩ <;> omega
    · exact List.getElem?_concat_length
    · exact fun _ => Nat.succ_pos _

end

theorem sentenceNumber_covers_two :
    Covers [⟨95, [97]⟩, ⟨150, [33]⟩]
      (sentenceNumber [⟨95, [97]⟩, ⟨150, [33]⟩] 0 2 []).1
      (sentenceNumber [⟨95, [97]⟩, ⟨150, [33]⟩] 0 2 []).2 := by
  refine (sentenceNumber_covers_iff [⟨95, [97]⟩, ⟨150, [33]⟩] (by decide)).mpr ?_
  rintro (h | ⟨i, hi, hcut⟩)
  · cases h
  · obtain rfl : i = 0 := by simpa using hi
    revert hcut
    decide +kernel

/-- The words "a", "!" and "b": the last one is dropped. -/
theorem last_word_dropped :
    let wordlist : List Word := [⟨95, [97]⟩, ⟨150, [33]⟩, ⟨95, [98]⟩]
    sentenceNumber wordlist 0 3 [] = (1, [0, 2]) ∧
      ¬ Covers wordlist (sentenceNumber wordlist 0 3 []).1 (sentenceNumber wordlist 0 3 []).2 := by
  intro wordlist
  have hnum : sentenceNumber wordlist 0 3 [] = (1, [0, 2]) := by decide +kernel
  refine ⟨hnum, fun h => ?_⟩
  have hlast := h.last
  rw [hnum] at hlast
  exact absurd hlast (by decide)

end TextMining.HotBlog
