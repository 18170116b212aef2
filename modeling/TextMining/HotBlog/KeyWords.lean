import TextMining.Lib.Bytes
import TextMining.Lib.HashMap
import Mathlib

/-!
# Scores of keywords

`FindKeyWord` and `ScoreText` of `CKeyWordsManager`, over an arbitrary string
matcher. In the mode for the largest score `ScoreText` adds a score that is
not larger than the one so far.
-/

namespace TextMining.HotBlog

structure WordEntry where
  word : List UInt8
  findnum : Int

structure MatchEntry where
  wordlist : List WordEntry

structure FindResult where
  ret : Int
  watchNum : Int
  watchWord : List (List UInt8 × Int)
  machine : Option MatchEntry

def watchWords (wordlist : List WordEntry) : List (List UInt8 × Int) :=
  (wordlist.filter fun w => 0 < w.findnum).map fun w => (w.word, w.findnum)

def WordEntry.reset (w : WordEntry) : WordEntry := if 0 < w.findnum then { w with findnum := 0 } else w

section
variable (findAllUntilNull : List UInt8 → MatchEntry → MatchEntry)

def findKeyWord (text : List UInt8) (machine : Option MatchEntry) (watchNum : Int)
    (watchWord : List (List UInt8 × Int)) : FindResult :=
  match machine with
  | none => ⟨-1, watchNum, watchWord, none⟩
  | some m =>
    if m.wordlist.length = 0 then ⟨-1, watchNum, watchWord, some m⟩
    else
      let m := findAllUntilNull text m
      ⟨m.wordlist.length, ((watchWords m.wordlist).map Prod.snd).sum, watchWords m.wordlist,
        some ⟨m.wordlist.map WordEntry.reset⟩⟩

def scoreWord (mapScore : HashMap (List UInt8) Int) (bSum : Bool) (nScore : Int)
    (w : List UInt8 × Int) : Int :=
  match mapScore.lookup w.1 with
  | none => nScore
  | some score => if score > nScore ∧ bSum = false then score else nScore + score

def scoreWords (mapScore : HashMap (List UInt8) Int) (bSum : Bool)
    (vecWatchWords : List (List UInt8 × Int)) : Int :=
  vecWatchWords.foldl (scoreWord mapScore bSum) 0

def scoreText (pKeyWords : Option MatchEntry) (mapScore : HashMap (List UInt8) Int)
    (strText : List UInt8) (bSum : Bool) : Int × Option MatchEntry :=
  let found := findKeyWord findAllUntilNull (cstr strText) pKeyWords 0 []
  (scoreWords mapScore bSum found.watchWord, found.machine)

-- ---------------------------------------------------------------------------
-- The purpose
-- ---------------------------------------------------------------------------

def matched (pKeyWords : Option MatchEntry) (strText : List UInt8) : List (List UInt8 × Int) :=
  (findKeyWord findAllUntilNull (cstr strText) pKeyWords 0 []).watchWord

def scores (mapScore : HashMap (List UInt8) Int) (words : List (List UInt8 × Int)) : List Int :=
  words.filterMap fun w => mapScore.lookup w.1

def largestScore (scores : List Int) : Int := scores.foldl max 0

structure ScoresWell (pKeyWords : Option MatchEntry) (mapScore : HashMap (List UInt8) Int)
    (strText : List UInt8) : Prop where
  largest : (scoreText findAllUntilNull pKeyWords mapScore strText false).1 =
    largestScore (scores mapScore (matched findAllUntilNull pKeyWords strText))
  sum : (scoreText findAllUntilNull pKeyWords mapScore strText true).1 =
    (scores mapScore (matched findAllUntilNull pKeyWords strText)).sum
  order : ∀ bSum listed, listed.Perm (matched findAllUntilNull pKeyWords strText) →
    scoreWords mapScore bSum listed = (scoreText findAllUntilNull pKeyWords mapScore strText bSum).1

def OnePositive (scores : List Int) : Prop :=
  (∀ s ∈ scores, 0 ≤ s) ∧ scores.countP (0 < ·) ≤ 1

end

-- ---------------------------------------------------------------------------
-- Scores as numbers
-- ---------------------------------------------------------------------------

/-- The loop body for a score, in the mode for the largest one. -/
def larger (n s : Int) : Int := if s > n then s else n + s

theorem scoreWords_false (mapScore : HashMap (List UInt8) Int) (words : List (List UInt8 × Int)) :
    scoreWords mapScore false words = (scores mapScore words).foldl larger 0 := by
  rw [scores, List.foldl_filterMap, scoreWords]
  refine congrArg (fun f => words.foldl f 0) (funext fun n => funext fun w => ?_)
  rw [scoreWord]
  cases mapScore.lookup w.1 with
  | none => rfl
  | some score => simp only [and_true, larger]

theorem scoreWords_true (mapScore : HashMap (List UInt8) Int) (words : List (List UInt8 × Int)) :
    scoreWords mapScore true words = (scores mapScore words).sum := by
  have hfold : scoreWords mapScore true words = (scores mapScore words).foldl (· + ·) 0 := by
    rw [scores, List.foldl_filterMap, scoreWords]
    refine congrArg (fun f => words.foldl f 0) (funext fun n => funext fun w => ?_)
    rw [scoreWord]
    cases mapScore.lookup w.1 with
    | none => rfl
    | some score => simp only [Bool.true_eq_false, and_false, if_false]
  rw [hfold, List.sum_eq_foldl]

section
variable {l : List Int} {n m : Int}

theorem foldl_max_eq (hn : m ≤ n) (h : ∀ s ∈ l, s ≤ n) (hm : n = m ∨ n ∈ l) : l.foldl max m = n := by
  induction l generalizing m with
  | nil =>
    rcases hm with rfl | hm
    · rfl
    · cases hm
  | cons s l ih =>
    obtain ⟨hs, hl⟩ := List.forall_mem_cons.mp h
    rw [List.foldl_cons]
    refine ih (max_le hn hs) hl ?_
    rcases hm with rfl | hm
    · exact .inl (max_eq_left hs).symm
    · rcases List.mem_cons.mp hm with rfl | hm
      · exact .inl (max_eq_right hn).symm
      · exact .inr hm

theorem largestScore_eq (hn : 0 < n) (h : ∀ s ∈ l, s ≤ n) (hm : n ∈ l) : largestScore l = n :=
  foldl_max_eq hn.le h (.inr hm)

theorem largestScore_nonpos (h : ∀ s ∈ l, s ≤ 0) : largestScore l = 0 :=
  foldl_max_eq le_rfl h (.inl rfl)

theorem exists_largest (h : l ≠ []) : ∃ n ∈ l, ∀ s ∈ l, s ≤ n := by
  induction l with
  | nil => exact absurd rfl h
  | cons s l ih =>
    cases l with
    | nil => exact ⟨s, List.mem_cons_self, fun t ht => (List.mem_singleton.mp ht).le⟩
    | cons t l =>
      obtain ⟨n, hn, hmax⟩ := ih (List.cons_ne_nil t l)
      rcases le_total s n with hs | hs
      · exact ⟨n, List.mem_cons_of_mem s hn, List.forall_mem_cons.mpr ⟨hs, hmax⟩⟩
      · exact ⟨s, List.mem_cons_self,
          List.forall_mem_cons.mpr ⟨le_rfl, fun u hu => (hmax u hu).trans hs⟩⟩

theorem foldl_larger_nonpos (hn : n ≤ 0) (h : ∀ s ∈ l, s ≤ 0) : l.foldl larger n ≤ 0 := by
  induction l generalizing n with
  | nil => exact hn
  | cons s l ih =>
    obtain ⟨hs, hl⟩ := List.forall_mem_cons.mp h
    refine ih ?_ hl
    rw [larger]
    split <;> omega

theorem foldl_larger_add (h : ∀ s ∈ l, 0 ≤ s ∧ s ≤ n) : l.foldl larger n = n + l.sum := by
  induction l generalizing n with
  | nil => simp
  | cons s l ih =>
    obtain ⟨hs, hl⟩ := List.forall_mem_cons.mp h
    rw [List.foldl_cons, larger, if_neg (not_lt.mpr hs.2), List.sum_cons,
      ih fun t ht => ⟨(hl t ht).1, (hl t ht).2.trans (by omega)⟩, add_assoc]

theorem foldl_larger_of_onePositive (h : OnePositive l) : l.foldl larger 0 = largestScore l := by
  induction l with
  | nil => rfl
  | cons s l ih =>
    obtain ⟨hall, hcount⟩ := h
    obtain ⟨hs, hl⟩ := List.forall_mem_cons.mp hall
    rcases hs.eq_or_lt with rfl | hpos
    · rw [List.countP_cons_of_neg (by simp)] at hcount
      exact ih ⟨hl, hcount⟩
    · rw [List.countP_cons_of_pos (by simpa using hpos)] at hcount
      have hzero : ∀ t ∈ l, t = 0 := by
        have hnone := List.countP_eq_zero.mp (Nat.le_zero.mp (Nat.le_of_succ_le_succ hcount))
        intro t ht
        have hle : ¬ 0 < t := by simpa using hnone t ht
        have := hl t ht
        omega
      have hsum : l.sum = 0 := List.sum_eq_zero hzero
      rw [List.foldl_cons, larger, if_pos hpos,
        foldl_larger_add fun t ht => by rw [hzero t ht]; exact ⟨le_rfl, hpos.le⟩, hsum, add_zero]
      refine (largestScore_eq hpos (fun t ht => ?_) List.mem_cons_self).symm
      rcases List.mem_cons.mp ht with rfl | ht
      · exact le_rfl
      · rw [hzero t ht]
        exact hpos.le

theorem countP_pos_le_one (h : ∀ l' : List Int, l'.Perm l → l'.foldl larger 0 = largestScore l) :
    l.countP (0 < ·) ≤ 1 := by
  cases l with
  | nil => exact Nat.zero_le 1
  | cons s₀ l₀ =>
    generalize hl : s₀ :: l₀ = l at h
    obtain ⟨n, hn, hmax⟩ := exists_largest (hl ▸ List.cons_ne_nil s₀ l₀)
    rcases le_or_gt n 0 with hneg | hpos
    · have hnone : l.countP (0 < ·) = 0 := List.countP_eq_zero.mpr fun s hs => by
        simpa using (hmax s hs).trans hneg
      omega
    · obtain ⟨pre, post, rfl⟩ := List.append_of_mem hn
      have hparts := List.filter_append_perm (fun s => decide (s < 0)) (pre ++ post)
      generalize hneg : (pre ++ post).filter (fun s => decide (s < 0)) = negs at hparts
      generalize hrest : (pre ++ post).filter (fun s => !decide (s < 0)) = rest at hparts
      have hnegs : ∀ s ∈ negs, s ≤ 0 := fun s hs => by
        have := (List.mem_filter.mp (hneg ▸ hs)).2
        exact (of_decide_eq_true this).le
      have hrests : ∀ s ∈ rest, 0 ≤ s ∧ s ≤ n := fun s hs => by
        obtain ⟨hm, hs⟩ := List.mem_filter.mp (hrest ▸ hs)
        refine ⟨by simpa using hs, hmax s ?_⟩
        exact (List.perm_middle.mem_iff.mpr (List.mem_cons_of_mem n hm))
      have hp : (negs ++ n :: rest).Perm (pre ++ n :: post) :=
        List.perm_middle.trans ((hparts.cons n).trans List.perm_middle.symm)
      have hlt : negs.foldl larger 0 < n := (foldl_larger_nonpos le_rfl hnegs).trans_lt hpos
      have hfold := h _ hp
      rw [List.foldl_append, List.foldl_cons, larger, if_pos hlt, foldl_larger_add hrests,
        largestScore_eq hpos hmax hn] at hfold
      have hsum : rest.sum = 0 := by omega
      have hzero : rest.countP (0 < ·) = 0 := List.countP_eq_zero.mpr fun s hs => by
        have hle := List.single_le_sum (fun t ht => (hrests t ht).1) s hs
        simpa using hle.trans hsum.le
      have hnzero : negs.countP (0 < ·) = 0 := List.countP_eq_zero.mpr fun s hs => by
        simpa using hnegs s hs
      rw [← hp.countP_eq, List.countP_append, List.countP_cons, hzero, hnzero]
      split <;> omega

theorem nonneg_of_largest (h : ∀ l' : List Int, l'.Perm l → l'.foldl larger 0 = largestScore l) :
    ∀ s ∈ l, 0 ≤ s := by
  intro s hs
  by_contra hneg
  have hneg := not_le.mp hneg
  have hone := countP_pos_le_one h
  obtain ⟨pre, post, rfl⟩ := List.append_of_mem hs
  have hsplit : (pre ++ s :: post).Perm (pre ++ post ++ [s]) :=
    List.perm_middle.trans (List.perm_append_singleton s _).symm
  by_cases hall : ∀ t ∈ pre ++ post, t ≤ 0
  · have hfold := h _ hsplit.symm
    have hbefore := foldl_larger_nonpos le_rfl hall
    have hzero : largestScore (pre ++ s :: post) = 0 := largestScore_nonpos fun t ht => by
      rcases List.mem_cons.mp (List.perm_middle.mem_iff.mp ht) with rfl | ht
      · exact hneg.le
      · exact hall t ht
    rw [List.foldl_append, List.foldl_cons, List.foldl_nil, larger, hzero] at hfold
    split at hfold <;> omega
  · push Not at hall
    obtain ⟨n, hn, hpos⟩ := hall
    obtain ⟨a, b, hab⟩ := List.append_of_mem hn
    have hp : (a ++ b ++ [n] ++ [s]).Perm (pre ++ s :: post) := by
      refine List.Perm.trans (List.Perm.append_right [s] ?_) hsplit.symm
      rw [hab]
      exact (List.perm_append_singleton n _).trans List.perm_middle.symm
    have hothers : ∀ t ∈ a ++ b, t ≤ 0 := by
      rw [← hp.countP_eq, List.countP_append, List.countP_append,
        List.countP_cons_of_pos (by simpa using hpos)] at hone
      have hnone : (a ++ b).countP (0 < ·) = 0 := by omega
      intro t ht
      simpa using List.countP_eq_zero.mp hnone t ht
    have hmax : ∀ t ∈ pre ++ s :: post, t ≤ n := by
      intro t ht
      have ht := hp.mem_iff.mpr ht
      rw [List.mem_append, List.mem_append, List.mem_singleton, List.mem_singleton] at ht
      rcases ht with (ht | rfl) | rfl
      · exact (hothers t ht).trans hpos.le
      · exact le_rfl
      · exact hneg.le.trans hpos.le
    have hfold := h _ hp
    have hlt := (foldl_larger_nonpos le_rfl hothers).trans_lt hpos
    have hmem : n ∈ pre ++ s :: post := hp.mem_iff.mp (by simp)
    rw [List.foldl_append, List.foldl_append, List.foldl_cons, List.foldl_nil, List.foldl_cons,
      List.foldl_nil, largestScore_eq hpos hmax hmem] at hfold
    rw [larger, larger, if_pos hlt, if_neg (by omega)] at hfold
    omega

theorem largest_perm_iff :
    (∀ l' : List Int, l'.Perm l → l'.foldl larger 0 = largestScore l) ↔ OnePositive l := by
  constructor
  · intro h
    exact ⟨nonneg_of_largest h, countP_pos_le_one h⟩
  · rintro ⟨hall, hcount⟩ l' hp
    have hone : OnePositive l' := ⟨fun s hs => hall s (hp.mem_iff.mp hs), hp.countP_eq _ ▸ hcount⟩
    rw [foldl_larger_of_onePositive hone, largestScore, largestScore]
    exact hp.foldl_eq 0

end

-- ---------------------------------------------------------------------------
-- Orders of the keywords
-- ---------------------------------------------------------------------------

theorem exists_perm_filterMap {α β : Type*} (f : α → Option β) {l : List α} {l' : List β}
    (h : l'.Perm (l.filterMap f)) : ∃ m : List α, m.Perm l ∧ m.filterMap f = l' := by
  induction l' generalizing l with
  | nil => exact ⟨l, .refl l, h.symm.eq_nil⟩
  | cons b l' ih =>
    obtain ⟨a, ha, hb⟩ := List.mem_filterMap.mp (h.mem_iff.mp List.mem_cons_self)
    obtain ⟨pre, post, rfl⟩ := List.append_of_mem ha
    have hrest : (b :: l').Perm (b :: (pre ++ post).filterMap f) := by
      refine h.trans ((List.perm_middle.filterMap f).trans ?_)
      rw [List.filterMap_cons_some hb]
    obtain ⟨m, hm, he⟩ := ih hrest.cons_inv
    exact ⟨a :: m, (hm.cons a).trans List.perm_middle.symm, by rw [List.filterMap_cons_some hb, he]⟩

section
variable (findAllUntilNull : List UInt8 → MatchEntry → MatchEntry)
  (pKeyWords : Option MatchEntry) (mapScore : HashMap (List UInt8) Int) (strText : List UInt8)

/-- The scores are right in every order of the matched keywords if and only if
none is negative and at most one is positive. -/
theorem scoresWell_iff : ScoresWell findAllUntilNull pKeyWords mapScore strText ↔
    OnePositive (scores mapScore (matched findAllUntilNull pKeyWords strText)) := by
  have htext : ∀ bSum, (scoreText findAllUntilNull pKeyWords mapScore strText bSum).1 =
      scoreWords mapScore bSum (matched findAllUntilNull pKeyWords strText) := fun _ => rfl
  rw [← largest_perm_iff]
  constructor
  · intro h l' hp
    obtain ⟨listed, hlisted, rfl⟩ := exists_perm_filterMap _ hp
    have horder := h.order false listed hlisted
    rw [h.largest, scoreWords_false] at horder
    exact horder
  · intro h
    have hscores : ∀ listed, listed.Perm (matched findAllUntilNull pKeyWords strText) →
        (scores mapScore listed).Perm (scores mapScore (matched findAllUntilNull pKeyWords strText)) :=
      fun listed hp => hp.filterMap _
    have hlargest := fun listed hp => h _ (hscores listed hp)
    refine ⟨?_, ?_, fun bSum listed hp => ?_⟩
    · rw [htext, scoreWords_false]
      exact h _ (.refl _)
    · rw [htext, scoreWords_true]
    · rw [htext]
      cases bSum with
      | false => rw [scoreWords_false, scoreWords_false, hlargest listed hp, h _ (.refl _)]
      | true =>
        rw [scoreWords_true, scoreWords_true]
        exact (hscores listed hp).sum_eq

end

def plainMatcher (text : List UInt8) (m : MatchEntry) : MatchEntry :=
  ⟨m.wordlist.map fun w => { w with findnum := w.findnum + text.tails.countP w.word.isPrefixOf }⟩

/-- "a" with score 3 before "b" with score 2 gives 5. -/
theorem smaller_score_added :
    let machine : MatchEntry := ⟨[⟨[97], 0⟩, ⟨[98], 0⟩]⟩
    let mapScore : HashMap (List UInt8) Int := HashMap.insertAll ∅ [⟨[97], 3⟩, ⟨[98], 2⟩]
    (scoreText plainMatcher (some machine) mapScore [97, 98] false).1 = 5 ∧
      largestScore (scores mapScore (matched plainMatcher (some machine) [97, 98])) = 3 ∧
      ¬ ScoresWell plainMatcher (some machine) mapScore [97, 98] := by
  intro machine mapScore
  have htext : (scoreText plainMatcher (some machine) mapScore [97, 98] false).1 = 5 := by
    decide +kernel
  have hlargest : largestScore (scores mapScore (matched plainMatcher (some machine) [97, 98])) = 3 :=
    by decide +kernel
  refine ⟨htext, hlargest, fun h => ?_⟩
  have := htext.symm.trans (h.largest.trans hlargest)
  exact absurd this (by decide)

end TextMining.HotBlog
