import TextMining.Algorithms.FindTwoSubstring

/-!
# The longest substring of two characters, by counting

`FindMaxSubstring` of `find_two_substring_daiwei.cc`, a window with a count of
every character. The length is an `int`, so the program is right on strings
below the range of an `int`, where it agrees with the other one.
-/

namespace TextMining.FindTwoSubstringDaiwei

open Windows

structure State where
  bucket : List Int
  bucketSize : Int
  head : Nat
  maxLength : Int
  deriving DecidableEq, Repr

def bump (bucket : List Int) (c : UInt8) (delta : Int) : Option (List Int × Int) := do
  let v ← bucket[c.toNat]?
  return (bucket.set c.toNat (v + delta), v + delta)

def shrink (str : List UInt8) : Nat → State → Option State
  | 0, _ => none
  | rounds + 1, s =>
    if 2 < s.bucketSize then do
      let c ← str[s.head]?
      let (bucket, v) ← bump s.bucket c (-1)
      let bucketSize := if v = 0 then s.bucketSize - 1 else s.bucketSize
      shrink str rounds { s with bucket, bucketSize, head := s.head + 1 }
    else some s

def settle (str : List UInt8) (v : Int) (s : State) : Option State :=
  if v = 1 then shrink str (str.length + 1) { s with bucketSize := s.bucketSize + 1 } else some s

def round (str : List UInt8) (s : State) (i : Nat) : Option State := do
  let c ← str[i]?
  let (bucket, v) ← bump s.bucket c 1
  let s ← settle str v { s with bucket }
  return { s with maxLength := max s.maxLength (i - s.head + 1) }

def strlen (str : List UInt8) : Nat := (str.takeWhile (· ≠ 0)).length

def length (str : List UInt8) : Int := (Int32.ofNat (strlen str)).toInt

def findMaxSubstring (str : List UInt8) : Option Int := do
  let s ← (List.range (length str).toNat).foldlM (round str) ⟨List.replicate 128 0, 0, 0, 0⟩
  return s.maxLength

example : findMaxSubstring [1, 2, 2, 3, 3, 2, 1, 0] = some 5 := by decide

-- ---------------------------------------------------------------------------
-- The counts
-- ---------------------------------------------------------------------------

variable {bucket : List Int} {w w' d pre rest : List UInt8} {c x : UInt8} {s : State}

structure Counts (bucket : List Int) (w : List UInt8) : Prop where
  length : bucket.length = 128
  value : ∀ c : UInt8, c.toNat < 128 → bucket[c.toNat]? = some (w.count c : Int)

theorem Counts.bumped {delta : Int} (h : Counts bucket w) (hc : c.toNat < 128)
    (hw : ∀ e, (w'.count e : Int) = w.count e + if e = c then delta else 0) :
    ∃ bucket', bump bucket c delta = some (bucket', (w'.count c : Int)) ∧ Counts bucket' w' := by
  have hv : (w'.count c : Int) = w.count c + delta := by rw [hw c, if_pos rfl]
  refine ⟨bucket.set c.toNat (w'.count c), ?_, by rw [List.length_set, h.length], fun e he => ?_⟩
  · rw [bump, h.value c hc, hv]
    rfl
  · by_cases hec : e = c
    · subst hec
      rw [List.getElem?_set_self (by rw [h.length]; exact hc)]
    · have hne : c.toNat ≠ e.toNat := fun he => hec (UInt8.toNat_inj.mp he.symm)
      rw [List.getElem?_set_ne hne, h.value e he, hw e, if_neg hec, Int.add_zero]

theorem Counts.push (h : Counts bucket w) (hc : c.toNat < 128) :
    ∃ bucket', bump bucket c 1 =
      some (bucket', ((w ++ [c]).count c : Int)) ∧ Counts bucket' (w ++ [c]) := by
  refine h.bumped hc fun e => ?_
  by_cases hec : e = c
  · subst hec
    simp
  · simp [List.count_append, hec, Ne.symm hec]

theorem Counts.pop (h : Counts bucket (x :: w)) (hx : x.toNat < 128) :
    ∃ bucket', bump bucket x (-1) = some (bucket', (w.count x : Int)) ∧
      Counts bucket' w := by
  refine h.bumped hx fun e => ?_
  by_cases hex : e = x
  · subst hex
    rw [List.count_cons_self, if_pos rfl]
    omega
  · simp [hex, Ne.symm hex]

theorem card_cons (x : UInt8) (w : List UInt8) : (x :: w).toFinset.card =
    if w.count x = 0 then w.toFinset.card + 1 else w.toFinset.card := by
  rw [List.toFinset_cons]
  by_cases hx : x ∈ w
  · have hpos := List.count_pos_iff.mpr hx
    rw [Finset.insert_eq_of_mem (List.mem_toFinset.mpr hx), if_neg (by omega)]
  · rw [Finset.card_insert_of_notMem (mt List.mem_toFinset.mp hx),
      if_pos (List.count_eq_zero.mpr hx)]

theorem card_concat (w : List UInt8) (c : UInt8) : (w ++ [c]).toFinset.card =
    if (w ++ [c]).count c = 1 then w.toFinset.card + 1 else w.toFinset.card := by
  have hfin : (w ++ [c]).toFinset = (c :: w).toFinset := by
    ext e
    simp
  have hiff : (w ++ [c]).count c = 1 ↔ w.count c = 0 := by simp
  rw [hfin, card_cons]
  simp only [hiff]

-- ---------------------------------------------------------------------------
-- The window
-- ---------------------------------------------------------------------------

structure Window (pre w : List UInt8) (s : State) : Prop where
  head : s.head = pre.length
  counts : Counts s.bucket w
  size : s.bucketSize = w.toFinset.card

theorem shrink_spec {rounds : Nat} (h : Window pre w s) (hchars : ∀ c ∈ w, c.toNat < 128)
    (rest : List UInt8) (hrounds : w.length < rounds) :
    ∃ s' pre' w', shrink (pre ++ w ++ rest) rounds s = some s' ∧ pre ++ w = pre' ++ w' ∧
      Window pre' w' s' ∧ LongestSuffix AtMostTwo w w' ∧ s'.maxLength = s.maxLength := by
  induction w generalizing pre s rounds with
  | nil =>
    obtain ⟨rounds, rfl⟩ : ∃ n, rounds = n + 1 := ⟨rounds - 1, by simp at hrounds; omega⟩
    have hsize : ¬ 2 < s.bucketSize := by rw [h.size]; simp
    exact ⟨s, pre, [], if_neg hsize, rfl, h, LongestSuffix.self (by simp [AtMostTwo]), rfl⟩
  | cons x w ih =>
    obtain ⟨rounds, rfl⟩ : ∃ n, rounds = n + 1 := ⟨rounds - 1, by omega⟩
    by_cases hsize : 2 < s.bucketSize
    · have hbad : ¬ AtMostTwo (x :: w) := by
        have hcard := h.size
        rw [AtMostTwo]
        omega
      obtain ⟨hx, hchars⟩ := List.forall_mem_cons.mp hchars
      obtain ⟨bucket', hpop, hcounts⟩ := h.counts.pop hx
      have hget : (pre ++ x :: w ++ rest)[s.head]? = some x := by rw [h.head]; simp
      have hnext : Window (pre ++ [x]) w { s with
          bucket := bucket'
          bucketSize := if (w.count x : Int) = 0 then s.bucketSize - 1 else s.bucketSize
          head := s.head + 1 } := by
        refine ⟨by simp [h.head], hcounts, ?_⟩
        have hcard := card_cons x w
        have hsize := h.size
        by_cases hzero : w.count x = 0
        · rw [if_pos hzero] at hcard
          have hz : (w.count x : Int) = 0 := by omega
          simp only [hz, if_true]
          omega
        · rw [if_neg hzero] at hcard
          have hne : ¬ (w.count x : Int) = 0 := by omega
          simp only [hne, if_false]
          omega
      obtain ⟨s', pre', w', hrun, hsplit, hwindow, hlongest, hmax⟩ :=
        ih hnext hchars (Nat.lt_of_succ_lt_succ hrounds)
      refine ⟨s', pre', w', ?_, ?_, hwindow, hlongest.cons hbad, hmax⟩
      · rw [shrink, if_pos hsize, hget]
        simp only [Option.bind_eq_bind, Option.bind_some, hpop]
        rw [← hrun]
        simp
      · rw [← hsplit]
        simp
    · have hgood : AtMostTwo (x :: w) := by
        have hcard := h.size
        rw [AtMostTwo]
        omega
      exact ⟨s, pre, x :: w, if_neg hsize, rfl, h, LongestSuffix.self hgood, rfl⟩

structure Scanned (d pre w : List UInt8) (n : Nat) (s : State) : Prop where
  split : d = pre ++ w
  window : Window pre w s
  suffix : LongestSuffix AtMostTwo d w
  maxLength : s.maxLength = n
  longest : Longest AtMostTwo d n

theorem scanned_nil : Scanned [] [] [] 0 ⟨List.replicate 128 0, 0, 0, 0⟩ where
  split := rfl
  window :=
    { head := rfl
      counts := ⟨List.length_replicate, fun c hc => by rw [List.getElem?_replicate, if_pos hc]; rfl⟩
      size := rfl }
  suffix := LongestSuffix.self (by simp [AtMostTwo])
  maxLength := rfl
  longest := longest_nil (by simp [AtMostTwo])

theorem Scanned.settled {n : Nat} {bucket' : List Int} (h : Scanned d pre w n s)
    (hcounts : Counts bucket' (w ++ [c])) (hw : ∀ e ∈ w ++ [c], e.toNat < 128)
    (rest : List UInt8) :
    ∃ s' pre' w', settle (d ++ c :: rest) ((w ++ [c]).count c) { s with bucket := bucket' } =
        some s' ∧ d ++ [c] = pre' ++ w' ∧ Window pre' w' s' ∧ LongestSuffix AtMostTwo (w ++ [c]) w' ∧ s'.maxLength = s.maxLength := by
  have hcard := card_concat w c
  have hsize := h.window.size
  have hsplit : d ++ c :: rest = pre ++ (w ++ [c]) ++ rest := by simp [h.split]
  by_cases hnew : (w ++ [c]).count c = 1
  · have hone : ((w ++ [c]).count c : Int) = 1 := by omega
    rw [if_pos hnew] at hcard
    have hwindow : Window pre (w ++ [c])
        { s with bucket := bucket', bucketSize := s.bucketSize + 1 } :=
      ⟨h.window.head, hcounts, by simp only; omega⟩
    have hrounds : (w ++ [c]).length < (d ++ c :: rest).length + 1 := by
      rw [hsplit]
      simp
      omega
    obtain ⟨s', pre', w', hrun, hsplit', hwindow', hlongest, hmax⟩ :=
      shrink_spec hwindow hw rest hrounds
    refine ⟨s', pre', w', ?_, ?_, hwindow', hlongest, hmax⟩
    · rw [settle, if_pos hone, hsplit]
      rwa [hsplit] at hrun
    · rw [← hsplit', h.split, List.append_assoc]
  · have hone : ¬ ((w ++ [c]).count c : Int) = 1 := by omega
    rw [if_neg hnew] at hcard
    have hgood : AtMostTwo (w ++ [c]) := by
      have hle : w.toFinset.card ≤ 2 := h.suffix.good
      rw [AtMostTwo]
      omega
    refine ⟨_, pre, w ++ [c], if_neg hone, ?_, ⟨h.window.head, hcounts, ?_⟩,
      LongestSuffix.self hgood, rfl⟩
    · rw [h.split, List.append_assoc]
    · simp only
      omega

theorem Scanned.step {n : Nat} (h : Scanned d pre w n s) (hw : ∀ e ∈ w ++ [c], e.toNat < 128)
    (rest : List UInt8) :
    ∃ s' pre' w' n', round (d ++ c :: rest) s d.length = some s' ∧
      Scanned (d ++ [c]) pre' w' n' s' := by
  obtain ⟨bucket', hpush, hcounts⟩ := h.window.counts.push (hw c (by simp))
  obtain ⟨s', pre', w', hrun, hsplit, hwindow, hlongest, hmax⟩ := h.settled hcounts hw rest
  have hget : (d ++ c :: rest)[d.length]? = some c := by simp
  have hsuffix := h.suffix.concat hereditary_atMostTwo hlongest
  have hlen : (d.length : Int) - s'.head + 1 = w'.length := by
    have hl := congrArg List.length hsplit
    simp only [List.length_append, List.length_singleton] at hl
    rw [hwindow.head]
    omega
  refine ⟨{ s' with maxLength := max s'.maxLength (d.length - s'.head + 1) }, pre', w',
    max n w'.length, ?_, ⟨hsplit, ⟨hwindow.head, hwindow.counts, hwindow.size⟩, hsuffix, ?_,
      h.longest.concat hsuffix⟩⟩
  · rw [round, hget]
    simp only [Option.bind_eq_bind, Option.bind_some, hpush, hrun]
    rfl
  · simp only
    rw [hmax, h.maxLength, hlen]
    omega

-- ---------------------------------------------------------------------------
-- The whole string
-- ---------------------------------------------------------------------------

variable {target : List UInt8}

theorem loop_spec (hchars : ∀ c ∈ target, c.toNat < 128) (after : List UInt8) {k : Nat}
    (hk : k ≤ target.length) :
    ∃ s pre w n, (List.range k).foldlM (round (target ++ 0 :: after))
        ⟨List.replicate 128 0, 0, 0, 0⟩ = some s ∧ Scanned (target.take k) pre w n s := by
  induction k with
  | zero => exact ⟨_, [], [], 0, rfl, scanned_nil⟩
  | succ k ih =>
    obtain ⟨s, pre, w, n, hrun, h⟩ := ih (by omega)
    have htake : target.take (k + 1) = target.take k ++ [target[k]] :=
      List.take_succ_eq_append_getElem hk
    have hlen : (target.take k).length = k := List.length_take_of_le (by omega)
    have hsplit : target ++ 0 :: after =
        target.take k ++ target[k] :: (target.drop (k + 1) ++ 0 :: after) := by
      rw [← List.cons_append, ← List.drop_eq_getElem_cons hk, ← List.append_assoc,
        List.take_append_drop]
    have hw : ∀ e ∈ w ++ [target[k]], e.toNat < 128 := by
      intro e he
      have hmem : e ∈ target.take (k + 1) := by
        rw [htake, h.split, List.append_assoc]
        exact List.mem_append_right _ he
      exact hchars e (List.mem_of_mem_take hmem)
    obtain ⟨s', pre', w', n', hround, h'⟩ := h.step hw (target.drop (k + 1) ++ 0 :: after)
    rw [hlen, ← hsplit] at hround
    refine ⟨s', pre', w', n', ?_, htake ▸ h'⟩
    rw [List.range_succ, List.foldlM_append, hrun]
    simpa using hround

theorem strlen_eq (hchars : ∀ c ∈ target, c ≠ 0) (after : List UInt8) :
    strlen (target ++ 0 :: after) = target.length := by
  rw [strlen, List.takeWhile_append_of_pos (by simpa using hchars), List.takeWhile_cons_of_neg
    (by simp), List.append_nil]

theorem findMaxSubstring_spec (hchars : ∀ c ∈ target, 1 ≤ c.toNat ∧ c.toNat ≤ 127)
    (hfit : target.length < 2 ^ 31) (after : List UInt8) :
    ∃ n : Nat, findMaxSubstring (target ++ 0 :: after) = some (n : Int) ∧
      Longest AtMostTwo target n := by
  have hzero : ∀ c ∈ target, c ≠ 0 := by
    rintro c hc rfl
    exact absurd (hchars 0 hc).1 (by decide)
  have hlength : (length (target ++ 0 :: after)).toNat = target.length := by
    rw [length, strlen_eq hzero, Int32.toInt_ofNat_of_lt hfit, Int.toNat_natCast]
  obtain ⟨s, pre, w, n, hrun, h⟩ := loop_spec (fun c hc => Nat.lt_succ_of_le (hchars c hc).2) after
    (Nat.le_refl target.length)
  rw [List.take_length] at h
  refine ⟨n, ?_, h.longest⟩
  rw [findMaxSubstring, hlength, hrun, ← h.maxLength]
  rfl

/-- Both programs return the length of the longest substring with at most two
distinct characters. -/
theorem findMaxSubstring_agree (target after : List UInt8)
    (hchars : ∀ c ∈ target, 1 ≤ c.toNat ∧ c.toNat ≤ 127) (hfit : target.length < 2 ^ 31) :
    ∃ n : Nat, FindTwoSubstring.findMaxSubstring (target ++ 0 :: after) = some n ∧
      findMaxSubstring (target ++ 0 :: after) = some (n : Int) ∧ Longest AtMostTwo target n := by
  have hzero : ∀ c ∈ target, c ≠ 0 := by
    rintro c hc rfl
    exact absurd (hchars 0 hc).1 (by decide)
  obtain ⟨n, hrun, hlongest⟩ := FindTwoSubstring.findMaxSubstring_spec hzero hfit after
  obtain ⟨m, hrun', hlongest'⟩ := findMaxSubstring_spec hchars hfit after
  rw [hlongest'.unique hlongest] at hrun'
  exact ⟨n, hrun, hrun', hlongest⟩

theorem findMaxSubstring_agree_three :
    ∃ n : Nat, FindTwoSubstring.findMaxSubstring ([97, 98, 99] ++ [0]) = some n ∧
      findMaxSubstring ([97, 98, 99] ++ [0]) = some (n : Int) ∧
      Longest AtMostTwo ([97, 98, 99] : List UInt8) n :=
  findMaxSubstring_agree [97, 98, 99] [] (by simp) (by decide)

theorem findMaxSubstring_of_length {m : Nat} (hm : m = 2 ^ 31) :
    findMaxSubstring (List.replicate m 97 ++ [0]) = some 0 := by
  have hlen : strlen (List.replicate m 97 ++ [0]) = m := by
    rw [strlen_eq fun c hc => by rw [List.eq_of_mem_replicate hc]; decide, List.length_replicate]
  have hneg : (length (List.replicate m 97 ++ [0])).toNat = 0 := by
    rw [length, hlen, hm]
    decide
  rw [findMaxSubstring, hneg]
  rfl

theorem not_longest_zero {m : Nat} (hm : 0 < m) (c : UInt8) :
    ¬ Longest AtMostTwo (List.replicate m c) 0 := by
  intro h
  have hone : [c] <:+: List.replicate m c := by
    obtain ⟨k, rfl⟩ : ∃ k, m = k + 1 := ⟨m - 1, by omega⟩
    exact ⟨[], List.replicate k c, rfl⟩
  have hgood : AtMostTwo [c] := @atMostTwo_of_forall _ _ _ c c (by simp)
  exact absurd (h.le [c] hone hgood) (by simp)

/-- A string of `2 ^ 31` equal characters. -/
theorem findMaxSubstring_disagree :
    (∀ c ∈ List.replicate (2 ^ 31) (97 : UInt8), 1 ≤ c.toNat ∧ c.toNat ≤ 127) ∧
      ¬ ∃ n : Nat,
        FindTwoSubstring.findMaxSubstring (List.replicate (2 ^ 31) 97 ++ [0]) = some n ∧
        findMaxSubstring (List.replicate (2 ^ 31) 97 ++ [0]) = some (n : Int) ∧
        Longest AtMostTwo (List.replicate (2 ^ 31) (97 : UInt8)) n := by
  generalize hm : 2 ^ 31 = m
  constructor
  · intro c hc
    rw [List.eq_of_mem_replicate hc]
    decide
  · rintro ⟨n, -, hrun, hlongest⟩
    rw [findMaxSubstring_of_length hm.symm, Option.some.injEq] at hrun
    obtain rfl : n = 0 := by omega
    exact not_longest_zero (by omega) 97 hlongest

end TextMining.FindTwoSubstringDaiwei
