import TextMining.Lib.Cells
import TextMining.Lib.Windows

/-!
# The longest substring of two characters

`FindMaxSubstring` of `find_two_substring.cc`, which keeps the two characters
of the window and the start of the last run of equal ones. A pointer into the
string is an index.
-/

namespace TextMining.FindTwoSubstring

open Cells Windows

/-- `full_flag`, with the characters that are set by then. -/
inductive FullFlag
  | zero
  | one (first : UInt8)
  | two (first second : UInt8)
  deriving DecidableEq, Repr

structure State where
  fullFlag : FullFlag
  repeatIndex : Nat
  len : Nat
  max : Nat
  deriving DecidableEq, Repr

/-- The window with the character `c` at `p`; `r` is the one at `repeat_index`. -/
def extend (s : State) (p : Nat) (c r : UInt8) : Option (FullFlag × Nat) :=
  match s.fullFlag with
  | .zero => some (.one c, 1)
  | .one first => do
    let fullFlag := if c ≠ first then .two first c else .one first
    return (fullFlag, ← toInt (s.len + 1))
  | .two first second =>
    if c = first ∨ c = second then do
      return (.two first second, ← toInt (s.len + 1))
    else do
      -- the third char turns out
      let len ← toInt (p - s.repeatIndex + 1)
      return (if r = first then .two first c else .two c second, len)

def round (target : List UInt8) (s : State) (p : Nat) (c : UInt8) : Option State := do
  let r ← target[s.repeatIndex]?
  let (fullFlag, len) ← extend s p c r
  let max := if s.max < len then len else s.max
  let repeatIndex := if r ≠ c then p else s.repeatIndex
  return { fullFlag, repeatIndex, len, max }

def loop (target : List UInt8) : Nat → Nat → State → Option Nat
  | 0, _, _ => none
  | rounds + 1, p, s => do
    let c ← target[p]?
    if c = 0 then return s.max
    let s ← round target s p c
    loop target rounds (p + 1) s

/-- `FindMaxSubstring` on memory that begins with the string and its NUL. -/
def findMaxSubstring (target : List UInt8) : Option Nat :=
  loop target target.length 0 ⟨.zero, 0, 0, 0⟩

example : findMaxSubstring [1, 2, 2, 3, 3, 2, 1, 0] = some 5 := by decide

-- ---------------------------------------------------------------------------
-- The window
-- ---------------------------------------------------------------------------

variable {s : State} {d body rest : List UInt8} {c x r : UInt8} {k : Nat}

/-- What `full_flag` says about the window. -/
def Describes : FullFlag → List UInt8 → Prop
  | .zero, _ => False
  | .one first, w => ∀ c ∈ w, c = first
  | .two first second, w => first ≠ second ∧ first ∈ w ∧ second ∈ w ∧
      ∀ c ∈ w, c = first ∨ c = second

theorem Describes.atMostTwo {f : FullFlag} {w : List UInt8} (h : Describes f w) : AtMostTwo w := by
  cases f with
  | zero => exact h.elim
  | one first => exact @atMostTwo_of_forall _ w _ first first fun c hc => .inl (h c hc)
  | two first second => exact atMostTwo_of_forall h.2.2.2

structure Scanned (d : List UInt8) (s : State) (body : List UInt8) (x : UInt8) (k : Nat) :
    Prop where
  longest : Longest AtMostTwo d s.max
  window : LongestSuffix AtMostTwo d (body ++ List.replicate (k + 1) x)
  len : s.len = body.length + (k + 1)
  describes : Describes s.fullFlag (body ++ List.replicate (k + 1) x)
  run : s.repeatIndex + (k + 1) = d.length
  start : body.getLast? ≠ some x

theorem Scanned.repeat_eq (h : Scanned d s body x k) (rest : List UInt8) :
    (d ++ rest)[s.repeatIndex]? = some x := by
  obtain ⟨pre, hpre⟩ := h.window.suffix
  have hrun := h.run
  rw [← hpre, ← List.append_assoc, List.length_append, List.length_replicate] at hrun
  have hindex : s.repeatIndex = (pre ++ body).length := by omega
  rw [← hpre, hindex, ← List.append_assoc, List.append_assoc, List.getElem?_append_right
    (Nat.le_refl _), Nat.sub_self]
  simp [List.replicate_succ]

theorem ite_max (m len : Nat) : (if m < len then len else m) = max m len := by
  rw [Nat.max_def]
  split <;> split <;> omega

theorem Scanned.grow (h : Scanned d s body x k) {f : FullFlag}
    (hf : Describes f (body ++ List.replicate (k + 1) x ++ [c])) :
    ∃ body' x' k', Scanned (d ++ [c]) ⟨f, if x ≠ c then d.length else s.repeatIndex, s.len + 1,
      if s.max < s.len + 1 then s.len + 1 else s.max⟩ body' x' k' := by
  have hwindow := h.window.concat hereditary_atMostTwo (LongestSuffix.self hf.atMostTwo)
  have hlongest := h.longest.concat hwindow
  have hlen : (body ++ List.replicate (k + 1) x ++ [c]).length = s.len + 1 := by
    simp [h.len, Nat.add_assoc]
  rw [hlen, ← ite_max] at hlongest
  have hrun := h.run
  by_cases hxc : x = c
  · subst hxc
    have hbody : body ++ List.replicate (k + 1) x ++ [x] = body ++ List.replicate (k + 2) x := by
      rw [List.append_assoc, ← List.replicate_succ']
    rw [hbody] at hwindow hf
    refine ⟨body, x, k + 1, hlongest, hwindow, ?_, hf, ?_, h.start⟩ <;> simp [h.len] <;> omega
  · refine ⟨body ++ List.replicate (k + 1) x, c, 0, hlongest, hwindow, by simp [h.len], hf, ?_, ?_⟩
    · simp [hxc]
    · simpa [List.replicate_succ'] using hxc

theorem Scanned.restart (h : Scanned d s body x k) {first second : UInt8}
    (hf : s.fullFlag = .two first second) (hc : ¬ (c = first ∨ c = second)) :
    Scanned (d ++ [c]) ⟨if x = first then .two first c else .two c second, d.length,
      d.length - s.repeatIndex + 1,
      if s.max < d.length - s.repeatIndex + 1 then d.length - s.repeatIndex + 1 else s.max⟩
      (List.replicate (k + 1) x) c 0 := by
  have hdesc := h.describes
  rw [hf] at hdesc
  obtain ⟨hne, hfirst, hsecond, hall⟩ := hdesc
  have hx : x = first ∨ x = second := hall x (by simp)
  rw [not_or] at hc
  have hxc : x ≠ c := by
    rintro rfl
    exact hx.elim hc.1 hc.2
  obtain ⟨pre, y, rfl⟩ : ∃ pre y, body = pre ++ [y] := by
    cases body using List.reverseRecOn with
    | nil =>
      rw [List.nil_append] at hfirst hsecond
      have heq := (List.eq_of_mem_replicate hfirst).trans (List.eq_of_mem_replicate hsecond).symm
      exact absurd heq hne
    | append_singleton pre y => exact ⟨pre, y, rfl⟩
  have hyx : y ≠ x := by simpa using h.start
  have hyc : y ≠ c := by
    have hy : y = first ∨ y = second := hall y (by simp)
    rintro rfl
    exact hy.elim hc.1 hc.2
  have hbad : ¬ AtMostTwo (y :: (List.replicate (k + 1) x ++ [c])) :=
    @not_atMostTwo_of_mem _ _ c _ y x (by simp) (by simp) (by simp) hyx hyc hxc
  have hdesc : Describes (if x = first then .two first c else .two c second)
      (List.replicate (k + 1) x ++ [c]) := by
    by_cases hxf : x = first
    · subst hxf
      rw [if_pos rfl]
      exact ⟨hxc, by simp, by simp, by simp⟩
    · rw [if_neg hxf, ← hx.resolve_left hxf]
      refine ⟨hxc.symm, by simp, by simp, ?_⟩
      intro e he
      simpa [or_comm] using he
  have hwindow : LongestSuffix AtMostTwo (d ++ [c]) (List.replicate (k + 1) x ++ [c]) := by
    refine h.window.concat hereditary_atMostTwo ?_
    have hlast := longestSuffix_of_cons hereditary_atMostTwo hdesc.atMostTwo hbad pre
    simpa using hlast
  have hlen : d.length - s.repeatIndex + 1 = (List.replicate (k + 1) x ++ [c]).length := by
    have hrun := h.run
    simp
    omega
  have hlongest := h.longest.concat hwindow
  rw [← hlen, ← ite_max] at hlongest
  refine ⟨hlongest, hwindow, ?_, hdesc, by simp, ?_⟩
  · simpa using hlen
  · simpa [List.replicate_succ'] using hxc

-- ---------------------------------------------------------------------------
-- The loop
-- ---------------------------------------------------------------------------

theorem scanned_first (c : UInt8) : Scanned [c] ⟨.one c, 0, 1, 1⟩ [] c 0 := by
  have hgood : AtMostTwo [c] := @atMostTwo_of_forall _ _ _ c c (by simp)
  have hlongest := (@longest_nil UInt8 AtMostTwo (by simp [AtMostTwo])).concat
    (LongestSuffix.self hgood)
  exact ⟨by simpa using hlongest, LongestSuffix.self hgood, rfl, by simp [Describes], rfl, by simp⟩

theorem Scanned.extend_one (h : Scanned d s body x k) {first : UInt8}
    (hf : s.fullFlag = .one first) (c : UInt8) :
    Describes (if c ≠ first then .two first c else .one first)
      (body ++ List.replicate (k + 1) x ++ [c]) := by
  have hdesc := h.describes
  rw [hf] at hdesc
  have hx : x = first := hdesc x (by simp)
  by_cases hc : c = first
  · rw [if_neg (not_not.mpr hc)]
    intro e he
    rcases List.mem_append.mp he with he | he
    · exact hdesc e he
    · rw [List.mem_singleton.mp he, hc]
  · rw [if_pos hc]
    refine ⟨Ne.symm hc, by simp [hx], by simp, fun e he => ?_⟩
    rcases List.mem_append.mp he with he | he
    · exact .inl (hdesc e he)
    · exact .inr (List.mem_singleton.mp he)

theorem Scanned.extend_two (h : Scanned d s body x k) {first second : UInt8}
    (hf : s.fullFlag = .two first second) (hc : c = first ∨ c = second) :
    Describes (.two first second) (body ++ List.replicate (k + 1) x ++ [c]) := by
  have hdesc := h.describes
  rw [hf] at hdesc
  obtain ⟨hne, hfirst, hsecond, hall⟩ := hdesc
  refine ⟨hne, List.mem_append_left _ hfirst, List.mem_append_left _ hsecond, fun e he => ?_⟩
  rcases List.mem_append.mp he with he | he
  · exact hall e he
  · rwa [List.mem_singleton.mp he]

theorem Scanned.step (h : Scanned d s body x k) (hfit : d.length + 1 < 2 ^ 31) (c : UInt8)
    (rest : List UInt8) :
    ∃ s' body' x' k', round (d ++ c :: rest) s d.length c = some s' ∧
      Scanned (d ++ [c]) s' body' x' k' := by
  have hlen : s.len ≤ d.length := by
    have hle := h.window.suffix.length_le
    simpa [h.len] using hle
  have hgrow : toInt (s.len + 1) = some (s.len + 1) := toInt_of_lt (by omega)
  have hrestart : toInt (d.length - s.repeatIndex + 1) = some (d.length - s.repeatIndex + 1) :=
    toInt_of_lt (by omega)
  rw [round, h.repeat_eq]
  simp only [Option.bind_eq_bind, Option.bind_some]
  cases hf : s.fullFlag with
  | zero =>
    have hdesc := h.describes
    rw [hf] at hdesc
    exact hdesc.elim
  | one first =>
    obtain ⟨body', x', k', h'⟩ := h.grow (h.extend_one hf c)
    refine ⟨_, body', x', k', ?_, h'⟩
    simp [extend, hf, hgrow]
  | two first second =>
    by_cases hc : c = first ∨ c = second
    · obtain ⟨body', x', k', h'⟩ := h.grow (h.extend_two hf hc)
      refine ⟨_, body', x', k', ?_, h'⟩
      simp [extend, hf, hc, hgrow]
    · have hxc : x ≠ c := by
        have hdesc := h.describes
        rw [hf] at hdesc
        rintro rfl
        exact hc (hdesc.2.2.2 x (by simp))
      refine ⟨_, _, c, 0, ?_, h.restart hf hc⟩
      simp [extend, hf, hc, hrestart, hxc]

theorem loop_spec {rounds : Nat} (h : Scanned d s body x k) (hrest : ∀ c ∈ rest, c ≠ 0)
    (hfit : (d ++ rest).length < 2 ^ 31) (after : List UInt8) (hrounds : rest.length < rounds) :
    ∃ n, loop (d ++ (rest ++ 0 :: after)) rounds d.length s = some n ∧
      Longest AtMostTwo (d ++ rest) n := by
  induction rest generalizing d s body x k rounds with
  | nil =>
    obtain ⟨rounds, rfl⟩ : ∃ n, rounds = n + 1 := ⟨rounds - 1, by simp at hrounds; omega⟩
    refine ⟨s.max, ?_, by simpa using h.longest⟩
    simp [loop]
  | cons c rest ih =>
    obtain ⟨rounds, rfl⟩ : ∃ n, rounds = n + 1 := ⟨rounds - 1, by omega⟩
    obtain ⟨hc, hrest⟩ := List.forall_mem_cons.mp hrest
    rw [List.length_append, List.length_cons] at hfit
    obtain ⟨s', body', x', k', hround, h'⟩ := h.step (by omega) c (rest ++ 0 :: after)
    obtain ⟨n, hrun, hlongest⟩ := ih h' hrest (by simp; omega) (Nat.lt_of_succ_lt_succ hrounds)
    refine ⟨n, ?_, by simpa using hlongest⟩
    have hget : (d ++ (c :: rest ++ 0 :: after))[d.length]? = some c := by simp
    rw [loop, hget]
    simp only [Option.bind_eq_bind, Option.bind_some, if_neg hc]
    rw [List.cons_append, hround, Option.bind_some, ← hrun]
    simp

theorem findMaxSubstring_spec {target : List UInt8} (hchars : ∀ c ∈ target, c ≠ 0)
    (hfit : target.length < 2 ^ 31) (after : List UInt8) :
    ∃ n, findMaxSubstring (target ++ 0 :: after) = some n ∧ Longest AtMostTwo target n := by
  cases target with
  | nil => exact ⟨0, by simp [findMaxSubstring, loop], longest_nil (by simp [AtMostTwo])⟩
  | cons c rest =>
    obtain ⟨hc, hrest⟩ := List.forall_mem_cons.mp hchars
    obtain ⟨n, hrun, hlongest⟩ := @loop_spec _ [c] [] rest c 0 (rest ++ 0 :: after).length
      (scanned_first c) hrest hfit after (by simp)
    refine ⟨n, ?_, hlongest⟩
    have hround : round (c :: (rest ++ 0 :: after)) ⟨.zero, 0, 0, 0⟩ 0 c =
        some ⟨.one c, 0, 1, 1⟩ := by
      simp [round, extend]
    rw [findMaxSubstring, List.cons_append, List.length_cons, loop, List.getElem?_cons_zero]
    simp only [Option.bind_eq_bind, Option.bind_some, if_neg hc, hround]
    exact hrun

end TextMining.FindTwoSubstring
