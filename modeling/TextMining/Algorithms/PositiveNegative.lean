import TextMining.Lib.Cells
import Mathlib.Data.List.Sort
import Mathlib.Order.Nat
import Mathlib.Data.Int.Order.Basic

/-!
# Positive and negative numbers

`PositiveNegative` of `positive_negative.cc`. The memory is the array and the
cells after it. Both indices run up to `len` itself, so the loop partitions
the array together with the cell after it.
-/

namespace TextMining.PositiveNegative

open Cells

structure State where
  mem : List Int
  negaIndex : Nat
  posiIndex : Nat
  flag : Bool
  /-- The indices read and written so far, the last one first. -/
  accesses : List Nat
  deriving Repr

def body (s : State) : Option State :=
  if s.flag = false then do
    let v ← s.mem[s.negaIndex]?
    let s := { s with accesses := s.negaIndex :: s.accesses }
    if v ≤ 0 then return { s with flag := true }
    else return { s with negaIndex := ← toInt (s.negaIndex + 1) }
  else do
    let v ← s.mem[s.posiIndex]?
    let s := { s with accesses := s.posiIndex :: s.accesses }
    if 0 < v ∧ s.negaIndex < s.posiIndex then
      let mem ← swap s.mem s.posiIndex s.negaIndex
      return { mem, flag := false, posiIndex := ← toInt (s.posiIndex + 1), negaIndex := s.negaIndex
               accesses := s.negaIndex :: s.accesses }
    else return { s with posiIndex := ← toInt (s.posiIndex + 1) }

def loop (len : Nat) : Nat → State → Option State
  | 0, _ => none
  | rounds + 1, s =>
    if s.negaIndex ≤ len ∧ s.posiIndex ≤ len then do
      let s ← body s
      loop len rounds s
    else some s

def positiveNegative (rounds : Nat) (sortList : List Int) (len : Nat) : Option State :=
  if 0 < len then loop len rounds ⟨sortList, 0, 0, false, []⟩ else none

-- ---------------------------------------------------------------------------
-- One round
-- ---------------------------------------------------------------------------

variable {s s' : State} {len rounds : Nat} {start rest : List Int}

theorem body_cases (h : body s = some s') :
    (∃ v, s.flag = false ∧ s.mem[s.negaIndex]? = some v ∧ v ≤ 0 ∧
      s' = { s with flag := true, accesses := s.negaIndex :: s.accesses }) ∨
    (∃ v, s.flag = false ∧ s.mem[s.negaIndex]? = some v ∧ 0 < v ∧
      s' = { s with negaIndex := s.negaIndex + 1, accesses := s.negaIndex :: s.accesses }) ∨
    (∃ v mem, s.flag = true ∧ s.mem[s.posiIndex]? = some v ∧ 0 < v ∧ s.negaIndex < s.posiIndex ∧
      swap s.mem s.posiIndex s.negaIndex = some mem ∧
      s' = ⟨mem, s.negaIndex, s.posiIndex + 1, false, s.negaIndex :: s.posiIndex :: s.accesses⟩) ∨
    (∃ v, s.flag = true ∧ s.mem[s.posiIndex]? = some v ∧ (s.negaIndex < s.posiIndex → v ≤ 0) ∧
      s' = { s with posiIndex := s.posiIndex + 1, accesses := s.posiIndex :: s.accesses }) := by
  rw [body] at h
  split at h
  · rename_i hflag
    simp only [Option.bind_eq_bind, Option.bind_eq_some_iff] at h
    obtain ⟨v, hv, h⟩ := h
    split at h
    · rename_i hle
      exact .inl ⟨v, hflag, hv, hle, (Option.some.inj h).symm⟩
    · rename_i hlt
      obtain ⟨n, hn, h⟩ := Option.bind_eq_some_iff.mp h
      cases eq_of_toInt hn
      exact .inr (.inl ⟨v, hflag, hv, not_le.mp hlt, (Option.some.inj h).symm⟩)
  · rename_i hflag
    rw [Bool.not_eq_false] at hflag
    simp only [Option.bind_eq_bind, Option.bind_eq_some_iff] at h
    obtain ⟨v, hv, h⟩ := h
    split at h
    · rename_i hpos
      simp only [Option.bind_eq_some_iff] at h
      obtain ⟨mem, hmem, n, hn, h⟩ := h
      cases eq_of_toInt hn
      exact .inr (.inr (.inl ⟨v, mem, hflag, hv, hpos.1, hpos.2, hmem, (Option.some.inj h).symm⟩))
    · rename_i hstay
      obtain ⟨n, hn, h⟩ := Option.bind_eq_some_iff.mp h
      cases eq_of_toInt hn
      refine .inr (.inr (.inr ⟨v, hflag, hv, fun hlt => ?_, (Option.some.inj h).symm⟩))
      exact not_lt.mp fun hv => hstay ⟨hv, hlt⟩

theorem exists_body (hn : s.negaIndex < s.mem.length) (hp : s.posiIndex < s.mem.length)
    (hfit : s.mem.length < 2 ^ 31) : ∃ s', body s = some s' := by
  have hnega : toInt (s.negaIndex + 1) = some (s.negaIndex + 1) := toInt_of_lt (by omega)
  have hposi : toInt (s.posiIndex + 1) = some (s.posiIndex + 1) := toInt_of_lt (by omega)
  obtain ⟨mem, hmem, -⟩ := exists_swap hp hn
  rw [body, List.getElem?_eq_getElem hn, List.getElem?_eq_getElem hp]
  simp only [Option.bind_eq_bind, Option.bind_some, hnega, hposi, hmem]
  split <;> split <;> exact ⟨_, rfl⟩

-- ---------------------------------------------------------------------------
-- The overrun
-- ---------------------------------------------------------------------------

/-- An index passes `len` only after it has stood there. -/
structure Bounded (len : Nat) (s : State) : Prop where
  nega_le : s.negaIndex ≤ len + 1
  posi_le : s.posiIndex ≤ len + 1
  overrun : len < s.negaIndex ∨ len < s.posiIndex → len ∈ s.accesses

theorem Bounded.step (h : Bounded len s) (hn : s.negaIndex ≤ len) (hp : s.posiIndex ≤ len)
    (hrun : body s = some s') : Bounded len s' := by
  rcases body_cases hrun with ⟨v, -, -, -, rfl⟩ | ⟨v, -, -, -, rfl⟩ |
    ⟨v, mem, -, -, -, -, -, rfl⟩ | ⟨v, -, -, -, rfl⟩
  · exact ⟨h.nega_le, h.posi_le, fun ho => List.mem_cons_of_mem _ (h.overrun ho)⟩
  · refine ⟨Nat.succ_le_succ hn, h.posi_le, fun ho => ?_⟩
    have hlen : len = s.negaIndex := by simp only at ho; omega
    simp [hlen]
  · refine ⟨h.nega_le, Nat.succ_le_succ hp, fun ho => ?_⟩
    have hlen : len = s.posiIndex := by simp only at ho; omega
    simp [hlen]
  · refine ⟨h.nega_le, Nat.succ_le_succ hp, fun ho => ?_⟩
    have hlen : len = s.posiIndex := by simp only at ho; omega
    simp [hlen]

theorem Bounded.run (h : Bounded len s) (hrun : loop len rounds s = some s') :
    len ∈ s'.accesses := by
  induction rounds generalizing s with
  | zero => cases hrun
  | succ rounds ih =>
    rw [loop] at hrun
    split at hrun
    · rename_i hin
      obtain ⟨s₁, hbody, hrun⟩ := Option.bind_eq_some_iff.mp hrun
      exact ih (h.step hin.1 hin.2 hbody) hrun
    · rename_i hout
      cases hrun
      exact h.overrun (by omega)

-- ---------------------------------------------------------------------------
-- The partition
-- ---------------------------------------------------------------------------

/-- The cells up to index `len` are exchanged among each other: those before
`negaIndex` are positive, those from there to `posiIndex` are not. -/
structure Partitioning (len : Nat) (start rest : List Int) (s : State) : Prop
    extends Bounded len s where
  within : ∀ k ∈ s.accesses, k ≤ len
  cells : ∃ cells, s.mem = cells ++ rest ∧ cells.Perm start
  before : ∀ k v, k < s.negaIndex → s.mem[k]? = some v → 0 < v
  here : s.flag = true → ∀ v, s.mem[s.negaIndex]? = some v → v ≤ 0
  between : ∀ k v, s.negaIndex < k → k < s.posiIndex → s.mem[k]? = some v → v ≤ 0
  last : ∀ v, start[len]? = some v → v ≤ 0 → s.mem[len]? = some v

/-- What is left to do: an index moves on, or the mode changes before one does. -/
def todo (len : Nat) (s : State) : Nat :=
  2 * (len + 1 - s.negaIndex) + 2 * (len + 1 - s.posiIndex) + if s.flag then 0 else 1

theorem todo_step (hn : s.negaIndex ≤ len) (hp : s.posiIndex ≤ len) (hrun : body s = some s') :
    todo len s' < todo len s := by
  rcases body_cases hrun with ⟨v, hflag, -, -, rfl⟩ | ⟨v, hflag, -, -, rfl⟩ |
    ⟨v, mem, hflag, -, -, -, -, rfl⟩ | ⟨v, hflag, -, -, rfl⟩
  · simp [todo, hflag]
  all_goals simp [todo, hflag]; omega

theorem Partitioning.step (h : Partitioning len start rest s) (hlen : start.length = len + 1)
    (hn : s.negaIndex ≤ len) (hp : s.posiIndex ≤ len) (hrun : body s = some s') :
    Partitioning len start rest s' := by
  have hb := h.toBounded.step hn hp hrun
  rcases body_cases hrun with ⟨v, -, hv, hle, rfl⟩ | ⟨v, hflag, hv, hpos, rfl⟩ |
    ⟨v, mem, hflag, hv, hpos, hlt, hswap, rfl⟩ | ⟨v, -, hv, hle, rfl⟩
  · refine ⟨hb, List.forall_mem_cons.mpr ⟨hn, h.within⟩, h.cells, h.before, fun _ w hw => ?_,
      h.between, h.last⟩
    cases hv.symm.trans hw
    exact hle
  · refine ⟨hb, List.forall_mem_cons.mpr ⟨hn, h.within⟩, h.cells, fun k w hk hw => ?_,
      fun ht => absurd (hflag.symm.trans ht) Bool.false_ne_true,
      fun k w hk => h.between k w (Nat.lt_of_succ_lt hk), h.last⟩
    by_cases hkn : k = s.negaIndex
    · subst hkn
      cases hv.symm.trans hw
      exact hpos
    · exact h.before k w (Nat.lt_of_le_of_ne (Nat.le_of_lt_succ hk) hkn) hw
  · -- the positive number that was found goes to `negaIndex`
    obtain ⟨cells, hmem, hperm⟩ := h.cells
    have hcells : cells.length = len + 1 := hperm.length_eq.trans hlen
    have hswapc : swap s.mem s.posiIndex s.negaIndex =
        (swap cells s.posiIndex s.negaIndex).map fun cells => cells ++ rest := by
      have hframe := @swap_frame _ cells s.posiIndex s.negaIndex [] rest (by omega) (by omega)
      simpa [hmem] using hframe
    obtain ⟨cells', hcells', hperm'⟩ : ∃ cells', mem = cells' ++ rest ∧ cells'.Perm cells := by
      rw [hswapc] at hswap
      obtain ⟨cells', hc, rfl⟩ := Option.map_eq_some_iff.mp hswap
      exact ⟨cells', rfl, swap_perm hc⟩
    have hlenm : len < s.mem.length := by rw [hmem, List.length_append]; omega
    obtain ⟨mem', hswap', hposi, hnega, hother⟩ := @exists_swap _ s.mem s.posiIndex s.negaIndex
      (by omega) (by omega)
    cases hswap.symm.trans hswap'
    have hnn : s.mem[s.negaIndex]? = some s.mem[s.negaIndex] :=
      List.getElem?_eq_getElem (by omega)
    refine ⟨hb, ?_, ⟨cells', hcells', hperm'.trans hperm⟩, fun k w hk hw => ?_, by simp,
      fun k w hk hkp hw => ?_, fun w hw hle => ?_⟩
    · exact List.forall_mem_cons.mpr ⟨hn, List.forall_mem_cons.mpr ⟨hp, h.within⟩⟩
    · simp only at hk hw
      rw [hother k (hk.trans hlt).ne hk.ne] at hw
      exact h.before k w hk hw
    · simp only at hk hkp hw
      by_cases hkn : k = s.posiIndex
      · subst hkn
        rw [hposi, hnn] at hw
        cases hw
        exact h.here hflag _ hnn
      · rw [hother k hkn hk.ne'] at hw
        exact h.between k w hk (Nat.lt_of_le_of_ne (Nat.le_of_lt_succ hkp) hkn) hw
    · -- the last cell is behind `negaIndex`, and it is not the positive number
      have hlast := h.last w hw hle
      have hpl : len ≠ s.posiIndex := fun he => by
        rw [he] at hlast
        cases hv.symm.trans hlast
        exact absurd hpos (not_lt.mpr hle)
      exact (hother len hpl (by omega)).trans hlast
  · refine ⟨hb, List.forall_mem_cons.mpr ⟨hp, h.within⟩, h.cells, h.before, h.here,
      fun k w hk hkp hw => ?_, h.last⟩
    by_cases hkn : k = s.posiIndex
    · subst hkn
      cases hv.symm.trans hw
      exact hle hk
    · exact h.between k w hk (Nat.lt_of_le_of_ne (Nat.le_of_lt_succ hkp) hkn) hw

theorem Partitioning.run (h : Partitioning len start rest s) (hlen : start.length = len + 1)
    (hfit : (start ++ rest).length < 2 ^ 31) (hrounds : todo len s < rounds) :
    ∃ s', loop len rounds s = some s' ∧ Partitioning len start rest s' ∧
      (len < s'.negaIndex ∨ len < s'.posiIndex) := by
  induction rounds generalizing s with
  | zero => exact absurd hrounds (Nat.not_lt_zero _)
  | succ rounds ih =>
    by_cases hin : s.negaIndex ≤ len ∧ s.posiIndex ≤ len
    · obtain ⟨cells, hmem, hperm⟩ := h.cells
      have hcells := hperm.length_eq
      have hmlen : s.mem.length = (start ++ rest).length := by
        rw [hmem, List.length_append, List.length_append, hcells]
      have hmle : len < s.mem.length := by rw [hmlen, List.length_append]; omega
      obtain ⟨s₁, hbody⟩ := exists_body (hin.1.trans_lt hmle) (hin.2.trans_lt hmle)
        (by rwa [hmlen])
      have htodo := todo_step hin.1 hin.2 hbody
      obtain ⟨s', hrun, h'⟩ := ih (h.step hlen hin.1 hin.2 hbody) (by omega)
      refine ⟨s', ?_, h'⟩
      rw [loop, if_pos hin, hbody]
      exact hrun
    · exact ⟨s, if_neg hin, h, by omega⟩

theorem partitioning_start (start rest : List Int) (len : Nat) :
    Partitioning len start rest ⟨start ++ rest, 0, 0, false, []⟩ where
  nega_le := by simp
  posi_le := by simp
  overrun := by simp
  within := by simp
  cells := ⟨start, rfl, .refl _⟩
  before := by simp
  here := by simp
  between := by simp
  last v hv _ := by
    obtain ⟨hlt, -⟩ := List.getElem?_eq_some_iff.mp hv
    rwa [List.getElem?_append_left hlt]

def PositiveFirst (cells : List Int) : Prop := cells.Pairwise fun v w => 0 < w → 0 < v

theorem Partitioning.positiveFirst (h : Partitioning len start rest s)
    (hover : len < s.negaIndex ∨ len < s.posiIndex) :
    PositiveFirst (s.mem.take (len + 1)) := by
  refine List.pairwise_iff_getElem.mpr fun i j hi hj hij hw => ?_
  simp only [List.length_take] at hi hj
  simp only [List.getElem_take] at hw ⊢
  have hgi : s.mem[i]? = some s.mem[i] := List.getElem?_eq_getElem (by omega)
  have hgj : s.mem[j]? = some s.mem[j] := List.getElem?_eq_getElem (by omega)
  by_cases hin : i < s.negaIndex
  · exact h.before i _ hin hgi
  · rcases hover with hnega | hposi
    · omega
    · exact absurd hw (not_lt.mpr (h.between j _ (by omega) (by omega) hgj))

-- ---------------------------------------------------------------------------
-- `PositiveNegative`
-- ---------------------------------------------------------------------------

variable {array : List Int}

/-- The array and the cell after it are partitioned together; a number in that
cell that is not positive stays there. -/
theorem positiveNegative_spec (next : Int) (rest : List Int) (hpos : 0 < array.length)
    (hfit : (array ++ next :: rest).length < 2 ^ 31) :
    ∃ s cells, positiveNegative (4 * array.length + 6) (array ++ next :: rest) array.length = some s ∧
      s.mem = cells ++ rest ∧ cells.Perm (array ++ [next]) ∧ PositiveFirst cells ∧
      (next ≤ 0 → cells[array.length]? = some next) := by
  have hstart := partitioning_start (array ++ [next]) rest array.length
  have hlen : (array ++ [next]).length = array.length + 1 := by simp
  have happ : array ++ [next] ++ rest = array ++ next :: rest := by simp
  rw [happ] at hstart
  have hrounds : todo array.length ⟨array ++ next :: rest, 0, 0, false, []⟩ <
      4 * array.length + 6 := by
    simp [todo]
    omega
  obtain ⟨s, hrun, h, hover⟩ := hstart.run hlen (by rwa [happ]) hrounds
  obtain ⟨cells, hmem, hperm⟩ := h.cells
  have hfirst := h.positiveFirst hover
  rw [hmem, ← hlen, ← hperm.length_eq, List.take_left] at hfirst
  refine ⟨s, cells, (if_pos hpos).trans hrun, hmem, hperm, hfirst, fun hle => ?_⟩
  have hlast := h.last next (by simp) hle
  rwa [hmem, List.getElem?_append_left (by rw [hperm.length_eq, hlen]; omega)] at hlast

/-- Where the cell after the array holds no positive number, the array itself is
partitioned and the memory after it is as it was. -/
theorem positiveNegative_of_nonpos {next : Int} (hnext : next ≤ 0) (rest : List Int)
    (hpos : 0 < array.length) (hfit : (array ++ next :: rest).length < 2 ^ 31) :
    ∃ s array', positiveNegative (4 * array.length + 6) (array ++ next :: rest) array.length = some s ∧
      s.mem = array' ++ next :: rest ∧ array'.Perm array ∧ PositiveFirst array' := by
  obtain ⟨s, cells, hrun, hmem, hperm, hfirst, hlast⟩ := positiveNegative_spec next rest hpos hfit
  have hlen : cells.length = array.length + 1 := by simpa using hperm.length_eq
  have hcells : cells = cells.take array.length ++ [next] := by
    have hdrop : cells.drop array.length = [next] := by
      have hget := hlast hnext
      obtain ⟨hlt, hn⟩ := List.getElem?_eq_some_iff.mp hget
      rw [List.drop_eq_getElem_cons hlt, hn, List.drop_of_length_le (by omega)]
    rw [← hdrop, List.take_append_drop]
  refine ⟨s, cells.take array.length, hrun, ?_, ?_, hfirst.sublist (List.take_sublist _ _)⟩
  · calc s.mem = cells ++ rest := hmem
      _ = cells.take array.length ++ [next] ++ rest := by rw [← hcells]
      _ = cells.take array.length ++ next :: rest := by simp
  · rw [hcells] at hperm
    exact (List.perm_append_right_iff [next]).mp hperm

/-- What a run of the function is to do: it ends, stays within the array, and
partitions it. -/
def Partitions (array after : List Int) : Prop :=
  ∃ rounds s, positiveNegative rounds (array ++ after) array.length = some s ∧
    (∀ k ∈ s.accesses, k < array.length) ∧ (s.mem.take array.length).Perm array ∧
    PositiveFirst (s.mem.take array.length)

theorem overrun_of_run {after : List Int}
    (hrun : positiveNegative rounds (array ++ after) array.length = some s) :
    array.length ∈ s.accesses := by
  rw [positiveNegative] at hrun
  split at hrun
  · have hstart : Bounded array.length ⟨array ++ after, 0, 0, false, []⟩ :=
      ⟨by simp, by simp, by simp⟩
    exact hstart.run hrun
  · cases hrun

/-- Every run that ends has read the cell after the array, whatever the array
and the memory hold. -/
theorem not_partitions (array after : List Int) :
    ¬ Partitions array after ∧ ∀ rounds s,
      positiveNegative rounds (array ++ after) array.length = some s →
        array.length ∈ s.accesses := by
  refine ⟨?_, fun rounds s hrun => overrun_of_run hrun⟩
  rintro ⟨rounds, s, hrun, hwithin, -, -⟩
  exact absurd (hwithin _ (overrun_of_run hrun)) (Nat.lt_irrefl _)

/-- A positive number behind the array is exchanged for the one in it. -/
theorem not_partitions_singleton :
    ((positiveNegative 10 [-1, 5] 1).map fun s => (s.mem, s.accesses)) =
      some ([5, -1], [0, 1, 0, 0]) ∧ ¬ Partitions [-1] [5] := by
  refine ⟨by decide, ?_⟩
  rintro ⟨rounds, s, hrun, hwithin, -, -⟩
  exact absurd (hwithin _ (overrun_of_run hrun)) (by decide)

end TextMining.PositiveNegative
