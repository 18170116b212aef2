import TextMining.Lib.Cells
import TextMining.Lib.Merging
import Mathlib.Data.Int.Order.Basic

/-!
# Merge sort

`Merge`, `SubMergeSort` and `MergeSort` of `merge_sort.cc`. Neither of the loops
that copy what is left of a run moves `buf_index` on, so all of it goes to one
cell of the buffer, and the cells behind that one keep what they held.
-/

namespace TextMining.MergeSort

open Cells

structure Memory where
  sortList : List Int
  buf : List Int
  deriving DecidableEq, Repr

/-- The first loop of `Merge`, for so many rounds: the buffer, and where `i`, `j`
and `buf_index` end. -/
def mergeLoop (sortList : List Int) (middle stop : Nat) :
    Nat → List Int → Nat → Nat → Nat → Option (List Int × Nat × Nat × Nat)
  | 0, _, _, _, _ => none
  | rounds + 1, buf, i, j, bufIndex =>
    if i < middle ∧ j < stop then do
      let a ← sortList[i]?
      let b ← sortList[j]?
      if a ≤ b then
        let buf ← write buf bufIndex a
        mergeLoop sortList middle stop rounds buf (i + 1) j (bufIndex + 1)
      else
        let buf ← write buf bufIndex b
        mergeLoop sortList middle stop rounds buf i (j + 1) (bufIndex + 1)
    else some (buf, i, j, bufIndex)

/-- The two loops over what is left of a run, up to `stop`. -/
def copyRest (sortList : List Int) (stop bufIndex : Nat) : Nat → List Int → Nat → Option (List Int)
  | 0, _, _ => none
  | rounds + 1, buf, i =>
    if i < stop then do
      let a ← sortList[i]?
      let buf ← write buf bufIndex a
      copyRest sortList stop bufIndex rounds buf (i + 1)
    else some buf

def copyBack (buf : List Int) : Nat → Nat → List Int → Option (List Int)
  | 0, _, sortList => some sortList
  | n + 1, k, sortList => do
    let a ← buf[k]?
    let sortList ← write sortList k a
    copyBack buf n (k + 1) sortList

/-- `Merge`; a failed assertion has no result. -/
def merge (m : Memory) (start middle stop : Nat) : Option Memory :=
  if start < middle ∧ middle < stop then do
    let rounds := stop - start + 1
    let (buf, i, j, bufIndex) ← mergeLoop m.sortList middle stop rounds m.buf start middle start
    let buf ← copyRest m.sortList middle bufIndex rounds buf i
    let buf ← copyRest m.sortList stop bufIndex rounds buf j
    let sortList ← copyBack buf (stop - start) start m.sortList
    return { sortList, buf }
  else none

def subMergeSort : Nat → Memory → Nat → Nat → Option Memory
  | 0, _, _, _ => none
  | depth + 1, m, start, stop => do
    let middle := (← toInt (start + stop)) / 2
    if start ≤ stop then
      let m ← if stop - start > 2 then do
          let m ← subMergeSort depth m middle stop
          subMergeSort depth m start middle
        else some m
      if stop - start > 1 then merge m start middle stop else some m
    else none

/-- `MergeSort`; a range is shorter than the one it is a half of. -/
def mergeSort (sortList : List Int) (len : Nat) (buf : List Int) : Option Memory :=
  if 0 < len then subMergeSort len ⟨sortList, buf⟩ 0 len else none

example : (mergeSort [3, 42, 3, 4] 4 [0, 0, 0, 0]).map Memory.sortList = some [3, 3, 4, 42] := by
  decide

-- ---------------------------------------------------------------------------
-- `Merge`
-- ---------------------------------------------------------------------------

section
variable {sortList as bs out ra rb old pre post bpre bpost : List Int} {i j rounds : Nat}

theorem prefix_drop_cons {a : Int} (h : a :: as <+: sortList.drop i) :
    sortList[i]? = some a ∧ as <+: sortList.drop (i + 1) := by
  obtain ⟨rest, hrest⟩ := h
  constructor
  · rw [← Nat.add_zero i, ← List.getElem?_drop, ← hrest]
    rfl
  · refine ⟨rest, ?_⟩
    rw [← List.drop_drop, ← hrest]
    rfl

/-- The loop puts the merge into the buffer, from `buf_index` on. -/
theorem mergeLoop_spec (h : Merging as bs out ra rb) (has : as <+: sortList.drop i)
    (hbs : bs <+: sortList.drop j) (hold : old.length = out.length) (hrounds : out.length < rounds) :
    mergeLoop sortList (i + as.length) (j + bs.length) rounds (pre ++ old ++ post) i j pre.length =
      some (pre ++ out ++ post, i + as.length - ra.length, j + bs.length - rb.length,
        pre.length + out.length) := by
  induction h generalizing i j rounds pre old with
  | leftDone bs =>
    obtain ⟨rounds, rfl⟩ : ∃ n, rounds = n + 1 := ⟨rounds - 1, by omega⟩
    obtain rfl := List.length_eq_zero_iff.mp hold
    simp [mergeLoop]
  | rightDone as =>
    obtain ⟨rounds, rfl⟩ : ∃ n, rounds = n + 1 := ⟨rounds - 1, by omega⟩
    obtain rfl := List.length_eq_zero_iff.mp hold
    simp [mergeLoop]
  | @takeLeft a b as bs out ra rb hle rest ih =>
    obtain ⟨rounds, rfl⟩ : ∃ n, rounds = n + 1 := ⟨rounds - 1, by omega⟩
    obtain ⟨ha, has⟩ := prefix_drop_cons has
    obtain ⟨hb, -⟩ := prefix_drop_cons hbs
    obtain ⟨x, old, rfl⟩ := List.exists_cons_of_length_eq_add_one hold
    have hwrite : write (pre ++ x :: old ++ post) pre.length a =
        some (pre ++ [a] ++ old ++ post) := by
      rw [List.append_assoc, List.cons_append, write_at]
      simp
    have hnext := @ih old (pre ++ [a]) (i + 1) j rounds has hbs (Nat.succ.inj hold)
      (Nat.lt_of_succ_lt_succ hrounds)
    have hcond : i < i + (a :: as).length ∧ j < j + (b :: bs).length := by simp
    have hmiddle : i + (a :: as).length = i + 1 + as.length := by
      rw [List.length_cons, Nat.add_assoc, Nat.add_comm 1]
    rw [List.length_append, List.length_singleton] at hnext
    rw [mergeLoop, if_pos hcond, ha, hb]
    simp only [Option.bind_eq_bind, Option.bind_some, if_pos hle, hwrite]
    rw [hmiddle, hnext, List.length_cons, Nat.add_assoc pre.length, Nat.add_comm 1]
    simp
  | @takeRight a b as bs out ra rb hlt rest ih =>
    obtain ⟨rounds, rfl⟩ : ∃ n, rounds = n + 1 := ⟨rounds - 1, by omega⟩
    obtain ⟨ha, -⟩ := prefix_drop_cons has
    obtain ⟨hb, hbs⟩ := prefix_drop_cons hbs
    obtain ⟨x, old, rfl⟩ := List.exists_cons_of_length_eq_add_one hold
    have hwrite : write (pre ++ x :: old ++ post) pre.length b =
        some (pre ++ [b] ++ old ++ post) := by
      rw [List.append_assoc, List.cons_append, write_at]
      simp
    have hnext := @ih old (pre ++ [b]) i (j + 1) rounds has hbs (Nat.succ.inj hold)
      (Nat.lt_of_succ_lt_succ hrounds)
    have hcond : i < i + (a :: as).length ∧ j < j + (b :: bs).length := by simp
    have hstop : j + (b :: bs).length = j + 1 + bs.length := by
      rw [List.length_cons, Nat.add_assoc, Nat.add_comm 1]
    rw [List.length_append, List.length_singleton] at hnext
    rw [mergeLoop, if_pos hcond, ha, hb]
    simp only [Option.bind_eq_bind, Option.bind_some, if_neg (not_le.mpr hlt), hwrite]
    rw [hstop, hnext, List.length_cons, Nat.add_assoc pre.length, Nat.add_comm 1]
    simp

theorem copyRest_done (sortList buf : List Int) (i bufIndex rounds : Nat) :
    copyRest sortList i bufIndex (rounds + 1) buf i = some buf := by
  simp [copyRest]

theorem copyRest_spec {rest : List Int} {last x : Int} (h : rest <+: sortList.drop i)
    (hlast : rest.getLast? = some last) (hrounds : rest.length < rounds) :
    copyRest sortList (i + rest.length) pre.length rounds (pre ++ x :: post) i =
      some (pre ++ last :: post) := by
  induction rest generalizing i x rounds with
  | nil => cases hlast
  | cons a rest ih =>
    obtain ⟨rounds, rfl⟩ : ∃ n, rounds = n + 1 := ⟨rounds - 1, by omega⟩
    obtain ⟨ha, hrest⟩ := prefix_drop_cons h
    have hstop : i + (a :: rest).length = i + 1 + rest.length := by
      rw [List.length_cons, Nat.add_assoc, Nat.add_comm 1]
    rw [copyRest, if_pos (by simp), ha]
    simp only [Option.bind_eq_bind, Option.bind_some, write_at]
    rw [hstop]
    cases rest with
    | nil =>
      obtain rfl : a = last := by simpa using hlast
      obtain ⟨rounds, rfl⟩ : ∃ n, rounds = n + 1 := ⟨rounds - 1, by simp at hrounds; omega⟩
      exact copyRest_done sortList _ (i + 1) pre.length rounds
    | cons b rest => exact ih hrest (by simpa using hlast) (Nat.lt_of_succ_lt_succ hrounds)

theorem copyBack_spec (hlen : bpre.length = pre.length) (hold : old.length = out.length) :
    copyBack (bpre ++ out ++ bpost) out.length pre.length (pre ++ old ++ post) =
      some (pre ++ out ++ post) := by
  induction out generalizing pre bpre old with
  | nil =>
    obtain rfl := List.length_eq_zero_iff.mp hold
    simp [copyBack]
  | cons a out ih =>
    obtain ⟨x, old, rfl⟩ := List.exists_cons_of_length_eq_add_one hold
    have hget : (bpre ++ a :: out ++ bpost)[pre.length]? = some a := by simp [← hlen]
    have hnext := @ih old (pre ++ [a]) (bpre ++ [a]) (by simp [hlen]) (Nat.succ.inj hold)
    rw [List.length_append, List.length_singleton] at hnext
    rw [List.length_cons, copyBack, hget, List.append_assoc, List.cons_append]
    simp only [Option.bind_eq_bind, Option.bind_some, write_at]
    simpa using hnext

theorem prefix_drop_suffix {rest : List Int} (h : as <+: sortList.drop i) (hrest : rest <:+ as) :
    rest <+: sortList.drop (i + as.length - rest.length) := by
  obtain ⟨taken, rfl⟩ := hrest
  obtain ⟨behind, hbehind⟩ := h
  have hindex : i + (taken ++ rest).length - rest.length = i + taken.length := by
    rw [List.length_append]
    omega
  refine ⟨behind, ?_⟩
  rw [hindex, ← List.drop_drop, ← hbehind, List.append_assoc, List.drop_left]

theorem copyRests_spec {last x : Int} (h : Merging as bs out ra rb) (has : as <+: sortList.drop i)
    (hbs : bs <+: sortList.drop j) (hlast : (ra ++ rb).getLast? = some last)
    (hrounds : (ra ++ rb).length < rounds) :
    (copyRest sortList (i + as.length) pre.length rounds (pre ++ x :: post)
        (i + as.length - ra.length)).bind (fun buf =>
      copyRest sortList (j + bs.length) pre.length rounds buf (j + bs.length - rb.length)) =
      some (pre ++ last :: post) := by
  obtain ⟨rounds, rfl⟩ : ∃ n, rounds = n + 1 := ⟨rounds - 1, by omega⟩
  rcases h.rest_nil with rfl | rfl
  · have hrb := prefix_drop_suffix hbs h.right_suffix
    have hstop : j + bs.length = j + bs.length - rb.length + rb.length := by
      have hle := h.right_suffix.length_le
      omega
    rw [List.length_nil, Nat.sub_zero, copyRest_done, Option.bind_some]
    have hcopy := @copyRest_spec sortList pre post _ (rounds + 1) rb last x hrb hlast hrounds
    rwa [← hstop] at hcopy
  · rw [List.append_nil] at hlast hrounds
    have hra := prefix_drop_suffix has h.left_suffix
    have hstop : i + as.length = i + as.length - ra.length + ra.length := by
      have hle := h.left_suffix.length_le
      omega
    have hcopy := @copyRest_spec sortList pre post _ (rounds + 1) ra last x hra hlast hrounds
    rw [← hstop] at hcopy
    rw [hcopy, Option.bind_some, List.length_nil, Nat.sub_zero, copyRest_done]

/-- What `Merge` leaves in its range: the merge up to where a run was used up,
the last element of the other, and then what the buffer held. -/
def leftBehind (out old : List Int) (last : Int) : List Int :=
  out ++ last :: old.drop (out.length + 1)

theorem merge_spec {last : Int} (h : Merging as bs out ra rb) (has : as ≠ []) (hbs : bs ≠ [])
    (hlast : (ra ++ rb).getLast? = some last) (hlen : bpre.length = pre.length)
    (hold : old.length = as.length + bs.length) :
    merge ⟨pre ++ (as ++ bs) ++ post, bpre ++ old ++ bpost⟩ pre.length (pre.length + as.length)
        (pre.length + as.length + bs.length) =
      some ⟨pre ++ leftBehind out old last ++ post, bpre ++ leftBehind out old last ++ bpost⟩ := by
  have hposa := List.length_pos_of_ne_nil has
  have hposb := List.length_pos_of_ne_nil hbs
  have hperm := h.perm.length_eq
  simp only [List.length_append] at hperm
  have hrest := List.length_pos_of_ne_nil (h.rest_ne_nil (.inl has))
  rw [List.length_append] at hrest
  have hsplit : old = old.take out.length ++ old[out.length] :: old.drop (out.length + 1) := by
    rw [← List.drop_eq_getElem_cons, List.take_append_drop]
  have hreada : as <+: (pre ++ (as ++ bs) ++ post).drop pre.length := by
    simp
  have hreadb : bs <+: (pre ++ (as ++ bs) ++ post).drop (pre.length + as.length) := by
    rw [← List.drop_drop]
    simp
  have hloop := @mergeLoop_spec (pre ++ (as ++ bs) ++ post) as bs out ra rb (old.take out.length) bpre
    (old[out.length] :: (old.drop (out.length + 1) ++ bpost)) pre.length (pre.length + as.length)
    (pre.length + as.length + bs.length - pre.length + 1) h hreada hreadb
    (List.length_take_of_le (by omega)) (by omega)
  have hcopy := @copyRests_spec (pre ++ (as ++ bs) ++ post) as bs out ra rb (bpre ++ out)
    (old.drop (out.length + 1) ++ bpost) pre.length (pre.length + as.length)
    (pre.length + as.length + bs.length - pre.length + 1) last old[out.length] h hreada hreadb hlast
    (by rw [List.length_append]; omega)
  have hback := @copyBack_spec (leftBehind out old last) (as ++ bs) pre post bpre bpost hlen
    (by simp [leftBehind]; omega)
  have hbuf : bpre ++ old ++ bpost = bpre ++ old.take out.length ++
      old[out.length] :: (old.drop (out.length + 1) ++ bpost) := by
    rw [← List.cons_append, List.append_assoc bpre (old.take _), ← List.append_assoc (old.take _),
      ← hsplit, List.append_assoc]
  have hrange : pre.length + as.length + bs.length - pre.length = (leftBehind out old last).length := by
    simp [leftBehind]
    omega
  have hleft : bpre ++ out ++ last :: (old.drop (out.length + 1) ++ bpost) =
      bpre ++ leftBehind out old last ++ bpost := by
    simp [leftBehind]
  have hindex : pre.length + out.length = (bpre ++ out).length := by
    rw [List.length_append, hlen]
  rw [hlen] at hloop
  rw [← hindex, hleft] at hcopy
  rw [merge, if_pos ⟨by omega, by omega⟩]
  simp only [Option.bind_eq_bind, hbuf, hloop, Option.bind_some]
  rw [← Option.bind_assoc, hcopy, Option.bind_some, hrange, hback]
  rfl

end

-- ---------------------------------------------------------------------------
-- `SubMergeSort`
-- ---------------------------------------------------------------------------

/-- What sorting a range leaves in it. Behind the cell for all that is left of a
run, the buffer holds the two halves from when they were sorted. -/
inductive Outcome : List Int → List Int → Prop
  | small {seg : List Int} (h : seg.length ≤ 1) : Outcome seg seg
  | merged {seg as bs out ra rb : List Int} {last : Int} (h : 2 ≤ seg.length)
    (left : Outcome (seg.take (seg.length / 2)) as) (right : Outcome (seg.drop (seg.length / 2)) bs)
    (loop : Merging as bs out ra rb) (rest : (ra ++ rb).getLast? = some last) :
    Outcome seg (leftBehind out (as ++ bs) last)

section
variable {seg as bs out ra rb pre post bpre bseg bpost : List Int} {depth : Nat}

theorem length_leftBehind {last : Int} (h : Merging as bs out ra rb) (hne : as ≠ [] ∨ bs ≠ []) :
    (leftBehind out (as ++ bs) last).length = (as ++ bs).length := by
  have hperm := h.perm.length_eq
  have hrest := List.length_pos_of_ne_nil (h.rest_ne_nil hne)
  rw [List.length_append] at hperm
  simp only [leftBehind, List.length_append, List.length_cons, List.length_drop] at *
  omega

theorem Outcome.length_eq (h : Outcome seg out) : out.length = seg.length := by
  induction h with
  | small _ => rfl
  | @merged seg as bs out ra rb last h _ _ loop rest ihl ihr =>
    have hlen : (as ++ bs).length = seg.length := by
      rw [List.length_append, ihl, ihr, ← List.length_append, List.take_append_drop]
    refine (length_leftBehind loop (.inl ?_)).trans hlen
    rintro rfl
    rw [List.length_nil, List.length_take] at ihl
    omega

/-- The two halves, after the calls that sort them: a half of one element was not
sorted, and then the buffer holds what it held. -/
structure Halves (seg as bs bl br : List Int) : Prop where
  left : Outcome (seg.take (seg.length / 2)) as
  right : Outcome (seg.drop (seg.length / 2)) bs
  left_length : bl.length = as.length
  right_length : br.length = bs.length
  left_buf : 2 ≤ as.length → bl = as
  right_buf : 2 ≤ bs.length → br = bs

theorem Halves.length_left {bl br : List Int} (h : Halves seg as bs bl br) :
    as.length = seg.length / 2 := by
  rw [h.left.length_eq, List.length_take]
  omega

theorem Halves.length_right {bl br : List Int} (h : Halves seg as bs bl br) :
    bs.length = seg.length - seg.length / 2 := by
  rw [h.right.length_eq, List.length_drop]

theorem Halves.leftBehind_eq {bl br : List Int} {last : Int} (h : Halves seg as bs bl br)
    (htwo : 2 ≤ seg.length) (hout : out ≠ []) :
    leftBehind out (bl ++ br) last = leftBehind out (as ++ bs) last := by
  have hl := h.length_left
  have hr := h.length_right
  have hpos := List.length_pos_of_ne_nil hout
  have hsplit : ∀ xs ys : List Int, xs.length = 1 →
      (xs ++ ys).drop (out.length + 1) = ys.drop out.length := fun xs ys hxs => by
    rw [Nat.add_comm, ← hxs, ← List.drop_drop, List.drop_left]
  rw [leftBehind, leftBehind]
  by_cases hone : as.length = 1
  · rw [hsplit bl br (h.left_length.trans hone), hsplit as bs hone]
    by_cases htwo' : 2 ≤ bs.length
    · rw [h.right_buf htwo']
    · have hlen := h.right_length
      rw [List.drop_of_length_le (by omega), List.drop_of_length_le (by omega)]
  · rw [h.left_buf (by omega), h.right_buf (by omega)]

def sortHalves (depth : Nat) (m : Memory) (start stop : Nat) : Option Memory :=
  if stop - start > 2 then
    (subMergeSort depth m ((start + stop) / 2) stop).bind fun m =>
      subMergeSort depth m start ((start + stop) / 2)
  else some m

theorem subMergeSort_succ {m : Memory} {start stop : Nat} (hsum : start + stop < 2 ^ 31)
    (hle : start ≤ stop) : subMergeSort (depth + 1) m start stop =
      (sortHalves depth m start stop).bind fun m =>
        if stop - start > 1 then merge m start ((start + stop) / 2) stop else some m := by
  rw [subMergeSort, toInt_of_lt hsum, sortHalves]
  simp only [Option.bind_eq_bind, Option.bind_some, if_pos hle]
  split
  · rw [Option.bind_assoc]
  · rfl

/-- The buffer is only written where there is something to merge. -/
def bufAfter (bseg out : List Int) : List Int := if 2 ≤ out.length then out else bseg

theorem length_bufAfter (h : bseg.length = out.length) :
    (bufAfter bseg out).length = out.length := by
  rw [bufAfter]
  split
  · rfl
  · exact h

theorem sortHalves_spec (ih : ∀ seg pre post bpre bseg bpost : List Int, seg.length ≤ depth →
      1 ≤ seg.length → bpre.length = pre.length → bseg.length = seg.length →
      pre.length + seg.length ≤ 2 ^ 30 →
      ∃ out, Outcome seg out ∧ subMergeSort depth ⟨pre ++ seg ++ post, bpre ++ bseg ++ bpost⟩
          pre.length (pre.length + seg.length) =
        some ⟨pre ++ out ++ post, bpre ++ bufAfter bseg out ++ bpost⟩)
    (hdepth : seg.length ≤ depth + 1) (htwo : 2 ≤ seg.length) (hlen : bpre.length = pre.length)
    (hbseg : bseg.length = seg.length) (hsmall : pre.length + seg.length ≤ 2 ^ 30) :
    ∃ as bs bl br, Halves seg as bs bl br ∧
      sortHalves depth ⟨pre ++ seg ++ post, bpre ++ bseg ++ bpost⟩ pre.length
          (pre.length + seg.length) =
        some ⟨pre ++ (as ++ bs) ++ post, bpre ++ (bl ++ br) ++ bpost⟩ := by
  generalize hh : seg.length / 2 = half
  have hleft : (seg.take half).length = half := List.length_take_of_le (by omega)
  have hright : (seg.drop half).length = seg.length - half := List.length_drop
  have hbleft : (bseg.take half).length = half := List.length_take_of_le (by omega)
  have hbright : (bseg.drop half).length = seg.length - half := by rw [List.length_drop, hbseg]
  have hmiddle : (pre.length + (pre.length + seg.length)) / 2 = pre.length + half := by omega
  rw [sortHalves, hmiddle, Nat.add_sub_cancel_left]
  by_cases hthree : seg.length > 2
  · obtain ⟨bs, hbs, hrunr⟩ := ih (seg.drop half) (pre ++ seg.take half) post
      (bpre ++ bseg.take half) (bseg.drop half) bpost (by omega) (by omega) (by simp; omega)
      (by omega) (by simp; omega)
    obtain ⟨as, has, hrunl⟩ := ih (seg.take half) pre (bs ++ post) bpre (bseg.take half)
      (bufAfter (bseg.drop half) bs ++ bpost) (by omega) (by omega) hlen (by omega) (by omega)
    have hasl := has.length_eq.trans hleft
    have hbsl := hbs.length_eq.trans hright
    refine ⟨as, bs, bufAfter (bseg.take half) as, bufAfter (bseg.drop half) bs,
      ⟨hh.symm ▸ has, hh.symm ▸ hbs, length_bufAfter (by omega), length_bufAfter (by omega),
        fun h => if_pos h, fun h => if_pos h⟩, ?_⟩
    have hseg : pre ++ seg ++ post = pre ++ seg.take half ++ seg.drop half ++ post := by
      rw [List.append_assoc pre (seg.take half), List.take_append_drop]
    have hbuf : bpre ++ bseg ++ bpost = bpre ++ bseg.take half ++ bseg.drop half ++ bpost := by
      rw [List.append_assoc bpre (bseg.take half), List.take_append_drop]
    have hstop : pre.length + half + (seg.length - half) = pre.length + seg.length := by omega
    rw [List.length_append, hleft, hright, hstop] at hrunr
    rw [hleft] at hrunl
    rw [if_pos hthree, hseg, hbuf, hrunr, Option.bind_some, List.append_assoc _ bs post,
      List.append_assoc _ (bufAfter (bseg.drop half) bs) bpost, hrunl]
    simp
  · have hl : half = 1 := by omega
    refine ⟨seg.take half, seg.drop half, bseg.take half, bseg.drop half, ⟨?_, ?_, ?_, ?_, ?_, ?_⟩, ?_⟩
    · rw [hh]
      exact .small (by omega)
    · rw [hh]
      exact .small (by omega)
    · omega
    · omega
    · omega
    · omega
    · rw [if_neg hthree, List.take_append_drop, List.take_append_drop]

/-- Where every sum of two bounds fits, a range is sorted to an outcome. -/
theorem subMergeSort_spec : ∀ (depth : Nat) (seg pre post bpre bseg bpost : List Int),
    seg.length ≤ depth → 1 ≤ seg.length → bpre.length = pre.length → bseg.length = seg.length →
    pre.length + seg.length ≤ 2 ^ 30 →
    ∃ out, Outcome seg out ∧ subMergeSort depth ⟨pre ++ seg ++ post, bpre ++ bseg ++ bpost⟩
        pre.length (pre.length + seg.length) =
      some ⟨pre ++ out ++ post, bpre ++ bufAfter bseg out ++ bpost⟩ := by
  intro depth
  induction depth with
  | zero => intro seg pre post bpre bseg bpost hdepth hpos; omega
  | succ depth ih =>
    intro seg pre post bpre bseg bpost hdepth hpos hlen hbseg hsmall
    rw [subMergeSort_succ (by omega) (Nat.le_add_right _ _), Nat.add_sub_cancel_left]
    by_cases hone : seg.length ≤ 1
    · refine ⟨seg, .small hone, ?_⟩
      rw [sortHalves, if_neg (by omega), Option.bind_some, if_neg (by omega), bufAfter,
        if_neg (by omega)]
    · have htwo : 2 ≤ seg.length := by omega
      obtain ⟨as, bs, bl, br, hh, hrun⟩ := @sortHalves_spec seg pre post bpre bseg bpost depth ih
        hdepth htwo hlen hbseg hsmall
      have hasl := hh.length_left
      have hbsl := hh.length_right
      have has : as ≠ [] := List.ne_nil_of_length_pos (by omega)
      have hbs : bs ≠ [] := List.ne_nil_of_length_pos (by omega)
      obtain ⟨out, ra, rb, hloop⟩ := Merging.exists_loop as bs
      obtain ⟨last, hlast⟩ : ∃ last, (ra ++ rb).getLast? = some last :=
        ⟨_, List.getLast?_eq_some_getLast (hloop.rest_ne_nil (.inl has))⟩
      have hout : Outcome seg (leftBehind out (as ++ bs) last) :=
        .merged htwo hh.left hh.right hloop hlast
      have hmerge := @merge_spec as bs out ra rb (bl ++ br) pre post bpre bpost last hloop has hbs
        hlast hlen (by rw [List.length_append, hh.left_length, hh.right_length])
      have hmiddle : (pre.length + (pre.length + seg.length)) / 2 = pre.length + as.length := by
        omega
      have hstop : pre.length + seg.length = pre.length + as.length + bs.length := by omega
      have hgt : seg.length > 1 := htwo
      refine ⟨_, hout, ?_⟩
      rw [hrun, Option.bind_some, if_pos hgt, hmiddle, hstop, hmerge, bufAfter,
        if_pos (hout.length_eq ▸ htwo), hh.leftBehind_eq htwo (hloop.out_ne_nil has hbs)]

theorem subMergeSort_overflow {m : Memory} {start stop : Nat} (htwo : start + 2 ≤ stop)
    (hbig : 2 ^ 31 ≤ 2 * stop - 2) : subMergeSort depth m start stop = none := by
  induction depth generalizing m start with
  | zero => rfl
  | succ depth ih =>
    by_cases hsum : start + stop < 2 ^ 31
    · have hthree : stop - start > 2 := by omega
      rw [subMergeSort_succ hsum (by omega), sortHalves, if_pos hthree, ih (by omega)]
      rfl
    · rw [subMergeSort, toInt, if_neg hsum]
      rfl

end

end TextMining.MergeSort
