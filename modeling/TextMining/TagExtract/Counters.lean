import TextMining.TagExtract.Model
import Mathlib.Algebra.BigOperators.Group.List.Basic

/-!
# What the counters count

The counters of a term depend on the type columns of the posts that have the
term, in their order. In the first of these posts a repeated type counts once;
in the later ones it counts every time.
-/

namespace TextMining.TagExtract

-- ---------------------------------------------------------------------------
-- Types of a post
-- ---------------------------------------------------------------------------

section
variable {m : TypeMap} {c type u term : List UInt8}

theorem typeInfo_insert (m : TypeMap) (type c : List UInt8) (info : WbTypeInfo) :
    TypeMap.typeInfo (m.insert type info) c = if c = type then info else m.typeInfo c := by
  rw [TypeMap.typeInfo, OrdMap.lookup_insert]
  split
  · rfl
  · rfl

theorem weiboNum_setTypeTerm (t : TypeTermInfo) :
    ((m.setTypeTerm type term t).typeInfo c).weiboNum = (m.typeInfo c).weiboNum := by
  rw [TypeMap.setTypeTerm, typeInfo_insert]
  split
  · rename_i hc
    rw [hc]
  · rfl

theorem termNum_setTypeTerm (t : TypeTermInfo) : (m.setTypeTerm type term t).termNum c u =
    if u = term ∧ c = type then t.termNum else m.termNum c u := by
  rw [TypeMap.termNum, TypeMap.setTypeTerm, typeInfo_insert]
  cases decEq c type with
  | isFalse hc => rw [if_neg hc, if_neg fun h => hc h.2, TypeMap.termNum]
  | isTrue hc =>
    rw [if_pos hc, OrdMap.lookup_insert, hc]
    split
    · rename_i hu
      rw [if_pos ⟨hu, rfl⟩]
      rfl
    · rename_i hu
      rw [if_neg fun h => hu h.1, TypeMap.termNum]

theorem weiboNum_newTypeTerm (p : Int32) :
    ((m.newTypeTerm term p type).typeInfo c).weiboNum = (m.typeInfo c).weiboNum :=
  weiboNum_setTypeTerm _

theorem weiboNum_countTypeTerm (p : Int32) :
    ((m.countTypeTerm term p type).typeInfo c).weiboNum = (m.typeInfo c).weiboNum := by
  rw [TypeMap.countTypeTerm]
  split
  · exact weiboNum_newTypeTerm p
  · exact weiboNum_setTypeTerm _

theorem termNum_newTypeTerm (p : Int32) : (m.newTypeTerm term p type).termNum c u =
    if u = term ∧ c = type then 1 else m.termNum c u := termNum_setTypeTerm _

theorem termNum_countTypeTerm (p : Int32) : (m.countTypeTerm term p type).termNum c u =
    if u = term ∧ c = type then m.termNum c u + 1 else m.termNum c u := by
  have hset : ∀ t : TypeTermInfo, t.termNum = m.termNum type term + 1 →
      (m.setTypeTerm type term t).termNum c u =
        if u = term ∧ c = type then m.termNum c u + 1 else m.termNum c u := by
    intro t ht
    rw [termNum_setTypeTerm, ht]
    split
    · rename_i h
      rw [h.1, h.2]
    · rfl
  rw [TypeMap.countTypeTerm]
  split
  · rename_i hnone
    exact hset _ (by rw [TypeMap.termNum, hnone]; rfl)
  · rename_i t hsome
    exact hset _ (by rw [TypeMap.termNum, hsome]; rfl)

theorem weiboNum_foldl {f : TypeMap → List UInt8 → TypeMap}
    (hf : ∀ m type, ((f m type).typeInfo c).weiboNum = (m.typeInfo c).weiboNum)
    (types : List (List UInt8)) :
    ((types.foldl f m).typeInfo c).weiboNum = (m.typeInfo c).weiboNum := by
  induction types generalizing m with
  | nil => rfl
  | cons type types ih => exact (ih (m := f m type)).trans (hf m type)

theorem termNum_newTypeTerms (p : Int32) (types : List (List UInt8)) :
    (types.foldl (TypeMap.newTypeTerm term p) m).termNum c u =
      if u = term ∧ c ∈ types then 1 else m.termNum c u := by
  induction types generalizing m with
  | nil => rw [List.foldl_nil, if_neg fun h => List.not_mem_nil h.2]
  | cons type types ih =>
    rw [List.foldl_cons, ih, termNum_newTypeTerm]
    cases decEq u term with
    | isFalse hu => simp only [hu, false_and, if_false]
    | isTrue hu =>
      simp only [hu, true_and, List.mem_cons]
      split
      · rename_i hc
        rw [if_pos (.inr hc)]
      · rename_i hc
        simp only [hc, or_false]

theorem termNum_countTypeTerms (p : Int32) (types : List (List UInt8)) :
    (types.foldl (TypeMap.countTypeTerm term p) m).termNum c u =
      m.termNum c u + if u = term then types.count c else 0 := by
  induction types generalizing m with
  | nil => rw [List.foldl_nil, List.count_nil, ite_self, Nat.add_zero]
  | cons type types ih =>
    rw [List.foldl_cons, ih, termNum_countTypeTerm]
    cases decEq u term with
    | isFalse hu => simp only [hu, false_and, if_false]
    | isTrue hu =>
      simp only [hu, true_and, if_true, List.count_cons, beq_iff_eq, eq_comm (a := type)]
      split
      · exact Nat.add_right_comm _ _ _
      · rfl

end

-- ---------------------------------------------------------------------------
-- Record of a term
-- ---------------------------------------------------------------------------

/-- How often the counters of a term have counted a type, from the type columns
of the posts with the term. -/
def recorded (columns : List (List (List UInt8))) (c : List UInt8) : Nat :=
  match columns with
  | [] => 0
  | first :: later => min 1 (first.count c) + (later.map (List.count c)).sum

theorem recorded_singleton (types : List (List UInt8)) (c : List UInt8) :
    recorded [types] c = if c ∈ types then 1 else 0 := by
  rw [recorded, List.map_nil, List.sum_nil, Nat.add_zero]
  split
  · rename_i hc
    exact Nat.min_eq_left (List.count_pos_iff.mpr hc)
  · rename_i hc
    rw [List.count_eq_zero_of_not_mem hc, Nat.min_zero]

theorem recorded_concat {columns : List (List (List UInt8))} (h : columns ≠ [])
    (types : List (List UInt8)) (c : List UInt8) :
    recorded (columns ++ [types]) c = recorded columns c + types.count c := by
  cases columns with
  | nil => exact absurd rfl h
  | cons first later =>
    rw [List.cons_append, recorded, recorded, List.map_append, List.sum_append, List.map_singleton,
      List.sum_singleton, Nat.add_assoc]

section
variable (env : Env)

def TermInfo.bin (info : TermInfo) (c : List UInt8) : Nat :=
  (info.termFreqBin.lookup (hashType env c)).getD 0

variable {env} {info : TermInfo} {c type : List UInt8} {isBad : Nat}

theorem bin_insert (info : TermInfo) (c type : List UInt8) (n : Nat) :
    ((info.termFreqBin.insert (hashType env type) n).lookup (hashType env c)).getD 0 =
      if hashType env c = hashType env type then n else info.bin env c := by
  split
  · rename_i h
    rw [h, AList.lookup_insert, Option.getD_some]
  · rename_i h
    rw [AList.lookup_insert_ne h, TermInfo.bin]

theorem bin_newType : (info.newType env isBad type).bin env c =
    if hashType env c = hashType env type then 1 else info.bin env c :=
  bin_insert info c type 1

theorem bin_countType : (info.countType env isBad type).bin env c =
    if hashType env c = hashType env type then info.bin env c + 1 else info.bin env c := by
  refine (bin_insert info c type _).trans ?_
  split
  · rename_i h
    rw [TermInfo.bin, h]
  · rfl

structure SameCounts (info info' : TermInfo) : Prop where
  termstr : info'.termstr = info.termstr
  total : info'.nTotalTFBin = info.nTotalTFBin
  bins : info'.termFreqBin = info.termFreqBin

theorem sameCounts_repeatTypes (types : List (List UInt8)) :
    SameCounts info (types.foldl (TermInfo.repeatType env isBad) info) := by
  induction types generalizing info with
  | nil => exact ⟨rfl, rfl, rfl⟩
  | cons type types ih =>
    have h := @ih (info.repeatType env isBad type)
    exact ⟨h.termstr, h.total, h.bins⟩

theorem foldl_types (env : Env) (f : TermInfo → List UInt8 → TermInfo) (info : TermInfo)
    (hstr : ∀ info type, (f info type).termstr = info.termstr)
    (htotal : ∀ info type, (f info type).nTotalTFBin = info.nTotalTFBin + 1)
    (hkeys : ∀ info type h, h ∈ (f info type).termFreqBin ↔
      h = hashType env type ∨ h ∈ info.termFreqBin) (types : List (List UInt8)) :
    (types.foldl f info).termstr = info.termstr ∧
      (types.foldl f info).nTotalTFBin = info.nTotalTFBin + types.length ∧
      ∀ h, h ∈ (types.foldl f info).termFreqBin ↔
        h ∈ info.termFreqBin ∨ ∃ d ∈ types, hashType env d = h := by
  induction types generalizing info with
  | nil =>
    refine ⟨rfl, rfl, fun h => (or_iff_left ?_).symm⟩
    rintro ⟨d, hd, -⟩
    cases hd
  | cons type types ih =>
    obtain ⟨hs, ht, hk⟩ := @ih (f info type)
    refine ⟨hs.trans (hstr info type), ht.trans ?_, fun h => (hk h).trans ?_⟩
    · rw [htotal, List.length_cons, Nat.add_assoc, Nat.add_comm 1]
    · simp only [hkeys, List.mem_cons, exists_eq_or_imp, eq_comm (a := h)]
      rw [or_comm (a := hashType env type = h), or_assoc]

section
variable {types : List (List UInt8)} (hc : ∀ d ∈ types, hashType env d = hashType env c → d = c)
include hc

theorem bin_newTypes : (types.foldl (TermInfo.newType env isBad) info).bin env c =
    if c ∈ types then 1 else info.bin env c := by
  induction types generalizing info with
  | nil => rw [List.foldl_nil, if_neg List.not_mem_nil]
  | cons type types ih =>
    rw [List.foldl_cons, ih fun d hd => hc d (List.mem_cons_of_mem type hd), bin_newType]
    have htype : hashType env c = hashType env type ↔ c = type :=
      ⟨fun h => (hc type List.mem_cons_self h.symm).symm, fun h => by rw [h]⟩
    simp only [htype, List.mem_cons]
    split
    · rename_i h
      rw [if_pos (.inr h)]
    · rename_i h
      simp only [h, or_false]

theorem bin_countTypes : (types.foldl (TermInfo.countType env isBad) info).bin env c =
    info.bin env c + types.count c := by
  induction types generalizing info with
  | nil => rfl
  | cons type types ih =>
    rw [List.foldl_cons, ih fun d hd => hc d (List.mem_cons_of_mem type hd), bin_countType]
    have htype : hashType env c = hashType env type ↔ type = c :=
      ⟨fun h => hc type List.mem_cons_self h.symm, fun h => by rw [h]⟩
    simp only [htype, List.count_cons, beq_iff_eq]
    split
    · exact Nat.add_right_comm _ _ _
    · rfl

end

end

-- ---------------------------------------------------------------------------
-- Tallies
-- ---------------------------------------------------------------------------

section
variable (env : Env) (names : List UInt8 → Prop)

structure Tallied (columns : List (List (List UInt8))) (term : List UInt8) (info : TermInfo) :
    Prop where
  termstr : info.termstr = snprintf 64 term
  total : info.nTotalTFBin = (columns.map List.length).sum
  keys : ∀ h, h ∈ info.termFreqBin ↔ ∃ types ∈ columns, ∃ c ∈ types, hashType env c = h
  bins : ∀ c, names c → info.bin env c = recorded columns c

variable {env names} (hnames : ∀ c d, names c → names d → hashType env c = hashType env d → c = d)
  {columns : List (List (List UInt8))} {types : List (List UInt8)} (htypes : ∀ d ∈ types, names d)
  {term : List UInt8} {info : TermInfo} {isBad : Nat}

include hnames htypes in
theorem tallied_new (p : Int32) : Tallied env names [types] term
    (types.foldl (TermInfo.newType env isBad) ⟨snprintf 64 term, p, 0, 0, 0, ∅, ∅⟩) := by
  obtain ⟨hstr, htotal, hkeys⟩ := foldl_types env (TermInfo.newType env isBad)
    ⟨snprintf 64 term, p, 0, 0, 0, ∅, ∅⟩ (fun _ _ => rfl) (fun _ _ => rfl)
    (fun _ _ _ => AList.mem_insert _) types
  refine ⟨hstr, ?_, fun h => (hkeys h).trans ?_, fun c hc => ?_⟩
  · rw [htotal, List.map_singleton, List.sum_singleton, Nat.zero_add]
  · rw [or_iff_right (AList.notMem_empty h)]
    simp only [List.mem_singleton, exists_eq_left]
  · rw [bin_newTypes fun d hd => hnames d c (htypes d hd) hc, recorded_singleton]
    rfl

include hnames htypes in
theorem Tallied.countTypes (h : Tallied env names columns term info) (hne : columns ≠ []) :
    Tallied env names (columns ++ [types]) term
      (types.foldl (TermInfo.countType env isBad) info) := by
  obtain ⟨hstr, htotal, hkeys⟩ := foldl_types env (TermInfo.countType env isBad) info
    (fun _ _ => rfl) (fun _ _ => rfl) (fun _ _ _ => AList.mem_insert _) types
  refine ⟨hstr.trans h.termstr, ?_, fun k => (hkeys k).trans ?_, fun c hc => ?_⟩
  · rw [htotal, h.total, List.map_append, List.sum_append, List.map_singleton, List.sum_singleton]
  · rw [h.keys]
    simp only [List.mem_append, List.mem_singleton, or_and_right, exists_or, exists_eq_left]
  · rw [bin_countTypes fun d hd => hnames d c (htypes d hd) hc, h.bins c hc, recorded_concat hne]

theorem Tallied.same (h : Tallied env names columns term info) {info' : TermInfo}
    (hs : SameCounts info info') : Tallied env names columns term info' where
  termstr := hs.termstr.trans h.termstr
  total := hs.total.trans h.total
  keys k := by rw [hs.bins]; exact h.keys k
  bins c hc := by
    rw [TermInfo.bin, hs.bins]
    exact h.bins c hc

end

end TextMining.TagExtract
