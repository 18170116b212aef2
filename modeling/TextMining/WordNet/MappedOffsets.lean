import TextMining.WordNet.ServerIndex

/-!
# Offsets into the mapped file

`LoadIndexmmap` narrows the size of the relation file to an `int`, and
`GetCoocTerm` computes the offset of a record in 32 bits. A file whose size
does not fit the `int` is accepted all the same where what is left of the size
is positive.
-/

namespace TextMining.WordNet.Server

def OffsetsInside (m : FileMmap) (n : Nat) : Prop :=
  ∀ i < n, (relateOffset i).toNat = 12 * i ∧
    ((relateOffset i).toNat : Int) + 12 ≤ m.fsize.toInt

theorem toNat_relateOffset {i : Nat} (h : 12 * i < 2 ^ 32) : (relateOffset i).toNat = 12 * i := by
  rw [relateOffset, UInt32.toNat_mul, UInt32.toNat_ofNat_of_lt' (show i < 2 ^ 32 by omega),
    show (12 : UInt32).toNat = 12 from rfl, Nat.mod_eq_of_lt (by omega), Nat.mul_comm]

theorem mmapRelate_some {relates : List UInt8} {m : FileMmap} (h : mmapRelate relates = some m) :
    m.fsize = Int32.ofNat relates.length ∧ 0 < m.fsize.toInt := by
  rw [mmapRelate] at h
  split at h
  · cases h
  · rename_i hpos
    obtain rfl := Option.some.inj h
    rw [Int32.le_iff_toInt_le, not_le] at hpos
    exact ⟨rfl, hpos⟩

theorem loadIndexmmap_mapped {unset : Nat → Nat} {termInfo : List UInt8}
    {hotTermBuf : List SortItem} {files : IndexFiles} {g : GlobalData}
    (h : loadIndexmmap unset termInfo hotTermBuf files = some g) {relates : List UInt8}
    (hr : files.relateInfo = some relates) : mmapRelate relates = some g.fileMmap := by
  simp only [loadIndexmmap, hr, Option.bind_eq_bind, Option.bind_eq_some_iff, Option.bind_some] at h
  obtain ⟨_, -, _, -, _, -, _, -, _, -, _, -, _, -, m, hm, hg⟩ := h
  obtain rfl := Option.some.inj hg
  exact hm

/-- What is accepted has its offsets inside if and only if the size of the
file fits an `int`. -/
theorem offsetsInside_iff {unset : Nat → Nat} {termInfo : List UInt8}
    {hotTermBuf : List SortItem} {files : IndexFiles} {g : GlobalData}
    (h : loadIndexmmap unset termInfo hotTermBuf files = some g) {relates : List UInt8}
    (hr : files.relateInfo = some relates)
    (hsize : relates.length = 12 * g.totalIndexInfo.sortedRelateTermNum.toNat) :
    OffsetsInside g.fileMmap g.totalIndexInfo.sortedRelateTermNum.toNat ↔
      12 * g.totalIndexInfo.sortedRelateTermNum.toNat < 2 ^ 31 := by
  obtain ⟨hfsize, hpos⟩ := mmapRelate_some (loadIndexmmap_mapped h hr)
  rw [hsize] at hfsize
  generalize g.totalIndexInfo.sortedRelateTermNum.toNat = n at hfsize
  constructor
  · intro hin
    rw [hfsize] at hpos
    have hn : 0 < n := by
      refine Nat.pos_of_ne_zero fun hz => ?_
      rw [hz] at hpos
      exact absurd hpos (by decide)
    obtain ⟨hoff, hle⟩ := hin (n - 1) (by omega)
    have hlt := Int32.toInt_lt g.fileMmap.fsize
    omega
  · intro hsmall i hi
    have hoff := toNat_relateOffset (show 12 * i < 2 ^ 32 by omega)
    refine ⟨hoff, ?_⟩
    rw [hfsize, Int32.toInt_ofNat_of_lt hsmall, hoff]
    omega

/-- One term with one relation, whose number is the last one below `n`. -/
def lastRelation (n : Nat) (relates : List UInt8) : IndexFiles where
  ind1 := some (writeU32 97)
  ind2 := some (writeU32 0)
  n := some (snprintf 128 (TotalIndexInfo.text ⟨1, UInt32.ofNat n, UInt32.ofNat n, 1⟩))
  termInfo := some (termArray [] [97] ++ writeU32 0 ++ writeU32 1 ++ writeU32 1 ++ writeU32 97 ++
    writeU32 (UInt32.ofNat (n - 1)))
  relateInfo := some relates

theorem offsetsInside_three : ∃ g,
    loadIndexmmap (fun _ => 0) (text "data/index/term_info.index") []
        (lastRelation 3 (List.replicate 36 0)) = some g ∧
      g.totalIndexInfo.sortedRelateTermNum = 3 ∧ OffsetsInside g.fileMmap 3 := by
  have hload : (loadIndexmmap (fun _ => 0) (text "data/index/term_info.index") []
      (lastRelation 3 (List.replicate 36 0))).map
        (fun g => g.totalIndexInfo.sortedRelateTermNum) = some 3 := by
    decide +kernel
  obtain ⟨g, hg, hthree⟩ := Option.map_eq_some_iff.mp hload
  have hiff := offsetsInside_iff hg rfl (by rw [hthree]; rfl)
  rw [hthree] at hiff
  exact ⟨g, hg, hthree, hiff.mpr (by decide)⟩

theorem load_lastRelation {relates : List UInt8} {fileMmap : FileMmap}
    (hmap : mmapRelate relates = some fileMmap) : ∃ g,
    loadIndexmmap (fun _ => 0) (text "data/index/term_info.index") []
        (lastRelation 357913942 relates) = some g ∧
      g.totalIndexInfo.sortedRelateTermNum = 357913942 ∧ g.fileMmap = fileMmap := by
  have htotal : loadTotal (LibWb.SpliteByChar npos · 58) (fun _ => 0)
      (snprintf 100 (text "data/index/term_info.index"))
      (snprintf 128 (TotalIndexInfo.text ⟨1, UInt32.ofNat 357913942, UInt32.ofNat 357913942, 1⟩)) =
      some ⟨1, 357913942, 357913942, 0⟩ := by decide +kernel
  have hindex : (loadTermIndex 1 1 ∅ (writeU32 97) (writeU32 0)).isSome := by decide +kernel
  have hterms : (loadTerms id 357913942 1 (termArray [] [97] ++ writeU32 0 ++ writeU32 1 ++
      writeU32 1 ++ writeU32 97 ++ writeU32 (UInt32.ofNat (357913942 - 1)))).isSome := by
    decide +kernel
  obtain ⟨m, hm⟩ := Option.isSome_iff_exists.mp hindex
  obtain ⟨ts, hts⟩ := Option.isSome_iff_exists.mp hterms
  refine ⟨⟨⟨1, 357913942, 357913942, 0⟩, m, ts, fileMmap, []⟩, ?_, rfl, rfl⟩
  simp only [loadIndexmmap, lastRelation, Option.bind_eq_bind, Option.bind_some, htotal, hm, hts,
    hmap]

theorem mmapRelate_wraps {relates : List UInt8} (h : relates.length = 4294967304) :
    mmapRelate relates = some ⟨8, relates⟩ := by
  have hsize : Int32.ofNat 4294967304 = 8 := by decide
  rw [mmapRelate, h, hsize]
  exact if_neg (by decide)

/-- The size `2 ^ 32 + 8` is narrowed to 8, and the last record begins far
behind. -/
theorem mapped_size_wraps : ∃ g,
    loadIndexmmap (fun _ => 0) (text "data/index/term_info.index") []
        (lastRelation 357913942 (List.replicate 4294967304 0)) = some g ∧
      g.totalIndexInfo.sortedRelateTermNum = 357913942 ∧ g.fileMmap.fsize = 8 ∧
      (relateOffset 357913941).toNat = 4294967292 ∧ ¬ OffsetsInside g.fileMmap 357913942 := by
  have hmap : mmapRelate (List.replicate 4294967304 0) = some _ := mmapRelate_wraps List.length_replicate
  generalize List.replicate 4294967304 (0 : UInt8) = relates at hmap
  obtain ⟨g, hg, hnum, hm⟩ := load_lastRelation hmap
  have hsize : g.fileMmap.fsize = 8 := by rw [hm]
  have hoff : (relateOffset 357913941).toNat = 4294967292 := by decide
  refine ⟨g, hg, hnum, hsize, hoff, fun h => ?_⟩
  obtain ⟨-, hle⟩ := h 357913941 (by decide)
  rw [hsize, hoff] at hle
  exact absurd hle (by decide)

end TextMining.WordNet.Server
