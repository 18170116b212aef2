import TextMining.AhoCorasick.Match
import TextMining.Lib.OrdMap
import Mathlib.Order.OrderDual

/-!
# First occurrences

`get_match_off` keeps, for each id that `get_match` reports, the offset at
which the scan first meets it. The set is ordered by the ids alone, so a later
pair with the same id is not inserted.
-/

namespace TextMining.AhoCorasick

/-- `set<pair<int,int>,setcomp>`, from the ids, the greater first, to the
offsets. -/
abbrev OffSet := OrdMap Intᵒᵈ Nat

namespace OffSet

def pairs (ret : OffSet) : List (Int × Nat) :=
  ret.entries.map fun e => (OrderDual.ofDual e.1, e.2)

def insertIds (ret : OffSet) (ids : List Int) (pos : Nat) : OffSet :=
  ids.foldl (fun ret id => ret.insertNew (OrderDual.toDual id) pos) ret

def insertFound (ret : OffSet) (pos : Nat) : List (List Int) → OffSet
  | [] => ret
  | ids :: found => insertFound (ret.insertIds ids pos) (pos + 1) found

end OffSet

/-- `str - orig_str` is `pos`. -/
def matchOffLoop (A : AhoCorasick) : Nat → Nat → OffSet → List UInt8 → Option OffSet
  | _, _, ret, [] => some ret
  | off, pos, ret, c :: str =>
    (A.fallBack c A.size off).bind fun off =>
      match (A.node off).child c with
      | none => A.matchOffLoop off (pos + 1) ret str
      | some off => (A.backIds A.size off).bind fun ids =>
        A.matchOffLoop off (pos + 1) (OffSet.insertIds ret ids pos) str

def getMatchOff (A : AhoCorasick) (str : List UInt8) : Option OffSet :=
  A.matchOffLoop Root 0 OrdMap.empty str

/-- The first of the occurrences of the word in the text to end has its last
byte at `off`. -/
def FirstEnd (w text : List UInt8) (off : Nat) : Prop :=
  off < text.length ∧ w <:+ text.take (off + 1) ∧ ∀ k < off, ¬ w <:+ text.take (k + 1)

-- ---------------------------------------------------------------------------
-- The first offset of an id
-- ---------------------------------------------------------------------------

section
variable {ret : OffSet} {i : Int} {pos : Nat}

theorem mem_pairs : (i, pos) ∈ ret.pairs ↔ ret.lookup (OrderDual.toDual i) = some pos := by
  rw [← OrdMap.mem_entries, OffSet.pairs, List.mem_map]
  constructor
  · rintro ⟨e, he, hp⟩
    cases hp
    exact he
  · exact fun he => ⟨_, he, rfl⟩

theorem pairwise_pairs (ret : OffSet) : (ret.pairs.map Prod.fst).Pairwise (· > ·) := by
  have h := ret.sorted
  rw [OffSet.pairs, List.map_map]
  rw [List.pairwise_map] at h ⊢
  exact h

theorem lookup_insertIds (ids : List Int) : (ret.insertIds ids pos).lookup (OrderDual.toDual i) =
    (ret.lookup (OrderDual.toDual i)).or (if i ∈ ids then some pos else none) := by
  induction ids generalizing ret with
  | nil => exact Option.or_none.symm
  | cons id ids ih =>
    refine ih.trans ?_
    rw [OrdMap.lookup_insertNew, Option.or_assoc]
    cases decEq i id with
    | isTrue he =>
      rw [if_pos (congrArg OrderDual.toDual he), Option.some_or,
        if_pos (List.mem_cons.mpr (.inl he))]
    | isFalse he =>
      rw [if_neg fun h => he (OrderDual.toDual_inj.mp h), Option.none_or]
      simp only [List.mem_cons, he, false_or]

theorem lookup_insertFound (found : List (List Int)) :
    (ret.insertFound pos found).lookup (OrderDual.toDual i) =
      (ret.lookup (OrderDual.toDual i)).or
        ((found.findIdx? fun ids => i ∈ ids).map (pos + ·)) := by
  induction found generalizing ret pos with
  | nil => exact Option.or_none.symm
  | cons ids found ih =>
    rw [OffSet.insertFound, ih, lookup_insertIds, Option.or_assoc, List.findIdx?_cons]
    cases decEq (decide (i ∈ ids)) true with
    | isTrue hi =>
      rw [if_pos (of_decide_eq_true hi), if_pos hi, Option.some_or]
      rfl
    | isFalse hi =>
      rw [if_neg (by simpa using hi), if_neg hi, Option.none_or, Option.map_map]
      refine congrArg _ (congrArg (Option.map · _) (funext fun k => ?_))
      exact Nat.add_right_comm pos 1 k

theorem matchOffLoop_scan (B : AhoCorasick) (off pos : Nat) (ret : OffSet) (str : List UInt8) :
    B.matchOffLoop off pos ret str = (B.scan off str).map fun found => ret.insertFound pos found := by
  induction str generalizing off pos ret with
  | nil => rfl
  | cons c str ih =>
    rw [matchOffLoop, scan, Option.map_bind]
    refine Option.bind_congr fun off _ => ?_
    rw [Function.comp_apply]
    cases (B.node off).child c with
    | none =>
      dsimp only
      rw [Option.map_map]
      exact ih off (pos + 1) ret
    | some off =>
      dsimp only
      rw [Option.map_bind]
      refine Option.bind_congr fun ids _ => ?_
      rw [Function.comp_apply, Option.map_map]
      exact ih off (pos + 1) (ret.insertIds ids pos)

theorem mem_insertFound {found : List (List Int)} :
    (i, pos) ∈ (OffSet.insertFound OrdMap.empty 0 found).pairs ↔
      (found.findIdx? fun ids => i ∈ ids) = some pos := by
  rw [mem_pairs, lookup_insertFound, OrdMap.lookup_empty, Option.none_or]
  simp only [Nat.zero_add, Option.map_id']

theorem firstFound_iff {found : List (List Int)} :
    (i, pos) ∈ (OffSet.insertFound OrdMap.empty 0 found).pairs ↔
      ∃ h : pos < found.length, i ∈ found[pos] ∧ ∀ k (hk : k < pos), i ∉ found[k] := by
  rw [mem_insertFound, List.findIdx?_eq_some_iff_getElem]
  simp only [decide_eq_true_eq]

end

theorem getMatchOff_build {A : AhoCorasick} (ht : A.Trie) (text : List UInt8) :
    ∃ B R, A.buildAutomata = some B ∧ B.getMatchOff text = some R ∧
      ∀ i off, (i, off) ∈ R.pairs ↔ off < text.length ∧ A.EndsIn (text.take (off + 1)) i ∧
        ∀ k < off, ¬A.EndsIn (text.take (k + 1)) i := by
  obtain ⟨B, found, hB, hfound, hlen, hids⟩ := scan_build ht text
  refine ⟨B, _, hB, by rw [getMatchOff, matchOffLoop_scan, hfound, Option.map_some],
    fun i off => ?_⟩
  have hends : ∀ k (hk : k < found.length), i ∈ found[k] ↔ A.EndsIn (text.take (k + 1)) i :=
    fun k hk => hids k _ (List.getElem?_eq_getElem hk) i
  rw [firstFound_iff, ← hlen]
  constructor
  · rintro ⟨hlt, hi, hfirst⟩
    exact ⟨hlt, (hends off hlt).mp hi, fun k hk he => hfirst k hk ((hends k _).mpr he)⟩
  · rintro ⟨hlt, hi, hfirst⟩
    exact ⟨hlt, (hends off hlt).mpr hi, fun k hk he => hfirst k hk ((hends k _).mp he)⟩

theorem word_unique {dict : Dict} (hids : (dict.map Prod.snd).Nodup) {w w' : List UInt8} {i : Int}
    (h : (w, i) ∈ dict) (h' : (w', i) ∈ dict) : w = w' :=
  congrArg Prod.fst (List.inj_on_of_nodup_map hids h h' rfl)

/-- The ids of `get_match_off`, from the greatest to the smallest, are those of
`get_match`, each with the last byte of the first occurrence of its word. -/
theorem getMatchOff_first (dict : Dict) (hwords : ∀ e ∈ dict, e.1 ≠ [] ∧ e.2 ≠ None)
    (hids : (dict.map Prod.snd).Nodup) (text : List UInt8) :
    ∃ A S R, (clear.insertAll dict).buildAutomata = some A ∧ A.getMatch text = some S ∧
      A.getMatchOff text = some R ∧ (R.pairs.map Prod.fst).Pairwise (· > ·) ∧
      (∀ i, i ∈ R.pairs.map Prod.fst ↔ i ∈ S) ∧
      ∀ i off, (i, off) ∈ R.pairs →
        ∃ w, (∀ w', (w', i) ∈ dict ↔ w' = w) ∧ FirstEnd w text off := by
  obtain ⟨htrie, -, -⟩ := insertAll_spec trie_clear dict
  obtain ⟨A, found, hA, hfound, hlen, hmem⟩ := scan_build htrie text
  refine ⟨A, found.foldl OrdSet.insertAll OrdSet.empty, OffSet.insertFound OrdMap.empty 0 found, hA,
    by rw [getMatch, matchLoop_scan, hfound, Option.map_some],
    by rw [getMatchOff, matchOffLoop_scan, hfound, Option.map_some], pairwise_pairs _, fun i => ?_,
    fun i off hoff => ?_⟩
  · rw [OrdSet.mem_foldl_insertAll, or_iff_right (OrdSet.not_mem_empty i), List.mem_map]
    constructor
    · rintro ⟨⟨_, off⟩, hoff, rfl⟩
      obtain ⟨hlt, hi, -⟩ := firstFound_iff.mp hoff
      exact ⟨found[off], List.getElem_mem hlt, hi⟩
    · rintro ⟨ids, hin, hi⟩
      cases hf : found.findIdx? fun ids => i ∈ ids with
      | none => exact absurd hi (of_decide_eq_false (List.findIdx?_eq_none_iff.mp hf ids hin))
      | some off => exact ⟨(i, off), mem_insertFound.mpr hf, rfl⟩
  · obtain ⟨hlt, hi, hfirst⟩ := firstFound_iff.mp hoff
    have hends : ∀ k (hk : k < found.length), i ∈ found[k] ↔
        ∃ w, lastId dict w = some i ∧ w <:+ text.take (k + 1) := fun k hk =>
      (hmem k _ (List.getElem?_eq_getElem hk) i).trans (endsIn_insertAll hwords)
    obtain ⟨w, hl, hw⟩ := (hends off hlt).mp hi
    refine ⟨w, fun w' => ⟨fun h => word_unique hids h (lastId_mem hl), ?_⟩, hlen ▸ hlt, hw,
      fun k hk hwk => ?_⟩
    · rintro rfl
      exact lastId_mem hl
    · exact hfirst k hk ((hends k (hk.trans hlt)).mpr ⟨w, hl, hwk⟩)

/-- The dictionary she, he, say, shr, her and the text of the source's test. -/
theorem getMatchOff_first_yasherhs :
    let dict : Dict := [([115, 104, 101], 1), ([104, 101], 2), ([115, 97, 121], 3),
      ([115, 104, 114], 4), ([104, 101, 114], 5)]
    let text : List UInt8 := [121, 97, 115, 104, 101, 114, 104, 115]
    ∃ A S R, (clear.insertAll dict).buildAutomata = some A ∧ A.getMatch text = some S ∧
      A.getMatchOff text = some R ∧ (R.pairs.map Prod.fst).Pairwise (· > ·) ∧
      (∀ i, i ∈ R.pairs.map Prod.fst ↔ i ∈ S) ∧
      ∀ i off, (i, off) ∈ R.pairs →
        ∃ w, (∀ w', (w', i) ∈ dict ↔ w' = w) ∧ FirstEnd w text off :=
  getMatchOff_first _ (by decide) (by decide) _

end TextMining.AhoCorasick
