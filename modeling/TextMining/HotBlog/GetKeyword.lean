import TextMining.Lib.Bytes
import TextMining.Lib.OrdMap
import Mathlib.Analysis.SpecialFunctions.Log.Basic

/-!
# The keywords of a text

`get_keyword` and `fill_vector`. Each round of `fill_vector` takes a word of
greatest weigh among those that are left and not heavier than the last one.
The first round has a fixed ceiling: a word above it is never taken, and when
no word is left below it the loop looks for the empty word. The idf of the
segmenter is a byte, so no word of a text comes near the ceiling.
-/

namespace TextMining.HotBlog

variable {R : Type*}

structure Tf (R : Type*) where
  tf : Nat
  idf : R
  flag : Bool
  yuyi : UInt8

structure Keyword (R : Type*) where
  word : List UInt8
  tf : Nat
  fWeight : R
  yuyi : UInt8

abbrev WordMap (R : Type*) := OrdMap (List UInt8) (Tf R)

-- ---------------------------------------------------------------------------
-- The selection
-- ---------------------------------------------------------------------------

structure Filling (R : Type*) where
  word : WordMap R
  keyseg : List (Keyword R)
  lastmax : R

section
variable [LinearOrder R] [Zero R] (weigh : Nat → R → R)

def initKey : Keyword R := ⟨[], 0, 0, 0⟩

def Tf.weight (t : Tf R) : R := weigh t.tf t.idf

def Tf.keyword (word : List UInt8) (t : Tf R) : Keyword R := ⟨word, t.tf, t.weight weigh, t.yuyi⟩

def heavier (lastmax : R) (actkey : Keyword R) (e : List UInt8 × Tf R) : Keyword R :=
  let fw := e.2.weight weigh
  if fw > actkey.fWeight ∧ fw ≤ lastmax ∧ e.2.flag then e.2.keyword weigh e.1 else actkey

/-- A round; `none` when the end of the map is dereferenced. -/
def Filling.round (s : Filling R) : Option (Filling R) :=
  let actkey := s.word.entries.foldl (heavier weigh s.lastmax) initKey
  match s.word.lookup actkey.word with
  | none => none
  | some t => some
    { word := s.word.insert actkey.word { t with flag := false }
      keyseg := s.keyseg ++ [actkey]
      lastmax := actkey.fWeight }

def Filling.rounds : Nat → Filling R → Option (Filling R)
  | 0, s => some s
  | n + 1, s => (s.round weigh).bind (rounds n)

def fillBelow (ceiling : R) (word : WordMap R) (keynum : Nat) : Option (Filling R) :=
  Filling.rounds weigh (min keynum word.size) ⟨word, [], ceiling⟩

def fillVector {R : Type*} [LinearOrder R] [Field R] (weigh : Nat → R → R) (word : WordMap R)
    (keynum : Nat) : Option (Filling R) :=
  fillBelow weigh 10000 word keynum

structure Candidates where
  word : WordMap R
  flag : ∀ w t, word.lookup w = some t → t.flag = true
  positive : ∀ w t, word.lookup w = some t → 0 < t.weight weigh

structure Heaviest (word : WordMap R) (keynum : Nat) (keyseg : List (Keyword R)) : Prop where
  length : keyseg.length = min keynum word.size
  words : ∀ k ∈ keyseg, ∃ t, word.lookup k.word = some t ∧ k = t.keyword weigh k.word
  distinct : (keyseg.map Keyword.word).Nodup
  descending : keyseg.Pairwise fun k l => l.fWeight ≤ k.fWeight
  omitted : ∀ w t, word.lookup w = some t → w ∉ keyseg.map Keyword.word →
    ∀ k ∈ keyseg, t.weight weigh ≤ k.fWeight

end

-- ---------------------------------------------------------------------------
-- A round
-- ---------------------------------------------------------------------------

section
variable [LinearOrder R] [Zero R] {weigh : Nat → R → R} {ceiling : R}

omit [Zero R] in
theorem foldl_heavier (weigh : Nat → R → R) (lastmax : R) (es : List (List UInt8 × Tf R)) (act : Keyword R) :
    let act' := es.foldl (heavier weigh lastmax) act
    (act' = act ∨ ∃ e ∈ es, e.2.weight weigh ≤ lastmax ∧ e.2.flag = true ∧
        act' = e.2.keyword weigh e.1) ∧
      act.fWeight ≤ act'.fWeight ∧
      ∀ e ∈ es, e.2.weight weigh ≤ lastmax → e.2.flag = true →
        e.2.weight weigh ≤ act'.fWeight := by
  induction es generalizing act with
  | nil => exact ⟨.inl rfl, le_rfl, fun e he => absurd he List.not_mem_nil⟩
  | cons e es ih =>
    rw [List.foldl_cons]
    obtain ⟨hfrom, hle, hmax⟩ := ih (heavier weigh lastmax act e)
    by_cases hnew : e.2.weight weigh > act.fWeight ∧ e.2.weight weigh ≤ lastmax ∧ e.2.flag
    · have hact : heavier weigh lastmax act e = e.2.keyword weigh e.1 := if_pos hnew
      rw [hact] at hfrom hle hmax ⊢
      refine ⟨.inr ?_, hnew.1.le.trans hle, fun e' he' hlast hflag => ?_⟩
      · rcases hfrom with hfrom | ⟨e', he', hrest⟩
        · exact ⟨e, List.mem_cons_self, hnew.2.1, hnew.2.2, hfrom⟩
        · exact ⟨e', List.mem_cons_of_mem e he', hrest⟩
      · cases he' with
        | head => exact hle
        | tail _ he' => exact hmax e' he' hlast hflag
    · have hact : heavier weigh lastmax act e = act := if_neg hnew
      rw [hact] at hfrom hle hmax ⊢
      refine ⟨hfrom.imp_right fun ⟨e', he', hrest⟩ => ⟨e', List.mem_cons_of_mem e he', hrest⟩,
        hle, fun e' he' hlast hflag => ?_⟩
      cases he' with
      | head => exact (not_lt.mp fun hlt => hnew ⟨hlt, hlast, hflag⟩).trans hle
      | tail _ he' => exact hmax e' he' hlast hflag

theorem Filling.round_le {s s' : Filling R} (h : s.round weigh = some s') (hzero : 0 ≤ ceiling)
    (hlast : s.lastmax ≤ ceiling) (hkeys : ∀ k ∈ s.keyseg, k.fWeight ≤ ceiling) :
    s'.lastmax ≤ ceiling ∧ ∀ k ∈ s'.keyseg, k.fWeight ≤ ceiling := by
  obtain ⟨hfrom, -, -⟩ := foldl_heavier weigh s.lastmax s.word.entries initKey
  have hact : (s.word.entries.foldl (heavier weigh s.lastmax) initKey).fWeight ≤ ceiling := by
    rcases hfrom with hinit | ⟨e, -, hle, -, hact⟩
    · rw [hinit]
      exact hzero
    · rw [hact]
      exact hle.trans hlast
  simp only [Filling.round] at h
  split at h
  · cases h
  · cases h
    refine ⟨hact, fun k hk => ?_⟩
    rcases List.mem_append.mp hk with hk | hk
    · exact hkeys k hk
    · obtain rfl := List.mem_singleton.mp hk
      exact hact

theorem Filling.rounds_le {n : Nat} {s s' : Filling R} (h : s.rounds weigh n = some s')
    (hzero : 0 ≤ ceiling) (hlast : s.lastmax ≤ ceiling)
    (hkeys : ∀ k ∈ s.keyseg, k.fWeight ≤ ceiling) : ∀ k ∈ s'.keyseg, k.fWeight ≤ ceiling := by
  induction n generalizing s with
  | zero =>
    cases h
    exact hkeys
  | succ n ih =>
    obtain ⟨s₁, hround, hrest⟩ := Option.bind_eq_some_iff.mp h
    obtain ⟨hlast', hkeys'⟩ := Filling.round_le hround hzero hlast hkeys
    exact ih hrest hlast' hkeys'

-- ---------------------------------------------------------------------------
-- All rounds
-- ---------------------------------------------------------------------------

/-- Between two rounds: the flags tell which words are taken, and what is left
is not heavier than the last of them. -/
structure Filling.Inv (weigh : Nat → R → R) (word : WordMap R) (s : Filling R) : Prop where
  lookup : ∀ w, s.word.lookup w = (word.lookup w).map fun t =>
    { t with flag := decide (w ∉ s.keyseg.map Keyword.word) }
  words : ∀ k ∈ s.keyseg, ∃ t, word.lookup k.word = some t ∧ k = t.keyword weigh k.word
  distinct : (s.keyseg.map Keyword.word).Nodup
  descending : s.keyseg.Pairwise fun k l => l.fWeight ≤ k.fWeight
  last : ∀ k ∈ s.keyseg, s.lastmax ≤ k.fWeight
  left : ∀ w t, word.lookup w = some t → w ∉ s.keyseg.map Keyword.word →
    t.weight weigh ≤ s.lastmax

theorem Filling.Inv.round {c : Candidates weigh} {s : Filling R}
    (h : Filling.Inv weigh c.word s) (hleft : s.keyseg.length < c.word.size) :
    ∃ s', s.round weigh = some s' ∧ Filling.Inv weigh c.word s' ∧
      s'.keyseg.length = s.keyseg.length + 1 := by
  obtain ⟨w, hw, hnew⟩ : ∃ w ∈ c.word.keys, w ∉ s.keyseg.map Keyword.word := by
    by_contra hno
    push Not at hno
    have hsub := (c.word.nodup_keys.subperm hno).length_le
    rw [OrdMap.keys, List.length_map, List.length_map] at hsub
    exact absurd hsub (not_le.mpr hleft)
  obtain ⟨t, ht⟩ := OrdMap.mem_iff.mp hw
  have hentry : ∀ w t, c.word.lookup w = some t → w ∉ s.keyseg.map Keyword.word →
      (w, t) ∈ s.word.entries := by
    intro w t ht hnew
    have hflag := c.flag w t ht
    rw [OrdMap.mem_entries, h.lookup w, ht, Option.map_some, decide_eq_true hnew, ← hflag]
  obtain ⟨hfrom, -, hmax⟩ := foldl_heavier weigh s.lastmax s.word.entries initKey
  have hact := hmax (w, t) (hentry w t ht hnew) (h.left w t ht hnew) (c.flag w t ht)
  -- the entry that the loop has found is one that is left
  rcases hfrom with hinit | ⟨⟨w', t'⟩, he, hle, hflag, hkey⟩
  · rw [hinit] at hact
    exact absurd hact (not_le.mpr (c.positive w t ht))
  rw [OrdMap.mem_entries, h.lookup w'] at he
  obtain ⟨t₀, ht₀, he⟩ := Option.map_eq_some_iff.mp he
  have hnew' : w' ∉ s.keyseg.map Keyword.word := by
    subst he
    exact of_decide_eq_true hflag
  have hsame : t' = t₀ := by
    rw [← he, decide_eq_true hnew', ← c.flag w' t₀ ht₀]
  subst hsame
  have hlookup : s.word.lookup w' = some t' := OrdMap.mem_entries.mp (hentry w' t' ht₀ hnew')
  refine ⟨⟨s.word.insert w' { t' with flag := false }, s.keyseg ++ [t'.keyword weigh w'],
    t'.weight weigh⟩, ?_, ?_, by simp⟩
  · simp only [Filling.round, hkey]
    rw [show (t'.keyword weigh w').word = w' from rfl, hlookup]
    rfl
  · constructor
    · intro v
      rw [OrdMap.lookup_insert]
      split
      · rename_i hv
        subst hv
        simp [ht₀, Tf.keyword]
      · rename_i hv
        rw [h.lookup v]
        simp [Tf.keyword, hv]
    · intro k hk
      rcases List.mem_append.mp hk with hk | hk
      · exact h.words k hk
      · obtain rfl := List.mem_singleton.mp hk
        exact ⟨t', ht₀, rfl⟩
    · rw [List.map_append, List.nodup_append]
      refine ⟨h.distinct, List.nodup_singleton _, fun a ha b hb heq => ?_⟩
      obtain rfl := List.mem_singleton.mp hb
      subst heq
      exact hnew' ha
    · rw [List.pairwise_append]
      refine ⟨h.descending, List.pairwise_singleton _ _, fun k hk l hl => ?_⟩
      obtain rfl := List.mem_singleton.mp hl
      exact hle.trans (h.last k hk)
    · intro k hk
      rcases List.mem_append.mp hk with hk | hk
      · exact hle.trans (h.last k hk)
      · obtain rfl := List.mem_singleton.mp hk
        exact le_rfl
    · intro v u hu hv
      rw [List.map_append, List.mem_append, not_or] at hv
      have hbest := hmax (v, u) (hentry v u hu hv.1) (h.left v u hu hv.1) (c.flag v u hu)
      rwa [hkey] at hbest

theorem Filling.Inv.rounds {c : Candidates weigh} {n : Nat} {s : Filling R}
    (h : Filling.Inv weigh c.word s) (hn : s.keyseg.length + n ≤ c.word.size) :
    ∃ s', s.rounds weigh n = some s' ∧ Filling.Inv weigh c.word s' ∧
      s'.keyseg.length = s.keyseg.length + n := by
  induction n generalizing s with
  | zero => exact ⟨s, rfl, h, rfl⟩
  | succ n ih =>
    obtain ⟨s₁, hround, hinv, hlen⟩ := h.round (by omega)
    obtain ⟨s', hrest, hinv', hlen'⟩ := ih hinv (by omega)
    exact ⟨s', by rw [Filling.rounds, hround, Option.bind_some, hrest], hinv', by omega⟩

theorem Filling.Inv.start (c : Candidates weigh)
    (h : ∀ w t, c.word.lookup w = some t → t.weight weigh ≤ ceiling) :
    Filling.Inv weigh c.word ⟨c.word, [], ceiling⟩ where
  lookup w := by
    cases ht : c.word.lookup w with
    | none => rfl
    | some t =>
      have hflag := c.flag w t ht
      simp [← hflag]
  words k hk := absurd hk List.not_mem_nil
  distinct := List.nodup_nil
  descending := .nil
  last k hk := absurd hk List.not_mem_nil
  left w t ht _ := h w t ht

/-- The heaviest words are taken just when none is above the ceiling. -/
theorem heaviest_iff (hzero : 0 ≤ ceiling) (c : Candidates weigh) (keynum : Nat) :
    (∃ s, fillBelow weigh ceiling c.word keynum = some s ∧
        Heaviest weigh c.word keynum s.keyseg) ↔
      keynum = 0 ∨ ∀ w t, c.word.lookup w = some t → t.weight weigh ≤ ceiling := by
  constructor
  · rintro ⟨s, hfill, hs⟩
    refine or_iff_not_imp_left.mpr fun hnum w t ht => ?_
    have hkeys := Filling.rounds_le hfill hzero le_rfl (fun k hk => absurd hk List.not_mem_nil)
    by_cases hw : w ∈ s.keyseg.map Keyword.word
    · obtain ⟨k, hk, rfl⟩ := List.mem_map.mp hw
      obtain ⟨t', ht', hkey⟩ := hs.words k hk
      cases ht.symm.trans ht'
      have hweight : k.fWeight = t.weight weigh := by rw [hkey]; rfl
      exact hweight ▸ hkeys k hk
    · have hsize : 0 < c.word.size := by
        have hmem := OrdMap.mem_entries.mpr ht
        exact List.length_pos_iff.mpr (List.ne_nil_of_mem hmem)
      have hlen : 0 < s.keyseg.length := by
        rw [hs.length]
        omega
      have hk := List.getElem_mem hlen
      exact (hs.omitted w t ht hw _ hk).trans (hkeys _ hk)
  · rintro (rfl | hle)
    · refine ⟨⟨c.word, [], ceiling⟩, ?_, by simp, ?_, List.nodup_nil, .nil, ?_⟩
      · rw [fillBelow, Nat.zero_min]
        rfl
      · exact fun k hk => absurd hk List.not_mem_nil
      · exact fun w t ht hw k hk => absurd hk List.not_mem_nil
    · obtain ⟨s, hfill, hinv, hlen⟩ := (Filling.Inv.start c hle).rounds
        (n := min keynum c.word.size) (by simp)
      refine ⟨s, hfill, ?_, hinv.words, hinv.distinct, hinv.descending, ?_⟩
      · rw [hlen, List.length_nil, Nat.zero_add]
      · exact fun w t ht hw k hk => (hinv.left w t ht hw).trans (hinv.last k hk)

end

-- ---------------------------------------------------------------------------
-- The words of a text
-- ---------------------------------------------------------------------------

structure WordItem where
  word : List UInt8
  wordLen : UInt8
  postagid : UInt8
  idf : UInt8
  semanticid : List UInt16

/-- The words of a text. Their number is an `int`. -/
abbrev WordSegment := { wordlist : List WordItem // wordlist.length < 2 ^ 31 }

def isalpha (b : UInt8) : Bool := 65 ≤ b && b ≤ 90 || 97 ≤ b && b ≤ 122

def WordItem.idfOr (item : WordItem) : UInt8 := if item.idf = 0 then 120 else item.idf

def WordItem.Skipped (item : WordItem) : Prop :=
  let postid := item.postagid
  let elen := item.word.countP isalpha
  item.wordLen < 2 ∨
  (postid = 108 ∨ 104 ≤ postid ∧ postid ≤ 132 ∨ 190 ≤ postid ∧ postid ≤ 202) ∨
  (postid = 0 ∨ postid = 230 ∨ item.word.head? = some 9 ∨ 172 ≤ postid ∧ postid ≤ 176) ∨
  (140 ≤ postid ∧ postid ≤ 160 ∨ 30 ≤ postid ∧ postid < 90) ∨
  (postid < 95 ∨ postid > 103) ∧ item.idfOr < 50 ∨
  (postid = 10 ∨ postid = 20) ∧ item.idfOr < 100 ∨
  2 * elen > item.word.length ∧ item.idfOr < 121

instance instDecidableSkipped (item : WordItem) : Decidable item.Skipped := by
  unfold WordItem.Skipped
  infer_instance

section
variable [Field R]

def addWord (word : WordMap R) (item : WordItem) : WordMap R :=
  if item.Skipped then word
  else
    let temp := cstr item.word
    match word.lookup temp with
    | none => word.insert temp
      { tf := 1
        idf := (item.idfOr.toNat : R) * 1 / (10 : Nat)
        flag := true
        yuyi := ((item.semanticid.head?.map UInt16.toUInt8).getD 0) }
    | some t => word.insert temp { t with tf := t.tf + 1 }

def wordsOf (wordlist : List WordItem) : WordMap R := wordlist.foldl addWord .empty

def getKeyword [LinearOrder R] (weigh : Nat → R → R) (wordseg : WordSegment) (keynum : Nat) :
    Option (Filling R) :=
  fillVector weigh (wordsOf wordseg.1) keynum

structure Tf.FromText (n : Nat) (t : Tf R) : Prop where
  flag : t.flag = true
  tf : 1 ≤ t.tf ∧ t.tf ≤ n
  idf : ∃ b : UInt8, b ≠ 0 ∧ t.idf = (b.toNat : R) * 1 / (10 : Nat)

theorem addWord_fromText {n : Nat} {word : WordMap R} (item : WordItem)
    (h : ∀ w t, word.lookup w = some t → Tf.FromText n t) {w : List UInt8} {t : Tf R}
    (ht : (addWord word item).lookup w = some t) : Tf.FromText (n + 1) t := by
  have hmono : ∀ w t, word.lookup w = some t → Tf.FromText (n + 1) t := fun w t ht =>
    have hold := h w t ht
    ⟨hold.flag, ⟨hold.tf.1, Nat.le_succ_of_le hold.tf.2⟩, hold.idf⟩
  rw [addWord] at ht
  split at ht
  · exact hmono w t ht
  · simp only at ht
    split at ht
    · rw [OrdMap.lookup_insert] at ht
      split at ht
      · cases ht
        refine ⟨rfl, ⟨le_rfl, Nat.le_add_left 1 n⟩, item.idfOr, ?_, rfl⟩
        unfold WordItem.idfOr
        split
        · decide
        · assumption
      · exact hmono w t ht
    · rename_i t' ht'
      rw [OrdMap.lookup_insert] at ht
      split at ht
      · cases ht
        have hold := h _ t' ht'
        exact ⟨hold.flag, ⟨Nat.le_add_left 1 _, Nat.succ_le_succ hold.tf.2⟩, hold.idf⟩
      · exact hmono w t ht

theorem wordsOf_fromText (wordlist : List WordItem) {w : List UInt8} {t : Tf R}
    (ht : (wordsOf wordlist).lookup w = some t) : Tf.FromText wordlist.length t := by
  suffices h : ∀ (items : List WordItem) (n : Nat) (word : WordMap R),
      (∀ w t, word.lookup w = some t → Tf.FromText n t) →
      ∀ w t, (items.foldl addWord word).lookup w = some t → Tf.FromText (n + items.length) t by
    have hall := h wordlist 0 .empty (fun w t ht => by cases ht) w t ht
    rwa [Nat.zero_add] at hall
  intro items
  induction items with
  | nil => exact fun n word h => h
  | cons item items ih =>
    intro n word h w t ht
    have hrest := ih (n + 1) (addWord word item) (fun w t => addWord_fromText item h) w t ht
    rwa [Nat.add_right_comm, Nat.add_assoc] at hrest

end

-- ---------------------------------------------------------------------------
-- Real weights
-- ---------------------------------------------------------------------------

/-- `log(1.0 * (tf + 1)) * idf`. -/
noncomputable def logWeight (tf : Nat) (idf : ℝ) : ℝ := Real.log (tf + 1) * idf

/-- The weights of a text are positive and below the ceiling. -/
theorem logWeight_of_fromText {n : Nat} {t : Tf ℝ} (h : Tf.FromText n t) (hn : n < 2 ^ 31) :
    0 < t.weight logWeight ∧ t.weight logWeight ≤ 10000 := by
  obtain ⟨b, hb, hidf⟩ := h.idf
  have hpos : (1 : ℝ) ≤ b.toNat := by
    exact_mod_cast Nat.one_le_iff_ne_zero.mpr fun he => hb (UInt8.toNat_inj.mp he)
  have hle : (b.toNat : ℝ) ≤ 255 := by
    exact_mod_cast Nat.le_of_lt_succ b.toNat_lt
  have htf : (1 : ℝ) ≤ t.tf := by exact_mod_cast h.tf.1
  have hnum : t.tf + 1 ≤ 2 ^ 31 := Nat.succ_le_of_lt (h.tf.2.trans_lt hn)
  have htf' : (t.tf : ℝ) + 1 ≤ 2 ^ 31 := by exact_mod_cast hnum
  have hlog : 0 < Real.log (t.tf + 1) := Real.log_pos (by linarith)
  have hlog' : Real.log (t.tf + 1) ≤ 31 := by
    have htwo : Real.log 2 ≤ 1 := by linarith [Real.log_le_sub_one_of_pos (zero_lt_two' ℝ)]
    calc Real.log (t.tf + 1) ≤ Real.log (2 ^ 31) := Real.log_le_log (by linarith) htf'
      _ = 31 * Real.log 2 := by rw [Real.log_pow]; norm_num
      _ ≤ 31 := by linarith
  rw [Tf.weight, logWeight, hidf]
  constructor
  · exact mul_pos hlog (by linarith)
  · nlinarith

/-- Every text yields its heaviest words. -/
theorem getKeyword_heaviest (wordseg : WordSegment) (keynum : Nat) :
    ∃ s, getKeyword logWeight wordseg keynum = some s ∧
      Heaviest logWeight (wordsOf wordseg.1) keynum s.keyseg := by
  have hweight := fun w t ht => logWeight_of_fromText (wordsOf_fromText (w := w) (t := t)
    wordseg.1 ht) wordseg.2
  let c : Candidates logWeight :=
    ⟨wordsOf wordseg.1, fun w t ht => (wordsOf_fromText wordseg.1 ht).flag,
      fun w t ht => (hweight w t ht).1⟩
  exact (heaviest_iff (by norm_num) c keynum).mpr (.inr fun w t ht => (hweight w t ht).2)

/-- The words of a map are selected just when none is heavier than the ceiling,
or none is asked for. -/
theorem fillVector_heaviest_iff (c : Candidates logWeight) (keynum : Nat) :
    (∃ s, fillVector logWeight c.word keynum = some s ∧
        Heaviest logWeight c.word keynum s.keyseg) ↔
      keynum = 0 ∨ ∀ w t, c.word.lookup w = some t → Real.log (t.tf + 1) * t.idf ≤ 10000 :=
  heaviest_iff (by norm_num) c keynum

/-- The only word of the map is too heavy to be found. -/
theorem not_heaviest_ceiling :
    let word : WordMap ℝ := OrdMap.empty.insert (text "a") ⟨1, 30000, true, 0⟩
    (∀ w t, word.lookup w = some t → t.flag = true ∧ 0 < t.weight logWeight) ∧
      ¬∃ s, fillVector logWeight word 1 = some s ∧ Heaviest logWeight word 1 s.keyseg := by
  intro word
  have hlog : (1 : ℝ) / 2 ≤ Real.log 2 := by
    have h := Real.one_sub_inv_le_log_of_pos (zero_lt_two' ℝ)
    norm_num at h
    exact h
  have hweight : (⟨1, 30000, true, 0⟩ : Tf ℝ).weight logWeight = Real.log 2 * 30000 := by
    rw [Tf.weight, logWeight]
    norm_num
  constructor
  · intro w t ht
    rw [OrdMap.lookup_insert] at ht
    split at ht
    · cases ht
      exact ⟨rfl, by rw [hweight]; linarith⟩
    · cases ht
  · rintro ⟨s, hfill, -⟩
    have hloop : word.entries.foldl (heavier logWeight 10000) initKey = initKey := by
      refine if_neg fun h => absurd h.2.1 (not_le.mpr ?_)
      rw [hweight]
      linarith
    have hround : Filling.round logWeight ⟨word, [], 10000⟩ = none := by
      simp only [Filling.round, hloop]
      rfl
    have hnone : fillVector logWeight word 1 = none := by
      rw [fillVector, fillBelow, show min 1 word.size = 1 from rfl, Filling.rounds, hround]
      rfl
    rw [hnone] at hfill
    cases hfill

end TextMining.HotBlog
