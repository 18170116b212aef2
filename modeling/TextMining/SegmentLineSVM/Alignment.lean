import TextMining.SegmentLineSVM.Model
import Mathlib.Data.Finset.Card
import Mathlib.Data.List.Infix

/-!
# Alignment of the training files

A line without words is skipped by all files but one: when the segmenter fails,
its label is written to `output` alone.
-/

namespace TextMining.SegmentLineSVM

open Provenance (collect record mem_collect collect_concat origins)
open Registry (Names)

-- ---------------------------------------------------------------------------
-- Words of a line
-- ---------------------------------------------------------------------------

def Line.kept (cfg : Config) (l : Line) : List (List UInt8) :=
  match l.label cfg [] with
  | none => []
  | some _ => (l.segOut.take l.wordCount.toNat).filter cfg.keeps

def countWord (m : OrdMap (List UInt8) Int32) (word : List UInt8) : OrdMap (List UInt8) Int32 :=
  if word ∈ m then m.modify word (· + 1) else m.insert word 1

def wordCounts (words : List (List UInt8)) : OrdMap (List UInt8) Int32 :=
  words.foldl countWord .empty

section
variable {m : OrdMap (List UInt8) Int32} {words keys : List (List UInt8)} {w : List UInt8}

theorem lookup_countWord (m : OrdMap (List UInt8) Int32) (word w : List UInt8) :
    (countWord m word).lookup w =
      if w = word then some ((m.lookup w).getD 0 + 1) else m.lookup w := by
  rw [countWord]
  split
  · rename_i hm
    rw [OrdMap.lookup_modify]
    split
    · rename_i hw
      obtain ⟨c, hc⟩ := OrdMap.mem_iff.mp hm
      rw [hw, hc]
      rfl
    · rfl
  · rename_i hm
    rw [OrdMap.lookup_insert]
    split
    · rename_i hw
      rw [hw, OrdMap.lookup_eq_none.mpr hm]
      rfl
    · rfl

theorem lookup_foldl_countWord (words : List (List UInt8)) (m : OrdMap (List UInt8) Int32)
    (w : List UInt8) : (words.foldl countWord m).lookup w =
      if w ∈ words then some ((m.lookup w).getD 0 + Int32.ofNat (words.count w))
      else m.lookup w := by
  induction words generalizing m with
  | nil => rfl
  | cons x words ih =>
    rw [List.foldl_cons, ih, lookup_countWord]
    by_cases hx : w = x
    · subst hx
      rw [if_pos rfl, if_pos List.mem_cons_self, List.count_cons_self, Option.getD_some,
        Int32.ofNat_add, Int32.add_comm (Int32.ofNat _), ← Int32.add_assoc]
      split
      · rfl
      · rename_i hin
        rw [List.count_eq_zero_of_not_mem hin]
        exact congrArg some (Int32.add_zero _).symm
    · rw [if_neg hx, List.count_cons_of_ne (Ne.symm hx)]
      simp only [List.mem_cons, hx, false_or]

theorem lookup_wordCounts : (wordCounts words).lookup w =
    if w ∈ words then some (Int32.ofNat (words.count w)) else none := by
  rw [wordCounts, lookup_foldl_countWord, OrdMap.lookup_empty, Option.getD_none, Int32.zero_add]

structure Seen (v : WordVars) (keys : List (List UInt8)) : Prop where
  names : Names v.globalWordId keys
  wordNum : v.wordNum = keys.length

theorem Seen.addWord {v : WordVars} (h : Seen v keys) (word : List UInt8) :
    ∃ keys', keys <+: keys' ∧ Seen (v.addWord word) keys' ∧
      (∀ w, w ∈ keys' ↔ w ∈ keys ∨ w = word) ∧
      (v.addWord word).wordInLine = countWord v.wordInLine word := by
  have hcount : (v.addWord word).wordInLine = countWord v.wordInLine word ∧
      (v.addWord word).globalWordId =
        (if word ∈ v.globalWordId then v.globalWordId else v.globalWordId.insert word v.wordNum) ∧
      (v.addWord word).wordNum =
        if word ∈ v.globalWordId then v.wordNum else v.wordNum + 1 := by
    rw [WordVars.addWord, countWord]
    by_cases hid : word ∈ v.globalWordId
    · simp only [hid, if_true]
      split
      · exact ⟨rfl, rfl, rfl⟩
      · exact ⟨rfl, rfl, rfl⟩
    · simp only [hid, if_false]
      split
      · exact ⟨rfl, rfl, rfl⟩
      · exact ⟨rfl, rfl, rfl⟩
  obtain ⟨hline, hids, hnum⟩ := hcount
  by_cases hid : word ∈ v.globalWordId
  · rw [if_pos hid] at hids hnum
    refine ⟨keys, List.prefix_refl keys, ⟨hids ▸ h.names, hnum.trans h.wordNum⟩, fun w => ?_, hline⟩
    refine (or_iff_left_of_imp ?_).symm
    rintro rfl
    exact h.names.mem.mp hid
  · rw [if_neg hid] at hids hnum
    refine ⟨keys ++ [word], List.prefix_append keys _, ⟨?_, ?_⟩, fun w => ?_, hline⟩
    · rw [hids, h.wordNum]
      exact h.names.push hid
    · rw [hnum, h.wordNum, List.length_append, List.length_singleton]
    · rw [List.mem_append, List.mem_singleton]

theorem Seen.addWords {v : WordVars} (h : Seen v keys) (words : List (List UInt8)) :
    ∃ keys', keys <+: keys' ∧ Seen (words.foldl WordVars.addWord v) keys' ∧
      (∀ w, w ∈ keys' ↔ w ∈ keys ∨ w ∈ words) ∧
      (words.foldl WordVars.addWord v).wordInLine = words.foldl countWord v.wordInLine := by
  induction words generalizing v keys with
  | nil => exact ⟨keys, List.prefix_refl keys, h, fun w => by simp, rfl⟩
  | cons word words ih =>
    obtain ⟨next, hnext, hseen, hmem, hline⟩ := h.addWord word
    obtain ⟨keys', hkeys, hseen', hmem', hline'⟩ := ih hseen
    refine ⟨keys', hnext.trans hkeys, hseen', fun w => ?_, ?_⟩
    · rw [hmem', hmem, List.mem_cons, or_assoc]
    · rw [List.foldl_cons, hline', hline, List.foldl_cons]

theorem lookup_of_prefix {g g' : HashMap (List UInt8) Nat} {keys' : List (List UInt8)}
    (h : Names g keys) (h' : Names g' keys') (hp : keys <+: keys') (hw : w ∈ keys) :
    g'.lookup w = g.lookup w := by
  obtain ⟨i, hi⟩ := List.mem_iff_getElem?.mp hw
  obtain ⟨rest, rfl⟩ := hp
  obtain ⟨hlt, -⟩ := List.getElem?_eq_some_iff.mp hi
  have hi' : (keys ++ rest)[i]? = some w := (List.getElem?_append_left hlt).trans hi
  rw [(h w i).mpr hi, (h' w i).mpr hi']

end

-- ---------------------------------------------------------------------------
-- Records of a line
-- ---------------------------------------------------------------------------

def outputOf (cfg : Config) (l : Line) : Option (List UInt8) :=
  (l.label cfg []).bind fun lineLabel =>
    if l.wordCount ≤ 0 then some (lineLabel ++ [10])
    else if l.kept cfg = [] then none
    else some (outputText lineLabel (wordCounts (l.kept cfg)))

def newWordOf (cfg : Config) (l : Line) : Option (List (List UInt8 × Int32)) :=
  if l.kept cfg = [] then none else some l.newWord

def hashOf (cfg : Config) (globalWordId : HashMap (List UInt8) Nat) (l : Line) :
    Option (List (Int32 × Int32)) :=
  if l.kept cfg = [] then none else some (hashEntries globalWordId (wordCounts (l.kept cfg)))

def seenWords (cfg : Config) (lines : List Line) : Finset (List UInt8) :=
  (lines.flatMap (Line.kept cfg)).toFinset

structure Written (cfg : Config) (lines : List Line) (s : State) (keys : List (List UInt8)) :
    Prop where
  names : Names s.globalWordId keys
  wordNum : s.wordNum = keys.length
  mem : ∀ w, w ∈ keys ↔ w ∈ seenWords cfg lines
  label : cfg.dataFormatSplit = false → s.lineLabel = []
  output : s.output = collect (outputOf cfg) lines
  outputHash : s.outputHash = collect (hashOf cfg s.globalWordId) lines
  labelOutput : s.labelOutput.map Prod.fst = (collect (newWordOf cfg) lines).map Prod.fst
  newWordOutput : s.newWordOutput = collect (newWordOf cfg) lines
  bound : ∀ k l, lines[k]? = some l → ∀ w ∈ l.kept cfg, ∀ i, keys[i]? = some w →
    i < (seenWords cfg (lines.take (k + 1))).card

section
variable {cfg : Config} {lines : List Line} {s : State} {keys : List (List UInt8)}

theorem written_init (cfg : Config) : Written cfg [] State.init [] where
  names := Registry.names_empty
  wordNum := rfl
  mem w := by simp [seenWords]
  label _ := rfl
  output := rfl
  outputHash := rfl
  labelOutput := rfl
  newWordOutput := rfl
  bound k l hl := by cases hl

theorem mem_seenWords {w : List UInt8} :
    w ∈ seenWords cfg lines ↔ ∃ l ∈ lines, w ∈ l.kept cfg := by
  rw [seenWords, List.mem_toFinset, List.mem_flatMap]

theorem seenWords_concat (l : Line) {w : List UInt8} :
    w ∈ seenWords cfg (lines ++ [l]) ↔ w ∈ seenWords cfg lines ∨ w ∈ l.kept cfg := by
  simp only [mem_seenWords, List.mem_append, List.mem_singleton, or_and_right, exists_or,
    exists_eq_left]

theorem Written.card (h : Written cfg lines s keys) : (seenWords cfg lines).card = keys.length := by
  have hset : seenWords cfg lines = keys.toFinset := by
    ext w
    rw [← h.mem, List.mem_toFinset]
  rw [hset, List.toFinset_card_of_nodup h.names.nodup]

theorem hashEntries_congr {g g' : HashMap (List UInt8) Nat} {m : OrdMap (List UInt8) Int32}
    (h : ∀ w ∈ m, g'.lookup w = g.lookup w) : hashEntries g' m = hashEntries g m := by
  have hword : ∀ e ∈ m.entries, wordHash g' e.1 = wordHash g e.1 := fun e he => by
    rw [wordHash, h e.1 (OrdMap.mem_def.mpr (List.mem_map_of_mem he)), wordHash]
  have hmap : (m.entries.map fun e => wordHash g' e.1) = m.entries.map fun e => wordHash g e.1 :=
    List.map_congr_left hword
  have hfold : (m.entries.foldl (fun n e => n.insert (wordHash g' e.1) e.2) .empty :
      OrdMap Int32 Int32) = m.entries.foldl (fun n e => n.insert (wordHash g e.1) e.2) .empty :=
    List.foldl_ext _ _ _ fun n e he => by rw [hword e he]
  simp only [hashEntries, hmap, hfold]

theorem mem_wordCounts {words : List (List UInt8)} {w : List UInt8} :
    w ∈ wordCounts words ↔ w ∈ words := by
  rw [OrdMap.mem_iff, lookup_wordCounts]
  split
  · rename_i hw
    exact iff_of_true ⟨_, rfl⟩ hw
  · rename_i hw
    exact iff_of_false (fun ⟨_, hc⟩ => nomatch hc) hw

theorem Written.hash_congr (h : Written cfg lines s keys) {g : HashMap (List UInt8) Nat}
    {keys' : List (List UInt8)} (hg : Names g keys') (hp : keys <+: keys') :
    collect (hashOf cfg g) lines = collect (hashOf cfg s.globalWordId) lines := by
  refine List.filterMap_congr fun e he => congrArg (Option.map _) ?_
  rw [hashOf, hashOf]
  split
  · rfl
  · refine congrArg some (hashEntries_congr fun w hw => ?_)
    refine lookup_of_prefix h.names hg hp ((h.mem w).mpr (mem_seenWords.mpr ⟨e.1, ?_, ?_⟩))
    · exact List.mem_of_getElem? (List.mem_zipIdx_iff_getElem?.mp he)
    · exact mem_wordCounts.mp hw

theorem Written.concat (h : Written cfg lines s keys) {l : Line} {s' : State}
    {keys' : List (List UInt8)} (hp : keys <+: keys')
    (hseen : Seen ⟨s'.globalWordId, s'.wordNum, .empty⟩ keys')
    (hmem : ∀ w, w ∈ keys' ↔ w ∈ keys ∨ w ∈ l.kept cfg)
    (hlabel : cfg.dataFormatSplit = false → s'.lineLabel = [])
    (houtput : s'.output = s.output ++ record lines.length (outputOf cfg l))
    (hhash : s'.outputHash = s.outputHash ++
      record lines.length (hashOf cfg s'.globalWordId l))
    (hlabels : s'.labelOutput.map Prod.fst = s.labelOutput.map Prod.fst ++
      (record lines.length (newWordOf cfg l)).map Prod.fst)
    (hwords : s'.newWordOutput = s.newWordOutput ++ record lines.length (newWordOf cfg l)) :
    Written cfg (lines ++ [l]) s' keys' := by
  have hmem' : ∀ w, w ∈ keys' ↔ w ∈ seenWords cfg (lines ++ [l]) := fun w => by
    rw [hmem, h.mem, seenWords_concat]
  refine ⟨hseen.names, hseen.wordNum, hmem', hlabel, ?_, ?_, ?_, ?_, ?_⟩
  · rw [houtput, h.output, collect_concat]
  · rw [hhash, h.outputHash, collect_concat, h.hash_congr hseen.names hp]
  · rw [hlabels, h.labelOutput, collect_concat, List.map_append]
  · rw [hwords, h.newWordOutput, collect_concat]
  · intro k x hx w hw i hi
    rcases Nat.lt_or_ge k lines.length with hlt | hge
    · rw [List.getElem?_append_left hlt] at hx
      rw [List.take_append_of_le_length hlt]
      refine h.bound k x hx w hw i ?_
      -- an old word is found where it was
      have hin : w ∈ keys := (h.mem w).mpr (mem_seenWords.mpr ⟨x, List.mem_of_getElem? hx, hw⟩)
      rw [← h.names w i, ← lookup_of_prefix h.names hseen.names hp hin, hseen.names]
      exact hi
    · have hall : (lines ++ [l]).take (k + 1) = lines ++ [l] :=
        List.take_of_length_le (by rw [List.length_append]; exact Nat.succ_le_succ hge)
      have hcard : (seenWords cfg (lines ++ [l])).card = keys'.length := by
        have hset : seenWords cfg (lines ++ [l]) = keys'.toFinset := by
          ext w
          rw [← hmem', List.mem_toFinset]
        rw [hset, List.toFinset_card_of_nodup hseen.names.nodup]
      rw [hall, hcard]
      exact (List.getElem?_eq_some_iff.mp hi).1

theorem Written.concat_of_nil (h : Written cfg lines s keys) {l : Line} (hnil : l.kept cfg = [])
    {s' : State} {keys' : List (List UInt8)} (hp : keys <+: keys')
    (hseen : Seen ⟨s'.globalWordId, s'.wordNum, .empty⟩ keys')
    (hmem : ∀ w, w ∈ keys' ↔ w ∈ keys ∨ w ∈ l.kept cfg)
    (hlabel : cfg.dataFormatSplit = false → s'.lineLabel = [])
    (houtput : s'.output = s.output ++ record lines.length (outputOf cfg l))
    (hhash : s'.outputHash = s.outputHash) (hlabels : s'.labelOutput = s.labelOutput)
    (hwords : s'.newWordOutput = s.newWordOutput) : Written cfg (lines ++ [l]) s' keys' := by
  refine h.concat hp hseen hmem hlabel houtput ?_ ?_ ?_
  · rw [hashOf, if_pos hnil, hhash]
    exact (List.append_nil _).symm
  · rw [newWordOf, if_pos hnil, hlabels]
    exact (List.append_nil _).symm
  · rw [newWordOf, if_pos hnil, hwords]
    exact (List.append_nil _).symm

theorem label_eq (h : cfg.dataFormatSplit = false → s.lineLabel = []) (l : Line) :
    l.label cfg s.lineLabel = l.label cfg [] := by
  rw [Line.label, Line.label]
  split
  · rfl
  · rename_i hsplit
    rw [h (Bool.eq_false_iff.mpr hsplit)]

theorem label_of_not_split (h : cfg.dataFormatSplit = false) {l : Line} {lab : List UInt8}
    (hl : l.label cfg [] = some lab) : lab = [] := by
  rw [Line.label, h, if_neg Bool.false_ne_true] at hl
  exact (Option.some.inj hl).symm

theorem Written.step (h : Written cfg lines s keys) (l : Line) :
    ∃ keys', Written cfg (lines ++ [l]) (s.step cfg lines.length l) keys' := by
  have hseen : Seen ⟨s.globalWordId, s.wordNum, .empty⟩ keys := ⟨h.names, h.wordNum⟩
  rw [State.step, label_eq h.label]
  cases hlab : l.label cfg [] with
  | none =>
    have hnil : l.kept cfg = [] := by rw [Line.kept, hlab]
    refine ⟨keys, h.concat_of_nil hnil (List.prefix_refl keys) hseen (fun w => ?_) h.label ?_ rfl rfl
      rfl⟩
    · rw [hnil, or_iff_left List.not_mem_nil]
    · rw [outputOf, hlab]
      exact (List.append_nil _).symm
  | some lab =>
    have hkept : l.kept cfg = (l.segOut.take l.wordCount.toNat).filter cfg.keeps := by
      rw [Line.kept, hlab]
    have hlabel : cfg.dataFormatSplit = false → lab = [] := fun hs => label_of_not_split hs hlab
    dsimp only
    by_cases hcount : l.wordCount ≤ 0
    · have hnil : l.kept cfg = [] := by
        rw [hkept, Int.toNat_of_nonpos hcount]
        rfl
      rw [if_pos hcount]
      refine ⟨keys, h.concat_of_nil hnil (List.prefix_refl keys) hseen (fun w => ?_) hlabel ?_ rfl rfl
        rfl⟩
      · rw [hnil, or_iff_left List.not_mem_nil]
      · rw [outputOf, hlab, Option.bind_some, if_pos hcount]
        rfl
    · rw [if_neg hcount, ← hkept]
      obtain ⟨keys', hp, hseen', hmem, hline⟩ := hseen.addWords (l.kept cfg)
      have hcounts : ((l.kept cfg).foldl WordVars.addWord
          ⟨s.globalWordId, s.wordNum, .empty⟩).wordInLine = wordCounts (l.kept cfg) := hline
      have hseen'' : Seen ⟨((l.kept cfg).foldl WordVars.addWord
          ⟨s.globalWordId, s.wordNum, .empty⟩).globalWordId, ((l.kept cfg).foldl WordVars.addWord
          ⟨s.globalWordId, s.wordNum, .empty⟩).wordNum, .empty⟩ keys' :=
        ⟨hseen'.names, hseen'.wordNum⟩
      by_cases hnil : l.kept cfg = []
      · rw [if_pos hnil]
        refine ⟨keys', h.concat_of_nil hnil hp hseen'' hmem hlabel ?_ rfl rfl rfl⟩
        rw [outputOf, hlab, Option.bind_some, if_neg hcount, if_pos hnil]
        exact (List.append_nil _).symm
      · rw [if_neg hnil, State.writeWords, hcounts]
        dsimp only
        refine ⟨keys', h.concat hp ?_ hmem ?_ ?_ ?_ ?_ ?_⟩
        · split
          · exact hseen''
          · exact hseen''
        · split
          · exact hlabel
          · exact hlabel
        · rw [outputOf, hlab, Option.bind_some, if_neg hcount, if_neg hnil]
          split
          · rfl
          · rfl
        · rw [hashOf, if_neg hnil]
          split
          · rfl
          · rfl
        · rw [newWordOf, if_neg hnil, List.map_append]
          split
          · rfl
          · rfl
        · rw [newWordOf, if_neg hnil]
          split
          · rfl
          · rfl

theorem written_run (cfg : Config) (lines : List Line) :
    ∃ keys, Written cfg lines (run cfg lines) keys := by
  induction lines using List.reverseRecOn with
  | nil => exact ⟨[], written_init cfg⟩
  | append_singleton lines l ih =>
    obtain ⟨keys, h⟩ := ih
    rw [run, List.zipIdx_append, List.foldl_append, ← run, List.zipIdx_singleton, Nat.zero_add]
    exact h.step l

end

-- ---------------------------------------------------------------------------
-- Lines of the files
-- ---------------------------------------------------------------------------

def texts {β : Type} (render : β → List UInt8) (file : List (Nat × β)) : List (Nat × List UInt8) :=
  file.map fun r => (r.1, render r.2)

/-- The files have a line for the same inputs, in the same order, and the ids
of a line are those of its words. -/
structure Aligned (cfg : Config) (ord : IterOrder (List UInt8) Nat) (lines : List Line)
    (s : State) : Prop where
  hash : origins 10 s.output = origins 10 (texts hashText s.outputHash)
  label : origins 10 (texts labelText s.labelOutput) = origins 10 (texts hashText s.outputHash)
  newWord : origins 10 (texts newWordText s.newWordOutput) =
    origins 10 (texts hashText s.outputHash)
  ids : ∀ k entries, (k, entries) ∈ s.outputHash → ∃ l, lines[k]? = some l ∧
    (entries.map Prod.fst).Pairwise (· < ·) ∧
    (∀ e ∈ entries, e.1.toInt < (seenWords cfg (lines.take (k + 1))).card) ∧
    ∀ id count, (id, count) ∈ entries ↔ ∃ w ∈ l.kept cfg, ∃ n : Nat,
      ⟨w, n⟩ ∈ s.worddict ord ∧ id.toInt = n ∧ count = Int32.ofNat ((l.kept cfg).count w)

/-- The segmenter fails on no line, no word has a line break, and the word ids
are values of an `int`. -/
structure Regular (cfg : Config) (lines : List Line) : Prop where
  succeeds : ∀ l ∈ lines, l.label cfg [] ≠ none → 0 < l.wordCount
  words : ∀ l ∈ lines, ∀ w ∈ l.kept cfg, 10 ∉ w
  newWords : ∀ l ∈ lines, l.kept cfg ≠ [] → ∀ e ∈ l.newWord, 10 ∉ e.1
  ids : (seenWords cfg lines).card ≤ 2 ^ 31

section
variable {key : List UInt8} {lab : List UInt8}

theorem lineBreak_decimalInt (n : Int) : 10 ∉ decimalInt n := by
  have hdigits : ∀ n, 10 ∉ decimal n := fun n hin => by
    have hd := isDigit_decimal n 10 hin
    exact absurd hd (by decide)
  rw [decimalInt]
  split
  · rw [List.mem_cons, not_or]
    exact ⟨by decide, hdigits _⟩
  · exact hdigits _

theorem mem_pairText {count : Int32} : 10 ∈ pairText key count ↔ 10 ∈ key := by
  have hcolon : (10 : UInt8) ∉ text ":" := by decide
  have hspace : (10 : UInt8) ∉ text " " := by decide
  rw [pairText, List.mem_append, List.mem_append, List.mem_append, or_iff_left hspace,
    or_iff_left (lineBreak_decimalInt _), or_iff_left hcolon]

theorem count_hashText (entries : List (Int32 × Int32)) : (hashText entries).count 10 = 1 := by
  rw [hashText, Provenance.count_line_eq_one, List.mem_flatMap]
  rintro ⟨e, -, he⟩
  exact lineBreak_decimalInt _ (mem_pairText.mp he)

theorem count_labelText (id : Nat) : (labelText id).count 10 = 1 := by
  rw [labelText, Provenance.count_line_eq_one]
  intro hin
  exact absurd (isDigit_decimal id 10 hin) (by decide)

theorem count_newWordText {words : List (List UInt8 × Int32)} :
    (newWordText words).count 10 = 1 ↔ ∀ e ∈ words, 10 ∉ e.1 := by
  rw [newWordText, Provenance.count_line_eq_one, List.mem_flatMap]
  simp only [mem_pairText, not_exists, not_and]

theorem count_outputText {words : List (List UInt8)} (hlab : 10 ∉ lab) :
    (outputText lab (wordCounts words)).count 10 = 1 ↔ ∀ w ∈ words, 10 ∉ w := by
  have htab : (10 : UInt8) ∉ text "\t" := by decide
  rw [outputText, Provenance.count_line_eq_one, List.mem_append, List.mem_append,
    or_iff_right (not_or.mpr ⟨hlab, htab⟩), List.mem_flatMap]
  simp only [mem_pairText, not_exists, not_and]
  constructor
  · intro h w hw
    obtain ⟨c, hc⟩ := OrdMap.mem_iff.mp (mem_wordCounts.mpr hw)
    exact h (w, c) (OrdMap.mem_entries.mpr hc)
  · intro h e he
    exact h e.1 (mem_wordCounts.mp (OrdMap.mem_def.mpr (List.mem_map_of_mem he)))

theorem lineBreak_label {cfg : Config} {l : Line} (h : l.label cfg [] = some lab) : 10 ∉ lab := by
  rw [Line.label] at h
  split at h
  · split at h
    · rename_i f f₁ f₂ f₃ f₄ hsplit
      cases h
      intro hin
      have hline := congrArg (List.intercalate [9]) hsplit
      rw [List.intercalate_splitOn, List.intercalate_cons_cons, List.append_assoc] at hline
      refine l.lineBreak ?_
      rw [hline, List.dropLast_append_of_ne_nil
        (List.append_ne_nil_of_left_ne_nil (List.cons_ne_nil _ _) _)]
      exact List.mem_append_left _ hin
    · cases h
  · cases h
    exact List.not_mem_nil

end

-- ---------------------------------------------------------------------------
-- Ids of a line
-- ---------------------------------------------------------------------------

section
variable {g : HashMap (List UInt8) Nat} {keys words : List (List UInt8)} {w : List UInt8}

theorem mem_hashes (g : HashMap (List UInt8) Nat) (words : List (List UInt8)) {id : Int32} :
    id ∈ (hashEntries g (wordCounts words)).map Prod.fst ↔ ∃ w ∈ words, wordHash g w = id := by
  have hfst : (hashEntries g (wordCounts words)).map Prod.fst =
      ((wordCounts words).entries.map fun e => wordHash g e.1).mergeSort := by
    rw [hashEntries, List.map_map]
    exact List.map_id _
  rw [hfst, List.mem_mergeSort, List.mem_map]
  constructor
  · rintro ⟨e, he, rfl⟩
    exact ⟨e.1, mem_wordCounts.mp (OrdMap.mem_def.mpr (List.mem_map_of_mem he)), rfl⟩
  · rintro ⟨w, hw, rfl⟩
    obtain ⟨c, hc⟩ := OrdMap.mem_iff.mp (mem_wordCounts.mpr hw)
    exact ⟨(w, c), OrdMap.mem_entries.mpr hc, rfl⟩

theorem wordHash_of_lookup {n : Nat} (h : g.lookup w = some n) : wordHash g w = Int32.ofNat n := by
  rw [wordHash, h, Option.getD_some]

variable (hn : Names g keys) (hlen : keys.length ≤ 2 ^ 31) (hw : ∀ w ∈ words, w ∈ keys)
include hn hlen

theorem toInt_wordHash {n : Nat} (h : g.lookup w = some n) : (wordHash g w).toInt = n := by
  obtain ⟨hlt, -⟩ := List.getElem?_eq_some_iff.mp ((hn w n).mp h)
  rw [wordHash_of_lookup h, Int32.toInt_ofNat_of_lt (by omega)]

theorem wordHash_inj {w' : List UInt8} (h : w ∈ keys) (h' : w' ∈ keys)
    (he : wordHash g w = wordHash g w') : w = w' := by
  obtain ⟨n, hn'⟩ := HashMap.exists_of_mem (hn.mem.mpr h)
  obtain ⟨n', hn''⟩ := HashMap.exists_of_mem (hn.mem.mpr h')
  have hint := congrArg Int32.toInt he
  rw [toInt_wordHash hn hlen hn', toInt_wordHash hn hlen hn'', Nat.cast_inj] at hint
  have hkey := (hn w n).mp hn'
  rw [hint, (hn w' n').mp hn''] at hkey
  exact (Option.some.inj hkey).symm

include hw

theorem nodup_hashes : ((wordCounts words).entries.map fun e => wordHash g e.1).Nodup := by
  have hmap : ((wordCounts words).entries.map fun e => wordHash g e.1) =
      (wordCounts words).keys.map (wordHash g) := by
    rw [OrdMap.keys, List.map_map]
    rfl
  rw [hmap]
  refine List.Nodup.map_on (fun x hx y hy he => ?_) (wordCounts words).nodup_keys
  exact wordHash_inj hn hlen (hw x (mem_wordCounts.mp (OrdMap.mem_def.mpr hx)))
    (hw y (mem_wordCounts.mp (OrdMap.mem_def.mpr hy))) he

theorem pairwise_hashEntries :
    ((hashEntries g (wordCounts words)).map Prod.fst).Pairwise (· < ·) := by
  have hfst : (hashEntries g (wordCounts words)).map Prod.fst =
      ((wordCounts words).entries.map fun e => wordHash g e.1).mergeSort := by
    rw [hashEntries, List.map_map]
    exact List.map_id _
  rw [hfst]
  have hle := @List.pairwise_mergeSort Int32 (fun a b => decide (a ≤ b))
    (fun a b c hab hbc => decide_eq_true (Int32.le_trans (of_decide_eq_true hab)
      (of_decide_eq_true hbc)))
    (fun a b => by simpa using Int32.le_total a b)
    ((wordCounts words).entries.map fun e => wordHash g e.1)
  have hnodup := (List.mergeSort_perm ((wordCounts words).entries.map fun e => wordHash g e.1)
    (fun a b => decide (a ≤ b))).nodup_iff.mpr (nodup_hashes hn hlen hw)
  refine (hle.and hnodup).imp fun ⟨hab, hne⟩ => ?_
  exact lt_of_le_of_ne (of_decide_eq_true hab) hne

theorem mem_hashEntries {id count : Int32} :
    (id, count) ∈ hashEntries g (wordCounts words) ↔
      ∃ w ∈ words, ∃ n : Nat, g.lookup w = some n ∧ id.toInt = n ∧
        count = Int32.ofNat (words.count w) := by
  have hcount : ∀ w ∈ words, ((wordCounts words).entries.foldl
      (fun m e => m.insert (wordHash g e.1) e.2) .empty : OrdMap Int32 Int32).lookup
        (wordHash g w) = some (Int32.ofNat (words.count w)) := by
    intro w hwin
    have hc : (w, Int32.ofNat (words.count w)) ∈ (wordCounts words).entries :=
      OrdMap.mem_entries.mpr (by rw [lookup_wordCounts, if_pos hwin])
    exact OrdMap.lookup_foldl_insert (fun e : List UInt8 × Int32 => wordHash g e.1) Prod.snd
      (nodup_hashes hn hlen hw) .empty hc
  have hid : ∀ w ∈ words, ∃ n : Nat, g.lookup w = some n ∧ (wordHash g w).toInt = n := by
    intro w hwin
    obtain ⟨n, hl⟩ := HashMap.exists_of_mem (hn.mem.mpr (hw w hwin))
    exact ⟨n, hl, toInt_wordHash hn hlen hl⟩
  constructor
  · intro hin
    obtain ⟨w, hwin, he⟩ := (mem_hashes g words).mp (List.mem_map_of_mem hin)
    obtain ⟨n, hl, hint⟩ := hid w hwin
    dsimp only at he
    subst he
    refine ⟨w, hwin, n, hl, hint, ?_⟩
    obtain ⟨id, -, he⟩ := List.mem_map.mp hin
    obtain ⟨rfl, rfl⟩ := Prod.mk.inj he
    rw [hcount w hwin, Option.getD_some]
  · rintro ⟨w, hwin, n, hl, hint, rfl⟩
    obtain ⟨n', hl', hint'⟩ := hid w hwin
    obtain rfl : n = n' := Option.some.inj (hl.symm.trans hl')
    obtain rfl : id = wordHash g w := Int32.toInt_inj.mp (hint.trans hint'.symm)
    obtain ⟨e, he, hfst⟩ := List.mem_map.mp ((mem_hashes g words).mpr ⟨w, hwin, rfl⟩)
    obtain ⟨i, hi, rfl⟩ := List.mem_map.mp he
    dsimp only at hfst
    rw [hfst] at hi
    refine List.mem_map.mpr ⟨wordHash g w, hi, ?_⟩
    rw [hcount w hwin, Option.getD_some]

end

-- ---------------------------------------------------------------------------
-- When the files are aligned
-- ---------------------------------------------------------------------------

section
variable {cfg : Config} {lines : List Line} {s : State} {keys : List (List UInt8)}

theorem texts_fst {β : Type} (render : β → List UInt8) (file : List (Nat × β)) :
    (texts render file).map Prod.fst = file.map Prod.fst := by
  rw [texts, List.map_map]
  rfl

theorem origins_hash (file : List (Nat × List (Int32 × Int32))) :
    origins 10 (texts hashText file) = file.map Prod.fst := by
  rw [Provenance.origins_eq_map, texts_fst]
  intro r hr
  obtain ⟨e, -, rfl⟩ := List.mem_map.mp hr
  exact count_hashText e.2

theorem Written.fst_eq (h : Written cfg lines s keys) :
    s.outputHash.map Prod.fst = (collect (newWordOf cfg) lines).map Prod.fst := by
  rw [h.outputHash]
  refine Provenance.collect_congr fun l _ => ?_
  rw [hashOf, newWordOf]
  split
  · rfl
  · rfl

theorem Written.mem_outputHash (h : Written cfg lines s keys) {k : Nat}
    {entries : List (Int32 × Int32)} : (k, entries) ∈ s.outputHash ↔
      ∃ l, lines[k]? = some l ∧ l.kept cfg ≠ [] ∧
        hashEntries s.globalWordId (wordCounts (l.kept cfg)) = entries := by
  rw [h.outputHash, mem_collect]
  refine exists_congr fun l => and_congr_right fun _ => ?_
  rw [hashOf]
  split
  · rename_i hnil
    exact iff_of_false nofun fun hc => hc.1 hnil
  · rename_i hnil
    rw [Option.some_inj, and_iff_right hnil]

theorem Written.kept_mem (h : Written cfg lines s keys) {k : Nat} {l : Line}
    (hl : lines[k]? = some l) : ∀ w ∈ l.kept cfg, w ∈ keys := fun w hw =>
  (h.mem w).mpr (mem_seenWords.mpr ⟨l, List.mem_of_getElem? hl, hw⟩)

theorem kept_of_le {l : Line} (h : l.wordCount ≤ 0) : l.kept cfg = [] := by
  rw [Line.kept, Int.toNat_of_nonpos h]
  split
  · rfl
  · rfl

theorem label_of_kept {l : Line} (h : l.kept cfg ≠ []) :
    ∃ lab, l.label cfg [] = some lab ∧ ¬ l.wordCount ≤ 0 := by
  cases hlab : l.label cfg [] with
  | none => exact absurd (by rw [Line.kept, hlab]) h
  | some lab => exact ⟨lab, rfl, fun hle => h (kept_of_le hle)⟩

theorem outputOf_of_kept {l : Line} (h : l.kept cfg ≠ []) {lab : List UInt8}
    (hlab : l.label cfg [] = some lab) :
    outputOf cfg l = some (outputText lab (wordCounts (l.kept cfg))) := by
  obtain ⟨-, -, hcount⟩ := label_of_kept h
  rw [outputOf, hlab, Option.bind_some, if_neg hcount, if_neg h]

theorem Written.count_hash (h : Written cfg lines s keys) {k : Nat} {l : Line}
    (hl : lines[k]? = some l) (hkept : l.kept cfg ≠ []) :
    (origins 10 (texts hashText s.outputHash)).count k = 1 := by
  have hin : (k, hashEntries s.globalWordId (wordCounts (l.kept cfg))) ∈ s.outputHash :=
    h.mem_outputHash.mpr ⟨l, hl, hkept, rfl⟩
  have hnodup : ((texts hashText s.outputHash).map Prod.fst).Nodup := by
    rw [texts_fst, h.fst_eq]
    exact Provenance.nodup_collect _ _
  exact (Provenance.count_origins hnodup (List.mem_map.mpr ⟨_, hin, rfl⟩)).trans
    (count_hashText _)

theorem Written.regular (h : Written cfg lines s keys) {ord : IterOrder (List UInt8) Nat}
    (ha : Aligned cfg ord lines s) : Regular cfg lines := by
  constructor
  · intro l hin hlab
    obtain ⟨k, hk⟩ := List.mem_iff_getElem?.mp hin
    by_contra hcount
    have hle : l.wordCount ≤ 0 := Int.not_lt.mp hcount
    obtain ⟨lab, hlab⟩ := Option.ne_none_iff_exists'.mp hlab
    -- the label is written to `output` alone
    have hout : (k, lab ++ [10]) ∈ s.output := by
      rw [h.output, mem_collect]
      exact ⟨l, hk, by rw [outputOf, hlab, Option.bind_some, if_pos hle]⟩
    have hk' : k ∈ origins 10 s.output :=
      Provenance.mem_origins.mpr ⟨_, hout, List.mem_append_right _ List.mem_cons_self⟩
    rw [ha.hash, origins_hash, List.mem_map] at hk'
    obtain ⟨⟨k, entries⟩, he, rfl⟩ := hk'
    obtain ⟨l', hl', hkept, -⟩ := h.mem_outputHash.mp he
    obtain rfl : l = l' := Option.some.inj (hk.symm.trans hl')
    exact hkept (kept_of_le hle)
  · intro l hin w hw
    obtain ⟨k, hk⟩ := List.mem_iff_getElem?.mp hin
    have hkept : l.kept cfg ≠ [] := List.ne_nil_of_mem hw
    obtain ⟨lab, hlab, -⟩ := label_of_kept hkept
    have hout : (k, outputText lab (wordCounts (l.kept cfg))) ∈ s.output := by
      rw [h.output, mem_collect]
      exact ⟨l, hk, outputOf_of_kept hkept hlab⟩
    have hnodup : (s.output.map Prod.fst).Nodup := by
      rw [h.output]
      exact Provenance.nodup_collect _ _
    have hone : (origins 10 s.output).count k = _ := Provenance.count_origins hnodup hout
    rw [ha.hash, h.count_hash hk hkept] at hone
    exact (count_outputText (lineBreak_label hlab)).mp hone.symm w hw
  · intro l hin hkept e he
    obtain ⟨k, hk⟩ := List.mem_iff_getElem?.mp hin
    have hout : (k, newWordText l.newWord) ∈ texts newWordText s.newWordOutput := by
      refine List.mem_map.mpr ⟨(k, l.newWord), ?_, rfl⟩
      rw [h.newWordOutput, mem_collect]
      exact ⟨l, hk, by rw [newWordOf, if_neg hkept]⟩
    have hnodup : ((texts newWordText s.newWordOutput).map Prod.fst).Nodup := by
      rw [texts_fst, h.newWordOutput]
      exact Provenance.nodup_collect _ _
    have hone : (origins 10 (texts newWordText s.newWordOutput)).count k = _ :=
      Provenance.count_origins hnodup hout
    rw [ha.newWord, h.count_hash hk hkept] at hone
    exact count_newWordText.mp hone.symm e he
  · by_contra hcard
    rw [h.card, Nat.not_le] at hcard
    -- the word with the id 2 ^ 31
    have hget : keys[2 ^ 31]? = some keys[2 ^ 31] := List.getElem?_eq_getElem hcard
    obtain ⟨l, hin, hw⟩ := mem_seenWords.mp ((h.mem _).mp (List.mem_of_getElem? hget))
    obtain ⟨k, hk⟩ := List.mem_iff_getElem?.mp hin
    have hentry := h.mem_outputHash.mpr ⟨l, hk, List.ne_nil_of_mem hw, rfl⟩
    obtain ⟨l', hl', -, -, hids⟩ := ha.ids k _ hentry
    have hhash := (mem_hashes s.globalWordId (l.kept cfg)).mpr ⟨_, hw, rfl⟩
    obtain ⟨⟨id, count⟩, he, hid⟩ := List.mem_map.mp hhash
    obtain ⟨-, -, n, -, hint, -⟩ := (hids id count).mp he
    dsimp only at hid
    rw [hid, wordHash_of_lookup ((h.names _ _).mpr hget)] at hint
    have hneg : (Int32.ofNat (2 ^ 31)).toInt = -2 ^ 31 := by decide
    omega

theorem Written.aligned (h : Written cfg lines s keys) (ord : IterOrder (List UInt8) Nat)
    (hr : Regular cfg lines) : Aligned cfg ord lines s := by
  have hlen : keys.length ≤ 2 ^ 31 := h.card ▸ hr.ids
  constructor
  · rw [origins_hash, h.fst_eq, Provenance.origins_eq_map, h.output]
    · refine Provenance.collect_congr fun l hin => ?_
      rw [outputOf, newWordOf]
      cases hlab : l.label cfg [] with
      | none =>
        have hnil : l.kept cfg = [] := by rw [Line.kept, hlab]
        rw [if_pos hnil]
        rfl
      | some lab =>
        have hcount := hr.succeeds l hin (by rw [hlab]; exact Option.some_ne_none lab)
        rw [Option.bind_some, if_neg (Int.not_le.mpr hcount)]
        split
        · rfl
        · rfl
    · rintro ⟨k, text⟩ hin
      rw [h.output, mem_collect] at hin
      obtain ⟨l, hk, hl⟩ := hin
      have hmem := List.mem_of_getElem? hk
      obtain ⟨lab, hlab, htext⟩ := Option.bind_eq_some_iff.mp hl
      have hcount := hr.succeeds l hmem (by rw [hlab]; exact Option.some_ne_none lab)
      rw [if_neg (Int.not_le.mpr hcount)] at htext
      split at htext
      · cases htext
      · cases htext
        exact (count_outputText (lineBreak_label hlab)).mpr (hr.words l hmem)
  · rw [origins_hash, h.fst_eq, ← h.labelOutput, Provenance.origins_eq_map, texts_fst]
    intro r hin
    obtain ⟨e, -, rfl⟩ := List.mem_map.mp hin
    exact count_labelText e.2
  · rw [origins_hash, h.fst_eq, ← h.newWordOutput, Provenance.origins_eq_map, texts_fst]
    intro r hin
    obtain ⟨⟨k, words⟩, he, rfl⟩ := List.mem_map.mp hin
    rw [h.newWordOutput, mem_collect] at he
    obtain ⟨l, hk, hl⟩ := he
    rw [newWordOf] at hl
    split at hl
    · cases hl
    · rename_i hkept
      cases hl
      exact count_newWordText.mpr (hr.newWords l (List.mem_of_getElem? hk) hkept)
  · intro k entries hentry
    obtain ⟨l, hk, -, rfl⟩ := h.mem_outputHash.mp hentry
    have hkeys := h.kept_mem hk
    refine ⟨l, hk, pairwise_hashEntries h.names hlen hkeys, fun e he => ?_, fun id count => ?_⟩
    · obtain ⟨w, hw, n, hl, hint, -⟩ := (mem_hashEntries h.names hlen hkeys).mp he
      rw [hint]
      exact Int.ofNat_lt.mpr (h.bound k l hk w hw n ((h.names w n).mp hl))
    · rw [mem_hashEntries h.names hlen hkeys]
      refine exists_congr fun w => and_congr_right fun _ => exists_congr fun n => ?_
      rw [State.worddict, IterOrder.mem_walk]

/-- The training files are aligned exactly when the input is regular. -/
theorem run_aligned_iff (cfg : Config) (ord : IterOrder (List UInt8) Nat) (lines : List Line) :
    Aligned cfg ord lines (run cfg lines) ↔ Regular cfg lines := by
  obtain ⟨keys, h⟩ := written_run cfg lines
  exact ⟨h.regular, h.aligned ord⟩

end

-- ---------------------------------------------------------------------------
-- A line on which the segmenter fails
-- ---------------------------------------------------------------------------

def plainConfig : Config := ⟨true, true, true, fun _ => false⟩

/-- A line that the segmenter cuts into one word, and a line on which it
fails. -/
def twoLines : List Line :=
  [⟨text "A\tname\tt\tc\td\n", 1, [text "name"], [], by decide, fun _ => rfl⟩,
    ⟨text "B\t\t\t\t\n", 0, [], [], by decide, fun h => absurd h (by decide)⟩]

/-- The first line is in all files, the second one in `output` only. -/
theorem not_aligned_twoLines :
    ¬ Aligned plainConfig (IterOrder.held _ _) twoLines (run plainConfig twoLines) := by
  intro h
  have hout : (run plainConfig twoLines).output =
      [(0, text "A\tname:1 \n"), (1, text "B\n")] := by decide +kernel
  have hhash : (run plainConfig twoLines).outputHash = [(0, [(0, 1)])] := by decide +kernel
  have hlines := h.hash
  rw [hout, hhash] at hlines
  exact absurd hlines (by decide)

end TextMining.SegmentLineSVM
