import TextMining.ConfigInfo.Include

/-!
# Saving a configuration

`SaveConfig` writes a line for each entry of the map, and loading the file gives
the map back. What `SetValue` did to the map is not what it was called for: it
changes the entry whose key is the new value.
-/

namespace TextMining

-- ---------------------------------------------------------------------------
-- Trimmed texts
-- ---------------------------------------------------------------------------

namespace StringTool

theorem infix_trim (str : List UInt8) : trim str <:+: str :=
  (List.rdropWhile_prefix isSpace (leftTrim str)).isInfix.trans
    (List.dropWhile_suffix isSpace).isInfix

theorem leftTrim_trim (str : List UInt8) : leftTrim (trim str) = trim str := by
  rw [leftTrim, List.dropWhile_eq_self_iff]
  intro hpos
  have hpre : trim str <+: leftTrim str := List.rdropWhile_prefix isSpace (leftTrim str)
  have hleft : leftTrim (leftTrim str) = leftTrim str := List.dropWhile_idempotent ..
  have hhead := List.dropWhile_eq_self_iff.mp hleft (Nat.lt_of_lt_of_le hpos hpre.length_le)
  rwa [hpre.getElem hpos]

theorem trim_trim (str : List UInt8) : trim (trim str) = trim str := by
  have hright : rightTrim (trim str) = trim str := List.rdropWhile_idempotent ..
  rw [trim, leftTrim_trim, hright]

end StringTool

namespace CConfigInfo

open StringTool (trim infix_trim trim_trim)
open Inclusion (includeFirst expand expand_file exists_of_mem_expand)

-- ---------------------------------------------------------------------------
-- What is loaded can be saved
-- ---------------------------------------------------------------------------

structure Field (str : List UInt8) : Prop where
  trimmed : trim str = str
  split : 61 ∉ str
  comment : 35 ∉ str
  lineBreak : 10 ∉ str
  short : str.length < 2 ^ 31 - 1

def Saveable (m : OrdMap (List UInt8) (List UInt8)) : Prop :=
  ∀ e ∈ m.entries, Field e.1 ∧ Field e.2

section
variable {m : OrdMap (List UInt8) (List UInt8)} {key value line : List UInt8}

theorem field_trim {str : List UInt8} (hsplit : 61 ∉ str) (hcomment : 35 ∉ str)
    (hbreak : 10 ∉ str) (hlen : str.length < 2 ^ 31 - 1) : Field (trim str) where
  trimmed := trim_trim str
  split hc := hsplit ((infix_trim str).subset hc)
  comment hc := hcomment ((infix_trim str).subset hc)
  lineBreak hc := hbreak ((infix_trim str).subset hc)
  short := Nat.lt_of_le_of_lt (infix_trim str).length_le hlen

theorem Saveable.insert (h : Saveable m) (hk : Field key) (hv : Field value) :
    Saveable (m.insert key value) := by
  rintro ⟨k, v⟩ he
  rw [OrdMap.mem_entries, OrdMap.lookup_insert] at he
  split at he
  · rename_i heq
    obtain rfl := Option.some.inj he
    exact ⟨heq ▸ hk, hv⟩
  · exact h (k, v) (OrdMap.mem_entries.mpr he)

theorem Saveable.assign (h : Saveable m) (hcomment : 35 ∉ line) (hbreak : 10 ∉ line)
    (hlen : line.length < 2 ^ 31) : Saveable (assign 61 m line) := by
  have hsep := (Row.splitOn_separable 61 line).2
  rw [CConfigInfo.assign]
  cases hrow : line.splitOn 61 with
  | nil => exact h
  | cons key row =>
    cases row with
    | nil => exact h
    | cons value row =>
      obtain ⟨rest, rfl⟩ := Row.splitOn_eq_cons_cons hrow
      rw [hrow] at hsep
      simp only [List.length_append, List.length_cons] at hlen
      simp only [List.mem_append, List.mem_cons, not_or] at hcomment hbreak
      apply h.insert
      · exact field_trim (hsep key List.mem_cons_self) hcomment.1 hbreak.1 (by omega)
      · exact field_trim (hsep value (List.mem_cons_of_mem key List.mem_cons_self))
          hcomment.2.2.1 hbreak.2.2.1 (by omega)

end

theorem saveable_process {lines : List (List UInt8)}
    (h : ∀ line ∈ lines, 35 ∉ line ∧ 10 ∉ line ∧ line.length < 2 ^ 31) :
    Saveable (process 61 lines) := by
  have hfold : ∀ m, Saveable m → Saveable (lines.foldl (assign 61) m) := by
    induction lines with
    | nil => exact fun m hm => hm
    | cons line lines ih =>
      intro m hm
      obtain ⟨hcomment, hbreak, hlen⟩ := h line List.mem_cons_self
      exact ih (fun l hl => h l (List.mem_cons_of_mem line hl)) _ (hm.assign hcomment hbreak hlen)
  exact hfold .empty fun _ he => absurd he List.not_mem_nil

theorem saveable_expand {fs : FileSystem} (hfs : LinesBelow (2 ^ 31) fs) (depth : Nat)
    (name : List UInt8) : Saveable (process 61 (expand (files fs) includeFirst depth name)) := by
  refine saveable_process fun own hown => ?_
  obtain ⟨f, items, hf, i, hi, rfl⟩ := exists_of_mem_expand hown
  obtain ⟨bytes, hbytes, rfl⟩ := Option.map_eq_some_iff.mp hf
  obtain ⟨line, hline, rfl⟩ := List.mem_map.mp hi
  have hpre : ownText line <+: line := List.takeWhile_prefix _
  refine ⟨not_mem_ownText line, fun hc => ?_, ?_⟩
  · exact (Row.splitOn_separable 10 bytes).2 line hline (hpre.subset hc)
  · exact Nat.lt_of_le_of_lt hpre.length_le (hfs f bytes hbytes line hline)

-- ---------------------------------------------------------------------------
-- SetValue
-- ---------------------------------------------------------------------------

def setAll (s : CConfigInfo) (sets : List (List UInt8 × List UInt8)) : CConfigInfo :=
  sets.foldl (fun s e => s.setValue e.1 e.2) s

section
variable {s : CConfigInfo} {k : List UInt8} {sets : List (List UInt8 × List UInt8)}

theorem lookup_setValue (s : CConfigInfo) (strKey strValue : List UInt8) (hk : k ∈ s.mapConfig) :
    (s.setValue strKey strValue).mapConfig.lookup k =
      if k = strValue then some k else s.mapConfig.lookup k := by
  rw [setValue]
  split
  · rw [OrdMap.lookup_modify]
    split
    · rename_i heq
      obtain ⟨v, hv⟩ := OrdMap.mem_iff.mp hk
      rw [← heq, hv, Option.map_some]
    · rfl
  · rename_i hv
    refine (if_neg ?_).symm
    rintro rfl
    exact hv hk

theorem mem_setValue (s : CConfigInfo) (strKey strValue : List UInt8) :
    k ∈ (s.setValue strKey strValue).mapConfig ↔ k ∈ s.mapConfig := by
  rw [setValue]
  split
  · exact OrdMap.mem_modify
  · rfl

theorem lookup_setAll (hk : k ∈ s.mapConfig) :
    (k ∈ sets.map Prod.snd → (s.setAll sets).mapConfig.lookup k = some k) ∧
      (k ∉ sets.map Prod.snd → (s.setAll sets).mapConfig.lookup k = s.mapConfig.lookup k) := by
  induction sets generalizing s with
  | nil => exact ⟨fun h => absurd h List.not_mem_nil, fun _ => rfl⟩
  | cons e sets ih =>
    have hcons : s.setAll (e :: sets) = (s.setValue e.1 e.2).setAll sets := rfl
    have hstep := lookup_setValue s e.1 e.2 hk
    obtain ⟨hset, hkeep⟩ := ih ((mem_setValue s e.1 e.2).mpr hk)
    rw [hcons, List.map_cons, List.mem_cons, not_or]
    refine ⟨fun h => ?_, fun ⟨hne, hnot⟩ => ?_⟩
    · by_cases hin : k ∈ sets.map Prod.snd
      · exact hset hin
      · rw [hkeep hin, hstep, if_pos (h.resolve_right hin)]
    · rw [hkeep hnot, hstep, if_neg hne]

theorem setValue_strConfigFile (s : CConfigInfo) (strKey strValue : List UInt8) :
    (s.setValue strKey strValue).strConfigFile = s.strConfigFile := by
  rw [setValue]
  split <;> rfl

theorem setAll_strConfigFile (s : CConfigInfo) (sets : List (List UInt8 × List UInt8)) :
    (s.setAll sets).strConfigFile = s.strConfigFile := by
  induction sets generalizing s with
  | nil => rfl
  | cons e sets ih => exact (ih _).trans (setValue_strConfigFile s e.1 e.2)

theorem Saveable.setValue (h : Saveable s.mapConfig) (strKey strValue : List UInt8) :
    Saveable (s.setValue strKey strValue).mapConfig := by
  rw [CConfigInfo.setValue]
  split
  · rename_i hmem
    obtain ⟨e, he, rfl⟩ := List.mem_map.mp (OrdMap.mem_def.mp hmem)
    rintro ⟨k, v⟩ hkv
    rw [OrdMap.mem_entries, OrdMap.lookup_modify] at hkv
    split at hkv
    · rename_i hk
      obtain ⟨_, -, rfl⟩ := Option.map_eq_some_iff.mp hkv
      exact ⟨hk ▸ (h e he).1, (h e he).1⟩
    · exact h (k, v) (OrdMap.mem_entries.mpr hkv)
  · exact h

theorem Saveable.setAll (h : Saveable s.mapConfig) (sets : List (List UInt8 × List UInt8)) :
    Saveable (s.setAll sets).mapConfig := by
  induction sets generalizing s with
  | nil => exact h
  | cons e sets ih => exact ih (h.setValue e.1 e.2)

end

-- ---------------------------------------------------------------------------
-- Reading a saved file
-- ---------------------------------------------------------------------------

section
variable {e : List UInt8 × List UInt8}

theorem savedLine_eq (e : List UInt8 × List UInt8) : savedLine e = e.1 ++ 61 :: e.2 := by
  have hsep : text "=" = [61] := by decide
  rw [savedLine, hsep, List.append_assoc, List.singleton_append]

theorem not_mem_savedLine {b : UInt8} (hb : b ≠ 61) (hk : b ∉ e.1) (hv : b ∉ e.2) :
    b ∉ savedLine e := by
  rw [savedLine_eq, List.mem_append, List.mem_cons]
  rintro (h | h | h)
  · exact hk h
  · exact hb h
  · exact hv h

theorem assign_savedLine (hk : Field e.1) (hv : Field e.2)
    (m : OrdMap (List UInt8) (List UInt8)) : assign 61 m (savedLine e) = m.insert e.1 e.2 := by
  have hsplit : (savedLine e).splitOn 61 = [e.1, e.2] := by
    rw [savedLine_eq, List.splitOn_append_cons_self_of_not_mem hk.split,
      List.splitOn_eq_singleton hv.split]
  rw [assign, hsplit]
  simp only [hk.trimmed, hv.trimmed]

end

section
variable {fs : FileSystem} {s : CConfigInfo}

theorem saveConfig_lines (h : Saveable s.mapConfig) :
    (s.mapConfig.entries.flatMap fun e => savedLine e ++ [10]).splitOn 10 =
      s.mapConfig.entries.map savedLine ++ [[]] := by
  rw [← List.flatMap_map savedLine (fun l => l ++ [10]), Row.splitOn_flatMap_concat]
  intro line hline
  obtain ⟨e, he, rfl⟩ := List.mem_map.mp hline
  exact not_mem_savedLine (by decide) (h e he).1.lineBreak (h e he).2.lineBreak

theorem saveConfig_linesBelow (hfs : LinesBelow (2 ^ 31) fs) (h : Saveable s.mapConfig) :
    LinesBelow (2 ^ 32 - 1) (s.saveConfig fs) := by
  intro name bytes hbytes line hline
  rw [saveConfig] at hbytes
  split at hbytes
  · obtain rfl := Option.some.inj hbytes
    rw [saveConfig_lines h, List.mem_append, List.mem_singleton] at hline
    rcases hline with hline | rfl
    · obtain ⟨e, he, rfl⟩ := List.mem_map.mp hline
      have hk := (h e he).1.short
      have hv := (h e he).2.short
      rw [savedLine_eq, List.length_append, List.length_cons]
      omega
    · exact Nat.succ_pos _
  · exact Nat.lt_of_lt_of_le (hfs name bytes hbytes line hline) (by decide)

theorem process_saveConfig (h : Saveable s.mapConfig) :
    process 61 (expand (files (s.saveConfig fs)) includeFirst 11 s.strConfigFile) =
      s.mapConfig := by
  have hlines : ∀ line ∈ s.mapConfig.entries.map savedLine ++ [[]], 35 ∉ line := by
    intro line hline
    rw [List.mem_append, List.mem_singleton] at hline
    rcases hline with hline | rfl
    · obtain ⟨e, he, rfl⟩ := List.mem_map.mp hline
      exact not_mem_savedLine (by decide) (h e he).1.comment (h e he).2.comment
    · exact List.not_mem_nil
  have hfile : files (s.saveConfig fs) s.strConfigFile =
      some ((s.mapConfig.entries.map savedLine ++ [[]]).map fun line =>
        (includeOf line, ownText line)) := by
    rw [files, saveConfig, if_pos rfl, Option.map_some, saveConfig_lines h]
  have hexpand : expand (files (s.saveConfig fs)) includeFirst 11 s.strConfigFile =
      s.mapConfig.entries.map savedLine ++ [[]] := by
    rw [expand_file _ hfile, List.flatMap_map]
    refine (List.flatMap_congr fun line hline => ?_).trans (List.flatMap_singleton' _)
    rw [includeOf_of_not_mem (hlines line hline), ownText_of_not_mem (hlines line hline)]
    rfl
  rw [hexpand, process, List.foldl_append, List.foldl_map, List.foldl_cons, List.foldl_nil,
    assign_nil]
  have hfold : ∀ m, s.mapConfig.entries.foldl (fun m e => assign 61 m (savedLine e)) m =
      s.mapConfig.entries.foldl (fun m e => m.insert e.1 e.2) m := fun m =>
    List.foldl_ext _ _ _ fun m e he => assign_savedLine (h e he).1 (h e he).2 m
  rw [hfold, OrdMap.foldl_insert_entries]

theorem reload_eq (hfs : LinesBelow (2 ^ 31) fs) (h : Saveable s.mapConfig) :
    ∃ t, construct (s.saveConfig fs) 11 s.strConfigFile 61 = some t ∧ t.mapConfig = s.mapConfig := by
  obtain ⟨most, -, hc⟩ := construct_eq (saveConfig_linesBelow hfs h) (Nat.le_refl 11)
    s.strConfigFile 61
  exact ⟨_, hc, process_saveConfig h⟩

/-- A loaded configuration, changed and saved, is loaded again as it was saved. -/
theorem construct_saveConfig (hfs : LinesBelow (2 ^ 31) fs) {name : List UInt8}
    (hs : construct fs 11 name 61 = some s) (sets : List (List UInt8 × List UInt8)) :
    ∃ t, construct ((s.setAll sets).saveConfig fs) 11 name 61 = some t ∧
      t.mapConfig = (s.setAll sets).mapConfig := by
  obtain ⟨most, -, hc⟩ := construct_eq (hfs.mono (by decide)) (Nat.le_refl 11) name 61
  obtain rfl := Option.some.inj (hs.symm.trans hc)
  have hsave := (saveable_expand hfs 11 name).setAll
    (s := ⟨name, 0, process 61 (expand (files fs) includeFirst 11 name), 0, most⟩) sets
  have hname := setAll_strConfigFile
    ⟨name, 0, process 61 (expand (files fs) includeFirst 11 name), 0, most⟩ sets
  obtain ⟨t, ht, hmap⟩ := reload_eq hfs hsave
  rw [hname] at ht
  exact ⟨t, ht, hmap⟩

end

-- ---------------------------------------------------------------------------
-- What survives
-- ---------------------------------------------------------------------------

/-- The value last set for a key, or the loaded value when it was never set. -/
def lastValue (s : CConfigInfo) (sets : List (List UInt8 × List UInt8)) (k : List UInt8) :
    List UInt8 :=
  match sets.reverse.find? fun e => e.1 = k with
  | some e => e.2
  | none => s.getValue k

/-- `GetValue` on the reloaded file returns the value last set for each key
exactly when the keys that occur among the values set were to hold themselves
and the others what was loaded. -/
theorem saveConfig_iff (fs : FileSystem) (hfs : LinesBelow (2 ^ 31) fs) (name : List UInt8)
    (s : CConfigInfo) (hs : construct fs 11 name 61 = some s)
    (sets : List (List UInt8 × List UInt8)) :
    ∃ t, construct ((s.setAll sets).saveConfig fs) 11 name 61 = some t ∧
      ((∀ k ∈ s.mapConfig, t.getValue k = s.lastValue sets k) ↔
        ∀ k ∈ s.mapConfig,
          (k ∈ sets.map Prod.snd → s.lastValue sets k = k) ∧
          (k ∉ sets.map Prod.snd → s.lastValue sets k = s.getValue k)) := by
  obtain ⟨t, ht, hmap⟩ := construct_saveConfig hfs hs sets
  refine ⟨t, ht, forall₂_congr fun k hk => ?_⟩
  have hlookup : (k ∈ sets.map Prod.snd → (s.setAll sets).mapConfig.lookup k = some k) ∧
      (k ∉ sets.map Prod.snd → (s.setAll sets).mapConfig.lookup k = s.mapConfig.lookup k) :=
    lookup_setAll hk
  obtain ⟨hset, hkeep⟩ := hlookup
  by_cases hin : k ∈ sets.map Prod.snd
  · rw [getValue, hmap, hset hin, Option.getD_some]
    exact ⟨fun h => ⟨fun _ => h.symm, fun hnot => absurd hin hnot⟩, fun h => (h.1 hin).symm⟩
  · rw [getValue, hmap, hkeep hin, ← getValue]
    exact ⟨fun h => ⟨fun hc => absurd hc hin, fun _ => h.symm⟩, fun h => (h.2 hin).symm⟩

/-- Two keys are set to themselves and the third to the value it has. -/
theorem saveConfig_iff_abc :
    let fs := twoFiles (text "a=1\nb=2\nc=3") []
    let sets := [(text "a", text "a"), (text "c", text "3"), (text "b", text "b")]
    ∃ s t, construct fs 11 (text "main") 61 = some s ∧
      construct ((s.setAll sets).saveConfig fs) 11 (text "main") 61 = some t ∧
      s.mapConfig.keys = [text "a", text "b", text "c"] ∧
      ∀ k ∈ s.mapConfig, t.getValue k = s.lastValue sets k := by
  intro fs sets
  have hfs : LinesBelow (2 ^ 31) fs :=
    twoFiles_linesBelow (by decide +kernel) (by decide)
  obtain ⟨most, -, hc⟩ := construct_eq (hfs.mono (by decide)) (Nat.le_refl 11) (text "main") 61
  obtain ⟨t, ht, hiff⟩ := saveConfig_iff fs hfs _ _ hc sets
  have hentries : (process 61 (expand (files fs) includeFirst 11 (text "main"))).entries =
      [(text "a", text "1"), (text "b", text "2"), (text "c", text "3")] := by decide +kernel
  have hkeys : (process 61 (expand (files fs) includeFirst 11 (text "main"))).keys =
      [text "a", text "b", text "c"] := by rw [OrdMap.keys, hentries]; rfl
  have hc3 : (process 61 (expand (files fs) includeFirst 11 (text "main"))).lookup (text "c") =
      some (text "3") := by decide +kernel
  refine ⟨_, t, hc, ht, hkeys, hiff.mpr fun k hk => ?_⟩
  have hk' := hkeys ▸ OrdMap.mem_def.mp hk
  simp only [List.mem_cons, List.not_mem_nil, or_false] at hk'
  have hsets : sets.map Prod.snd = [text "a", text "3", text "b"] := rfl
  rw [hsets]
  rcases hk' with rfl | rfl | rfl
  · exact ⟨fun _ => rfl, fun hnot => absurd (by decide) hnot⟩
  · exact ⟨fun _ => rfl, fun hnot => absurd (by decide) hnot⟩
  · refine ⟨fun hin => absurd hin (by decide), fun _ => ?_⟩
    rw [getValue, hc3]
    rfl

/-- `SetValue` for `a` with a value that is no key changes nothing. -/
theorem not_saved_a : ∃ s t, construct (twoFiles (text "a=1") []) 11 (text "main") 61 = some s ∧
    text "a" ∈ s.mapConfig ∧
    construct ((s.setAll [(text "a", text "2")]).saveConfig (twoFiles (text "a=1") [])) 11
      (text "main") 61 = some t ∧
    t.getValue (text "a") = text "1" ∧ s.lastValue [(text "a", text "2")] (text "a") = text "2" ∧
    text "1" ≠ text "2" := by
  have hfs : LinesBelow (2 ^ 31) (twoFiles (text "a=1") []) :=
    twoFiles_linesBelow (by decide) (by decide)
  obtain ⟨most, -, hc⟩ := construct_eq (hfs.mono (by decide)) (Nat.le_refl 11) (text "main") 61
  obtain ⟨t, ht, hmap⟩ := construct_saveConfig hfs hc [(text "a", text "2")]
  have hloaded : (process 61 (expand (files (twoFiles (text "a=1") [])) includeFirst 11
      (text "main"))).lookup (text "a") = some (text "1") := by decide
  have hmem : text "a" ∈ process 61 (expand (files (twoFiles (text "a=1") [])) includeFirst 11
      (text "main")) := OrdMap.mem_iff.mpr ⟨_, hloaded⟩
  have hnot : text "a" ∉ [(text "a", text "2")].map Prod.snd := by decide
  refine ⟨_, t, hc, hmem, ht, ?_, rfl, by decide⟩
  rw [getValue, hmap, (lookup_setAll hmem).2 hnot, hloaded, Option.getD_some]

end CConfigInfo

end TextMining
