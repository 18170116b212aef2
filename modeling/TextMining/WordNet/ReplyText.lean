import TextMining.WordNet.HotTerms

/-!
# The buffers of the replies

Both loops append while the text is shorter than a limit. The limit of
`GetCoocTerm` leaves room for any append; that of `GetHotTerm` leaves 48 bytes,
and a term may take 76.
-/

namespace TextMining.WordNet.Server

def hotEntry (t : TermInfo) : List UInt8 :=
  snprintf 100 (t.termstr ++ text ":" ++ decimalInt t.dfNow.toInt32.toInt ++ text " ")

def coocEntry (t : List UInt8 × UInt32) : List UInt8 :=
  snprintf 100 (t.1 ++ text ":" ++ decimal t.2.toNat ++ text " ")

/-- The texts that `buf` of `GetHotTerm` holds after each append; `none` when
a slot has no term, and whatever lies there is printed. -/
def hotTexts (termInfo : List TermInfo) :
    List SortItem → List UInt8 → Option (List (List UInt8))
  | [], _ => some []
  | item :: items, buf =>
    if buf.length < 2000 then
      match termAt termInfo item.appendix with
      | none => none
      | some t =>
        (hotTexts termInfo items (buf ++ hotEntry t)).map fun texts => (buf ++ hotEntry t) :: texts
    else some []

/-- The texts that `buf` of `GetCoocTerm` holds for a query: the count of the
term, then after each append of the loop. -/
def coocTexts (env : Env) (g : GlobalData) (content : List UInt8) : List (List UInt8) :=
  match g.termIndex.lookup (env.hashlittle content) with
  | none => []
  | some index =>
    match g.termInfo[index]? with
    | none => []
    | some info =>
      decimalInt info.dfNow.toInt32.toInt ::
        match coocTerms env g (env.ord.walk index info.coocTerm) g.termIndex [] with
        | some (_, some found) => appendWhile 900 ((env.sort found).map coocEntry) []
        | _ => []

/-- No text of a reply, with its NUL, is longer than its buffer. -/
structure RepliesFit (env : Env) (g : GlobalData) : Prop where
  hot : ∃ texts, hotTexts g.termInfo (hotSlots g.termInfo g.hotTermBuf) [] = some texts ∧
    ∀ b ∈ texts, b.length + 1 ≤ 2048
  cooc : ∀ content, ∀ b ∈ coocTexts env g content, b.length + 1 ≤ 1000

def taken (termInfo : List TermInfo) (items : List SortItem) : Nat :=
  (items.map fun item =>
    ((termAt termInfo item.appendix).map fun t => (hotEntry t).length).getD 0).sum

/-- Every slot that is read below the limit has a term, and its entry does not
lead to the end of the buffer. -/
def StopsInTime (termInfo : List TermInfo) (items : List SortItem) : Prop :=
  ∀ k item, items[k]? = some item → taken termInfo (items.take k) < 2000 →
    ∃ t, termAt termInfo item.appendix = some t ∧
      taken termInfo (items.take k) + (hotEntry t).length < 2048

-- ---------------------------------------------------------------------------
-- The text of `GetHotTerm`
-- ---------------------------------------------------------------------------

section
variable {termInfo : List TermInfo}

/-- The text of the reply is the last one. -/
theorem hotText_eq_getLast (items : List SortItem) (buf : List UInt8) :
    hotText termInfo items buf =
      (hotTexts termInfo items buf).bind fun texts => (buf :: texts).getLast? := by
  induction items generalizing buf with
  | nil => rfl
  | cons item items ih =>
    rw [hotText, hotTexts]
    split
    · cases termAt termInfo item.appendix with
      | none => rfl
      | some t =>
        refine (ih _).trans ?_
        simp only [Option.bind_map, Function.comp_def, List.getLast?_cons_cons]
        rfl
    · rfl

theorem taken_cons {item : SortItem} {t : TermInfo} (items : List SortItem)
    (h : termAt termInfo item.appendix = some t) :
    taken termInfo (item :: items) = (hotEntry t).length + taken termInfo items := by
  rw [taken, List.map_cons, h, List.sum_cons]
  rfl

/-- From a text on, the appends stay inside if and only if each slot that is
read has an entry that does. -/
theorem hotTexts_inside_iff (items : List SortItem) (buf : List UInt8) :
    (∃ texts, hotTexts termInfo items buf = some texts ∧ ∀ b ∈ texts, b.length + 1 ≤ 2048) ↔
      ∀ k item, items[k]? = some item → buf.length + taken termInfo (items.take k) < 2000 →
        ∃ t, termAt termInfo item.appendix = some t ∧
          buf.length + taken termInfo (items.take k) + (hotEntry t).length < 2048 := by
  induction items generalizing buf with
  | nil => simp [hotTexts]
  | cons item items ih =>
    rw [hotTexts]
    split
    · rename_i hlt
      cases ht : termAt termInfo item.appendix with
      | none =>
        constructor
        · rintro ⟨texts, htexts, -⟩
          cases htexts
        · intro h
          obtain ⟨t, ht', -⟩ := h 0 item rfl hlt
          cases ht.symm.trans ht'
      | some t =>
        have hrest := ih (buf ++ hotEntry t)
        simp only [List.length_append] at hrest
        have hstep : ∀ k, buf.length + taken termInfo ((item :: items).take (k + 1)) =
            buf.length + (hotEntry t).length + taken termInfo (items.take k) := fun k => by
          rw [List.take_succ_cons, taken_cons _ ht, Nat.add_assoc]
        constructor
        · rintro ⟨texts, htexts, hfit⟩ k item' hk
          obtain ⟨rest, hsome, rfl⟩ := Option.map_eq_some_iff.mp htexts
          obtain ⟨hfirst, hfit⟩ := List.forall_mem_cons.mp hfit
          cases k with
          | zero =>
            obtain rfl := Option.some.inj hk
            rw [List.length_append] at hfirst
            exact fun _ => ⟨t, ht, hfirst⟩
          | succ k =>
            rw [hstep]
            exact hrest.mp ⟨rest, hsome, hfit⟩ k item' hk
        · intro h
          obtain ⟨t', ht', hfirst⟩ := h 0 item rfl hlt
          obtain rfl : t = t' := Option.some.inj (ht.symm.trans ht')
          obtain ⟨rest, hsome, hfit⟩ := hrest.mpr fun k item' hk => hstep k ▸ h (k + 1) item' hk
          refine ⟨_, congrArg (Option.map _) hsome, List.forall_mem_cons.mpr ⟨?_, hfit⟩⟩
          rw [List.length_append]
          exact hfirst
    · rename_i hlt
      constructor
      · intro _ k item' _ hsum
        omega
      · exact fun _ => ⟨[], rfl, by simp⟩

theorem hotTexts_fit_iff (items : List SortItem) :
    (∃ texts, hotTexts termInfo items [] = some texts ∧ ∀ b ∈ texts, b.length + 1 ≤ 2048) ↔
      StopsInTime termInfo items := by
  have h := @hotTexts_inside_iff termInfo items []
  simp only [List.length_nil, Nat.zero_add] at h
  exact h

/-- Slots with terms whose entries take at most 48 bytes always stop in time. -/
theorem stopsInTime_of_le {items : List SortItem} (h : ∀ item ∈ items,
    ∃ t, termAt termInfo item.appendix = some t ∧ (hotEntry t).length ≤ 48) :
    StopsInTime termInfo items := by
  intro k item hk hlt
  obtain ⟨t, ht, hle⟩ := h item (List.mem_of_getElem? hk)
  exact ⟨t, ht, by omega⟩

end

-- ---------------------------------------------------------------------------
-- The text of `GetCoocTerm`
-- ---------------------------------------------------------------------------

theorem length_decimalInt_le (n : Int32) : (decimalInt n.toInt).length ≤ 11 := by
  have hlo := Int32.le_toInt n
  have hhi := Int32.toInt_lt n
  have habs : n.toInt.natAbs < 10 ^ 10 := by omega
  have hlen := length_decimal_le (by decide) habs
  rw [decimalInt]
  split
  · exact Nat.succ_le_succ hlen
  · exact hlen.trans (by decide)

theorem coocTexts_fit (env : Env) (g : GlobalData) (content : List UInt8) :
    ∀ b ∈ coocTexts env g content, b.length + 1 ≤ 1000 := by
  rw [coocTexts]
  split
  · exact fun b hb => nomatch hb
  · split
    · exact fun b hb => nomatch hb
    · refine List.forall_mem_cons.mpr ⟨?_, ?_⟩
      · exact (Nat.succ_le_succ (length_decimalInt_le _)).trans (by decide)
      · split
        · refine appendWhile_lt (fun piece hp => ?_) []
          obtain ⟨x, -, rfl⟩ := List.mem_map.mp hp
          have hcut := length_snprintf_le 100 (x.1 ++ text ":" ++ decimal x.2.toNat ++ text " ")
          rw [coocEntry]
          omega
        · exact fun b hb => nomatch hb

/-- The replies fit if and only if the text of the hottest terms stops in
time. -/
theorem repliesFit_iff (env : Env) (g : GlobalData) :
    RepliesFit env g ↔ StopsInTime g.termInfo (hotSlots g.termInfo g.hotTermBuf) := by
  rw [← hotTexts_fit_iff]
  exact ⟨fun h => h.hot, fun h => ⟨h, coocTexts_fit env g⟩⟩

-- ---------------------------------------------------------------------------
-- A thousand terms
-- ---------------------------------------------------------------------------

def serving (termInfo : List TermInfo) : GlobalData where
  totalIndexInfo := ⟨termInfo.length, 0, 0, 0⟩
  termIndex := ∅
  termInfo := termInfo
  fileMmap := ⟨0, []⟩
  hotTermBuf := List.replicate 1000 ⟨0, 0⟩

/-- A thousand terms of `width + 3` bytes, each in 123456789 lines. -/
def numberedTerms (width : Nat) : List TermInfo :=
  (List.range 1000).map fun i =>
    ⟨List.replicate width 97 ++ [UInt8.ofNat (48 + i / 100), UInt8.ofNat (48 + i / 10 % 10),
      UInt8.ofNat (48 + i % 10)], 0, 123456789, 0, ∅⟩

theorem length_numberedTerms (width : Nat) : (numberedTerms width).length = 1000 := by
  rw [numberedTerms, List.length_map, List.length_range]

theorem length_hotEntry_numberedTerms {width : Nat} (hwidth : width ≤ 60) {t : TermInfo}
    (ht : t ∈ numberedTerms width) : (hotEntry t).length = width + 14 := by
  obtain ⟨i, hi, rfl⟩ := List.mem_map.mp ht
  have hi := List.mem_range.mp hi
  have hdigit : ∀ d < 10, UInt8.ofNat (48 + d) ≠ 0 := by decide
  have htail : text ":" ++ decimalInt (123456789 : UInt32).toInt32.toInt ++ text " " =
      [58, 49, 50, 51, 52, 53, 54, 55, 56, 57, 32] := by decide +kernel
  have hzero : ∀ b ∈ List.replicate width (97 : UInt8) ++ [UInt8.ofNat (48 + i / 100),
      UInt8.ofNat (48 + i / 10 % 10), UInt8.ofNat (48 + i % 10)] ++
        [58, 49, 50, 51, 52, 53, 54, 55, 56, 57, 32], b ≠ 0 := by
    intro b hb
    simp only [List.mem_append, List.mem_replicate, List.mem_cons, List.not_mem_nil, or_false] at hb
    rcases hb with (⟨-, rfl⟩ | rfl | rfl | rfl) | hb
    · decide
    · exact hdigit _ (by omega)
    · exact hdigit _ (Nat.mod_lt _ (by decide))
    · exact hdigit _ (Nat.mod_lt _ (by decide))
    · rcases hb with rfl | rfl | rfl | rfl | rfl | rfl | rfl | rfl | rfl | rfl | rfl <;> decide
  rw [hotEntry, List.append_assoc, List.append_assoc, ← List.append_assoc (text ":"), htail, snprintf,
    cstr_of_ne_zero hzero, List.take_of_length_le (by simp; omega)]
  simp

/-- With a thousand terms every slot has one, so the entries all count. -/
theorem numberedTerms_slot {width : Nat} (hwidth : width ≤ 60) {buf : List SortItem}
    (hbuf : buf.length = 1000) (item : SortItem) (hi : item ∈ hotSlots (numberedTerms width) buf) :
    ∃ t, termAt (numberedTerms width) item.appendix = some t ∧
      (hotEntry t).length = width + 14 := by
  have hlen := length_numberedTerms width
  have hsel := selected_full (by rw [hlen]; decide) (fun t ht => ?_) hbuf hlen.ge
  · have hlt := hsel.lt _ (List.mem_map_of_mem (List.mem_of_mem_take (List.mem_reverse.mp hi)))
    exact ⟨_, List.getElem?_eq_getElem hlt,
      length_hotEntry_numberedTerms hwidth (List.getElem_mem hlt)⟩
  · obtain ⟨i, -, rfl⟩ := List.mem_map.mp ht
    exact (by decide : (123456789 : UInt32).toNat < 2 ^ 31)

theorem taken_numberedTerms {width : Nat} (hwidth : width ≤ 60) {buf : List SortItem}
    (hbuf : buf.length = 1000) {items : List SortItem}
    (hi : ∀ item ∈ items, item ∈ hotSlots (numberedTerms width) buf) :
    taken (numberedTerms width) items = items.length * (width + 14) := by
  have hall : ∀ n ∈ items.map fun item => ((termAt (numberedTerms width) item.appendix).map
      fun t => (hotEntry t).length).getD 0, n = width + 14 := fun n hn => by
    obtain ⟨item, hitem, rfl⟩ := List.mem_map.mp hn
    obtain ⟨t, ht, hlen⟩ := numberedTerms_slot hwidth hbuf item (hi item hitem)
    rw [ht]
    exact hlen
  rw [taken, List.eq_replicate_iff.mpr ⟨rfl, hall⟩, List.sum_replicate_nat, List.length_map]

/-- Entries of 19 bytes. -/
theorem repliesFit_short : RepliesFit (plainEnv fun _ => .error) (serving (numberedTerms 5)) := by
  refine (repliesFit_iff _ _).mpr ?_
  have hbuf : (List.replicate 1000 (⟨0, 0⟩ : SortItem)).length = 1000 := List.length_replicate
  simp only [serving]
  generalize List.replicate 1000 (⟨0, 0⟩ : SortItem) = buf at hbuf ⊢
  refine stopsInTime_of_le fun item hi => ?_
  obtain ⟨t, ht, hlen⟩ := numberedTerms_slot (by decide) hbuf item hi
  exact ⟨t, ht, by omega⟩

/-- 27 entries of 74 bytes are below the limit, and 28 beyond the buffer. -/
theorem hot_text_overflows : ¬ RepliesFit (plainEnv fun _ => .error) (serving (numberedTerms 60)) := by
  intro h
  have hbuf : (List.replicate 1000 (⟨0, 0⟩ : SortItem)).length = 1000 := List.length_replicate
  have hstop := (hotTexts_fit_iff _).mp h.hot
  simp only [serving] at hstop
  generalize List.replicate 1000 (⟨0, 0⟩ : SortItem) = buf at hbuf hstop
  have hslots : (hotSlots (numberedTerms 60) buf).length = 1000 := by
    rw [hotSlots, List.length_reverse, List.length_take, hotTerms_eq, length_pushAll, hbuf,
      Nat.min_self]
  have htaken := taken_numberedTerms (by decide) hbuf fun item hi =>
    List.mem_of_mem_take (hi : item ∈ (hotSlots (numberedTerms 60) buf).take 27)
  rw [List.length_take, hslots] at htaken
  have hget := List.getElem?_eq_getElem (show 27 < (hotSlots (numberedTerms 60) buf).length by omega)
  obtain ⟨t, ht, hover⟩ := hstop 27 _ hget (by omega)
  obtain ⟨t', ht', hlen⟩ := numberedTerms_slot (by decide) hbuf _ (List.mem_of_getElem? hget)
  obtain rfl : t = t' := Option.some.inj (ht.symm.trans ht')
  omega

end TextMining.WordNet.Server
