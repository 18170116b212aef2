import TextMining.WordNet.DumpIndex

/-!
# Reading the index

`LoadIndex` into empty containers, and the parts of it that the server's
loader repeats. They take `split`, the splitter that is linked, and `merge`,
what is done to a record on the way. The answer is `none` for -1, and where
the program would abort.
-/

namespace TextMining.WordNet

def countField (split : List UInt8 → Option (List (List UInt8))) (line : List UInt8) :
    Option (List UInt8) :=
  match split line with
  | some [_, value] => some value
  | _ => none

/-- The counts in `word_net.n`. `buf` holds a path before the first line is
read; `unset i` is what the `i`-th number is when no number can be read. -/
def loadTotal (split : List UInt8 → Option (List (List UInt8))) (unset : Nat → Nat)
    (buf file : List UInt8) : Option TotalIndexInfo := do
  let (buf, file) := fgets 256 buf file
  let termNum := readDecimal 32 (unset 0) (← countField split buf)
  let (buf, file) := fgets 256 buf file
  -- `relate_term_num` is read, but overwritten below
  let _ ← countField split buf
  let (buf, file) := fgets 256 buf file
  let sorted := readDecimal 32 (unset 2) (← countField split buf)
  let (buf, _) := fgets 256 buf file
  let weiboNum := readDecimal 64 (unset 3) (← countField split buf)
  some ⟨termNum % 2 ^ 32, UInt32.ofNat sorted, UInt32.ofNat sorted, UInt64.ofNat weiboNum⟩

def loadTermIndex (termNum : Nat) :
    Nat → HashMap UInt32 Nat → List UInt8 → List UInt8 → Option (HashMap UInt32 Nat)
  | 0, termIndex, _, _ => some termIndex
  | n + 1, termIndex, ind1, ind2 => do
    let (hashValue, ind1) ← readU32 ind1
    let (indexNum, ind2) ← readU32 ind2
    if indexNum.toNat ≥ termNum then none
    else loadTermIndex termNum n (termIndex.insertNew hashValue indexNum.toNat) ind1 ind2

def loadCooc (sorted : UInt32) :
    Nat → HashMap UInt32 Nat → List UInt8 → Option (HashMap UInt32 Nat × List UInt8)
  | 0, coocTerm, bytes => some (coocTerm, bytes)
  | n + 1, coocTerm, bytes => do
    let (hashValue, bytes) ← readU32 bytes
    let (indexNum, bytes) ← readU32 bytes
    if indexNum ≥ sorted then none
    else loadCooc sorted n (coocTerm.insertNew hashValue indexNum.toNat) bytes

def loadTerm (merge : TermInfo → TermInfo) (sorted : UInt32) (bytes : List UInt8) :
    Option (TermInfo × List UInt8) := do
  let (termstr, bytes) ← readItem 64 bytes
  let (dfHistory, bytes) ← readU32 bytes
  let (dfNow, bytes) ← readU32 bytes
  let (relateTermNum, bytes) ← readU32 bytes
  let (coocTerm, bytes) ← loadCooc sorted relateTermNum.toNat ∅ bytes
  some (merge ⟨cstr termstr, dfHistory, dfNow, relateTermNum, coocTerm⟩, bytes)

def loadTerms (merge : TermInfo → TermInfo) (sorted : UInt32) :
    Nat → List UInt8 → Option (List TermInfo)
  | 0, _ => some []
  | n + 1, bytes => do
    let (t, bytes) ← loadTerm merge sorted bytes
    let ts ← loadTerms merge sorted n bytes
    some (t :: ts)

def readRelate (bytes : List UInt8) : Option (RelateTermInfo × List UInt8) := do
  let (numHistory, bytes) ← readU32 bytes
  let (numNow, bytes) ← readU32 bytes
  let (relation, bytes) ← readU32 bytes
  some (⟨numHistory, numNow, relation⟩, bytes)

def loadRelates (merge : RelateTermInfo → RelateTermInfo) :
    Nat → List UInt8 → Option (List RelateTermInfo)
  | 0, _ => some []
  | n + 1, bytes => do
    let (r, bytes) ← readRelate bytes
    let rs ← loadRelates merge n bytes
    some (merge r :: rs)

/-- History and current count merged, "different from server". -/
def TermInfo.merge (t : TermInfo) : TermInfo :=
  { t with dfHistory := t.dfHistory + t.dfNow, dfNow := 0 }

def RelateTermInfo.merge (r : RelateTermInfo) : RelateTermInfo :=
  { r with numHistory := r.numHistory + r.numNow, numNow := 0 }

/-- `LoadIndex`, whose last `snprintf` leaves the path `relateInfo` in `buf`. -/
def loadIndex (unset : Nat → Nat) (relateInfo : List UInt8) (files : IndexFiles) :
    Option State := do
  let ind1 ← files.ind1
  let ind2 ← files.ind2
  let n ← files.n
  let terms ← files.termInfo
  let relates ← files.relateInfo
  let total ← loadTotal (StringTool.SpliteByChar npos · 58) unset (snprintf 100 relateInfo) n
  let mTermIndex ← loadTermIndex total.termNum total.termNum ∅ ind1 ind2
  let mTermInfo ← loadTerms .merge total.sortedRelateTermNum total.termNum terms
  let mRelateInfo ← loadRelates .merge total.sortedRelateTermNum.toNat relates
  some ⟨mTermIndex, mTermInfo, mRelateInfo, [], false, total⟩

theorem length_loadTerms {merge : TermInfo → TermInfo} {sorted : UInt32} {n : Nat}
    {bytes : List UInt8} {ts : List TermInfo} (h : loadTerms merge sorted n bytes = some ts) :
    ts.length = n := by
  induction n generalizing bytes ts with
  | zero =>
    obtain rfl := Option.some.inj h
    rfl
  | succ n ih =>
    simp only [loadTerms, Option.bind_eq_bind, Option.bind_eq_some_iff, Prod.exists,
      Option.some.injEq] at h
    obtain ⟨t, rest, -, ts', hts, rfl⟩ := h
    exact congrArg (· + 1) (ih hts)

-- ---------------------------------------------------------------------------
-- Numbering
-- ---------------------------------------------------------------------------

def numbered : Nat → List (Σ _ : UInt32, Nat) → List (Σ _ : UInt32, Nat)
  | _, [] => []
  | first, e :: order => ⟨e.1, first⟩ :: numbered (first + 1) order

def renumber (first : Nat) (order : List (Σ _ : UInt32, Nat)) : HashMap UInt32 Nat :=
  HashMap.insertAll ∅ (numbered first order)

section
variable (ord : Order)

def renumberTerms : Nat → Nat → List TermInfo → List TermInfo
  | _, _, [] => []
  | i, first, t :: ts =>
    { t with coocTerm := renumber first (ord.walk i t.coocTerm) } ::
      renumberTerms (i + 1) (first + t.coocTerm.size) ts

/-- The related terms of all terms in the order of the dump. -/
def walked : Nat → List TermInfo → List (Σ _ : UInt32, Nat)
  | _, [] => []
  | i, t :: ts => ord.walk i t.coocTerm ++ walked (i + 1) ts

theorem length_walk (i : Nat) (m : HashMap UInt32 Nat) : (ord.walk i m).length = m.size :=
  (ord.perm i m).length_eq

theorem length_renumberTerms (i first : Nat) (ts : List TermInfo) :
    (renumberTerms ord i first ts).length = ts.length := by
  induction ts generalizing i first with
  | nil => rfl
  | cons t ts ih => simp [renumberTerms, ih]

theorem walked_perm (i : Nat) (ts : List TermInfo) :
    ((walked ord i ts).map Sigma.snd).Perm (ts.flatMap fun t => t.coocTerm.values) := by
  induction ts generalizing i with
  | nil => exact .refl _
  | cons t ts ih =>
    simp only [walked, List.map_append, List.flatMap_cons]
    exact ((ord.perm i t.coocTerm).map Sigma.snd).append (ih (i + 1))

end

theorem length_numbered (first : Nat) (order : List (Σ _ : UInt32, Nat)) :
    (numbered first order).length = order.length := by
  induction order generalizing first with
  | nil => rfl
  | cons e order ih => simp [numbered, ih]

theorem numbered_lt {first : Nat} {order : List (Σ _ : UInt32, Nat)} {e : Σ _ : UInt32, Nat}
    (h : e ∈ numbered first order) : e.2 < first + order.length := by
  induction order generalizing first with
  | nil => cases h
  | cons e' order ih =>
    rw [List.length_cons]
    rcases List.mem_cons.mp h with rfl | h
    · exact Nat.lt_add_of_pos_right (Nat.succ_pos _)
    · have hlt := ih h
      omega

-- ---------------------------------------------------------------------------
-- What is written is read back
-- ---------------------------------------------------------------------------

theorem toNat_ofNat_of_lt {n : Nat} {bound : UInt32} (h : n < bound.toNat) :
    (UInt32.ofNat n).toNat = n :=
  UInt32.toNat_ofNat_of_lt' (h.trans bound.toNat_lt)

theorem loadTermIndex_write {termNum : Nat} {entries : List (Σ _ : UInt32, Nat)}
    (hlt : ∀ e ∈ entries, e.2 < termNum) (hnum : termNum < 2 ^ 32) (m : HashMap UInt32 Nat) :
    loadTermIndex termNum entries.length m (entries.flatMap fun e => writeU32 e.1)
      (entries.flatMap fun e => writeU32 (UInt32.ofNat e.2)) = some (m.insertAll entries) := by
  induction entries generalizing m with
  | nil => rfl
  | cons e entries ih =>
    have he : e.2 < termNum := hlt e (by simp)
    have hnat : (UInt32.ofNat e.2).toNat = e.2 := UInt32.toNat_ofNat_of_lt' (he.trans hnum)
    simp only [List.length_cons, List.flatMap_cons, loadTermIndex, readU32_write,
      Option.bind_eq_bind, Option.bind_some, hnat, ge_iff_le, if_neg (Nat.not_le.mpr he)]
    exact ih (fun e' he' => hlt e' (by simp [he'])) _

theorem loadCooc_write {sorted : UInt32} {entries : List (Σ _ : UInt32, Nat)}
    (hlt : ∀ e ∈ entries, e.2 < sorted.toNat) (m : HashMap UInt32 Nat) (rest : List UInt8) :
    loadCooc sorted entries.length m
      ((entries.flatMap fun e => writeU32 e.1 ++ writeU32 (UInt32.ofNat e.2)) ++ rest) =
      some (m.insertAll entries, rest) := by
  induction entries generalizing m with
  | nil => rfl
  | cons e entries ih =>
    have he : e.2 < sorted.toNat := hlt e (by simp)
    have hnat := toNat_ofNat_of_lt he
    have hle : ¬ UInt32.ofNat e.2 ≥ sorted := by
      rw [ge_iff_le, UInt32.le_iff_toNat_le, hnat]
      exact Nat.not_le.mpr he
    simp only [List.length_cons, List.flatMap_cons, List.append_assoc, loadCooc, readU32_write,
      Option.bind_eq_bind, Option.bind_some, hnat, if_neg hle]
    exact ih (fun e' he' => hlt e' (by simp [he'])) _

def TermInfo.Named (t : TermInfo) : Prop := t.termstr.length < 64 ∧ ∀ b ∈ t.termstr, b ≠ 0

theorem length_termArray (junk termstr : List UInt8) : (termArray junk termstr).length = 64 :=
  length_charArray 64 junk termstr

theorem cstr_termArray {t : TermInfo} (h : t.Named) (junk : List UInt8) :
    cstr (termArray junk t.termstr) = t.termstr :=
  cstr_charArray h.1 h.2 junk

theorem readRelate_bytes (r : RelateTermInfo) (rest : List UInt8) :
    readRelate (r.bytes ++ rest) = some (r, rest) := by
  simp [readRelate, RelateTermInfo.bytes, readU32_write]

theorem loadRelates_bytes (merge : RelateTermInfo → RelateTermInfo) (rs : List RelateTermInfo) :
    loadRelates merge rs.length (rs.flatMap RelateTermInfo.bytes) = some (rs.map merge) := by
  induction rs with
  | nil => rfl
  | cons r rs ih =>
    simp only [List.length_cons, List.flatMap_cons, loadRelates, readRelate_bytes,
      Option.bind_eq_bind, Option.bind_some, ih, List.map_cons]

section
variable {s : State}

theorem dumpCooc_eq (order : List (Σ _ : UInt32, Nat)) (first : Nat) :
    s.dumpCooc order (UInt32.ofNat first) =
      ((numbered first order).flatMap fun e => writeU32 e.1 ++ writeU32 (UInt32.ofNat e.2),
        order.flatMap fun e => (s.relate e.2).bytes, UInt32.ofNat (first + order.length)) := by
  induction order generalizing first with
  | nil => rfl
  | cons e order ih =>
    have hnext : UInt32.ofNat first + 1 = UInt32.ofNat (first + 1) :=
      (UInt32.ofNat_add first 1).symm
    simp only [State.dumpCooc, hnext, ih, numbered, List.flatMap_cons, List.length_cons,
      Nat.add_assoc, Nat.add_comm 1]

variable (ord : Order) (junk : Nat → List UInt8)

theorem dumpTerms_relates (i : Nat) (ts : List TermInfo) (first : Nat) :
    (s.dumpTerms ord junk i ts (UInt32.ofNat first)).2 =
      ((walked ord i ts).flatMap fun e => (s.relate e.2).bytes,
        UInt32.ofNat (first + (walked ord i ts).length)) := by
  induction ts generalizing i first with
  | nil => rfl
  | cons t ts ih =>
    simp only [State.dumpTerms, dumpCooc_eq, ih, walked, List.flatMap_append, List.length_append,
      Nat.add_assoc]

theorem loadTerms_dump (merge : TermInfo → TermInfo) {ts : List TermInfo}
    (hname : ∀ t ∈ ts, t.Named) (hnum : ∀ t ∈ ts, t.relateTermNum.toNat = t.coocTerm.size)
    {sorted : UInt32} (i first : Nat) (hle : first + (walked ord i ts).length ≤ sorted.toNat) :
    loadTerms merge sorted ts.length (s.dumpTerms ord junk i ts (UInt32.ofNat first)).1 =
      some ((renumberTerms ord i first ts).map merge) := by
  induction ts generalizing i first with
  | nil => rfl
  | cons t ts ih =>
    rw [walked, List.length_append, length_walk] at hle
    have hcooc : ∀ e ∈ numbered first (ord.walk i t.coocTerm), e.2 < sorted.toNat := fun e he => by
      have hlt := numbered_lt he
      rw [length_walk] at hlt
      omega
    have hrest := ih (fun t' ht' => hname t' (by simp [ht'])) (fun t' ht' => hnum t' (by simp [ht']))
      (i + 1) (first + t.coocTerm.size) (by omega)
    have hlen : t.relateTermNum.toNat = (numbered first (ord.walk i t.coocTerm)).length := by
      rw [length_numbered, length_walk]
      exact hnum t (by simp)
    simp only [List.length_cons, loadTerms, State.dumpTerms, dumpCooc_eq, length_walk, loadTerm,
      TermInfo.header, List.append_assoc, readItem_append (length_termArray _ _), readU32_write,
      Option.bind_eq_bind, Option.bind_some, hlen, loadCooc_write hcooc, hrest,
      cstr_termArray (hname t (by simp)), renumberTerms, List.map_cons]
    rfl

end

-- ---------------------------------------------------------------------------
-- The counts
-- ---------------------------------------------------------------------------

theorem not_mem_decimal {n : Nat} {b : UInt8} (hb : isDigit b = false) : b ∉ decimal n :=
  fun hm => by simp [isDigit_decimal n b hm] at hb

def CountName (name : List UInt8) : Prop := 10 ∉ name ∧ 0 ∉ name ∧ name.length ≤ 20

theorem CountName.line {name : List UInt8} (h : CountName name) (n : Nat) :
    10 ∉ name ++ decimal n ∧ 0 ∉ name ++ decimal n := by
  simp only [List.mem_append, not_or]
  exact ⟨⟨h.1, not_mem_decimal rfl⟩, h.2.1, not_mem_decimal rfl⟩

theorem fgets_count (name : List UInt8) (h : CountName name) {n : Nat} (hn : n < 2 ^ 32)
    (buf rest : List UInt8) :
    fgets 256 buf (name ++ (decimal n ++ 10 :: rest)) = (name ++ decimal n ++ [10], rest) := by
  obtain ⟨h10, h0⟩ := h.line n
  have hlen := length_decimal_le (k := 10) (by decide) (hn.trans (by decide))
  rw [← List.append_assoc]
  refine fgets_append h10 h0 ?_ buf rest
  rw [List.length_append]
  exact lt_of_le_of_lt (Nat.succ_le_succ (Nat.add_le_add h.2.2 hlen)) (by decide)

theorem fgets_weibo (name : List UInt8) (h : CountName name) {n : Nat} (hn : n < 2 ^ 64)
    (buf : List UInt8) : fgets 256 buf (name ++ decimal n) = (name ++ decimal n, []) := by
  obtain ⟨h10, h0⟩ := h.line n
  have hlen := length_decimal_le (k := 20) (by decide) (hn.trans (by decide))
  refine fgets_last h10 h0 (by simp [decimal_ne_nil]) ?_ buf
  rw [List.length_append]
  exact lt_of_le_of_lt (Nat.add_le_add h.2.2 hlen) (by decide)

theorem snprintf_text (total : TotalIndexInfo) : snprintf 128 total.text = total.text := by
  have hz : ∀ b ∈ total.text, b ≠ 0 := by
    have hd : ∀ n, (0 : UInt8) ∉ decimal n := fun n => not_mem_decimal rfl
    have h1 : (0 : UInt8) ∉ TextMining.text "total_term:" := by decide
    have h2 : (0 : UInt8) ∉ TextMining.text "\ntotal_relate_term:" := by decide
    have h3 : (0 : UInt8) ∉ TextMining.text "\nsorted_relate_term:" := by decide
    have h4 : (0 : UInt8) ∉ TextMining.text "\ntotal_weibo:" := by decide
    intro b hb he
    subst he
    simp [TotalIndexInfo.text, hd, h1, h2, h3, h4] at hb
  have hlen : total.text.length ≤ 127 := by
    have hu32 : ∀ n < 2 ^ 32, (decimal n).length ≤ 10 := fun n hn =>
      length_decimal_le (by decide) (hn.trans (by decide))
    have h1 := hu32 (total.termNum % 2 ^ 32) (Nat.mod_lt _ (by decide))
    have h2 := hu32 _ total.relateTermNum.toNat_lt
    have h3 := hu32 _ total.sortedRelateTermNum.toNat_lt
    have h4 : (decimal total.weiboNum.toNat).length ≤ 20 :=
      length_decimal_le (by decide) (total.weiboNum.toNat_lt.trans (by decide))
    have hn1 : (TextMining.text "total_term:").length = 11 := rfl
    have hn2 : (TextMining.text "\ntotal_relate_term:").length = 19 := rfl
    have hn3 : (TextMining.text "\nsorted_relate_term:").length = 20 := rfl
    have hn4 : (TextMining.text "\ntotal_weibo:").length = 13 := rfl
    simp only [TotalIndexInfo.text, List.length_append]
    omega
  rw [snprintf, cstr_of_ne_zero hz, List.take_of_length_le hlen]

/-- What a splitter must make of the lines of `word_net.n` that end in a
newline. -/
def SplitsCounts (split : List UInt8 → Option (List (List UInt8))) : Prop :=
  ∀ name, 58 ∉ name → name.length ≤ 20 → ∀ n < 2 ^ 32, ∃ value,
    countField split (name ++ 58 :: (decimal n ++ [10])) = some value ∧
      ∀ unset, readDecimal 32 unset value = n

theorem loadTotal_text {split : List UInt8 → Option (List (List UInt8))} (hs : SplitsCounts split)
    {total : TotalIndexInfo} {last : List UInt8}
    (hlast : countField split (text "total_weibo:" ++ decimal total.weiboNum.toNat) = some last)
    (unset : Nat → Nat) (buf : List UInt8) :
    loadTotal split unset buf (snprintf 128 total.text) = some
      ⟨total.termNum % 2 ^ 32, total.sortedRelateTermNum, total.sortedRelateTermNum,
        UInt64.ofNat (readDecimal 64 (unset 3) last)⟩ := by
  have htext : total.text =
      text "total_term:" ++ (decimal (total.termNum % 2 ^ 32) ++ 10 ::
        (text "total_relate_term:" ++ (decimal total.relateTermNum.toNat ++ 10 ::
          (text "sorted_relate_term:" ++ (decimal total.sortedRelateTermNum.toNat ++ 10 ::
            (text "total_weibo:" ++ decimal total.weiboNum.toNat)))))) := by
    have h2 : text "\ntotal_relate_term:" = 10 :: text "total_relate_term:" := by decide
    have h3 : text "\nsorted_relate_term:" = 10 :: text "sorted_relate_term:" := by decide
    have h4 : text "\ntotal_weibo:" = 10 :: text "total_weibo:" := by decide
    simp only [TotalIndexInfo.text, h2, h3, h4, List.append_assoc, List.cons_append]
  obtain ⟨v1, hv1, hr1⟩ := hs (text "total_term") (by decide) (by decide) _
    (Nat.mod_lt total.termNum (show 0 < 2 ^ 32 by decide))
  obtain ⟨v2, hv2, -⟩ := hs (text "total_relate_term") (by decide) (by decide) _
    total.relateTermNum.toNat_lt
  obtain ⟨v3, hv3, hr3⟩ := hs (text "sorted_relate_term") (by decide) (by decide) _
    total.sortedRelateTermNum.toNat_lt
  have hf1 := fgets_count (text "total_term:") ⟨by decide, by decide, by decide⟩
    (Nat.mod_lt total.termNum (show 0 < 2 ^ 32 by decide))
  have hf2 := fgets_count (text "total_relate_term:") ⟨by decide, by decide, by decide⟩
    total.relateTermNum.toNat_lt
  have hf3 := fgets_count (text "sorted_relate_term:") ⟨by decide, by decide, by decide⟩
    total.sortedRelateTermNum.toNat_lt
  have hf4 := fgets_weibo (text "total_weibo:") ⟨by decide, by decide, by decide⟩
    total.weiboNum.toNat_lt
  have hc1 : text "total_term:" = text "total_term" ++ [58] := by decide
  have hc2 : text "total_relate_term:" = text "total_relate_term" ++ [58] := by decide
  have hc3 : text "sorted_relate_term:" = text "sorted_relate_term" ++ [58] := by decide
  rw [snprintf_text, htext]
  simp only [loadTotal, hf1, hf2, hf3, hf4]
  simp only [List.append_assoc, hc1, hc2, hc3, List.cons_append, List.nil_append, hv1, hv2, hv3,
    hlast, Option.bind_eq_bind, Option.bind_some, hr1, hr3, Nat.mod_mod, UInt32.ofNat_toNat]

theorem splitsCounts_SpliteByChar : SplitsCounts (StringTool.SpliteByChar npos · 58) := by
  intro name hname hlen n hn
  have hd := length_decimal_le (k := 10) (by decide) (hn.trans (by decide))
  have hsplit : StringTool.SpliteByChar npos (name ++ 58 :: (decimal n ++ [10])) 58 = some _ :=
    StringTool.SpliteByChar_eq rfl (by simp) (by
      simp only [List.length_append, List.length_cons, List.length_nil]
      omega)
  have hvalue : (58 : UInt8) ∉ decimal n ++ [10] := by
    simp only [List.mem_append, not_or]
    exact ⟨not_mem_decimal rfl, by decide⟩
  refine ⟨decimal n ++ [10], ?_, fun unset => readDecimal_decimal hn unset ?_⟩
  · rw [countField, hsplit, StringTool.columns_append hname (by simp),
      StringTool.columns_of_not_mem hvalue]
  · intro b hb
    obtain rfl : b = 10 := by simpa using hb.symm
    rfl

theorem countField_weibo (n : Nat) (hn : n < 2 ^ 64) :
    countField (StringTool.SpliteByChar npos · 58) (text "total_weibo:" ++ decimal n) =
      some (decimal n) := by
  have hd := length_decimal_le (k := 20) (by decide) (hn.trans (by decide))
  have hc : text "total_weibo:" ++ decimal n = text "total_weibo" ++ 58 :: decimal n := by
    have hc : text "total_weibo:" = text "total_weibo" ++ [58] := by decide
    rw [hc, List.append_assoc]
    rfl
  have hname : (text "total_weibo").length = 11 := rfl
  have hsplit : StringTool.SpliteByChar npos (text "total_weibo" ++ 58 :: decimal n) 58 = some _ :=
    StringTool.SpliteByChar_eq rfl (by simp) (by
      simp only [List.length_append, List.length_cons, hname]
      omega)
  rw [hc, countField, hsplit, StringTool.columns_append (by decide) (decimal_ne_nil n),
    StringTool.columns_of_not_mem (not_mem_decimal rfl)]

end TextMining.WordNet
