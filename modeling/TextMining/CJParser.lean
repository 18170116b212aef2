import TextMining.Lib.OrdMap
import TextMining.StringTool

/-!
# Reading fields from a JSON text

`CJParser::ParseJson` looks for the fields in the order in which they were set,
each from the end of the value before it. The positions are `unsigned int` and
`npos` is the largest `size_t`; an access outside of the text answers `none`.
-/

namespace TextMining.CJParser

open StringTool

/-- `strJson[pos]`; at the end of the string there is a NUL. -/
def charAt (input : List UInt8) (pos : Nat) : Option UInt8 :=
  if pos = input.length then some 0 else input[pos]?

/-- The end of the value at `pos`, and whether the text goes on or ends there. -/
def valueEnd (npos : Nat) (strJson : List UInt8) (pos : Nat) : Nat × Bool :=
  let pos1 := u32 (findStr npos strJson (text ",\"") pos)
  if pos1 = npos then
    let pos1 := u32 (findStr npos strJson (text "\x7d") pos)
    (pos1, pos1 ≠ npos && pos1 = last npos strJson)
  else (pos1, true)

structure Progress where
  pos1 : Nat
  ret : Int
  mapJson : OrdMap (List UInt8) (List UInt8)

def Progress.unset (p : Progress) (field : List UInt8) : Progress :=
  { p with mapJson := p.mapJson.insert field [] }

def parseField (npos : Nat) (strJson : List UInt8) (p : Progress) (field : List UInt8) :
    Option Progress :=
  let fields := text "\"" ++ field ++ text "\":"
  let pos := u32 (findStr npos strJson fields p.pos1)
  if pos = npos then some (p.unset field)
  else
    let pos := u32 (pos + fields.length)
    if pos = npos then some (p.unset field)
    else
      let (pos1, found) := valueEnd npos strJson pos
      if !found then some ({ p with pos1 := pos1 }.unset field)
      else do
        let pos := if (← charAt strJson pos) = 34 then u32 (pos + 1) else pos
        let before := u32 (pos1 + 2 ^ 32 - 1)
        let pos1 := if (← charAt strJson before) = 34 then before else pos1
        let value ← substr strJson pos (u32 (pos1 + 2 ^ 32 - pos))
        some ⟨pos1, p.ret + 1, p.mapJson.insert field value⟩

/-- The number of fields found and the value of each field; the parser that
has no fields was not initialised. -/
def ParseJson (npos : Nat) (m_vecFields : List (List UInt8)) (strJson : List UInt8) :
    Option (Int × OrdMap (List UInt8) (List UInt8)) :=
  (m_vecFields.foldlM (parseField npos strJson) ⟨0, 0, .empty⟩).map fun p => (p.ret, p.mapJson)

section
variable {npos : Nat} {strJson : List UInt8}

theorem parseField_spec {p q : Progress} {field : List UInt8}
    (h : parseField npos strJson p field = some q) :
    (∃ value, q.mapJson = p.mapJson.insert field value) ∧ (q.ret = p.ret ∨ q.ret = p.ret + 1) := by
  simp only [parseField] at h
  split at h
  · cases h
    exact ⟨⟨[], rfl⟩, .inl rfl⟩
  · split at h
    · cases h
      exact ⟨⟨[], rfl⟩, .inl rfl⟩
    · split at h
      · cases h
        exact ⟨⟨[], rfl⟩, .inl rfl⟩
      · simp only [Option.bind_eq_bind, Option.bind_eq_some_iff] at h
        obtain ⟨_, -, _, -, value, -, h⟩ := h
        cases h
        exact ⟨⟨value, rfl⟩, .inr rfl⟩

theorem mem_parseFields {fields : List (List UInt8)} {p q : Progress}
    (h : fields.foldlM (parseField npos strJson) p = some q) (field : List UInt8) :
    field ∈ q.mapJson ↔ field ∈ p.mapJson ∨ field ∈ fields := by
  induction fields generalizing p with
  | nil =>
    cases h
    simp
  | cons f fields ih =>
    rw [List.foldlM_cons, Option.bind_eq_bind, Option.bind_eq_some_iff] at h
    obtain ⟨next, hstep, hrest⟩ := h
    obtain ⟨⟨value, hmap⟩, -⟩ := parseField_spec hstep
    rw [ih hrest, hmap, OrdMap.mem_insert, List.mem_cons, or_assoc, or_left_comm]

theorem mem_ParseJson {fields : List (List UInt8)} {ret : Int}
    {mapJson : OrdMap (List UInt8) (List UInt8)}
    (h : ParseJson npos fields strJson = some (ret, mapJson)) (field : List UInt8) :
    field ∈ mapJson ↔ field ∈ fields := by
  obtain ⟨p, hrun, he⟩ := Option.map_eq_some_iff.mp h
  cases he
  rw [mem_parseFields hrun, OrdMap.mem_def]
  exact or_iff_right (List.not_mem_nil (a := field))

end

end TextMining.CJParser
