import TextMining.Utf8

/-!
# Names in wide characters

The names that `segment_line` labels are UTF-8. Each of its lines is a character of the
name, which the UTF-8 library finds at the place the line was labelled for.
-/

namespace TextMining.CrfDataNoSeg

open Utf8

def places : Nat → List UInt32 → List (Nat × UInt32)
  | _, [] => []
  | off, ch :: cs =>
    if ch = 32 then places (off + (u8WcToutf8 ch).length) cs
    else (off, ch) :: places (off + (u8WcToutf8 ch).length) cs

section
variable {cs : List UInt32} {inTag : Nat → Bool} {wordBflag : Nat → Nat}

theorem map_snd_places (off : Nat) (cs : List UInt32) :
    (places off cs).map Prod.snd = cs.filter (· ≠ 32) := by
  induction cs generalizing off with
  | nil => rfl
  | cons ch cs ih =>
    rw [places]
    by_cases hch : ch = 32 <;> simp [hch, ih]

theorem mem_places {off : Nat} {e : Nat × UInt32} (h : e ∈ places off cs) :
    ∃ k, cs[k]? = some e.2 ∧ e.1 = off + (encode (cs.take k)).length := by
  induction cs generalizing off with
  | nil => cases h
  | cons ch cs ih =>
    have hrest : e ∈ places (off + (u8WcToutf8 ch).length) cs →
        ∃ k, (ch :: cs)[k]? = some e.2 ∧ e.1 = off + (encode ((ch :: cs).take k)).length := by
      intro h
      obtain ⟨k, hk, hoff⟩ := ih h
      exact ⟨k + 1, hk, by rw [hoff, List.take_succ_cons, encode_cons, List.length_append,
        Nat.add_assoc]⟩
    rw [places] at h
    by_cases hch : ch = 32
    · rw [if_pos hch] at h
      exact hrest h
    · rw [if_neg hch] at h
      rcases List.mem_cons.mp h with rfl | h
      · exact ⟨0, rfl, rfl⟩
      · exact hrest h

theorem first_eq_space {ch : UInt32} {b : UInt8} {rest : List UInt8}
    (hb : u8WcToutf8 ch = b :: rest) (h : Sequence ch b rest) : b = 32 ↔ ch = 32 := by
  constructor
  · rintro rfl
    exact UInt32.toNat_inj.mp (h.ascii (by decide))
  · rintro rfl
    exact (List.cons.inj hb).1.symm

theorem labelLoop_encode (hcs : Characters cs) {fuel curse : Nat} {bflag : Bool}
    (hfuel : (encode cs).length ≤ fuel) :
    ∃ ts, labelLoop inTag wordBflag fuel curse bflag (encode cs) = some ts ∧
      ts.map (fun t => (t.curse, t.buf)) =
        (places curse cs).map fun e => (e.1, u8WcToutf8 e.2) := by
  induction cs generalizing fuel curse bflag with
  | nil => exact ⟨[], by cases fuel <;> rfl, rfl⟩
  | cons ch cs ih =>
    obtain ⟨b, rest, hb, hseq, hch, -, hcs'⟩ := hcs.cons
    have hinc : u8Inc (b :: rest ++ encode cs) = rest.length + 1 := by
      refine hseq.u8Inc hch fun x hx => ?_
      have hhead := @head_encode cs [] hcs'
      cases henc : encode cs with
      | nil => rw [henc] at hx; cases hx
      | cons y ys => rw [henc] at hx hhead; exact hhead x hx
    have hdrop : (b :: rest ++ encode cs).drop (rest.length + 1) = encode cs := by simp
    have htake : (b :: rest ++ encode cs).take (rest.length + 1) = b :: rest := by simp
    rw [encode_cons, hb, List.length_append, List.length_cons] at hfuel
    cases fuel with
    | zero => omega
    | succ fuel =>
      have hstep := fun flag => @ih hcs' fuel (curse + (rest.length + 1)) flag (by omega)
      rw [encode_cons, hb, places, hb]
      rw [List.cons_append] at hinc hdrop htake ⊢
      rw [labelLoop]
      simp only [hinc, hdrop, htake, first_eq_space hb hseq, List.length_cons]
      by_cases hspace : ch = 32
      · rw [if_pos hspace, if_pos hspace]
        exact hstep bflag
      · rw [if_neg hspace, if_neg hspace]
        by_cases htag : inTag curse = true
        · obtain ⟨ts, hts, hmap⟩ := hstep false
          rw [if_pos htag, hts]
          exact ⟨_, rfl, by rw [List.map_cons, hmap, List.map_cons, hb]⟩
        · obtain ⟨ts, hts, hmap⟩ := hstep true
          rw [if_neg htag, hts]
          exact ⟨_, rfl, by rw [List.map_cons, hmap, List.map_cons, hb]⟩

/-- The lines for a name: the characters that are no spaces, one to a line and in their
order, each at its own place of the name. -/
theorem labelLoop_wide (hcs : Characters cs) (inTag : Nat → Bool) (wordBflag : Nat → Nat) :
    ∃ ts, labelLoop inTag wordBflag (encode cs).length 0 true (encode cs) = some ts ∧
      ts.map (fun t => u8Toucs .bytes 1 t.buf) = (cs.filter (· ≠ 32)).map (fun ch => [ch]) ∧
      ∀ t ∈ ts, ∃ ch, cs[u8Charnum (encode cs ++ [0]) t.curse]? = some ch ∧
        t.buf = u8WcToutf8 ch ∧ (u8Nextchar ((encode cs ++ [0]).drop t.curse)).1 = ch := by
  obtain ⟨ts, hts, hmap⟩ := @labelLoop_encode cs inTag wordBflag hcs _ 0 true (Nat.le_refl _)
  refine ⟨ts, hts, ?_, fun t ht => ?_⟩
  · have hread : ∀ ch ∈ cs.filter (· ≠ 32), u8Toucs .bytes 1 (u8WcToutf8 ch) = [ch] := by
      intro ch hch
      have hlt := (hcs ch (List.mem_of_mem_filter hch)).2
      have h := u8Toucs_encode 1 [ch]
      rw [encode_cons, encode_nil, List.append_nil] at h
      rw [h, List.filter_cons_of_pos (by simpa using hlt)]
      rfl
    have hbufs : ts.map Token.buf = (cs.filter (· ≠ 32)).map u8WcToutf8 := by
      have := congrArg (List.map Prod.snd) hmap
      rw [List.map_map, List.map_map] at this
      rw [← map_snd_places 0 cs, List.map_map]
      exact this
    rw [← List.map_congr_left hread]
    have := congrArg (List.map (u8Toucs .bytes 1)) hbufs
    rwa [List.map_map, List.map_map] at this
  · have hmem : (t.curse, t.buf) ∈ (places 0 cs).map fun e => (e.1, u8WcToutf8 e.2) :=
      hmap ▸ List.mem_map_of_mem ht
    obtain ⟨e, he, heq⟩ := List.mem_map.mp hmem
    obtain ⟨hcurse, hbuf⟩ := Prod.mk.inj heq
    obtain ⟨k, hk, hoff⟩ := mem_places he
    obtain ⟨hlt, -⟩ := List.getElem?_eq_some_iff.mp hk
    rw [Nat.zero_add, hcurse] at hoff
    refine ⟨e.2, ?_, hbuf.symm, ?_⟩
    · rw [hoff, u8Charnum_encode hcs, Nat.min_eq_left (Nat.le_of_lt hlt)]
      exact hk
    · rw [hoff, (u8Nextchar_encode hcs hk).1]

end

/-- A letter, a space and U+4E2D. -/
theorem labelLoop_wide_three :
    ∃ ts, labelLoop (fun _ => true) (fun _ => 0) 5 0 true (encode [0x41, 32, 0x4E2D]) = some ts ∧
      ts.map (fun t => u8Toucs .bytes 1 t.buf) = [[0x41], [0x4E2D]] := by
  have hcs : Characters [0x41, 32, 0x4E2D] := by
    intro ch hch
    simp only [List.mem_cons, List.not_mem_nil, or_false] at hch
    rcases hch with rfl | rfl | rfl <;> decide
  obtain ⟨ts, hts, hread, -⟩ := labelLoop_wide hcs (fun _ => true) fun _ => 0
  exact ⟨ts, hts, hread⟩

end TextMining.CrfDataNoSeg
