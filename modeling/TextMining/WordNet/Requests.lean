import TextMining.WordNet.HotTerms

/-!
# Requests one after the other

`DoWork` keeps `query_type` and `content` from request to request, as nothing
calls `InitWorkData`. A request is answered as by a fresh worker when it has
both fields, or fails before they are looked at.
-/

namespace TextMining.WordNet.Server

-- ---------------------------------------------------------------------------
-- Runs
-- ---------------------------------------------------------------------------

def freshWorker (ptext : JsonText) (global : GlobalData) : WorkerState :=
  ⟨⟨ptext, none, none⟩, global⟩

section
variable (env : Env)

/-- The replies of a worker; `none` is the last one, where the worker ends. -/
def serve : WorkerState → List (List UInt8) → List (Option Reply)
  | _, [] => []
  | s, request :: requests =>
    match doWork env s request with
    | none => [none]
    | some (reply, s) => some reply :: serve s requests

def alone (s₀ : WorkerState) (request : List UInt8) : Option Reply :=
  (doWork env s₀ request).map Prod.fst

/-- The request is an object without a "content" or without a "qt" pair. -/
def Lacks (request : List UInt8) : Prop :=
  ∃ pairs, env.parseJson request = .pairArray pairs ∧
    (text "content" ∉ pairs.map Prod.fst ∨ text "qt" ∉ pairs.map Prod.fst)

/-- A request is answered as alone, and with the error code if it lacks a
field. -/
def Answered (s₀ : WorkerState) (reply : Option Reply) (request : List UInt8) : Prop :=
  reply = alone env s₀ request ∧ (Lacks env request → reply = some ⟨1, none⟩)

def Isolated (s₀ s : WorkerState) (requests : List (List UInt8)) : Prop :=
  ∀ (i : Nat) (reply : Option Reply), (serve env s requests)[i]? = some reply →
    ∃ request, requests[i]? = some request ∧ Answered env s₀ reply request

end

-- ---------------------------------------------------------------------------
-- What a request sets
-- ---------------------------------------------------------------------------

def values (key : List UInt8) (pairs : List (List UInt8 × Option (List UInt8))) :
    List (List UInt8) :=
  pairs.filterMap fun p => if p.1 = key then p.2 else none

/-- Neither field has a value that is not a string. -/
def Readable (pairs : List (List UInt8 × Option (List UInt8))) : Prop :=
  ∀ p ∈ pairs, p.1 = text "qt" ∨ p.1 = text "content" → p.2 ≠ none

theorem getLast?_cons_or {α : Type} (x : α) (l : List α) :
    (x :: l).getLast? = l.getLast?.or (some x) := by
  rw [List.getLast?_cons]
  cases l.getLast? <;> rfl

theorem parsePairs_of_readable {pairs : List (List UInt8 × Option (List UInt8))}
    (h : Readable pairs) (work : WorkData) : parsePairs pairs work = (true, { work with
      queryType := (values (text "qt") pairs).getLast?.or work.queryType
      content := (values (text "content") pairs).getLast?.or work.content }) := by
  induction pairs generalizing work with
  | nil => rfl
  | cons p pairs ih =>
    obtain ⟨key, value⟩ := p
    have ih := ih (fun p hp => h p (List.mem_cons_of_mem _ hp))
    have hp := h (key, value) List.mem_cons_self
    unfold parsePairs
    split
    · rename_i hq
      have hc : key ≠ text "content" := by
        rw [hq]
        decide
      cases value with
      | none => exact absurd rfl (hp (.inl hq))
      | some str =>
        simp only [ih, values, List.filterMap_cons, hq, if_true, getLast?_cons_or, Option.or_assoc,
          Option.some_or]
        rw [if_neg (hq ▸ hc)]
    · rename_i hq
      split
      · rename_i hc
        cases value with
        | none => exact absurd rfl (hp (.inr hc))
        | some str =>
          simp only [ih, values, List.filterMap_cons, hc, if_true, getLast?_cons_or,
            Option.or_assoc, Option.some_or]
          rw [if_neg (hc ▸ hq)]
      · rename_i hc
        simp only [ih, values, List.filterMap_cons, hq, hc, if_false]

theorem parsePairs_of_not_readable {pairs : List (List UInt8 × Option (List UInt8))}
    (h : ¬ Readable pairs) (work : WorkData) : (parsePairs pairs work).1 = false := by
  induction pairs generalizing work with
  | nil => exact absurd (fun p hp => absurd hp List.not_mem_nil) h
  | cons p pairs ih =>
    obtain ⟨key, value⟩ := p
    have hrest : (key = text "qt" ∨ key = text "content" → value ≠ none) → ¬ Readable pairs := by
      intro hp hr
      refine h fun q hq => ?_
      rcases List.mem_cons.mp hq with rfl | hq
      · exact hp
      · exact hr q hq
    unfold parsePairs
    split
    · cases value with
      | none => rfl
      | some str => exact ih (hrest fun _ => by simp) _
    · rename_i hq
      split
      · cases value with
        | none => rfl
        | some str => exact ih (hrest fun _ => by simp) _
      · rename_i hc
        exact ih (hrest fun hk => absurd hk (not_or.mpr ⟨hq, hc⟩)) _

theorem values_eq_nil {key : List UInt8} {pairs : List (List UInt8 × Option (List UInt8))}
    (h : key ∉ pairs.map Prod.fst) : values key pairs = [] := by
  refine List.filterMap_eq_nil_iff.mpr fun p hp => if_neg fun he => h ?_
  exact List.mem_map.mpr ⟨p, hp, he⟩

-- ---------------------------------------------------------------------------
-- The global data
-- ---------------------------------------------------------------------------

/-- `AddPairValue` extends the text and looks at nothing else in the buffer. -/
def AppendsText (env : Env) : Prop :=
  ∀ t t' key value, JsonText.current t = JsonText.current t' →
    (env.addPairValue t key value).current = (env.addPairValue t' key value).current

/-- The map as it was loaded, with the keys that `operator[]` has inserted. -/
def Defaulted (m₀ m : HashMap UInt32 Nat) : Prop :=
  ∀ key, m.lookup key = m₀.lookup key ∨ (m₀.lookup key = none ∧ m.lookup key = some 0)

theorem Defaulted.refl (m : HashMap UInt32 Nat) : Defaulted m m := fun _ => .inl rfl

theorem Defaulted.insertNew {m₀ m : HashMap UInt32 Nat} (h : Defaulted m₀ m) (key : UInt32) :
    Defaulted m₀ (m.insertNew key 0) := by
  intro k
  rw [HashMap.insertNew]
  split
  · exact h k
  · rename_i hkey
    by_cases hk : k = key
    · subst hk
      have hnone := AList.lookup_eq_none.mpr hkey
      refine .inr ⟨?_, AList.lookup_insert m⟩
      rcases h k with he | ⟨-, he⟩
      · exact he ▸ hnone
      · cases hnone.symm.trans he
    · rw [AList.lookup_insert_ne hk]
      exact h k

theorem getD_insertNew (m : HashMap UInt32 Nat) (key k : UInt32) :
    ((m.insertNew key 0).lookup k).getD 0 = (m.lookup k).getD 0 := by
  rcases (Defaulted.refl m).insertNew key k with he | ⟨hnone, he⟩
  · rw [he]
  · rw [he, hnone]
    rfl

theorem Defaulted.getD {m₀ m : HashMap UInt32 Nat} (h : Defaulted m₀ m) (key : UInt32) :
    (m.lookup key).getD 0 = (m₀.lookup key).getD 0 := by
  rcases h key with he | ⟨hnone, he⟩
  · rw [he]
  · rw [he, hnone]
    rfl

/-- The global data as they were loaded, but for the traces of requests. -/
structure Like (g₀ g : GlobalData) : Prop where
  total : g.totalIndexInfo = g₀.totalIndexInfo
  termInfo : g.termInfo = g₀.termInfo
  fileMmap : g.fileMmap = g₀.fileMmap
  termIndex : Defaulted g₀.termIndex g.termIndex
  bufLength : g.hotTermBuf.length = 1000
  hotTerms : hotTerms g₀.termInfo g.hotTermBuf = hotTerms g₀.termInfo g₀.hotTermBuf

theorem Like.refl {g : GlobalData} (h : g.hotTermBuf.length = 1000) : Like g g :=
  ⟨rfl, rfl, rfl, .refl _, h, rfl⟩

theorem Like.setHotTerms {g₀ g : GlobalData} (h : Like g₀ g) :
    Like g₀ { g with hotTermBuf := Server.hotTerms g.termInfo g.hotTermBuf } where
  total := h.total
  termInfo := h.termInfo
  fileMmap := h.fileMmap
  termIndex := h.termIndex
  bufLength := by
    rw [hotTerms_eq, length_pushAll]
    exact h.bufLength
  hotTerms := by
    simp only [h.termInfo, hotTerms_eq, pushAll_pushAll (K := 1000) (by decide) h.bufLength]
    exact h.hotTerms

-- ---------------------------------------------------------------------------
-- The answers
-- ---------------------------------------------------------------------------

section
variable {env : Env}

theorem coocTerms_like (env : Env) {g₀ g : GlobalData} (h : Like g₀ g) (order : List (Σ _ : UInt32, Nat))
    {m₀ m : HashMap UInt32 Nat} (hm : ∀ key, (m.lookup key).getD 0 = (m₀.lookup key).getD 0)
    (found : List (List UInt8 × UInt32)) :
    (coocTerms env g order m found).map Prod.snd =
      (coocTerms env g₀ order m₀ found).map Prod.snd := by
  induction order generalizing m₀ m found with
  | nil => rfl
  | cons e order ih =>
    have hins : ∀ key, ((m.insertNew e.1 0).lookup key).getD 0 =
        ((m₀.insertNew e.1 0).lookup key).getD 0 := by
      intro key
      rw [getD_insertNew, getD_insertNew, hm]
    unfold coocTerms
    simp only [hins, h.termInfo, h.total, h.fileMmap]
    cases g₀.termInfo[((m₀.insertNew e.1 0).lookup e.1).getD 0]? with
    | none => rfl
    | some related =>
      simp only
      split
      · cases relateInfoOf g₀.fileMmap e with
        | none => rfl
        | some r => exact ih hins _
      · rfl

theorem coocTerms_defaulted {g : GlobalData} {m₀ : HashMap UInt32 Nat}
    {order : List (Σ _ : UInt32, Nat)} {m m' : HashMap UInt32 Nat}
    {found : List (List UInt8 × UInt32)} {r : Option (List (List UInt8 × UInt32))}
    (hm : Defaulted m₀ m) (hr : coocTerms env g order m found = some (m', r)) : Defaulted m₀ m' := by
  induction order generalizing m found with
  | nil =>
    obtain ⟨rfl, -⟩ := Prod.mk.inj (Option.some.inj hr)
    exact hm
  | cons e order ih =>
    have hins := hm.insertNew e.1
    unfold coocTerms at hr
    simp only at hr
    split at hr
    · cases hr
    · split at hr
      · split at hr
        · cases hr
        · exact ih hins hr
      · obtain ⟨rfl, -⟩ := Prod.mk.inj (Option.some.inj hr)
        exact hins

theorem getHotTerm_like (ha : AppendsText env) {s₀ s : WorkerState}
    (h : Like s₀.global s.global) :
    (getHotTerm env s).map Prod.fst = (getHotTerm env s₀).map Prod.fst := by
  have htext : ∀ buf, answer (env.addPairValue { s.work.ptext with curLen := 0 } (text "hot_term") buf) =
      answer (env.addPairValue { s₀.work.ptext with curLen := 0 } (text "hot_term") buf) :=
    fun buf => congrArg some (ha _ _ _ _ rfl)
  unfold getHotTerm
  simp only [h.termInfo, h.hotTerms, htext]
  split <;> rfl

theorem getCoocTerm_like (ha : AppendsText env) {s₀ s : WorkerState}
    (h : Like s₀.global s.global) {content : List UInt8}
    (hl : s.global.termIndex.lookup (env.hashlittle content) =
      s₀.global.termIndex.lookup (env.hashlittle content)) :
    (getCoocTerm env content s).map Prod.fst = (getCoocTerm env content s₀).map Prod.fst := by
  have hstart : JsonText.current { s.work.ptext with curLen := 0 } =
      JsonText.current { s₀.work.ptext with curLen := 0 } := rfl
  unfold getCoocTerm
  rw [hl, h.termInfo]
  cases s₀.global.termIndex.lookup (env.hashlittle content) with
  | none => exact congrArg (fun t => some (some t)) (ha _ _ _ _ hstart)
  | some index =>
    simp only
    cases s₀.global.termInfo[index]? with
    | none => rfl
    | some info =>
      have hfound := coocTerms_like env h (env.ord.walk index info.coocTerm)
        h.termIndex.getD []
      have hdf := ha _ _ (text "df") (decimalInt info.dfNow.toInt32.toInt)
        (ha _ _ (text "term") info.termstr hstart)
      simp only
      cases hs : coocTerms env s.global (env.ord.walk index info.coocTerm) s.global.termIndex [] with
      | none =>
        rw [hs, Option.map_none, eq_comm, Option.map_eq_none_iff] at hfound
        rw [hfound]
      | some r =>
        rw [hs, Option.map_some, eq_comm, Option.map_eq_some_iff] at hfound
        obtain ⟨r₀, hs₀, hr⟩ := hfound
        obtain ⟨m, found⟩ := r
        obtain ⟨m₀, found₀⟩ := r₀
        obtain rfl : found₀ = found := hr
        rw [hs₀]
        cases found₀ with
        | none => rfl
        | some found => exact congrArg (fun t => some (some t)) (ha _ _ _ _ hdf)

theorem Like.afterHotTerm {g₀ : GlobalData} {s s' : WorkerState} (h : Like g₀ s.global)
    {r : Option (List UInt8)} (hr : getHotTerm env s = some (r, s')) : Like g₀ s'.global := by
  unfold getHotTerm at hr
  simp only at hr
  split at hr
  · cases hr
  · obtain ⟨-, rfl⟩ := Prod.mk.inj (Option.some.inj hr)
    exact h.setHotTerms

theorem Like.afterCoocTerm {g₀ : GlobalData} {s s' : WorkerState} (h : Like g₀ s.global)
    {content : List UInt8} {r : Option (List UInt8)}
    (hr : getCoocTerm env content s = some (r, s')) : Like g₀ s'.global := by
  unfold getCoocTerm at hr
  simp only at hr
  split at hr
  · obtain ⟨-, rfl⟩ := Prod.mk.inj (Option.some.inj hr)
    exact h
  · split at hr
    · cases hr
    · split at hr
      · cases hr
      · rename_i termIndex found hfound
        have hglobal : Like g₀ { s.global with termIndex } :=
          { h with termIndex := coocTerms_defaulted h.termIndex hfound }
        cases found with
        | none =>
          obtain ⟨-, rfl⟩ := Prod.mk.inj (Option.some.inj hr)
          exact hglobal
        | some found =>
          obtain ⟨-, rfl⟩ := Prod.mk.inj (Option.some.inj hr)
          exact hglobal

theorem genJsonResult_like (ha : AppendsText env) {s₀ s : WorkerState}
    (h : Like s₀.global s.global) {queryType content : List UInt8}
    (hl : atoi queryType = 1 → s.global.termIndex.lookup (env.hashlittle content) =
      s₀.global.termIndex.lookup (env.hashlittle content)) :
    (genJsonResult env queryType content s).map Prod.fst =
      (genJsonResult env queryType content s₀).map Prod.fst := by
  unfold genJsonResult
  split
  · exact getHotTerm_like ha h
  · split
    · rename_i hone
      exact getCoocTerm_like ha h (hl hone)
    · rfl

theorem Like.afterResult {g₀ : GlobalData} {s s' : WorkerState}
    (h : Like g₀ s.global) {queryType content : List UInt8} {r : Option (List UInt8)}
    (hr : genJsonResult env queryType content s = some (r, s')) : Like g₀ s'.global := by
  unfold genJsonResult at hr
  split at hr
  · exact h.afterHotTerm hr
  · split at hr
    · exact h.afterCoocTerm hr
    · obtain ⟨-, rfl⟩ := Prod.mk.inj (Option.some.inj hr)
      exact h

-- ---------------------------------------------------------------------------
-- One request
-- ---------------------------------------------------------------------------

theorem Like.afterWork {g₀ : GlobalData} {s s' : WorkerState}
    (h : Like g₀ s.global) {request : List UInt8} {reply : Reply}
    (hr : doWork env s request = some (reply, s')) : Like g₀ s'.global := by
  unfold doWork at hr
  simp only at hr
  split at hr
  · split at hr
    · cases hr
    · split at hr
      · cases hr
      · rename_i hresult
        obtain ⟨-, rfl⟩ := Prod.mk.inj (Option.some.inj hr)
        exact Like.afterResult (by exact h) hresult
  · obtain ⟨-, rfl⟩ := Prod.mk.inj (Option.some.inj hr)
    exact h

/-- The request is rejected by the parser, or it has both fields and does not
ask for a key that an earlier request has inserted, or it has no content and
no earlier request had one. -/
def Complete (env : Env) (s₀ s : WorkerState) (request : List UInt8) : Prop :=
  ∀ pairs, env.parseJson request = .pairArray pairs → Readable pairs →
    (∃ queryType content, (values (text "qt") pairs).getLast? = some queryType ∧
      (values (text "content") pairs).getLast? = some content ∧
      (atoi queryType = 1 → s.global.termIndex.lookup (env.hashlittle content) =
        s₀.global.termIndex.lookup (env.hashlittle content))) ∨
    (text "content" ∉ pairs.map Prod.fst ∧ s.work.content = none)

theorem doWork_of_both {pairs : List (List UInt8 × Option (List UInt8))} {request : List UInt8}
    {queryType content : List UInt8} (hp : env.parseJson request = .pairArray pairs)
    (hr : Readable pairs) (hq : (values (text "qt") pairs).getLast? = some queryType)
    (hc : (values (text "content") pairs).getLast? = some content) (s : WorkerState) :
    (doWork env s request).map Prod.fst = (genJsonResult env queryType content
      { s with work := { s.work with queryType := queryType, content := content } }).map
        fun r => ⟨0, r.1⟩ := by
  unfold doWork
  rw [hp, parseJsonInput, parsePairs_of_readable hr, hq, hc]
  simp only [Option.some_or]
  split <;> rename_i heq <;> rw [heq] <;> rfl

theorem doWork_of_neither {pairs : List (List UInt8 × Option (List UInt8))} {request : List UInt8}
    (hp : env.parseJson request = .pairArray pairs) (hr : Readable pairs)
    (hc : text "content" ∉ pairs.map Prod.fst) {s : WorkerState} (hs : s.work.content = none) :
    (doWork env s request).map Prod.fst = some ⟨1, none⟩ := by
  unfold doWork
  rw [hp, parseJsonInput, parsePairs_of_readable hr, values_eq_nil hc, hs]
  rfl

theorem doWork_of_rejected {request : List UInt8} {s : WorkerState}
    (h : (parseJsonInput (env.parseJson request) s.work).1 = false) :
    (doWork env s request).map Prod.fst = some ⟨1, none⟩ := by
  unfold doWork
  simp only [h]
  rfl

theorem rejected_iff (request : List UInt8) (work : WorkData) :
    (parseJsonInput (env.parseJson request) work).1 = false ↔
      ∀ pairs, env.parseJson request = .pairArray pairs → ¬ Readable pairs := by
  cases env.parseJson request with
  | error => simp [parseJsonInput]
  | otherRoot => simp [parseJsonInput]
  | pairArray pairs =>
    rw [parseJsonInput]
    constructor
    · rintro h _ ⟨⟩ hr
      rw [parsePairs_of_readable hr] at h
      cases h
    · intro h
      exact parsePairs_of_not_readable (h pairs rfl) work

theorem mem_keys_of_getLast? {key value : List UInt8}
    {pairs : List (List UInt8 × Option (List UInt8))}
    (h : (values key pairs).getLast? = some value) : key ∈ pairs.map Prod.fst := by
  by_contra hn
  rw [values_eq_nil hn] at h
  cases h

/-- The step: a complete request is answered as by the fresh worker. -/
theorem answered_of_complete (ha : AppendsText env) {ptext : JsonText} {global : GlobalData}
    {s : WorkerState} (h : Like global s.global) {request : List UInt8}
    (hc : Complete env (freshWorker ptext global) s request) :
    Answered env (freshWorker ptext global) ((doWork env s request).map Prod.fst) request := by
  by_cases hrej : ∀ pairs, env.parseJson request = .pairArray pairs → ¬ Readable pairs
  · have herr : ∀ s, (doWork env s request).map Prod.fst = some ⟨1, none⟩ := fun s =>
      doWork_of_rejected ((rejected_iff request s.work).mpr hrej)
    exact ⟨(herr s).trans (herr _).symm, fun _ => herr s⟩
  · push Not at hrej
    obtain ⟨pairs, hp, hr⟩ := hrej
    rcases hc pairs hp hr with ⟨queryType, content, hq, hcon, hl⟩ | ⟨hcon, hs⟩
    · constructor
      · rw [alone, doWork_of_both hp hr hq hcon, doWork_of_both hp hr hq hcon]
        have hf : (fun r : Option (List UInt8) × WorkerState => (⟨0, r.1⟩ : Reply)) =
            (fun r => ⟨0, r⟩) ∘ Prod.fst := rfl
        rw [hf, ← Option.map_map, ← Option.map_map]
        exact congrArg _ (genJsonResult_like ha h hl)
      · rintro ⟨pairs', hp', hlack⟩
        obtain rfl : pairs = pairs' := by
          rw [hp] at hp'
          exact Json.pairArray.inj hp'
        rcases hlack with hlack | hlack
        · exact absurd (mem_keys_of_getLast? hcon) hlack
        · exact absurd (mem_keys_of_getLast? hq) hlack
    · have herr := doWork_of_neither hp hr hcon hs
      exact ⟨herr.trans (doWork_of_neither hp hr hcon rfl).symm, fun _ => herr⟩

end

-- ---------------------------------------------------------------------------
-- Runs of complete requests
-- ---------------------------------------------------------------------------

/-- Each request is complete where the worker comes to it. -/
def AllComplete (env : Env) (s₀ : WorkerState) : WorkerState → List (List UInt8) → Prop
  | _, [] => True
  | s, request :: requests => Complete env s₀ s request ∧
    ∀ reply s', doWork env s request = some (reply, s') → AllComplete env s₀ s' requests

theorem isolated_of_like {env : Env} (ha : AppendsText env) {ptext : JsonText} {global : GlobalData}
    {requests : List (List UInt8)} {s : WorkerState} (h : Like global s.global)
    (hc : AllComplete env (freshWorker ptext global) s requests) :
    Isolated env (freshWorker ptext global) s requests := by
  induction requests generalizing s with
  | nil => exact fun i reply hi => by simp [serve] at hi
  | cons request requests ih =>
    have hfirst := answered_of_complete ha h hc.1
    intro i reply hi
    unfold serve at hi
    cases hw : doWork env s request with
    | none =>
      rw [hw] at hi hfirst
      cases i with
      | zero =>
        obtain rfl := Option.some.inj hi
        exact ⟨request, rfl, hfirst⟩
      | succ i => simp at hi
    | some r =>
      obtain ⟨reply', s'⟩ := r
      rw [hw] at hi hfirst
      cases i with
      | zero =>
        obtain rfl := Option.some.inj hi
        exact ⟨request, rfl, hfirst⟩
      | succ i => exact ih (h.afterWork hw) (hc.2 reply' s' hw) i reply hi

/-- In a run of complete requests every request is answered as by a freshly
created worker. -/
theorem isolated_of_complete {env : Env} (ha : AppendsText env) (ptext : JsonText)
    (global : GlobalData) (hbuf : global.hotTermBuf.length = 1000) (requests : List (List UInt8))
    (hc : AllComplete env (freshWorker ptext global) (freshWorker ptext global) requests) :
    Isolated env (freshWorker ptext global) (freshWorker ptext global) requests :=
  isolated_of_like ha (.refl hbuf) hc

/-- The request has both fields, and asks for a term that was loaded. -/
def AsksLoaded (env : Env) (g : GlobalData) (request : List UInt8) : Prop :=
  ∀ pairs, env.parseJson request = .pairArray pairs → ∃ queryType content,
    (values (text "qt") pairs).getLast? = some queryType ∧
      (values (text "content") pairs).getLast? = some content ∧
      (atoi queryType = 1 → env.hashlittle content ∈ g.termIndex)

/-- What was loaded for a key stays, so such requests are complete in any run. -/
theorem allComplete_of_loaded {env : Env} {s₀ s : WorkerState} (h : Like s₀.global s.global)
    {requests : List (List UInt8)} (hr : ∀ request ∈ requests, AsksLoaded env s₀.global request) :
    AllComplete env s₀ s requests := by
  induction requests generalizing s with
  | nil => trivial
  | cons request requests ih =>
    obtain ⟨hfirst, hr⟩ := List.forall_mem_cons.mp hr
    refine ⟨fun pairs hp _ => ?_, fun reply s' hw => ih (h.afterWork hw) hr⟩
    obtain ⟨queryType, content, hq, hc, hkey⟩ := hfirst pairs hp
    refine .inl ⟨queryType, content, hq, hc, fun hone => ?_⟩
    rcases h.termIndex (env.hashlittle content) with he | ⟨hnone, -⟩
    · exact he
    · exact absurd (hkey hone) (AList.lookup_eq_none.mp hnone)

def requestBoth : List UInt8 := text "\x7b\"qt\":\"1\",\"content\":\"a\"\x7d"

def requestQt : List UInt8 := text "\x7b\"qt\":\"1\"\x7d"

def requestHot : List UInt8 := text "\x7b\"qt\":\"0\",\"content\":\"b\"\x7d"

def parseThree (request : List UInt8) : Json :=
  if request = requestBoth then
    .pairArray [(text "qt", some (text "1")), (text "content", some (text "a"))]
  else if request = requestQt then .pairArray [(text "qt", some (text "1"))]
  else if request = requestHot then
    .pairArray [(text "qt", some (text "0")), (text "content", some (text "b"))]
  else .error

theorem appendsText_plainEnv (parseJson : List UInt8 → Json) : AppendsText (plainEnv parseJson) := by
  intro t t' key value h
  simp only [plainEnv, h]

def termsAB : GlobalData where
  totalIndexInfo := ⟨2, 2, 2, 10⟩
  termIndex := ((∅ : HashMap UInt32 Nat).insert (JenkinsHash.hashString [97]) 0).insert
    (JenkinsHash.hashString [98]) 1
  termInfo := [⟨[97], 0, 2, 1, (∅ : HashMap UInt32 Nat).insert (JenkinsHash.hashString [98]) 0⟩,
    ⟨[98], 0, 1, 1, (∅ : HashMap UInt32 Nat).insert (JenkinsHash.hashString [97]) 1⟩]
  fileMmap := ⟨24, (List.replicate 2 RelateTermInfo.fresh).flatMap RelateTermInfo.bytes⟩
  hotTermBuf := List.replicate 1000 ⟨0, 0⟩

/-- A request that lacks the content, and then one for a term, one for the hottest
terms and the first of these again. -/
theorem isolated_four : Isolated (plainEnv parseThree) (freshWorker ⟨[], 0⟩ termsAB)
    (freshWorker ⟨[], 0⟩ termsAB) [requestQt, requestBoth, requestHot, requestBoth] := by
  have hloaded : ∀ request ∈ [requestBoth, requestHot, requestBoth],
      AsksLoaded (plainEnv parseThree) termsAB request := by
    have hboth : AsksLoaded (plainEnv parseThree) termsAB requestBoth := by
      intro pairs hp
      obtain rfl := Json.pairArray.inj hp
      exact ⟨text "1", text "a", by decide, by decide, fun _ => by decide +kernel⟩
    have hhot : AsksLoaded (plainEnv parseThree) termsAB requestHot := by
      intro pairs hp
      obtain rfl := Json.pairArray.inj hp
      exact ⟨text "0", text "b", by decide, by decide, fun h => absurd h (by decide)⟩
    exact List.forall_mem_cons.mpr ⟨hboth, List.forall_mem_cons.mpr ⟨hhot,
      List.forall_mem_singleton.mpr hboth⟩⟩
  refine isolated_of_complete (appendsText_plainEnv _) ⟨[], 0⟩ termsAB List.length_replicate
    [requestQt, requestBoth, requestHot, requestBoth] ⟨?_, fun reply s' hw => ?_⟩
  · intro pairs hp _
    obtain rfl := Json.pairArray.inj hp
    exact .inr ⟨by decide, rfl⟩
  · exact allComplete_of_loaded ((Like.refl List.length_replicate).afterWork hw) hloaded

/-- The second request has no content, and is answered with the first one's. -/
theorem stale_content_answered : AppendsText (plainEnv parseThree) ∧
    termsAB.hotTermBuf.length = 1000 ∧
    ¬ Isolated (plainEnv parseThree) (freshWorker ⟨[], 0⟩ termsAB) (freshWorker ⟨[], 0⟩ termsAB)
      [requestBoth, requestQt] := by
  refine ⟨appendsText_plainEnv _, List.length_replicate, fun h => ?_⟩
  have hcode : ((serve (plainEnv parseThree) (freshWorker ⟨[], 0⟩ termsAB)
      [requestBoth, requestQt])[1]?).map (Option.map Reply.code) = some (some 0) := by
    decide +kernel
  obtain ⟨reply, hreply, hzero⟩ := Option.map_eq_some_iff.mp hcode
  obtain ⟨request, hrequest, -, hlacks⟩ := h 1 reply hreply
  obtain rfl := Option.some.inj hrequest
  rw [hlacks ⟨_, rfl, .inl (by decide)⟩] at hzero
  exact absurd hzero (by decide)

end TextMining.WordNet.Server
