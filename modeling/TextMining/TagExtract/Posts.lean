import TextMining.TagExtract.Counters

/-!
# The counters after a run of posts

Within a post the map of its terms says which terms were met, and each of these
has been counted for the post once. So after a run of posts the counters of a
term are the tallies of the posts that have it.
-/

namespace TextMining.TagExtract

-- ---------------------------------------------------------------------------
-- Terms of a post
-- ---------------------------------------------------------------------------

def WordItem.term (w : WordItem) : List UInt8 := cstr w.bytes

def WordItem.kept (w : WordItem) : Bool := !decide (w.idf.toInt.tdiv 10 = 0 ∨ w.bytes.length ≤ 3)

namespace Post

def items (p : Post) : List WordItem :=
  (p.words.elim [] fun ws => ws.1 ++ ws.2).filter WordItem.kept

def terms (p : Post) : List (List UInt8) := p.items.map WordItem.term

end Post

def columnsOf (t : List UInt8) (posts : List Post) : List (List (List UInt8)) :=
  (posts.filter fun p => p.terms.contains t).map Post.types

theorem columnsOf_concat (t : List UInt8) (posts : List Post) (p : Post) :
    columnsOf t (posts ++ [p]) =
      if t ∈ p.terms then columnsOf t posts ++ [p.types] else columnsOf t posts := by
  rw [columnsOf, List.filter_append, List.map_append, List.filter_singleton]
  split
  · rename_i h
    rw [List.contains_iff_mem.mpr h]
    rfl
  · rename_i h
    rw [Bool.eq_false_iff.mpr (mt List.contains_iff_mem.mp h)]
    exact List.append_nil _

section
variable (env : Env)

theorem recordWords_eq (types : List (List UInt8)) (ws : List WordItem) (s : State) :
    ws.foldl (State.recordWord env types) s =
      (ws.filter WordItem.kept).foldl (fun s w => (s.recordTerm env types w).2) s := by
  induction ws generalizing s with
  | nil => rfl
  | cons w ws ih =>
    rw [List.foldl_cons, ih, List.filter_cons, State.recordWord, WordItem.kept]
    split
    · rename_i h
      rw [decide_eq_true h, if_neg (by decide)]
    · rename_i h
      rw [decide_eq_false h, if_pos (by decide), List.foldl_cons]

theorem recordPost_eq (s : State) (p : Post) : s.recordPost env p =
    p.items.foldl (fun s w => (s.recordTerm env p.types w).2)
      (p.types.foldl (State.countType env) { s with hmLocal := ∅ }) := by
  rw [State.recordPost, if_neg (Nat.not_lt.mpr (List.length_pos_iff.mpr p.typed)), Post.items]
  cases p.words with
  | none => rfl
  | some ws =>
    dsimp only
    rw [recordWords_eq, recordWords_eq, Option.elim_some, List.filter_append, List.foldl_append]

-- ---------------------------------------------------------------------------
-- One term
-- ---------------------------------------------------------------------------

namespace State

def isBad (w : WordItem) : Nat := if env.isBadTerm w.postagid then 1 else 0

def addTerm (s : State) (types : List (List UInt8)) (w : WordItem) : State :=
  { s with
    mTypeTermWeight := types.foldl (TypeMap.newTypeTerm w.term w.postagid) s.mTypeTermWeight
    hmLocal := s.hmLocal.insert (env.stlHashString w.term) 1
    mTermIndex := s.mTermIndex.insert (env.stlHashString w.term) s.mTermNum
    vTermInfo := s.vTermInfo ++ [types.foldl (TermInfo.newType env (isBad env w))
      ⟨snprintf 64 w.term, w.postagid, 0, 0, 0, ∅, ∅⟩]
    mTermNum := s.mTermNum + 1 }

def countTerm (s : State) (types : List (List UInt8)) (w : WordItem) (i : Nat) : State :=
  { s with
    vTermInfo := s.vTermInfo.modify i (types.foldl (TermInfo.countType env (isBad env w)))
    mTypeTermWeight := types.foldl (TypeMap.countTypeTerm w.term w.postagid) s.mTypeTermWeight
    hmLocal := s.hmLocal.insert (env.stlHashString w.term) 1 }

def repeatTerm (s : State) (types : List (List UInt8)) (w : WordItem) (i : Nat) : State :=
  { s with
    vTermInfo := s.vTermInfo.modify i (types.foldl (TermInfo.repeatType env (isBad env w))) }

theorem recordTerm_eq (s : State) (types : List (List UInt8)) (w : WordItem) :
    (s.recordTerm env types w).2 = match s.mTermIndex.lookup (env.stlHashString w.term) with
      | none => s.addTerm env types w
      | some i =>
        if env.stlHashString w.term ∈ s.hmLocal then s.repeatTerm env types w i
        else s.countTerm env types w i := by
  rw [recordTerm, WordItem.term]
  cases s.mTermIndex.lookup (env.stlHashString (cstr w.bytes)) with
  | none => rfl
  | some i =>
    dsimp only
    rw [ite_not]
    split <;> rfl

end State

def State.find (s : State) (t : List UInt8) : Option TermInfo :=
  Registry.find s.mTermIndex s.vTermInfo (env.stlHashString t)

variable (terms names : List UInt8 → Prop)

structure Registered (s : State) : Prop where
  numbered : Registry.Numbered s.mTermIndex s.vTermInfo
  length : s.vTermInfo.length = s.mTermNum
  onto : ∀ i < s.vTermInfo.length,
    ∃ t, terms t ∧ s.mTermIndex.lookup (env.stlHashString t) = some i

structure Counted (s : State) (columns : List (List (List UInt8))) (t : List UInt8) : Prop where
  absent : columns = [] → s.find env t = none
  present : columns ≠ [] → ∃ info, s.find env t = some info ∧ Tallied env names columns t info
  num : ∀ c, s.mTypeTermWeight.termNum c t = recorded columns c

structure SamePosts (s s' : State) : Prop where
  weiboNum : s'.mWeiboNum = s.mWeiboNum
  typeName : s'.mapTypeInfo = s.mapTypeInfo
  typeNum : ∀ c, (s'.mTypeTermWeight.typeInfo c).weiboNum = (s.mTypeTermWeight.typeInfo c).weiboNum

structure Recorded (s s' : State) (types : List (List UInt8))
    (columns : List (List (List UInt8))) (u : List UInt8) : Prop where
  registered : Registered env terms s'
  same : SamePosts s s'
  others : ∀ t, terms t → t ≠ u → s'.find env t = s.find env t ∧
    ∀ c, s'.mTypeTermWeight.termNum c t = s.mTypeTermWeight.termNum c t
  hmLocal : ∀ k, k ∈ s'.hmLocal ↔ k = env.stlHashString u ∨ k ∈ s.hmLocal
  counted : Counted env names s'
    (if env.stlHashString u ∈ s.hmLocal then columns else columns ++ [types]) u

variable {env terms names}
  (hterms : ∀ t u, terms t → terms u → env.stlHashString t = env.stlHashString u → t = u)
  (hnames : ∀ c d, names c → names d → hashType env c = hashType env d → c = d)
  {s : State} {types : List (List UInt8)} {columns : List (List (List UInt8))} {w : WordItem}

theorem Registered.modify (h : Registered env terms s) (i : Nat) (f : TermInfo → TermInfo)
    {s' : State} (hindex : s'.mTermIndex = s.mTermIndex) (hnum : s'.mTermNum = s.mTermNum)
    (hinfo : s'.vTermInfo = s.vTermInfo.modify i f) : Registered env terms s' := by
  refine ⟨?_, ?_, fun j hj => ?_⟩
  · rw [hindex, hinfo]
    exact h.numbered.modify i f
  · rw [hinfo, List.length_modify, h.length, hnum]
  · rw [hinfo, List.length_modify] at hj
    rw [hindex]
    exact h.onto j hj

include hterms in
theorem find_modify_of_ne (h : Registered env terms s) {i : Nat} {t u : List UInt8}
    (hu : terms u) (hi : s.mTermIndex.lookup (env.stlHashString u) = some i) (ht : terms t)
    (hne : t ≠ u) (f : TermInfo → TermInfo) {s' : State} (hindex : s'.mTermIndex = s.mTermIndex)
    (hinfo : s'.vTermInfo = s.vTermInfo.modify i f) : s'.find env t = s.find env t := by
  rw [State.find, hindex, hinfo]
  exact h.numbered.find_modify_ne hi (fun he => hne (hterms t u ht hu he)) f

theorem Counted.lookup_eq_none (hcount : Counted env names s columns w.term)
    (h : Registered env terms s) :
    s.mTermIndex.lookup (env.stlHashString w.term) = none ↔ columns = [] := by
  rw [AList.lookup_eq_none, ← h.numbered.find_eq_none]
  constructor
  · intro hfind
    by_contra hne
    obtain ⟨info, hsome, -⟩ := hcount.present hne
    cases hfind.symm.trans hsome
  · exact hcount.absent

include hterms hnames in
theorem addTerm_spec (h : Registered env terms s) (hw : terms w.term)
    (htypes : ∀ d ∈ types, names d) (hcount : Counted env names s [] w.term)
    (hlocal : env.stlHashString w.term ∉ s.hmLocal) :
    Recorded env terms names s (s.addTerm env types w) types [] w.term := by
  have hi : s.mTermIndex.lookup (env.stlHashString w.term) = none :=
    (hcount.lookup_eq_none h).mpr rfl
  have hnot : env.stlHashString w.term ∉ s.mTermIndex := AList.lookup_eq_none.mp hi
  rw [State.addTerm, ← h.length]
  refine ⟨⟨h.numbered.push hnot _, ?_, fun j hj => ?_⟩, ⟨rfl, rfl, fun c => ?_⟩,
    fun t ht hne => ⟨?_, fun c => ?_⟩, fun k => AList.mem_insert _, ?_⟩
  · exact List.length_append
  · dsimp only at hj ⊢
    rw [List.length_append, List.length_singleton, Nat.lt_succ_iff_lt_or_eq] at hj
    rcases hj with hj | rfl
    · obtain ⟨t, ht, hlookup⟩ := h.onto j hj
      have hne : env.stlHashString t ≠ env.stlHashString w.term := by
        intro he
        rw [he, hi] at hlookup
        cases hlookup
      exact ⟨t, ht, (AList.lookup_insert_ne hne).trans hlookup⟩
    · exact ⟨w.term, hw, AList.lookup_insert _⟩
  · exact weiboNum_foldl (fun m type => weiboNum_newTypeTerm w.postagid) types
  · exact h.numbered.find_push_ne (fun he => hne (hterms t w.term ht hw he)) _
  · exact (termNum_newTypeTerms w.postagid types).trans (if_neg fun he => hne he.1)
  · rw [if_neg hlocal, List.nil_append]
    refine ⟨fun he => absurd he (List.cons_ne_nil _ _), fun _ => ⟨_,
      Registry.find_push_self _ _ _ _, tallied_new hnames htypes w.postagid⟩, fun c => ?_⟩
    refine (termNum_newTypeTerms w.postagid types).trans ?_
    rw [recorded_singleton, hcount.num]
    simp only [true_and]
    rfl

section
variable {i : Nat} {info : TermInfo}

theorem find_modify_self (hi : s.mTermIndex.lookup (env.stlHashString w.term) = some i)
    (hfind : s.find env w.term = some info) (f : TermInfo → TermInfo) {s' : State}
    (hindex : s'.mTermIndex = s.mTermIndex) (hinfo : s'.vTermInfo = s.vTermInfo.modify i f) :
    s'.find env w.term = some (f info) := by
  rw [State.find, hindex, hinfo, Registry.find_modify_self hi]
  exact congrArg (Option.map f) hfind

include hterms hnames in
theorem countTerm_spec (h : Registered env terms s) (hw : terms w.term)
    (htypes : ∀ d ∈ types, names d) (hcount : Counted env names s columns w.term)
    (hi : s.mTermIndex.lookup (env.stlHashString w.term) = some i) (hne : columns ≠ [])
    (hlocal : env.stlHashString w.term ∉ s.hmLocal) :
    Recorded env terms names s (s.countTerm env types w i) types columns w.term := by
  obtain ⟨info, hfind, htallied⟩ := hcount.present hne
  refine ⟨h.modify i _ rfl rfl rfl, ⟨rfl, rfl, fun c => ?_⟩, fun t ht htw =>
    ⟨find_modify_of_ne hterms h hw hi ht htw _ rfl rfl, fun c => ?_⟩,
    fun k => AList.mem_insert _, ?_⟩
  · exact weiboNum_foldl (fun m type => weiboNum_countTypeTerm w.postagid) types
  · refine (termNum_countTypeTerms w.postagid types).trans ?_
    rw [if_neg htw, Nat.add_zero]
  · rw [if_neg hlocal]
    refine ⟨fun he => absurd he (List.append_ne_nil_of_left_ne_nil hne _), fun _ => ⟨_,
      find_modify_self hi hfind _ rfl rfl, htallied.countTypes hnames htypes hne⟩, fun c => ?_⟩
    refine (termNum_countTypeTerms w.postagid types).trans ?_
    rw [recorded_concat hne, hcount.num, if_pos rfl]

include hterms in
theorem repeatTerm_spec (h : Registered env terms s) (hw : terms w.term)
    (hcount : Counted env names s columns w.term)
    (hi : s.mTermIndex.lookup (env.stlHashString w.term) = some i) (hne : columns ≠ [])
    (hlocal : env.stlHashString w.term ∈ s.hmLocal) :
    Recorded env terms names s (s.repeatTerm env types w i) types columns w.term := by
  obtain ⟨info, hfind, htallied⟩ := hcount.present hne
  refine ⟨h.modify i _ rfl rfl rfl, ⟨rfl, rfl, fun c => rfl⟩, fun t ht htw =>
    ⟨find_modify_of_ne hterms h hw hi ht htw _ rfl rfl, fun c => rfl⟩, fun k => ?_, ?_⟩
  · exact (or_iff_right_of_imp fun hk => hk ▸ hlocal).symm
  · rw [if_pos hlocal]
    exact ⟨fun he => absurd he hne, fun _ => ⟨_, find_modify_self hi hfind _ rfl rfl,
      htallied.same (sameCounts_repeatTypes types)⟩, hcount.num⟩

end

include hterms hnames in
theorem recordTerm_spec (h : Registered env terms s) (hw : terms w.term)
    (htypes : ∀ d ∈ types, names d) (hcount : Counted env names s columns w.term)
    (hlocal : env.stlHashString w.term ∈ s.hmLocal → columns ≠ []) :
    Recorded env terms names s (s.recordTerm env types w).2 types columns w.term := by
  rw [State.recordTerm_eq]
  cases hi : s.mTermIndex.lookup (env.stlHashString w.term) with
  | none =>
    obtain rfl := (hcount.lookup_eq_none h).mp hi
    exact addTerm_spec hterms hnames h hw htypes hcount fun hmem => hlocal hmem rfl
  | some i =>
    have hne : columns ≠ [] := by
      intro he
      cases hi.symm.trans ((hcount.lookup_eq_none h).mpr he)
    dsimp only
    split
    · rename_i hmem
      exact repeatTerm_spec hterms h hw hcount hi hne hmem
    · rename_i hmem
      exact countTerm_spec hterms hnames h hw htypes hcount hi hne hmem

-- ---------------------------------------------------------------------------
-- One post
-- ---------------------------------------------------------------------------

variable {posts : List Post} {p : Post}

theorem Counted.congr {t : List UInt8} (h : Counted env names s columns t) {s' : State}
    (hfind : s'.find env t = s.find env t)
    (hnum : ∀ c, s'.mTypeTermWeight.termNum c t = s.mTypeTermWeight.termNum c t) :
    Counted env names s' columns t :=
  ⟨fun he => hfind.trans (h.absent he), fun he => hfind ▸ h.present he,
    fun c => (hnum c).trans (h.num c)⟩

variable (env terms names) in
/-- The counters within a post `p` that comes after `posts`, when the terms
`done` of the post have been met. -/
structure Scanned (s : State) (posts : List Post) (p : Post) (done : List (List UInt8)) : Prop where
  registered : Registered env terms s
  hmLocal : ∀ t, terms t → (env.stlHashString t ∈ s.hmLocal ↔ t ∈ done)
  counted : ∀ t, terms t → Counted env names s
    (if t ∈ done then columnsOf t posts ++ [p.types] else columnsOf t posts) t

include hterms hnames in
theorem Scanned.recordTerm {done : List (List UInt8)}
    (h : Scanned env terms names s posts p done) (hw : terms w.term)
    (htypes : ∀ d ∈ p.types, names d) :
    Scanned env terms names (s.recordTerm env p.types w).2 posts p (done ++ [w.term]) ∧
      SamePosts s (s.recordTerm env p.types w).2 := by
  have hlocal := h.hmLocal w.term hw
  have hspec := recordTerm_spec hterms hnames h.registered hw htypes (h.counted w.term hw)
    fun hmem => by
      rw [if_pos (hlocal.mp hmem)]
      exact List.append_ne_nil_of_right_ne_nil _ (List.cons_ne_nil _ _)
  refine ⟨⟨hspec.registered, fun t ht => ?_, fun t ht => ?_⟩, hspec.same⟩
  · rw [hspec.hmLocal, h.hmLocal t ht, List.mem_append, List.mem_singleton, or_comm]
    refine or_congr_right ⟨hterms t w.term ht hw, fun he => he ▸ rfl⟩
  · cases decEq t w.term with
    | isTrue htw =>
      subst htw
      have hcounted := hspec.counted
      rw [if_pos (List.mem_append_right done (List.mem_singleton_self _))]
      simp only [hlocal] at hcounted
      split at hcounted
      · exact hcounted
      · exact hcounted
    | isFalse htw =>
      obtain ⟨hfind, hnum⟩ := hspec.others t ht htw
      have hdone : t ∈ done ++ [w.term] ↔ t ∈ done := by
        rw [List.mem_append, List.mem_singleton, or_iff_left htw]
      simp only [hdone]
      exact (h.counted t ht).congr hfind hnum

theorem SamePosts.trans {s t u : State} (h : SamePosts s t) (h' : SamePosts t u) : SamePosts s u :=
  ⟨h'.weiboNum.trans h.weiboNum, h'.typeName.trans h.typeName,
    fun c => (h'.typeNum c).trans (h.typeNum c)⟩

include hterms hnames in
theorem Scanned.run {done : List (List UInt8)} (h : Scanned env terms names s posts p done)
    (htypes : ∀ d ∈ p.types, names d) (ws : List WordItem) (hws : ∀ w ∈ ws, terms w.term) :
    Scanned env terms names (ws.foldl (fun s w => (s.recordTerm env p.types w).2) s) posts p
        (done ++ ws.map WordItem.term) ∧
      SamePosts s (ws.foldl (fun s w => (s.recordTerm env p.types w).2) s) := by
  induction ws generalizing s done with
  | nil => exact ⟨by rwa [List.map_nil, List.append_nil], rfl, rfl, fun _ => rfl⟩
  | cons w ws ih =>
    obtain ⟨hnext, hsame⟩ := h.recordTerm hterms hnames (hws w List.mem_cons_self) htypes
    obtain ⟨hend, hrest⟩ := ih hnext fun x hx => hws x (List.mem_cons_of_mem w hx)
    rw [List.append_assoc] at hend
    exact ⟨hend, hsame.trans hrest⟩

structure TypesCounted (s s' : State) (types : List (List UInt8)) : Prop where
  index : s'.mTermIndex = s.mTermIndex
  info : s'.vTermInfo = s.vTermInfo
  length : s'.mTermNum = s.mTermNum
  hmLocal : s'.hmLocal = s.hmLocal
  num : ∀ c t, s'.mTypeTermWeight.termNum c t = s.mTypeTermWeight.termNum c t
  weiboNum : s'.mWeiboNum = s.mWeiboNum + types.length
  typeNum : ∀ c, (s'.mTypeTermWeight.typeInfo c).weiboNum =
    (s.mTypeTermWeight.typeInfo c).weiboNum + types.count c

theorem countTypes_spec (env : Env) (types : List (List UInt8)) (s : State) :
    TypesCounted s (types.foldl (State.countType env) s) types := by
  induction types generalizing s with
  | nil => exact ⟨rfl, rfl, rfl, rfl, fun _ _ => rfl, rfl, fun _ => rfl⟩
  | cons type types ih =>
    have h := ih (s.countType env type)
    have hinfo : ∀ c, (s.countType env type).mTypeTermWeight.typeInfo c =
        if c = type then { s.mTypeTermWeight.typeInfo type with
          weiboNum := (s.mTypeTermWeight.typeInfo type).weiboNum + 1 }
        else s.mTypeTermWeight.typeInfo c := fun c => typeInfo_insert _ _ _ _
    rw [List.foldl_cons]
    refine ⟨h.index, h.info, h.length, h.hmLocal, fun c t => (h.num c t).trans ?_, ?_, fun c => ?_⟩
    · rw [TypeMap.termNum, hinfo, TypeMap.termNum]
      split
      · rename_i hc
        rw [hc]
      · rfl
    · rw [h.weiboNum, List.length_cons, State.countType]
      exact Nat.add_right_comm _ _ _
    · rw [h.typeNum, hinfo]
      simp only [List.count_cons, beq_iff_eq, eq_comm (a := type)]
      split
      · rename_i hc
        rw [hc]
        exact Nat.add_right_comm _ _ _
      · rfl

theorem countTypes_name {c : List UInt8}
    (hc : ∀ d ∈ types, hashType env d = hashType env c → d = c)
    (h : c ∈ types ∨ s.mapTypeInfo.lookup (hashType env c) = some c) :
    (types.foldl (State.countType env) s).mapTypeInfo.lookup (hashType env c) = some c := by
  induction types generalizing s with
  | nil => exact h.resolve_left List.not_mem_nil
  | cons type types ih =>
    refine ih (fun d hd => hc d (List.mem_cons_of_mem type hd)) ?_
    rw [State.countType, OrdMap.lookup_insert]
    rcases h with hmem | hold
    · rcases List.mem_cons.mp hmem with rfl | hmem
      · exact .inr (if_pos rfl)
      · exact .inl hmem
    · right
      split
      · rename_i he
        rw [hc type List.mem_cons_self he.symm]
      · exact hold

-- ---------------------------------------------------------------------------
-- A run of posts
-- ---------------------------------------------------------------------------

variable (env terms names) in
structure Inv (s : State) (posts : List Post) : Prop where
  registered : Registered env terms s
  counted : ∀ t, terms t → Counted env names s (columnsOf t posts) t
  weiboNum : s.mWeiboNum = (posts.map fun p => p.types.length).sum
  typeNum : ∀ c, (s.mTypeTermWeight.typeInfo c).weiboNum =
    (posts.map fun p => p.types.count c).sum
  typeName : ∀ p ∈ posts, ∀ c ∈ p.types, s.mapTypeInfo.lookup (hashType env c) = some c

theorem inv_init : Inv env terms names .init [] where
  registered := ⟨Registry.numbered_empty, rfl, fun i hi => absurd hi (Nat.not_lt_zero i)⟩
  counted _ _ := ⟨fun _ => rfl, fun he => absurd rfl he, fun _ => rfl⟩
  weiboNum := rfl
  typeNum _ := rfl
  typeName _ hp := absurd hp List.not_mem_nil

include hterms hnames in
theorem Inv.recordPost (h : Inv env terms names s posts) (hps : ∀ t ∈ p.terms, terms t)
    (hold : ∀ q ∈ posts, ∀ c ∈ q.types, names c) (htypes : ∀ c ∈ p.types, names c) :
    Inv env terms names (s.recordPost env p) (posts ++ [p]) := by
  rw [recordPost_eq]
  have hcount := countTypes_spec env p.types { s with hmLocal := ∅ }
  have hname : ∀ q ∈ posts ++ [p], ∀ c ∈ q.types,
      (p.types.foldl (State.countType env) { s with hmLocal := ∅ }).mapTypeInfo.lookup
        (hashType env c) = some c := by
    intro q hq c hc
    rcases List.mem_append.mp hq with hq | hq
    · exact countTypes_name (fun d hd => hnames d c (htypes d hd) (hold q hq c hc))
        (.inr (h.typeName q hq c hc))
    · obtain rfl := List.mem_singleton.mp hq
      exact countTypes_name (fun d hd => hnames d c (htypes d hd) (htypes c hc)) (.inl hc)
  generalize p.types.foldl (State.countType env) { s with hmLocal := ∅ } = mid at hcount hname
  have hstart : Scanned env terms names mid posts p [] := by
    refine ⟨⟨?_, ?_, ?_⟩, fun t _ => ?_, fun t ht => ?_⟩
    · rw [hcount.index, hcount.info]
      exact h.registered.numbered
    · rw [hcount.info, hcount.length]
      exact h.registered.length
    · rw [hcount.index, hcount.info]
      exact h.registered.onto
    · rw [hcount.hmLocal]
      exact iff_of_false (AList.notMem_empty _) List.not_mem_nil
    · rw [if_neg List.not_mem_nil]
      refine (h.counted t ht).congr ?_ fun c => hcount.num c t
      rw [State.find, hcount.index, hcount.info]
      rfl
  obtain ⟨hend, hsame⟩ := hstart.run hterms hnames htypes p.items
    fun w hw => hps w.term (List.mem_map_of_mem hw)
  refine ⟨hend.registered, fun t ht => ?_, ?_, fun c => ?_, fun q hq c hc => ?_⟩
  · rw [columnsOf_concat]
    exact hend.counted t ht
  · rw [hsame.weiboNum, hcount.weiboNum, h.weiboNum, List.map_append, List.sum_append,
      List.map_singleton, List.sum_singleton]
  · rw [hsame.typeNum, hcount.typeNum, h.typeNum, List.map_append, List.sum_append,
      List.map_singleton, List.sum_singleton]
  · rw [hsame.typeName]
    exact hname q hq c hc

include hterms hnames in
theorem loadWeibo_inv (posts : List Post) (hps : ∀ p ∈ posts, ∀ t ∈ p.terms, terms t)
    (htypes : ∀ p ∈ posts, ∀ c ∈ p.types, names c) :
    Inv env terms names (State.loadWeibo env posts) posts := by
  induction posts using List.reverseRecOn with
  | nil => exact inv_init
  | append_singleton posts p ih =>
    have hpost : ∀ q ∈ posts, q ∈ posts ++ [p] := fun q hq => List.mem_append_left [p] hq
    have hp : p ∈ posts ++ [p] := List.mem_append_right posts (List.mem_singleton_self p)
    rw [State.loadWeibo, List.foldl_append]
    exact (ih (fun q hq => hps q (hpost q hq)) fun q hq => htypes q (hpost q hq)).recordPost hterms
      hnames (hps p hp) (fun q hq => htypes q (hpost q hq)) (htypes p hp)

end

end TextMining.TagExtract
