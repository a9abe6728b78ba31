import SceneCode.Proofs.Emission.Determinism
import SceneCode.Proofs.Reading.Sites
import SceneCode.Proofs.Scoping.Acceptance

/-!
# Programs without forward calls

The options may forbid to call a function before it is defined.  That changes no program: a tree
that still compiles has the same code as before, and a tree that does not has a call that leads
forward.  The reason is a fact about readings, `Reading.direct_iff`: a call that finds its function
in an open scope leads to a body at or before it, and a call that has to wait leads to a body
behind it.
-/

namespace SceneCode

namespace Scoping

/-! ### Direct calls -/

/-- Every call is of a name that an open scope has already. -/
def Direct (scopes : List (List String)) : List Act → Prop
  | [] => True
  | .opens :: rest => Direct ([] :: scopes) rest
  | .closes :: rest => Direct scopes.tail rest
  | .declares _ name :: rest => Direct (scopes.modifyHead (name :: ·)) rest
  | .uses _ :: rest => Direct scopes rest
  | .calls name :: rest => (∃ names ∈ scopes, name ∈ names) ∧ Direct scopes rest
  | .returns _ :: rest => Direct scopes rest

/-- The names of scopes, without what they stand for. -/
def bareNames {α : Type} (scopes : List (List (String × α))) : List (List String) :=
  scopes.map (·.map Prod.fst)

theorem findSome?_eq_none_iff {α : Type} {scopes : List (List (String × α))} {name : String} :
    scopes.findSome? (·.lookup name) = none ↔ ¬∃ names ∈ bareNames scopes, name ∈ names := by
  simp only [List.findSome?_eq_none_iff, List.lookup_eq_none_iff, bareNames, List.mem_map]
  constructor
  · rintro h ⟨_, ⟨names, hnames, rfl⟩, hname⟩
    obtain ⟨entry, hentry, rfl⟩ := List.mem_map.mp hname
    simpa using h names hnames entry hentry
  · intro h names hnames entry hentry
    simp only [bne_iff_ne]
    rintro rfl
    exact h ⟨_, ⟨names, hnames, rfl⟩, List.mem_map_of_mem hentry⟩

/-- Without forward calls the rules are the rules with them, and that every call is direct. -/
theorem wellScoped_false_iff {current : Names} {outer : List Names} {acts : List Act} :
    WellScoped false current outer acts ↔
      WellScoped true current outer acts ∧ Direct (bareNames (current :: outer)) acts := by
  induction acts generalizing current outer with
  | nil => simp [WellScoped, Direct]
  | cons act rest ih =>
    cases act with
    | opens => exact ih
    | closes =>
      cases outer with
      | nil => simp [WellScoped]
      | cons next outer => exact ih
    | declares role name =>
      simp only [WellScoped, Direct, ih, and_assoc]
      rfl
    | uses name => simp only [WellScoped, Direct, ih, and_assoc]
    | calls name =>
      have hfind : (∃ names ∈ bareNames (current :: outer), name ∈ names) ↔
          find name (current :: outer) ≠ none := by
        rw [find, Ne, findSome?_eq_none_iff, Classical.not_not]
      simp only [WellScoped, Direct, ih, hfind]
      cases find name (current :: outer) <;> simp [and_assoc]
    | returns inside => simp only [WellScoped, Direct, ih, and_assoc]

/-! ### Faults -/

/-- One thing is judged the same, unless it is a call of a name that no open scope has. -/
theorem step_forward (s : State) (act : Act) :
    (∃ name, step false s act = .error (.unresolved name)) ∨
      step true s act = step false s act := by
  cases act with
  | calls name =>
    rcases hfind : find name s.names with _ | role
    · exact Or.inl ⟨name, by simp [step, hfind]⟩
    · exact Or.inr (by cases role <;> simp [step, hfind])
  | _ => exact Or.inr rfl

theorem run_forward (s : State) (acts : List Act) :
    (∃ name, run false s acts = .error (.unresolved name)) ∨
      run true s acts = run false s acts := by
  induction acts generalizing s with
  | nil => exact Or.inr rfl
  | cons act rest ih =>
    rw [run_cons, run_cons]
    rcases step_forward s act with ⟨name, hname⟩ | hstep
    · exact Or.inl ⟨name, by rw [hname]; rfl⟩
    · rw [hstep]
      cases step false s act with
      | error e => exact Or.inr rfl
      | ok next => exact ih next

theorem verdict_forward (acts : List Act) :
    (∃ name, verdict false acts = .error (.unresolved name)) ∨
      verdict true acts = verdict false acts := by
  unfold verdict
  rcases run_forward ({}, []) acts with ⟨name, hname⟩ | hrun
  · exact Or.inl ⟨name, by rw [hname]; rfl⟩
  · exact Or.inr (by rw [hrun])

end Scoping

/-! ### Names in readings -/

/-- What an entry of a reading does with scopes and names. -/
def Mark.act? : Mark → Option Act
  | .words _ => none
  | .opens => some .opens
  | .closes => some .closes
  | .declares name => some (.declares .variable name)
  | .defines name => some (.declares .function name)
  | .uses name => some (.uses name)
  | .calls name _ => some (.calls name)

/-- Everything but a return. -/
def Act.named? : Act → Option Act
  | .returns _ => none
  | act => some act

theorem Scoping.direct_filterMap_named? {scopes : List (List String)} {acts : List Act} :
    Direct scopes (acts.filterMap Act.named?) ↔ Direct scopes acts := by
  induction acts generalizing scopes with
  | nil => rfl
  | cons act rest ih =>
    cases act with
    | calls name => exact and_congr_right' ih
    | _ => exact ih

namespace Tree

theorem filterMap_act?_finish (u : Usage) : (Mark.finish u).filterMap Mark.act? = [] := by
  cases u <;> rfl

theorem filterMap_act?_store (u : Usage) (name : String) :
    (Mark.store u name).filterMap Mark.act? = [.uses name] := by
  cases u <;> rfl

mutual

/-- A reading has the names of the tree, in the same order. -/
theorem filterMap_named?_acts (config : Config) (fn : Option TypeName) (inside : Bool) (t : Tree)
    (u : Usage) :
    (t.acts inside).filterMap Act.named? = (t.reading config fn u).filterMap Mark.act? := by
  match t with
  | .empty => rfl
  | .seq items => exact filterMap_named?_actsAll config fn inside items u
  | .program body => exact filterMap_named?_acts config fn inside body .discard
  | .block body =>
    simp [acts, reading, List.filterMap_cons, Mark.scope, Act.named?, Mark.act?,
      filterMap_named?_acts config fn inside body .discard]
  | .function name params returns body =>
    simp [acts, reading, List.filterMap_cons, Act.named?, Mark.act?, Function.comp_def,
      filterMap_named?_acts config (some returns) true body .discard]
  | .ret value =>
    have hvalue := filterMap_named?_acts config fn inside value .value
    cases hempty : value.isEmpty with
    | true =>
      simp [acts, reading, List.filterMap_cons, Act.named?, Mark.act?, hempty,
        acts_of_isEmpty inside hempty]
    | false => simp [acts, reading, List.filterMap_cons, Act.named?, Mark.act?, hempty, hvalue]
  | .declare type name => rfl
  | .declareWith type name value =>
    simp [acts, reading, List.filterMap_cons, Act.named?, Mark.act?,
      filterMap_named?_acts config fn inside value .value]
  | .assign name value =>
    simp [acts, reading, Act.named?, filterMap_act?_store,
      filterMap_named?_acts config fn inside value .value]
  | .compound op name value =>
    simp [acts, reading, List.filterMap_cons, Act.named?, Mark.act?, filterMap_act?_store,
      filterMap_named?_acts config fn inside value .value]
  | .step op name =>
    simp [acts, reading, List.filterMap_cons, Act.named?, Mark.act?, filterMap_act?_store]
  | .ifThen cond body =>
    simp [acts, reading, List.filterMap_cons, Mark.act?,
      filterMap_named?_acts config fn inside cond .value,
      filterMap_named?_acts config fn inside body .discard]
  | .ifElse cond body other =>
    simp [acts, reading, List.filterMap_cons, Mark.act?,
      filterMap_named?_acts config fn inside cond .value,
      filterMap_named?_acts config fn inside body .discard,
      filterMap_named?_acts config fn inside other .discard]
  | .whileLoop cond body =>
    simp [acts, reading, List.filterMap_cons, Mark.act?,
      filterMap_named?_acts config fn inside cond .value,
      filterMap_named?_acts config fn inside body .discard]
  | .doLoop cond body =>
    simp [acts, reading, List.filterMap_cons, Mark.act?,
      filterMap_named?_acts config fn inside cond .value,
      filterMap_named?_acts config fn inside body .discard]
  | .forLoop init cond update body =>
    have hcond := filterMap_named?_acts config fn inside cond .value
    have hinit := filterMap_named?_acts config fn inside init .discard
    have hupdate := filterMap_named?_acts config fn inside update .discard
    have hbody := filterMap_named?_acts config fn inside body .discard
    cases hempty : cond.isEmpty with
    | true =>
      simp [acts, reading, List.filterMap_cons, Mark.scope, Act.named?, Mark.act?, hempty,
        acts_of_isEmpty inside hempty, hinit, hupdate, hbody]
    | false =>
      simp [acts, reading, List.filterMap_cons, Mark.scope, Act.named?, Mark.act?, hempty, hcond,
        hinit, hupdate, hbody]
  | .call name args =>
    simp [acts, reading, Act.named?, Mark.act?, filterMap_act?_finish,
      filterMap_named?_actsAll config fn inside args .value]
  | .binary op lhs rhs =>
    simp [acts, reading, List.filterMap_cons, Mark.act?, filterMap_act?_finish,
      filterMap_named?_acts config fn inside lhs .value,
      filterMap_named?_acts config fn inside rhs .value]
  | .logical op lhs rhs =>
    simp [acts, reading, List.filterMap_cons, Mark.act?, filterMap_act?_finish,
      filterMap_named?_acts config fn inside lhs .value,
      filterMap_named?_acts config fn inside rhs .value]
  | .unary op operand =>
    simp [acts, reading, List.filterMap_cons, Mark.act?, filterMap_act?_finish,
      filterMap_named?_acts config fn inside operand .value]
  | .ident name => simp [acts, reading, Act.named?, Mark.act?, filterMap_act?_finish]
  | .lit value => simp [acts, reading, List.filterMap_cons, Mark.act?, filterMap_act?_finish]

theorem filterMap_named?_actsAll (config : Config) (fn : Option TypeName) (inside : Bool)
    (ts : List Tree) (u : Usage) :
    (actsAll inside ts).filterMap Act.named? = (readingAll config fn ts u).filterMap Mark.act? := by
  match ts with
  | [] => rfl
  | t :: rest =>
    simp only [actsAll, readingAll, List.filterMap_append,
      filterMap_named?_acts config fn inside t u, filterMap_named?_actsAll config fn inside rest u]

end

end Tree

/-! ### Where direct calls lead -/

namespace Reading

/-- An open scope has a function of this name with this body. -/
def Binds (name : String) (body : Address) (scopes : List Names) : Prop :=
  ∃ names ∈ scopes, (name, some body) ∈ names

variable {name : String} {body : Address} {scopes : List Names}

theorem binds_of_find (h : find name scopes = some (some body)) : Binds name body scopes := by
  obtain ⟨names, hnames, hlookup⟩ := List.exists_of_findSome?_eq_some h
  obtain ⟨front, back, hsplit, -⟩ := List.lookup_eq_some_iff.mp hlookup
  refine ⟨names, hnames, ?_⟩
  rw [hsplit]
  exact List.mem_append_right _ (List.mem_cons_self ..)

theorem not_binds_of_find (h : find name scopes = none) : ¬Binds name body scopes := by
  rintro ⟨names, hnames, hentry⟩
  refine Scoping.findSome?_eq_none_iff.mp h ⟨names.map Prod.fst, List.mem_map_of_mem hnames, ?_⟩
  exact List.mem_map_of_mem hentry

theorem binds_push (h : Binds name body ([] :: scopes)) : Binds name body scopes := by
  obtain ⟨names, hnames, hentry⟩ := h
  rcases List.mem_cons.mp hnames with rfl | hnames
  · cases hentry
  · exact ⟨names, hnames, hentry⟩

theorem binds_of_tail (h : Binds name body scopes.tail) : Binds name body scopes := by
  obtain ⟨names, hnames, hentry⟩ := h
  exact ⟨names, List.mem_of_mem_tail hnames, hentry⟩

theorem binds_declare {other : String} {new : Option Address}
    (h : Binds name body (declare other new scopes)) :
    Binds name body scopes ∨ new = some body := by
  cases scopes with
  | nil =>
    obtain ⟨names, hnames, -⟩ := h
    cases hnames
  | cons first outer =>
    obtain ⟨names, hnames, hentry⟩ := h
    rcases List.mem_cons.mp hnames with rfl | hnames
    · rcases List.mem_cons.mp hentry with heq | hentry
      · cases heq
        exact Or.inr rfl
      · exact Or.inl ⟨first, List.mem_cons_self .., hentry⟩
    · exact Or.inl ⟨names, List.mem_cons_of_mem _ hnames, hentry⟩

/-- A function that the scopes get on the way has its body there. -/
theorem binds_complete {a : Address} {marks : List Mark}
    (h : Binds name body (complete a scopes marks)) : Binds name body scopes ∨ a ≤ body := by
  induction marks generalizing a scopes with
  | nil => exact Or.inl h
  | cons m rest ih =>
    cases m with
    | opens => exact (ih (binds_of_tail h)).imp_left binds_push
    | closes =>
      cases scopes with
      | nil => exact ih h
      | cons names outer =>
        obtain ⟨found, hfound, hentry⟩ := h
        rcases List.mem_cons.mp hfound with rfl | hfound
        · exact Or.inl ⟨found, List.mem_cons_self .., hentry⟩
        · exact (ih ⟨found, hfound, hentry⟩).imp_left fun ⟨names, hnames, hentry⟩ =>
            ⟨names, List.mem_cons_of_mem _ hnames, hentry⟩
    | declares other =>
      rcases ih h with hbefore | habove
      · rcases binds_declare hbefore with hbefore | hnew
        · exact Or.inl hbefore
        · cases hnew
      · exact Or.inr habove
    | defines other =>
      rcases ih h with hbefore | habove
      · rcases binds_declare hbefore with hbefore | hnew
        · exact Or.inl hbefore
        · cases hnew
          exact Or.inr (Nat.le_refl _)
      · exact Or.inr habove
    | words count => exact (ih h).imp_right (Nat.le_trans (Nat.le_add_right a count))
    | uses other => exact (ih h).imp_right (Nat.le_trans (Nat.le_add_right a 3))
    | calls other count => exact (ih h).imp_right (Nat.le_trans (Nat.le_add_right a 3))

/-- The bodies of the functions that the open scopes have so far start at or before `a`. -/
def Below (a : Address) (scopes : List Names) : Prop :=
  ∀ name body, Binds name body scopes → body ≤ a

theorem Below.later {a : Address} (h : Below a scopes) (count : Nat) : Below (a + count) scopes :=
  fun name body hbinds => Nat.le_trans (h name body hbinds) (Nat.le_add_right a count)

theorem Below.declare {a : Address} (h : Below a scopes) (name : String) {new : Option Address}
    (hnew : ∀ body, new = some body → body ≤ a) : Below a (declare name new scopes) :=
  fun other body hbinds => (binds_declare hbinds).elim (h other body) (hnew body)

theorem bareNames_declare (name : String) (new : Option Address) (scopes : List Names) :
    Scoping.bareNames (declare name new scopes) =
      (Scoping.bareNames scopes).modifyHead (name :: ·) := by
  cases scopes <;> rfl

/-- A call that finds its function leads back, and one that has to wait leads forward. -/
theorem known_iff_le {config : Config} (hforward : config.forwardCalls = true) {a : Address}
    {rest : List Mark} (hbelow : Below a scopes)
    (h : target config name scopes (complete (a + 3) scopes rest) = some body) :
    (∃ names ∈ Scoping.bareNames scopes, name ∈ names) ↔ body ≤ a := by
  unfold target at h
  rcases hfind : find name scopes with _ | found
  · rw [hfind, if_pos hforward] at h
    have hbinds := binds_of_find (Option.join_eq_some_iff.mp h)
    have habove := (binds_complete hbinds).resolve_left (not_binds_of_find hfind)
    have hnone := Scoping.findSome?_eq_none_iff.mp hfind
    exact ⟨fun h => absurd h hnone, fun h => absurd (Nat.le_trans habove h) (by omega)⟩
  · rw [hfind] at h
    subst h
    have hknown : ∃ names ∈ Scoping.bareNames scopes, name ∈ names := by
      apply Classical.byContradiction
      intro hnone
      rw [find, Scoping.findSome?_eq_none_iff.mpr hnone] at hfind
      cases hfind
    exact ⟨fun _ => hbelow name body (binds_of_find hfind), fun _ => hknown⟩

/-- **Direct calls are the calls that do not lead forward**, if functions may be called before they
    are defined and every call has a target. -/
theorem direct_iff {config : Config} (hforward : config.forwardCalls = true) {a : Address}
    {marks : List Mark} (hbelow : Below a scopes)
    (htargets : ∀ call ∈ calls config a scopes marks, call.1 ≠ none) :
    Scoping.Direct (Scoping.bareNames scopes) (marks.filterMap Mark.act?) ↔
      ∀ site ∈ (places a marks).zip (calls config a scopes marks),
        ∀ target, site.2.1 = some target → target ≤ site.1 := by
  induction marks generalizing a scopes with
  | nil => simp [Scoping.Direct, places]
  | cons m rest ih =>
    cases m with
    | opens => exact ih (fun name body h => hbelow name body (binds_push h)) htargets
    | closes =>
      have htail := ih (fun name body h => hbelow name body (binds_of_tail h)) htargets
      rw [Scoping.bareNames, List.map_tail] at htail
      exact htail
    | declares name =>
      have hnone : ∀ body, none = some body → body ≤ a := by
        rintro body ⟨⟩
      have hnew := ih (hbelow.declare name hnone) htargets
      rw [bareNames_declare] at hnew
      exact hnew
    | defines name =>
      have hhere : ∀ body, some a = some body → body ≤ a := by
        rintro body ⟨⟩
        exact Nat.le_refl a
      have hnew := ih (hbelow.declare name hhere) htargets
      rw [bareNames_declare] at hnew
      exact hnew
    | words count => exact ih (hbelow.later count) htargets
    | uses name => exact ih (hbelow.later 3) htargets
    | calls name count =>
      obtain ⟨hfirst, hrest⟩ := List.forall_mem_cons.mp htargets
      obtain ⟨body, hbody⟩ := Option.ne_none_iff_exists'.mp hfirst
      replace hbody : target config name scopes (complete (a + 3) scopes rest) = some body := hbody
      have hhead : (∀ other, some body = some other → other ≤ a) ↔ body ≤ a :=
        ⟨fun h => h body rfl, fun h other hother => Option.some.inj hother ▸ h⟩
      simp only [List.filterMap_cons, Mark.act?, Scoping.Direct, known_iff_le hforward hbelow hbody,
        ih (hbelow.later 3) hrest, places, calls, List.zip_cons_cons, List.forall_mem_cons, hbody,
        hhead]

end Reading

/-! ### Whole programs -/

/-- The calls of a tree are direct exactly if no call of its program leads forward. -/
theorem Tree.Compiles.direct_iff {config : Config} {tree : Tree} {p : Segment} {frame : Frame}
    {program : Program} (h : tree.Compiles config p frame program)
    (hforward : config.forwardCalls = true) :
    Scoping.Direct [[]] (tree.acts false) ↔
      ∀ row ∈ Listing.rows 0 program.code, row.Backward := by
  obtain ⟨targets, hsites, hcalls⟩ := h.sites
  have htargets : ∀ call ∈ Reading.calls config 0 [[]] (tree.wholeReading config),
      call.1 ≠ none := by
    rw [hcalls]
    intro call hcall
    obtain ⟨target, -, rfl⟩ := List.mem_map.mp hcall
    exact Option.some_ne_none _
  have hempty : ∀ name body, Reading.Binds name body [[]] → body ≤ 0 := by
    rintro name body ⟨names, hnames, hentry⟩
    rw [List.mem_singleton.mp hnames] at hentry
    cases hentry
  have hreading := Reading.direct_iff hforward hempty htargets
  have hacts := Tree.filterMap_named?_acts config none false tree .discard
  rw [Tree.wholeReading, ← hacts, Scoping.direct_filterMap_named?, ← Tree.wholeReading, hcalls,
    List.zip_map_right] at hreading
  rw [List.zip_map_right] at hsites
  refine hreading.trans ⟨?_, ?_⟩
  · intro hback row hrow operands hoperands
    have hsite : row.site? = some (row.offset, operands) := by rw [Row.site?, hoperands]; rfl
    have hmem := List.mem_filterMap.mpr ⟨row, hrow, hsite⟩
    rw [hsites] at hmem
    obtain ⟨⟨place, target, count⟩, hcall, heq⟩ := List.mem_map.mp hmem
    cases heq
    exact ⟨target, count, rfl, hback _ (List.mem_map_of_mem hcall) target rfl⟩
  · intro hback site hsite target htarget
    obtain ⟨⟨place, address, count⟩, hmem, rfl⟩ := List.mem_map.mp hsite
    cases htarget
    have hplace : (place, [Word.addr target, Word.int count]) ∈
        (Listing.rows 0 program.code).filterMap Row.site? := by
      rw [hsites]
      exact List.mem_map_of_mem hmem
    obtain ⟨row, hrow, heq⟩ := List.mem_filterMap.mp hplace
    obtain ⟨operands, hoperands, heq⟩ := Option.map_eq_some_iff.mp heq
    obtain ⟨other, otherCount, hcall, hle⟩ := hback row hrow operands hoperands
    cases hcall
    cases heq
    exact hle

/-- **Forbidding forward calls forbids nothing else.**  A tree compiles without them to a program
    exactly if it compiles with them to the same program and no call of it leads forward; and if it
    fails without them for another reason than a name that is not known, it fails with them for the
    same reason. -/
theorem forwardCalls_only_forbidden (tree : Tree) (halts : Bool) :
    (∀ program, tree.compile ⟨false, halts⟩ = .ok program ↔
      tree.compile ⟨true, halts⟩ = .ok program ∧
        ∀ row ∈ Listing.rows 0 program.code, row.Backward) ∧
      ∀ e, tree.compile ⟨false, halts⟩ = .error e →
        (∃ name, e = .unresolved name) ∨ tree.compile ⟨true, halts⟩ = .error e := by
  have hdirect : tree.WellScoped ⟨false, halts⟩ ↔
      tree.WellScoped ⟨true, halts⟩ ∧ Scoping.Direct [[]] (tree.acts false) :=
    Scoping.wellScoped_false_iff
  -- what compiles without forward calls compiles with them, to the same program
  have hsame : ∀ program, tree.compile ⟨false, halts⟩ = .ok program →
      tree.compile ⟨true, halts⟩ = .ok program := by
    intro program h
    have hscoped := (exists_program_iff _ tree).mp ⟨program, h⟩
    obtain ⟨program', h'⟩ := (exists_program_iff _ tree).mpr (hdirect.mp hscoped).1
    obtain ⟨p, frame, hcompiles⟩ := Tree.compiles_of_compile h
    obtain ⟨q, frame', hcompiles'⟩ := Tree.compiles_of_compile h'
    rw [h', hcompiles.eq_of_allow hcompiles']
  refine ⟨fun program => ⟨fun h => ⟨hsame program h, ?_⟩, ?_⟩, ?_⟩
  · have hscoped := (exists_program_iff _ tree).mp ⟨program, h⟩
    obtain ⟨p, frame, hcompiles⟩ := Tree.compiles_of_compile (hsame program h)
    exact (hcompiles.direct_iff rfl).mp (hdirect.mp hscoped).2
  · rintro ⟨h, hback⟩
    obtain ⟨p, frame, hcompiles⟩ := Tree.compiles_of_compile h
    have hscoped := (exists_program_iff _ tree).mp ⟨program, h⟩
    have hforbidden := hdirect.mpr ⟨hscoped, (hcompiles.direct_iff rfl).mpr hback⟩
    obtain ⟨program', h'⟩ := (exists_program_iff _ tree).mpr hforbidden
    rw [h', ← Except.ok.inj ((hsame program' h').symm.trans h)]
  · intro e h
    rw [compile_eq_error_iff] at h ⊢
    rcases Scoping.verdict_forward (tree.acts false) with ⟨name, hname⟩ | hverdict
    · exact Or.inl ⟨name, Except.error.inj (h.symm.trans hname)⟩
    · exact Or.inr (hverdict.trans h)

/-- A tree with a forward call, and one that is wrong either way. -/
theorem forwardCalls_doubling :
    (∃ row ∈ Listing.rows 0 Program.doubling.code, ¬row.Backward) ∧
      Tree.compile ⟨true, false⟩ (.seq [.declare ⟨"int"⟩ "x", .declare ⟨"int"⟩ "x"]) =
        .error (.redefinition "x") := by
  constructor
  · have hfails : Tree.doubling.compile ⟨false, false⟩ = .error (.unresolved "double") := rfl
    apply Classical.byContradiction
    intro hback
    have hall : ∀ row ∈ Listing.rows 0 Program.doubling.code, row.Backward := by
      intro row hrow
      apply Classical.byContradiction
      exact fun hforward => hback ⟨row, hrow, hforward⟩
    have hok := ((forwardCalls_only_forbidden .doubling false).1 .doubling).mpr ⟨rfl, hall⟩
    rw [hfails] at hok
    cases hok
  · rcases (forwardCalls_only_forbidden (.seq [.declare ⟨"int"⟩ "x", .declare ⟨"int"⟩ "x"])
      false).2 (.redefinition "x") rfl with ⟨name, hname⟩ | h
    · cases hname
    · exact h

end SceneCode
