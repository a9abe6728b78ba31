import SceneCode.Proofs.Emission.Determinism
import SceneCode.Proofs.Scoping.Acceptance

/-!
# Programs that grow at their end

Items that are added behind the others of a program do not change the code of the others:
`appending_keeps_code`.  Up to the halt the code of the shorter program is the beginning of the code
of the longer one, and its entry points stay where they are.

The code of the first items is generated before the others are seen, so the rules give it in both
runs.  What is left are the calls that wait until the program is complete.  The longer program gives
them their targets from a frame with more labels; but no label is ever replaced
(`Emits.keeps_labels`), and the shorter program has found a function for every call, so both frames
say the same about the names that matter.
-/

namespace SceneCode

/-! ### Labels stay -/

/-- The frame `g` has every label of `f`, under the same name. -/
def Frame.Extends (f g : Frame) : Prop :=
  ∀ name label, f.get? name = some label → g.get? name = some label

theorem Frame.Extends.refl (f : Frame) : f.Extends f := by
  intro name label hlabel
  exact hlabel

theorem Frame.Extends.trans {f g h : Frame} (hfg : f.Extends g) (hgh : g.Extends h) :
    f.Extends h := by
  intro name label hlabel
  exact hgh name label (hfg name label hlabel)

/-- A label is registered only under a name that has none. -/
theorem Frame.extends_of_register {f g : Frame} {name : String} {kind : LabelKind}
    {signature : Option Signature} {pc a : Address}
    (h : f.register name kind signature pc = .ok (a, g)) : f.Extends g := by
  intro other label hlabel
  rw [Frame.get?_of_register h]
  by_cases hother : other = name
  · subst hother
    rw [(registered_of_register h).fresh] at hlabel
    cases hlabel
  · rw [if_neg hother]
    exact hlabel

/-- A tree leaves the labels of the scope it stands in as they are. -/
theorem Emits.keeps_labels {config : Config} {fn : Option TypeName} {sc sc' : Scopes} {a : Address}
    {t : Tree} {u : Usage} {p : Segment} (h : Emits config fn sc a t u p sc') :
    sc.current.Extends sc'.current :=
  h.registers .refl .trans Frame.extends_of_register

theorem Frame.Extends.function? {f g : Frame} (h : f.Extends g) {name : String} {a : Address}
    (hname : Scopes.function? ⟨f, []⟩ name = some a) : Scopes.function? ⟨g, []⟩ name = some a := by
  unfold Scopes.function? Scopes.find? Scopes.frames Scopes.findIn at hname ⊢
  rcases hget : f.get? name with _ | label
  · rw [hget] at hname
    cases hname
  · rw [h name label hget]
    rw [hget] at hname
    exact hname

/-! ### Calls that find their function stay -/

/-- A frame that knows the functions of all calls gives them the same targets as any frame with
    more labels. -/
theorem Segment.map_settle_of_extends {p : Segment} {f g : Frame} (h : f.Extends g)
    (hcomplete : (p.settle f).pending = []) (a : Address) :
    (p.code a).map (Instruction.settle g) = (p.code a).map (Instruction.settle f) := by
  apply List.map_congr_left
  intro i hi
  rcases hname : i.pending? with _ | name
  · rw [Instruction.settle_of_pending?_eq_none g hname,
      Instruction.settle_of_pending?_eq_none f hname]
  · have hpending : name ∈ p.pending := by
      rw [← names_pendingCalls p a, Instruction.names_pendingCalls]
      exact List.mem_filterMap.mpr ⟨i, hi, hname⟩
    have hknown : f.get? name ≠ none := by
      intro hnone
      have hwaits := mem_pending_settle.mpr ⟨hpending, hnone⟩
      rw [hcomplete] at hwaits
      cases hwaits
    obtain ⟨label, hlabel⟩ := Option.ne_none_iff_exists'.mp hknown
    obtain ⟨count, rfl⟩ := Instruction.eq_call_of_pending?_eq_some hname
    simp only [Instruction.settle, Plain.settle, Target.settle, hlabel, h name label hlabel]

/-! ### Items one after the other -/

/-- What a sequence emits is what its first items emit with what the others emit behind it. -/
theorem Emits.of_append {config : Config} {fn : Option TypeName} {sc sc₂ : Scopes} {a : Address}
    {xs ys : List Tree} {u : Usage} {r : Segment}
    (h : Emits config fn sc a (.seq (xs ++ ys)) u r sc₂) :
    ∃ p sc₁ q, Emits config fn sc a (.seq xs) u p sc₁ ∧
      Emits config fn sc₁ (a + p.size) (.seq ys) u q sc₂ ∧
      r.code a = p.code a ++ q.code (a + p.size) := by
  induction xs generalizing sc a r with
  | nil => exact ⟨.nothing, sc, r, .seqNil, h, rfl⟩
  | cons x xs ih =>
    cases h with
    | seqCons hfirst hrest =>
      rename_i first mid rest
      obtain ⟨p, sc₁, q, hp, hq, hcode⟩ := ih hrest
      refine ⟨.seq first p, sc₁, q, .seqCons hfirst hp, ?_, ?_⟩
      · rw [Segment.size, ← Nat.add_assoc]
        exact hq
      · rw [Segment.code, Segment.code, Segment.size, hcode, List.append_assoc, Nat.add_assoc]

theorem Tree.actsAll_append (inside : Bool) (xs ys : List Tree) :
    actsAll inside (xs ++ ys) = actsAll inside xs ++ actsAll inside ys := by
  induction xs with
  | nil => rfl
  | cons x xs ih => rw [List.cons_append, actsAll, actsAll, ih, List.append_assoc]

/-- Where every call must find its function at once, nothing depends on what comes later. -/
theorem Scoping.WellScoped.of_append {current : Names} {outer : List Names} {acts more : List Act}
    (h : WellScoped false current outer (acts ++ more)) : WellScoped false current outer acts := by
  induction acts generalizing current outer with
  | nil => trivial
  | cons act rest ih =>
    cases act with
    | opens => exact ih h
    | closes =>
      cases outer with
      | nil => exact h
      | cons next outer => exact ih h
    | declares role name => exact ⟨h.1, ih h.2⟩
    | uses name => exact ⟨h.1, ih h.2⟩
    | calls name =>
      obtain ⟨hcall, hrest⟩ := h
      refine ⟨Or.inl ?_, ih hrest⟩
      rcases hcall with hknown | ⟨-, hforward, -⟩
      · exact hknown
      · cases hforward
    | returns inside => exact ⟨h.1, ih h.2⟩

/-! ### Whole programs -/

namespace Tree.Compiles

variable {config : Config} {tree : Tree} {p : Segment} {frame : Frame} {program : Program}

/-- The code of a program is that of its tree, with a halt behind it if the options ask for one. -/
theorem code_eq (h : tree.Compiles config p frame program) :
    program.code = Instruction.encode ((p.code 0).map (Instruction.settle frame)) ++
      Gen.haltWords config.emitHalt := by
  rw [h.code, Segment.words, Segment.whole, Segment.code, Segment.code_settle,
    Instruction.encode_append]
  cases config.emitHalt <;> rfl

/-- Both programs have the code of the first items, and the frame of the longer one has the labels
    of the other. -/
theorem keeps {xs ys : List Tree} {q : Segment} {longer : Program} {frame' : Frame}
    (h : (Tree.seq xs).Compiles config p frame program)
    (h' : (Tree.seq (xs ++ ys)).Compiles config q frame' longer) :
    frame.Extends frame' ∧
      Instruction.encode ((p.code 0).map (Instruction.settle frame)) <+: longer.code := by
  obtain ⟨first, sc, others, hfirst, hothers, hcode⟩ := h'.emits.of_append
  obtain ⟨rfl, rfl⟩ := h.emits.unique hfirst
  have hextends : frame.Extends frame' := hothers.keeps_labels
  refine ⟨hextends, ?_⟩
  rw [h'.code_eq, hcode, List.map_append, Instruction.encode_append, List.append_assoc,
    Segment.map_settle_of_extends hextends h.complete]
  exact List.prefix_append ..

end Tree.Compiles

/-- **Appending items keeps the code.**  If a sequence compiles with and without some more items at
    its end, the code of the shorter program up to its halt is the beginning of the code of the
    longer one, and the longer program has the entry points of the shorter one at the same
    addresses.  If no function may be called before it is defined, the shorter sequence compiles
    whenever the longer one does. -/
theorem appending_keeps_code (config : Config) (xs ys : List Tree) :
    (∀ shorter longer, (Tree.seq xs).compile config = .ok shorter →
      (Tree.seq (xs ++ ys)).compile config = .ok longer →
        (∃ front, shorter.code = front ++ Gen.haltWords config.emitHalt ∧ front <+: longer.code) ∧
        (∀ a, shorter.init = some a → longer.init = some a) ∧
        ∀ a, shorter.render = some a → longer.render = some a) ∧
      (config.forwardCalls = false → ∀ longer, (Tree.seq (xs ++ ys)).compile config = .ok longer →
        ∃ shorter, (Tree.seq xs).compile config = .ok shorter) := by
  constructor
  · intro shorter longer hshorter hlonger
    obtain ⟨p, frame, h⟩ := Tree.compiles_of_compile hshorter
    obtain ⟨q, frame', h'⟩ := Tree.compiles_of_compile hlonger
    obtain ⟨hextends, hprefix⟩ := h.keeps h'
    refine ⟨⟨_, h.code_eq, hprefix⟩, ?_, ?_⟩
    · intro a ha
      rw [h.init] at ha
      rw [h'.init]
      exact hextends.function? ha
    · intro a ha
      rw [h.render] at ha
      rw [h'.render]
      exact hextends.function? ha
  · intro hforward longer hlonger
    have hscoped := (exists_program_iff config _).mp ⟨longer, hlonger⟩
    apply (exists_program_iff config _).mpr
    unfold Tree.WellScoped Tree.acts at hscoped ⊢
    rw [hforward, Tree.actsAll_append] at hscoped
    rw [hforward]
    exact hscoped.of_append

/-- A function that calls the one behind it. -/
def Tree.setup : List Tree :=
  [.function "init" [] .void (.call "double" [.lit (.int 3)]),
   .function "double" [⟨⟨"int"⟩, "n"⟩] ⟨"int"⟩ (.ret (.binary .add (.ident "n") (.ident "n")))]

/-- A function that calls one defined before it. -/
def Tree.drawing : Tree :=
  .function "render" [] .void (.call "double" [.lit (.int 5)])

theorem appending_keeps_setup :
    (∃ shorter longer, (Tree.seq Tree.setup).compile ⟨true, true⟩ = .ok shorter ∧
      (Tree.seq (Tree.setup ++ [.drawing])).compile ⟨true, true⟩ = .ok longer ∧
      shorter.init = some 2 ∧ longer.init = some 2 ∧
      ∃ front, shorter.code = front ++ [.op .halt] ∧ front <+: longer.code) ∧
    ∃ shorter, (Tree.seq (Tree.setup.drop 1)).compile ⟨false, true⟩ = .ok shorter := by
  constructor
  · have hkeeps := (appending_keeps_code ⟨true, true⟩ Tree.setup [.drawing]).1 _ _ rfl rfl
    exact ⟨_, _, rfl, rfl, rfl, hkeeps.2.1 2 rfl, hkeeps.1⟩
  · apply (appending_keeps_code ⟨false, true⟩ (Tree.setup.drop 1) [.drawing]).2 rfl
    rfl

end SceneCode
