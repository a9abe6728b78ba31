import SceneCode.Proofs.Reading.Layout

/-!
# Readings tell where calls lead

The calls of the segment that a tree emits, once every scope around it is closed, are the calls of
the reading.  A tree is read in front of whatever comes after it, because what comes after may
declare the functions that the tree calls: `Reads` says that a stretch of a reading has the given
calls whatever the rest is, where a call that is still a name leads to what the open scopes have for
it when they close.
-/

namespace SceneCode

/-! ### Names of scopes -/

/-- The body of a function, or nothing for a variable. -/
def Label.body? (l : Label) : Option Address :=
  match l.kind with
  | .function => some l.address
  | .variable _ => none

def Frame.names (f : Frame) : Reading.Names :=
  f.labels.map fun (name, label) => (name, label.body?)

def Scopes.names (sc : Scopes) : List Reading.Names :=
  sc.frames.map Frame.names

theorem Scopes.names_push (sc : Scopes) : sc.push.names = [] :: sc.names := rfl

theorem Scopes.names_cons (frame : Frame) (sc : Scopes) :
    Scopes.names ⟨frame, sc.frames⟩ = frame.names :: sc.names := rfl

theorem Frame.lookup_names (f : Frame) (name : String) :
    f.names.lookup name = (f.get? name).map Label.body? :=
  f.lookup_map_labels Label.body? name

theorem Scopes.find_names (sc : Scopes) (name : String) :
    Reading.find name sc.names = (sc.find? name).map (·.label.body?) := by
  have hframes : ∀ (frames : List Frame) (depth : Nat),
      Reading.find name (frames.map Frame.names) =
        (findIn name frames depth).map (·.label.body?) := by
    intro frames
    induction frames with
    | nil =>
      intro depth
      rfl
    | cons f frames ih =>
      intro depth
      simp only [Reading.find, List.map_cons, List.findSome?_cons, Frame.lookup_names, findIn]
      rcases f.get? name with _ | label
      · exact ih (depth + 1)
      · rfl
  exact hframes sc.frames 0

/-- A name that is declared goes in front of the names of the innermost scope. -/
theorem Scopes.names_of_register {sc sc' : Scopes} {name : String} {kind : LabelKind}
    {signature : Option Signature} {pc a : Address}
    (h : sc.register name kind signature pc = .ok (a, sc')) :
    sc'.names = Reading.declare name (Label.body? ⟨a, kind, signature⟩) sc.names := by
  obtain ⟨hframe, houter⟩ := frame_of_register h
  have hlabels := (Frame.registered_of_register hframe).labels
  unfold names frames
  rw [List.map_cons, Frame.names, hlabels, houter]
  rfl

theorem Scopes.names_of_declare {sc sc' : Scopes} {type : TypeName} {name : String} {slot : Nat}
    (h : sc.declare type name = .ok (slot, sc')) :
    sc'.names = Reading.declare name none sc.names :=
  names_of_register h

theorem Scopes.names_of_define {sc sc' : Scopes} {name : String} {signature : Option Signature}
    {pc : Address} (h : sc.register name .function signature pc = .ok (pc, sc')) :
    sc'.names = Reading.declare name (some pc) sc.names :=
  names_of_register h

/-! ### Calls of segments -/

def Plain.call? : Plain → Option (Target × Nat)
  | .call target count => some (target, count)
  | _ => none

/-- The calls of a segment, in the order of their addresses. -/
def Segment.calls (p : Segment) : List (Target × Nat) :=
  p.plains.filterMap Plain.call?

namespace Segment

@[simp] theorem calls_nothing : nothing.calls = [] := rfl

@[simp] theorem calls_one (i : Plain) : (one i).calls = i.call?.toList := by
  cases i <;> rfl

@[simp] theorem calls_seq (p q : Segment) : (seq p q).calls = p.calls ++ q.calls :=
  List.filterMap_append

@[simp] theorem calls_skip (kind : Jump) (body : Segment) : (skip kind body).calls = body.calls :=
  rfl

@[simp] theorem calls_choice (body other : Segment) :
    (choice body other).calls = body.calls ++ other.calls :=
  List.filterMap_append

@[simp] theorem calls_loop (cond body : Segment) :
    (loop cond body).calls = cond.calls ++ body.calls :=
  List.filterMap_append

@[simp] theorem calls_rounds (body : Segment) (back : Jump) :
    (rounds body back).calls = body.calls :=
  rfl

@[simp] theorem calls_function (guarded : Bool) (body : Segment) :
    (function guarded body).calls = body.calls := by
  simp [calls, plains, Plain.call?]

@[simp] theorem calls_scope (p : Segment) : (scope p).calls = p.calls := by
  simp [scope, Plain.call?]

@[simp] theorem calls_finish (u : Usage) : (finish u).calls = [] := by
  cases u <;> rfl

@[simp] theorem calls_store (u : Usage) (depth slot : Nat) : (store u depth slot).calls = [] := by
  cases u <;> rfl

@[simp] theorem calls_leave (type : TypeName) : (leave type).calls = [] := by
  unfold leave
  split <;> rfl

theorem calls_settle (frame : Frame) (p : Segment) :
    (p.settle frame).calls = p.calls.map fun (target, count) => (target.settle frame, count) := by
  rw [calls, plains_settle, List.filterMap_map, calls, List.map_filterMap]
  congr 1
  funext i
  cases i <;> rfl

/-- A frame that settles a segment has no variable for the name of a call. -/
theorem SettledBy.of_mem_calls {p : Segment} {frame : Frame} (h : p.SettledBy frame)
    (name : String) (count : Nat) (hmem : (Target.pending name, count) ∈ p.calls) :
    ∀ label, frame.get? name = some label → label.kind = .function := by
  apply h name
  obtain ⟨i, hi, hcall⟩ := List.mem_filterMap.mp hmem
  cases i with
  | call target n =>
    cases hcall
    exact List.mem_filterMap.mpr ⟨_, hi, rfl⟩
  | _ => cases hcall

end Segment

namespace Reading

/-- Where a call leads once the scopes around it are `completed`. -/
def resolved (completed : List Names) : Target × Nat → Option Address × Nat
  | (.known address, count) => (some address, count)
  | (.pending name, count) => ((find name completed).join, count)

/-- A stretch of a reading from the address `a` on, which finds the scopes `before` and leaves the
    scopes `after`, has these calls. -/
structure Reads (config : Config) (a : Address) (before : List Names) (marks : List Mark)
    (after : List Names) (cs : List (Target × Nat)) : Prop where
  complete : ∀ rest, complete a before (marks ++ rest) = complete (a + width marks) after rest
  calls : ∀ rest, calls config a before (marks ++ rest) =
    cs.map (resolved (Reading.complete (a + width marks) after rest)) ++
      calls config (a + width marks) after rest

namespace Reads

variable {config : Config} {a b : Nat} {before mid after : List Names} {marks more : List Mark}
  {cs ds : List (Target × Nat)}

theorem nil : Reads config a before [] before [] :=
  ⟨fun _ => rfl, fun _ => rfl⟩

theorem append (h : Reads config a before marks mid cs) (h' : Reads config b mid more after ds)
    (hb : b = a + width marks) : Reads config a before (marks ++ more) after (cs ++ ds) where
  complete := by
    intro rest
    subst hb
    rw [List.append_assoc, h.complete, h'.complete, width_append, Nat.add_assoc]
  calls := by
    intro rest
    subst hb
    rw [List.append_assoc, h.calls, h'.calls, h'.complete, width_append, Nat.add_assoc,
      List.map_append, List.append_assoc]

theorem words (count : Nat) : Reads config a before [.words count] before [] :=
  ⟨fun _ => rfl, fun _ => rfl⟩

theorem uses (name : String) : Reads config a before [.uses name] before [] :=
  ⟨fun _ => rfl, fun _ => rfl⟩

theorem declares (name : String) :
    Reads config a before [.declares name] (declare name none before) [] :=
  ⟨fun _ => rfl, fun _ => rfl⟩

theorem defines (name : String) :
    Reads config a before [.defines name] (declare name (some a) before) [] :=
  ⟨fun _ => rfl, fun _ => rfl⟩

theorem finish (u : Usage) : Reads config a before (Mark.finish u) before [] := by
  cases u with
  | value => exact nil
  | discard => exact words 1

theorem store (u : Usage) (name : String) : Reads config a before (Mark.store u name) before [] := by
  cases u with
  | value => exact (words 1).append (uses name) rfl
  | discard => exact uses name

/-- A call, whether its function is known already or not. -/
theorem call {sc : Scopes} {name : String} {t : Target} (count : Nat)
    (h : sc.CallsTo config name t) :
    Reads config a sc.names [.calls name count] sc.names [(t, count)] := by
  refine ⟨fun _ => rfl, fun rest => ?_⟩
  have htarget : (target config name sc.names (Reading.complete (a + 3) sc.names rest), count) =
      resolved (Reading.complete (a + 3) sc.names rest) (t, count) := by
    cases t with
    | known address =>
      unfold Scopes.CallsTo Scopes.function? at h
      unfold target
      rw [Scopes.find_names]
      rcases hfind : sc.find? name with _ | ⟨⟨address', kind, signature⟩, depth⟩
      · rw [hfind] at h
        cases h
      · cases kind with
        | function =>
          rw [hfind] at h
          cases h
          rfl
        | «variable» type =>
          rw [hfind] at h
          cases h
    | pending other =>
      obtain ⟨rfl, hnone, hallowed⟩ := h
      simp [target, Scopes.find_names, hnone, hallowed, resolved]
  exact congrArg (· :: Reading.calls config (a + 3) sc.names rest) htarget

/-- A frame that closes settles the calls that it knows, and the scopes around it have the rest. -/
theorem resolved_settle {frame : Frame} {completed : List Names} {t : Target} (count : Nat)
    (h : ∀ name, t = .pending name → ∀ label, frame.get? name = some label →
      label.kind = .function) :
    resolved (frame.names :: completed) (t, count) =
      resolved completed (t.settle frame, count) := by
  cases t with
  | known address => rfl
  | pending name =>
    simp only [resolved, Target.settle, find, List.findSome?_cons, Frame.lookup_names]
    rcases hlabel : frame.get? name with _ | label
    · rfl
    · simp [Label.body?, h name rfl label hlabel]

/-- A scope with its names.  What it has declared is gone when it closes. -/
theorem closed {frame : Frame} {sc : Scopes} {p : Segment}
    (h : Reads config a sc.push.names marks (Scopes.names ⟨frame, sc.frames⟩) p.calls)
    (hsettled : p.SettledBy frame) :
    Reads config a sc.names ([.opens] ++ marks ++ [.closes]) sc.names (p.settle frame).calls where
  complete := by
    intro rest
    have hbody := h.complete (.closes :: rest)
    rw [Scopes.names_push, Scopes.names_cons] at hbody
    simp only [List.append_assoc, List.cons_append, List.nil_append, Reading.complete] at hbody ⊢
    rw [hbody]
    simp [Mark.width]
  calls := by
    intro rest
    have hbody := h.calls (.closes :: rest)
    rw [Scopes.names_push, Scopes.names_cons] at hbody
    simp only [List.append_assoc, List.cons_append, List.nil_append, Reading.calls,
      Reading.complete, List.tail_cons] at hbody ⊢
    rw [hbody, Segment.calls_settle, List.map_map]
    simp only [width_append, width_cons, width_nil, Mark.width, Nat.zero_add, Nat.add_zero]
    congr 1
    apply List.map_congr_left
    rintro ⟨t, count⟩ hmem
    apply resolved_settle count
    rintro name rfl
    exact hsettled.of_mem_calls name count hmem

/-- A scope that the machine is told about. -/
theorem scope {frame : Frame} {sc : Scopes} {p : Segment}
    (h : Reads config (a + 1) sc.push.names marks (Scopes.names ⟨frame, sc.frames⟩) p.calls)
    (hsettled : p.SettledBy frame) :
    Reads config a sc.names (Mark.scope marks) sc.names (Segment.scope (p.settle frame)).calls := by
  have hbody := (words 1).append (a := a) h rfl
  simpa [Mark.scope] using (hbody.closed hsettled).append (words 1) rfl

/-- The parameters of a function. -/
theorem params {ps : List Param} {sc sc' : Scopes} (h : sc.declareAll ps = .ok sc') :
    Reads config a sc.names (ps.map fun p => .declares p.name) sc'.names [] := by
  induction ps generalizing sc with
  | nil =>
    cases h
    exact nil
  | cons p ps ih =>
    obtain ⟨slot, next, hdeclare, hrest⟩ := Scopes.declareAll_cons.mp h
    have hfirst : Reads config a sc.names [.declares p.name] next.names [] := by
      rw [Scopes.names_of_declare hdeclare]
      exact declares p.name
    exact hfirst.append (ih hrest) rfl

end Reads

end Reading

/-! ### Trees -/

open Reading in
/-- **The calls of a tree are the calls of its reading.** -/
theorem Emits.reads {config : Config} {fn : Option TypeName} {sc sc' : Scopes} {a : Address}
    {t : Tree} {u : Usage} {p : Segment} (h : Emits config fn sc a t u p sc') :
    Reads config a sc.names (t.reading config fn u) sc'.names p.calls := by
  induction h with
  | empty | seqNil => exact .nil
  | retEmpty => exact .words 1
  | declare hdeclare =>
    rw [Scopes.names_of_declare hdeclare]
    exact .declares _
  | seqCons hp _ ihp ihq =>
    simp only [Tree.reading] at ihq
    simpa [Tree.reading, Tree.readingAll] using ihp.append ihq (by rw [hp.width_reading])
  | program _ ih => rwa [Tree.reading]
  | block _ hsettled ih => exact ih.scope hsettled
  | @function fn sc a u name params returns body sc₁ sc₂ p frame hreg hparams hbody hsettled ih =>
    -- the label goes into the scope around, the parameters into the scope of the body
    have hlabel : Reads config a sc.names [.words (Mark.guard config fn), .defines name]
        sc₁.names [] := by
      rw [Scopes.names_of_define hreg]
      exact (Reads.words _).append (.defines name) rfl
    have hinside := ((Reads.params (a := a + Segment.guardSize (guarded config fn)) hparams).append
      ih (by simp)).append (.words 1) rfl
    simp only [List.nil_append, List.append_nil] at hinside
    have hclosed := Reads.closed hinside hsettled
    simpa [Tree.reading] using hlabel.append hclosed (by simp [Mark.width, guard_eq])
  | ret hempty _ ih => simpa [Tree.reading, hempty] using ih.append (.words _) rfl
  | declareWith _ hdeclare ih =>
    rw [Scopes.names_of_declare hdeclare]
    simpa [Tree.reading, Plain.call?] using (ih.append (.declares _) rfl).append (.words 3) rfl
  | assign _ _ ih => simpa [Tree.reading] using ih.append (.store _ _) rfl
  | compound _ _ _ ih =>
    simpa [Tree.reading, Plain.call?] using
      (((Reads.uses _).append ih rfl).append (.words 1) rfl).append (.store _ _) rfl
  | step =>
    simpa [Tree.reading, Segment.ops, Plain.call?] using
      ((Reads.uses _).append (.words 3) rfl).append (.store _ _) rfl
  | ifThen hp _ ihp ihq =>
    simpa [Tree.reading] using
      (ihp.append (.words 2) rfl).append ihq (by simp [hp.width_reading, Mark.width, Nat.add_assoc])
  | ifElse hp hq _ ihp ihq ihr =>
    have hcond := ihp.append (.words 2) rfl
    have hbody := (hcond.append ihq (by simp [hp.width_reading, Mark.width, Nat.add_assoc])).append
      (.words 2) rfl
    simpa [Tree.reading] using hbody.append ihr
      (by simp [hp.width_reading, hq.width_reading, Mark.width, Nat.add_assoc])
  | whileLoop hp _ ihp ihq =>
    have hcond := ihp.append (.words 2) rfl
    simpa [Tree.reading] using
      (hcond.append ihq (by simp [hp.width_reading, Mark.width, Nat.add_assoc])).append
        (.words 2) rfl
  | doLoop hp _ ihp ihq =>
    simpa [Tree.reading] using
      (ihp.append ihq (by rw [hp.width_reading])).append (.words 2) rfl
  | forEndless hp hq _ hsettled ihp ihq ihr =>
    have hround := (ihq.append ihr (by rw [hq.width_reading])).append (.words 2) rfl
    have hinside := ihp.append hround (by rw [hp.width_reading])
    have hscope := Reads.scope (by simpa using hinside) hsettled
    simpa [Tree.reading, Tree.isEmpty] using hscope
  | forLoop hempty hp hc hq _ hsettled ihp ihc ihq ihr =>
    have htest := ihc.append (.words 2) rfl
    have hbody := htest.append ihq (by simp [hc.width_reading, Mark.width, Nat.add_assoc])
    have hround := hbody.append ihr
      (by simp [hc.width_reading, hq.width_reading, Mark.width, Nat.add_assoc])
    have hinside := ihp.append (hround.append (.words 2) rfl) (by rw [hp.width_reading])
    have hscope := Reads.scope (by simpa using hinside) hsettled
    simpa [Tree.reading, hempty] using hscope
  | call _ hcalls ih =>
    simp only [Tree.reading] at ih
    simpa [Tree.reading, Plain.call?] using
      (ih.append (.call _ hcalls) rfl).append (.finish _) rfl
  | binary hp _ ihp ihq =>
    simpa [Tree.reading, Plain.call?] using
      ((ihp.append ihq (by rw [hp.width_reading])).append (.words 1) rfl).append (.finish _) rfl
  | logical hp _ ihp ihq =>
    have hleft := ihp.append (.words 4) rfl
    simpa [Tree.reading, Plain.call?] using
      (hleft.append ihq (by simp [hp.width_reading, Mark.width, Nat.add_assoc])).append
        (.finish _) rfl
  | unary _ ih =>
    simpa [Tree.reading, Plain.call?] using (ih.append (.words 1) rfl).append (.finish _) rfl
  | ident => simpa [Tree.reading, Plain.call?] using (Reads.uses _).append (.finish _) rfl
  | lit => simpa [Tree.reading, Plain.call?] using (Reads.words 2).append (.finish _) rfl

end SceneCode
