import SceneCode.Proofs.ControlFlow
import SceneCode.Proofs.Scoping.Tracking

/-!
# Variables of whole programs

A variable is addressed by a depth and a slot.  `Variables.places` says which pair that is, from the
tree alone: it walks through the tree in the order in which code is generated, keeps the names that
each open scope has declared so far, and counts.  The instructions of a program that read and write
variables have exactly these pairs, in the order of their addresses (`variables_follow_scopes`).

The frames of a session number the variables when they are declared.  What ties the two together is
`Frame.Numbered`: the slot of a variable is the number of variables that were declared before it in
the same scope, however many functions stand between them.
-/

namespace SceneCode

/-! ### Reading a tree -/

/-- One thing that matters for the places of variables. -/
inductive Visit where
  /-- A scope opens. -/
  | opens
  /-- The innermost scope closes. -/
  | closes
  /-- A name is declared in the innermost scope. -/
  | declares (role : Role) (name : String)
  /-- A variable is declared in the innermost scope, and its first value is written. -/
  | begins (name : String)
  /-- A variable is read or written. -/
  | uses (name : String)
deriving DecidableEq, Repr

namespace Tree

mutual

/-- What a tree does with variables.  The first value of a variable comes before its declaration,
    and an assignment with an operator reads its variable first and writes it last. -/
def visits : Tree → List Visit
  | .empty => []
  | .seq items => visitsAll items
  | .program body => visits body
  | .block body => [.opens] ++ visits body ++ [.closes]
  | .function name params _ body =>
    [.declares .function name, .opens] ++ params.map (fun p => .declares .variable p.name) ++
      visits body ++ [.closes]
  | .ret value => visits value
  | .declare _ name => [.declares .variable name]
  | .declareWith _ name value => visits value ++ [.begins name]
  | .assign name value => visits value ++ [.uses name]
  | .compound _ name value => [.uses name] ++ visits value ++ [.uses name]
  | .step _ name => [.uses name, .uses name]
  | .ifThen cond body => visits cond ++ visits body
  | .ifElse cond body other => visits cond ++ visits body ++ visits other
  | .whileLoop cond body => visits cond ++ visits body
  | .doLoop cond body => visits body ++ visits cond
  | .forLoop init cond update body =>
    [.opens] ++ visits init ++ visits cond ++ visits body ++ visits update ++ [.closes]
  | .call _ args => visitsAll args
  | .binary _ lhs rhs => visits lhs ++ visits rhs
  | .logical _ lhs rhs => visits lhs ++ visits rhs
  | .unary _ operand => visits operand
  | .ident name => [.uses name]
  | .lit _ => []

def visitsAll : List Tree → List Visit
  | [] => []
  | t :: rest => visits t ++ visitsAll rest

end

end Tree

namespace Variables

open Scoping (Names)

/-! ### Places of names -/

/-- The number of variables among the names of a scope. -/
def count (names : Names) : Nat :=
  names.countP fun (_, role) => role = .variable

/-- What a name of one scope stands for, and how many variables the scope has declared before it. -/
def rank? (name : String) : Names → Option (Role × Nat)
  | [] => none
  | (other, role) :: earlier =>
    if name = other then some (role, count earlier) else rank? name earlier

/-- The depth and the slot of a variable, if the innermost scope that has its name has it as one. -/
def place (name : String) : List Names → Option (Nat × Nat)
  | [] => none
  | names :: outer =>
    match rank? name names with
    | some (.variable, slot) => some (0, slot)
    | some (.function, _) => none
    | none => (place name outer).map fun (depth, slot) => (depth + 1, slot)

def declare (role : Role) (name : String) : List Names → List Names
  | [] => []
  | names :: outer => ((name, role) :: names) :: outer

/-- The places of all variables that are read or written, in order, if `scopes` are open before. -/
def places : List Names → List Visit → List (Option (Nat × Nat))
  | _, [] => []
  | scopes, .opens :: rest => places ([] :: scopes) rest
  | scopes, .closes :: rest => places scopes.tail rest
  | scopes, .declares role name :: rest => places (declare role name scopes) rest
  -- the new variable is the last one of the innermost scope
  | scopes, .begins name :: rest =>
    scopes.head?.map (fun names => (0, count names)) ::
      places (declare .variable name scopes) rest
  | scopes, .uses name :: rest => place name scopes :: places scopes rest

/-! ### Different variables have different places -/

theorem count_cons (name : String) (role : Role) (names : Names) :
    count ((name, role) :: names) = count names + if role = .variable then 1 else 0 := by
  simp [count, List.countP_cons]

/-- The slot of a variable is below the number of all variables of its scope. -/
theorem lt_count_of_rank? {name : String} {names : Names} {slot : Nat}
    (h : rank? name names = some (.variable, slot)) : slot < count names := by
  induction names with
  | nil => cases h
  | cons first earlier ih =>
    obtain ⟨other, role⟩ := first
    rw [rank?] at h
    rw [count_cons]
    split at h
    · cases h
      simp
    · exact Nat.lt_of_lt_of_le (ih h) (Nat.le_add_right ..)

theorem eq_of_rank? {n m : String} {names : Names} {slot : Nat}
    (hn : rank? n names = some (.variable, slot)) (hm : rank? m names = some (.variable, slot)) :
    n = m := by
  induction names with
  | nil => cases hn
  | cons first earlier ih =>
    obtain ⟨other, role⟩ := first
    rw [rank?] at hn hm
    by_cases hfirst : n = other
    · by_cases hsecond : m = other
      · rw [hfirst, hsecond]
      · -- the first name has the slot behind all earlier ones
        rw [if_pos hfirst] at hn
        rw [if_neg hsecond] at hm
        cases hn
        exact absurd (lt_count_of_rank? hm) (Nat.lt_irrefl _)
    · by_cases hsecond : m = other
      · rw [if_neg hfirst] at hn
        rw [if_pos hsecond] at hm
        cases hm
        exact absurd (lt_count_of_rank? hn) (Nat.lt_irrefl _)
      · rw [if_neg hfirst] at hn
        rw [if_neg hsecond] at hm
        exact ih hn hm

/-- A place in the innermost scope belongs to a name of that scope. -/
theorem place_cons_eq_some_iff {name : String} {names : Names} {outer : List Names}
    {depth slot : Nat} :
    place name (names :: outer) = some (depth, slot) ↔
      (depth = 0 ∧ rank? name names = some (.variable, slot)) ∨
        ∃ d, depth = d + 1 ∧ rank? name names = none ∧ place name outer = some (d, slot) := by
  rw [place]
  rcases hrank : rank? name names with _ | ⟨role, n⟩
  · simp only [Option.map_eq_some_iff, Prod.exists, Prod.mk.injEq, reduceCtorEq, and_false,
      false_or, true_and]
    constructor
    · rintro ⟨d, s, hplace, rfl, rfl⟩
      exact ⟨d, rfl, hplace⟩
    · rintro ⟨d, rfl, hplace⟩
      exact ⟨d, slot, hplace, rfl, rfl⟩
  · cases role with
    | function => simp
    | «variable» =>
      simp only [Option.some.injEq, Prod.mk.injEq, true_and, reduceCtorEq, false_and, and_false,
        exists_false, or_false]
      exact and_congr_left' eq_comm

/-- **Two names with the same place are the same name**, whatever scopes are open. -/
theorem place_injective {n m : String} {scopes : List Names} {pair : Nat × Nat}
    (hn : place n scopes = some pair) (hm : place m scopes = some pair) : n = m := by
  obtain ⟨depth, slot⟩ := pair
  induction scopes generalizing depth with
  | nil => cases hn
  | cons names outer ih =>
    rcases place_cons_eq_some_iff.mp hn with ⟨hzero, hrank⟩ | ⟨d, hsucc, -, hplace⟩
    · rcases place_cons_eq_some_iff.mp hm with ⟨-, hrank'⟩ | ⟨d, hsucc, -⟩
      · exact eq_of_rank? hrank hrank'
      · omega
    · rcases place_cons_eq_some_iff.mp hm with ⟨hzero, -⟩ | ⟨d', hsucc', -, hplace'⟩
      · omega
      · obtain rfl : d = d' := by omega
        exact ih d hplace hplace'

end Variables

theorem Variables.map_fst_rank? (name : String) (names : Scoping.Names) :
    (Variables.rank? name names).map Prod.fst = names.lookup name := by
  induction names with
  | nil => rfl
  | cons first earlier ih =>
    obtain ⟨other, role⟩ := first
    rw [Variables.rank?, List.lookup_cons]
    by_cases hname : name = other
    · simp [hname]
    · rw [if_neg hname, ih, beq_false_of_ne hname]

/-! ### Frames that number their variables -/

open Variables

/-- The slots of a frame are the numbers of the variables before them. -/
structure Frame.Numbered (f : Frame) : Prop where
  slots : f.slots = count f.scope.names
  rank : ∀ {name label}, f.get? name = some label → label.kind.role = .variable →
    rank? name f.scope.names = some (.variable, label.address)

namespace Frame

theorem numbered_empty : Frame.Numbered {} where
  slots := rfl
  rank h := by cases h

/-- A name that a frame has not got is no name of its scope. -/
theorem rank?_eq_none {f : Frame} {name : String} (h : f.get? name = none) :
    rank? name f.scope.names = none := by
  have hlookup := map_fst_rank? name f.scope.names
  rw [lookup_scope, h] at hlookup
  exact Option.map_eq_none_iff.mp hlookup

/-- A new name goes in front of the others, and keeps the count. -/
theorem scope_of_register {f g : Frame} {name : String} {kind : LabelKind}
    {signature : Option Signature} {pc a : Address}
    (h : f.register name kind signature pc = .ok (a, g)) :
    g.scope.names = (name, kind.role) :: f.scope.names ∧
      g.slots = f.slots + (if kind.role = .variable then 1 else 0) ∧
      (kind.role = .variable → a = f.slots) := by
  have hregistered := registered_of_register h
  have hslots := hregistered.slots
  have hslot := hregistered.slot
  unfold scope
  rw [hregistered.labels]
  cases kind with
  | function => exact ⟨rfl, hslots, nofun⟩
  | «variable» type => exact ⟨rfl, hslots, fun _ => hslot rfl⟩

/-- Every label that a frame gives out keeps its numbers right. -/
theorem Numbered.register {f g : Frame} {name : String} {kind : LabelKind}
    {signature : Option Signature} {pc a : Address} (hf : f.Numbered)
    (h : f.register name kind signature pc = .ok (a, g)) : g.Numbered := by
  obtain ⟨hnames, hslots, hnew⟩ := scope_of_register h
  refine ⟨?_, ?_⟩
  · rw [hslots, hnames, count_cons, hf.slots]
  · intro other label hother hkind
    rw [get?_of_register h] at hother
    rw [hnames, rank?]
    by_cases hname : other = name
    · rw [if_pos hname] at hother ⊢
      cases hother
      rw [hnew hkind, hf.slots, show kind.role = .variable from hkind]
    · rw [if_neg hname] at hother ⊢
      exact hf.rank hother hkind

end Frame

namespace Scopes

/-- The names of the open scopes, innermost first. -/
def roles (sc : Scopes) : List Scoping.Names :=
  sc.frames.map fun f => f.scope.names

/-- All open scopes number their variables. -/
def Numbered (sc : Scopes) : Prop :=
  ∀ f ∈ sc.frames, f.Numbered

theorem Numbered.push {sc : Scopes} (h : sc.Numbered) : sc.push.Numbered :=
  List.forall_mem_cons.mpr ⟨Frame.numbered_empty, h⟩

theorem Numbered.register {sc sc' : Scopes} {name : String} {kind : LabelKind}
    {signature : Option Signature} {pc a : Address} (hsc : sc.Numbered)
    (h : sc.register name kind signature pc = .ok (a, sc')) : sc'.Numbered := by
  obtain ⟨hcurrent, houter⟩ := frame_of_register h
  obtain ⟨hfirst, hrest⟩ := List.forall_mem_cons.mp hsc
  refine List.forall_mem_cons.mpr ⟨hfirst.register hcurrent, ?_⟩
  rw [houter]
  exact hrest

theorem roles_of_register {sc sc' : Scopes} {name : String} {kind : LabelKind}
    {signature : Option Signature} {pc a : Address}
    (h : sc.register name kind signature pc = .ok (a, sc')) :
    sc'.roles = Variables.declare kind.role name sc.roles := by
  obtain ⟨hcurrent, houter⟩ := frame_of_register h
  simp only [roles, frames, List.map_cons, Variables.declare, houter,
    (Frame.scope_of_register hcurrent).1]

/-- A variable that a session finds is where counting finds it. -/
theorem place_of_findIn {name : String} {frames : List Frame} {start : Nat} {r : Resolved}
    (hframes : ∀ f ∈ frames, f.Numbered) (h : findIn name frames start = some r)
    (hkind : r.label.kind.role = .variable) :
    ∃ depth, r.depth = start + depth ∧
      place name (frames.map fun f => f.scope.names) = some (depth, r.label.address) := by
  induction frames generalizing start with
  | nil => cases h
  | cons f rest ih =>
    obtain ⟨hfirst, hrest⟩ := List.forall_mem_cons.mp hframes
    rw [findIn] at h
    split at h
    · rename_i label hlabel
      cases h
      exact ⟨0, rfl, place_cons_eq_some_iff.mpr (Or.inl ⟨rfl, hfirst.rank hlabel hkind⟩)⟩
    · rename_i hnone
      obtain ⟨d, hdepth, hplace⟩ := ih hrest h
      refine ⟨d + 1, by omega, place_cons_eq_some_iff.mpr (Or.inr ⟨d, rfl, ?_, hplace⟩)⟩
      exact Frame.rank?_eq_none hnone

theorem Numbered.place {sc : Scopes} {name : String} {depth slot : Nat} (hsc : sc.Numbered)
    (h : sc.locate? name = some (depth, slot)) :
    Variables.place name sc.roles = some (depth, slot) := by
  unfold locate? at h
  split at h
  · rename_i address type signature found hfind
    cases h
    obtain ⟨d, hdepth, hplace⟩ := place_of_findIn hsc hfind rfl
    have hd : depth = d := hdepth.trans (Nat.zero_add d)
    rw [hd]
    exact hplace
  · cases h

end Scopes

/-! ### Variables of segments -/

def Plain.access? : Plain → Option (Nat × Nat)
  | .load depth slot | .store depth slot => some (depth, slot)
  | _ => none

/-- The places that a segment reads and writes, in the order of their addresses. -/
def Segment.accesses (p : Segment) : List (Nat × Nat) :=
  p.plains.filterMap Plain.access?

namespace Segment

@[simp] theorem accesses_nothing : nothing.accesses = [] := rfl

@[simp] theorem accesses_one (i : Plain) : (one i).accesses = i.access?.toList := by
  cases i <;> rfl

@[simp] theorem accesses_seq (p q : Segment) : (seq p q).accesses = p.accesses ++ q.accesses :=
  List.filterMap_append

@[simp] theorem accesses_skip (kind : Jump) (body : Segment) :
    (skip kind body).accesses = body.accesses := rfl

@[simp] theorem accesses_choice (body other : Segment) :
    (choice body other).accesses = body.accesses ++ other.accesses :=
  List.filterMap_append

@[simp] theorem accesses_loop (cond body : Segment) :
    (loop cond body).accesses = cond.accesses ++ body.accesses :=
  List.filterMap_append

@[simp] theorem accesses_rounds (body : Segment) (back : Jump) :
    (rounds body back).accesses = body.accesses := rfl

@[simp] theorem accesses_function (guarded : Bool) (body : Segment) :
    (function guarded body).accesses = body.accesses := by
  simp [accesses, plains, Plain.access?]

@[simp] theorem accesses_scope (p : Segment) : (scope p).accesses = p.accesses := by
  simp [scope, Plain.access?]

@[simp] theorem accesses_finish (u : Usage) : (finish u).accesses = [] := by
  cases u <;> rfl

@[simp] theorem accesses_store (u : Usage) (depth slot : Nat) :
    (store u depth slot).accesses = [(depth, slot)] := by
  cases u <;> rfl

@[simp] theorem accesses_leave (type : TypeName) : (leave type).accesses = [] := by
  unfold leave
  split <;> rfl

@[simp] theorem accesses_settle (frame : Frame) (p : Segment) :
    (p.settle frame).accesses = p.accesses := by
  rw [accesses, plains_settle, List.filterMap_map, accesses]
  congr 1
  funext i
  cases i <;> rfl

end Segment

/-! ### Trees -/

/-- Between the scopes `sc` and `sc'` these visits have these places, whatever comes behind them. -/
structure Variables.Visits (sc : Scopes) (visits : List Visit) (sc' : Scopes)
    (pairs : List (Nat × Nat)) : Prop where
  numbered : sc'.Numbered
  places : ∀ rest, places sc.roles (visits ++ rest) =
    pairs.map some ++ places sc'.roles rest

namespace Variables.Visits

variable {sc mid sc' : Scopes} {visits more : List Visit} {pairs others : List (Nat × Nat)}

theorem nil (h : sc.Numbered) : Visits sc [] sc [] :=
  ⟨h, fun _ => rfl⟩

theorem append (h : Visits sc visits mid pairs) (h' : Visits mid more sc' others) :
    Visits sc (visits ++ more) sc' (pairs ++ others) where
  numbered := h'.numbered
  places := by
    intro rest
    rw [List.append_assoc, h.places, h'.places, List.map_append, List.append_assoc]

theorem uses {name : String} {depth slot : Nat} (h : sc.Numbered)
    (hname : sc.locate? name = some (depth, slot)) :
    Visits sc [.uses name] sc [(depth, slot)] := by
  refine ⟨h, fun rest => ?_⟩
  simp [Variables.places, h.place hname]

theorem register {name : String} {kind : LabelKind} {signature : Option Signature}
    {pc a : Address} (h : sc.Numbered)
    (hregister : sc.register name kind signature pc = .ok (a, sc')) :
    Visits sc [.declares kind.role name] sc' [] := by
  refine ⟨h.register hregister, fun rest => ?_⟩
  simp [Variables.places, Scopes.roles_of_register hregister]

/-- The first value of a variable goes into the slot that the variable has just got. -/
theorem begins {type : TypeName} {name : String} {slot : Nat} (h : sc.Numbered)
    (hdeclare : sc.declare type name = .ok (slot, sc')) :
    Visits sc [.begins name] sc' [(0, slot)] := by
  have hregister := Scopes.frame_of_register hdeclare
  have hslot : slot = count sc.current.scope.names := by
    rw [(Frame.scope_of_register hregister.1).2.2 rfl]
    exact (List.forall_mem_cons.mp h).1.slots
  refine ⟨h.register hdeclare, fun rest => ?_⟩
  rw [Scopes.roles_of_register hdeclare, hslot]
  rfl

theorem params {ps : List Param} (h : sc.Numbered) (hdeclare : sc.declareAll ps = .ok sc') :
    Visits sc (ps.map fun p => .declares .variable p.name) sc' [] := by
  induction ps generalizing sc with
  | nil =>
    cases hdeclare
    exact nil h
  | cons p ps ih =>
    obtain ⟨slot, mid, hfirst, hrest⟩ := Scopes.declareAll_cons.mp hdeclare
    have hvisit := register h hfirst
    exact hvisit.append (ih hvisit.numbered hrest)

/-- Behind a scope that has been closed the scopes around it are as they were before. -/
theorem scope {frame : Frame} (h : sc.Numbered)
    (hbody : Visits sc.push visits ⟨frame, sc.frames⟩ pairs) :
    Visits sc ([.opens] ++ visits ++ [.closes]) sc pairs := by
  refine ⟨h, fun rest => ?_⟩
  have hinside := hbody.places (.closes :: rest)
  simp only [List.append_assoc, List.cons_append, List.nil_append, Variables.places] at hinside ⊢
  exact hinside

end Variables.Visits

open Variables (Visits) in
/-- **The variables of a tree are where counting finds them.**  One case for each rule: a scope
    gives its names up when it closes, everything else passes them on. -/
theorem Emits.visits {config : Config} {fn : Option TypeName} {sc sc' : Scopes} {a : Address}
    {t : Tree} {u : Usage} {p : Segment} (h : Emits config fn sc a t u p sc')
    (hsc : sc.Numbered) : Visits sc t.visits sc' p.accesses := by
  induction h with
  | empty | seqNil | retEmpty => exact Visits.nil hsc
  | lit => simpa [Tree.visits, Plain.access?] using Visits.nil hsc
  | seqCons _ _ ihp ihq =>
    have hp := ihp hsc
    simpa [Tree.visits, Tree.visitsAll] using hp.append (ihq hp.numbered)
  | program _ ih => exact ih hsc
  | block _ _ ih => simpa [Tree.visits] using (ih hsc.push).scope hsc
  | function hregister hparams _ _ ih =>
    have hname := Visits.register hsc hregister
    have hinside := Visits.params hname.numbered.push hparams
    have hbody := (hinside.append (ih hinside.numbered)).scope hname.numbered
    simpa [Tree.visits, LabelKind.role] using hname.append hbody
  | ret _ _ ih => simpa [Tree.visits] using ih hsc
  | declare hdeclare => exact Visits.register hsc hdeclare
  | declareWith _ hdeclare ih =>
    have hp := ih hsc
    simpa [Tree.visits, Plain.access?] using hp.append (Visits.begins hp.numbered hdeclare)
  | assign _ hname ih =>
    have hp := ih hsc
    simpa [Tree.visits] using hp.append (Visits.uses hp.numbered hname)
  | compound hread _ hname ih =>
    have hp := ih hsc
    simpa [Tree.visits, Plain.access?] using
      ((Visits.uses hsc hread).append hp).append (Visits.uses hp.numbered hname)
  | step hname =>
    have hread := Visits.uses hsc hname
    simpa [Tree.visits, Segment.ops, Plain.access?] using hread.append hread
  | ifThen _ _ ihp ihq | whileLoop _ _ ihp ihq | doLoop _ _ ihp ihq | binary _ _ ihp ihq
  | logical _ _ ihp ihq =>
    have hp := ihp hsc
    simpa [Tree.visits, Plain.access?] using hp.append (ihq hp.numbered)
  | ifElse _ _ _ ihp ihq ihr =>
    have hp := ihp hsc
    have hq := ihq hp.numbered
    simpa [Tree.visits] using (hp.append hq).append (ihr hq.numbered)
  | forEndless _ _ _ _ ihp ihq ihr =>
    have hp := ihp hsc.push
    have hq := ihq hp.numbered
    have hbody := ((hp.append hq).append (ihr hq.numbered)).scope hsc
    simpa [Tree.visits] using hbody
  | forLoop _ _ _ _ _ _ ihp ihc ihq ihr =>
    have hp := ihp hsc.push
    have hc := ihc hp.numbered
    have hq := ihq hc.numbered
    have hbody := (((hp.append hc).append hq).append (ihr hq.numbered)).scope hsc
    simpa [Tree.visits] using hbody
  | call _ _ ih => simpa [Tree.visits, Plain.access?] using ih hsc
  | unary _ ih => simpa [Tree.visits, Plain.access?] using ih hsc
  | ident hname => simpa [Tree.visits, Plain.access?] using Visits.uses hsc hname

/-! ### Whole programs -/

theorem Plain.access?_row (i : Plain) (a : Nat) :
    ((Instruction.plain i).row a).access? =
      i.access?.map fun (depth, slot) => [.int depth, .int slot] := by
  cases i with
  | binary op => cases op <;> rfl
  | unary op => cases op <;> rfl
  | _ => rfl

/-- The rows of a listing that read and write variables are those of the segment. -/
theorem Segment.access?_rows (p : Segment) (a : Nat) :
    (Listing.rows a (p.words a)).filterMap Row.access? =
      p.accesses.map fun (depth, slot) => [.int depth, .int slot] := by
  have hjump (kind : Jump) (target b : Address) :
      ((Instruction.jump kind target).row b).access? = none := by
    cases kind <;> rfl
  rw [filterMap_rows Plain.access?_row hjump, accesses, List.map_filterMap]

/-- **Variables are where the scopes say.**  The instructions of a program that read and write
    variables, in the order of their addresses, have the depths and slots that counting finds in the
    tree; and where two variables are visible, they have different ones. -/
theorem variables_follow_scopes {config : Config} {tree : Tree} {program : Program}
    (h : tree.compile config = .ok program) :
    (∃ pairs : List (Nat × Nat),
      (Listing.rows 0 program.code).filterMap Row.access? =
        pairs.map (fun (depth, slot) => [.int depth, .int slot]) ∧
      Variables.places [[]] tree.visits = pairs.map some) ∧
    ∀ scopes n m pair, Variables.place n scopes = some pair →
      Variables.place m scopes = some pair → n = m := by
  obtain ⟨p, frame, hcompiles⟩ := Tree.compiles_of_compile h
  refine ⟨⟨p.accesses, ?_, ?_⟩, fun scopes n m pair => Variables.place_injective⟩
  · have hend : (Segment.ending config.emitHalt).accesses = [] := by
      unfold Segment.ending
      split <;> rfl
    rw [hcompiles.code, Segment.access?_rows, Segment.whole, Segment.accesses_seq,
      Segment.accesses_settle, hend, List.append_nil]
  · have hfresh : Scopes.Numbered {} := List.forall_mem_singleton.mpr Frame.numbered_empty
    have hplaces := (hcompiles.emits.visits hfresh).places []
    rw [List.append_nil, Variables.places, List.append_nil] at hplaces
    exact hplaces

/-- A variable that is shadowed in a block, by a first value that still sees the other one. -/
def Tree.shadowing : Tree :=
  .seq [
    .declareWith ⟨"int"⟩ "x" (.lit (.int 1)),
    .function "f" [⟨⟨"int"⟩, "a"⟩] .void (.seq [
      .declareWith ⟨"int"⟩ "y" (.ident "x"),
      .block (.seq [.declareWith ⟨"int"⟩ "x" (.ident "x"), .assign "x" (.ident "a")])]),
    .declareWith ⟨"int"⟩ "z" (.ident "x")]

/-- The program of `Tree.shadowing`. -/
def Program.shadowing : Program where
  code := [.op .push, .int 1, .op .store, .int 0, .int 0,
    .op .load, .int 1, .int 0, .op .store, .int 0, .int 1,
    .op .enterScope, .op .load, .int 2, .int 0, .op .store, .int 0, .int 0,
    .op .load, .int 1, .int 0, .op .store, .int 0, .int 0, .op .exitScope, .op .ret,
    .op .load, .int 0, .int 0, .op .store, .int 0, .int 1]
  init := none
  render := none

theorem variables_shadowing :
    Tree.shadowing.compile {} = .ok .shadowing ∧
      (Listing.rows 0 Program.shadowing.code).filterMap Row.access? =
        [(0, 0), (1, 0), (0, 1), (2, 0), (0, 0), (1, 0), (0, 0), (0, 0), (0, 1)].map
          (fun (depth, slot) => [.int depth, .int slot]) ∧
      ∀ name, Variables.place name
        [[("y", .variable), ("a", .variable)], [("f", .function), ("x", .variable)]] =
          some (1, 0) → name = "x" := by
  have hcompile : Tree.shadowing.compile {} = .ok .shadowing := rfl
  obtain ⟨⟨pairs, hrows, hplaces⟩, hdifferent⟩ := variables_follow_scopes hcompile
  have hwalk : Variables.places [[]] Tree.shadowing.visits =
      [(0, 0), (1, 0), (0, 1), (2, 0), (0, 0), (1, 0), (0, 0), (0, 0), (0, 1)].map some := rfl
  have hpairs := (List.map_inj_right fun _ _ => Option.some.inj).mp (hplaces.symm.trans hwalk)
  rw [hpairs] at hrows
  exact ⟨hcompile, hrows, fun name hname => hdifferent _ _ _ _ hname rfl⟩

end SceneCode
