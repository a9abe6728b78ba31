import Mathlib.Data.List.Nodup
import SceneCode.Proofs.Functions.Returns

/-!
# Entry points

A program is entered at its functions `init` and `render`, if it has them.  These are looked up
among the labels of the outermost scope, as generation has left it.  No function inside of a block,
a loop with a scope or another function has a label there, and every other function has one
(`Emits.functions_eq`); since no name has two labels, an entry point is the only function of its
name there: `entries_are_outermost`.
-/

namespace SceneCode

/-! ### Functions of a frame -/

namespace Frame

/-- The functions of a frame with their addresses, in the order of their definitions. -/
def functions (f : Frame) : List (String × Address) :=
  (f.labels.reverse.filter fun x => x.2.kind.isFunction).map fun x => (x.1, x.2.address)

/-- No name has two labels. -/
def Distinct (f : Frame) : Prop :=
  (f.labels.map Prod.fst).Nodup

theorem functions_of_register {f g : Frame} {name : String} {kind : LabelKind}
    {signature : Option Signature} {pc a : Address}
    (h : f.register name kind signature pc = .ok (a, g)) :
    g.functions = f.functions ++ if kind.isFunction then [(name, a)] else [] := by
  unfold functions
  rw [(registered_of_register h).labels, List.reverse_cons, List.filter_append, List.map_append]
  cases kind <;> rfl

/-- A name gets a label only if it has none. -/
theorem Distinct.register {f g : Frame} {name : String} {kind : LabelKind}
    {signature : Option Signature} {pc a : Address}
    (h : f.register name kind signature pc = .ok (a, g)) (hf : f.Distinct) : g.Distinct := by
  have hregistered := registered_of_register h
  have hfresh : name ∉ f.labels.map Prod.fst := by
    intro hmem
    obtain ⟨entry, hentry, rfl⟩ := List.mem_map.mp hmem
    have hne := List.lookup_eq_none_iff.mp hregistered.fresh entry hentry
    exact bne_iff_ne.mp hne rfl
  unfold Distinct
  rw [hregistered.labels]
  exact List.nodup_cons.mpr ⟨hfresh, hf⟩

/-- Where no name has two labels, a label is found under its name. -/
theorem Distinct.get?_of_mem {f : Frame} (hf : f.Distinct) {name : String} {label : Label}
    (h : (name, label) ∈ f.labels) : f.get? name = some label := by
  obtain ⟨front, back, hsplit⟩ := List.append_of_mem h
  refine List.lookup_eq_some_iff.mpr ⟨front, back, hsplit, ?_⟩
  intro entry hentry
  rw [Distinct, hsplit, List.map_append, List.map_cons] at hf
  have hne := (List.nodup_append.mp hf).2.2 _ (List.mem_map_of_mem hentry) _ (List.mem_cons_self ..)
  exact bne_iff_ne.mpr hne.symm

theorem mem_functions {f : Frame} {name : String} {a : Address} :
    (name, a) ∈ f.functions ↔ ∃ signature, (name, ⟨a, .function, signature⟩) ∈ f.labels := by
  simp only [functions, List.mem_map, List.mem_filter, List.mem_reverse]
  constructor
  · rintro ⟨⟨other, address, kind, signature⟩, ⟨hmem, hkind⟩, heq⟩
    cases heq
    cases kind with
    | function => exact ⟨signature, hmem⟩
    | «variable» type => cases hkind
  · rintro ⟨signature, hmem⟩
    exact ⟨_, ⟨hmem, rfl⟩, rfl⟩

theorem Distinct.function?_eq_some_iff {f : Frame} (hf : f.Distinct) {name : String} {a : Address} :
    Scopes.function? ⟨f, []⟩ name = some a ↔ (name, a) ∈ f.functions := by
  rw [mem_functions]
  unfold Scopes.function? Scopes.find? Scopes.frames Scopes.findIn
  constructor
  · intro h
    rcases hget : f.get? name with _ | ⟨address, kind, signature⟩
    · rw [hget] at h
      cases h
    · rw [hget] at h
      cases kind with
      | «variable» type => cases h
      | function =>
        cases h
        obtain ⟨front, back, hsplit, -⟩ := List.lookup_eq_some_iff.mp hget
        rw [hsplit]
        exact ⟨signature, List.mem_append_right _ (List.mem_cons_self ..)⟩
  · rintro ⟨signature, hmem⟩
    rw [hf.get?_of_mem hmem]

end Frame

theorem Emits.distinct {config : Config} {fn : Option TypeName} {sc sc' : Scopes} {a : Address}
    {t : Tree} {u : Usage} {p : Segment} (h : Emits config fn sc a t u p sc')
    (hsc : sc.current.Distinct) : sc'.current.Distinct := by
  have hkeeps := h.registers (R := fun f g => f.Distinct → g.Distinct) (fun _ hf => hf)
    (fun hfg hgh hf => hgh (hfg hf)) Frame.Distinct.register
  exact hkeeps hsc

/-! ### Functions of a scope -/

/-- The names and addresses of the functions that have exactly `depth` scopes around them. -/
def FunctionNode.labels (depth : Nat) (fs : List FunctionNode) (starts : List Address) :
    List (String × Address) :=
  ((fs.zip starts).filter fun x => x.1.depth = depth).map fun x => (x.1.name, x.2)

namespace FunctionNode

variable {depth : Nat} {fs gs : List FunctionNode} {starts more : List Address}

theorem labels_append (h : fs.length = starts.length) :
    labels depth (fs ++ gs) (starts ++ more) = labels depth fs starts ++ labels depth gs more := by
  unfold labels
  rw [List.zip_append h, List.filter_append, List.map_append]

/-- Functions in scopes further inside have no label. -/
theorem labels_deeper (h : ∀ f ∈ fs, depth < f.depth) : labels depth fs starts = [] := by
  apply List.map_eq_nil_iff.mpr
  apply List.filter_eq_nil_iff.mpr
  rintro ⟨f, a⟩ hmem
  have hdepth := h f (List.of_mem_zip hmem).1
  simp only [decide_eq_true_eq]
  omega

theorem labels_cons (f : FunctionNode) (a : Address) (h : f.depth = depth) :
    labels depth (f :: fs) (a :: starts) = (f.name, a) :: labels depth fs starts := by
  simp [labels, h]

end FunctionNode

theorem Segment.length_starts (p : Segment) (a : Nat) : (p.starts a).length = p.bodies.length := by
  induction p generalizing a <;> simp_all [starts, bodies]

namespace Emits

open FunctionNode Segment

variable {config : Config} {fn : Option TypeName} {sc sc' : Scopes} {a : Address} {t : Tree}
  {u : Usage} {p : Segment}

theorem length_functions (h : Emits config fn sc a t u p sc') (depth : Nat) :
    (t.functions depth).length = (p.starts a).length := by
  have hlength := congrArg List.length (h.map_returns_bodies depth)
  rw [List.length_map, List.length_map] at hlength
  rw [length_starts, hlength]

/-- **The functions of a scope are those that are defined in this very scope.** -/
theorem functions_eq (h : Emits config fn sc a t u p sc') (depth : Nat) :
    sc'.current.functions =
      sc.current.functions ++ labels depth (t.functions depth) (p.starts a) := by
  -- what is defined in a scope further inside has its label there
  have hdeeper (t : Tree) (starts : List Address) :
      labels depth (t.functions (depth + 1)) starts = [] :=
    labels_deeper fun f hf => Tree.le_depth hf
  have hloop (init cond update body : Tree) : (Tree.forLoop init cond update body).functions depth =
      (Tree.seq [init, cond, body, update]).functions (depth + 1) := by
    simp [Tree.functions, Tree.functionsAll]
  induction h with
  | empty | seqNil | retEmpty | step | ident | lit =>
    simp [Tree.functions, Tree.functionsAll, labels]
  | seqCons hp _ ihp ihq =>
    simp only [Tree.functions] at ihq
    simp only [Tree.functions, Tree.functionsAll, starts, ihq, ihp,
      labels_append (hp.length_functions depth), List.append_assoc]
  | program _ ih => exact ih
  | block => rw [Tree.functions, hdeeper, List.append_nil]
  | function hregister =>
    have hlabel := Frame.functions_of_register (Scopes.frame_of_register hregister).1
    simp only [Tree.functions, starts, labels_cons, hdeeper]
    exact hlabel
  | declare hdeclare =>
    have hlabel := Frame.functions_of_register (Scopes.frame_of_register hdeclare).1
    exact hlabel
  | declareWith _ hdeclare ih =>
    have hlabel := Frame.functions_of_register (Scopes.frame_of_register hdeclare).1
    simp only [Tree.functions, starts, List.append_nil]
    rw [← ih]
    exact hlabel.trans (List.append_nil _)
  | forEndless | forLoop => rw [hloop, hdeeper, List.append_nil]
  | call _ _ ih =>
    simp only [Tree.functions] at ih
    simp [Tree.functions, starts, ih]
  | ret _ _ ih | assign _ _ ih | unary _ ih => simp [Tree.functions, starts, ih]
  | compound _ _ _ ih => simp [Tree.functions, starts, size, Plain.size, ih]
  | ifThen hp _ ihp ihq | whileLoop hp _ ihp ihq | doLoop hp _ ihp ihq | binary hp _ ihp ihq
  | logical hp _ ihp ihq =>
    simp [Tree.functions, starts, ihp, ihq, labels_append (hp.length_functions depth), size,
      Plain.size, ← Nat.add_assoc]
  | ifElse hp hq _ ihp ihq ihr =>
    simp [Tree.functions, starts, ihp, ihq, ihr, labels_append (hp.length_functions depth),
      labels_append (hq.length_functions depth)]

end Emits

/-! ### Whole programs -/

namespace FunctionNode

variable {depth : Nat} {fs : List FunctionNode}

theorem map_fst_labels {starts : List Address} (h : fs.length = starts.length) :
    (labels depth fs starts).map Prod.fst = (fs.filter fun f => f.depth = depth).map name := by
  have hzip : fs = (fs.zip starts).map Prod.fst := (List.map_fst_zip (Nat.le_of_eq h)).symm
  conv_rhs => rw [hzip, List.filter_map, List.map_map]
  unfold labels
  rw [List.map_map]
  rfl

theorem mem_labels {ds : List Definition} {name : String} {a : Address} :
    (name, a) ∈ labels depth fs (ds.map Definition.start) ↔
      ∃ f d, (f, d) ∈ fs.zip ds ∧ f.depth = depth ∧ f.name = name ∧ d.start = a := by
  simp only [labels, List.zip_map_right, List.mem_map, List.mem_filter, decide_eq_true_eq]
  constructor
  · rintro ⟨_, ⟨⟨⟨f, d⟩, hmem, rfl⟩, hdepth⟩, heq⟩
    cases heq
    exact ⟨f, d, hmem, hdepth, rfl, rfl⟩
  · rintro ⟨f, d, hmem, hdepth, rfl, rfl⟩
    exact ⟨(f, d.start), ⟨⟨(f, d), hmem, rfl⟩, hdepth⟩, rfl⟩

/-- Where no name occurs twice, a function is the only one of its name. -/
theorem filter_name_eq (h : (fs.map name).Nodup) {f : FunctionNode} (hf : f ∈ fs) :
    (fs.filter fun g => g.name = f.name) = [f] := by
  induction fs with
  | nil => cases hf
  | cons g rest ih =>
    obtain ⟨hfresh, hrest⟩ := List.nodup_cons.mp h
    rcases List.mem_cons.mp hf with rfl | hf
    · have hnone : (rest.filter fun g => g.name = f.name) = [] := by
        apply List.filter_eq_nil_iff.mpr
        intro g hg
        rw [decide_eq_true_eq]
        intro hname
        exact hfresh (List.mem_map.mpr ⟨g, hg, hname⟩)
      have hself : decide (f.name = f.name) = true := decide_eq_true rfl
      rw [List.filter_cons, if_pos hself, hnone]
    · have hne : g.name ≠ f.name := by
        intro hname
        exact hfresh (List.mem_map.mpr ⟨f, hf, hname.symm⟩)
      rw [List.filter_cons_of_neg (by rwa [decide_eq_true_eq]), ih hrest hf]

end FunctionNode

/-- The functions of a tree that are inside of no block, no loop with a scope and no function. -/
def Tree.outermost (tree : Tree) : List FunctionNode :=
  (tree.functions 0).filter fun f => f.depth = 0

/-- A program is entered at the only outermost function of a name, if there is one. -/
structure Tree.Enters (config : Config) (tree : Tree) (program : Program) (name : String)
    (entry : Option Address) : Prop where
  exists_iff : (∃ a, entry = some a) ↔ ∃ f ∈ tree.outermost, f.name = name
  unique : ∀ a, entry = some a → ∃ f d, (tree.outermost.filter fun g => g.name = name) = [f] ∧
    (f, d) ∈ (tree.functions 0).zip (tree.definitions config) ∧ f.Defines config d ∧ d.start = a ∧
    a < program.code.length ∧ (∃ r ∈ Listing.rows 0 program.code, r.offset = a) ∧
    ⟨d.finish, .instruction .ret []⟩ ∈ Listing.rows 0 program.code

namespace Tree.Compiles

open FunctionNode

variable {config : Config} {tree : Tree} {p : Segment} {frame : Frame} {program : Program}

theorem distinct (h : tree.Compiles config p frame program) : frame.Distinct :=
  h.emits.distinct List.nodup_nil

/-- The functions of the outermost scope, with the addresses of their definitions. -/
theorem functions_eq (h : tree.Compiles config p frame program) :
    frame.functions =
      labels 0 (tree.functions 0) ((tree.definitions config).map Definition.start) := by
  have hstarts := h.covers.map_start_definitions 0 []
  rw [Segment.starts_settle] at hstarts
  unfold Tree.definitions
  rw [hstarts]
  exact h.emits.functions_eq 0

theorem map_fst_functions (h : tree.Compiles config p frame program) :
    frame.functions.map Prod.fst = tree.outermost.map name := by
  have hlength := (tree.forall₂_definitions config).length_eq
  rw [← List.length_map Definition.start] at hlength
  rw [h.functions_eq, map_fst_labels hlength]
  rfl

theorem nodup_names (h : tree.Compiles config p frame program) :
    (tree.outermost.map name).Nodup := by
  have hsublist : ((frame.labels.reverse.filter fun x => x.2.kind.isFunction).map Prod.fst).Sublist
      (frame.labels.reverse.map Prod.fst) :=
    List.filter_sublist.map _
  rw [← h.map_fst_functions, Frame.functions, List.map_map]
  refine hsublist.nodup ?_
  rw [List.map_reverse]
  exact List.nodup_reverse.mpr h.distinct

theorem enters (h : tree.Compiles config p frame program) (name : String) :
    tree.Enters config program name (Scopes.function? ⟨frame, []⟩ name) := by
  have hiff (a : Address) :
      Scopes.function? ⟨frame, []⟩ name = some a ↔ (name, a) ∈ frame.functions :=
    h.distinct.function?_eq_some_iff
  have hnames :
      (∃ a, (name, a) ∈ frame.functions) ↔ name ∈ tree.outermost.map FunctionNode.name := by
    rw [← h.map_fst_functions, List.mem_map]
    simp
  constructor
  case exists_iff =>
    simp only [hiff, hnames, List.mem_map]
  case unique =>
    intro a ha
    have hlabel := (hiff a).mp ha
    rw [h.functions_eq] at hlabel
    obtain ⟨f, d, hmem, hdepth, rfl, rfl⟩ := mem_labels.mp hlabel
    obtain ⟨hf, hd⟩ := List.of_mem_zip hmem
    have houtermost : f ∈ tree.outermost := List.mem_filter.mpr ⟨hf, decide_eq_true hdepth⟩
    have hbody := h.isBody (h.mem_bodies_of_function? ha)
    exact ⟨f, d, filter_name_eq h.nodup_names houtermost, hmem,
      List.forall₂_zip (tree.forall₂_definitions config) hmem, rfl, hbody.2.1, hbody.1,
      h.return_mem_rows hd⟩

end Tree.Compiles

/-- **Entry points are exactly the outermost functions** `init` and `render`.  A program has an
    entry point if and only if its tree has such a function.  It is the only one of its name then,
    and the entry point is the address of the first instruction of its body. -/
theorem entries_are_outermost {config : Config} {tree : Tree} {program : Program}
    (h : tree.compile config = .ok program) :
    tree.Enters config program "init" program.init ∧
      tree.Enters config program "render" program.render := by
  obtain ⟨p, frame, hcompiles⟩ := Tree.compiles_of_compile h
  rw [hcompiles.init, hcompiles.render]
  exact ⟨hcompiles.enters "init", hcompiles.enters "render"⟩

/-- An outermost function in a branch, and two functions in a block. -/
def Tree.entering : Tree :=
  .program (.seq [
    .ifThen (.lit (.bool true)) (.function "init" [] .void .empty),
    .block (.seq [.function "init" [] .void .empty, .function "render" [] .void .empty])])

/-- The program of `Tree.entering`. -/
def Program.entering : Program where
  code := [.op .push, .bool true, .op .jumpIfFalse, .addr 7, .op .jump, .addr 7, .op .ret,
    .op .enterScope, .op .jump, .addr 11, .op .ret, .op .jump, .addr 14, .op .ret, .op .exitScope,
    .op .halt]
  init := some 6
  render := none

theorem entries_of_entering :
    Tree.entering.compile ⟨true, true⟩ = .ok .entering ∧
      (Tree.entering.functions 0).map FunctionNode.name = ["init", "init", "render"] ∧
      (∃ f d, (Tree.entering.outermost.filter fun g => g.name = "init") = [f] ∧
        (f, d) ∈ (Tree.entering.functions 0).zip (Tree.entering.definitions ⟨true, true⟩) ∧
        d.start = 6) ∧
      ¬∃ f ∈ Tree.entering.outermost, f.name = "render" := by
  have hcompile : Tree.entering.compile ⟨true, true⟩ = .ok .entering := rfl
  obtain ⟨hinit, hrender⟩ := entries_are_outermost hcompile
  obtain ⟨f, d, honly, hmem, -, hstart, -⟩ := hinit.unique 6 rfl
  refine ⟨hcompile, rfl, ⟨f, d, honly, hmem, hstart⟩, ?_⟩
  intro hexists
  obtain ⟨a, ha⟩ := hrender.exists_iff.mpr hexists
  cases ha

end SceneCode
