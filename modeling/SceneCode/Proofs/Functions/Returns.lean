import SceneCode.Proofs.ControlFlow
import SceneCode.Proofs.Functions.Bodies

/-!
# Returns of functions

Whether a return statement has a value in the code depends on the function that it belongs to, the
innermost one around it, however many functions are defined before it or inside of its expression.
The rules of `Emits` have the return type of this function in them, so the returns of a segment are
those of its tree (`Emits.returns_eq`), and so are the returns of every body in it
(`Emits.map_returns_bodies`).  With the addresses of the code of functions this gives the number of
returns that a function of a whole program has: `returns_follow_types`.
-/

namespace SceneCode

open Instruction

/-- The operation of a return statement in a function that returns `fn`. -/
def Tree.exit (fn : Option TypeName) (value : Tree) : Opcode :=
  if value.isEmpty || fn.any TypeName.isVoid then .ret else .retValue

/-- The operations of the return statements of a function. -/
def FunctionNode.exits (f : FunctionNode) : List Opcode :=
  f.body.returns.map (Tree.exit (some f.returns))

/-! ### Emitted code -/

namespace Segment

@[simp] theorem returns_finish (u : Usage) : (finish u).returns = [] := by
  cases u <;> rfl

@[simp] theorem returns_store (u : Usage) (depth slot : Nat) :
    (store u depth slot).returns = [] := by
  cases u <;> rfl

theorem returns_leave {value : Tree} (type : TypeName) (h : value.isEmpty = false) :
    (leave type).returns = [Tree.exit (some type) value] := by
  unfold leave Tree.exit
  cases hvoid : type.isVoid <;> simp [h, hvoid, returns, ops, Plain.exit?]

@[simp] theorem bodies_finish (u : Usage) : (finish u).bodies = [] := by
  cases u <;> rfl

@[simp] theorem bodies_store (u : Usage) (depth slot : Nat) :
    (store u depth slot).bodies = [] := by
  cases u <;> rfl

@[simp] theorem bodies_leave (type : TypeName) : (leave type).bodies = [] := by
  unfold leave
  split <;> rfl

end Segment

section

open Segment

variable {config : Config} {fn : Option TypeName} {sc sc' : Scopes} {a : Address} {t : Tree}
  {u : Usage} {p : Segment}

/-- The returns of a segment are those of its tree. -/
theorem Emits.returns_eq (h : Emits config fn sc a t u p sc') :
    p.returns = t.returns.map (Tree.exit fn) := by
  induction h with
  | empty | seqNil | function | retEmpty | declare => rfl
  | seqCons _ _ ihp ihq =>
    simp only [Tree.returns] at ihq
    simp [Tree.returns, Tree.returnsAll, Segment.returns, ihp, ihq]
  | program _ ih => exact ih
  | block _ _ ih => simp [Tree.returns, ih]
  | ret hempty _ ih => simp [Tree.returns, Segment.returns, ih, returns_leave _ hempty]
  | forEndless _ _ _ _ ihp ihq ihr =>
    simp [Tree.returns, Segment.returns, ihp, ihq, ihr]
  | forLoop _ _ _ _ _ _ ihp ihc ihq ihr =>
    simp [Tree.returns, Segment.returns, ihp, ihc, ihq, ihr]
  | call _ _ ih =>
    simp only [Tree.returns] at ih
    simp [Tree.returns, Segment.returns, ih, Plain.exit?]
  | step | ident | lit => simp [Tree.returns, Segment.returns, ops, Plain.exit?]
  | declareWith _ _ ih | assign _ _ ih | compound _ _ _ ih | unary _ ih =>
    simp [Tree.returns, Segment.returns, ih, Plain.exit?]
  | ifThen _ _ ihp ihq | whileLoop _ _ ihp ihq | doLoop _ _ ihp ihq | binary _ _ ihp ihq
  | logical _ _ ihp ihq =>
    simp [Tree.returns, Segment.returns, ihp, ihq, Plain.exit?]
  | ifElse _ _ _ ihp ihq ihr => simp [Tree.returns, Segment.returns, ihp, ihq, ihr]

/-- So are the returns of every body in it, wherever the function is defined. -/
theorem Emits.map_returns_bodies (h : Emits config fn sc a t u p sc') (depth : Nat) :
    p.bodies.map Segment.returns = (t.functions depth).map FunctionNode.exits := by
  have hsettle (frame : Frame) : Segment.returns ∘ settle frame = Segment.returns :=
    funext (returns_settle frame)
  induction h generalizing depth with
  | empty | seqNil | retEmpty | declare => rfl
  | seqCons _ _ ihp ihq =>
    simp only [Tree.functions] at ihq
    simp [Tree.functions, Tree.functionsAll, bodies, ihp depth, ihq depth]
  | program _ ih => exact ih depth
  | block _ _ ih => simp [Tree.functions, hsettle, ih (depth + 1)]
  | function _ _ hp _ ih =>
    simp [Tree.functions, bodies, hsettle, ih (depth + 1), FunctionNode.exits, hp.returns_eq]
  | forEndless _ _ _ _ ihp ihq ihr =>
    simp [Tree.functions, bodies, hsettle, ihp (depth + 1), ihq (depth + 1), ihr (depth + 1)]
  | forLoop _ _ _ _ _ _ ihp ihc ihq ihr =>
    simp [Tree.functions, bodies, hsettle, ihp (depth + 1), ihc (depth + 1), ihq (depth + 1),
      ihr (depth + 1)]
  | call _ _ ih =>
    simp only [Tree.functions] at ih
    simp [Tree.functions, bodies, ih depth]
  | step | ident | lit => simp [Tree.functions, bodies, ops]
  | ret _ _ ih | declareWith _ _ ih | assign _ _ ih | compound _ _ _ ih | unary _ ih =>
    simp [Tree.functions, bodies, ih depth]
  | ifThen _ _ ihp ihq | whileLoop _ _ ihp ihq | doLoop _ _ ihp ihq | binary _ _ ihp ihq
  | logical _ _ ihp ihq =>
    simp [Tree.functions, bodies, ihp depth, ihq depth]
  | ifElse _ _ _ ihp ihq ihr => simp [Tree.functions, bodies, ihp depth, ihq depth, ihr depth]

end

/-! ### Rows -/

/-- The rows that a function has itself. -/
def Definition.own (d : Definition) (rows : List Row) : List Row :=
  rows.filter fun r => d.Owns r.offset

theorem Instruction.exit?_eq_some_iff {i : Instruction} {op : Opcode}
    (hop : op = .ret ∨ op = .retValue) : i.exit? = some op ↔ i.opcode = op := by
  rcases hop with rfl | rfl
  all_goals
    cases i with
    | jump kind target => cases kind <;> simp [exit?, opcode, Jump.opcode]
    | plain i =>
      cases i with
      | binary op => cases op <;> simp [exit?, opcode, Plain.exit?, Plain.opcode, BinaryOp.opcode]
      | unary op => cases op <;> simp [exit?, opcode, Plain.exit?, Plain.opcode, UnaryOp.opcode]
      | _ => simp [exit?, opcode, Plain.exit?, Plain.opcode]

theorem Instruction.count_exit? (i : Instruction) {op : Opcode} (hop : op = .ret ∨ op = .retValue) :
    i.exit?.toList.count op = if i.opcode = op then 1 else 0 := by
  by_cases hopcode : i.opcode = op
  · rw [(exit?_eq_some_iff hop).mpr hopcode, if_pos hopcode, Option.toList_some,
      List.count_singleton_self]
  · rw [if_neg hopcode, List.count_eq_zero, Option.mem_toList]
    intro hexit
    exact hopcode ((exit?_eq_some_iff hop).mp hexit)

/-- Returns are counted in a listing as they are counted among instructions. -/
theorem Row.runs_filter_rows {P : Address → Prop} [DecidablePred P] {op : Opcode}
    (hop : op = .ret ∨ op = .retValue) (a : Nat) (is : List Instruction) :
    runs op ((Listing.rows a (encode is)).filter fun r => P r.offset) =
      (exits P a is).count op := by
  induction is generalizing a with
  | nil =>
    rw [encode_nil, Listing.rows]
    rfl
  | cons i is ih =>
    have hexits : exits P a (i :: is) =
        (if P a then i.exit?.toList else []) ++ exits P (a + i.size) is := rfl
    rw [encode_cons, rows_words_append, hexits, List.count_append, ← ih]
    -- the row stays in the list exactly if the instruction counts
    by_cases hP : P a
    · have hrow : P (i.row a).offset := hP
      have hopcode : (i.row a).opcode? = some i.opcode := rfl
      simp only [if_pos hP, i.count_exit? hop, List.filter_cons, hrow, decide_true, if_true, runs,
        List.filterMap_cons_some hopcode, List.count_cons, beq_iff_eq, Nat.add_comm]
    · have hrow : ¬P (i.row a).offset := hP
      simp only [if_neg hP, List.count_nil, Nat.zero_add, List.filter_cons, hrow, decide_false,
        Bool.false_eq_true, if_false]

/-! ### Whole programs -/

namespace Tree.Compiles

variable {config : Config} {tree : Tree} {p : Segment} {frame : Frame} {program : Program}

/-- A program returns where its tree does. -/
theorem exits_whole {P : Address → Prop} [DecidablePred P] (halts : Bool) :
    exits P 0 ((p.whole halts frame).code 0) = exits P 0 ((p.settle frame).code 0) := by
  have hending (a : Nat) : exits P a ((Segment.ending halts).code a) = [] := by
    cases halts with
    | false => rfl
    | true => exact exits_cons_of_none _ rfl
  rw [Segment.whole, Segment.exits_seq, hending, List.append_nil]

theorem runs_filter_rows (h : tree.Compiles config p frame program) {P : Address → Prop}
    [DecidablePred P] {op : Opcode} (hop : op = .ret ∨ op = .retValue) :
    Row.runs op ((Listing.rows 0 program.code).filter fun r => P r.offset) =
      (exits P 0 ((p.settle frame).code 0)).count op := by
  rw [h.code, Segment.words, Row.runs_filter_rows hop, exits_whole]

/-- The returns of the functions, as their return types say. -/
theorem map_exits (h : tree.Compiles config p frame program) :
    (tree.functions 0).map (fun f => f.exits ++ [.ret]) =
      (tree.definitions config).map fun d => exits d.Owns 0 ((p.settle frame).code 0) := by
  have hbodies : (p.settle frame).bodies.map Segment.returns =
      (tree.functions 0).map FunctionNode.exits := by
    rw [Segment.bodies_settle, List.map_map, ← h.emits.map_returns_bodies 0]
    exact congrArg (p.bodies.map ·) (funext (Segment.returns_settle frame))
  have hmap := congrArg (List.map (· ++ [Opcode.ret])) hbodies
  rw [List.map_map, List.map_map] at hmap
  exact hmap.symm.trans h.covers.map_exits.symm

theorem runs_own (h : tree.Compiles config p frame program) :
    List.Forall₂ (fun f d => f.Defines config d ∧ ∀ op, op = .ret ∨ op = .retValue →
        Row.runs op (d.own (Listing.rows 0 program.code)) = (f.exits ++ [.ret]).count op)
      (tree.functions 0) (tree.definitions config) := by
  have hmap := h.map_exits
  rw [← List.forall₂_eq_eq_eq] at hmap
  have hexits := List.forall₂_map_left_iff.mp (List.forall₂_map_right_iff.mp hmap)
  refine List.Forall₂.mp ?_ (tree.forall₂_definitions config) hexits
  intro f d hdefines heq
  refine ⟨hdefines, ?_⟩
  intro op hop
  rw [heq]
  exact h.runs_filter_rows hop

/-- Nothing returns outside of all functions. -/
theorem exits_outside (h : tree.Compiles config p frame program) :
    exits (fun b => ∀ d ∈ tree.definitions config, ¬d.Contains b) 0
      ((p.whole config.emitHalt frame).code 0) = [] := by
  rw [exits_whole]
  exact (h.covers.exits_outside fun b _ _ => Iff.rfl).trans (h.covers.returns_eq_nil rfl)

theorem exists_contains_of_return (h : tree.Compiles config p frame program) {r : Row} {op : Opcode}
    (hr : r ∈ Listing.rows 0 program.code) (hop : op = .ret ∨ op = .retValue)
    (hopcode : r.opcode? = some op) : ∃ d ∈ tree.definitions config, d.Contains r.offset := by
  obtain ⟨b, i, hmem, rfl⟩ := h.mem_rows.mp hr
  by_contra hnone
  -- a return outside of all functions would be one of the tree itself
  have houtside : ∀ d ∈ tree.definitions config, ¬d.Contains b := by
    intro d hd hcontains
    exact hnone ⟨d, hd, hcontains⟩
  have hexit := List.flatMap_eq_nil_iff.mp h.exits_outside _ hmem
  rw [if_pos houtside, (exit?_eq_some_iff hop).mpr (Option.some.inj hopcode)] at hexit
  cases hexit

end Tree.Compiles

/-! ### The number of returns -/

namespace FunctionNode

variable {f : FunctionNode}

/-- In a function without a value no return has one. -/
theorem exits_of_isVoid (h : f.returns.isVoid = true) :
    f.exits = List.replicate f.body.returns.length .ret := by
  apply List.map_eq_replicate_iff.mpr
  intro value _
  simp [Tree.exit, h]

theorem count_retValue_exits (h : f.returns.isVoid = false) :
    f.exits.count .retValue = f.body.returns.countP fun value => !value.isEmpty := by
  rw [exits, List.count, List.countP_map]
  apply List.countP_congr
  intro value _
  cases hempty : value.isEmpty <;> simp [Tree.exit, h, hempty]

theorem count_ret_exits (h : f.returns.isVoid = false) :
    f.exits.count .ret = f.body.returns.countP Tree.isEmpty := by
  rw [exits, List.count, List.countP_map]
  apply List.countP_congr
  intro value _
  cases hempty : value.isEmpty <;> simp [Tree.exit, h, hempty]

end FunctionNode

/-- **Returns follow the type of the innermost function.**  In the code of a function, without that
    of the functions inside of it, there is a return for each of its return statements and one at
    the end.  The one at the end has no value.  The others have one if the function has a type with
    values and the statement has a value.  There are no returns outside of functions. -/
theorem returns_follow_types {config : Config} {tree : Tree} {program : Program}
    (h : tree.compile config = .ok program) :
    List.Forall₂ (fun f d =>
        let own := d.own (Listing.rows 0 program.code)
        f.Defines config d ∧ ⟨d.finish, .instruction .ret []⟩ ∈ own ∧
          (f.returns.isVoid = true → Row.runs .retValue own = 0 ∧
            Row.runs .ret own = f.body.returns.length + 1) ∧
          (f.returns.isVoid = false →
            Row.runs .retValue own = (f.body.returns.countP fun value => !value.isEmpty) ∧
            Row.runs .ret own = f.body.returns.countP Tree.isEmpty + 1))
      (tree.functions 0) (tree.definitions config) ∧
    ∀ r ∈ Listing.rows 0 program.code, r.opcode? = some .ret ∨ r.opcode? = some .retValue →
      ∃ d ∈ tree.definitions config, d.Contains r.offset := by
  obtain ⟨p, frame, hcompiles⟩ := Tree.compiles_of_compile h
  have hruns := hcompiles.runs_own
  constructor
  · apply List.forall₂_iff_zip.mpr
    refine ⟨hruns.length_eq, ?_⟩
    intro f d hmem
    obtain ⟨hdefines, hcount⟩ := List.forall₂_zip hruns hmem
    have hlast := hcompiles.return_mem_rows (List.of_mem_zip hmem).2
    refine ⟨hdefines, List.mem_filter.mpr ⟨hlast, decide_eq_true d.owns_finish⟩, ?_, ?_⟩
    all_goals
      intro hvoid
      rw [hcount .ret (Or.inl rfl), hcount .retValue (Or.inr rfl), List.count_append,
        List.count_append]
    · rw [f.exits_of_isVoid hvoid, List.count_replicate_self]
      exact ⟨List.count_eq_zero.mpr (by simp), rfl⟩
    · rw [f.count_ret_exits hvoid, f.count_retValue_exits hvoid]
      exact ⟨rfl, rfl⟩
  · intro r hr hop
    rcases hop with hop | hop
    · exact hcompiles.exists_contains_of_return hr (Or.inl rfl) hop
    · exact hcompiles.exists_contains_of_return hr (Or.inr rfl) hop

/-- A function with another one between its return statements.  One of them is inside a loop. -/
def Tree.returning : Tree :=
  .function "outer" [⟨⟨"int"⟩, "n"⟩] ⟨"int"⟩ (.seq [
    .whileLoop (.ident "n") (.ret (.ident "n")),
    .function "inner" [] .void (.seq [.ret .empty, .ret (.lit (.int 2))]),
    .ret .empty,
    .ret (.lit (.int 3))])

/-- The program of `Tree.returning`.  The inner function starts at 13. -/
def Program.returning : Program where
  code := [.op .load, .int 0, .int 0, .op .jumpIfFalse, .addr 11,
    .op .load, .int 0, .int 0, .op .retValue, .op .jump, .addr 0,
    .op .jump, .addr 19, .op .ret, .op .push, .int 2, .op .pop, .op .ret, .op .ret,
    .op .ret, .op .push, .int 3, .op .retValue, .op .ret]
  init := none
  render := none

theorem returns_follow_returning :
    Tree.returning.compile {} = .ok .returning ∧
      ∃ outer inner, Tree.returning.definitions {} = [outer, inner] ∧
        (outer.start, outer.finish) = (0, 23) ∧ (inner.start, inner.finish) = (13, 18) ∧
        Row.runs .retValue (outer.own (Listing.rows 0 Program.returning.code)) = 2 ∧
        Row.runs .ret (outer.own (Listing.rows 0 Program.returning.code)) = 2 ∧
        Row.runs .retValue (inner.own (Listing.rows 0 Program.returning.code)) = 0 ∧
        Row.runs .ret (inner.own (Listing.rows 0 Program.returning.code)) = 3 := by
  have hcompile : Tree.returning.compile {} = .ok .returning := rfl
  obtain ⟨hfunctions, -⟩ := returns_follow_types hcompile
  obtain ⟨houter, hrest⟩ := List.forall₂_cons.mp hfunctions
  obtain ⟨hinner, -⟩ := List.forall₂_cons.mp hrest
  obtain ⟨-, -, -, hvalues⟩ := houter
  obtain ⟨-, -, hvoid, -⟩ := hinner
  exact ⟨hcompile, _, _, rfl, rfl, rfl, (hvalues rfl).1, (hvalues rfl).2, (hvoid rfl).1,
    (hvoid rfl).2⟩

end SceneCode
