import SceneCode.Proofs.Code.Flow
import SceneCode.Proofs.Addresses
import SceneCode.Proofs.Shape

/-!
# Heights of the operand stack

In the code of a tree whose values are expressions, every instruction finds the operands it pops,
and every way to an instruction leaves the same number of values on the stack.  Statements start and
end with an empty stack, an expression whose value is used leaves one more value than it finds.
-/

namespace SceneCode

/-! ### What instructions do to the stack -/

/-- The heights before and behind an instruction that is not a jump. -/
def Plain.Lifts : Plain → Nat → Nat → Prop
  | .push _, x, y | .load _ _, x, y => y = x + 1
  | .store _ _, x, y | .pop, x, y => x = y + 1
  | .binary _, x, y => 1 ≤ y ∧ x = y + 1
  | .unary _, x, y => 1 ≤ x ∧ y = x
  | .dup, x, y => 1 ≤ x ∧ y = x + 1
  | .enterScope, x, y | .exitScope, x, y => x = 0 ∧ y = 0
  | .call _ count, x, y => count ≤ x ∧ y + count = x + 1
  | .ret, x, _ | .halt, x, _ => x = 0
  | .retValue, x, _ => x = 1

/-- The heights before a jump, at its target, and behind it. -/
def Jump.Lifts : Jump → Nat → Nat → Nat → Prop
  | .always, x, target, _ => target = x
  | .ifFalse, x, target, next | .ifTrue, x, target, next => x = target + 1 ∧ next = target

/-- Heights of the operand stack.  A function starts with nothing of its own on it. -/
def heights : Transfer Nat :=
  ⟨Plain.Lifts, Jump.Lifts, 0⟩

theorem Flows.settle {α : Type} {T : Transfer α} {frame : Frame} {p : Segment} {x y : α}
    (h : Flows T x p y) (hplain : ∀ i x y, T.plain i x y → T.plain (i.settle frame) x y) :
    Flows T x (p.settle frame) y := by
  induction h with
  | nothing => exact .nothing
  | one hi => exact .one (hplain _ _ _ hi)
  | seq _ _ ihp ihq => exact .seq ihp ihq
  | skip hjump _ ih => exact .skip hjump ih
  | choice htest _ hskip _ ihb iho => exact .choice htest ihb hskip iho
  | loop _ htest _ hback ihc ihb => exact .loop ihc htest ihb hback
  | rounds _ hback ih => exact .rounds ih hback
  | function hguard hopen _ hret ih => exact .function hguard hopen ih hret

theorem heights_settle {frame : Frame} {p : Segment} {x y : Nat} (h : Flows heights x p y) :
    Flows heights x (p.settle frame) y := by
  apply h.settle
  intro i x y hi
  cases i <;> exact hi

/-! ### Trees -/

/-- The height behind an expression that starts at the height `n`. -/
def Usage.height : Usage → Nat → Nat
  | .value, n => n + 1
  | .discard, n => n

/-- The height behind a tree: every value that is used is there, and a statement leaves nothing. -/
def Usage.Leaves (t : Tree) (p : Segment) : Usage → Prop
  | .value => (∀ node ∈ t.nodes, node.isExpression = true) → ∀ n,
      Flows heights n p (n + t.nodes.length)
  | .discard => Flows heights 0 p 0

theorem flows_finish (u : Usage) (n : Nat) : Flows heights (n + 1) (.finish u) (u.height n) := by
  cases u with
  | value => exact .nothing
  | discard => exact .one rfl

theorem flows_store (u : Usage) (depth slot n : Nat) :
    Flows heights (n + 1) (.store u depth slot) (u.height n) := by
  cases u with
  | value =>
    have hdup : Flows heights (n + 1) (.one .dup) (n + 2) := .one ⟨Nat.le_add_left 1 n, rfl⟩
    have hstore : Flows heights (n + 2) (.one (.store depth slot)) (n + 1) := .one rfl
    exact .seq hdup (.seq hstore .nothing)
  | discard =>
    have hstore : Flows heights (n + 1) (.one (.store depth slot)) n := .one rfl
    exact .seq hstore .nothing

/-- An operator on two values leaves one. -/
theorem flows_binary (op : BinaryOp) (n : Nat) :
    Flows heights (n + 2) (.one (.binary op)) (n + 1) :=
  .one ⟨Nat.le_add_left 1 n, rfl⟩

theorem flows_unary (op : UnaryOp) (n : Nat) :
    Flows heights (n + 1) (.one (.unary op)) (n + 1) :=
  .one ⟨Nat.le_add_left 1 n, rfl⟩

theorem flows_load (depth slot n : Nat) : Flows heights n (.one (.load depth slot)) (n + 1) :=
  .one rfl

theorem flows_leave (type : TypeName) : Flows heights 1 (.leave type) 0 := by
  unfold Segment.leave
  split
  · have hpop : Flows heights 1 (.one .pop) 0 := .one rfl
    have hret : Flows heights 0 (.one .ret) 0 := .one rfl
    exact .seq hpop (.seq hret .nothing)
  · have hret : Flows heights 1 (.one .retValue) 0 := .one rfl
    exact .seq hret .nothing

theorem flows_scope {p : Segment} (h : Flows heights 0 p 0) : Flows heights 0 (.scope p) 0 := by
  have henter : Flows heights 0 (.one .enterScope) 0 := .one ⟨rfl, rfl⟩
  have hexit : Flows heights 0 (.one .exitScope) 0 := .one ⟨rfl, rfl⟩
  exact .seq henter (.seq h hexit)

section

variable {t : Tree} {p : Segment}

theorem leaves_of_expression {u : Usage} (hnodes : t.nodes = [t])
    (h : ∀ n, Flows heights n p (u.height n)) : u.Leaves t p := by
  cases u with
  | value =>
    intro _ n
    rw [hnodes]
    exact h n
  | discard => exact h 0

theorem leaves_of_statement {u : Usage} (hnodes : t.nodes = [t]) (hstatement : t.isExpression = false)
    (h : Flows heights 0 p 0) : u.Leaves t p := by
  cases u with
  | value =>
    intro hall
    have hexpr := hall t (by rw [hnodes]; exact List.mem_singleton.mpr rfl)
    rw [hstatement] at hexpr
    cases hexpr
  | discard => exact h

/-- A position that holds one expression leaves its value. -/
theorem Usage.Leaves.of_holds (h : Usage.value.Leaves t p) (hholds : t.HoldsExpression) (n : Nat) :
    Flows heights n p (n + 1) := by
  obtain ⟨node, hnodes, hexpr⟩ := hholds
  have hflows := h (by simpa [hnodes] using hexpr) n
  rwa [hnodes] at hflows

end

/-- **Trees leave what they should.** -/
theorem Emits.leaves {config : Config} {fn : Option TypeName} {sc sc' : Scopes} {a : Address}
    {t : Tree} {u : Usage} {p : Segment} (h : Emits config fn sc a t u p sc') (hshaped : t.Shaped) :
    u.Leaves t p := by
  induction h with
  | @empty fn sc a u =>
    cases u with
    | value => exact fun _ n => .nothing
    | discard => exact .nothing
  | @seqNil fn sc a u =>
    cases u with
    | value => exact fun _ n => .nothing
    | discard => exact .nothing
  | @seqCons fn sc a u t ts p sc₁ q sc₂ _ _ ihp ihq =>
    obtain ⟨hfirst, hrest⟩ := hshaped
    have hp := ihp hfirst
    have hq := ihq hrest
    cases u with
    | value =>
      intro hall n
      simp only [Tree.nodes, Tree.nodesAll, List.mem_append] at hall
      have hpn := hp (fun node hnode => hall node (Or.inl hnode)) n
      have hqn := hq (fun node hnode => hall node (Or.inr hnode)) (n + t.nodes.length)
      simp only [Tree.nodes, Tree.nodesAll, List.length_append, ← Nat.add_assoc] at hqn ⊢
      exact .seq hpn hqn
    | discard => exact .seq hp hq
  | program _ ih => exact leaves_of_statement rfl rfl (ih hshaped)
  | block _ _ ih => exact leaves_of_statement rfl rfl (flows_scope (heights_settle (ih hshaped)))
  | function _ _ _ _ ih =>
    apply leaves_of_statement rfl rfl
    exact .function (fun _ => rfl) (fun _ => rfl) (heights_settle (ih hshaped)) rfl
  | retEmpty => exact leaves_of_statement rfl rfl (.one rfl)
  | ret hempty _ ih =>
    apply leaves_of_statement rfl rfl
    obtain ⟨hvalue, hshaped⟩ := hshaped
    rcases hvalue with rfl | hholds
    · cases hempty
    · exact .seq ((ih hshaped).of_holds hholds 0) (flows_leave _)
  | declare => exact leaves_of_statement rfl rfl .nothing
  | declareWith _ _ ih =>
    obtain ⟨hholds, hshaped⟩ := hshaped
    have hstore (slot : Nat) : Flows heights 1 (.one (.store 0 slot)) 0 := .one rfl
    exact leaves_of_statement rfl rfl (.seq ((ih hshaped).of_holds hholds 0) (hstore _))
  | assign _ _ ih =>
    obtain ⟨hholds, hshaped⟩ := hshaped
    apply leaves_of_expression rfl
    intro n
    exact .seq ((ih hshaped).of_holds hholds n) (flows_store _ _ _ n)
  | compound _ _ _ ih =>
    obtain ⟨hholds, hshaped⟩ := hshaped
    apply leaves_of_expression rfl
    intro n
    exact .seq (flows_load _ _ n) (.seq ((ih hshaped).of_holds hholds (n + 1))
      (.seq (flows_binary _ n) (flows_store _ _ _ n)))
  | step =>
    apply leaves_of_expression rfl
    intro n
    have hpush : Flows heights (n + 1) (.one (.push (.int 1))) (n + 2) := .one rfl
    exact .seq (.seq (flows_load _ _ n) (.seq hpush (.seq (flows_binary _ n) .nothing)))
      (flows_store _ _ _ n)
  | ifThen _ _ ihp ihq =>
    obtain ⟨hholds, hcond, hbody⟩ := hshaped
    apply leaves_of_statement rfl rfl
    exact .seq ((ihp hcond).of_holds hholds 0) (.skip ⟨rfl, rfl⟩ (ihq hbody))
  | ifElse _ _ _ ihp ihq ihr =>
    obtain ⟨hholds, hcond, hbody, hother⟩ := hshaped
    apply leaves_of_statement rfl rfl
    exact .seq ((ihp hcond).of_holds hholds 0)
      (.choice ⟨rfl, rfl⟩ (ihq hbody) rfl (ihr hother))
  | whileLoop _ _ ihp ihq =>
    obtain ⟨hholds, hcond, hbody⟩ := hshaped
    apply leaves_of_statement rfl rfl
    exact .loop ((ihp hcond).of_holds hholds 0) ⟨rfl, rfl⟩ (ihq hbody) rfl
  | doLoop _ _ ihp ihq =>
    obtain ⟨hholds, hcond, hbody⟩ := hshaped
    apply leaves_of_statement rfl rfl
    exact .rounds (.seq (ihp hbody) ((ihq hcond).of_holds hholds 0)) ⟨rfl, rfl⟩
  | forEndless _ _ _ _ ihp ihq ihr =>
    obtain ⟨-, hinit, -, hupdate, hbody⟩ := hshaped
    refine leaves_of_statement rfl rfl (flows_scope (heights_settle ?_))
    exact .seq (ihp hinit) (.rounds (.seq (ihq hbody) (ihr hupdate)) rfl)
  | forLoop hempty _ _ _ _ _ ihp ihc ihq ihr =>
    obtain ⟨hcond, hinit, htest, hupdate, hbody⟩ := hshaped
    refine leaves_of_statement rfl rfl (flows_scope (heights_settle ?_))
    rcases hcond with rfl | hholds
    · cases hempty
    · exact .seq (ihp hinit) (.loop ((ihc htest).of_holds hholds 0) ⟨rfl, rfl⟩
        (.seq (ihq hbody) (ihr hupdate)) rfl)
  | @call fn sc a u name args p sc' target _ _ ih =>
    obtain ⟨hholds, hargs⟩ := hshaped
    obtain ⟨hlength, hall⟩ := Tree.nodesAll_of_holdsExpression hholds
    apply leaves_of_expression rfl
    intro n
    have hpushed : Flows heights n p (n + args.length) := by
      have hflows := ih hargs hall n
      rwa [Tree.nodes, hlength] at hflows
    have hcall : Flows heights (n + args.length) (.one (.call target args.length)) (n + 1) :=
      .one ⟨Nat.le_add_left .., by omega⟩
    exact .seq hpushed (.seq hcall (flows_finish _ n))
  | binary _ _ ihp ihq =>
    obtain ⟨hleft, hright, hlhs, hrhs⟩ := hshaped
    apply leaves_of_expression rfl
    intro n
    exact .seq ((ihp hlhs).of_holds hleft n) (.seq ((ihq hrhs).of_holds hright (n + 1))
      (.seq (flows_binary _ n) (flows_finish _ n)))
  | @logical fn sc a u op lhs rhs p sc₁ q sc₂ _ _ ihp ihq =>
    obtain ⟨hleft, hright, hlhs, hrhs⟩ := hshaped
    apply leaves_of_expression rfl
    intro n
    have hdup : Flows heights (n + 1) (.one .dup) (n + 2) := .one ⟨Nat.le_add_left 1 n, rfl⟩
    have hpop : Flows heights (n + 1) (.one .pop) n := .one rfl
    have hjump : heights.jump op.jump (n + 2) (n + 1) (n + 1) := by
      cases op <;> exact ⟨rfl, rfl⟩
    exact .seq ((ihp hlhs).of_holds hleft n) (.seq hdup
      (.seq (.skip hjump (.seq hpop ((ihq hrhs).of_holds hright n))) (flows_finish _ n)))
  | unary _ ih =>
    obtain ⟨hholds, hshaped⟩ := hshaped
    apply leaves_of_expression rfl
    intro n
    exact .seq ((ih hshaped).of_holds hholds n) (.seq (flows_unary _ n) (flows_finish _ n))
  | ident =>
    apply leaves_of_expression rfl
    intro n
    exact .seq (flows_load _ _ n) (flows_finish _ n)
  | lit =>
    apply leaves_of_expression rfl
    intro n
    have hpush (value : Literal) : Flows heights n (.one (.push value)) (n + 1) := .one rfl
    exact .seq (hpush _) (flows_finish _ n)

/-! ### Whole programs -/

namespace Row

/-- The number of values that a row wants on the stack. -/
def needs (r : Row) : Nat :=
  match r.content with
  | .instruction .store _ | .instruction .pop _ | .instruction .jumpIfFalse _
  | .instruction .jumpIfTrue _ | .instruction .dup _ | .instruction .neg _ | .instruction .not _
  | .instruction .retValue _ => 1
  | .instruction .add _ | .instruction .sub _ | .instruction .mul _ | .instruction .div _
  | .instruction .mod _ | .instruction .eq _ | .instruction .ne _ | .instruction .lt _
  | .instruction .le _ | .instruction .gt _ | .instruction .ge _ | .instruction .bitAnd _
  | .instruction .bitOr _ | .instruction .bitXor _ | .instruction .shl _ | .instruction .shr _
  | .instruction .ushr _ => 2
  | .instruction .call [_, .int count] => count.toNat
  | _ => 0

/-- How much higher the stack is behind a row. -/
def effect (r : Row) : Int :=
  match r.content with
  | .instruction .push _ | .instruction .load _ | .instruction .dup _ => 1
  | .instruction .store _ | .instruction .pop _ | .instruction .jumpIfFalse _
  | .instruction .jumpIfTrue _ => -1
  | .instruction .add _ | .instruction .sub _ | .instruction .mul _ | .instruction .div _
  | .instruction .mod _ | .instruction .eq _ | .instruction .ne _ | .instruction .lt _
  | .instruction .le _ | .instruction .gt _ | .instruction .ge _ | .instruction .bitAnd _
  | .instruction .bitOr _ | .instruction .bitXor _ | .instruction .shl _ | .instruction .shr _
  | .instruction .ushr _ => -1
  | .instruction .call [_, .int count] => 1 - count
  | _ => 0

def next (r : Row) : Address :=
  r.offset + r.content.size

/-- Where control can go from a row, within the same function. -/
def successors (r : Row) : List Address :=
  match r.content with
  | .instruction .jump [.addr target] => [target]
  | .instruction .jumpIfFalse [.addr target] => [target, r.next]
  | .instruction .jumpIfTrue [.addr target] => [target, r.next]
  | .instruction .ret _ | .instruction .retValue _ | .instruction .halt _ => []
  | _ => [r.next]

/-- Whether the stack must be empty at a row. -/
def isClear (r : Row) : Bool :=
  match r.content with
  | .instruction .ret _ | .instruction .halt _ | .instruction .enterScope _
  | .instruction .exitScope _ => true
  | _ => false

def isReturnValue (r : Row) : Bool :=
  match r.content with
  | .instruction .retValue _ => true
  | _ => false

/-- The heights fit a row: it finds its operands, its successors have the height that it leaves, and
    scopes and functions begin and end with an empty stack. -/
structure Disciplined (height : Address → Nat) (r : Row) : Prop where
  operands : r.needs ≤ height r.offset
  successors : ∀ b ∈ r.successors, (height b : Int) = height r.offset + r.effect
  clear : r.isClear = true → height r.offset = 0
  returns : r.isReturnValue = true → height r.offset = 1

end Row

/-- A row from which control goes on to the next one. -/
theorem Row.disciplined_of_next {height : Address → Nat} {r : Row} {needed : Nat} {lift : Int}
    (hneeds : r.needs = needed) (heffect : r.effect = lift) (hnext : r.successors = [r.next])
    (hclear : r.isClear = true → height r.offset = 0) (hreturns : r.isReturnValue = false)
    (hfinds : needed ≤ height r.offset) (hleaves : (height r.next : Int) = height r.offset + lift) :
    r.Disciplined height := by
  refine ⟨hneeds ▸ hfinds, ?_, hclear, ?_⟩
  · intro b hb
    rw [hnext] at hb
    rcases List.mem_singleton.mp hb with rfl
    rw [heffect]
    exact hleaves
  · intro htrue
    rw [hreturns] at htrue
    cases htrue

/-- A row that ends the run of a function or of the program. -/
theorem Row.disciplined_of_end {height : Address → Nat} {r : Row} (hend : r.successors = [])
    (hneeds : r.needs ≤ height r.offset) (hclear : r.isClear = true → height r.offset = 0)
    (hreturns : r.isReturnValue = true → height r.offset = 1) : r.Disciplined height := by
  refine ⟨hneeds, ?_, hclear, hreturns⟩
  intro b hb
  rw [hend] at hb
  cases hb

/-- A certificate for the stack fits the rows of instructions that are not jumps. -/
theorem disciplined_plain {height : Address → Nat} {a : Address} {i : Plain}
    (h : i.Lifts (height a) (height (a + i.size))) :
    ((Instruction.plain i).row a).Disciplined height := by
  cases i with
  | push value =>
    have hlift : height (a + 2) = height a + 1 := h
    have hleaves : (height (a + 2) : Int) = height a + 1 := by omega
    exact Row.disciplined_of_next rfl rfl rfl nofun rfl (Nat.zero_le _) hleaves
  | load depth slot =>
    have hlift : height (a + 3) = height a + 1 := h
    have hleaves : (height (a + 3) : Int) = height a + 1 := by omega
    exact Row.disciplined_of_next rfl rfl rfl nofun rfl (Nat.zero_le _) hleaves
  | store depth slot =>
    have hlift : height a = height (a + 3) + 1 := h
    have hleaves : (height (a + 3) : Int) = height a + -1 := by omega
    have hfinds : 1 ≤ height a := by omega
    exact Row.disciplined_of_next rfl rfl rfl nofun rfl hfinds hleaves
  | pop =>
    have hlift : height a = height (a + 1) + 1 := h
    have hleaves : (height (a + 1) : Int) = height a + -1 := by omega
    have hfinds : 1 ≤ height a := by omega
    exact Row.disciplined_of_next rfl rfl rfl nofun rfl hfinds hleaves
  | dup =>
    obtain ⟨hfinds, hlift⟩ : 1 ≤ height a ∧ height (a + 1) = height a + 1 := h
    have hleaves : (height (a + 1) : Int) = height a + 1 := by omega
    exact Row.disciplined_of_next rfl rfl rfl nofun rfl hfinds hleaves
  | unary op =>
    obtain ⟨hfinds, hlift⟩ : 1 ≤ height a ∧ height (a + 1) = height a := h
    have hleaves : (height (a + 1) : Int) = height a + 0 := by omega
    cases op <;> exact Row.disciplined_of_next rfl rfl rfl nofun rfl hfinds hleaves
  | binary op =>
    obtain ⟨hpos, hlift⟩ : 1 ≤ height (a + 1) ∧ height a = height (a + 1) + 1 := h
    have hleaves : (height (a + 1) : Int) = height a + -1 := by omega
    have hfinds : 2 ≤ height a := by omega
    cases op <;> exact Row.disciplined_of_next rfl rfl rfl nofun rfl hfinds hleaves
  | enterScope =>
    obtain ⟨hzero, hlift⟩ : height a = 0 ∧ height (a + 1) = 0 := h
    have hleaves : (height (a + 1) : Int) = height a + 0 := by omega
    exact Row.disciplined_of_next rfl rfl rfl (fun _ => hzero) rfl (Nat.zero_le _) hleaves
  | exitScope =>
    obtain ⟨hzero, hlift⟩ : height a = 0 ∧ height (a + 1) = 0 := h
    have hleaves : (height (a + 1) : Int) = height a + 0 := by omega
    exact Row.disciplined_of_next rfl rfl rfl (fun _ => hzero) rfl (Nat.zero_le _) hleaves
  | call target count =>
    obtain ⟨hfinds, hlift⟩ : count ≤ height a ∧ height (a + 3) + count = height a + 1 := h
    have hleaves : (height (a + 3) : Int) = height a + (1 - count) := by omega
    exact Row.disciplined_of_next rfl rfl rfl nofun rfl hfinds hleaves
  | ret => exact Row.disciplined_of_end rfl (Nat.zero_le _) (fun _ => h) nofun
  | halt => exact Row.disciplined_of_end rfl (Nat.zero_le _) (fun _ => h) nofun
  | retValue =>
    have hone : height a = 1 := h
    exact Row.disciplined_of_end rfl (Nat.le_of_eq hone.symm) nofun (fun _ => hone)

/-- A certificate for the stack fits the rows of jumps. -/
theorem disciplined_jump {height : Address → Nat} {a target : Address} {kind : Jump}
    (h : kind.Lifts (height a) (height target) (height (a + 2))) :
    ((Instruction.jump kind target).row a).Disciplined height := by
  have hboth (op : Opcode) (hop : op = .jumpIfFalse ∨ op = .jumpIfTrue)
      (hlift : height a = height target + 1 ∧ height (a + 2) = height target) :
      Row.Disciplined height ⟨a, .instruction op [.addr target]⟩ := by
    obtain ⟨htarget, hnext⟩ := hlift
    have hfinds : 1 ≤ height a := by omega
    rcases hop with rfl | rfl <;>
    · refine ⟨hfinds, ?_, nofun, nofun⟩
      intro b hb
      rcases List.mem_cons.mp hb with rfl | hb
      · change (height b : Int) = height a + -1
        omega
      · rcases List.mem_singleton.mp hb with rfl
        change (height (a + 2) : Int) = height a + -1
        omega
  cases kind with
  | always =>
    have hsame : height target = height a := h
    refine ⟨Nat.zero_le _, ?_, nofun, nofun⟩
    intro b hb
    rcases List.mem_singleton.mp hb with rfl
    change (height b : Int) = height a + 0
    omega
  | ifFalse => exact hboth .jumpIfFalse (Or.inl rfl) h
  | ifTrue => exact hboth .jumpIfTrue (Or.inr rfl) h

/-- **The operand stack is used properly.** -/
theorem exists_heights_of_compile {config : Config} {tree : Tree} {program : Program}
    (h : tree.compile config = .ok program) (hshaped : tree.Shaped) :
    ∃ height : Address → Nat, height 0 = 0 ∧
      (∀ b ∈ Reading.bodies 0 (tree.wholeReading config), height b = 0) ∧
      height program.code.length = 0 ∧
      ∀ r ∈ Listing.rows 0 program.code, r.Disciplined height := by
  obtain ⟨p, frame, hcompiles⟩ := Tree.compiles_of_compile h
  have htree : Flows heights 0 p 0 := hcompiles.emits.leaves hshaped
  have hend : Flows heights 0 (.ending config.emitHalt) 0 := by
    unfold Segment.ending
    split
    · exact .one rfl
    · exact .nothing
  have hwhole : Flows heights 0 (p.whole config.emitHalt frame) 0 :=
    .seq (heights_settle htree) hend
  obtain ⟨height, hcertifies⟩ := hwhole.certified 0
  refine ⟨height, hcertifies.start, ?_, ?_, ?_⟩
  · intro b hb
    apply hcertifies.fresh b
    rw [Segment.whole, Segment.starts, Segment.starts_settle, ← hcompiles.emits.bodies_reading]
    exact List.mem_append_left _ hb
  · have hfinish := hcertifies.finish
    rw [hcompiles.code, Segment.length_words]
    rwa [Nat.zero_add] at hfinish
  · intro r hr
    obtain ⟨a, i, hmem, rfl⟩ := hcompiles.mem_rows.mp hr
    have hfits := hcertifies.fits a i hmem
    cases i with
    | plain i => exact disciplined_plain hfits
    | jump kind target => exact disciplined_jump hfits

theorem heights_doubling :
    Tree.doubling.compile {} = .ok .doubling ∧ Tree.doubling.Shaped ∧
      ∃ height : Address → Nat, height 0 = 0 ∧ height 7 = 0 ∧
        ∀ r ∈ Listing.rows 0 Program.doubling.code, r.Disciplined height := by
  have hcompile : Tree.doubling.compile {} = .ok .doubling := rfl
  have hshaped : Tree.doubling.Shaped := by
    simp [Tree.doubling, Tree.Shaped, Tree.ShapedAll, Tree.HoldsExpression, Tree.nodes,
      Tree.isExpression]
  obtain ⟨height, hstart, hbodies, -, hrows⟩ := exists_heights_of_compile hcompile hshaped
  have hbody : 7 ∈ Reading.bodies 0 (Tree.doubling.wholeReading {}) := by decide
  exact ⟨hcompile, hshaped, height, hstart, hbodies 7 hbody, hrows⟩

end SceneCode
