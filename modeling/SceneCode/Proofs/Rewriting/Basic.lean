import SceneCode.Session.Compile

/-!
# Trees that are rewritten

A `Rewriting` replaces nodes, and whatever stands where statements are wanted, by something that is
generated in the same way.  Done everywhere in a tree, it does not change what the tree compiles to
(`Rewriting.compile_apply`).

Only the log tells the two trees apart, since it has an entry for every node.  So the log is dropped
before the runs are compared: `Gen.unlogged` takes a computation to the one that does the same
without a log.  It commutes with one computation after the other, and in this way goes down from
every construct to the parts of the construct.
-/

namespace SceneCode

namespace Gen

variable {α β : Type}

/-! ### Computations without their log -/

/-- The computation that does the same and enters nothing into the log. -/
def unlogged (x : Gen α) : Gen α :=
  fun s => ⟨[], (x s).result, (x s).session⟩

theorem unlogged_bind (x : Gen α) (f : α → Gen β) :
    (x >>= f).unlogged = x.unlogged >>= fun a => (f a).unlogged := by
  funext s
  simp only [unlogged, bind_apply]
  cases (x s).result <;> rfl

theorem unlogged_ite (c : Prop) [Decidable c] (x y : Gen α) :
    (if c then x else y).unlogged = if c then x.unlogged else y.unlogged :=
  apply_ite unlogged c x y

theorem unlogged_node (kind : Kind) (x : Gen Unit) : (node kind x).unlogged = x.unlogged := rfl

/-- Nothing behind the generation of a tree looks at the log. -/
theorem compile_of_unlogged {t t' : Tree}
    (h : (t.generate .discard).unlogged = (t'.generate .discard).unlogged) (config : Config) :
    t.compile config = t'.compile config := by
  have hrun : (compile t).unlogged = (compile t').unlogged := by
    simp only [compile, unlogged_bind, h]
  have hresult : ((compile t).unlogged { config }).result = t.compile config := rfl
  rw [← hresult, hrun]
  rfl

end Gen

/-! ### Rewritings -/

/-- What is done everywhere in a tree, from the inside to the outside. -/
structure Rewriting where
  /-- What is done to a node whose parts have been rewritten. -/
  node : Tree → Tree
  /-- What is done to a position where statements stand. -/
  body : Tree → Tree
  generate_node : ∀ (t : Tree) (u : Usage),
    ((node t).generate u).unlogged = (t.generate u).unlogged
  generate_body : ∀ t : Tree,
    ((body t).generate .discard).unlogged = (t.generate .discard).unlogged
  /-- A return without a value and a loop without a condition stay the only ones. -/
  isEmpty_node : ∀ t : Tree, (node t).isEmpty = t.isEmpty

namespace Rewriting

open Gen

variable (r : Rewriting)

mutual

/-- Rewrite all nodes of a tree, and all positions in it where statements stand. -/
def inside : Tree → Tree
  | .empty => .empty
  | .seq items => .seq (insideAll items)
  | .program body => r.node (.program (r.body (inside body)))
  | .block body => r.node (.block (r.body (inside body)))
  | .function name params returns body =>
    r.node (.function name params returns (r.body (inside body)))
  | .ret value => r.node (.ret (inside value))
  | .declare type name => r.node (.declare type name)
  | .declareWith type name value => r.node (.declareWith type name (inside value))
  | .assign name value => r.node (.assign name (inside value))
  | .compound op name value => r.node (.compound op name (inside value))
  | .step op name => r.node (.step op name)
  | .ifThen cond body => r.node (.ifThen (inside cond) (r.body (inside body)))
  | .ifElse cond body other =>
    r.node (.ifElse (inside cond) (r.body (inside body)) (r.body (inside other)))
  | .whileLoop cond body => r.node (.whileLoop (inside cond) (r.body (inside body)))
  | .doLoop cond body => r.node (.doLoop (inside cond) (r.body (inside body)))
  | .forLoop init cond update body =>
    r.node (.forLoop (r.body (inside init)) (inside cond) (r.body (inside update))
      (r.body (inside body)))
  | .call name args => r.node (.call name (insideAll args))
  | .binary op lhs rhs => r.node (.binary op (inside lhs) (inside rhs))
  | .logical op lhs rhs => r.node (.logical op (inside lhs) (inside rhs))
  | .unary op operand => r.node (.unary op (inside operand))
  | .ident name => r.node (.ident name)
  | .lit value => r.node (.lit value)

def insideAll : List Tree → List Tree
  | [] => []
  | t :: rest => inside t :: insideAll rest

end

/-- Rewrite a whole program.  Statements stand at its root. -/
def apply (tree : Tree) : Tree :=
  r.body (r.inside tree)

theorem length_insideAll (ts : List Tree) : (r.insideAll ts).length = ts.length := by
  induction ts with
  | nil => rfl
  | cons t rest ih => rw [insideAll, List.length_cons, List.length_cons, ih]

theorem isEmpty_inside (t : Tree) : (r.inside t).isEmpty = t.isEmpty := by
  cases t with
  | empty => rfl
  | seq items => rfl
  | _ => exact r.isEmpty_node _

/-! ### Rewriting changes nothing but the log

A construct with rewritten parts is taken apart down to the parts, where the runs are the same by
induction.  Where the code depends on whether there is a part or on how many there are, the answer
is the same too. -/

mutual

theorem generate_inside (t : Tree) (u : Usage) :
    ((r.inside t).generate u).unlogged = (t.generate u).unlogged := by
  have hbody (b : Tree)
      (h : ((r.inside b).generate .discard).unlogged = (b.generate .discard).unlogged) :
      ((r.body (r.inside b)).generate .discard).unlogged = (b.generate .discard).unlogged :=
    (r.generate_body _).trans h
  match t with
  | .empty => rfl
  | .seq items => exact generateAll_insideAll items u
  | .program body =>
    rw [inside, generate_node]
    exact hbody body (generate_inside body _)
  | .block body =>
    rw [inside, generate_node]
    simp only [Tree.generate, unlogged_node, block, unlogged_bind,
      hbody body (generate_inside body _)]
  | .function name params returns body =>
    rw [inside, generate_node]
    simp only [Tree.generate, unlogged_node, function, jumpOver, unlogged_bind, unlogged_ite,
      hbody body (generate_inside body _)]
  | .ret value =>
    rw [inside, generate_node]
    simp only [Tree.generate, unlogged_node, ret, isEmpty_inside, unlogged_bind, unlogged_ite,
      generate_inside value _]
  | .declare type name => rw [inside, generate_node]
  | .declareWith type name value =>
    rw [inside, generate_node]
    simp only [Tree.generate, unlogged_node, declareWith, unlogged_bind, generate_inside value _]
  | .assign name value =>
    rw [inside, generate_node]
    simp only [Tree.generate, unlogged_node, assign, unlogged_bind, generate_inside value _]
  | .compound op name value =>
    rw [inside, generate_node]
    simp only [Tree.generate, unlogged_node, compound, unlogged_bind, generate_inside value _]
  | .step op name => rw [inside, generate_node]
  | .ifThen cond body =>
    rw [inside, generate_node]
    simp only [Tree.generate, unlogged_node, ifThen, unlogged_bind, generate_inside cond _,
      hbody body (generate_inside body _)]
  | .ifElse cond body other =>
    rw [inside, generate_node]
    simp only [Tree.generate, unlogged_node, ifElse, unlogged_bind, generate_inside cond _,
      hbody body (generate_inside body _), hbody other (generate_inside other _)]
  | .whileLoop cond body =>
    rw [inside, generate_node]
    simp only [Tree.generate, unlogged_node, whileLoop, unlogged_bind, generate_inside cond _,
      hbody body (generate_inside body _)]
  | .doLoop cond body =>
    rw [inside, generate_node]
    simp only [Tree.generate, unlogged_node, doLoop, unlogged_bind, generate_inside cond _,
      hbody body (generate_inside body _)]
  | .forLoop init cond update body =>
    rw [inside, generate_node]
    simp only [Tree.generate, unlogged_node, forLoop, isEmpty_inside, unlogged_bind, unlogged_ite,
      generate_inside cond _, hbody init (generate_inside init _),
      hbody update (generate_inside update _), hbody body (generate_inside body _)]
  | .call name args =>
    rw [inside, generate_node]
    simp only [Tree.generate, unlogged_node, call, length_insideAll, unlogged_bind,
      generateAll_insideAll args _]
  | .binary op lhs rhs =>
    rw [inside, generate_node]
    simp only [Tree.generate, unlogged_node, binary, unlogged_bind, generate_inside lhs _,
      generate_inside rhs _]
  | .logical op lhs rhs =>
    rw [inside, generate_node]
    simp only [Tree.generate, unlogged_node, logical, unlogged_bind, generate_inside lhs _,
      generate_inside rhs _]
  | .unary op operand =>
    rw [inside, generate_node]
    simp only [Tree.generate, unlogged_node, unary, unlogged_bind, generate_inside operand _]
  | .ident name => rw [inside, generate_node]
  | .lit value => rw [inside, generate_node]

theorem generateAll_insideAll (ts : List Tree) (u : Usage) :
    (Tree.generateAll (r.insideAll ts) u).unlogged = (Tree.generateAll ts u).unlogged := by
  match ts with
  | [] => rfl
  | t :: rest =>
    simp only [insideAll, Tree.generateAll, unlogged_bind, generate_inside t u,
      generateAll_insideAll rest u]

end

/-- **A tree that is rewritten compiles to the same program**, or fails for the same reason. -/
theorem compile_apply (config : Config) (tree : Tree) :
    (r.apply tree).compile config = tree.compile config := by
  apply compile_of_unlogged
  rw [apply, generate_body, generate_inside]

end Rewriting

end SceneCode
