import SceneCode.Tree.Basic

/-!
# The shape of trees

A position of a tree may hold any sequence of nodes.  A parser puts exactly one expression where a
value is wanted, and only for such trees does the code handle the operand stack properly.  The nodes
that a position holds are counted with sequences flattened, as generation does it.
-/

namespace SceneCode

namespace Tree

mutual

/-- The nodes that a position holds, in order. -/
def nodes : Tree → List Tree
  | .empty => []
  | .seq items => nodesAll items
  | t => [t]

/-- The nodes that several positions hold. -/
def nodesAll : List Tree → List Tree
  | [] => []
  | t :: rest => nodes t ++ nodesAll rest

end

def isExpression : Tree → Bool
  | .assign _ _ | .compound _ _ _ | .step _ _ | .call _ _ | .binary _ _ _ | .logical _ _ _
  | .unary _ _ | .ident _ | .lit _ => true
  | _ => false

/-- The position holds exactly one node, and it is an expression. -/
def HoldsExpression (t : Tree) : Prop :=
  ∃ node, t.nodes = [node] ∧ node.isExpression = true

mutual

/-- Every position of the tree where a value is wanted holds exactly one expression.  A return may
    have no value, and a `for` may have no condition. -/
def Shaped : Tree → Prop
  | .empty => True
  | .seq items => ShapedAll items
  | .program body => body.Shaped
  | .block body => body.Shaped
  | .function _ _ _ body => body.Shaped
  | .ret value => (value = .empty ∨ value.HoldsExpression) ∧ value.Shaped
  | .declare _ _ => True
  | .declareWith _ _ value => value.HoldsExpression ∧ value.Shaped
  | .assign _ value => value.HoldsExpression ∧ value.Shaped
  | .compound _ _ value => value.HoldsExpression ∧ value.Shaped
  | .step _ _ => True
  | .ifThen cond body => cond.HoldsExpression ∧ cond.Shaped ∧ body.Shaped
  | .ifElse cond body other =>
    cond.HoldsExpression ∧ cond.Shaped ∧ body.Shaped ∧ other.Shaped
  | .whileLoop cond body => cond.HoldsExpression ∧ cond.Shaped ∧ body.Shaped
  | .doLoop cond body => cond.HoldsExpression ∧ cond.Shaped ∧ body.Shaped
  | .forLoop init cond update body =>
    (cond = .empty ∨ cond.HoldsExpression) ∧ init.Shaped ∧ cond.Shaped ∧ update.Shaped ∧
      body.Shaped
  | .call _ args => (∀ arg ∈ args, arg.HoldsExpression) ∧ ShapedAll args
  | .binary _ lhs rhs =>
    lhs.HoldsExpression ∧ rhs.HoldsExpression ∧ lhs.Shaped ∧ rhs.Shaped
  | .logical _ lhs rhs =>
    lhs.HoldsExpression ∧ rhs.HoldsExpression ∧ lhs.Shaped ∧ rhs.Shaped
  | .unary _ operand => operand.HoldsExpression ∧ operand.Shaped
  | .ident _ => True
  | .lit _ => True

/-- Every position in one of the trees where a value is wanted holds exactly one expression. -/
def ShapedAll : List Tree → Prop
  | [] => True
  | t :: rest => t.Shaped ∧ ShapedAll rest

end

/-- Arguments that hold one expression each hold as many nodes as there are arguments. -/
theorem nodesAll_of_holdsExpression {args : List Tree} (h : ∀ arg ∈ args, arg.HoldsExpression) :
    (nodesAll args).length = args.length ∧ ∀ node ∈ nodesAll args, node.isExpression = true := by
  induction args with
  | nil => exact ⟨rfl, by simp [nodesAll]⟩
  | cons arg args ih =>
    obtain ⟨hlength, hall⟩ := ih fun t ht => h t (List.mem_cons_of_mem _ ht)
    obtain ⟨node, hnodes, hexpr⟩ := h arg (List.mem_cons_self ..)
    rw [nodesAll, hnodes, List.singleton_append]
    refine ⟨by rw [List.length_cons, List.length_cons, hlength], ?_⟩
    intro n hn
    rcases List.mem_cons.mp hn with rfl | hn
    · exact hexpr
    · exact hall n hn

end Tree

end SceneCode
