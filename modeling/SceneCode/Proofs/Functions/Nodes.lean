import Mathlib.Data.List.Forall2
import SceneCode.Proofs.Lexical.Outline

/-!
# Functions of trees

`Tree.functions` lists the functions that a tree defines, and `Tree.returns` the return statements
that belong to the function around the tree.  Both follow the order in which code is generated.
`Tree.definitions` tells where the code of functions is, and has the same functions in the same
order (`Tree.forall₂_definitions`).
-/

namespace SceneCode

/-- The definition of a function in a tree. -/
structure FunctionNode where
  name : String
  params : List Param
  returns : TypeName
  body : Tree
  /-- The number of blocks, loops with a scope and functions around it. -/
  depth : Nat

namespace Tree

mutual

/-- The functions that a tree defines with `depth` scopes around it, those inside other ones
    included. -/
def functions (depth : Nat) : Tree → List FunctionNode
  | .empty => []
  | .seq items => functionsAll depth items
  | .program body => functions depth body
  | .block body => functions (depth + 1) body
  | .function name params returns body =>
    ⟨name, params, returns, body, depth⟩ :: functions (depth + 1) body
  | .ret value => functions depth value
  | .declare _ _ => []
  | .declareWith _ _ value => functions depth value
  | .assign _ value => functions depth value
  | .compound _ _ value => functions depth value
  | .step _ _ => []
  | .ifThen cond body => functions depth cond ++ functions depth body
  | .ifElse cond body other =>
    functions depth cond ++ functions depth body ++ functions depth other
  | .whileLoop cond body => functions depth cond ++ functions depth body
  | .doLoop cond body => functions depth body ++ functions depth cond
  | .forLoop init cond update body =>
    functions (depth + 1) init ++ functions (depth + 1) cond ++ functions (depth + 1) body ++
      functions (depth + 1) update
  | .call _ args => functionsAll depth args
  | .binary _ lhs rhs => functions depth lhs ++ functions depth rhs
  | .logical _ lhs rhs => functions depth lhs ++ functions depth rhs
  | .unary _ operand => functions depth operand
  | .ident _ => []
  | .lit _ => []

def functionsAll (depth : Nat) : List Tree → List FunctionNode
  | [] => []
  | t :: rest => functions depth t ++ functionsAll depth rest

end

mutual

/-- The values of the return statements of a tree.  Those of a function inside the tree belong to
    that function. -/
def returns : Tree → List Tree
  | .empty => []
  | .seq items => returnsAll items
  | .program body => returns body
  | .block body => returns body
  | .function _ _ _ _ => []
  | .ret value => returns value ++ [value]
  | .declare _ _ => []
  | .declareWith _ _ value => returns value
  | .assign _ value => returns value
  | .compound _ _ value => returns value
  | .step _ _ => []
  | .ifThen cond body => returns cond ++ returns body
  | .ifElse cond body other => returns cond ++ returns body ++ returns other
  | .whileLoop cond body => returns cond ++ returns body
  | .doLoop cond body => returns body ++ returns cond
  | .forLoop init cond update body =>
    returns init ++ returns cond ++ returns body ++ returns update
  | .call _ args => returnsAll args
  | .binary _ lhs rhs => returns lhs ++ returns rhs
  | .logical _ lhs rhs => returns lhs ++ returns rhs
  | .unary _ operand => returns operand
  | .ident _ => []
  | .lit _ => []

def returnsAll : List Tree → List Tree
  | [] => []
  | t :: rest => returns t ++ returnsAll rest

end

theorem eq_empty_of_isEmpty {t : Tree} (h : t.isEmpty = true) : t = .empty := by
  cases t with
  | empty => rfl
  | _ => cases h

end Tree

/-! ### Where the code of functions is -/

/-- The code of the function is laid out as the definition says. -/
structure FunctionNode.Defines (config : Config) (f : FunctionNode) (d : Definition) : Prop where
  params : d.params = f.params.length
  body : d.body = f.body.outline config (some f.returns) .discard
  around : d.around.length = f.depth

@[simp] theorem Outline.definitions_words (count a : Nat) (around : List Layer) :
    (words count).definitions a around = [] := rfl

namespace Tree

open List (Forall₂)
open Outline (definitions_words)

variable {config : Config}

mutual

/-- The outline of a tree has the functions of the tree in the same order. -/
theorem forall₂_outline (fn : Option TypeName) (t : Tree) (u : Usage) (a : Nat)
    (around : List Layer) :
    Forall₂ (FunctionNode.Defines config) (t.functions around.length)
      ((t.outline config fn u).definitions a around) := by
  match t with
  | .empty | .declare _ _ | .step _ _ | .ident _ | .lit _ => exact .nil
  | .seq items => exact forall₂_outlineAll fn items u a around
  | .program body => exact forall₂_outline fn body _ a around
  | .block body => exact forall₂_outline fn body _ _ (.scope _ :: around)
  | .function name params returns body =>
    exact .cons ⟨rfl, rfl, rfl⟩ (forall₂_outline (some returns) body _ _ (.function _ _ :: around))
  | .ret value =>
    rw [outline]
    split
    · rename_i hempty
      rw [eq_empty_of_isEmpty hempty]
      exact .nil
    · rw [Outline.definitions, definitions_words, List.append_nil]
      exact forall₂_outline fn value _ a around
  | .declareWith _ _ value | .assign _ value | .unary _ value =>
    simp only [outline, Outline.definitions, definitions_words, List.append_nil]
    exact forall₂_outline fn value _ a around
  | .compound _ _ value =>
    simp only [outline, Outline.definitions, definitions_words, List.append_nil, List.nil_append]
    exact forall₂_outline fn value _ _ around
  | .ifThen cond body =>
    exact List.rel_append (forall₂_outline fn cond _ a around) (forall₂_outline fn body _ _ around)
  | .ifElse cond body other =>
    simp only [functions, List.append_assoc]
    exact List.rel_append (forall₂_outline fn cond _ a around)
      (List.rel_append (forall₂_outline fn body _ _ around) (forall₂_outline fn other _ _ around))
  | .whileLoop cond body =>
    simp only [outline, Outline.definitions, definitions_words, List.append_nil, List.nil_append]
    exact List.rel_append (forall₂_outline fn cond _ a around) (forall₂_outline fn body _ _ around)
  | .doLoop cond body =>
    simp only [outline, Outline.definitions, definitions_words, List.append_nil]
    exact List.rel_append (forall₂_outline fn body _ a around) (forall₂_outline fn cond _ _ around)
  | .forLoop init cond update body =>
    -- all parts of the loop are in its scope, and an empty condition has no code
    rw [outline]
    simp only [functions, List.append_assoc]
    refine List.rel_append (forall₂_outline fn init _ _ (.scope _ :: around)) ?_
    split
    · rename_i hempty
      rw [eq_empty_of_isEmpty hempty]
      simp only [Outline.definitions, definitions_words, List.append_nil]
      exact List.rel_append (forall₂_outline fn body _ _ (.scope _ :: around))
        (forall₂_outline fn update _ _ (.scope _ :: around))
    · simp only [Outline.definitions, definitions_words, List.append_nil, List.nil_append]
      exact List.rel_append (forall₂_outline fn cond _ _ (.scope _ :: around))
        (List.rel_append (forall₂_outline fn body _ _ (.scope _ :: around))
          (forall₂_outline fn update _ _ (.scope _ :: around)))
  | .call _ args =>
    simp only [outline, Outline.definitions, definitions_words, List.append_nil]
    exact forall₂_outlineAll fn args _ a around
  | .binary _ lhs rhs | .logical _ lhs rhs =>
    simp only [outline, Outline.definitions, definitions_words, List.append_nil, List.nil_append]
    exact List.rel_append (forall₂_outline fn lhs _ a around) (forall₂_outline fn rhs _ _ around)

theorem forall₂_outlineAll (fn : Option TypeName) (ts : List Tree) (u : Usage) (a : Nat)
    (around : List Layer) :
    Forall₂ (FunctionNode.Defines config) (functionsAll around.length ts)
      ((outlineAll config fn ts u).definitions a around) := by
  match ts with
  | [] => exact .nil
  | t :: rest =>
    exact List.rel_append (forall₂_outline fn t u a around)
      (forall₂_outlineAll fn rest u _ around)

end

/-- The scopes around a tree are around all its functions. -/
theorem le_depth {t : Tree} {depth : Nat} {f : FunctionNode} (h : f ∈ t.functions depth) :
    depth ≤ f.depth := by
  have hforall := @forall₂_outline {} none t .discard 0 (.replicate depth (.scope 0))
  rw [List.length_replicate] at hforall
  obtain ⟨i, hi, rfl⟩ := List.getElem_of_mem h
  have hi' := hi
  rw [hforall.length_eq] at hi'
  have hdepth := (hforall.get hi hi').around
  obtain ⟨layers, hlayers⟩ := Outline.exists_around_eq (List.get_mem _ ⟨i, hi'⟩)
  rw [hlayers, List.length_append, List.length_replicate] at hdepth
  exact Nat.le_of_add_left_le (Nat.le_of_eq hdepth)

/-- The functions of a program, each with the place of its code. -/
theorem forall₂_definitions (config : Config) (tree : Tree) :
    Forall₂ (FunctionNode.Defines config) (tree.functions 0) (tree.definitions config) :=
  forall₂_outline none tree .discard 0 []

end Tree

end SceneCode
