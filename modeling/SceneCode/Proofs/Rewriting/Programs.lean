import SceneCode.Proofs.Code.Instruction
import SceneCode.Proofs.Rewriting.Basic

/-!
# Other ways to write a program

Two things about a tree are a matter of taste.  A change of a variable may be written in short, as
one node, or in full, as an assignment of what is computed from the old value.  And the statements
of a body may be held together in groups, with gaps between them, in any way.  Neither makes a
difference to the program (`compile_longhand`, `compile_ungrouped`).

What a construct in short does is compared with the construct in full only once, for the node by
itself.  That it makes no difference at any depth of a tree is what rewritings are for.
-/

namespace SceneCode

open Gen

/-! ### Changes of variables -/

namespace Tree

/-- Write a change of a variable in full. -/
def spellOut : Tree → Tree
  | .compound op name value => .assign name (.binary op (.ident name) value)
  | .step op name => .assign name (.binary op.binary (.ident name) (.lit (.int 1)))
  | t => t

/-- The value of the variable is loaded first in both cases, so faults come in the same order. -/
theorem generate_compound (op : BinaryOp) (name : String) (value : Tree) (u : Usage) :
    ((assign name (.binary op (.ident name) value)).generate u).unlogged =
      ((compound op name value).generate u).unlogged := by
  have hload : identifier name .value = loadVariable name := by
    simp only [identifier, finish, bind_pure_unit]
  simp only [generate, unlogged_node, Gen.assign, Gen.binary, Gen.compound, finish, hload,
    bind_pure_unit, unlogged_bind, bind_assoc]

/-- A change by one is a change by the value one. -/
theorem generate_step (op : StepOp) (name : String) (u : Usage) :
    ((compound op.binary name (.lit (.int 1))).generate u).unlogged =
      ((step op name).generate u).unlogged := by
  have hwords : emitAll [.op .push, .int 1, .op op.opcode] =
      (do literal (.int 1) .value; emitAll [.op op.binary.opcode]) := by
    cases op <;> rfl
  simp only [generate, unlogged_node, Gen.compound, Gen.step, hwords, unlogged_bind, bind_assoc]

theorem generate_spellOut (t : Tree) (u : Usage) :
    (t.spellOut.generate u).unlogged = (t.generate u).unlogged := by
  cases t with
  | compound op name value => exact generate_compound op name value u
  | step op name => exact (generate_compound _ name _ u).trans (generate_step op name u)
  | _ => rfl

end Tree

/-- Every change of a variable is written in full. -/
def Rewriting.longhand : Rewriting where
  node := Tree.spellOut
  body := id
  generate_node := Tree.generate_spellOut
  generate_body _ := rfl
  isEmpty_node t := by cases t <;> rfl

/-- **Assignments with an operator and changes by one are shorthand.**  A tree in which all of them,
    at any depth, are written in full compiles to the same program, or fails for the same reason. -/
theorem compile_longhand (config : Config) (tree : Tree) :
    (Rewriting.longhand.apply tree).compile config = tree.compile config :=
  Rewriting.longhand.compile_apply config tree

/-! ### Groups of statements -/

namespace Tree

mutual

/-- The statements at a position, one by one.  Nothing is no statement, the statements of a sequence
    are those of its items, and those of a program are those of its body. -/
def statements : Tree → List Tree
  | .empty => []
  | .seq items => statementsAll items
  | .program body => statements body
  | t => [t]

def statementsAll : List Tree → List Tree
  | [] => []
  | t :: rest => statements t ++ statementsAll rest

end

theorem generateAll_append (ts ts' : List Tree) (u : Usage) :
    generateAll (ts ++ ts') u = (do generateAll ts u; generateAll ts' u) := by
  induction ts with
  | nil => rfl
  | cons t rest ih => simp only [List.cons_append, generateAll, ih, bind_assoc]

theorem generateAll_singleton (t : Tree) (u : Usage) : generateAll [t] u = t.generate u :=
  bind_pure_unit

mutual

/-- Statements leave no value, and neither does a program.  So it can be taken apart where the
    statements around it are. -/
theorem generate_statements (t : Tree) :
    (generateAll t.statements .discard).unlogged = (t.generate .discard).unlogged := by
  cases t with
  | empty => rfl
  | seq items => exact generate_statementsAll items
  | program body => exact generate_statements body
  | _ => exact congrArg unlogged (generateAll_singleton _ _)

theorem generate_statementsAll (ts : List Tree) :
    (generateAll (statementsAll ts) .discard).unlogged = (generateAll ts .discard).unlogged := by
  cases ts with
  | nil => rfl
  | cons t rest =>
    rw [statementsAll, generateAll_append, unlogged_bind, generate_statements t,
      generate_statementsAll rest, generateAll, unlogged_bind]

end

end Tree

/-- Every position where statements stand holds one sequence of them, without groups, gaps and
    programs.  Where values are wanted, sequences and gaps stay. -/
def Rewriting.ungrouped : Rewriting where
  node := id
  body t := .seq t.statements
  generate_node _ _ := rfl
  generate_body := Tree.generate_statements
  isEmpty_node _ := rfl

/-- **How statements are grouped does not matter.**  A tree in which all groups of statements, at
    any depth, are taken apart compiles to the same program, or fails for the same reason. -/
theorem compile_ungrouped (config : Config) (tree : Tree) :
    (Rewriting.ungrouped.apply tree).compile config = tree.compile config :=
  Rewriting.ungrouped.compile_apply config tree

end SceneCode
