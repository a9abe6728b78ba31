import SceneCode.Proofs.Code.Instruction
import SceneCode.Proofs.Meaning.Machine
import SceneCode.Proofs.Shape

/-!
# Evaluation

What a program without functions means, said over its tree.  Each open scope has a store, a function
on names.  A name belongs to the innermost scope that has declared it in front of the place where it
is used; what has been declared follows from the text alone, so a declaration that was jumped over
counts too.  A declaration without a value does nothing when it is reached: the store of a scope
holds the default everywhere when the scope opens.

The value of an expression is computed by a function.  Statements may run forever, so what they do
is a relation: `t.exec M Γ σ σ'` says that the statement ends, and takes the stores `σ` to `σ'`.
-/

namespace SceneCode

/-- Rounds that go on as long as they say so. -/
inductive Cycle {σ : Type} (round : σ → Bool → σ → Prop) : σ → σ → Prop where
  | exit {s t} : round s false t → Cycle round s t
  | again {s r t} : round s true r → Cycle round r t → Cycle round s t

/-- The names that the open scopes have declared so far, innermost scope first and in the order of
    their declarations. -/
abbrev Declared := List (List String)

/-- The stores of the open scopes, innermost first. -/
abbrev Stores (V : Type) := List (String → V)

namespace Declared

/-- More names in the innermost scope. -/
def extend (names : List String) : Declared → Declared
  | [] => []
  | first :: outer => (first ++ names) :: outer

end Declared

namespace Stores

variable {V : Type}

/-- The value of a variable. -/
def read? (name : String) : Declared → Stores V → Option V
  | names :: Γ, ρ :: σ => if name ∈ names then some (ρ name) else read? name Γ σ
  | _, _ => none

/-- Give a variable a value. -/
def write? (name : String) (v : V) : Declared → Stores V → Option (Stores V)
  | names :: Γ, ρ :: σ =>
    if name ∈ names then some (Function.update ρ name v :: σ)
    else (write? name v Γ σ).map (ρ :: ·)
  | _, _ => none

/-- Give a variable of the innermost scope its first value. -/
def define? (name : String) (v : V) : Stores V → Option (Stores V)
  | [] => none
  | ρ :: σ => some (Function.update ρ name v :: σ)

end Stores

namespace Tree

mutual

/-- The variables that a tree declares in the scope around it, in order.  Blocks and loops with a
    scope of their own keep theirs, and expressions declare nothing. -/
def declared : Tree → List String
  | .seq items => declaredAll items
  | .program body => declared body
  | .declare _ name => [name]
  | .declareWith _ name _ => [name]
  | .ifThen _ body => declared body
  | .ifElse _ body other => declared body ++ declared other
  | .whileLoop _ body => declared body
  | .doLoop _ body => declared body
  | _ => []

/-- The variables that several trees declare in the scope around them. -/
def declaredAll : List Tree → List String
  | [] => []
  | t :: rest => declared t ++ declaredAll rest

end

mutual

/-- The tree defines no function, calls none and has no return. -/
def FunctionFree : Tree → Prop
  | .empty | .declare _ _ | .step _ _ | .ident _ | .lit _ => True
  | .seq items => FunctionFreeAll items
  | .program body | .block body => body.FunctionFree
  | .function _ _ _ _ | .ret _ | .call _ _ => False
  | .declareWith _ _ value | .assign _ value | .compound _ _ value => value.FunctionFree
  | .ifThen cond body | .whileLoop cond body | .doLoop cond body =>
    cond.FunctionFree ∧ body.FunctionFree
  | .ifElse cond body other => cond.FunctionFree ∧ body.FunctionFree ∧ other.FunctionFree
  | .forLoop init cond update body =>
    init.FunctionFree ∧ cond.FunctionFree ∧ update.FunctionFree ∧ body.FunctionFree
  | .binary _ lhs rhs | .logical _ lhs rhs => lhs.FunctionFree ∧ rhs.FunctionFree
  | .unary _ operand => operand.FunctionFree

/-- None of the trees defines a function, calls one or has a return. -/
def FunctionFreeAll : List Tree → Prop
  | [] => True
  | t :: rest => t.FunctionFree ∧ FunctionFreeAll rest

end

end Tree

/-! ### Expressions -/

namespace Meaning

variable {V : Type} (M : Meaning V)

def literal : Literal → V
  | .int n => M.int n.toInt
  | .float x => M.float x
  | .bool b => M.bool b
  | .str s => M.str s

/-- Whether the first value of an operator already is its value. -/
def decides : LogicalOp → V → Bool
  | .and, v => !M.truthy v
  | .or, v => M.truthy v

end Meaning

namespace Tree

variable {V : Type} (M : Meaning V)

/-- The one value that a position yields. -/
def single? : List V × Stores V → Option (V × Stores V)
  | ([v], σ) => some (v, σ)
  | _ => none

mutual

/-- The values of the expressions that a position holds, last one first, and the stores behind
    them. -/
def values (Γ : Declared) : Tree → Stores V → Option (List V × Stores V)
  | .empty, σ => some ([], σ)
  | .seq items, σ => valuesAll Γ items σ
  | .lit value, σ => some ([M.literal value], σ)
  | .ident name, σ => do
    let v ← Stores.read? name Γ σ
    return ([v], σ)
  | .assign name value, σ => do
    let (v, σ) ← (values Γ value σ).bind single?
    return ([v], ← Stores.write? name v Γ σ)
  | .compound op name value, σ => do
    let old ← Stores.read? name Γ σ
    let (v, σ) ← (values Γ value σ).bind single?
    let new := M.binary op old v
    return ([new], ← Stores.write? name new Γ σ)
  | .step op name, σ => do
    let old ← Stores.read? name Γ σ
    let new := M.binary op.binary old (M.int 1)
    return ([new], ← Stores.write? name new Γ σ)
  | .binary op lhs rhs, σ => do
    let (x, σ) ← (values Γ lhs σ).bind single?
    let (y, σ) ← (values Γ rhs σ).bind single?
    return ([M.binary op x y], σ)
  | .logical op lhs rhs, σ => do
    let (x, σ) ← (values Γ lhs σ).bind single?
    if M.decides op x then
      return ([x], σ)
    else
      let (y, σ) ← (values Γ rhs σ).bind single?
      return ([y], σ)
  | .unary op operand, σ => do
    let (x, σ) ← (values Γ operand σ).bind single?
    return ([M.unary op x], σ)
  | _, _ => none

def valuesAll (Γ : Declared) : List Tree → Stores V → Option (List V × Stores V)
  | [], σ => some ([], σ)
  | t :: rest, σ => do
    let (first, σ) ← values Γ t σ
    let (later, σ) ← valuesAll Γ rest σ
    return (later ++ first, σ)

end

-- Derives the equations here, once for all the proofs that rewrite with them.
attribute [grind =] values valuesAll

/-- The one value of a position and the stores behind it. -/
def Yields (Γ : Declared) (t : Tree) (σ : Stores V) (v : V) (σ' : Stores V) : Prop :=
  t.values M Γ σ = some ([v], σ')

/-! ### Statements -/

mutual

/-- What a statement does to the stores, if it ends. -/
def exec (Γ : Declared) : Tree → Stores V → Stores V → Prop
  | .empty, σ, σ' => σ' = σ
  | .seq items, σ, σ' => execAll Γ items σ σ'
  | .program body, σ, σ' => exec Γ body σ σ'
  | .block body, σ, σ' => ∃ ρ, exec ([] :: Γ) body ((fun _ => M.default) :: σ) (ρ :: σ')
  | .declare _ _, σ, σ' => σ' = σ
  | .declareWith _ name value, σ, σ' =>
    ∃ v σ₁, value.Yields M Γ σ v σ₁ ∧ Stores.define? name v σ₁ = some σ'
  | .ifThen cond body, σ, σ' =>
    ∃ v σ₁, cond.Yields M Γ σ v σ₁ ∧ if M.truthy v then exec Γ body σ₁ σ' else σ' = σ₁
  | .ifElse cond body other, σ, σ' =>
    ∃ v σ₁, cond.Yields M Γ σ v σ₁ ∧
      if M.truthy v then exec Γ body σ₁ σ' else exec (Γ.extend body.declared) other σ₁ σ'
  | .whileLoop cond body, σ, σ' =>
    Cycle (fun s go t => ∃ v r, cond.Yields M Γ s v r ∧ M.truthy v = go ∧
      if go then exec Γ body r t else t = r) σ σ'
  | .doLoop cond body, σ, σ' =>
    Cycle (fun s go t => ∃ r v, exec Γ body s r ∧
      cond.Yields M (Γ.extend body.declared) r v t ∧ M.truthy v = go) σ σ'
  | .forLoop init cond update body, σ, σ' =>
    let Γ₁ := Declared.extend init.declared ([] :: Γ)
    let Γ₂ := Γ₁.extend body.declared
    ∃ σ₁ ρ, exec ([] :: Γ) init ((fun _ => M.default) :: σ) σ₁ ∧
      Cycle (fun s go t => ∃ r,
        (if cond.isEmpty then go = true ∧ r = s
          else ∃ v, cond.Yields M Γ₁ s v r ∧ M.truthy v = go) ∧
        if go then ∃ q, exec Γ₁ body r q ∧ exec Γ₂ update q t else t = r) σ₁ (ρ :: σ')
  | .function _ _ _ _, _, _ => False
  | .ret _, _, _ => False
  | e, σ, σ' => ∃ vs, e.values M Γ σ = some (vs, σ')

/-- What several statements do one after the other. -/
def execAll (Γ : Declared) : List Tree → Stores V → Stores V → Prop
  | [], σ, σ' => σ' = σ
  | t :: rest, σ, σ' => ∃ σ₁, exec Γ t σ σ₁ ∧ execAll (Γ.extend t.declared) rest σ₁ σ'

end

end Tree

end SceneCode
