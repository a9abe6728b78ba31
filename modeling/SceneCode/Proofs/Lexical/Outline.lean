import SceneCode.Proofs.Reading.Layout

/-!
# Outlines

The outline of a tree keeps its scopes and function definitions and forgets everything else about
its code but the number of words.  It is made from the tree alone, and it tells for every address of
the program which scopes are open there (`Outline.context`), and where the code of every function
starts and ends (`Outline.definitions`).

Code opens a scope by one word and closes it by another one.  The scope is open behind the first one
and up to the second one, so the first word is outside and the second one is inside.
-/

namespace SceneCode

/-- A scope that is open around some place, with the number of variables that it has when it
    closes. -/
inductive Layer where
  /-- A block or a loop with a scope of its own. -/
  | scope (locals : Nat)
  /-- The body of a function that starts at an address.  Its parameters are among the variables. -/
  | function (start : Nat) (locals : Nat)
deriving DecidableEq, Repr

namespace Layer

def locals : Layer → Nat
  | .scope locals => locals
  | .function _ locals => locals

/-- Whether the machine is told when the scope opens and closes. -/
def isScope : Layer → Bool
  | .scope _ => true
  | .function _ _ => false

end Layer

/-- The scopes of a tree. -/
inductive Outline where
  /-- Words without a scope among them, which declare so many variables in the scope around. -/
  | code (words locals : Nat)
  | seq (first second : Outline)
  /-- A scope with a word before and a word behind it. -/
  | scope (body : Outline)
  /-- The body of a function with the return behind it and the words of the jump over it before. -/
  | function (guard params : Nat) (body : Outline)
deriving DecidableEq, Repr

/-- The definition of a function, with the scopes around it. -/
structure Definition where
  /-- The address of the label. -/
  start : Nat
  params : Nat
  body : Outline
  around : List Layer

namespace Outline

def words (count : Nat) : Outline :=
  .code count 0

def size : Outline → Nat
  | .code words _ => words
  | .seq p q => p.size + q.size
  | .scope body => 1 + body.size + 1
  | .function guard _ body => guard + body.size + 1

/-- The number of variables that are declared in the scope around. -/
def locals : Outline → Nat
  | .code _ locals => locals
  | .seq p q => p.locals + q.locals
  | .scope _ => 0
  | .function _ _ _ => 0

/-- The scopes that are open at the address `b`, innermost first, if the outline starts at `a` and
    the scopes `around` are open there. -/
def context (a : Nat) (around : List Layer) : Outline → Nat → List Layer
  | .code _ _, _ => around
  -- the end of the first part is the start of the second one, and counts as part of that
  | .seq p q, b => if b < a + p.size then p.context a around b else q.context (a + p.size) around b
  | .scope body, b =>
    if a + 1 ≤ b ∧ b ≤ a + 1 + body.size then
      body.context (a + 1) (.scope body.locals :: around) b
    else around
  | .function guard params body, b =>
    if a + guard ≤ b ∧ b ≤ a + guard + body.size then
      body.context (a + guard) (.function (a + guard) (params + body.locals) :: around) b
    else around

/-- All function definitions, those inside other ones included. -/
def definitions (a : Nat) (around : List Layer) : Outline → List Definition
  | .code _ _ => []
  | .seq p q => p.definitions a around ++ q.definitions (a + p.size) around
  | .scope body => body.definitions (a + 1) (.scope body.locals :: around)
  | .function guard params body =>
    ⟨a + guard, params, body, around⟩ ::
      body.definitions (a + guard) (.function (a + guard) (params + body.locals) :: around)

end Outline

namespace Definition

/-- The address of the return behind the body. -/
def finish (d : Definition) : Nat :=
  d.start + d.body.size

def layer (d : Definition) : Layer :=
  .function d.start (d.params + d.body.locals)

/-- The scopes that are open where the body starts. -/
def base (d : Definition) : List Layer :=
  d.layer :: d.around

/-- Whether an address lies in the code of the function, from its label to the return behind its
    body. -/
def Contains (d : Definition) (b : Nat) : Prop :=
  d.start ≤ b ∧ b ≤ d.finish

/-- The functions that are defined inside. -/
def inner (d : Definition) : List Definition :=
  d.body.definitions d.start d.base

end Definition

/-! ### The outline of a tree -/

namespace Tree

open Outline (words)

mutual

/-- The outline of a tree inside a function that returns `fn`, or outside of all functions. -/
def outline (config : Config) (fn : Option TypeName) : Tree → Usage → Outline
  | .empty, _ => words 0
  | .seq items, u => outlineAll config fn items u
  | .program body, _ => outline config fn body .discard
  | .block body, _ => .scope (outline config fn body .discard)
  | .function _ params returns body, _ =>
    .function (Mark.guard config fn) params.length (outline config (some returns) body .discard)
  | .ret value, _ =>
    if value.isEmpty then words 1 else .seq (outline config fn value .value) (words (Mark.leave fn))
  | .declare _ _, _ => .code 0 1
  | .declareWith _ _ value, _ => .seq (outline config fn value .value) (.code 3 1)
  | .assign _ value, u => .seq (outline config fn value .value) (words u.storeSize)
  | .compound _ _ value, u =>
    .seq (words 3) (.seq (outline config fn value .value) (words (1 + u.storeSize)))
  | .step _ _, u => words (6 + u.storeSize)
  | .ifThen cond body, _ =>
    .seq (outline config fn cond .value) (.seq (words 2) (outline config fn body .discard))
  | .ifElse cond body other, _ =>
    .seq (outline config fn cond .value) (.seq (words 2) (.seq (outline config fn body .discard)
      (.seq (words 2) (outline config fn other .discard))))
  | .whileLoop cond body, _ =>
    .seq (outline config fn cond .value) (.seq (words 2) (.seq (outline config fn body .discard)
      (words 2)))
  | .doLoop cond body, _ =>
    .seq (.seq (outline config fn body .discard) (outline config fn cond .value)) (words 2)
  | .forLoop init cond update body, _ =>
    let round := Outline.seq (outline config fn body .discard) (outline config fn update .discard)
    .scope (.seq (outline config fn init .discard)
      (if cond.isEmpty then .seq round (words 2)
      else .seq (outline config fn cond .value) (.seq (words 2) (.seq round (words 2)))))
  | .call _ args, u => .seq (outlineAll config fn args .value) (words (3 + u.finishSize))
  | .binary _ lhs rhs, u =>
    .seq (outline config fn lhs .value) (.seq (outline config fn rhs .value)
      (words (1 + u.finishSize)))
  | .logical _ lhs rhs, u =>
    .seq (outline config fn lhs .value) (.seq (words 1) (.seq
      (.seq (words 2) (.seq (words 1) (outline config fn rhs .value))) (words u.finishSize)))
  | .unary _ operand, u => .seq (outline config fn operand .value) (words (1 + u.finishSize))
  | .ident _, u => words (3 + u.finishSize)
  | .lit _, u => words (2 + u.finishSize)

def outlineAll (config : Config) (fn : Option TypeName) : List Tree → Usage → Outline
  | [], _ => words 0
  | t :: rest, u => .seq (outline config fn t u) (outlineAll config fn rest u)

end

def wholeOutline (config : Config) (tree : Tree) : Outline :=
  tree.outline config none .discard

/-- The scopes that are open at an address of a program. -/
def context (config : Config) (tree : Tree) : Nat → List Layer :=
  (tree.wholeOutline config).context 0 []

def definitions (config : Config) (tree : Tree) : List Definition :=
  (tree.wholeOutline config).definitions 0 []

end Tree

/-! ### Contexts -/

namespace Outline

variable {o : Outline} {a b : Nat} {around : List Layer}

/-- Before and behind an outline only the scopes around it are open. -/
theorem context_of_outside (h : b < a ∨ a + o.size ≤ b) : o.context a around b = around := by
  induction o generalizing a around with
  | code words locals => rfl
  | seq p q ihp ihq =>
    simp only [size] at h
    simp only [context]
    split
    · exact ihp (by omega)
    · exact ihq (by omega)
  | scope body ih =>
    simp only [size] at h
    rw [context, if_neg (by omega)]
  | function guard params body ih =>
    simp only [size] at h
    rw [context, if_neg (by omega)]

theorem context_end (o : Outline) (a : Nat) (around : List Layer) :
    o.context a around (a + o.size) = around :=
  context_of_outside (Or.inr (Nat.le_refl _))

/-- The scopes around are open everywhere. -/
theorem exists_context_eq (o : Outline) (a b : Nat) (around : List Layer) :
    ∃ layers, o.context a around b = layers ++ around := by
  induction o generalizing a around with
  | code words locals => exact ⟨[], rfl⟩
  | seq p q ihp ihq =>
    simp only [context]
    split
    · exact ihp a around
    · exact ihq (a + p.size) around
  | scope body ih =>
    simp only [context]
    split
    · obtain ⟨layers, hlayers⟩ := ih (a + 1) (.scope body.locals :: around)
      exact ⟨layers ++ [.scope body.locals], by simp [hlayers]⟩
    · exact ⟨[], rfl⟩
  | function guard params body ih =>
    simp only [context]
    split
    · obtain ⟨layers, hlayers⟩ := ih (a + guard)
        (.function (a + guard) (params + body.locals) :: around)
      exact ⟨layers ++ [.function (a + guard) (params + body.locals)], by simp [hlayers]⟩
    · exact ⟨[], rfl⟩

/-! ### Definitions -/

/-- A definition lies inside the outline that it is part of. -/
theorem bounds_of_mem_definitions {d : Definition} (h : d ∈ o.definitions a around) :
    a ≤ d.start ∧ d.finish < a + o.size := by
  induction o generalizing a around with
  | code words locals => cases h
  | seq p q ihp ihq =>
    simp only [size]
    rcases List.mem_append.mp h with h | h
    · have := ihp h
      omega
    · have := ihq h
      omega
  | scope body ih =>
    simp only [size]
    have := ih h
    omega
  | function guard params body ih =>
    simp only [size]
    rcases List.mem_cons.mp h with rfl | h
    · simp only [Definition.finish]
      omega
    · have := ih h
      omega

theorem exists_around_eq {d : Definition} (h : d ∈ o.definitions a around) :
    ∃ layers, d.around = layers ++ around := by
  induction o generalizing a around with
  | code words locals => cases h
  | seq p q ihp ihq =>
    rcases List.mem_append.mp h with h | h
    · exact ihp h
    · exact ihq h
  | scope body ih =>
    obtain ⟨layers, hlayers⟩ := ih h
    exact ⟨layers ++ [.scope body.locals], by simp [hlayers]⟩
  | function guard params body ih =>
    rcases List.mem_cons.mp h with rfl | h
    · exact ⟨[], rfl⟩
    · obtain ⟨layers, hlayers⟩ := ih h
      exact ⟨layers ++ [.function (a + guard) (params + body.locals)], by simp [hlayers]⟩

/-- In the code of a function the scopes are open that its body opens. -/
theorem context_of_contains {d : Definition} (h : d ∈ o.definitions a around) (hb : d.Contains b) :
    o.context a around b = d.body.context d.start d.base b := by
  obtain ⟨hstart, hfinish⟩ := hb
  induction o generalizing a around with
  | code words locals => cases h
  | seq p q ihp ihq =>
    rcases List.mem_append.mp h with h | h
    · have hbounds := bounds_of_mem_definitions h
      rw [context, if_pos (by omega), ihp h]
    · have hbounds := bounds_of_mem_definitions h
      rw [context, if_neg (by omega), ihq h]
  | scope body ih =>
    have hbody : d ∈ body.definitions (a + 1) (.scope body.locals :: around) := h
    have hbounds := bounds_of_mem_definitions hbody
    rw [context, if_pos (by omega), ih hbody]
  | function guard params body ih =>
    rcases List.mem_cons.mp h with rfl | h
    · rw [context, if_pos ⟨hstart, hfinish⟩]
      rfl
    · have hbounds := bounds_of_mem_definitions h
      rw [context, if_pos (by omega), ih h]

/-- Where only scopes of blocks and loops are open besides those around, no function is defined. -/
theorem not_contains_of_context {d : Definition} {scopes : List Layer}
    (h : d ∈ o.definitions a around) (hcontext : o.context a around b = scopes ++ around)
    (hscopes : ∀ layer ∈ scopes, layer.isScope = true) : ¬d.Contains b := by
  intro hb
  rw [context_of_contains h hb] at hcontext
  obtain ⟨inside, hinside⟩ := exists_context_eq d.body d.start b d.base
  obtain ⟨between, hbetween⟩ := exists_around_eq h
  rw [hinside, Definition.base, hbetween, ← List.cons_append, ← List.append_assoc] at hcontext
  have hlayers := List.append_cancel_right hcontext
  have hmem : d.layer ∈ scopes := by
    rw [← hlayers]
    exact List.mem_append_right _ (List.mem_cons_self ..)
  cases hscopes d.layer hmem

end Outline

end SceneCode
