import SceneCode.Proofs.Code.Instruction

/-!
# Segments

A segment is a stretch of code in which jumps are still structure: a jump over something, a choice,
a loop.  Its instructions follow from the address where it starts (`Segment.code`), and only there
do jumps have targets.  So whatever holds of the code for one kind of jump is proved once for a
constructor below, however many constructs of the language are written with it.

```text
skip k p:        choice p q:        loop p q:          rounds p k:

  k end            JMPF other       start:             start:
  p                p                  p                  p
end:               JMP end            JMPF end           k start
                 other:               q
                   q                  JMP start
                 end:               end:
```

A call in a segment may lead to a name.  `Segment.settle` gives the calls their addresses that a
frame knows.
-/

namespace SceneCode

/-- A stretch of code. -/
inductive Segment where
  | nothing
  | one (i : Plain)
  | seq (first second : Segment)
  /-- A jump over the body. -/
  | skip (kind : Jump) (body : Segment)
  /-- One of two segments, by the value on the stack. -/
  | choice (body other : Segment)
  /-- Rounds of the body as long as the condition holds before them. -/
  | loop (cond body : Segment)
  /-- Rounds of the body as long as the jump behind it is taken. -/
  | rounds (body : Segment) (back : Jump)
  /-- The body of a function with the return behind it, and if `guarded` a jump over both. -/
  | function (guarded : Bool) (body : Segment)

namespace Segment

/-- Instructions one after the other. -/
def ops : List Plain → Segment
  | [] => .nothing
  | i :: is => .seq (.one i) (ops is)

/-- A segment in a data frame of its own. -/
def scope (body : Segment) : Segment :=
  .seq (.one .enterScope) (.seq body (.one .exitScope))

/-- The number of words of the jump over a function. -/
def guardSize (guarded : Bool) : Nat :=
  if guarded then 2 else 0

/-- The number of words of a segment. -/
def size : Segment → Nat
  | .nothing => 0
  | .one i => i.size
  | .seq p q => p.size + q.size
  | .skip _ body => 2 + body.size
  | .choice body other => 2 + body.size + 2 + other.size
  | .loop cond body => cond.size + 2 + body.size + 2
  | .rounds body _ => body.size + 2
  | .function guarded body => guardSize guarded + body.size + 1

/-- The jump over a function that ends at `target`. -/
def guardCode (guarded : Bool) (target : Address) : List Instruction :=
  if guarded then [.jump .always target] else []

/-- The instructions of a segment that starts at the address `a`. -/
def code (a : Address) : Segment → List Instruction
  | .nothing => []
  | .one i => [.plain i]
  | .seq p q => p.code a ++ q.code (a + p.size)
  | .skip kind body => .jump kind (a + 2 + body.size) :: body.code (a + 2)
  | .choice body other =>
    .jump .ifFalse (a + 2 + body.size + 2) :: (body.code (a + 2) ++
      .jump .always (a + 2 + body.size + 2 + other.size) :: other.code (a + 2 + body.size + 2))
  | .loop cond body =>
    cond.code a ++ .jump .ifFalse (a + cond.size + 2 + body.size + 2) ::
      (body.code (a + cond.size + 2) ++ [.jump .always a])
  | .rounds body back => body.code a ++ [.jump back a]
  | .function guarded body =>
    guardCode guarded (a + guardSize guarded + body.size + 1) ++
      (body.code (a + guardSize guarded) ++ [.plain .ret])

@[simp] theorem sizes_guardCode (guarded : Bool) (target : Address) :
    Instruction.sizes (guardCode guarded target) = guardSize guarded := by
  cases guarded <;> rfl

/-- The size of a segment is the number of words of its instructions, wherever it starts. -/
@[simp] theorem sizes_code (p : Segment) (a : Nat) :
    Instruction.sizes (p.code a) = p.size := by
  induction p generalizing a with
  | nothing => rfl
  | one i => rfl
  | seq p q ihp ihq => simp [code, size, ihp, ihq]
  | skip kind body ih => simp [code, size, ih, Instruction.size]
  | choice body other ihb iho =>
    simp only [code, size, Instruction.sizes_cons, Instruction.sizes_append, ihb, iho,
      Instruction.size]
    omega
  | loop cond body ihc ihb =>
    simp only [code, size, Instruction.sizes_cons, Instruction.sizes_append,
      Instruction.sizes_nil, ihc, ihb, Instruction.size]
    omega
  | rounds body back ih => simp [code, size, ih, Instruction.size]
  | function guarded body ih =>
    simp only [code, size, Instruction.sizes_cons, Instruction.sizes_append,
      Instruction.sizes_nil, sizes_guardCode, ih, Instruction.size, Plain.size]
    omega

/-- The words of a segment that starts at the address `a`. -/
def words (a : Address) (p : Segment) : List Word :=
  Instruction.encode (p.code a)

@[simp] theorem length_words (p : Segment) (a : Nat) : (p.words a).length = p.size := by
  simp [words]

/-! ### Instructions in order -/

/-- The instructions of a segment that are not jumps, in the order of their addresses. -/
def plains : Segment → List Plain
  | .nothing => []
  | .one i => [i]
  | .seq p q => p.plains ++ q.plains
  | .skip _ body => body.plains
  | .choice body other => body.plains ++ other.plains
  | .loop cond body => cond.plains ++ body.plains
  | .rounds body _ => body.plains
  | .function _ body => body.plains ++ [.ret]

@[simp] theorem size_ops_nil : (ops []).size = 0 := rfl

@[simp] theorem size_ops_cons (i : Plain) (is : List Plain) :
    (ops (i :: is)).size = i.size + (ops is).size := rfl

end Segment

/-- The instruction itself, unless it is a jump. -/
def Instruction.plain? : Instruction → Option Plain
  | .plain i => some i
  | .jump _ _ => none

@[simp] theorem Instruction.filterMap_plain?_jump (kind : Jump) (target : Address)
    (is : List Instruction) :
    (Instruction.jump kind target :: is).filterMap plain? = is.filterMap plain? := rfl

@[simp] theorem Instruction.filterMap_plain?_plain (i : Plain) (is : List Instruction) :
    (Instruction.plain i :: is).filterMap plain? = i :: is.filterMap plain? := rfl

theorem Segment.filterMap_plain?_code (p : Segment) (a : Nat) :
    (p.code a).filterMap Instruction.plain? = p.plains := by
  induction p generalizing a with
  | nothing => rfl
  | one i => rfl
  | seq p q ihp ihq => simp [code, plains, ihp, ihq]
  | skip kind body ih => simp [code, plains, ih]
  | choice body other ihb iho => simp [code, plains, ihb, iho]
  | loop cond body ihc ihb => simp [code, plains, ihc, ihb]
  | rounds body back ih => simp [code, plains, ih]
  | function guarded body ih => cases guarded <;> simp [code, plains, ih, guardCode]

/-- Something that rows show of instructions, but not of jumps, is shown in the order of the
    instructions. -/
theorem Segment.filterMap_rows {β : Type} {shown : Row → Option β} {f : Plain → Option β}
    (hplain : ∀ i a, shown ((Instruction.plain i).row a) = f i)
    (hjump : ∀ kind target a, shown ((Instruction.jump kind target).row a) = none)
    (p : Segment) (a : Nat) :
    (Listing.rows a (p.words a)).filterMap shown = p.plains.filterMap f := by
  rw [words, Instruction.rows_words, ← filterMap_plain?_code p a]
  generalize p.code a = is
  induction is generalizing a with
  | nil => rfl
  | cons i is ih =>
    cases i with
    | plain i =>
      rw [Instruction.filterMap_plain?_plain]
      simp only [Instruction.located, List.map_cons, List.filterMap_cons, hplain, ih]
    | jump kind target =>
      rw [Instruction.filterMap_plain?_jump]
      simp only [Instruction.located, List.map_cons, List.filterMap_cons, hjump, ih]

/-! ### Calls of functions that are not known yet -/

/-- The target that a frame gives a call.  A name that the frame does not have stays a name. -/
def Target.settle (frame : Frame) : Target → Target
  | .known a => .known a
  | .pending name =>
    match frame.get? name with
    | some label => .known label.address
    | none => .pending name

def Target.name? : Target → Option String
  | .known _ => none
  | .pending name => some name

namespace Plain

def settle (frame : Frame) : Plain → Plain
  | .call target count => .call (target.settle frame) count
  | i => i

/-- The name of the function that an instruction calls, if it is not known yet. -/
def pending? : Plain → Option String
  | .call target _ => target.name?
  | _ => none

@[simp] theorem size_settle (frame : Frame) (i : Plain) : (i.settle frame).size = i.size := by
  cases i <;> rfl

end Plain

def Instruction.settle (frame : Frame) : Instruction → Instruction
  | .plain i => .plain (i.settle frame)
  | .jump kind target => .jump kind target

@[simp] theorem Instruction.size_settle (frame : Frame) (i : Instruction) :
    (i.settle frame).size = i.size := by
  cases i with
  | plain i => exact Plain.size_settle frame i
  | jump kind target => rfl

namespace Segment

/-- The segment with the targets that a frame gives its calls. -/
def settle (frame : Frame) : Segment → Segment
  | .nothing => .nothing
  | .one i => .one (i.settle frame)
  | .seq p q => .seq (p.settle frame) (q.settle frame)
  | .skip kind body => .skip kind (body.settle frame)
  | .choice body other => .choice (body.settle frame) (other.settle frame)
  | .loop cond body => .loop (cond.settle frame) (body.settle frame)
  | .rounds body back => .rounds (body.settle frame) back
  | .function guarded body => .function guarded (body.settle frame)

@[simp] theorem size_settle (frame : Frame) (p : Segment) : (p.settle frame).size = p.size := by
  induction p <;> simp_all [settle, size]

/-- Settling calls changes no address. -/
theorem code_settle (frame : Frame) (p : Segment) (a : Nat) :
    (p.settle frame).code a = (p.code a).map (Instruction.settle frame) := by
  induction p generalizing a with
  | nothing => rfl
  | one i => rfl
  | seq p q ihp ihq => simp [settle, code, ihp, ihq]
  | skip kind body ih => simp [settle, code, ih, Instruction.settle]
  | choice body other ihb iho => simp [settle, code, ihb, iho, Instruction.settle]
  | loop cond body ihc ihb => simp [settle, code, ihc, ihb, Instruction.settle]
  | rounds body back ih => simp [settle, code, ih, Instruction.settle]
  | function guarded body ih =>
    cases guarded <;> simp [settle, code, ih, guardCode, Instruction.settle, Plain.settle]

theorem plains_settle (frame : Frame) (p : Segment) :
    (p.settle frame).plains = p.plains.map (Plain.settle frame) := by
  induction p with
  | nothing => rfl
  | one i => rfl
  | seq p q ihp ihq => simp [settle, plains, ihp, ihq]
  | skip kind body ih => simp [settle, plains, ih]
  | choice body other ihb iho => simp [settle, plains, ihb, iho]
  | loop cond body ihc ihb => simp [settle, plains, ihc, ihb]
  | rounds body back ih => simp [settle, plains, ih]
  | function guarded body ih => simp [settle, plains, ih, Plain.settle]

/-- The names of the functions that a segment calls and that are not known yet, one for each
    call. -/
def pending (p : Segment) : List String :=
  p.plains.filterMap Plain.pending?

/-- A frame may settle the calls of a segment: none of their names stands for a variable. -/
def SettledBy (frame : Frame) (p : Segment) : Prop :=
  ∀ name ∈ p.pending, ∀ label, frame.get? name = some label → label.kind = .function

/-- Exactly the names that the frame does not have stay pending. -/
theorem mem_pending_settle {frame : Frame} {p : Segment} {name : String} :
    name ∈ (p.settle frame).pending ↔ name ∈ p.pending ∧ frame.get? name = none := by
  have hplain : ∀ i : Plain, (i.settle frame).pending? = some name ↔
      i.pending? = some name ∧ frame.get? name = none := by
    intro i
    cases i with
    | call target count =>
      cases target with
      | known a => simp [Plain.settle, Plain.pending?, Target.settle, Target.name?]
      | pending other =>
        simp only [Plain.settle, Plain.pending?, Target.settle, Target.name?]
        rcases hother : frame.get? other with _ | label
        · simp only [Option.some.injEq]
          constructor
          · rintro rfl
            exact ⟨rfl, hother⟩
          · exact fun h => h.1
        · simp only [Option.some.injEq]
          constructor
          · intro h
            cases h
          · rintro ⟨rfl, hnone⟩
            rw [hother] at hnone
            cases hnone
    | _ => simp [Plain.settle, Plain.pending?]
  simp only [pending, plains_settle, List.filterMap_map, List.mem_filterMap, Function.comp, hplain]
  constructor
  · rintro ⟨i, hi, hname, hnone⟩
    exact ⟨⟨i, hi, hname⟩, hnone⟩
  · rintro ⟨⟨i, hi, hname⟩, hnone⟩
    exact ⟨i, hi, hname, hnone⟩

end Segment

namespace Instruction

/-- The name of the function that an instruction calls, if it is not known yet. -/
def pending? : Instruction → Option String
  | .plain i => i.pending?
  | .jump _ _ => none

/-- The pending calls of instructions that start at the address `a`. -/
def pendingCalls (a : Address) (is : List Instruction) : List PendingCall :=
  (located a is).filterMap fun (p, i) => i.pending?.map fun name => ⟨name, p + 1⟩

@[simp] theorem pendingCalls_append (a : Nat) (is js : List Instruction) :
    pendingCalls a (is ++ js) = pendingCalls a is ++ pendingCalls (a + sizes is) js := by
  simp [pendingCalls]

@[simp] theorem pendingCalls_jump (a : Nat) (kind : Jump) (target : Address)
    (is : List Instruction) :
    pendingCalls a (.jump kind target :: is) = pendingCalls (a + 2) is := rfl

@[simp] theorem pendingCalls_nil (a : Nat) : pendingCalls a [] = [] := rfl

theorem pendingCalls_cons (a : Nat) (i : Instruction) (is : List Instruction) :
    pendingCalls a (i :: is) = pendingCalls a [i] ++ pendingCalls (a + i.size) is :=
  pendingCalls_append a [i] is

theorem pendingCalls_cons_of_none {a : Nat} {i : Instruction} (is : List Instruction)
    (h : i.pending? = none) : pendingCalls a (i :: is) = pendingCalls (a + i.size) is := by
  simp [pendingCalls, located, h]

theorem pendingCalls_cons_of_some {a : Nat} {i : Instruction} {name : String}
    (is : List Instruction) (h : i.pending? = some name) :
    pendingCalls a (i :: is) = ⟨name, a + 1⟩ :: pendingCalls (a + i.size) is := by
  simp [pendingCalls, located, h]

/-- A frame may settle the calls of instructions: none of their names stands for a variable. -/
def SettledBy (frame : Frame) (is : List Instruction) : Prop :=
  ∀ i ∈ is, ∀ name, i.pending? = some name →
    ∀ label, frame.get? name = some label → label.kind = .function

/-- An instruction whose target is known is left alone when a scope is closed. -/
theorem settle_of_pending?_eq_none {i : Instruction} (frame : Frame) (h : i.pending? = none) :
    i.settle frame = i := by
  cases i with
  | jump kind target => rfl
  | plain i =>
    cases i with
    | call target count =>
      cases target with
      | known b => rfl
      | pending name => cases h
    | _ => rfl

/-- Only a call has a target that is not known. -/
theorem eq_call_of_pending?_eq_some {i : Instruction} {name : String} (h : i.pending? = some name) :
    ∃ count, i = .plain (.call (.pending name) count) := by
  cases i with
  | jump kind target => cases h
  | plain i =>
    cases i with
    | call target count =>
      cases target with
      | known b => cases h
      | pending other =>
        cases h
        exact ⟨count, rfl⟩
    | _ => cases h

end Instruction

theorem Segment.settledBy_of_code {frame : Frame} {p : Segment} {a : Nat}
    (h : Instruction.SettledBy frame (p.code a)) : p.SettledBy frame := by
  intro name hname label hlabel
  obtain ⟨i, hi, hpending⟩ := List.mem_filterMap.mp hname
  rw [← filterMap_plain?_code p a] at hi
  obtain ⟨j, hj, hplain⟩ := List.mem_filterMap.mp hi
  cases j with
  | jump kind target => cases hplain
  | plain j =>
    cases hplain
    exact h _ hj name hpending label hlabel

end SceneCode
