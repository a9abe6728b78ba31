import SceneCode.Proofs.Calls

/-!
# Readings tell where calls stand

A reading says where the calls of a tree lead (`Reading.calls`), and with the number of words
between them also where they stand (`Reading.places`).  So a call of a whole program can be compared
with its target: `Tree.Compiles.sites`.
-/

namespace SceneCode

/-- The addresses of the calls, if the reading starts at `a`. -/
def Reading.places : Address → List Mark → List Address
  | _, [] => []
  | a, .calls _ _ :: rest => a :: places (a + 3) rest
  | a, .words count :: rest => places (a + count) rest
  | a, .uses _ :: rest => places (a + 3) rest
  | a, .opens :: rest => places a rest
  | a, .closes :: rest => places a rest
  | a, .declares _ :: rest => places a rest
  | a, .defines _ :: rest => places a rest

namespace Reading

@[simp] theorem places_append (a : Nat) (marks more : List Mark) :
    places a (marks ++ more) = places a marks ++ places (a + width marks) more := by
  induction marks generalizing a with
  | nil => rfl
  | cons m marks ih => cases m <;> simp [places, ih, Mark.width, Nat.add_assoc]

@[simp] theorem places_declares (a : Nat) (params : List Param) :
    places a (params.map fun p => .declares p.name) = [] := by
  induction params with
  | nil => rfl
  | cons p params ih => simp [places, ih]

@[simp] theorem places_finish (u : Usage) (a : Nat) : places a (Mark.finish u) = [] := by
  cases u <;> rfl

@[simp] theorem places_store (u : Usage) (name : String) (a : Nat) :
    places a (Mark.store u name) = [] := by
  cases u <;> rfl

@[simp] theorem places_scope (marks : List Mark) (a : Nat) :
    places a (Mark.scope marks) = places (a + 1) marks := by
  simp [Mark.scope, places]

end Reading

/-! ### Places in segments -/

namespace Segment

/-- The addresses of the calls of a segment that starts at `a`. -/
def places (a : Address) : Segment → List Address
  | .nothing => []
  | .one i => (i.call?.map fun _ => a).toList
  | .seq p q => p.places a ++ q.places (a + p.size)
  | .skip _ body => body.places (a + 2)
  | .choice body other => body.places (a + 2) ++ other.places (a + 2 + body.size + 2)
  | .loop cond body => cond.places a ++ body.places (a + cond.size + 2)
  | .rounds body _ => body.places a
  | .function guarded body => body.places (a + guardSize guarded)

@[simp] theorem places_settle (frame : Frame) (p : Segment) (a : Nat) :
    (p.settle frame).places a = p.places a := by
  induction p generalizing a with
  | one i => cases i <;> rfl
  | _ => simp_all [settle, places]

@[simp] theorem places_finish (u : Usage) (a : Nat) : (finish u).places a = [] := by
  cases u <;> rfl

@[simp] theorem places_store (u : Usage) (depth slot a : Nat) :
    (store u depth slot).places a = [] := by
  cases u <;> rfl

@[simp] theorem places_leave (type : TypeName) (a : Nat) : (leave type).places a = [] := by
  unfold leave
  split <;> rfl

@[simp] theorem places_scope (p : Segment) (a : Nat) : (scope p).places a = p.places (a + 1) := by
  simp [scope, places, Plain.call?, size, Plain.size]

end Segment

open Reading Segment in
/-- The calls stand where the reading says. -/
theorem Emits.places_reading {config : Config} {fn : Option TypeName} {sc sc' : Scopes}
    {a : Address} {t : Tree} {u : Usage} {p : Segment} (h : Emits config fn sc a t u p sc') :
    Reading.places a (t.reading config fn u) = p.places a := by
  induction h with
  | empty | seqNil | retEmpty | declare => rfl
  | seqCons hp _ ihp ihq =>
    simp only [Tree.reading] at ihq
    simp only [Tree.reading, Tree.readingAll, places_append, hp.width_reading, ihp, ihq,
      Segment.places]
  | program _ ih => rw [Tree.reading, ih]
  | block _ _ ih => rw [Tree.reading, Reading.places_scope, ih, Segment.places_scope, places_settle]
  | function _ _ _ _ ih =>
    simp only [Tree.reading, places_append, List.cons_append, List.nil_append, Reading.places,
      places_declares, width_declares, Nat.add_zero, guard_eq, ih, Segment.places, places_settle,
      List.append_nil]
  | ret hempty _ ih => simp [Tree.reading, hempty, ih, Segment.places, Reading.places]
  | forEndless hp hq hr _ ihp ihq ihr =>
    simp [Tree.reading, Tree.isEmpty, hp.width_reading, hq.width_reading, ihp, ihq, ihr, settle,
      Segment.places, Reading.places]
  | forLoop hempty hp hc hq _ _ ihp ihc ihq ihr =>
    simp [Tree.reading, hempty, hp.width_reading, hc.width_reading, hq.width_reading, ihp, ihc,
      ihq, ihr, settle, Segment.places, Reading.places]
  | call hp _ ih =>
    have hwidth := hp.width_reading
    simp only [Tree.reading] at ih hwidth
    simp [Tree.reading, ih, hwidth, Segment.places, Reading.places, Plain.call?]
  | ident | lit | step => simp [Tree.reading, Segment.places, Reading.places, Plain.call?, ops]
  | declareWith _ _ ih | assign _ _ ih | unary _ ih =>
    simp [Tree.reading, ih, Segment.places, Reading.places, Plain.call?]
  | compound _ _ _ ih =>
    simp [Tree.reading, ih, Segment.places, Reading.places, size, Plain.size, Plain.call?]
  | ifThen hp _ ihp ihq | whileLoop hp _ ihp ihq | doLoop hp _ ihp ihq | binary hp _ ihp ihq
  | logical hp _ ihp ihq =>
    simp [Tree.reading, hp.width_reading, ihp, ihq, Segment.places, Reading.places, size,
      Plain.size, Plain.call?, ← Nat.add_assoc]
  | ifElse hp hq _ ihp ihq ihr =>
    simp [Tree.reading, hp.width_reading, hq.width_reading, ihp, ihq, ihr, Segment.places,
      Reading.places]

/-! ### Places in listings -/

namespace Row

/-- The address and the operands of a call. -/
def site? (r : Row) : Option (Address × List Word) :=
  r.callOperands?.map (r.offset, ·)

/-- A call that does not lead forward. -/
def Backward (r : Row) : Prop :=
  ∀ operands, r.callOperands? = some operands →
    ∃ (target : Address) (count : Nat), operands = [.addr target, .int count] ∧ target ≤ r.offset

end Row

theorem Segment.places_rows (p : Segment) (a : Nat) :
    (Listing.rows a (p.words a)).filterMap (fun r => r.site?.map Prod.fst) = p.places a := by
  rw [words, Instruction.rows_words, List.filterMap_map]
  generalize hplace : ((fun r : Row => r.site?.map Prod.fst) ∘ _) = place
  have hplain (i : Plain) (b : Nat) : place (b, .plain i) = i.call?.map fun _ => b := by
    rw [← hplace]
    change ((Instruction.plain i).row b).site?.map Prod.fst = _
    rw [Row.site?, Plain.callOperands?_row]
    cases i.call? <;> rfl
  have hjump (kind : Jump) (target b : Address) : place (b, .jump kind target) = none := by
    rw [← hplace]
    cases kind <;> rfl
  have hret (b : Nat) : place (b, .plain .ret) = none := hplain .ret b
  clear hplace
  induction p generalizing a with
  | nothing => rfl
  | one i =>
    simp only [code, Instruction.located, places, List.filterMap_cons, List.filterMap_nil, hplain]
    cases i.call? <;> rfl
  | seq p q ihp ihq => simp [code, places, ihp, ihq]
  | skip kind body ih => simp [code, places, Instruction.located, hjump, Instruction.size, ih]
  | choice body other ihb iho =>
    simp [code, places, Instruction.located, hjump, Instruction.size, ihb, iho]
  | loop cond body ihc ihb =>
    simp [code, places, Instruction.located, hjump, Instruction.size, ihc, ihb]
  | rounds body back ih => simp [code, places, Instruction.located, hjump, ih]
  | function guarded body ih =>
    cases guarded <;>
      simp [code, places, Instruction.located, guardCode, guardSize, hjump, hret,
        Instruction.size, ih]

/-- The calls of a program with their addresses, as the reading has them. -/
theorem Tree.Compiles.sites {config : Config} {tree : Tree} {p : Segment} {frame : Frame}
    {program : Program} (h : tree.Compiles config p frame program) :
    ∃ targets : List (Address × Nat),
      (Listing.rows 0 program.code).filterMap Row.site? =
        (Reading.places 0 (tree.wholeReading config)).zip
          (targets.map fun (address, count) => [.addr address, .int count]) ∧
      Reading.calls config 0 [[]] (tree.wholeReading config) =
        targets.map fun (address, count) => (some address, count) := by
  obtain ⟨targets, hrows, hcalls⟩ := h.calls
  refine ⟨targets, ?_, hcalls⟩
  have hplaces : (Listing.rows 0 program.code).filterMap (fun r => r.site?.map Prod.fst) =
      Reading.places 0 (tree.wholeReading config) := by
    have hend (a : Nat) : (Segment.ending config.emitHalt).places a = [] := by
      unfold Segment.ending
      split <;> rfl
    rw [h.code, Segment.places_rows, Segment.whole, Segment.places, hend, Segment.places_settle,
      List.append_nil, Tree.wholeReading, h.emits.places_reading]
  have hoperands : (Listing.rows 0 program.code).filterMap (fun r => r.site?.map Prod.snd) =
      targets.map fun (address, count) => [.addr address, .int count] := by
    rw [← hrows]
    congr 1
    funext r
    rw [Row.site?]
    cases r.callOperands? <;> rfl
  rw [← hplaces, ← hoperands, ← List.map_filterMap, ← List.map_filterMap, List.zip_map']
  simp

end SceneCode
