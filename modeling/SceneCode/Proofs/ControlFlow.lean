import SceneCode.Proofs.Lexical.Paths

/-!
# Control flow of whole programs

Control that enters a function at its label stays in the code of that function and out of the
functions that are defined inside of it, and control that starts with the program stays out of all
functions until it comes to the halt (`control_stays_in_functions`).  On every such path the machine
has exactly those scopes open that the tree has around the place, and finds its variables in them
(`scopes_open_on_paths`).
-/

namespace SceneCode

open Instruction

/-! ### Instructions where control ends -/

namespace Instruction

theorem op_not_mem_operands (i : Instruction) (op : Opcode) : .op op ∉ i.operands := by
  cases i with
  | jump kind target => simp [operands]
  | plain i =>
    cases i with
    | push value => cases value <;> simp [operands, Plain.operands, Gen.literalWord]
    | call target count =>
      cases target <;> simp [operands, Plain.operands, Target.word, Code.placeholder]
    | _ => simp [operands, Plain.operands]

/-- Only the first word of an instruction is an operation. -/
theorem opcode_of_op_mem_words {i : Instruction} {op : Opcode} (h : .op op ∈ i.words) :
    i.opcode = op := by
  rcases List.mem_cons.mp h with heq | h
  · cases heq
    rfl
  · exact (op_not_mem_operands i op h).elim

theorem eq_halt_of_opcode {i : Instruction} (h : i.opcode = .halt) : i = .plain .halt := by
  cases i with
  | jump kind target => cases kind <;> cases h
  | plain i =>
    cases i with
    | halt => rfl
    | binary op => cases op <;> cases h
    | unary op => cases op <;> cases h
    | _ => cases h

theorem ends_of_successors_eq_nil {i : Instruction} {a : Nat} (h : (i.row a).successors = []) :
    i = .plain .ret ∨ i = .plain .retValue ∨ i = .plain .halt := by
  cases i with
  | jump kind target => cases kind <;> cases h
  | plain i =>
    cases i with
    | ret => exact Or.inl rfl
    | retValue => exact Or.inr (Or.inl rfl)
    | halt => exact Or.inr (Or.inr rfl)
    | binary op => cases op <;> cases h
    | unary op => cases op <;> cases h
    | _ => cases h

end Instruction

/-- The operands of an instruction that reads or writes a variable. -/
def Row.access? (r : Row) : Option (List Word) :=
  match r.content with
  | .instruction .load operands | .instruction .store operands => some operands
  | _ => none

theorem Instruction.eq_of_access?_eq_some {i : Instruction} {a : Nat} {operands : List Word}
    (h : (i.row a).access? = some operands) :
    ∃ depth slot : Nat, operands = [.int depth, .int slot] ∧
      (i = .plain (.load depth slot) ∨ i = .plain (.store depth slot)) := by
  cases i with
  | jump kind target => cases kind <;> cases h
  | plain i =>
    cases i with
    | load depth slot =>
      cases h
      exact ⟨depth, slot, rfl, Or.inl rfl⟩
    | store depth slot =>
      cases h
      exact ⟨depth, slot, rfl, Or.inr rfl⟩
    | binary op => cases op <;> cases h
    | unary op => cases op <;> cases h
    | _ => cases h

/-! ### Functions -/

/-- Control can go from an address to another one, within the same function. -/
def Program.Reaches (program : Program) (start b : Address) : Prop :=
  ∃ done, program.Leads start done b

namespace Tree.Compiles

variable {config : Config} {tree : Tree} {p : Segment} {frame : Frame} {program : Program}

theorem starts_definitions (h : tree.Compiles config p frame program) :
    (tree.definitions config).map Definition.start =
      Reading.bodies 0 (tree.wholeReading config) := by
  have hstarts := h.covers.map_start_definitions 0 []
  rw [Segment.starts_settle, ← h.emits.bodies_reading] at hstarts
  exact hstarts

theorem return_mem_rows (h : tree.Compiles config p frame program) {d : Definition}
    (hd : d ∈ tree.definitions config) :
    ⟨d.finish, .instruction .ret []⟩ ∈ Listing.rows 0 program.code := by
  obtain ⟨q, hsize, hencloses⟩ := h.encloses_body hd
  have hlast := hencloses.last_mem
  rw [hsize] at hlast
  exact hlast

/-- Control that enters a function stays in its code, and out of those defined inside. -/
theorem contains_of_reaches (h : tree.Compiles config p frame program) {d : Definition} {b : Nat}
    (hd : d ∈ tree.definitions config) (hreaches : program.Reaches d.start b) :
    d.Contains b ∧ (∀ e ∈ d.inner, ¬e.Contains b) ∧
      ∃ r ∈ Listing.rows 0 program.code, r.offset = b := by
  obtain ⟨q, hsize, hencloses⟩ := h.encloses_body hd
  obtain ⟨done, hleads⟩ := hreaches
  obtain ⟨hboundary, scopes, hopen, hscopes, -⟩ := hencloses.leads hleads
  have hcontains : d.Contains b := by
    have hbounds := hboundary.bounds
    rw [Segment.sizes_code, hsize] at hbounds
    exact hbounds
  refine ⟨hcontains, ?_, hencloses.exists_row hboundary⟩
  intro e he
  have hcontext : d.body.context d.start d.base b = scopes ++ d.base :=
    (Outline.context_of_contains hd hcontains).symm.trans hopen
  exact Outline.not_contains_of_context he hcontext hscopes

/-! ### Programs that halt -/

/-- Control that starts with the program stays out of all functions. -/
theorem not_contains_of_reaches (h : tree.Compiles config p frame program)
    (hhalt : config.emitHalt = true) {b : Nat} (hreaches : program.Reaches 0 b) {d : Definition}
    (hd : d ∈ tree.definitions config) : ¬d.Contains b := by
  obtain ⟨done, hleads⟩ := hreaches
  obtain ⟨-, scopes, hopen, hscopes, -⟩ := (h.encloses_whole hhalt).leads hleads
  exact Outline.not_contains_of_context hd hopen hscopes

theorem code_eq_of_emitHalt (h : tree.Compiles config p frame program)
    (hhalt : config.emitHalt = true) :
    program.code = (p.settle frame).words 0 ++ [.op .halt] := by
  rw [h.code, hhalt, Segment.words, Segment.whole, Segment.code, encode_append]
  rfl

theorem halt_not_mem_words (h : tree.Compiles config p frame program) :
    .op .halt ∉ (p.settle frame).words 0 := by
  intro hmem
  obtain ⟨i, hi, hword⟩ := List.mem_flatMap.mp hmem
  rw [eq_halt_of_opcode (opcode_of_op_mem_words hword)] at hi
  apply h.covers.halt_not_mem_plains
  rw [← Segment.filterMap_plain?_code _ 0]
  exact List.mem_filterMap.mpr ⟨_, hi, rfl⟩

theorem count_halt (h : tree.Compiles config p frame program) (hhalt : config.emitHalt = true) :
    program.code.count (.op .halt) = 1 := by
  rw [h.code_eq_of_emitHalt hhalt, List.count_append, List.count_singleton_self,
    List.count_eq_zero.mpr h.halt_not_mem_words]

theorem getLast?_code (h : tree.Compiles config p frame program)
    (hhalt : config.emitHalt = true) : program.code.getLast? = some (.op .halt) := by
  rw [h.code_eq_of_emitHalt hhalt, List.getLast?_concat]

/-- Control that starts with the program ends at the halt and nowhere else. -/
theorem exists_row_of_reaches (h : tree.Compiles config p frame program)
    (hhalt : config.emitHalt = true) {b : Nat} (hreaches : program.Reaches 0 b) :
    ∃ r ∈ Listing.rows 0 program.code, r.offset = b ∧
      (r.successors = [] ↔ b + 1 = program.code.length) := by
  have hencloses := h.encloses_whole hhalt
  obtain ⟨done, hleads⟩ := hreaches
  obtain ⟨hboundary, scopes, hopen, hscopes, -⟩ := hencloses.leads hleads
  obtain ⟨r, hr, rfl⟩ := hencloses.exists_row hboundary
  have hlength : program.code.length = (p.settle frame).size + 1 := by
    rw [h.code_eq_of_emitHalt hhalt, List.length_append, Segment.length_words]
    rfl
  refine ⟨r, hr, rfl, ?_, ?_⟩
  · intro hnone
    rcases hencloses.row_cases hr hboundary with ⟨i, hi, hrow⟩ | hrow
    · -- a return would be inside of a function, where control has not come
      have hfits := hencloses.fits hi
      have hreturn : ¬Layer.InFunction (tree.context config r.offset) := by
        rintro ⟨layer, hlayer, hfunction⟩
        rw [hopen, List.append_nil] at hlayer
        rw [hscopes layer hlayer] at hfunction
        cases hfunction
      rw [hrow] at hnone
      rcases ends_of_successors_eq_nil hnone with rfl | rfl | rfl
      · exact (hreturn hfits).elim
      · exact (hreturn hfits).elim
      · exact hfits.elim
    · rw [hrow, hlength]
      exact congrArg (· + 1) (Nat.zero_add _)
  · intro hend
    have hoffset : r.offset = 0 + (p.settle frame).size := by
      rw [Nat.zero_add]
      exact Nat.succ.inj (hend.trans hlength)
    rw [Listing.eq_of_offset_eq hr hencloses.last_mem hoffset]
    rfl

end Tree.Compiles

/-- **Control never falls into a function.**  It leaves the code of a function only by a return, and
    a program that halts does so at its last word. -/
theorem control_stays_in_functions {config : Config} {tree : Tree} {program : Program}
    (h : tree.compile config = .ok program) :
    (tree.definitions config).map Definition.start = Reading.bodies 0 (tree.wholeReading config) ∧
      (∀ d ∈ tree.definitions config,
        ⟨d.finish, .instruction .ret []⟩ ∈ Listing.rows 0 program.code ∧
          ∀ b, program.Reaches d.start b → d.Contains b ∧ (∀ e ∈ d.inner, ¬e.Contains b) ∧
            ∃ r ∈ Listing.rows 0 program.code, r.offset = b) ∧
      (config.emitHalt = true →
        program.code.count (.op .halt) = 1 ∧ program.code.getLast? = some (.op .halt) ∧
          ∀ b, program.Reaches 0 b → (∀ d ∈ tree.definitions config, ¬d.Contains b) ∧
            ∃ r ∈ Listing.rows 0 program.code, r.offset = b ∧
              (r.successors = [] ↔ b + 1 = program.code.length)) := by
  obtain ⟨p, frame, hcompiles⟩ := Tree.compiles_of_compile h
  refine ⟨hcompiles.starts_definitions, ?_, ?_⟩
  · intro d hd
    exact ⟨hcompiles.return_mem_rows hd, fun b hb => hcompiles.contains_of_reaches hd hb⟩
  · intro hhalt
    refine ⟨hcompiles.count_halt hhalt, hcompiles.getLast?_code hhalt, ?_⟩
    intro b hb
    exact ⟨fun d hd => hcompiles.not_contains_of_reaches hhalt hb hd,
      hcompiles.exists_row_of_reaches hhalt hb⟩

/-- A function inside of another one, with a block around each. -/
def Tree.nesting : Tree :=
  .program (.seq [
    .declare ⟨"int"⟩ "x",
    .block (.function "outer" [⟨⟨"int"⟩, "n"⟩] .void
      (.block (.function "inner" [] .void (.assign "x" (.ident "n")))))])

/-- The program of `Tree.nesting`.  The outer function starts at 3 and the inner one at 6. -/
def Program.nesting : Program where
  code := [.op .enterScope, .op .jump, .addr 15,
    .op .enterScope, .op .jump, .addr 13,
    .op .load, .int 2, .int 0, .op .store, .int 4, .int 0, .op .ret,
    .op .exitScope, .op .ret,
    .op .exitScope, .op .halt]
  init := none
  render := none

theorem control_nesting :
    Tree.nesting.compile ⟨true, true⟩ = .ok .nesting ∧
      (∀ b, Program.nesting.Reaches 3 b → (3 ≤ b ∧ b ≤ 14) ∧ ¬(6 ≤ b ∧ b ≤ 12)) ∧
      ∀ b, Program.nesting.Reaches 0 b → ¬(3 ≤ b ∧ b ≤ 14) := by
  have hcompile : Tree.nesting.compile ⟨true, true⟩ = .ok .nesting := rfl
  obtain ⟨-, hfunctions, hwhole⟩ := control_stays_in_functions hcompile
  obtain ⟨d, hd, hbounds, e, he, hinner⟩ : ∃ d ∈ Tree.nesting.definitions ⟨true, true⟩,
      (d.start, d.finish) = (3, 14) ∧ ∃ e ∈ d.inner, (e.start, e.finish) = (6, 12) :=
    ⟨_, List.mem_cons_self .., rfl, _, List.mem_cons_self .., rfl⟩
  obtain ⟨hstart, hfinish⟩ := Prod.mk.inj hbounds
  obtain ⟨hfirst, hlast⟩ := Prod.mk.inj hinner
  refine ⟨hcompile, ?_, ?_⟩
  · intro b hb
    rw [← hstart] at hb
    obtain ⟨hcontains, houtside, -⟩ := (hfunctions d hd).2 b hb
    have hother := houtside e he
    rw [Definition.Contains, hstart, hfinish] at hcontains
    rw [Definition.Contains, hfirst, hlast] at hother
    exact ⟨hcontains, hother⟩
  · intro b hb
    have hother := ((hwhole rfl).2.2 b hb).1 d hd
    rwa [Definition.Contains, hstart, hfinish] at hother

/-! ### Scopes -/

namespace Program.Encloses

variable {program : Program} {c : Nat → List Layer} {root start : Nat} {base : List Layer}
  {q : Segment} {last : Plain} {r : Row}

/-- Where a program halts only the scopes `base` are open. -/
theorem context_of_halt (h : program.Encloses c root start base q last)
    (hr : r ∈ Listing.rows 0 program.code) (hboundary : Boundary start (q.code start) r.offset)
    (hhalt : r.opcode? = some .halt) : c r.offset = base := by
  rcases h.row_cases hr hboundary with ⟨i, hi, hrow⟩ | hrow
  · rw [hrow] at hhalt
    have hplain : i = .plain .halt := eq_halt_of_opcode (Option.some.inj hhalt)
    rw [hplain] at hi
    exact (h.fits hi).elim
  · rw [hrow]
    exact h.closes

/-- A variable is in one of the open scopes. -/
theorem slot_lt_of_access? (h : program.Encloses c root start base q last)
    (hr : r ∈ Listing.rows 0 program.code) (hboundary : Boundary start (q.code start) r.offset)
    {operands : List Word} (haccess : r.access? = some operands) :
    ∃ depth slot count : Nat, operands = [.int depth, .int slot] ∧
      depth ≤ (c r.offset).length ∧ (Layer.counts root (c r.offset))[depth]? = some count ∧
      slot < count := by
  rcases h.row_cases hr hboundary with ⟨i, hi, hrow⟩ | hrow
  · rw [hrow] at haccess
    obtain ⟨depth, slot, rfl, hplain⟩ := eq_of_access?_eq_some haccess
    have hvariable : ∃ count, (Layer.counts root (c r.offset))[depth]? = some count ∧
        slot < count := by
      rcases hplain with rfl | rfl
      · exact (h.fits hi).2
      · exact (h.fits hi).2
    obtain ⟨count, hcount, hlt⟩ := hvariable
    have hdepth := (List.getElem?_eq_some_iff.mp hcount).1
    rw [Layer.counts, List.length_append, List.length_map, List.length_singleton] at hdepth
    exact ⟨depth, slot, count, rfl, Nat.le_of_lt_succ hdepth, hcount, hlt⟩
  · rw [hrow] at haccess
    rcases h.ends with rfl | rfl <;> cases haccess

end Program.Encloses

/-- **The machine has the scopes of the tree open**, on every path from where control enters, and
    variables are found in them. -/
theorem scopes_open_on_paths {config : Config} {tree : Tree} {program : Program}
    (h : tree.compile config = .ok program) {start : Nat} {base : List Layer}
    (hentry : tree.Entry config start base) {done : List Row} {b : Nat}
    (hleads : program.Leads start done b) :
    ∃ scopes, tree.context config b = scopes ++ base ∧
      (∀ layer ∈ scopes, layer.isScope = true) ∧
      Row.runs .enterScope done = Row.runs .exitScope done + scopes.length ∧
      ∀ r ∈ Listing.rows 0 program.code, r.offset = b →
        (r.opcode? = some .halt → scopes = []) ∧
          ∀ operands, r.access? = some operands →
            ∃ depth slot count : Nat, operands = [.int depth, .int slot] ∧
              depth ≤ (tree.context config b).length ∧
              (Layer.counts (tree.wholeOutline config).locals (tree.context config b))[depth]? =
                some count ∧
              slot < count := by
  obtain ⟨p, frame, hcompiles⟩ := Tree.compiles_of_compile h
  obtain ⟨q, last, hencloses⟩ := hcompiles.encloses hentry
  obtain ⟨hboundary, scopes, hopen, hscopes, hcount⟩ := hencloses.leads hleads
  refine ⟨scopes, hopen, hscopes, hcount, ?_⟩
  rintro r hr rfl
  constructor
  · intro hhalt
    rw [hencloses.context_of_halt hr hboundary hhalt] at hopen
    exact List.append_left_eq_self.mp hopen.symm
  · exact fun operands haccess => hencloses.slot_lt_of_access? hr hboundary haccess

theorem scopes_nesting :
    Tree.nesting.compile ⟨true, true⟩ = .ok .nesting ∧
      Program.nesting.Leads 3 [⟨3, .instruction .enterScope []⟩, ⟨4, .instruction .jump [.addr 13]⟩]
        13 ∧
      (∃ scopes, Tree.nesting.context ⟨true, true⟩ 13 = scopes ++ [.function 3 1, .scope 0] ∧
        scopes.length = 1) ∧
      Program.nesting.Leads 6 [⟨6, .instruction .load [.int 2, .int 0]⟩] 9 ∧
      ∃ depth slot count : Nat, [Word.int 4, .int 0] = [.int depth, .int slot] ∧
        [0, 0, 1, 0, 1][depth]? = some count ∧ slot < count := by
  have hcompile : Tree.nesting.compile ⟨true, true⟩ = .ok .nesting := rfl
  have houter : Tree.nesting.Entry ⟨true, true⟩ 3 [.function 3 1, .scope 0] :=
    @Tree.Entry.function ⟨true, true⟩ .nesting _ (List.mem_cons_self ..)
  have hinner : Tree.nesting.Entry ⟨true, true⟩ 6
      [.function 6 0, .scope 0, .function 3 1, .scope 0] :=
    @Tree.Entry.function ⟨true, true⟩ .nesting _ (List.mem_cons_of_mem _ (List.mem_cons_self ..))
  have hfirst : Program.nesting.Leads 3 [⟨3, .instruction .enterScope []⟩] 4 :=
    @Program.Leads.step _ _ [] _ 4 .start (by decide +kernel) (by decide)
  have hjump : Program.nesting.Leads 3
      [⟨3, .instruction .enterScope []⟩, ⟨4, .instruction .jump [.addr 13]⟩] 13 :=
    @Program.Leads.step _ _ [_] _ 13 hfirst (by decide +kernel) (by decide)
  have hload : Program.nesting.Leads 6 [⟨6, .instruction .load [.int 2, .int 0]⟩] 9 :=
    @Program.Leads.step _ _ [] _ 9 .start (by decide +kernel) (by decide)
  have hstore : ⟨9, .instruction .store [.int 4, .int 0]⟩ ∈
      Listing.rows 0 Program.nesting.code := by decide +kernel
  obtain ⟨scopes, hscopes, -, hcount, -⟩ := scopes_open_on_paths hcompile houter hjump
  obtain ⟨_, -, -, -, hrows⟩ := scopes_open_on_paths hcompile hinner hload
  obtain ⟨depth, slot, count, hoperands, -, hvariable⟩ := (hrows _ hstore rfl).2 _ rfl
  have hone : 1 = 0 + scopes.length := hcount
  exact ⟨hcompile, hjump, ⟨scopes, hscopes, by omega⟩, hload, depth, slot, count, hoperands,
    hvariable⟩

end SceneCode
