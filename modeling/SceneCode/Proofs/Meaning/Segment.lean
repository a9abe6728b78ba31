import SceneCode.Proofs.Code.Segment
import SceneCode.Proofs.Meaning.Evaluation

/-!
# Runs of segments

What a segment does to the values follows its structure, as the rules for code in general do.
`Segment.Runs` says it without addresses, and the machine agrees with it wherever the segment stands:
a run leads from the start of the segment to its end (`Segment.Stands.reaches`), and whenever the
machine starts at the start and gets as far as the end or beyond, it has made such a run on the way
(`Segment.Stands.exists_runs`).
-/

namespace SceneCode

variable {V : Type} {M : Meaning V}

/-! ### Steps -/

/-- Whether a jump is taken, and the values behind it. -/
def Jump.test (M : Meaning V) : Jump → Memory V → Option (Bool × Memory V)
  | .always, m => some (true, m)
  | .ifFalse, m => m.pop?.map fun (v, rest) => (!M.truthy v, rest)
  | .ifTrue, m => m.pop?.map fun (v, rest) => (M.truthy v, rest)

namespace Plain

/-- What an instruction does to the values.  Calls, returns and the halt are never done with. -/
def act (M : Meaning V) (i : Plain) (m : Memory V) : Option (Memory V) :=
  M.perform? i.opcode i.operands m

@[simp] theorem act_settle (frame : Frame) (i : Plain) : (i.settle frame).act M = i.act M := by
  cases i with
  | call target count =>
    funext m
    cases target.settle frame <;> cases target <;> rfl
  | _ => rfl

end Plain

namespace Instruction

/-- The instructions are the rows of some code from the address `a` on. -/
def Stand (code : List Word) (a : Address) (is : List Instruction) : Prop :=
  ∀ b i, (b, i) ∈ located a is → Listing.rowAt? code b = some (i.row b).content

@[simp] theorem stand_nil {code : List Word} {a : Address} : Stand code a [] := by
  intro b i hi
  cases hi

theorem stand_append {code : List Word} {a : Nat} {is js : List Instruction} :
    Stand code a (is ++ js) ↔ Stand code a is ∧ Stand code (a + sizes is) js := by
  simp only [Stand, located_append, List.mem_append]
  constructor
  · intro h
    exact ⟨fun b i hi => h b i (Or.inl hi), fun b i hi => h b i (Or.inr hi)⟩
  · rintro ⟨his, hjs⟩ b i (hi | hi)
    · exact his b i hi
    · exact hjs b i hi

theorem stand_cons {code : List Word} {a : Nat} {i : Instruction} {is : List Instruction} :
    Stand code a (i :: is) ↔
      Listing.rowAt? code a = some (i.row a).content ∧ Stand code (a + i.size) is := by
  rw [← List.singleton_append, stand_append, sizes_cons, sizes_nil, Nat.add_zero]
  simp [Stand, located]

/-- Encoded instructions stand where they have been put. -/
theorem stand_encode (before : List Word) (is : List Instruction) (behind : List Word) :
    Stand (before ++ encode is ++ behind) before.length is := by
  induction is generalizing before with
  | nil => exact stand_nil
  | cons i is ih =>
    have hih := ih (before ++ i.words)
    rw [encode_cons]
    refine stand_cons.mpr ⟨?_, by simpa using hih⟩
    have htake : (i.operands ++ (encode is ++ behind)).take i.opcode.operandCount = i.operands := by
      rw [← length_operands, List.take_left]
    simp [Listing.rowAt?, words, Row.Content.start, row, htake]

end Instruction

namespace Meaning

theorem step?_plain {code : List Word} {a : Nat} {i : Plain} (m : Memory V)
    (h : Listing.rowAt? code a = some ((Instruction.plain i).row a).content) :
    M.step? code ⟨a, m⟩ = (i.act M m).map fun r => ⟨a + i.size, r⟩ := by
  simp only [step?, h, Instruction.row, Instruction.opcode, Instruction.operands, Plain.act]
  cases i with
  | push value => cases value <;> rfl
  | call target count => cases target <;> rfl
  | _ => rfl

theorem step?_jump {code : List Word} {a : Nat} {kind : Jump} {target : Address} (m : Memory V)
    (h : Listing.rowAt? code a = some ((Instruction.jump kind target).row a).content) :
    M.step? code ⟨a, m⟩ =
      (kind.test M m).map fun (taken, r) => ⟨if taken then target else a + 2, r⟩ := by
  simp only [step?, h, Instruction.row, Instruction.opcode, Instruction.operands]
  cases kind with
  | always => rfl
  | ifFalse =>
    rcases hpop : m.pop? with _ | ⟨v, r⟩
    · simp [Jump.opcode, leap?, Jump.test, hpop]
    · cases htruthy : M.truthy v <;> simp [Jump.opcode, leap?, Jump.test, hpop, htruthy]
  | ifTrue =>
    rcases hpop : m.pop? with _ | ⟨v, r⟩
    · simp [Jump.opcode, leap?, Jump.test, hpop]
    · simp [Jump.opcode, leap?, Jump.test, hpop]

/-! ### Ways -/

theorem Reaches.refl {code : List Word} (s : State V) : M.Reaches code s s :=
  ⟨0, rfl⟩

theorem Reaches.step {code : List Word} {s r t : State V} (hstep : M.step? code s = some r)
    (h : M.Reaches code r t) : M.Reaches code s t := by
  obtain ⟨n, hn⟩ := h
  exact ⟨n + 1, by rw [after, hstep, Option.bind_some, hn]⟩

theorem Reaches.trans {code : List Word} {s r t : State V} (hr : M.Reaches code s r)
    (ht : M.Reaches code r t) : M.Reaches code s t := by
  obtain ⟨n, hn⟩ := hr
  induction n generalizing s with
  | zero =>
    cases hn
    exact ht
  | succ n ih =>
    obtain ⟨q, hq, hrest⟩ := Option.bind_eq_some_iff.mp hn
    exact .step hq (ih hrest)

/-- A machine that ends elsewhere makes a step. -/
theorem exists_step_of_after {code : List Word} {n : Nat} {s t : State V}
    (h : M.after code n s = some t) (hne : s.pc ≠ t.pc) :
    ∃ k r, n = k + 1 ∧ M.step? code s = some r ∧ M.after code k r = some t := by
  cases n with
  | zero =>
    cases h
    exact absurd rfl hne
  | succ k =>
    obtain ⟨r, hr, hrest⟩ := Option.bind_eq_some_iff.mp h
    exact ⟨k, r, rfl, hr, hrest⟩

end Meaning

/-! ### Runs -/

namespace Segment

/-- What a segment does to the values, if it comes to its end.  A function that is not jumped over
    never does. -/
def Runs (M : Meaning V) : Segment → Memory V → Memory V → Prop
  | .nothing, m, r => r = m
  | .one i, m, r => i.act M m = some r
  | .seq p q, m, r => ∃ mid, p.Runs M m mid ∧ q.Runs M mid r
  | .skip kind body, m, r =>
    ∃ taken mid, kind.test M m = some (taken, mid) ∧ if taken then r = mid else body.Runs M mid r
  | .choice body other, m, r =>
    ∃ taken mid, Jump.ifFalse.test M m = some (taken, mid) ∧
      if taken then other.Runs M mid r else body.Runs M mid r
  | .loop cond body, m, r =>
    Cycle (fun s go t => ∃ mid mid', cond.Runs M s mid ∧
      Jump.ifFalse.test M mid = some (!go, mid') ∧
      if go then body.Runs M mid' t else t = mid') m r
  | .rounds body back, m, r =>
    Cycle (fun s go t => ∃ mid, body.Runs M s mid ∧ back.test M mid = some (go, t)) m r
  | .function guarded _, m, r => guarded = true ∧ r = m

/-- Calls have no runs, whatever they lead to. -/
@[simp] theorem runs_settle (frame : Frame) (p : Segment) : (p.settle frame).Runs M = p.Runs M := by
  induction p with
  | nothing => rfl
  | one i =>
    funext m r
    simp [settle, Runs]
  | seq p q ihp ihq =>
    funext m r
    simp only [settle, Runs, ihp, ihq]
  | skip kind body ih =>
    funext m r
    simp only [settle, Runs, ih]
  | choice body other ihb iho =>
    funext m r
    simp only [settle, Runs, ihb, iho]
  | loop cond body ihc ihb =>
    funext m r
    simp only [settle, Runs, ihc, ihb]
  | rounds body back ih =>
    funext m r
    simp only [settle, Runs, ih]
  | function guarded body ih => rfl

/-- The segment stands in some code at the address `a`. -/
def Stands (code : List Word) (a : Address) (p : Segment) : Prop :=
  Instruction.Stand code a (p.code a)

section

variable {code : List Word} {a : Nat}

theorem stands_seq {p q : Segment} :
    (seq p q).Stands code a ↔ p.Stands code a ∧ q.Stands code (a + p.size) := by
  simp only [Stands, Segment.code, Instruction.stand_append, sizes_code]

/-- A jump stands at the address `a`. -/
def JumpsAt (code : List Word) (a : Address) (kind : Jump) (target : Address) : Prop :=
  Listing.rowAt? code a = some ((Instruction.jump kind target).row a).content

theorem stands_skip {kind : Jump} {body : Segment} :
    (skip kind body).Stands code a ↔
      JumpsAt code a kind (a + 2 + body.size) ∧ body.Stands code (a + 2) := by
  simp only [Stands, Segment.code, Instruction.stand_cons, Instruction.size, JumpsAt]

theorem stands_choice {body other : Segment} :
    (choice body other).Stands code a ↔
      JumpsAt code a .ifFalse (a + 2 + body.size + 2) ∧ body.Stands code (a + 2) ∧
        JumpsAt code (a + 2 + body.size) .always (a + 2 + body.size + 2 + other.size) ∧
        other.Stands code (a + 2 + body.size + 2) := by
  simp only [Stands, Segment.code, Instruction.stand_cons, Instruction.stand_append, sizes_code,
    Instruction.size, JumpsAt]

theorem stands_loop {cond body : Segment} :
    (loop cond body).Stands code a ↔
      cond.Stands code a ∧ JumpsAt code (a + cond.size) .ifFalse (a + cond.size + 2 + body.size + 2) ∧
        body.Stands code (a + cond.size + 2) ∧
        JumpsAt code (a + cond.size + 2 + body.size) .always a := by
  simp only [Stands, Segment.code, Instruction.stand_cons, Instruction.stand_append, sizes_code,
    Instruction.size, JumpsAt, Instruction.stand_nil, and_true]

theorem stands_rounds {body : Segment} {back : Jump} :
    (rounds body back).Stands code a ↔
      body.Stands code a ∧ JumpsAt code (a + body.size) back a := by
  simp only [Stands, Segment.code, Instruction.stand_cons, Instruction.stand_append, sizes_code,
    JumpsAt, Instruction.stand_nil, and_true]

theorem stands_function {guarded : Bool} {body : Segment} :
    (function guarded body).Stands code a ↔
      (guarded = true → JumpsAt code a .always (a + guardSize guarded + body.size + 1)) ∧
        body.Stands code (a + guardSize guarded) ∧
        Listing.rowAt? code (a + guardSize guarded + body.size) =
          some ((Instruction.plain .ret).row (a + guardSize guarded + body.size)).content := by
  simp only [Stands, Segment.code, Instruction.stand_cons, Instruction.stand_append, sizes_code,
    sizes_guardCode, Instruction.stand_nil, and_true]
  cases guarded with
  | true => simp [guardCode, Instruction.stand_cons, JumpsAt]
  | false => simp [guardCode]

theorem JumpsAt.step {kind : Jump} {target : Address} {m r : Memory V} {taken : Bool}
    (h : JumpsAt code a kind target) (htest : kind.test M m = some (taken, r)) :
    M.step? code ⟨a, m⟩ = some ⟨if taken then target else a + 2, r⟩ := by
  rw [Meaning.step?_jump m h, htest, Option.map_some]

/-- **A run leads to the end of the segment.** -/
theorem Stands.reaches {p : Segment} {m r : Memory V} (h : p.Stands code a) (hr : p.Runs M m r) :
    M.Reaches code ⟨a, m⟩ ⟨a + p.size, r⟩ := by
  induction p generalizing a m r with
  | nothing =>
    cases hr
    exact .refl _
  | one i =>
    have hrow := (Instruction.stand_cons.mp h).1
    refine .step ?_ (.refl _)
    rw [Meaning.step?_plain m hrow, hr, Option.map_some]
    rfl
  | seq p q ihp ihq =>
    obtain ⟨hp, hq⟩ := stands_seq.mp h
    obtain ⟨mid, hmid, hend⟩ := hr
    rw [size, ← Nat.add_assoc]
    exact (ihp hp hmid).trans (ihq hq hend)
  | skip kind body ih =>
    obtain ⟨hjump, hbody⟩ := stands_skip.mp h
    obtain ⟨taken, mid, htest, hr⟩ := hr
    refine .step (hjump.step htest) ?_
    rw [size, ← Nat.add_assoc]
    cases taken with
    | true =>
      cases hr
      exact .refl _
    | false => exact ih hbody hr
  | choice body other ihb iho =>
    obtain ⟨htest, hbody, hskip, hother⟩ := stands_choice.mp h
    obtain ⟨taken, mid, hmid, hr⟩ := hr
    refine .step (htest.step hmid) ?_
    have hend : a + (choice body other).size = a + 2 + body.size + 2 + other.size := by
      simp only [size]
      omega
    rw [hend]
    cases taken with
    | true => exact iho hother hr
    | false => exact (ihb hbody hr).trans (.step (hskip.step rfl) (.refl _))
  | loop cond body ihc ihb =>
    obtain ⟨hcond, htest, hbody, hback⟩ := stands_loop.mp h
    have hend : a + (loop cond body).size = a + cond.size + 2 + body.size + 2 := by
      simp only [size]
      omega
    rw [hend]
    simp only [Runs] at hr
    induction hr with
    | exit hround =>
      obtain ⟨mid, mid', hmid, hexit, rfl⟩ := hround
      exact (ihc hcond hmid).trans (.step (htest.step hexit) (.refl _))
    | again hround _ ih =>
      obtain ⟨mid, mid', hmid, hgo, hround⟩ := hround
      refine (ihc hcond hmid).trans (.step (htest.step hgo) ?_)
      exact (ihb hbody hround).trans (.step (hback.step rfl) ih)
  | rounds body back ihb =>
    obtain ⟨hbody, hback⟩ := stands_rounds.mp h
    rw [size, ← Nat.add_assoc]
    simp only [Runs] at hr
    induction hr with
    | exit hround =>
      obtain ⟨mid, hmid, hexit⟩ := hround
      exact (ihb hbody hmid).trans (.step (hback.step hexit) (.refl _))
    | again hround _ ih =>
      obtain ⟨mid, hmid, hgo⟩ := hround
      exact (ihb hbody hmid).trans (.step (hback.step hgo) ih)
  | function guarded body ih =>
    obtain ⟨rfl, rfl⟩ := hr
    have hjump := (stands_function.mp h).1 rfl
    rw [size, ← Nat.add_assoc, ← Nat.add_assoc]
    exact .step (hjump.step rfl) (.refl _)

/-- A machine that gets beyond a jump has made the step there. -/
theorem JumpsAt.exists_test {kind : Jump} {target : Address} {n e : Nat} {m final : Memory V}
    (h : JumpsAt code a kind target) (hn : M.after code n ⟨a, m⟩ = some ⟨e, final⟩) (hlt : a < e) :
    ∃ k taken r, n = k + 1 ∧ kind.test M m = some (taken, r) ∧
      M.after code k ⟨if taken then target else a + 2, r⟩ = some ⟨e, final⟩ := by
  obtain ⟨k, s, hk, hstep, hrest⟩ := Meaning.exists_step_of_after hn (Nat.ne_of_lt hlt)
  rw [Meaning.step?_jump m h, Option.map_eq_some_iff] at hstep
  obtain ⟨⟨taken, r⟩, htest, rfl⟩ := hstep
  exact ⟨k, taken, r, hk, htest, hrest⟩

/-- **Who gets to the end of the segment has run it.**  The rest of the way is not longer than the
    whole. -/
theorem Stands.exists_runs {p : Segment} {n e : Nat} {m final : Memory V} (h : p.Stands code a)
    (hn : M.after code n ⟨a, m⟩ = some ⟨e, final⟩) (hend : a + p.size ≤ e) :
    ∃ k r, k ≤ n ∧ p.Runs M m r ∧ M.after code k ⟨a + p.size, r⟩ = some ⟨e, final⟩ := by
  induction p generalizing a m n with
  | nothing => exact ⟨n, m, Nat.le_refl n, rfl, hn⟩
  | one i =>
    have hrow := (Instruction.stand_cons.mp h).1
    have hpos : 0 < i.size := (Instruction.plain i).size_pos
    have hlt : a < e := Nat.lt_of_lt_of_le (Nat.lt_add_of_pos_right hpos) hend
    obtain ⟨k, s, rfl, hstep, hrest⟩ := Meaning.exists_step_of_after hn (Nat.ne_of_lt hlt)
    rw [Meaning.step?_plain m hrow, Option.map_eq_some_iff] at hstep
    obtain ⟨r, hact, rfl⟩ := hstep
    exact ⟨k, r, Nat.le_succ k, hact, hrest⟩
  | seq p q ihp ihq =>
    obtain ⟨hp, hq⟩ := stands_seq.mp h
    simp only [size] at hend
    obtain ⟨k, mid, hk, hmid, hrest⟩ := ihp hp hn (by omega)
    obtain ⟨l, r, hl, hr, hlast⟩ := ihq hq hrest (by omega)
    rw [size, ← Nat.add_assoc]
    exact ⟨l, r, Nat.le_trans hl hk, ⟨mid, hmid, hr⟩, hlast⟩
  | skip kind body ih =>
    obtain ⟨hjump, hbody⟩ := stands_skip.mp h
    simp only [size] at hend
    obtain ⟨k, taken, mid, rfl, htest, hrest⟩ := hjump.exists_test hn (by omega)
    rw [size, ← Nat.add_assoc]
    cases taken with
    | true => exact ⟨k, mid, Nat.le_succ k, ⟨true, mid, htest, rfl⟩, hrest⟩
    | false =>
      obtain ⟨l, r, hl, hr, hlast⟩ := ih hbody hrest (by omega)
      exact ⟨l, r, Nat.le_succ_of_le hl, ⟨false, mid, htest, hr⟩, hlast⟩
  | choice body other ihb iho =>
    obtain ⟨htest, hbody, hskip, hother⟩ := stands_choice.mp h
    have hsize : a + (choice body other).size = a + 2 + body.size + 2 + other.size := by
      simp only [size]
      omega
    rw [hsize] at hend ⊢
    obtain ⟨k, taken, mid, rfl, hmid, hrest⟩ := htest.exists_test hn (by omega)
    cases taken with
    | true =>
      obtain ⟨l, r, hl, hr, hlast⟩ := iho hother hrest (by omega)
      exact ⟨l, r, Nat.le_succ_of_le hl, ⟨true, mid, hmid, hr⟩, hlast⟩
    | false =>
      obtain ⟨l, r, hl, hr, hlast⟩ := ihb hbody hrest (by omega)
      obtain ⟨j, taken, r', rfl, hskipped, hfinal⟩ := hskip.exists_test hlast (by omega)
      cases hskipped
      exact ⟨j, r, by omega, ⟨false, mid, hmid, hr⟩, hfinal⟩
  | loop cond body ihc ihb =>
    obtain ⟨hcond, htest, hbody, hback⟩ := stands_loop.mp h
    have hsize : a + (loop cond body).size = a + cond.size + 2 + body.size + 2 := by
      simp only [size]
      omega
    rw [hsize] at hend ⊢
    -- Each round takes steps, so the rest of the way is shorter at the start of the next one.
    induction n using Nat.strongRecOn generalizing m with
    | ind n ih =>
      obtain ⟨k, mid, hk, hmid, hrest⟩ := ihc hcond hn (by omega)
      obtain ⟨l, taken, mid', rfl, hgo, hrest⟩ := htest.exists_test hrest (by omega)
      cases taken with
      | true => exact ⟨l, mid', by omega, .exit ⟨mid, mid', hmid, hgo, rfl⟩, hrest⟩
      | false =>
        obtain ⟨j, s, hj, hs, hlast⟩ := ihb hbody hrest (by omega)
        obtain ⟨i, taken, r', rfl, htaken, hagain⟩ := hback.exists_test hlast (by omega)
        cases htaken
        obtain ⟨f, r, hf, hr, hfinal⟩ := ih i (by omega) hagain
        exact ⟨f, r, by omega, .again ⟨mid, mid', hmid, hgo, hs⟩ hr, hfinal⟩
  | rounds body back ihb =>
    obtain ⟨hbody, hback⟩ := stands_rounds.mp h
    have hsize : a + (rounds body back).size = a + body.size + 2 := rfl
    rw [hsize] at hend ⊢
    induction n using Nat.strongRecOn generalizing m with
    | ind n ih =>
      obtain ⟨k, mid, hk, hmid, hrest⟩ := ihb hbody hn (by omega)
      obtain ⟨l, taken, s, rfl, htest, hrest⟩ := hback.exists_test hrest (by omega)
      cases taken with
      | false => exact ⟨l, s, by omega, .exit ⟨mid, hmid, htest⟩, hrest⟩
      | true =>
        obtain ⟨f, r, hf, hr, hfinal⟩ := ih l (by omega) hrest
        exact ⟨f, r, by omega, .again ⟨mid, hmid, htest⟩ hr, hfinal⟩
  | function guarded body ih =>
    obtain ⟨hjump, hbody, hret⟩ := stands_function.mp h
    have hsize : a + (function guarded body).size = a + guardSize guarded + body.size + 1 := by
      simp only [size]
      omega
    rw [hsize] at hend ⊢
    cases guarded with
    | true =>
      obtain ⟨k, taken, r, rfl, htest, hrest⟩ := (hjump rfl).exists_test hn (by omega)
      cases htest
      exact ⟨k, m, Nat.le_succ k, ⟨rfl, rfl⟩, hrest⟩
    | false =>
      -- The machine falls into the body, and is stuck at the return behind it.
      obtain ⟨k, r, hk, hr, hrest⟩ := ih hbody hn (by omega)
      have hlt : a + guardSize false + body.size < e := hend
      obtain ⟨l, s, -, hstep, -⟩ := Meaning.exists_step_of_after hrest (Nat.ne_of_lt hlt)
      rw [Meaning.step?_plain r hret] at hstep
      cases hstep

end

end Segment

end SceneCode
