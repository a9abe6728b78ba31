import SceneCode.Proofs.Code.Segment
import SceneCode.Proofs.Session.Success

/-!
# Growth of a session

While a tree is generated, a session grows by instructions: `s.Adds is t` says that `t` has the
code of `s` with the words of `is` behind it, that the calls among them whose function is not known
wait in the innermost scope, and that nothing else around the innermost scope has changed.  The
labels of the innermost scope are left open here; `Scopes.bare` is the part of the scopes that names
depend on.

Two steps rewrite words that are already there.  A jump gets its target when the code between is
complete (`Adds.land`), and the calls of a scope get their targets when the scope is closed
(`yields_popScope`).  In both cases the result is again a growth, by other instructions of the same
sizes.
-/

namespace SceneCode

/-! ### Labels -/

/-- The frame `g` is `f` with one label more, under a new name.  A variable takes the next slot. -/
structure Frame.Registered (f : Frame) (name : String) (label : Label) (g : Frame) : Prop where
  fresh : f.get? name = none
  labels : g.labels = (name, label) :: f.labels
  slots : g.slots = f.slots + if label.kind.isFunction then 0 else 1
  pending : g.pending = f.pending
  slot : label.kind.isFunction = false → label.address = f.slots

theorem Frame.registered_of_register {f g : Frame} {name : String} {kind : LabelKind}
    {signature : Option Signature} {pc a : Address}
    (h : f.register name kind signature pc = .ok (a, g)) :
    f.Registered name ⟨a, kind, signature⟩ g := by
  unfold register at h
  split at h
  · cases h
  · rename_i hfresh
    split at h
    · cases h
      exact ⟨hfresh, rfl, rfl, rfl, nofun⟩
    · cases h
      exact ⟨hfresh, rfl, rfl, rfl, fun _ => rfl⟩

/-! ### Scopes without pending calls -/

namespace Scopes

/-- The scopes without their pending calls. -/
def bare (sc : Scopes) : Scopes :=
  ⟨sc.current.settled, sc.outer.map Frame.settled⟩

def deferAll (sc : Scopes) (calls : List PendingCall) : Scopes :=
  { sc with current := { sc.current with pending := sc.current.pending ++ calls } }

@[simp] theorem outer_deferAll (sc : Scopes) (calls : List PendingCall) :
    (sc.deferAll calls).outer = sc.outer := rfl

@[simp] theorem pending_deferAll (sc : Scopes) (calls : List PendingCall) :
    (sc.deferAll calls).current.pending = sc.current.pending ++ calls := rfl

@[simp] theorem bare_deferAll (sc : Scopes) (calls : List PendingCall) :
    (sc.deferAll calls).bare = sc.bare := rfl

@[simp] theorem bare_defer (sc : Scopes) (call : PendingCall) :
    (sc.defer call).bare = sc.bare := rfl

@[simp] theorem deferAll_nil (sc : Scopes) : sc.deferAll [] = sc := by
  simp [deferAll]

@[simp] theorem deferAll_deferAll (sc : Scopes) (calls more : List PendingCall) :
    (sc.deferAll calls).deferAll more = sc.deferAll (calls ++ more) := by
  simp [deferAll]

@[simp] theorem frames_bare (sc : Scopes) : sc.bare.frames = sc.frames.map Frame.settled := rfl

theorem findIn_settled (name : String) (frames : List Frame) (depth : Nat) :
    findIn name (frames.map Frame.settled) depth = findIn name frames depth := by
  induction frames generalizing depth with
  | nil => rfl
  | cons f rest ih =>
    simp only [List.map_cons, findIn, ih]
    rfl

@[simp] theorem find?_bare (sc : Scopes) (name : String) : sc.bare.find? name = sc.find? name := by
  rw [find?, frames_bare, findIn_settled]
  rfl

@[simp] theorem locate?_bare (sc : Scopes) (name : String) :
    sc.bare.locate? name = sc.locate? name := by
  simp [locate?]

@[simp] theorem function?_bare (sc : Scopes) (name : String) :
    sc.bare.function? name = sc.function? name := by
  simp [function?]

/-- Names get the same labels whatever calls are pending. -/
theorem register_bare {sc sc' : Scopes} {name : String} {kind : LabelKind}
    {signature : Option Signature} {pc a : Address}
    (h : sc.register name kind signature pc = .ok (a, sc')) :
    sc.bare.register name kind signature pc = .ok (a, sc'.bare) := by
  simp only [register, Frame.register, bare, Frame.settled, Frame.get?] at h ⊢
  rcases hlookup : sc.current.labels.lookup name with _ | label
  · cases kind with
    | function =>
      simp only [hlookup] at h ⊢
      cases h
      rfl
    | «variable» type =>
      simp only [hlookup] at h ⊢
      cases h
      rfl
  · simp only [hlookup] at h
    cases h

/-- A function gets the address of the next word. -/
theorem address_of_register {sc sc' : Scopes} {name : String} {signature : Option Signature}
    {pc a : Address} (h : sc.register name .function signature pc = .ok (a, sc')) : a = pc := by
  simp only [register, Frame.register, Frame.get?] at h
  rcases hlookup : sc.current.labels.lookup name with _ | label
  · simp only [hlookup] at h
    cases h
    rfl
  · simp only [hlookup] at h
    cases h

/-- A label changes the innermost scope only. -/
theorem frame_of_register {sc sc' : Scopes} {name : String} {kind : LabelKind}
    {signature : Option Signature} {pc a : Address}
    (h : sc.register name kind signature pc = .ok (a, sc')) :
    sc.current.register name kind signature pc = .ok (a, sc'.current) ∧ sc'.outer = sc.outer := by
  simp only [register] at h
  rcases hframe : sc.current.register name kind signature pc with e | ⟨b, f⟩
  · rw [hframe] at h
    cases h
  · rw [hframe] at h
    cases h
    exact ⟨rfl, rfl⟩

theorem outer_of_register {sc sc' : Scopes} {name : String} {kind : LabelKind}
    {signature : Option Signature} {pc a : Address}
    (h : sc.register name kind signature pc = .ok (a, sc')) : sc'.outer = sc.outer :=
  (frame_of_register h).2

theorem pending_of_register {sc sc' : Scopes} {name : String} {kind : LabelKind}
    {signature : Option Signature} {pc a : Address}
    (h : sc.register name kind signature pc = .ok (a, sc')) :
    sc'.current.pending = sc.current.pending :=
  (Frame.registered_of_register (frame_of_register h).1).pending

end Scopes

/-- A frame settles the same calls whatever calls are pending in it. -/
theorem Instruction.settle_settled (frame : Frame) (i : Instruction) :
    i.settle frame.settled = i.settle frame := by
  cases i with
  | jump kind target => rfl
  | plain i =>
    cases i with
    | call target count => cases target <;> rfl
    | _ => rfl

/-! ### Growth by instructions -/

/-- The session `t` is `s` after the instructions were written, but for labels of the innermost
    scope. -/
structure Session.Adds (s : Session) (is : List Instruction) (t : Session) : Prop where
  config : t.config = s.config
  functions : t.functions = s.functions
  outer : t.scopes.outer = s.scopes.outer
  code : t.code.toList = s.code.toList ++ Instruction.encode is
  pending : t.scopes.current.pending =
    s.scopes.current.pending ++ Instruction.pendingCalls s.code.next is

namespace Session.Adds

open Instruction

variable {s t u : Session} {is js : List Instruction}

theorem next (h : s.Adds is t) : t.code.next = s.code.next + sizes is := by
  rw [← Code.length_toList, h.code, List.length_append, length_encode, Code.length_toList]

theorem refl (s : Session) : s.Adds [] s :=
  ⟨rfl, rfl, rfl, by simp, by simp⟩

theorem trans (hst : s.Adds is t) (htu : t.Adds js u) : s.Adds (is ++ js) u where
  config := htu.config.trans hst.config
  functions := htu.functions.trans hst.functions
  outer := htu.outer.trans hst.outer
  code := by rw [htu.code, hst.code, encode_append, List.append_assoc]
  pending := by
    rw [htu.pending, hst.pending, hst.next, pendingCalls_append, List.append_assoc]

/-- Writing instructions none of which waits for its target. -/
theorem write (s : Session) (is : List Instruction)
    (hnone : pendingCalls s.code.next is = []) : s.Adds is (s.write (encode is)) :=
  ⟨rfl, rfl, rfl, by simp, by simp [hnone]⟩

/-- The growth before is the same if the session goes on with other labels. -/
theorem relabel (h : s.Adds is t) {scopes : Scopes} (houter : scopes.outer = t.scopes.outer)
    (hpending : scopes.current.pending = t.scopes.current.pending) :
    s.Adds is (t.setScopes scopes) :=
  ⟨h.config, h.functions, houter.trans h.outer, h.code, hpending.trans h.pending⟩

/-- A jump among the instructions that were added gets another target. -/
theorem land (is : List Instruction) {kind : Jump} {old : Address} {hole : Nat} (new : Address)
    (h : s.Adds (is ++ .jump kind old :: js) t) (hhole : hole = s.code.next + sizes is + 1) :
    s.Adds (is ++ .jump kind new :: js) (t.replace hole (.addr new)) where
  config := h.config
  functions := h.functions
  outer := h.outer
  code := by
    have hsplit : t.code.toList =
        (s.code.toList ++ encode is ++ [.op kind.opcode]) ++ .addr old :: encode js := by
      rw [h.code]
      simp [words, opcode, operands]
    have hlen : hole = (s.code.toList ++ encode is ++ [Word.op kind.opcode]).length := by
      rw [hhole]
      simp [Nat.add_assoc]
    rw [toList_replace, hsplit, hlen, List.set_append_right _ _ (Nat.le_refl _), Nat.sub_self]
    simp [words, opcode, operands]
  pending := by
    rw [scopes_replace, h.pending]
    simp

end Session.Adds

/-! ### Growth by a segment

One lemma for each way in which a segment is built.  A jump forward is written with a placeholder
first, so its lemma starts from the session that holds the placeholder. -/

/-- The session `t` is `s` after the segment was written. -/
def Session.Grows (s : Session) (p : Segment) (t : Session) : Prop :=
  s.Adds (p.code s.code.next) t

/-- The words of a jump whose target is not known yet. -/
def Jump.hole (kind : Jump) : List Word :=
  [.op kind.opcode, Code.placeholder]

namespace Session.Grows

open Instruction

variable {s t u : Session} {p q : Segment}

theorem next (h : s.Grows p t) : t.code.next = s.code.next + p.size := by
  rw [Adds.next h, Segment.sizes_code]

theorem nothing (s : Session) : s.Grows .nothing s :=
  Adds.refl s

theorem one (s : Session) {i : Plain} (hi : i.pending? = none) :
    s.Grows (.one i) (s.write (Instruction.plain i).words) := by
  have hnone : pendingCalls s.code.next [.plain i] = [] := pendingCalls_cons_of_none [] hi
  have hwrite := Adds.write s [.plain i] hnone
  rw [encode_cons, encode_nil, List.append_nil] at hwrite
  exact hwrite

theorem seq (hp : s.Grows p t) (hq : t.Grows q u) : s.Grows (.seq p q) u := by
  unfold Grows at hq
  rw [hp.next] at hq
  exact Adds.trans hp hq

theorem ops (s : Session) (is : List Plain) (his : ∀ i ∈ is, i.pending? = none) :
    s.Grows (Segment.ops is) (s.write (encode (is.map .plain))) := by
  induction is generalizing s with
  | nil =>
    rw [List.map_nil, encode_nil, write_nil]
    exact nothing s
  | cons i is ih =>
    have hfirst := one s (his i (List.mem_cons_self ..))
    have hrest := ih (s.write (Instruction.plain i).words)
      (fun j hj => his j (List.mem_cons_of_mem _ hj))
    rw [write_write] at hrest
    exact hfirst.seq hrest

theorem next_hole (s : Session) (kind : Jump) :
    (s.write kind.hole).code.next = s.code.next + 2 :=
  next_write s kind.hole

/-- A jump whose target is not known yet. -/
theorem hole (s : Session) (kind : Jump) : s.Adds [.jump kind 0] (s.write kind.hole) :=
  Adds.write s [.jump kind 0] rfl

theorem skip {kind : Jump} (h : (s.write kind.hole).Grows p t) :
    s.Grows (.skip kind p) (t.replace (s.code.next + 1) (.addr t.code.next)) := by
  have hnext : t.code.next = s.code.next + 2 + p.size := by
    rw [h.next, next_hole]
  have hadds := (hole s kind).trans h
  rw [next_hole] at hadds
  rw [hnext]
  exact Adds.land [] (s.code.next + 2 + p.size) hadds rfl

theorem choice {mid : Session} (hp : (s.write (Jump.hole .ifFalse)).Grows p t)
    (hmid : mid = (t.write (Jump.hole .always)).replace (s.code.next + 1)
      (.addr (t.write (Jump.hole .always)).code.next))
    (hq : mid.Grows q u) :
    s.Grows (.choice p q) (u.replace (t.code.next + 1) (.addr u.code.next)) := by
  have ht : t.code.next = s.code.next + 2 + p.size := by
    rw [hp.next, next_hole]
  have hend : (t.write (Jump.hole .always)).code.next = s.code.next + 2 + p.size + 2 := by
    rw [next_hole, ht]
  have hmidNext : mid.code.next = s.code.next + 2 + p.size + 2 := by
    rw [hmid, next_replace, hend]
  have hu : u.code.next = s.code.next + 2 + p.size + 2 + q.size := by
    rw [hq.next, hmidNext]
  -- first the jump to the other segment lands, then the jump to the end
  have hfirst := ((hole s .ifFalse).trans hp).trans (hole t .always)
  have hlanded := Adds.land [] (s.code.next + 2 + p.size + 2) hfirst rfl
  have hmid' : mid = (t.write (Jump.hole .always)).replace (s.code.next + sizes [] + 1)
      (.addr (s.code.next + 2 + p.size + 2)) := by
    rw [hmid, hend]
    rfl
  rw [← hmid'] at hlanded
  have hall := hlanded.trans hq
  rw [hmidNext] at hall
  have hplace : t.code.next + 1 = s.code.next +
      sizes (.jump .ifFalse (s.code.next + 2 + p.size + 2) :: p.code (s.code.next + 2)) + 1 := by
    rw [ht, sizes_cons, Segment.sizes_code]
    simp [Instruction.size, Nat.add_assoc]
  rw [next_hole] at hall
  rw [hu]
  have hall' : s.Adds ((.jump .ifFalse (s.code.next + 2 + p.size + 2) ::
      p.code (s.code.next + 2)) ++ .jump .always 0 :: q.code (s.code.next + 2 + p.size + 2)) u := by
    simpa using hall
  exact Adds.land _ (s.code.next + 2 + p.size + 2 + q.size) hall' hplace

theorem loop {v : Session} (hp : s.Grows p t) (hq : (t.write (Jump.hole .ifFalse)).Grows q u)
    (hv : v = u.write [.op .jump, .addr s.code.next]) :
    s.Grows (.loop p q) (v.replace (t.code.next + 1) (.addr v.code.next)) := by
  have ht := hp.next
  have hstart : (t.write (Jump.hole .ifFalse)).code.next = s.code.next + p.size + 2 := by
    rw [next_hole, ht]
  have hu : u.code.next = s.code.next + p.size + 2 + q.size := by
    rw [hq.next, hstart]
  have hend : v.code.next = s.code.next + p.size + 2 + q.size + 2 := by
    rw [hv, next_write, hu]
    rfl
  have hback : u.Adds [.jump .always s.code.next] v := by
    rw [hv]
    exact Adds.write u [.jump .always s.code.next] rfl
  have hall := ((Adds.trans hp (hole t .ifFalse)).trans hq).trans hback
  rw [hstart] at hall
  have hplace : t.code.next + 1 = s.code.next + sizes (p.code s.code.next) + 1 := by
    rw [ht, Segment.sizes_code]
  rw [hend]
  have hall' : s.Adds (p.code s.code.next ++ .jump .ifFalse 0 ::
      (q.code (s.code.next + p.size + 2) ++ [.jump .always s.code.next])) v := by
    simpa using hall
  exact Adds.land _ (s.code.next + p.size + 2 + q.size + 2) hall' hplace

theorem rounds (back : Jump) (h : s.Grows p t) :
    s.Grows (.rounds p back) (t.write [.op back.opcode, .addr s.code.next]) :=
  Adds.trans h (Adds.write t [.jump back s.code.next] rfl)

end Session.Grows

/-! ### Closing a scope -/

namespace Gen

open Instruction

theorem yields_settleInto_cons {frame : Frame} {call : PendingCall} {rest : List PendingCall}
    {s t : Session} :
    (settleInto frame (call :: rest)).Yields s () t ↔
      (frame.get? call.name = none ∧
        (settleInto frame rest).Yields (s.setScopes (s.scopes.defer call)) () t) ∨
      (∃ label, frame.get? call.name = some label ∧ label.kind = .function ∧
        (call.patchAt < s.code.next ∧
          (settleInto frame rest).Yields (s.replace call.patchAt (.addr label.address)) () t)) := by
  simp only [settleInto, yields_bind, yields_settle]
  constructor
  · rintro ⟨done, mid, ⟨hnone, rfl, rfl⟩ | ⟨label, hlabel, hkind, rfl, hlt, rfl⟩, h⟩
    · simp only [Bool.false_eq_true, if_false, yields_bind, yields_update] at h
      obtain ⟨_, _, rfl, h⟩ := h
      exact Or.inl ⟨hnone, h⟩
    · exact Or.inr ⟨label, hlabel, hkind, hlt, h⟩
  · rintro (⟨hnone, h⟩ | ⟨label, hlabel, hkind, hlt, h⟩)
    · refine ⟨false, s, Or.inl ⟨hnone, rfl, rfl⟩, ?_⟩
      simp only [Bool.false_eq_true, if_false, yields_bind, yields_update]
      exact ⟨(), _, rfl, h⟩
    · exact ⟨true, _, Or.inr ⟨label, hlabel, hkind, rfl, hlt, rfl⟩, h⟩

/-- One instruction of a closed scope.  If it is a call that the frame knows, its placeholder is
    replaced; if the frame does not know it, it waits in the scope around. -/
theorem settle_instruction {frame : Frame} {i : Instruction} {is : List Instruction}
    {front back : List Word} {a : Nat} {s t : Session} (hfront : front.length = a)
    (hcode : s.code.toList = front ++ encode (i :: is) ++ back)
    (h : (settleInto frame (pendingCalls a (i :: is))).Yields s () t) :
    ∃ mid : Session, SettledBy frame [i] ∧ mid.config = s.config ∧
      mid.functions = s.functions ∧
      mid.scopes = s.scopes.deferAll (pendingCalls a [i.settle frame]) ∧
      mid.code.toList = (front ++ (i.settle frame).words) ++ encode is ++ back ∧
      (settleInto frame (pendingCalls (a + i.size) is)).Yields mid () t := by
  rcases hcall : i.pending? with _ | name
  · rw [pendingCalls_cons_of_none is hcall] at h
    refine ⟨s, ?_, rfl, rfl, ?_, ?_, h⟩
    · intro j hj name hname
      rw [List.mem_singleton.mp hj, hcall] at hname
      cases hname
    · rw [settle_of_pending?_eq_none frame hcall, pendingCalls_cons_of_none _ hcall,
        pendingCalls_nil, Scopes.deferAll_nil]
    · rw [settle_of_pending?_eq_none frame hcall, hcode]
      simp
  · obtain ⟨count, rfl⟩ := eq_call_of_pending?_eq_some hcall
    rw [pendingCalls_cons_of_some is hcall] at h
    rcases yields_settleInto_cons.mp h with ⟨hnone, h⟩ | ⟨label, hlabel, hkind, -, h⟩
    · have hsame : (plain (.call (.pending name) count)).settle frame =
          plain (.call (.pending name) count) := by
        simp [Instruction.settle, Plain.settle, Target.settle, hnone]
      refine ⟨s.setScopes (s.scopes.defer ⟨name, a + 1⟩), ?_, rfl, rfl, ?_, ?_, h⟩
      · intro j hj name' hname label hlabel
        rw [List.mem_singleton.mp hj, hcall] at hname
        cases hname
        rw [hnone] at hlabel
        cases hlabel
      · rw [hsame, pendingCalls_cons_of_some _ hcall]
        rfl
      · rw [hsame, Session.code_setScopes, hcode]
        simp
    · have hsettle : (plain (.call (.pending name) count)).settle frame =
          plain (.call (.known label.address) count) := by
        simp [Instruction.settle, Plain.settle, Target.settle, hlabel]
      have hsplit : s.code.toList = (front ++ [Word.op .call]) ++
          Code.placeholder :: Word.int count :: (encode is ++ back) := by
        rw [hcode]
        simp [Instruction.words, Instruction.opcode, Plain.opcode, Instruction.operands,
          Plain.operands, Target.word]
      have hlen : a + 1 = (front ++ [Word.op .call]).length := by simp [hfront]
      refine ⟨s.replace (a + 1) (.addr label.address), ?_, rfl, rfl, ?_, ?_, h⟩
      · intro j hj name' hname label' hlabel'
        rw [List.mem_singleton.mp hj, hcall] at hname
        cases hname
        rw [hlabel] at hlabel'
        cases hlabel'
        exact hkind
      · rw [hsettle, pendingCalls_cons_of_none _ rfl, pendingCalls_nil, Scopes.deferAll_nil]
        rfl
      · rw [hsettle, Session.toList_replace, hsplit, hlen,
          List.set_append_right _ _ (Nat.le_refl _), Nat.sub_self]
        simp [Instruction.words, Instruction.opcode, Plain.opcode, Instruction.operands,
          Plain.operands, Target.word]

/-- **Settling the calls of a closed scope.**  The calls that the frame knows get their addresses,
    the others wait in the scope around it, and no other word is written.  The induction follows the
    instructions, not the calls: an instruction that is done moves in front of the rest. -/
theorem yields_settleInto {frame : Frame} {is : List Instruction} {front back : List Word}
    {a : Nat} {s t : Session} (hfront : front.length = a)
    (hcode : s.code.toList = front ++ encode is ++ back)
    (h : (settleInto frame (pendingCalls a is)).Yields s () t) :
    SettledBy frame is ∧ t.config = s.config ∧ t.functions = s.functions ∧
      t.scopes = s.scopes.deferAll (pendingCalls a (is.map (Instruction.settle frame))) ∧
      t.code.toList = front ++ encode (is.map (Instruction.settle frame)) ++ back := by
  induction is generalizing front a s with
  | nil =>
    simp only [pendingCalls_nil, settleInto, yields_pure, true_and] at h
    subst h
    refine ⟨?_, rfl, rfl, ?_, hcode⟩
    · intro i hi
      cases hi
    · rw [List.map_nil, pendingCalls_nil, Scopes.deferAll_nil]
  | cons i is ih =>
    obtain ⟨mid, hfirst, hconfig, hfunctions, hscopes, hmid, hrest⟩ :=
      settle_instruction hfront hcode h
    have hmoved : (front ++ (i.settle frame).words).length = a + i.size := by
      rw [List.length_append, hfront, Instruction.length_words, Instruction.size_settle]
    obtain ⟨hsettled, hconfig', hfunctions', hscopes', hlist⟩ := ih hmoved hmid hrest
    refine ⟨?_, hconfig'.trans hconfig, hfunctions'.trans hfunctions, ?_, ?_⟩
    · intro j hj
      rcases List.mem_cons.mp hj with rfl | hj
      · exact hfirst j (List.mem_singleton.mpr rfl)
      · exact hsettled j hj
    · rw [hscopes', hscopes, Scopes.deferAll_deferAll, List.map_cons,
        pendingCalls_cons a (i.settle frame) (is.map (Instruction.settle frame)),
        Instruction.size_settle]
    · rw [hlist, List.map_cons, encode_cons]
      simp

/-- **Closing a scope** whose code is known.  The frame of the scope is gone, the frames around it
    are as they were but for the calls that wait there now, and the words of the scope are those of
    the settled instructions. -/
theorem yields_popScope {silent : Bool} {is : List Instruction} {front : List Word}
    {sc : Scopes} {a : Nat} {s t : Session} (hfront : front.length = a)
    (hcode : s.code.toList = front ++ encode is)
    (houter : s.scopes.outer = sc.frames)
    (hpending : s.scopes.current.pending = pendingCalls a is)
    (h : (popScope silent).Yields s () t) :
    SettledBy s.scopes.current is ∧ t.config = s.config ∧ t.functions = s.functions ∧
      t.scopes = sc.deferAll (pendingCalls a (is.map (Instruction.settle s.scopes.current))) ∧
      t.code.toList =
        front ++ encode (is.map (Instruction.settle s.scopes.current)) ++ exitWords silent := by
  simp only [popScope, yields_bind, yields_takeFrame] at h
  obtain ⟨frame, mid, ⟨next, rest, hnext, rfl, rfl⟩, _, last, hsettle, h⟩ := h
  rw [houter] at hnext
  obtain ⟨rfl, rfl⟩ := List.cons.inj hnext
  rw [hpending] at hsettle
  have hcode' : (s.setScopes ⟨sc.current, sc.outer⟩).code.toList = front ++ encode is ++ [] := by
    simpa using hcode
  obtain ⟨hsettled, hconfig, hfunctions, hscopes, hlist⟩ :=
    yields_settleInto hfront hcode' hsettle
  have hlast : t = last.write (exitWords silent) := by
    cases silent <;>
      simpa [yields_bind, and_assoc, exitWords] using h
  subst hlast
  refine ⟨hsettled, hconfig, hfunctions, hscopes, ?_⟩
  rw [Session.toList_write, hlist, List.append_nil]

/-- What is left behind when the scope inside `sc` is closed, if the instructions were written in
    it. -/
structure Closes (silent : Bool) (sc : Scopes) (s : Session) (is : List Instruction)
    (frame : Frame) (t : Session) : Prop where
  settled : SettledBy frame is
  config : t.config = s.config
  functions : t.functions = s.functions
  scopes : t.scopes =
    sc.deferAll (pendingCalls s.code.next (is.map (Instruction.settle frame)))
  code : t.code.toList =
    s.code.toList ++ encode (is.map (Instruction.settle frame)) ++ exitWords silent

theorem closes_popScope {silent : Bool} {is : List Instruction} {sc : Scopes} {s t u : Session}
    (houter : s.scopes.outer = sc.frames) (hempty : s.scopes.current.pending = [])
    (hadds : s.Adds is t) (h : (popScope silent).Yields t () u) :
    t.scopes.bare = ⟨t.scopes.current.settled, sc.bare.frames⟩ ∧
      Closes silent sc s is t.scopes.current.settled u := by
  have hframes : t.scopes.outer = sc.frames := hadds.outer.trans houter
  have hpending : t.scopes.current.pending = pendingCalls s.code.next is := by
    rw [hadds.pending, hempty, List.nil_append]
  obtain ⟨hsettled, hconfig, hfunctions, hscopes, hcode⟩ :=
    yields_popScope (Code.length_toList s.code) hadds.code hframes hpending h
  have hsame : Instruction.settle t.scopes.current.settled =
      Instruction.settle t.scopes.current := by
    funext i
    exact Instruction.settle_settled _ i
  refine ⟨?_, hsettled, hconfig.trans hadds.config, hfunctions.trans hadds.functions, ?_, ?_⟩
  · rw [Scopes.frames_bare, ← hframes]
    rfl
  · rw [hsame, hscopes]
  · rw [hsame, hcode]

end Gen

/-- A segment in a data frame of its own. -/
theorem Session.Grows.scope {p : Segment} {frame : Frame} {s t : Session}
    (h : Gen.Closes false s.scopes ((s.setScopes s.scopes.push).write [.op .enterScope])
      (p.code (s.code.next + 1)) frame t) : s.Grows (Segment.scope (p.settle frame)) t where
  config := h.config
  functions := h.functions
  outer := by rw [h.scopes, Scopes.outer_deferAll]
  code := by
    rw [h.code, toList_write, code_setScopes, Segment.scope]
    simp [Segment.code, Segment.size, Plain.size, Segment.code_settle, Gen.exitWords,
      Instruction.words, Instruction.opcode, Instruction.operands, Plain.opcode, Plain.operands]
  pending := by
    have henter (b : Nat) (is : List Instruction) :
        Instruction.pendingCalls b (.plain .enterScope :: is) =
          Instruction.pendingCalls (b + 1) is := rfl
    have hexit (b : Nat) : Instruction.pendingCalls b [.plain .exitScope] = [] := rfl
    rw [h.scopes, Scopes.pending_deferAll, Segment.scope, next_write, code_setScopes]
    simp [Segment.code, Segment.code_settle, henter, hexit, Segment.size, Plain.size]

end SceneCode
