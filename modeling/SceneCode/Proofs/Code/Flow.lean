import SceneCode.Proofs.Code.Boundary
import SceneCode.Proofs.Reading.Layout

/-!
# Facts that flow through code

Something that can be said about every place of some code (how many values are on the stack there,
how many scopes are open) is a certificate: a function on addresses that fits every instruction.
What fits is given by a `Transfer`.  Over a segment the same is said by rules that follow its
structure (`Flows`), one for each constructor, and `Flows.certified` turns a derivation into a
certificate of the flat code.

Certificates of parts are glued together at an address between them.  That changes nothing, because
a part only looks at the places from its start to its end.
-/

namespace SceneCode

/-- What instructions do to some fact about places. -/
structure Transfer (α : Type) where
  /-- Before an instruction that is not a jump, and behind it. -/
  plain : Plain → α → α → Prop
  /-- Before a jump, at its target, and behind it. -/
  jump : Jump → α → α → α → Prop
  /-- Where the body of a function starts. -/
  fresh : α

variable {α : Type} {T : Transfer α}

def Transfer.Fits (T : Transfer α) (c : Address → α) (a : Address) : Instruction → Prop
  | .plain i => T.plain i (c a) (c (a + i.size))
  | .jump kind target => T.jump kind (c a) (c target) (c (a + 2))

/-! ### Rules -/

/-- The segment leads from one fact to another. -/
inductive Flows (T : Transfer α) : α → Segment → α → Prop where
  | nothing {x} : Flows T x .nothing x
  | one {i x y} : T.plain i x y → Flows T x (.one i) y
  | seq {p q x y z} : Flows T x p y → Flows T y q z → Flows T x (.seq p q) z
  | skip {kind body x y z} :
      T.jump kind x z y → Flows T y body z → Flows T x (.skip kind body) z
  | choice {body other x y z w v} :
      T.jump .ifFalse x z y → Flows T y body w → T.jump .always w v z → Flows T z other v →
      Flows T x (.choice body other) v
  | loop {cond body x y z w v} :
      Flows T x cond w → T.jump .ifFalse w v y → Flows T y body z → T.jump .always z x v →
      Flows T x (.loop cond body) v
  | rounds {body back x w v} :
      Flows T x body w → T.jump back w x v → Flows T x (.rounds body back) v
  | function {guarded body x w y} :
      (guarded = true → T.jump .always x y T.fresh) → (guarded = false → x = T.fresh) →
      Flows T T.fresh body w → T.plain .ret w y → Flows T x (.function guarded body) y

/-! ### Certificates -/

/-- A certificate for a segment that starts at `a` with the fact `x` and ends with the fact `y`. -/
structure Certifies (T : Transfer α) (c : Address → α) (a : Address) (p : Segment) (x y : α) :
    Prop where
  start : c a = x
  finish : c (a + p.size) = y
  fits : ∀ b i, (b, i) ∈ Instruction.located a (p.code a) → T.Fits c b i
  fresh : ∀ b ∈ p.starts a, c b = T.fresh

/-- A certificate that is another one from an address on. -/
def glue (c : Address → α) (m : Nat) (d : Address → α) : Address → α :=
  fun b => if b < m then c b else d b

theorem glue_of_lt {c d : Address → α} {m b : Nat} (h : b < m) : glue c m d b = c b :=
  if_pos h

theorem glue_of_le {c d : Address → α} {m b : Nat} (h : m ≤ b) : glue c m d b = d b :=
  if_neg (Nat.not_lt.mpr h)

/-- Only the places from the start of a segment to its end matter. -/
theorem Certifies.congr {c d : Address → α} {a : Nat} {p : Segment} {x y : α}
    (h : Certifies T c a p x y) (hsame : ∀ b : Nat, a ≤ b → b ≤ a + p.size → d b = c b) :
    Certifies T d a p x y where
  start := by rw [hsame a (Nat.le_refl _) (Nat.le_add_right ..), h.start]
  finish := by rw [hsame _ (Nat.le_add_right ..) (Nat.le_refl _), h.finish]
  fits := by
    intro b i hmem
    have hfits := h.fits b i hmem
    have hbounds := Instruction.bounds_of_mem_located hmem
    rw [Segment.sizes_code] at hbounds
    cases i with
    | plain i =>
      simp only [Transfer.Fits, Instruction.size] at hfits hbounds ⊢
      rwa [hsame b (by omega) (by omega), hsame (b + i.size) (by omega) (by omega)]
    | jump kind target =>
      have htarget := (Segment.boundary_of_jump hmem).bounds
      rw [Segment.sizes_code] at htarget
      simp only [Transfer.Fits, Instruction.size] at hfits hbounds ⊢
      rwa [hsame b (by omega) (by omega), hsame target htarget.1 htarget.2,
        hsame (b + 2) (by omega) (by omega)]
  fresh := by
    intro b hb
    obtain ⟨i, hi⟩ := Segment.mem_located_of_mem_starts hb
    have hbounds := Instruction.bounds_of_mem_located hi
    rw [Segment.sizes_code] at hbounds
    rw [hsame b (by omega) (by omega), h.fresh b hb]

/-- A certificate stays one where another begins behind its segment. -/
theorem Certifies.glue_before {c d : Address → α} {a m : Nat} {p : Segment} {x y : α}
    (h : Certifies T c a p x y) (hm : a + p.size < m) : Certifies T (glue c m d) a p x y := by
  apply h.congr
  intro b _ hb
  exact glue_of_lt (Nat.lt_of_le_of_lt hb hm)

/-- A certificate stays one where another ends before its segment. -/
theorem Certifies.glue_behind {c d : Address → α} {a m : Nat} {p : Segment} {x y : α}
    (h : Certifies T d a p x y) (hm : m ≤ a) : Certifies T (glue c m d) a p x y := by
  apply h.congr
  intro b hb _
  exact glue_of_le (Nat.le_trans hm hb)

theorem certifies_seq {c d : Address → α} {a : Nat} {p q : Segment} {x y z : α}
    (hp : Certifies T c a p x y) (hq : Certifies T d (a + p.size) q y z) :
    Certifies T (glue c (a + p.size) d) a (.seq p q) x z := by
  have hp' : Certifies T (glue c (a + p.size) d) a p x y := by
    apply hp.congr
    intro b _ hb
    rcases Nat.lt_or_eq_of_le hb with hlt | rfl
    · exact glue_of_lt hlt
    · rw [glue_of_le (Nat.le_refl _), hq.start, hp.finish]
  have hq' := hq.glue_behind (c := c) (Nat.le_refl _)
  refine ⟨hp'.start, ?_, ?_, ?_⟩
  · rw [Segment.size, ← Nat.add_assoc]
    exact hq'.finish
  · intro b i hmem
    simp only [Segment.code, Instruction.located_append, List.mem_append,
      Segment.sizes_code] at hmem
    rcases hmem with hmem | hmem
    · exact hp'.fits b i hmem
    · exact hq'.fits b i hmem
  · intro b hb
    rcases List.mem_append.mp hb with hb | hb
    · exact hp'.fresh b hb
    · exact hq'.fresh b hb

theorem certifies_skip {c : Address → α} {a : Nat} {kind : Jump} {p : Segment} {x y z : α}
    (hjump : T.jump kind x z y) (hp : Certifies T c (a + 2) p y z) :
    Certifies T (glue (fun _ => x) (a + 1) c) a (.skip kind p) x z := by
  have hp' := hp.glue_behind (c := fun _ => x) (m := a + 1) (by omega)
  have hstart : glue (fun _ => x) (a + 1) c a = x := glue_of_lt (Nat.lt_succ_self a)
  refine ⟨hstart, ?_, ?_, hp'.fresh⟩
  · rw [Segment.size, ← Nat.add_assoc]
    exact hp'.finish
  · intro b i hmem
    rcases List.mem_cons.mp hmem with heq | hmem
    · cases heq
      simp only [Transfer.Fits]
      rw [hstart, hp'.finish, hp'.start]
      exact hjump
    · exact hp'.fits b i hmem

theorem certifies_choice {c d : Address → α} {a : Nat} {p q : Segment} {x y z w v : α}
    (htest : T.jump .ifFalse x z y) (hp : Certifies T c (a + 2) p y w)
    (hskip : T.jump .always w v z) (hq : Certifies T d (a + 2 + p.size + 2) q z v) :
    Certifies T (glue (fun _ => x) (a + 1) (glue c (a + 2 + p.size + 1) d)) a (.choice p q) x v := by
  have hp' : Certifies T (glue (fun _ => x) (a + 1) (glue c (a + 2 + p.size + 1) d)) (a + 2) p y w :=
    (hp.glue_before (Nat.lt_succ_self _)).glue_behind (by omega)
  have hq' : Certifies T (glue (fun _ => x) (a + 1) (glue c (a + 2 + p.size + 1) d))
      (a + 2 + p.size + 2) q z v :=
    (hq.glue_behind (Nat.le_succ _)).glue_behind (by omega)
  have hstart : glue (fun _ => x) (a + 1) (glue c (a + 2 + p.size + 1) d) a = x :=
    glue_of_lt (Nat.lt_succ_self a)
  refine ⟨hstart, ?_, ?_, ?_⟩
  · have hend : a + (Segment.choice p q).size = a + 2 + p.size + 2 + q.size := by
      simp only [Segment.size]
      omega
    rw [hend]
    exact hq'.finish
  · intro b i hmem
    simp only [Segment.code, Instruction.located, Instruction.located_append, List.mem_cons,
      List.mem_append, Segment.sizes_code, Prod.mk.injEq, Instruction.size] at hmem
    rcases hmem with ⟨rfl, rfl⟩ | hmem | ⟨rfl, rfl⟩ | hmem
    · simp only [Transfer.Fits]
      rw [hstart, hq'.start, hp'.start]
      exact htest
    · exact hp'.fits b i hmem
    · simp only [Transfer.Fits]
      rw [hp'.finish, hq'.finish, hq'.start]
      exact hskip
    · exact hq'.fits b i hmem
  · intro b hb
    rcases List.mem_append.mp hb with hb | hb
    · exact hp'.fresh b hb
    · exact hq'.fresh b hb

theorem certifies_loop {c d : Address → α} {a : Nat} {p q : Segment} {x y z w v : α}
    (hp : Certifies T c a p x w) (htest : T.jump .ifFalse w v y)
    (hq : Certifies T d (a + p.size + 2) q y z) (hback : T.jump .always z x v) :
    Certifies T (glue c (a + p.size + 1) (glue d (a + p.size + 2 + q.size + 1) fun _ => v)) a
      (.loop p q) x v := by
  have hp' : Certifies T (glue c (a + p.size + 1) (glue d (a + p.size + 2 + q.size + 1)
      fun _ => v)) a p x w := hp.glue_before (Nat.lt_succ_self _)
  have hq' : Certifies T (glue c (a + p.size + 1) (glue d (a + p.size + 2 + q.size + 1)
      fun _ => v)) (a + p.size + 2) q y z :=
    (hq.glue_before (Nat.lt_succ_self _)).glue_behind (Nat.le_succ _)
  have hfinish : glue c (a + p.size + 1) (glue d (a + p.size + 2 + q.size + 1) fun _ => v)
      (a + p.size + 2 + q.size + 2) = v := by
    rw [glue_of_le (by omega), glue_of_le (Nat.le_succ _)]
  refine ⟨hp'.start, ?_, ?_, ?_⟩
  · have hend : a + (Segment.loop p q).size = a + p.size + 2 + q.size + 2 := by
      simp only [Segment.size]
      omega
    rw [hend]
    exact hfinish
  · intro b i hmem
    simp only [Segment.code, Instruction.located, Instruction.located_append, List.mem_cons,
      List.mem_append, Segment.sizes_code, Prod.mk.injEq, Instruction.size, List.not_mem_nil,
      or_false] at hmem
    rcases hmem with hmem | ⟨rfl, rfl⟩ | hmem | ⟨rfl, rfl⟩
    · exact hp'.fits b i hmem
    · simp only [Transfer.Fits]
      rw [hp'.finish, hfinish, hq'.start]
      exact htest
    · exact hq'.fits b i hmem
    · simp only [Transfer.Fits]
      rw [hq'.finish, hp'.start, hfinish]
      exact hback
  · intro b hb
    rcases List.mem_append.mp hb with hb | hb
    · exact hp'.fresh b hb
    · exact hq'.fresh b hb

theorem certifies_rounds {c : Address → α} {a : Nat} {p : Segment} {back : Jump} {x w v : α}
    (hp : Certifies T c a p x w) (hback : T.jump back w x v) :
    Certifies T (glue c (a + p.size + 1) fun _ => v) a (.rounds p back) x v := by
  have hp' := hp.glue_before (d := fun _ => v) (Nat.lt_succ_self (a + p.size))
  have hfinish : glue c (a + p.size + 1) (fun _ => v) (a + p.size + 2) = v :=
    glue_of_le (Nat.le_succ _)
  refine ⟨hp'.start, ?_, ?_, hp'.fresh⟩
  · rw [Segment.size, ← Nat.add_assoc]
    exact hfinish
  · intro b i hmem
    simp only [Segment.code, Instruction.located, Instruction.located_append, List.mem_cons,
      List.mem_append, Segment.sizes_code, Prod.mk.injEq, List.not_mem_nil, or_false] at hmem
    rcases hmem with hmem | ⟨rfl, rfl⟩
    · exact hp'.fits b i hmem
    · simp only [Transfer.Fits]
      rw [hp'.finish, hp'.start, hfinish]
      exact hback

theorem certifies_function {c : Address → α} {a : Nat} {guarded : Bool} {p : Segment} {x w y : α}
    (hguard : guarded = true → T.jump .always x y T.fresh)
    (hopen : guarded = false → x = T.fresh)
    (hp : Certifies T c (a + Segment.guardSize guarded) p T.fresh w) (hret : T.plain .ret w y) :
    Certifies T (glue (fun _ => x) (a + Segment.guardSize guarded)
      (glue c (a + Segment.guardSize guarded + p.size + 1) fun _ => y)) a
      (.function guarded p) x y := by
  have hp' : Certifies T (glue (fun _ => x) (a + Segment.guardSize guarded)
      (glue c (a + Segment.guardSize guarded + p.size + 1) fun _ => y))
      (a + Segment.guardSize guarded) p T.fresh w :=
    (hp.glue_before (Nat.lt_succ_self _)).glue_behind (Nat.le_refl _)
  have hfinish : glue (fun _ => x) (a + Segment.guardSize guarded)
      (glue c (a + Segment.guardSize guarded + p.size + 1) fun _ => y)
      (a + Segment.guardSize guarded + p.size + 1) = y := by
    rw [glue_of_le (by omega), glue_of_le (Nat.le_refl _)]
  have hstart : glue (fun _ => x) (a + Segment.guardSize guarded)
      (glue c (a + Segment.guardSize guarded + p.size + 1) fun _ => y) a = x := by
    cases guarded with
    | true => exact glue_of_lt (Nat.lt_add_of_pos_right (by decide))
    | false => exact hp'.start.trans (hopen rfl).symm
  refine ⟨hstart, ?_, ?_, ?_⟩
  · rw [Segment.size, ← Nat.add_assoc, ← Nat.add_assoc]
    exact hfinish
  · intro b i hmem
    simp only [Segment.code, Instruction.located, Instruction.located_append, List.mem_cons,
      List.mem_append, Segment.sizes_code, Segment.sizes_guardCode, Prod.mk.injEq,
      List.not_mem_nil, or_false] at hmem
    rcases hmem with hmem | hmem | ⟨rfl, rfl⟩
    · cases guarded with
      | false => cases hmem
      | true =>
        rcases List.mem_cons.mp hmem with heq | hmem
        · cases heq
          have hbody := hp'.start
          simp only [Transfer.Fits, Segment.guardSize, if_true] at hstart hfinish hbody ⊢
          rw [hstart, hfinish, hbody]
          exact hguard rfl
        · cases hmem
    · exact hp'.fits b i hmem
    · simp only [Transfer.Fits]
      rw [hp'.finish]
      exact hfinish.symm ▸ hret
  · intro b hb
    rcases List.mem_cons.mp hb with rfl | hb
    · exact hp'.start
    · exact hp'.fresh b hb

/-- **Every flow has a certificate**, wherever the segment starts. -/
theorem Flows.certified {p : Segment} {x y : α} (h : Flows T x p y) (a : Nat) :
    ∃ c, Certifies T c a p x y := by
  induction h generalizing a with
  | @nothing x =>
    refine ⟨fun _ => x, rfl, rfl, ?_, ?_⟩
    · intro b i hmem
      cases hmem
    · intro b hb
      cases hb
  | @one i x y hplain =>
    have hpos : 0 < i.size := (Instruction.plain i).size_pos
    have hstart : glue (fun _ => x) (a + i.size) (fun _ => y) a = x :=
      glue_of_lt (Nat.lt_add_of_pos_right hpos)
    have hfinish : glue (fun _ => x) (a + i.size) (fun _ => y) (a + i.size) = y :=
      glue_of_le (Nat.le_refl _)
    refine ⟨glue (fun _ => x) (a + i.size) fun _ => y, hstart, hfinish, ?_, ?_⟩
    · intro b j hmem
      rcases List.mem_cons.mp hmem with heq | hmem
      · cases heq
        simp only [Transfer.Fits]
        rw [hstart, hfinish]
        exact hplain
      · cases hmem
    · intro b hb
      cases hb
  | @seq p q x y z _ _ ihp ihq =>
    obtain ⟨c, hc⟩ := ihp a
    obtain ⟨d, hd⟩ := ihq (a + p.size)
    exact ⟨_, certifies_seq hc hd⟩
  | skip hjump _ ih =>
    obtain ⟨c, hc⟩ := ih (a + 2)
    exact ⟨_, certifies_skip hjump hc⟩
  | @choice body other x y z w v htest _ hskip _ ihb iho =>
    obtain ⟨c, hc⟩ := ihb (a + 2)
    obtain ⟨d, hd⟩ := iho (a + 2 + body.size + 2)
    exact ⟨_, certifies_choice htest hc hskip hd⟩
  | @loop cond body x y z w v _ htest _ hback ihc ihb =>
    obtain ⟨c, hc⟩ := ihc a
    obtain ⟨d, hd⟩ := ihb (a + cond.size + 2)
    exact ⟨_, certifies_loop hc htest hd hback⟩
  | rounds _ hback ih =>
    obtain ⟨c, hc⟩ := ih a
    exact ⟨_, certifies_rounds hc hback⟩
  | @function guarded body x w y hguard hopen _ hret ih =>
    obtain ⟨c, hc⟩ := ih (a + Segment.guardSize guarded)
    exact ⟨_, certifies_function hguard hopen hc hret⟩

end SceneCode
