import SceneCode.Proofs.Code.Boundary
import SceneCode.Proofs.Lexical.Outline

/-!
# Segments and their outlines

`Covers halts inside frames o p` says that the segment `p` has the scopes of the outline `o`: where
the outline has a scope the segment opens and closes one, where it has a function there is a body
with a return behind it, and everywhere else there are instructions that leave scopes alone and use
only slots that the open scopes have.  The `frames` are the numbers of variables of the scopes
around it, and that of the whole program behind them.

From that it follows that the context which an outline gives an address is kept by every instruction
(`Covers.fits`): control goes on in the same scopes, but for the two instructions that open and
close one.  This is where jumps over functions are needed, so it holds inside of functions and in
programs that halt.
-/

namespace SceneCode

open Instruction

/-- An instruction that opens and closes no scope. -/
def Plain.Ordinary (inside : Bool) (frames : List Nat) : Plain → Prop
  | .enterScope | .exitScope | .halt => False
  | .ret | .retValue => inside = true
  | .load depth slot | .store depth slot => ∃ count, frames[depth]? = some count ∧ slot < count
  | _ => True

/-- The segment has the scopes of the outline. -/
inductive Covers (halts : Bool) : Bool → List Nat → Outline → Segment → Prop where
  | nothing {inside frames locals} :
      Covers halts inside frames (.code 0 locals) .nothing
  | one {inside frames locals i} :
      i.Ordinary inside frames → Covers halts inside frames (.code i.size locals) (.one i)
  | join {inside frames words locals more others p q} :
      Covers halts inside frames (.code words locals) p →
      Covers halts inside frames (.code more others) q →
      Covers halts inside frames (.code (words + more) (locals + others)) (.seq p q)
  | seq {inside frames o r p q} :
      Covers halts inside frames o p → Covers halts inside frames r q →
      Covers halts inside frames (.seq o r) (.seq p q)
  | skip {inside frames kind o p} :
      Covers halts inside frames o p →
      Covers halts inside frames (.seq (.words 2) o) (.skip kind p)
  | choice {inside frames o r p q} :
      Covers halts inside frames o p → Covers halts inside frames r q →
      Covers halts inside frames (.seq (.words 2) (.seq o (.seq (.words 2) r))) (.choice p q)
  | loop {inside frames o r p q} :
      Covers halts inside frames o p → Covers halts inside frames r q →
      Covers halts inside frames (.seq o (.seq (.words 2) (.seq r (.words 2)))) (.loop p q)
  | rounds {inside frames o p back} :
      Covers halts inside frames o p →
      Covers halts inside frames (.seq o (.words 2)) (.rounds p back)
  | scope {inside frames o p} :
      Covers halts inside (o.locals :: frames) o p →
      Covers halts inside frames (.scope o) (Segment.scope p)
  | function {inside frames params o p} :
      Covers halts true ((params + o.locals) :: frames) o p →
      Covers halts inside frames
        (.function (Segment.guardSize (inside || halts)) params o) (.function (inside || halts) p)

namespace Covers

variable {halts inside : Bool} {frames : List Nat} {o : Outline} {p : Segment}

theorem size_eq (h : Covers halts inside frames o p) : o.size = p.size := by
  induction h with
  | nothing | one => rfl
  | join _ _ ihp ihq =>
    simp only [Outline.size] at ihp ihq
    simp only [Outline.size, Segment.size, ihp, ihq]
  | seq _ _ ihp ihq => simp only [Outline.size, Segment.size, ihp, ihq]
  | skip _ ih => simp only [Outline.size, Outline.words, Segment.size, ih]
  | choice _ _ ihp ihq | loop _ _ ihp ihq =>
    simp only [Outline.size, Outline.words, Segment.size, ihp, ihq, Nat.add_assoc]
  | rounds _ ih => simp only [Outline.size, Outline.words, Segment.size, ih]
  | scope _ ih => simp only [Outline.size, Segment.size_scope, ih, Nat.add_assoc]
  | function _ ih => simp only [Outline.size, Segment.size, ih]

/-- Giving calls their targets opens and closes no scope. -/
theorem settle (h : Covers halts inside frames o p) (frame : Frame) :
    Covers halts inside frames o (p.settle frame) := by
  induction h with
  | nothing => exact .nothing
  | @one inside frames locals i hi =>
    rw [← Plain.size_settle frame i]
    refine .one ?_
    cases i <;> exact hi
  | join _ _ ihp ihq => exact .join ihp ihq
  | seq _ _ ihp ihq => exact .seq ihp ihq
  | skip _ ih => exact .skip ih
  | choice _ _ ihp ihq => exact .choice ihp ihq
  | loop _ _ ihp ihq => exact .loop ihp ihq
  | rounds _ ih => exact .rounds ih
  | scope _ ih => exact .scope ih
  | function _ ih => exact .function ih

/-- The labels of the functions are where the outline says. -/
theorem map_start_definitions (h : Covers halts inside frames o p) (a : Nat) (around : List Layer) :
    (o.definitions a around).map Definition.start = p.starts a := by
  induction h generalizing a around with
  | nothing | one => rfl
  | join _ _ ihp ihq =>
    rw [Segment.starts, ← ihp a around, ← ihq _ around]
    rfl
  | seq hp _ ihp ihq =>
    rw [Outline.definitions, List.map_append, ihp, ihq, hp.size_eq, Segment.starts]
  | skip _ ih => exact ih (a + 2) around
  | choice hp _ ihp ihq =>
    simp only [Outline.definitions, Outline.words, Outline.size, List.nil_append, List.map_append,
      ihp, ihq, hp.size_eq, Segment.starts]
  | loop hp _ ihp ihq =>
    simp only [Outline.definitions, Outline.words, Outline.size, List.nil_append, List.append_nil,
      List.map_append, ihp, ihq, hp.size_eq, Segment.starts]
  | rounds _ ih =>
    simp only [Outline.definitions, Outline.words, List.append_nil, ih, Segment.starts]
  | scope _ ih => rw [Outline.definitions, ih, Segment.starts_scope]
  | function _ ih => rw [Outline.definitions, List.map_cons, ih, Segment.starts]

/-- Only a whole program halts. -/
theorem halt_not_mem_plains (h : Covers halts inside frames o p) : .halt ∉ p.plains := by
  induction h with
  | nothing => nofun
  | one hi =>
    intro hmem
    rcases List.mem_singleton.mp hmem with rfl
    exact hi
  | join _ _ ihp ihq | seq _ _ ihp ihq | choice _ _ ihp ihq | loop _ _ ihp ihq =>
    simp [Segment.plains, ihp, ihq]
  | skip _ ih | rounds _ ih | scope _ ih | function _ ih =>
    simp [Segment.plains, Segment.scope, ih]

end Covers

/-! ### Contexts of parts -/

namespace Outline

/-- No function without a jump over it stands at the start. -/
def Guarded : Outline → Prop
  | .code _ _ => True
  | .seq p q => p.Guarded ∧ q.Guarded
  | .scope _ => True
  | .function guard _ _ => 0 < guard

/-- The scopes around are open at the start. -/
theorem context_start {o : Outline} (h : o.Guarded) (a : Nat) (around : List Layer) :
    o.context a around a = around := by
  induction o generalizing a with
  | code words locals => rfl
  | seq p q ihp ihq =>
    simp only [context]
    split
    · exact ihp h.1 a
    · have hzero : a + p.size = a := by omega
      rw [hzero]
      exact ihq h.2 a
  | scope body ih => rw [context, if_neg (by omega)]
  | function guard params body ih =>
    have hpos : 0 < guard := h
    rw [context, if_neg (by omega)]

/-- The function gives the addresses from the start of the outline to its end the scopes that are
    open there. -/
def Agrees (c : Nat → List Layer) (a : Nat) (around : List Layer) (o : Outline) : Prop :=
  ∀ b, a ≤ b → b ≤ a + o.size → c b = o.context a around b

namespace Agrees

variable {c : Nat → List Layer} {a : Nat} {around : List Layer} {o p q : Outline}

theorem start (h : o.Agrees c a around) (hguarded : o.Guarded) : c a = around := by
  rw [h a (Nat.le_refl _) (Nat.le_add_right ..), context_start hguarded]

theorem finish (h : o.Agrees c a around) : c (a + o.size) = around := by
  rw [h _ (Nat.le_add_right ..) (Nat.le_refl _), context_end]

theorem left (h : (seq p q).Agrees c a around) (hguarded : q.Guarded) : p.Agrees c a around := by
  intro b hstart hend
  rw [h b hstart (by simp only [size]; omega), context]
  split
  · rfl
  · -- the end of the first part is the start of the second one
    have hb : b = a + p.size := by omega
    rw [hb, context_start hguarded, context_end]

theorem right (h : (seq p q).Agrees c a around) : q.Agrees c (a + p.size) around := by
  intro b hstart hend
  rw [h b (by omega) (by simp only [size]; omega), context, if_neg (by omega)]

theorem scope (h : (Outline.scope o).Agrees c a around) :
    o.Agrees c (a + 1) (.scope o.locals :: around) := by
  intro b hstart hend
  rw [h b (by omega) (by simp only [size]; omega), context, if_pos ⟨hstart, hend⟩]

theorem function {guard params : Nat} (h : (Outline.function guard params o).Agrees c a around) :
    o.Agrees c (a + guard) (.function (a + guard) (params + o.locals) :: around) := by
  intro b hstart hend
  rw [h b (by omega) (by simp only [size]; omega), context, if_pos ⟨hstart, hend⟩]

end Agrees

end Outline

/-! ### What instructions do to the open scopes -/

/-- The numbers of variables of the open scopes, and that of the whole program behind them. -/
def Layer.counts (root : Nat) (layers : List Layer) : List Nat :=
  layers.map Layer.locals ++ [root]

/-- One of the scopes is that of a function. -/
def Layer.InFunction (layers : List Layer) : Prop :=
  ∃ layer ∈ layers, layer.isScope = false

/-- An instruction of a tree leads from the open scopes `x` to `y`.  It finds its variable in one of
    them or among the `root` variables of the whole program, and returns only from functions. -/
def Plain.Moves (root : Nat) (x y : List Layer) : Plain → Prop
  | .enterScope => ∃ count, y = .scope count :: x
  | .exitScope => ∃ count, x = .scope count :: y
  | .ret | .retValue => Layer.InFunction x
  | .halt => False
  | .load depth slot | .store depth slot =>
    y = x ∧ ∃ count, (Layer.counts root x)[depth]? = some count ∧ slot < count
  | _ => y = x

/-- The scopes that are open before an instruction and where control goes from it are those that
    the instruction leads from and to. -/
def Instruction.Fits (root : Nat) (c : Nat → List Layer) (a : Nat) : Instruction → Prop
  | .plain i => i.Moves root (c a) (c (a + i.size))
  | .jump kind target => c target = c a ∧ (kind ≠ .always → c (a + 2) = c a)

theorem Plain.Ordinary.moves {inside : Bool} {root : Nat} {layers : List Layer} {i : Plain}
    (h : i.Ordinary inside (Layer.counts root layers))
    (hinside : inside = true → Layer.InFunction layers) : i.Moves root layers layers := by
  cases i with
  | enterScope | exitScope | halt => exact h.elim
  | ret | retValue => exact hinside h
  | load depth slot | store depth slot => exact ⟨rfl, h⟩
  | _ => rfl

/-- Where the same scopes are open everywhere, a jump is fine. -/
theorem Instruction.fits_jump {root : Nat} {c : Nat → List Layer} {around : List Layer}
    {a target : Nat} (kind : Jump) (hstart : c a = around) (htarget : c target = around)
    (hnext : c (a + 2) = around) : (Instruction.jump kind target).Fits root c a :=
  ⟨htarget.trans hstart.symm, fun _ => hnext.trans hstart.symm⟩

namespace Segment

/-- Every instruction of the segment fits the open scopes. -/
def Fits (root : Nat) (c : Nat → List Layer) (a : Nat) (p : Segment) : Prop :=
  ∀ ⦃b i⦄, (b, i) ∈ located a (p.code a) → i.Fits root c b

variable {root a : Nat} {c : Nat → List Layer} {p q : Segment}

theorem fits_nothing : nothing.Fits root c a := nofun

theorem fits_one {i : Plain} (h : i.Moves root (c a) (c (a + i.size))) : (one i).Fits root c a := by
  intro b j hmem
  rcases List.mem_cons.mp hmem with heq | hmem
  · cases heq
    exact h
  · cases hmem

namespace Fits

theorem seq (hp : p.Fits root c a) (hq : q.Fits root c (a + p.size)) :
    (Segment.seq p q).Fits root c a := by
  intro b i hmem
  rw [code, located_append, sizes_code] at hmem
  rcases List.mem_append.mp hmem with hmem | hmem
  · exact hp hmem
  · exact hq hmem

theorem skip {kind : Jump} (hjump : (Instruction.jump kind (a + 2 + p.size)).Fits root c a)
    (hp : p.Fits root c (a + 2)) : (Segment.skip kind p).Fits root c a := by
  intro b i hmem
  rcases List.mem_cons.mp hmem with heq | hmem
  · cases heq
    exact hjump
  · exact hp hmem

theorem choice (htest : (Instruction.jump .ifFalse (a + 2 + p.size + 2)).Fits root c a)
    (hp : p.Fits root c (a + 2))
    (hskip : (Instruction.jump .always (a + 2 + p.size + 2 + q.size)).Fits root c (a + 2 + p.size))
    (hq : q.Fits root c (a + 2 + p.size + 2)) : (Segment.choice p q).Fits root c a := by
  intro b i hmem
  simp only [code, located, located_append, List.mem_cons, List.mem_append, sizes_code,
    Prod.mk.injEq, Instruction.size] at hmem
  rcases hmem with ⟨rfl, rfl⟩ | hmem | ⟨rfl, rfl⟩ | hmem
  · exact htest
  · exact hp hmem
  · exact hskip
  · exact hq hmem

theorem loop (hp : p.Fits root c a)
    (htest : (Instruction.jump .ifFalse (a + p.size + 2 + q.size + 2)).Fits root c (a + p.size))
    (hq : q.Fits root c (a + p.size + 2))
    (hback : (Instruction.jump .always a).Fits root c (a + p.size + 2 + q.size)) :
    (Segment.loop p q).Fits root c a := by
  intro b i hmem
  simp only [code, located, located_append, List.mem_cons, List.mem_append, sizes_code,
    Prod.mk.injEq, Instruction.size, List.not_mem_nil, or_false] at hmem
  rcases hmem with hmem | ⟨rfl, rfl⟩ | hmem | ⟨rfl, rfl⟩
  · exact hp hmem
  · exact htest
  · exact hq hmem
  · exact hback

theorem rounds {back : Jump} (hp : p.Fits root c a)
    (hback : (Instruction.jump back a).Fits root c (a + p.size)) :
    (Segment.rounds p back).Fits root c a := by
  intro b i hmem
  simp only [code, located, located_append, List.mem_cons, List.mem_append, sizes_code,
    Prod.mk.injEq, List.not_mem_nil, or_false] at hmem
  rcases hmem with hmem | ⟨rfl, rfl⟩
  · exact hp hmem
  · exact hback

theorem scope (hopen : ∃ count, c (a + 1) = .scope count :: c a) (hp : p.Fits root c (a + 1))
    (hclose : ∃ count, c (a + 1 + p.size) = .scope count :: c (a + 1 + p.size + 1)) :
    (Segment.scope p).Fits root c a := by
  have henter : (one .enterScope).Fits root c a := fits_one hopen
  have hexit : (one .exitScope).Fits root c (a + 1 + p.size) := fits_one hclose
  exact henter.seq (hp.seq hexit)

theorem function {guarded : Bool}
    (hguard : (Instruction.jump .always (a + guardSize guarded + p.size + 1)).Fits root c a)
    (hp : p.Fits root c (a + guardSize guarded))
    (hret : Layer.InFunction (c (a + guardSize guarded + p.size))) :
    (Segment.function guarded p).Fits root c a := by
  intro b i hmem
  simp only [code, located, located_append, List.mem_cons, List.mem_append, sizes_code,
    sizes_guardCode, Prod.mk.injEq, List.not_mem_nil, or_false] at hmem
  rcases hmem with hmem | hmem | ⟨rfl, rfl⟩
  · cases guarded with
    | false => cases hmem
    | true =>
      rcases List.mem_cons.mp hmem with heq | hmem
      · cases heq
        exact hguard
      · cases hmem
  · exact hp hmem
  · exact hret

end Fits

end Segment

namespace Covers

variable {halts inside : Bool} {frames : List Nat} {o : Outline} {p : Segment}

/-- Where functions are jumped over, no code starts with the body of one. -/
theorem guarded (h : Covers halts inside frames o p) (hguard : (inside || halts) = true) :
    o.Guarded := by
  induction h with
  | nothing | one | join => trivial
  | seq _ _ ihp ihq => exact ⟨ihp hguard, ihq hguard⟩
  | skip _ ih => exact ⟨trivial, ih hguard⟩
  | choice _ _ ihp ihq => exact ⟨trivial, ihp hguard, trivial, ihq hguard⟩
  | loop _ _ ihp ihq => exact ⟨ihp hguard, trivial, ihq hguard, trivial⟩
  | rounds _ ih => exact ⟨ih hguard, trivial⟩
  | scope => trivial
  | function =>
    rw [hguard]
    exact Nat.zero_lt_two

/-- **Control keeps to the scopes of the outline.** -/
theorem fits {root a : Nat} {c : Nat → List Layer} {around : List Layer}
    (h : Covers halts inside frames o p) (hguard : (inside || halts) = true)
    (hinside : inside = true → Layer.InFunction around)
    (hframes : frames = Layer.counts root around) (hc : o.Agrees c a around) : p.Fits root c a := by
  induction h generalizing a around with
  | nothing => exact Segment.fits_nothing
  | @one inside frames locals i hi =>
    have hstart := hc.start trivial
    have hfinish : c (a + i.size) = around := hc.finish
    apply Segment.fits_one
    rw [hframes] at hi
    rw [hstart, hfinish]
    exact hi.moves hinside
  | @join inside frames words locals more others p q hp hq ihp ihq =>
    -- words without a scope among them are all in the scopes around
    have hsize : words = p.size := hp.size_eq
    have hall (b : Nat) (hstart : a ≤ b) (hend : b ≤ a + (words + more)) : c b = around :=
      hc b hstart hend
    refine .seq (ihp hguard hinside hframes ?_) (ihq hguard hinside hframes ?_)
    · intro b hstart hend
      simp only [Outline.size] at hend
      exact hall b hstart (by omega)
    · intro b hstart hend
      simp only [Outline.size] at hend
      exact hall b (by omega) (by omega)
  | seq hp hq ihp ihq =>
    have hright := hc.right
    rw [hp.size_eq] at hright
    exact .seq (ihp hguard hinside hframes (hc.left (hq.guarded hguard)))
      (ihq hguard hinside hframes hright)
  | skip hp ih =>
    have hbody := hc.right
    have hstart := hc.start ⟨trivial, hp.guarded hguard⟩
    have hfinish := hbody.finish
    rw [hp.size_eq] at hfinish
    exact .skip (fits_jump _ hstart hfinish (hbody.start (hp.guarded hguard)))
      (ih hguard hinside hframes hbody)
  | @choice inside frames o r p q hp hq ihp ihq =>
    have hbody := hc.right.left ⟨trivial, hq.guarded hguard⟩
    have hother : r.Agrees c (a + 2 + p.size + 2) around := by
      have hright := hc.right.right.right
      rwa [hp.size_eq] at hright
    have hstart := hc.start ⟨trivial, hp.guarded hguard, trivial, hq.guarded hguard⟩
    have hskip := hbody.finish
    have hfinish := hother.finish
    have hnext := hother.start (hq.guarded hguard)
    rw [hp.size_eq] at hskip
    rw [hq.size_eq] at hfinish
    exact .choice (fits_jump _ hstart hnext (hbody.start (hp.guarded hguard)))
      (ihp hguard hinside hframes hbody) (fits_jump _ hskip hfinish hnext)
      (ihq hguard hinside hframes hother)
  | @loop inside frames o r p q hp hq ihp ihq =>
    have hcond := hc.left ⟨trivial, hq.guarded hguard, trivial⟩
    have hrest := hc.right
    rw [hp.size_eq] at hrest
    have hbody := hrest.right.left trivial
    have hback := hrest.right.right
    rw [hq.size_eq] at hback
    have hstart := hcond.start (hp.guarded hguard)
    have htest := hrest.start ⟨trivial, hq.guarded hguard, trivial⟩
    have hfinish := hback.finish
    exact .loop (ihp hguard hinside hframes hcond)
      (fits_jump _ htest hfinish (hbody.start (hq.guarded hguard)))
      (ihq hguard hinside hframes hbody) (fits_jump _ (hback.start trivial) hstart hfinish)
  | @rounds inside frames o p back hp ih =>
    have hbody := hc.left trivial
    have hback := hc.right
    rw [hp.size_eq] at hback
    exact .rounds (ih hguard hinside hframes hbody)
      (fits_jump _ (hback.start trivial) (hbody.start (hp.guarded hguard)) hback.finish)
  | @scope inside frames o p hp ih =>
    have hbody := hc.scope
    have hstart := hc.start trivial
    have hfirst := hbody.start (hp.guarded hguard)
    have hlast := hbody.finish
    have hfinish : c (a + 1 + o.size + 1) = around := by
      have hend := hc.finish
      rwa [Outline.size, ← Nat.add_assoc, ← Nat.add_assoc] at hend
    have hopen (h : inside = true) : Layer.InFunction (.scope o.locals :: around) := by
      obtain ⟨layer, hlayer, hfunction⟩ := hinside h
      exact ⟨layer, List.mem_cons_of_mem _ hlayer, hfunction⟩
    rw [← hstart] at hfirst
    rw [← hfinish] at hlast
    rw [hp.size_eq] at hlast
    have hinner : p.Fits root c (a + 1) := ih hguard hopen (by rw [hframes]; rfl) hbody
    exact .scope ⟨o.locals, hfirst⟩ hinner ⟨o.locals, hlast⟩
  | @function inside frames params o p hp ih =>
    have hbody := hc.function
    have hlast := hbody.finish
    have hfinish := hc.finish
    have hstart : c a = around := by
      refine hc.start ?_
      rw [hguard]
      exact Nat.zero_lt_two
    have hinner := ih rfl (fun _ => ⟨_, List.mem_cons_self .., rfl⟩) (by rw [hframes]; rfl) hbody
    refine .function ⟨?_, fun hkind => (hkind rfl).elim⟩ hinner ?_
    · rw [hstart, ← hp.size_eq, Nat.add_assoc, Nat.add_assoc, ← Nat.add_assoc _ o.size]
      exact hfinish
    · rw [← hp.size_eq, hlast]
      exact ⟨_, List.mem_cons_self .., rfl⟩

end Covers

/-! ### The code of functions -/

/-- The code of the function is among the instructions: its body, and a return behind it. -/
def Definition.Among (halts : Bool) (root : Nat) (code : List (Address × Instruction))
    (d : Definition) : Prop :=
  ∃ q, Covers halts true (Layer.counts root d.base) d.body q ∧
    located d.start (q.code d.start ++ [.plain .ret]) ⊆ code

theorem Definition.Among.mono {halts : Bool} {root : Nat}
    {code more : List (Address × Instruction)} {d : Definition} (h : d.Among halts root code)
    (hmore : code ⊆ more) : d.Among halts root more := by
  obtain ⟨q, hq, hcode⟩ := h
  exact ⟨q, hq, List.Subset.trans hcode hmore⟩

/-- The code of every function of the outline is among the instructions of the segment. -/
theorem Covers.among {halts inside : Bool} {frames : List Nat} {o : Outline} {p : Segment}
    {root a : Nat} {around : List Layer} {d : Definition} (h : Covers halts inside frames o p)
    (hframes : frames = Layer.counts root around) (hd : d ∈ o.definitions a around) :
    d.Among halts root (located a (p.code a)) := by
  induction h generalizing a around with
  | nothing | one | join => cases hd
  | seq hp _ ihp ihq =>
    simp only [Segment.code, located_append, Segment.sizes_code]
    rcases List.mem_append.mp hd with hd | hd
    · exact (ihp hframes hd).mono (List.subset_append_left ..)
    · rw [hp.size_eq] at hd
      exact (ihq hframes hd).mono (List.subset_append_right ..)
  | skip _ ih => exact (ih hframes hd).mono (List.subset_cons_self ..)
  | choice hp _ ihp ihq =>
    simp only [Segment.code, located, located_append, Segment.sizes_code, Instruction.size]
    rcases List.mem_append.mp hd with hd | hd
    · cases hd
    · rcases List.mem_append.mp hd with hd | hd
      · exact (ihp hframes hd).mono
          (List.subset_cons_of_subset _ (List.subset_append_left ..))
      · rw [hp.size_eq] at hd
        exact (ihq hframes hd).mono (List.subset_cons_of_subset _
          (List.subset_append_of_subset_right _ (List.subset_cons_self ..)))
  | loop hp _ ihp ihq =>
    simp only [Segment.code, located, located_append, Segment.sizes_code, Instruction.size]
    rcases List.mem_append.mp hd with hd | hd
    · exact (ihp hframes hd).mono (List.subset_append_left ..)
    · simp only [Outline.definitions, Outline.words, List.nil_append, List.append_nil,
        Outline.size, hp.size_eq] at hd
      exact (ihq hframes hd).mono (List.subset_append_of_subset_right _
        (List.subset_cons_of_subset _ (List.subset_append_left ..)))
  | rounds _ ih =>
    simp only [Outline.definitions, Outline.words, List.append_nil] at hd
    rw [Segment.code, located_append]
    exact (ih hframes hd).mono (List.subset_append_left ..)
  | scope _ ih =>
    simp only [Segment.scope, Segment.code, located_append, Segment.size]
    exact (ih (by rw [hframes]; rfl) hd).mono
      (List.subset_append_of_subset_right _ (List.subset_append_left ..))
  | @function inside frames params o p hp ih =>
    have hbody : located (a + Segment.guardSize (inside || halts))
        (p.code (a + Segment.guardSize (inside || halts)) ++ [.plain .ret]) ⊆
        located a ((Segment.function (inside || halts) p).code a) := by
      rw [Segment.code, located_append _ (Segment.guardCode _ _), Segment.sizes_guardCode]
      exact List.subset_append_right ..
    rcases List.mem_cons.mp hd with rfl | hd
    · rw [hframes] at hp
      exact ⟨p, hp, hbody⟩
    · refine ((ih (by rw [hframes]; rfl) hd).mono ?_).mono hbody
      rw [located_append]
      exact List.subset_append_left ..

end SceneCode
