import SceneCode.Proofs.Lexical.Covering
import SceneCode.Proofs.Relocation.Guarding
import SceneCode.Proofs.Relocation.Spans

/-!
# Code with jumps over functions

A segment without jumps over its functions is compared, instruction by instruction, with the segment
that has them.  Inside of a function all addresses change by the same number, since the functions
there have their jumps already.  Outside the difference grows by two words with each function.
-/

namespace SceneCode

open Instruction

variable {move : Address → Address} {inside : Bool} {frames : List Nat} {o : Outline}
  {p : Segment}

/-! ### Inside of functions -/

/-- The instruction in code that starts so many words further on. -/
def Instruction.shift (move : Address → Address) (distance : Nat) : Instruction → Instruction
  | .plain i => .plain (i.relocate move)
  | .jump kind target => .jump kind (target + distance)

namespace Covers

theorem size_guard_inside (h : Covers false inside frames o p) (hinside : inside = true) :
    (p.guard move).size = p.size := by
  induction h with
  | nothing => rfl
  | one _ => exact Plain.size_relocate _
  | join _ _ ihp ihq | seq _ _ ihp ihq | choice _ _ ihp ihq | loop _ _ ihp ihq =>
    simp only [Segment.guard, Segment.size, ihp hinside, ihq hinside]
  | skip _ ih | rounds _ ih => simp only [Segment.guard, Segment.size, ih hinside]
  | scope _ ih => rw [Segment.guard_scope, Segment.size_scope, Segment.size_scope, ih hinside]
  | function _ ih => simp only [Segment.guard, Segment.size, ih rfl, hinside, Bool.true_or]

/-- Inside of a function only addresses change. -/
theorem code_guard_inside (h : Covers false inside frames o p) (hinside : inside = true)
    (a d : Nat) : (p.guard move).code (a + d) = (p.code a).map (Instruction.shift move d) := by
  induction h generalizing a with
  | nothing => rfl
  | one _ => rfl
  | join hp _ ihp ihq | seq hp _ ihp ihq =>
    rw [Segment.guard, Segment.code, Segment.code, hp.size_guard_inside hinside,
      Nat.add_right_comm a d, ihp hinside, ihq hinside, List.map_append]
  | skip hp ih =>
    rw [Segment.guard, Segment.code, Segment.code, hp.size_guard_inside hinside,
      Nat.add_right_comm a d, ih hinside, Nat.add_right_comm (a + 2) d]
    rfl
  | choice hp hq ihp ihq =>
    simp only [Segment.guard, Segment.code, hp.size_guard_inside hinside,
      hq.size_guard_inside hinside, Nat.add_right_comm _ d, ihp hinside, ihq hinside,
      List.map_cons, List.map_append, Instruction.shift]
  | loop hp hq ihp ihq =>
    simp only [Segment.guard, Segment.code, hp.size_guard_inside hinside,
      hq.size_guard_inside hinside, Nat.add_right_comm _ d, ihp hinside, ihq hinside,
      List.map_cons, List.map_append, List.map_nil, Instruction.shift]
  | rounds _ ih =>
    simp only [Segment.guard, Segment.code, ih hinside, List.map_cons, List.map_append,
      List.map_nil, Instruction.shift]
  | scope _ ih =>
    rw [Segment.guard_scope]
    simp only [Segment.scope, Segment.code, Segment.size, Nat.add_right_comm _ d, ih hinside,
      List.map_cons, List.map_append, List.map_nil, Instruction.shift, Plain.relocate]
  | function hp ih =>
    simp only [hinside, Bool.true_or, Segment.guard, Segment.code, Segment.guardSize,
      Segment.guardCode, if_true, hp.size_guard_inside rfl, Nat.add_right_comm _ d, ih rfl,
      List.map_cons, List.map_append, List.map_nil, Instruction.shift, Plain.relocate]

theorem starts_guard_inside (h : Covers false inside frames o p) (hinside : inside = true)
    (a d : Nat) : (p.guard move).starts (a + d) = (p.starts a).map (· + d) := by
  induction h generalizing a with
  | nothing => rfl
  | one _ => rfl
  | join hp _ ihp ihq | seq hp _ ihp ihq | choice hp _ ihp ihq | loop hp _ ihp ihq =>
    simp only [Segment.guard, Segment.starts, hp.size_guard_inside hinside,
      Nat.add_right_comm _ d, ihp hinside, ihq hinside, List.map_append]
  | skip _ ih | rounds _ ih =>
    simp only [Segment.guard, Segment.starts, Nat.add_right_comm _ d, ih hinside]
  | scope _ ih =>
    rw [Segment.guard_scope, Segment.starts_scope, Segment.starts_scope, Nat.add_right_comm,
      ih hinside]
  | function _ ih =>
    simp only [hinside, Bool.true_or, Segment.guard, Segment.starts, Segment.guardSize, if_true,
      Nat.add_right_comm _ d, ih rfl, List.map_cons]

end Covers

/-! ### Outside of functions -/

open Spans

/-- The instruction that stood at the address `a`, with other addresses among its operands. -/
def Instruction.relocate (fs : List Span) (a : Address) : Instruction → Instruction
  | .plain i => .plain (i.relocate (entry fs))
  | .jump kind b => .jump kind (target fs a b)

/-- The words that instructions become, each with the jump before it if a function starts there. -/
def Instruction.relocated (fs : List Span) (a : Address) (is : List Instruction) : List Word :=
  (located a is).flatMap fun (b, i) => guards fs b ++ (i.relocate fs b).words

namespace Instruction

variable {fs : List Span}

theorem relocated_append (a : Nat) (is js : List Instruction) :
    relocated fs a (is ++ js) = relocated fs a is ++ relocated fs (a + sizes is) js := by
  unfold relocated
  rw [located_append, List.flatMap_append]

theorem relocated_cons (a : Nat) (i : Instruction) (is : List Instruction) :
    relocated fs a (i :: is) =
      guards fs a ++ (i.relocate fs a).words ++ relocated fs (a + i.size) is := rfl

/-- An instruction where no function starts. -/
theorem relocated_plain {a : Nat} (i : Plain) (is : List Instruction) (hguards : guards fs a = []) :
    relocated fs a (.plain i :: is) =
      (Instruction.plain (i.relocate (entry fs))).words ++ relocated fs (a + i.size) is := by
  rw [relocated_cons, hguards]
  rfl

/-- A jump where no function starts. -/
theorem relocated_jump {a b c : Nat} (kind : Jump) (is : List Instruction)
    (hguards : guards fs a = []) (htarget : target fs a b = c) :
    relocated fs a (.jump kind b :: is) =
      (Instruction.jump kind c).words ++ relocated fs (a + 2) is := by
  rw [relocated_cons, hguards, relocate, htarget]
  rfl

/-- Instructions among which no function starts, and which are all moved by the same distance. -/
theorem relocated_eq_encode {a d : Nat} {is : List Instruction}
    (h : ∀ b i, (b, i) ∈ located a is → guards fs b = [] ∧ i.relocate fs b = i.shift move d) :
    relocated fs a is = encode (is.map (.shift move d)) := by
  induction is generalizing a with
  | nil => rfl
  | cons i rest ih =>
    obtain ⟨hguards, hmoved⟩ := h a i (List.mem_cons_self ..)
    rw [relocated_cons, hguards, hmoved, ih fun b j hj => h b j (List.mem_cons_of_mem _ hj)]
    rfl

end Instruction

namespace Covers

variable {fs before after : List Span} {a : Nat}

theorem size_guard (h : Covers false inside frames o p) (hinside : inside = false) (a : Nat) :
    (p.guard move).size = p.size + 2 * (o.spans a).length := by
  induction h generalizing a with
  | nothing => rfl
  | one _ => exact Plain.size_relocate _
  | join _ _ ihp ihq =>
    have hp := ihp hinside a
    have hq := ihq hinside a
    simp only [Outline.spans, List.length_nil] at hp hq
    simp only [Segment.guard, Segment.size, Outline.spans, List.length_nil, hp, hq]
    omega
  | @seq _ _ o _ _ _ _ _ ihp ihq =>
    simp only [Segment.guard, Segment.size, Outline.spans, List.length_append, ihp hinside a,
      ihq hinside (a + o.size)]
    omega
  | skip _ ih =>
    have hp := ih hinside (a + 2)
    simp only [Segment.guard, Segment.size, hp, Outline.spans, Outline.words, Outline.size,
      List.nil_append]
    omega
  | @choice _ _ o _ _ _ _ _ ihp ihq =>
    have hp := ihp hinside (a + 2)
    have hq := ihq hinside (a + 2 + o.size + 2)
    simp only [Segment.guard, Segment.size, hp, hq, Outline.spans, Outline.words, Outline.size,
      List.nil_append, List.length_append]
    omega
  | @loop _ _ o _ _ _ _ _ ihp ihq =>
    have hp := ihp hinside a
    have hq := ihq hinside (a + o.size + 2)
    simp only [Segment.guard, Segment.size, hp, hq, Outline.spans, Outline.words, Outline.size,
      List.nil_append, List.append_nil, List.length_append]
    omega
  | rounds _ ih =>
    have hp := ih hinside a
    simp only [Segment.guard, Segment.size, hp, Outline.spans, Outline.words, List.append_nil]
    omega
  | scope _ ih =>
    have hp := ih hinside (a + 1)
    simp only [Segment.guard_scope, Segment.size_scope, hp, Outline.spans]
    omega
  | @function _ _ _ _ p hp ih =>
    have hsize : (p.guard move).size = p.size := hp.size_guard_inside rfl
    simp only [hinside, Bool.false_or, Segment.guard, Segment.size, Segment.guardSize, if_true,
      Bool.false_eq_true, if_false, hsize, Outline.spans, List.length_singleton]
    omega

/-- Where a part of the code goes on in the one segment and in the other. -/
theorem behind (h : Covers false false frames o p) (move : Address → Address) (a : Nat)
    (before : List Span) :
    a + 2 * before.length + (p.guard move).size =
      a + o.size + 2 * (before ++ o.spans a).length := by
  rw [h.size_guard rfl a, h.size_eq, List.length_append]
  omega

/-- Every function is called where it starts. -/
theorem aligned (h : Covers false inside frames o p) (hinside : inside = false)
    (hfs : Around fs a o before after) : p.Aligned (entry fs) a (a + 2 * before.length) := by
  unfold Segment.Aligned
  induction h generalizing a before after with
  | nothing => rfl
  | one _ => rfl
  | join hp _ ihp ihq =>
    subst hinside
    have hparts := hfs.join
    rw [Segment.guard, Segment.starts, Segment.starts, hp.behind, ← hp.size_eq, List.map_append,
      ihp rfl hparts.first, ihq rfl hparts.second]
  | seq hp _ ihp ihq =>
    subst hinside
    rw [Segment.guard, Segment.starts, Segment.starts, hp.behind, ← hp.size_eq, List.map_append,
      ihp rfl hfs.first, ihq rfl hfs.second]
  | skip _ ih =>
    rw [Segment.guard, Segment.starts, Segment.starts, ih hinside hfs.behindWords,
      Nat.add_right_comm]
  | choice hp _ ihp ihq =>
    subst hinside
    have hparts := hfs.behindWords
    have hnext := hp.behind (entry fs) (a + 2) before
    rw [Nat.add_right_comm a] at hnext
    rw [Segment.guard, Segment.starts, Segment.starts, hnext,
      Nat.add_right_comm a (2 * before.length), Nat.add_right_comm (a + 2 + _), ← hp.size_eq,
      List.map_append, ihp rfl hparts.first, ihq rfl hparts.second.behindWords]
  | loop hp _ ihp ihq =>
    subst hinside
    rw [Segment.guard, Segment.starts, Segment.starts, hp.behind, Nat.add_right_comm (a + _),
      ← hp.size_eq, List.map_append, ihp rfl hfs.first, ihq rfl hfs.second.behindWords.first]
  | rounds _ ih => exact ih hinside hfs.first
  | scope _ ih =>
    rw [Segment.guard_scope, Segment.starts_scope, Segment.starts_scope,
      ih hinside hfs.scope.behindWords.first, Nat.add_right_comm]
  | @function _ _ params o p hp ih =>
    subst hinside
    have hfs : Around fs a (.function 0 params o) before after := hfs
    have hentry : entry fs a = a + 2 * (before.length + 1) :=
      hfs.entry_inside (Nat.le_refl a) (Nat.le_add_right a _)
    have hinner : (p.starts a).map (entry fs) = (p.starts a).map (· + 2 * (before.length + 1)) := by
      apply List.map_congr_left
      intro b hb
      obtain ⟨i, hi⟩ := Segment.mem_located_of_mem_starts hb
      have hbounds := bounds_of_mem_located hi
      rw [Segment.sizes_code, ← hp.size_eq] at hbounds
      exact hfs.entry_inside hbounds.1 (by omega)
    change entry fs a :: (p.starts a).map (entry fs) =
      (a + 2 * before.length + 2) :: (p.guard (entry fs)).starts (a + 2 * before.length + 2)
    have hstart : a + 2 * before.length + 2 = a + 2 * (before.length + 1) := by omega
    rw [hstart, hentry, hinner, hp.starts_guard_inside rfl]

/-- Every instruction of a function is moved by as many words as the function itself. -/
theorem relocate_inside {params : Nat} (h : Covers false true frames o p)
    (hfs : Around fs a (.function 0 params o) before after) {b : Nat} {i : Instruction}
    (hi : (b, i) ∈ located a (p.code a ++ [.plain .ret])) :
    i.relocate fs b = i.shift (entry fs) (2 * (before.length + 1)) := by
  cases i with
  | plain i => rfl
  | jump kind c =>
    have hjump : (b, .jump kind c) ∈ located a (p.code a) := by
      rw [located_append] at hi
      rcases List.mem_append.mp hi with hi | hi
      · exact hi
      · simp [located] at hi
    have hsite := bounds_of_mem_located hjump
    have htarget := (Segment.boundary_of_jump hjump).bounds
    rw [Segment.sizes_code, ← h.size_eq] at hsite htarget
    rw [relocate, hfs.target_inside ⟨hsite.1, by omega⟩ htarget.1 htarget.2]
    rfl

/-- The code of a function has the jump before it and is the same otherwise. -/
theorem relocated_function {params : Nat} (h : Covers false true frames o p)
    (hfs : Around fs a (.function 0 params o) before after) :
    relocated fs a (p.code a ++ [Instruction.plain .ret]) = guards fs a ++
      encode ((p.code a ++ [Instruction.plain .ret]).map
        (.shift (entry fs) (2 * (before.length + 1)))) := by
  have hsize : sizes (p.code a ++ [.plain .ret]) = o.size + 1 := by
    rw [sizes_append, Segment.sizes_code, ← h.size_eq]
    rfl
  have hmoved {b : Nat} {i : Instruction} := h.relocate_inside hfs (b := b) (i := i)
  -- the first instruction has the jump before it, and it need not be part of the body
  cases hcode : p.code a ++ [Instruction.plain .ret] with
  | nil => simp at hcode
  | cons i rest =>
    rw [hcode] at hsize hmoved
    rw [relocated_cons, hmoved (List.mem_cons_self ..), List.map_cons, encode_cons,
      List.append_assoc]
    congr 2
    apply relocated_eq_encode
    intro b j hj
    have hbounds := bounds_of_mem_located hj
    have hpos := size_pos i
    have hpos' := size_pos j
    rw [sizes_cons] at hsize
    exact ⟨hfs.guards_inside (by omega) (by omega), hmoved (List.mem_cons_of_mem _ hj)⟩

theorem words_guard_function {params : Nat} (h : Covers false true frames o p)
    (hfs : Around fs a (.function 0 params o) before after) :
    ((Segment.function false p).guard (entry fs)).words (a + 2 * before.length) =
      relocated fs a ((Segment.function false p).code a) := by
  have hstart : a + 2 * before.length + 2 = a + 2 * (before.length + 1) := by omega
  have hfinish : a + 2 * (before.length + 1) + p.size + 1 =
      a + o.size + 1 + 2 * (before.length + 1) := by
    rw [h.size_eq]
    omega
  change encode (.jump .always (a + 2 * before.length + 2 + (p.guard (entry fs)).size + 1) ::
    ((p.guard (entry fs)).code (a + 2 * before.length + 2) ++ [.plain .ret])) =
      relocated fs a (p.code a ++ [Instruction.plain .ret])
  rw [h.relocated_function hfs, hfs.guards_start, hstart, h.code_guard_inside rfl,
    h.size_guard_inside rfl, encode_cons, hfinish, List.map_append]
  rfl

/-- A jump to the end of a part leads to its end. -/
theorem target_finish (h : Covers false false frames o p) (hfs : Around fs a o before after)
    {site : Nat} (hsite : site < a + o.size) :
    target fs site (a + o.size) = a + 2 * before.length + (p.guard (entry fs)).size := by
  rw [h.behind]
  exact hfs.finish.target_ahead hsite

/-- **The code with jumps over all functions is the code without them, moved.**  The induction is on
    the structure of the code; `before` are the functions that have been passed. -/
theorem words_guard (h : Covers false inside frames o p) (hinside : inside = false)
    (hfs : Around fs a o before after) :
    (p.guard (entry fs)).words (a + 2 * before.length) = relocated fs a (p.code a) := by
  unfold Segment.words
  induction h generalizing a before after with
  | nothing => rfl
  | @one _ _ _ i _ =>
    have hguards := hfs.guards_eq_nil (size_pos (.plain i))
    rw [Segment.code, relocated_plain _ _ hguards]
    rfl
  | join hp _ ihp ihq =>
    subst hinside
    have hparts := hfs.join
    rw [Segment.guard, Segment.code, Segment.code, hp.behind, encode_append, relocated_append,
      Segment.sizes_code, ← hp.size_eq, ihp rfl hparts.first, ihq rfl hparts.second]
  | seq hp _ ihp ihq =>
    subst hinside
    rw [Segment.guard, Segment.code, Segment.code, hp.behind, encode_append, relocated_append,
      Segment.sizes_code, ← hp.size_eq, ihp rfl hfs.first, ihq rfl hfs.second]
  | skip hp ih =>
    subst hinside
    have hbody := hfs.behindWords
    have hguards := hfs.first.guards_eq_nil Nat.two_pos
    rw [Segment.guard, Segment.code, Segment.code, ← hp.size_eq, Nat.add_right_comm a _ 2,
      relocated_jump _ _ hguards (hp.target_finish hbody (by omega)), encode_cons, ih rfl hbody]
  | choice hp hq ihp ihq =>
    subst hinside
    -- a function may be the first thing of the other part, and then the jump leads to what is before
    have hparts := hfs.behindWords
    have hsecond := hparts.second
    have hother := hsecond.behindWords
    have hguards := hfs.first.guards_eq_nil Nat.two_pos
    have hguards' := hsecond.first.guards_eq_nil Nat.two_pos
    have hstart := hp.behind (entry fs) (a + 2) before
    rw [Segment.guard, Segment.code, Segment.code, ← hp.size_eq, ← hq.size_eq,
      Nat.add_right_comm a _ 2, hstart, Nat.add_right_comm (a + 2 + _) _ 2,
      relocated_jump _ _ hguards (hother.target_ahead (by omega)), relocated_append,
      Segment.sizes_code, ← hp.size_eq,
      relocated_jump _ _ hguards' (hq.target_finish hother (by omega)), encode_cons, encode_append,
      encode_cons, ihp rfl hparts.first, ihq rfl hother]
  | @loop _ _ o r p q hp hq ihp ihq =>
    subst hinside
    have hsecond := hfs.second
    have hbody := hsecond.behindWords
    have hguards := hsecond.first.guards_eq_nil Nat.two_pos
    have hguards' := hbody.second.guards_eq_nil Nat.two_pos
    -- the jump out of the loop leads behind all of it
    have hfinish : target fs (a + o.size) (a + o.size + 2 + r.size + 2) =
        a + 2 * before.length + (p.guard (entry fs)).size + 2 + (q.guard (entry fs)).size + 2 := by
      have hend := (Covers.loop hp hq).target_finish hfs
        (Nat.add_lt_add_left (Nat.lt_add_of_pos_right (Nat.add_pos_left Nat.two_pos _)) a)
      simpa only [Outline.size, Outline.words, Segment.guard, Segment.size, ← Nat.add_assoc]
        using hend
    rw [Segment.guard, Segment.code, Segment.code, ← hp.size_eq, ← hq.size_eq, relocated_append,
      Segment.sizes_code, ← hp.size_eq, relocated_jump _ _ hguards hfinish, relocated_append,
      Segment.sizes_code, ← hq.size_eq, relocated_jump _ _ hguards' hfs.target_loop, encode_append,
      encode_cons, encode_append, ihp rfl hfs.first, hp.behind, Nat.add_right_comm (a + o.size) _ 2,
      ihq rfl hbody.first]
    rfl
  | rounds hp ih =>
    subst hinside
    have hguards := hfs.second.guards_eq_nil Nat.two_pos
    rw [Segment.guard, Segment.code, Segment.code, relocated_append, Segment.sizes_code,
      ← hp.size_eq, relocated_jump _ _ hguards hfs.target_round, encode_append, ih rfl hfs.first]
    rfl
  | @scope _ _ o p hp ih =>
    subst hinside
    have hparts := hfs.scope
    have hbody := hparts.behindWords
    have hguards := hparts.first.guards_eq_nil Nat.one_pos
    have hguards' := hbody.second.guards_eq_nil Nat.one_pos
    change encode (.plain .enterScope ::
        ((p.guard (entry fs)).code (a + 2 * before.length + 1) ++ [.plain .exitScope])) =
      relocated fs a (.plain .enterScope :: (p.code (a + 1) ++ [.plain .exitScope]))
    have hopen : Plain.enterScope.size = 1 := rfl
    rw [relocated_plain _ _ hguards, hopen, relocated_append, Segment.sizes_code, ← hp.size_eq,
      relocated_plain _ _ hguards', encode_cons, encode_append, Nat.add_right_comm a,
      ih rfl hbody.first]
    rfl
  | function hp _ =>
    subst hinside
    exact hp.words_guard_function hfs

end Covers

end SceneCode
