import SceneCode.Proofs.Lexical.Outline

/-!
# Room for jumps over functions

`Program.relocate` puts a jump before every function of a list, and a halt behind the program.
Everything behind such a jump stands two words further on, so the addresses in the code change, and
one address can change in two ways.  A call of a function leads to the function, behind the jump.  A
jump from outside to where a function starts leads to the jump over it, but one from inside, which
goes back to the start of the body, does not leave the body.

Here are the functions that are not inside another one (`Tree.spans`), and the facts about their
number that addresses depend on.  `Spans.Around` says where a part of the code is among them.
-/

namespace SceneCode

/-- The code of a function, from its label to the return behind its body. -/
structure Span where
  /-- The address of the label. -/
  start : Nat
  /-- The address behind the return. -/
  finish : Nat
deriving DecidableEq, Repr

def Span.contains (f : Span) (a : Nat) : Bool :=
  f.start ≤ a && a < f.finish

/-! ### Programs with other addresses -/

namespace Spans

/-- Where a function is called. -/
def entry (fs : List Span) (a : Nat) : Nat :=
  a + 2 * fs.countP fun f => f.start ≤ a

/-- Where a jump at the address `site` leads. -/
def target (fs : List Span) (site a : Nat) : Nat :=
  a + 2 * (fs.countP fun f => f.start < a) +
    if fs.any fun f => f.start = a && f.contains site then 2 else 0

/-- What stands right before an address: the jump over the function that starts there, if one does,
    which knows how many such jumps there are up to this one. -/
def guards (fs : List Span) (a : Nat) : List Word :=
  (fs.zipIdx 1).flatMap fun (f, i) =>
    if f.start = a then [.op .jump, .addr (f.finish + 2 * i)] else []

end Spans

/-- The words of a row, with the addresses among its operands changed. -/
def Row.relocate (fs : List Span) (r : Row) : List Word :=
  match r.content with
  | .instruction .call [.addr a, count] => [.op .call, .addr (Spans.entry fs a), count]
  | .instruction .jump [.addr a] => [.op .jump, .addr (Spans.target fs r.offset a)]
  | .instruction .jumpIfFalse [.addr a] => [.op .jumpIfFalse, .addr (Spans.target fs r.offset a)]
  | .instruction .jumpIfTrue [.addr a] => [.op .jumpIfTrue, .addr (Spans.target fs r.offset a)]
  | content => content.words

/-- The program with a jump over each of the functions, and a halt at its end. -/
def Program.relocate (fs : List Span) (p : Program) : Program where
  code := (Listing.rows 0 p.code).flatMap (fun r => Spans.guards fs r.offset ++ r.relocate fs) ++
    [.op .halt]
  init := p.init.map (Spans.entry fs)
  render := p.render.map (Spans.entry fs)

/-! ### Functions that are not inside another one -/

/-- The function is not inside another one. -/
def Definition.isOuter (d : Definition) : Bool :=
  d.around.all Layer.isScope

def Definition.span (d : Definition) : Span :=
  ⟨d.start, d.finish + 1⟩

/-- The functions of a tree that are not inside another one. -/
def Tree.spans (config : Config) (tree : Tree) : List Span :=
  ((tree.definitions config).filter Definition.isOuter).map Definition.span

namespace Outline

def spans (a : Nat) : Outline → List Span
  | .code _ _ => []
  | .seq p q => p.spans a ++ q.spans (a + p.size)
  | .scope body => body.spans (a + 1)
  | .function guard _ body => [⟨a + guard, a + guard + body.size + 1⟩]

theorem map_span_filter_definitions {o : Outline} {a : Nat} {around : List Layer}
    (h : around.all Layer.isScope = true) :
    ((o.definitions a around).filter Definition.isOuter).map Definition.span = o.spans a := by
  induction o generalizing a around with
  | code words locals => rfl
  | seq p q ihp ihq =>
    rw [definitions, List.filter_append, List.map_append, ihp h, ihq h, spans]
  | scope body ih =>
    apply ih
    rw [List.all_cons, h]
    rfl
  | function guard params body ih =>
    have hinner :
        (body.definitions (a + guard) (.function (a + guard) (params + body.locals) :: around)).filter
          Definition.isOuter = [] := by
      apply List.filter_eq_nil_iff.mpr
      intro d hd
      obtain ⟨layers, hlayers⟩ := exists_around_eq hd
      simp [Definition.isOuter, hlayers, Layer.isScope]
    have houter : Definition.isOuter ⟨a + guard, params, body, around⟩ = true := h
    rw [definitions, List.filter_cons_of_pos houter, hinner]
    rfl

theorem bounds_of_mem_spans {o : Outline} {a : Nat} {f : Span} (h : f ∈ o.spans a) :
    a ≤ f.start ∧ f.start < f.finish ∧ f.finish ≤ a + o.size := by
  induction o generalizing a with
  | code words locals => cases h
  | seq p q ihp ihq =>
    simp only [size]
    rcases List.mem_append.mp h with h | h
    · have := ihp h
      omega
    · have := ihq h
      omega
  | scope body ih =>
    simp only [size]
    have := ih h
    omega
  | function guard params body ih =>
    rw [List.mem_singleton.mp h]
    simp only [size]
    omega

/-- One function ends before the next one starts. -/
theorem pairwise_spans (o : Outline) (a : Nat) :
    (o.spans a).Pairwise fun f g => f.finish ≤ g.start := by
  induction o generalizing a with
  | code words locals => exact List.Pairwise.nil
  | seq p q ihp ihq =>
    refine List.pairwise_append.mpr ⟨ihp a, ihq _, ?_⟩
    intro f hf g hg
    exact Nat.le_trans (bounds_of_mem_spans hf).2.2 (bounds_of_mem_spans hg).1
  | scope body ih => exact ih (a + 1)
  | function guard params body ih => exact List.pairwise_singleton ..

end Outline

theorem Tree.spans_eq (config : Config) (tree : Tree) :
    tree.spans config = (tree.wholeOutline config).spans 0 :=
  Outline.map_span_filter_definitions rfl

/-! ### A part of the code among the functions -/

namespace Spans

/-- The functions of a part of the code that starts at `a`, among all functions: some are before the
    part and some behind it. -/
structure Around (fs : List Span) (a : Nat) (o : Outline) (before after : List Span) :
    Prop where
  split : fs = before ++ o.spans a ++ after
  below : ∀ f ∈ before, f.start < f.finish ∧ f.finish ≤ a
  above : ∀ f ∈ after, a + o.size ≤ f.start

namespace Around

variable {fs before after : List Span} {a : Nat} {o r : Outline}

theorem whole (o : Outline) : Around (o.spans 0) 0 o [] [] where
  split := by simp
  below := nofun
  above := nofun

theorem first (h : Around fs a (.seq o r) before after) :
    Around fs a o before (r.spans (a + o.size) ++ after) where
  split := by simpa [Outline.spans] using h.split
  below := h.below
  above := by
    intro f hf
    rcases List.mem_append.mp hf with hf | hf
    · exact (Outline.bounds_of_mem_spans hf).1
    · have := h.above f hf
      simp only [Outline.size] at this
      omega

theorem second (h : Around fs a (.seq o r) before after) :
    Around fs (a + o.size) r (before ++ o.spans a) after where
  split := by simpa [Outline.spans] using h.split
  below := by
    intro f hf
    rcases List.mem_append.mp hf with hf | hf
    · have := h.below f hf
      omega
    · exact (Outline.bounds_of_mem_spans hf).2
  above := by
    intro f hf
    have := h.above f hf
    simp only [Outline.size] at this
    omega

/-- Words without a function among them make no difference. -/
theorem behindWords {n : Nat} (h : Around fs a (.seq (.words n) o) before after) :
    Around fs (a + n) o before after := by
  have hsecond := h.second
  rwa [Outline.words, Outline.spans, List.append_nil] at hsecond

theorem join {words more locals others : Nat}
    (h : Around fs a (.code (words + more) (locals + others)) before after) :
    Around fs a (.seq (.code words locals) (.code more others)) before after :=
  ⟨h.split, h.below, h.above⟩

/-- There is a word before a scope and one behind it. -/
theorem scope (h : Around fs a (.scope o) before after) :
    Around fs a (.seq (.words 1) (.seq o (.words 1))) before after where
  split := by simpa [Outline.spans, Outline.words, Outline.size] using h.split
  below := h.below
  above := by
    intro f hf
    have := h.above f hf
    simp only [Outline.size, Outline.words] at this ⊢
    omega

theorem finish (h : Around fs a o before after) :
    Around fs (a + o.size) (.words 0) (before ++ o.spans a) after where
  split := by simpa [Outline.spans, Outline.words] using h.split
  below := by
    intro f hf
    rcases List.mem_append.mp hf with hf | hf
    · have := h.below f hf
      omega
    · exact (Outline.bounds_of_mem_spans hf).2
  above := h.above

theorem mem (h : Around fs a o before after) {f : Span} (hf : f ∈ fs) :
    f ∈ before ∨ f ∈ o.spans a ∨ f ∈ after := by
  rw [h.split] at hf
  simpa [or_assoc] using hf

/-- Exactly the functions before a part start below it. -/
theorem countP_lt (h : Around fs a o before after) :
    (fs.countP fun f => f.start < a) = before.length := by
  have hbefore : (before.countP fun f => f.start < a) = before.length := by
    apply List.countP_eq_length.mpr
    intro f hf
    have := h.below f hf
    simp only [decide_eq_true_eq]
    omega
  have hpart : ((o.spans a).countP fun f => f.start < a) = 0 := by
    apply List.countP_eq_zero.mpr
    intro f hf
    have := Outline.bounds_of_mem_spans hf
    simp only [decide_eq_true_eq]
    omega
  have hafter : (after.countP fun f => f.start < a) = 0 := by
    apply List.countP_eq_zero.mpr
    intro f hf
    have := h.above f hf
    simp only [decide_eq_true_eq]
    omega
  rw [h.split, List.countP_append, List.countP_append, hbefore, hpart, hafter]
  omega

/-- Nothing stands before words without a function among them. -/
theorem guards_eq_nil {words locals : Nat} (h : Around fs a (.code words locals) before after)
    (hpos : 0 < words) : guards fs a = [] := by
  apply List.flatMap_eq_nil_iff.mpr
  rintro ⟨f, i⟩ hf
  apply if_neg
  rcases h.mem (List.fst_mem_of_mem_zipIdx hf) with hf | hf | hf
  · have := h.below f hf
    omega
  · cases hf
  · have := h.above f hf
    simp only [Outline.size] at this
    omega

/-- A jump ahead leads to what stands before its target. -/
theorem target_ahead (h : Around fs a o before after) {site : Nat} (hsite : site < a) :
    target fs site a = a + 2 * before.length := by
  have hnone : (fs.any fun f => f.start = a && f.contains site) = false := by
    apply List.any_eq_false.mpr
    intro f _
    simp only [Span.contains, Bool.and_eq_true, decide_eq_true_eq]
    omega
  rw [target, h.countP_lt, hnone]
  rfl

/-- So does a jump back to the start of the part that it closes: the functions of this part are left
    behind there. -/
theorem target_round (h : Around fs a (.seq o (.words 2)) before after) :
    target fs (a + o.size) a = a + 2 * before.length := by
  have hnone : (fs.any fun f => f.start = a && f.contains (a + o.size)) = false := by
    apply List.any_eq_false.mpr
    intro f hf
    simp only [Span.contains, Bool.and_eq_true, decide_eq_true_eq]
    rcases h.first.mem hf with hf | hf | hf
    · have := h.below f hf
      omega
    · have := Outline.bounds_of_mem_spans hf
      omega
    · have := h.above f hf
      simp only [Outline.size, Outline.words] at this
      omega
  rw [target, h.countP_lt, hnone]
  rfl

theorem target_loop (h : Around fs a (.seq o (.seq (.words 2) (.seq r (.words 2)))) before after) :
    target fs (a + o.size + 2 + r.size) a = a + 2 * before.length := by
  have hround : Around fs a (.seq (.seq (.seq o (.words 2)) r) (.words 2)) before after := by
    refine ⟨?_, h.below, ?_⟩
    · simpa [Outline.spans, Outline.size, Outline.words, Nat.add_assoc] using h.split
    · intro f hf
      have := h.above f hf
      simp only [Outline.size, Outline.words] at this ⊢
      omega
  have htarget := hround.target_round
  simpa only [Outline.size, Outline.words, ← Nat.add_assoc] using htarget

/-! ### The code of a function -/

section Function

variable {params b : Nat} (h : Around fs a (.function 0 params o) before after)

include h

theorem mem_function {f : Span} (hf : f ∈ fs) :
    f.finish ≤ a ∧ f.start < f.finish ∨ f = ⟨a, a + o.size + 1⟩ ∨ a + o.size < f.start := by
  rcases h.mem hf with hf | hf | hf
  · have := h.below f hf
    omega
  · exact Or.inr (Or.inl (List.mem_singleton.mp hf))
  · have := h.above f hf
    simp only [Outline.size] at this
    omega

/-- Up to an address inside a function, all functions before it start, and the function itself. -/
theorem countP_inside (test : Span → Bool) (hbefore : ∀ f : Span, f.start < a → test f = true)
    (hafter : ∀ f : Span, a + o.size < f.start → test f = false) :
    fs.countP test = before.length + if test ⟨a, a + o.size + 1⟩ then 1 else 0 := by
  have hone : before.countP test = before.length := by
    apply List.countP_eq_length.mpr
    intro f hf
    have := h.below f hf
    exact hbefore f (by omega)
  have hnone : after.countP test = 0 := by
    apply List.countP_eq_zero.mpr
    intro f hf
    have := h.above f hf
    simp only [Outline.size] at this
    rw [hafter f (by omega)]
    exact Bool.false_ne_true
  rw [h.split, List.countP_append, List.countP_append, hone, hnone]
  simp [Outline.spans, List.countP_cons]

theorem entry_inside (hstart : a ≤ b) (hfinish : b ≤ a + o.size) :
    entry fs b = b + 2 * (before.length + 1) := by
  have hcount := h.countP_inside (fun f => f.start ≤ b)
    (fun f hf => decide_eq_true (by omega)) (fun f hf => decide_eq_false (by omega))
  rw [entry, hcount, if_pos (decide_eq_true hstart)]

/-- A jump inside a function does not leave it, also if it leads back to the start. -/
theorem target_inside {site : Nat} (hsite : a ≤ site ∧ site ≤ a + o.size) (hstart : a ≤ b)
    (hfinish : b ≤ a + o.size) : target fs site b = b + 2 * (before.length + 1) := by
  have hcount := h.countP_inside (fun f => f.start < b)
    (fun f hf => decide_eq_true (by omega)) (fun f hf => decide_eq_false (by omega))
  rw [target, hcount]
  by_cases hfirst : b = a
  · have hself : (fs.any fun f => f.start = b && f.contains site) = true := by
      apply List.any_eq_true.mpr
      refine ⟨⟨a, a + o.size + 1⟩, ?_, ?_⟩
      · rw [h.split]
        simp [Outline.spans]
      · simp only [Span.contains, Bool.and_eq_true, decide_eq_true_eq]
        omega
    rw [hself, if_neg (by simp [hfirst])]
    simp only [if_true]
    omega
  · have hother : (fs.any fun f => f.start = b && f.contains site) = false := by
      apply List.any_eq_false.mpr
      intro f hf
      simp only [Span.contains, Bool.and_eq_true, decide_eq_true_eq]
      rcases h.mem_function hf with hf | rfl | hf
      · omega
      · simp only
        omega
      · omega
    have hlt : a < b := by omega
    rw [hother, if_pos (decide_eq_true hlt)]
    simp

theorem guards_inside (hstart : a < b) (hfinish : b ≤ a + o.size) : guards fs b = [] := by
  apply List.flatMap_eq_nil_iff.mpr
  rintro ⟨f, i⟩ hf
  have hmem : f ∈ fs := List.fst_mem_of_mem_zipIdx hf
  apply if_neg
  rcases h.mem_function hmem with hf | rfl | hf
  · omega
  · simp only
    omega
  · omega

/-- The jump over a function knows how many functions there are before it. -/
theorem guards_start :
    guards fs a = [.op .jump, .addr (a + o.size + 1 + 2 * (before.length + 1))] := by
  have hbefore (i : Nat) : (before.zipIdx i).flatMap (fun (f, i) =>
      if f.start = a then [.op .jump, .addr (f.finish + 2 * i)] else []) = ([] : List Word) := by
    apply List.flatMap_eq_nil_iff.mpr
    rintro ⟨f, i⟩ hf
    have := h.below f (List.fst_mem_of_mem_zipIdx hf)
    exact if_neg (by omega)
  have hafter (i : Nat) : (after.zipIdx i).flatMap (fun (f, i) =>
      if f.start = a then [.op .jump, .addr (f.finish + 2 * i)] else []) = ([] : List Word) := by
    apply List.flatMap_eq_nil_iff.mpr
    rintro ⟨f, i⟩ hf
    have := h.above f (List.fst_mem_of_mem_zipIdx hf)
    simp only [Outline.size] at this
    exact if_neg (by omega)
  unfold guards
  rw [h.split, List.zipIdx_append, List.zipIdx_append, List.flatMap_append, List.flatMap_append,
    hbefore, hafter]
  simp [Outline.spans, Nat.add_comm]

end Function

end Around

end Spans

end SceneCode
