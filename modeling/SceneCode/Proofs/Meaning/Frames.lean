import Mathlib.Data.List.Forall2
import SceneCode.Proofs.Emission.Rules
import SceneCode.Proofs.Meaning.Evaluation

/-!
# Slots for names

Evaluation keeps a function on names for each open scope, the machine a function on slots.  The
slots of a scope follow the order of its declarations, so the list of all names that a scope will
ever declare says how its frame looks (`Meaning.layout`), also while some of them have not been
declared yet.  Reading and writing a variable through its depth and slot then is reading and writing
it by name (`load?_embed`, `store?_embed`).
-/

namespace SceneCode

/-! ### What scopes declare -/

/-- The frame knows exactly these names.  They are variables, in the order of their slots. -/
structure Frame.Lists (frame : Frame) (names : List String) : Prop where
  slots : frame.slots = names.length
  nodup : names.Nodup
  found : ∀ {name label}, frame.get? name = some label →
    names[label.address]? = some name ∧ label.kind.isFunction = false
  missing : ∀ {name}, frame.get? name = none → name ∉ names

theorem Frame.lists_empty : Frame.Lists {} [] where
  slots := rfl
  nodup := List.nodup_nil
  found h := by cases h
  missing _ := List.not_mem_nil

/-- A new variable gets the slot behind the others. -/
theorem Frame.Lists.register {f g : Frame} {names : List String} {name : String} {type : TypeName}
    {signature : Option Signature} {pc slot : Address} (hf : f.Lists names)
    (h : f.register name (.variable type) signature pc = .ok (slot, g)) :
    slot = names.length ∧ g.Lists (names ++ [name]) := by
  have hget := Frame.get?_of_register h
  have hregistered := Frame.registered_of_register h
  have hslot : slot = names.length := (hregistered.slot rfl).trans hf.slots
  refine ⟨hslot, ?_, ?_, ?_, ?_⟩
  · rw [hregistered.slots, hf.slots, List.length_append]
    rfl
  · refine List.nodup_append.mpr ⟨hf.nodup, by simp, ?_⟩
    rintro a ha b hb rfl
    rw [List.mem_singleton.mp hb] at ha
    exact hf.missing hregistered.fresh ha
  · intro other label hother
    rw [hget] at hother
    split at hother
    · rename_i heq
      cases hother
      simp [heq, hslot, LabelKind.isFunction]
    · obtain ⟨hslot, hkind⟩ := hf.found hother
      have hlt := (List.getElem?_eq_some_iff.mp hslot).1
      rw [List.getElem?_append_left hlt]
      exact ⟨hslot, hkind⟩
  · intro other hother
    rw [hget] at hother
    split at hother
    · cases hother
    · rename_i hne
      simp [hf.missing hother, hne]

/-- The open scopes have declared exactly these names. -/
def Scopes.Declares (sc : Scopes) (Γ : Declared) : Prop :=
  List.Forall₂ Frame.Lists sc.frames Γ

namespace Declared

@[simp] theorem extend_nil (Γ : Declared) : Γ.extend [] = Γ := by
  cases Γ <;> simp [extend]

theorem extend_append (Γ : Declared) (names more : List String) :
    Γ.extend (names ++ more) = (Γ.extend names).extend more := by
  cases Γ <;> simp [extend]

/-- The names are the first ones of these lists, and the lists name nothing twice. -/
def Within (Γ all : Declared) : Prop :=
  List.Forall₂ (fun names whole => names <+: whole ∧ whole.Nodup) Γ all

theorem Within.of_extend {Γ all : Declared} {names : List String}
    (h : (Γ.extend names).Within all) : Γ.Within all := by
  cases Γ with
  | nil => exact h
  | cons first outer =>
    cases h with
    | cons hfirst houter =>
      exact .cons ⟨(List.prefix_append first names).trans hfirst.1, hfirst.2⟩ houter

theorem Within.left {Γ all : Declared} {names more : List String}
    (h : (Γ.extend (names ++ more)).Within all) : (Γ.extend names).Within all := by
  rw [extend_append] at h
  exact h.of_extend

end Declared

namespace Scopes.Declares

variable {sc : Scopes} {Γ : Declared}

theorem push (h : sc.Declares Γ) : sc.push.Declares ([] :: Γ) :=
  .cons Frame.lists_empty h

/-- A variable gets the slot behind those of the same scope. -/
theorem declare {sc' : Scopes} {type : TypeName} {name : String} {slot : Nat} (h : sc.Declares Γ)
    (hdeclare : sc.declare type name = .ok (slot, sc')) :
    sc'.Declares (Γ.extend [name]) ∧ ∃ names outer, Γ = names :: outer ∧ slot = names.length := by
  obtain ⟨hframe, hsame⟩ := frame_of_register hdeclare
  cases h with
  | cons hcurrent houter =>
    obtain ⟨hslot, hlists⟩ := hcurrent.register hframe
    rw [← hsame] at houter
    exact ⟨.cons hlists houter, _, _, rfl, hslot⟩

end Scopes.Declares

/-! ### Frames of the machine -/

namespace Meaning

variable {V : Type} (M : Meaning V)

/-- The frame of a scope that declares these names, when its store is `ρ`.  Slots that belong to no
    name hold the default. -/
def layout (names : List String) (ρ : String → V) : Nat → V :=
  fun slot => (names[slot]?).elim M.default ρ

/-- The frames of the open scopes. -/
def embed (all : Declared) (σ : Stores V) : List (Nat → V) :=
  List.zipWith M.layout all σ

theorem layout_default (names : List String) :
    M.layout names (fun _ => M.default) = fun _ => M.default := by
  funext slot
  rcases hslot : names[slot]? with _ | name <;> simp [layout, hslot]

theorem layout_apply {names : List String} {slot : Nat} {name : String} (ρ : String → V)
    (h : names[slot]? = some name) : M.layout names ρ slot = ρ name := by
  simp [layout, h]

theorem layout_update {names : List String} {slot : Nat} {name : String} (ρ : String → V) (v : V)
    (hnodup : names.Nodup) (h : names[slot]? = some name) :
    M.layout names (Function.update ρ name v) = Function.update (M.layout names ρ) slot v := by
  funext other
  by_cases heq : other = slot
  · subst heq
    simp [layout, h]
  · rw [Function.update_of_ne heq]
    rcases hother : names[other]? with _ | name'
    · simp [layout, hother]
    · have hne : name' ≠ name := by
        rintro rfl
        have hlt := (List.getElem?_eq_some_iff.mp hother).1
        exact heq ((List.getElem?_inj hlt hnodup).mp (hother.trans h.symm))
      simp [layout, hother, Function.update_of_ne hne]

/-- The variable that a search finds, in the frames and in the stores. -/
theorem embed_of_findIn {frames : List Frame} {Γ all : Declared} {name : String} {r : Resolved}
    {d : Nat} (hframes : List.Forall₂ Frame.Lists frames Γ) (hΓ : Γ.Within all)
    (hfind : Scopes.findIn name frames d = some r) :
    ∃ k, r.depth = d + k ∧ ∀ σ : Stores V,
      (M.embed all σ)[k]?.map (fun frame => frame r.label.address) = Stores.read? name Γ σ ∧
      ∀ v, (M.embed all σ)[k]?.map
        (fun frame => (M.embed all σ).set k (Function.update frame r.label.address v)) =
          (Stores.write? name v Γ σ).map (M.embed all) := by
  induction hframes generalizing all d with
  | nil => cases hfind
  | @cons f names frames Γ hf _ ih =>
    cases hΓ with
    | @cons _ whole _ all hwhole hrest =>
      rw [Scopes.findIn] at hfind
      rcases hget : f.get? name with _ | label
      · rw [hget] at hfind
        obtain ⟨k, hdepth, hk⟩ := ih hrest hfind
        have hnot := hf.missing hget
        refine ⟨k + 1, by omega, ?_⟩
        intro σ
        cases σ with
        | nil => exact ⟨rfl, fun v => rfl⟩
        | cons ρ σ =>
          obtain ⟨hread, hwrite⟩ := hk σ
          refine ⟨by simpa [embed, Stores.read?, hnot] using hread, ?_⟩
          intro v
          have hmap := congrArg (Option.map (M.layout whole ρ :: ·)) (hwrite v)
          simpa [embed, Stores.write?, hnot, Function.comp_def] using hmap
      · rw [hget] at hfind
        cases hfind
        have hslot := (hf.found hget).1
        have hmem : name ∈ names := List.mem_of_getElem? hslot
        have hlt := (List.getElem?_eq_some_iff.mp hslot).1
        have hin : whole[label.address]? = some name := by
          obtain ⟨rest, rfl⟩ := hwhole.1
          exact (List.getElem?_append_left hlt).trans hslot
        refine ⟨0, rfl, ?_⟩
        intro σ
        cases σ with
        | nil => exact ⟨rfl, fun v => rfl⟩
        | cons ρ σ =>
          refine ⟨by simp [embed, Stores.read?, hmem, M.layout_apply ρ hin], ?_⟩
          intro v
          simp [embed, Stores.write?, hmem, M.layout_update ρ v hwhole.2 hin]

theorem embed_of_locate? {sc : Scopes} {Γ all : Declared} {name : String} {depth slot : Nat}
    (hsc : sc.Declares Γ) (hΓ : Γ.Within all) (h : sc.locate? name = some (depth, slot))
    (σ : Stores V) :
    (M.embed all σ)[depth]?.map (fun frame => frame slot) = Stores.read? name Γ σ ∧
      ∀ v, (M.embed all σ)[depth]?.map
        (fun frame => (M.embed all σ).set depth (Function.update frame slot v)) =
          (Stores.write? name v Γ σ).map (M.embed all) := by
  rw [Scopes.locate?] at h
  split at h
  · rename_i hfind
    cases h
    obtain ⟨k, hdepth, hk⟩ := M.embed_of_findIn hsc hΓ hfind
    rw [Nat.zero_add] at hdepth
    subst hdepth
    exact hk σ
  · cases h

section

variable {M}
variable {sc : Scopes} {Γ all : Declared} {name : String} {depth slot : Nat}

/-- **A variable is loaded from where its value is.** -/
theorem load?_embed (hsc : sc.Declares Γ) (hΓ : Γ.Within all)
    (h : sc.locate? name = some (depth, slot)) (stack : List V) (σ : Stores V) :
    Memory.load? depth slot ⟨stack, M.embed all σ⟩ = Stores.read? name Γ σ :=
  (M.embed_of_locate? hsc hΓ h σ).1

/-- **A variable is stored to where its value is.** -/
theorem store?_embed (hsc : sc.Declares Γ) (hΓ : Γ.Within all)
    (h : sc.locate? name = some (depth, slot)) (v : V) (stack : List V) (σ : Stores V) :
    Memory.store? depth slot v ⟨stack, M.embed all σ⟩ =
      (Stores.write? name v Γ σ).map fun σ' => ⟨stack, M.embed all σ'⟩ := by
  have hwrite := (M.embed_of_locate? hsc hΓ h σ).2 v
  have hmap := congrArg (Option.map (Memory.mk stack)) hwrite
  simpa [Memory.store?, Function.comp_def] using hmap

/-- The first value of a variable goes to its slot. -/
theorem store?_declare {sc' : Scopes} {type : TypeName} (hsc : sc.Declares Γ)
    (hΓ : (Γ.extend [name]).Within all) (h : sc.declare type name = .ok (slot, sc')) (v : V)
    (stack : List V) (σ : Stores V) :
    Memory.store? 0 slot v ⟨stack, M.embed all σ⟩ =
      (Stores.define? name v σ).map fun σ' => ⟨stack, M.embed all σ'⟩ := by
  obtain ⟨-, names, outer, rfl, rfl⟩ := hsc.declare h
  cases hΓ with
  | @cons _ whole _ all hwhole hrest =>
    have hin : whole[names.length]? = some name := by
      obtain ⟨rest, rfl⟩ := hwhole.1
      simp
    cases σ with
    | nil => rfl
    | cons ρ σ => simp [Memory.store?, embed, Stores.define?, M.layout_update ρ v hwhole.2 hin]

end

end Meaning

/-! ### Trees without functions -/

namespace Tree

mutual

/-- Expressions declare nothing. -/
theorem declared_of_nodes (t : Tree) (h : ∀ node ∈ t.nodes, node.isExpression = true) :
    t.declared = [] := by
  cases t with
  | seq items => exact declaredAll_of_nodes items h
  | _ => first | rfl | exact absurd (h _ (List.mem_singleton.mpr rfl)) Bool.false_ne_true

theorem declaredAll_of_nodes (ts : List Tree)
    (h : ∀ node ∈ nodesAll ts, node.isExpression = true) : declaredAll ts = [] := by
  cases ts with
  | nil => rfl
  | cons t ts =>
    have ht := declared_of_nodes t fun node hnode => h node (List.mem_append_left _ hnode)
    have hts := declaredAll_of_nodes ts fun node hnode => h node (List.mem_append_right _ hnode)
    rw [declaredAll, ht, hts]
    rfl

end

theorem declared_of_holds {t : Tree} (h : t.HoldsExpression) : t.declared = [] := by
  obtain ⟨node, hnodes, hexpr⟩ := h
  apply declared_of_nodes t
  simpa [hnodes] using hexpr

end Tree

/-- An expression needs no more names than are declared before it. -/
theorem Declared.Within.of_holds {Γ all : Declared} {t : Tree} (h : Γ.Within all)
    (hholds : t.HoldsExpression) : (Γ.extend t.declared).Within all := by
  rwa [Tree.declared_of_holds hholds, Declared.extend_nil]

/-- **Scopes declare what the text of a tree declares.** -/
theorem Emits.declares {config : Config} {fn : Option TypeName} {sc sc' : Scopes} {a : Address}
    {t : Tree} {u : Usage} {p : Segment} {Γ : Declared} (h : Emits config fn sc a t u p sc')
    (hshaped : t.Shaped) (hfree : t.FunctionFree) (hsc : sc.Declares Γ) :
    sc'.Declares (Γ.extend t.declared) := by
  induction h generalizing Γ with
  | empty | seqNil | block | forEndless | forLoop | step | ident | lit =>
    simpa [Tree.declared, Tree.declaredAll] using hsc
  | seqCons _ _ ihp ihq =>
    have hfirst := ihp hshaped.1 hfree.1 hsc
    have hrest := ihq hshaped.2 hfree.2 hfirst
    rwa [← Declared.extend_append] at hrest
  | program _ ih => exact ih hshaped hfree hsc
  | function | retEmpty | ret | call => exact hfree.elim
  | declare hdeclare => exact (hsc.declare hdeclare).1
  | declareWith _ hdeclare ih =>
    have hvalue := ih hshaped.2 hfree hsc
    rw [Tree.declared_of_holds hshaped.1, Declared.extend_nil] at hvalue
    exact (hvalue.declare hdeclare).1
  | assign _ _ ih | compound _ _ _ ih | unary _ ih =>
    have hvalue := ih hshaped.2 hfree hsc
    rw [Tree.declared_of_holds hshaped.1] at hvalue
    exact hvalue
  | ifThen _ _ ihp ihq | whileLoop _ _ ihp ihq =>
    obtain ⟨hholds, hcond, hbody⟩ := hshaped
    have htest := ihp hcond hfree.1 hsc
    rw [Tree.declared_of_holds hholds, Declared.extend_nil] at htest
    exact ihq hbody hfree.2 htest
  | ifElse _ _ _ ihp ihq ihr =>
    obtain ⟨hholds, hcond, hbody, hother⟩ := hshaped
    obtain ⟨hcondFree, hbodyFree, hotherFree⟩ := hfree
    have htest := ihp hcond hcondFree hsc
    rw [Tree.declared_of_holds hholds, Declared.extend_nil] at htest
    have hlast := ihr hother hotherFree (ihq hbody hbodyFree htest)
    rwa [← Declared.extend_append] at hlast
  | doLoop _ _ ihp ihq =>
    obtain ⟨hholds, hcond, hbody⟩ := hshaped
    have htest := ihq hcond hfree.1 (ihp hbody hfree.2 hsc)
    rwa [Tree.declared_of_holds hholds, Declared.extend_nil] at htest
  | binary _ _ ihp ihq | logical _ _ ihp ihq =>
    obtain ⟨hleft, hright, hlhs, hrhs⟩ := hshaped
    have hfirst := ihp hlhs hfree.1 hsc
    rw [Tree.declared_of_holds hleft, Declared.extend_nil] at hfirst
    have hsecond := ihq hrhs hfree.2 hfirst
    rw [Tree.declared_of_holds hright] at hsecond
    exact hsecond

/-- Behind an expression the same names are declared as before it. -/
theorem Emits.declares_of_holds {config : Config} {fn : Option TypeName} {sc sc' : Scopes}
    {a : Address} {t : Tree} {u : Usage} {p : Segment} {Γ : Declared}
    (h : Emits config fn sc a t u p sc') (hholds : t.HoldsExpression) (hshaped : t.Shaped)
    (hfree : t.FunctionFree) (hsc : sc.Declares Γ) : sc'.Declares Γ := by
  have hdeclares := h.declares hshaped hfree hsc
  rwa [Tree.declared_of_holds hholds, Declared.extend_nil] at hdeclares

/-- The innermost of the open scopes can be laid out as it is. -/
theorem Scopes.Declares.within {frame : Frame} {outer : List Frame} {names : List String}
    {Γ all : Declared} (h : Scopes.Declares ⟨frame, outer⟩ (names :: Γ)) (hΓ : Γ.Within all) :
    Declared.Within (names :: Γ) (names :: all) := by
  cases h with
  | cons hframe _ => exact .cons ⟨List.prefix_refl names, hframe.nodup⟩ hΓ

end SceneCode
