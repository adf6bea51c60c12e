import ShapeLang.TypeSystem.Unifier

/-!
# ShapeLang — when substitution stays acyclic

`bind` checks that the variable does not occur in the type it is bound to, after the bindings made so
far are applied. That keeps the store acyclic as long as applying really removes every bound variable.
It does not when a carrier's variable resolves to a type without annotation form: the carrier stays,
still naming a bound variable, and a later `bind` can close a cycle through it.

  * `Ranked` — the store is acyclic: bound variables occur only in bindings of higher rank;
  * `exists_apply` — over a ranked store every application ends;
  * `boundFree_of_apply` — over a store whose variables all resolve to types a carrier can take over
    (`Carriable`), the result mentions no bound variable;
  * `apply_clean`, `exists_apply_self` — such a result is a fixpoint;
  * `substitution_acyclic_iff` — along a sequence of `bind` calls all this holds at every moment if
    and only if every type stored is `Carriable`.
-/

namespace ShapeLang.TypeSystem

/-! ## Occurrence, one level at a time -/

variable {v : TypeVar}

theorem annotsOccur_iff {l : List TypeAnnot} :
    annotsOccur v l = true ↔ ∃ c ∈ l, annotOccurs v c = true := by
  induction l with
  | nil => simp [annotsOccur]
  | cons a l ih => simp [annotsOccur, ih]

theorem fieldsOccur_iff {l : List (ObjectTypeField TypeAnnot)} :
    fieldsOccur v l = true ↔ ∃ c ∈ l.map (·.typeAnnot), annotOccurs v c = true := by
  induction l with
  | nil => simp [fieldsOccur]
  | cons a l ih => simp [fieldsOccur, ih]

theorem paramsOccur_iff {l : List (FunctionParam TypeAnnot)} :
    paramsOccur v l = true ↔ ∃ c ∈ l.map (·.typeAnnot), annotOccurs v c = true := by
  induction l with
  | nil => simp [paramsOccur]
  | cons a l ih => simp [paramsOccur, ih]

variable {l : List Ty}

theorem anyOccurs_iff :
    anyOccurs v l = true ↔ ∃ c ∈ l, occursCheck v c = true := by
  induction l with
  | nil => simp [anyOccurs]
  | cons a l ih => simp [anyOccurs, ih]

variable {a : TypeAnnot}

theorem annotOccurs_iff :
    annotOccurs v a = true ↔ a = .tyvar v ∨ ∃ c ∈ a.children, annotOccurs v c = true := by
  cases a with
  | function params returns effects =>
    simp only [annotOccurs, TypeAnnot.children, Bool.or_eq_true, paramsOccur_iff,
      List.mem_append, List.mem_singleton, reduceCtorEq, false_or]
    constructor
    · rintro (⟨c, hc, h⟩ | h)
      · exact ⟨c, Or.inl hc, h⟩
      · exact ⟨returns, Or.inr rfl, h⟩
    · rintro ⟨c, hc | rfl, h⟩
      · exact Or.inl ⟨c, hc, h⟩
      · exact Or.inr h
  | _ => simp [annotOccurs, TypeAnnot.children, annotsOccur_iff, fieldsOccur_iff]

/-- A variable occurs in a generic or function type if it occurs in one of its parts. -/
theorem occursCheck_generic {base : Ty} {args : List Ty} :
    occursCheck v (.generic base args) = true ↔
      ∃ c ∈ (Ty.generic base args).children, occursCheck v c = true := by
  simp [occursCheck, Ty.children, anyOccurs_iff]

theorem occursCheck_function {params : List Ty} {returns : Ty} {effects : EffectRow} :
    occursCheck v (.function params returns effects) = true ↔
      ∃ c ∈ (Ty.function params returns effects).children, occursCheck v c = true := by
  simp only [occursCheck, Ty.children, Bool.or_eq_true, anyOccurs_iff, List.mem_append,
    List.mem_singleton]
  constructor
  · rintro (⟨c, hc, h⟩ | h)
    · exact ⟨c, Or.inl hc, h⟩
    · exact ⟨returns, Or.inr rfl, h⟩
  · rintro ⟨c, hc | rfl, h⟩
    · exact Or.inl ⟨c, hc, h⟩
    · exact Or.inr h

variable {t : Ty}

theorem occursCheck_of_mem_children {c : Ty} (hc : c ∈ t.children) (h : occursCheck v c = true) :
    occursCheck v t = true := by
  cases t with
  | generic base args => exact occursCheck_generic.mpr ⟨c, hc, h⟩
  | function params returns effects => exact occursCheck_function.mpr ⟨c, hc, h⟩
  | _ => exact absurd hc List.not_mem_nil

/-! ## More fuel -/

theorem apply_mono_succ (S : Substitutions) (n : Nat) :
    (∀ t r, applySubstitutions S n t = some r → applySubstitutions S (n + 1) t = some r) ∧
      ∀ a b, applyToAnnot S n a = some b → applyToAnnot S (n + 1) a = some b := by
  induction n with
  | zero => exact ⟨fun t r h => by simp [applySubstitutions] at h,
      fun a b h => by simp [applyToAnnot] at h⟩
  | succ n ih =>
    obtain ⟨iht, iha⟩ := ih
    constructor
    · intro t r h
      cases t with
      | var v =>
        -- a bound variable is followed, a free one stays
        rw [applySubstitutions] at h ⊢
        cases hv : S v with
        | none => rw [hv] at h; exact h
        | some u => rw [hv] at h; exact iht u r h
      | constrained v c =>
        rw [applySubstitutions] at h ⊢
        cases hv : S v with
        | none => rw [hv] at h; exact h
        | some u => rw [hv] at h; exact iht u r h
      | concrete ann =>
        rw [applySubstitutions] at h ⊢
        obtain ⟨b, hb, rfl⟩ := Option.map_eq_some_iff.mp h
        rw [iha ann b hb]
        rfl
      | generic base args => exact Ty.rebuild_mono iht h
      | function params returns effects => exact Ty.rebuild_mono iht h
    · intro a b h
      cases a with
      | tyvar v =>
        rw [applyToAnnot] at h ⊢
        cases hv : S v with
        | none => rw [hv] at h; exact h
        | some u =>
          rw [hv] at h
          obtain ⟨r, hr, rfl⟩ := Option.map_eq_some_iff.mp h
          show (applySubstitutions S (n + 1) (.var v)).map _ = _
          rw [iht _ r hr]
          rfl
      | _ => exact TypeAnnot.rebuild_mono iha h

variable {S : Substitutions} {n m : Nat} {r : Ty}

theorem apply_mono (hnm : n ≤ m) (h : applySubstitutions S n t = some r) :
    applySubstitutions S m t = some r := by
  induction hnm with
  | refl => exact h
  | step _ ih => exact (apply_mono_succ S _).1 t r ih

theorem applyAnn_mono (hnm : n ≤ m) {b : TypeAnnot} (h : applyToAnnot S n a = some b) :
    applyToAnnot S m a = some b := by
  induction hnm with
  | refl => exact h
  | step _ ih => exact (apply_mono_succ S _).2 a b ih

/-- Two bounds that are both enough give the same result. -/
theorem apply_unique {r' : Ty} (h : applySubstitutions S n t = some r)
    (h' : applySubstitutions S m t = some r') :
    r = r' := by
  have h1 := apply_mono (Nat.le_max_left n m) h
  have h2 := apply_mono (Nat.le_max_right n m) h'
  exact Option.some.inj (h1.symm.trans h2)

/-- One bound for all members of a list. -/
theorem exists_common_fuel {α : Type} {P : Nat → α → Prop} {l : List α}
    (hmono : ∀ n m a, n ≤ m → P n a → P m a) (h : ∀ a ∈ l, ∃ n, P n a) : ∃ n, ∀ a ∈ l, P n a := by
  induction l with
  | nil => exact ⟨0, fun a ha => absurd ha List.not_mem_nil⟩
  | cons a l ih =>
    obtain ⟨n, hn⟩ := h a List.mem_cons_self
    obtain ⟨m, hm⟩ := ih fun c hc => h c (List.mem_cons_of_mem _ hc)
    refine ⟨max n m, fun c hc => ?_⟩
    rcases List.mem_cons.mp hc with rfl | hc
    · exact hmono n _ c (Nat.le_max_left n m) hn
    · exact hmono m _ c (Nat.le_max_right n m) (hm c hc)

/-! ## Annotation forms -/

theorem toAnnots_eq_some {as : List TypeAnnot} (h : Ty.toAnnots l = some as) :
    List.Forall₂ (fun t a => t.toAnnot = some a) l as := by
  induction l generalizing as with
  | nil =>
    rw [Ty.toAnnots] at h
    rw [← Option.some.inj h]
    exact .nil
  | cons t l ih =>
    rw [Ty.toAnnots] at h
    obtain ⟨a, ha, h⟩ := Option.bind_eq_some_iff.mp h
    obtain ⟨as', has, h⟩ := Option.bind_eq_some_iff.mp h
    rw [← Option.some.inj h]
    exact .cons ha (ih has)

theorem toAnnots_isSome (h : ∀ t ∈ l, ∃ a, t.toAnnot = some a) :
    ∃ as, Ty.toAnnots l = some as := by
  induction l with
  | nil => exact ⟨[], by rw [Ty.toAnnots]⟩
  | cons t l ih =>
    obtain ⟨a, ha⟩ := h t List.mem_cons_self
    obtain ⟨as, has⟩ := ih fun c hc => h c (List.mem_cons_of_mem _ hc)
    exact ⟨a :: as, by rw [Ty.toAnnots, ha, has]; rfl⟩

theorem mem_paramAnnots {c : TypeAnnot} (h : c ∈ (Ty.paramAnnots l).map (·.typeAnnot)) :
    ∃ t ∈ l, c = t.toAnnot.getD (.basic "unknown") := by
  induction l with
  | nil => simp [Ty.paramAnnots] at h
  | cons t l ih =>
    rw [Ty.paramAnnots, List.map_cons] at h
    rcases List.mem_cons.mp h with rfl | h
    · exact ⟨t, List.mem_cons_self, rfl⟩
    · obtain ⟨u, hu, huc⟩ := ih h
      exact ⟨u, List.mem_cons_of_mem _ hu, huc⟩

theorem namedAnnot_children (name : String) (as : List TypeAnnot) :
    (namedAnnot name as).children = as ∧ (namedAnnot name as).FieldsClean ∧
      ∀ v, namedAnnot name as ≠ .tyvar v := by
  unfold namedAnnot
  split
  · split
    · exact ⟨rfl, trivial, nofun⟩
    · exact ⟨rfl, trivial, nofun⟩
  · exact ⟨rfl, trivial, nofun⟩

theorem toAnnot_generic {base : Ty} {args : List Ty} (h : (Ty.generic base args).toAnnot = some a) :
    ∃ name as,
      base = .concrete (.reference name) ∧ Ty.toAnnots args = some as ∧
        a = namedAnnot name as := by
  cases base with
  | concrete ann =>
    cases ann with
    | reference name =>
      rw [Ty.toAnnot] at h
      obtain ⟨as, has, rfl⟩ := Option.map_eq_some_iff.mp h
      exact ⟨name, as, rfl, has, rfl⟩
    | _ => simp [Ty.toAnnot] at h
  | _ => simp [Ty.toAnnot] at h

/-- The parts of an annotation form are the annotation forms of parts, or `unknown`. -/
theorem toAnnot_spec (h : t.toAnnot = some a) :
    t = .concrete a ∨ a.FieldsClean ∧ (∀ v, a ≠ .tyvar v) ∧ ∀ c ∈ a.children,
      c = .basic "unknown" ∨ ∃ d ∈ t.children, d.toAnnot = some c := by
  have hgetD : ∀ (d : Ty), d.toAnnot.getD (.basic "unknown") = .basic "unknown" ∨
      d.toAnnot = some (d.toAnnot.getD (.basic "unknown")) := by
    intro d
    cases d.toAnnot with
    | none => exact Or.inl rfl
    | some c => exact Or.inr rfl
  cases t with
  | concrete ann =>
    rw [Ty.toAnnot] at h
    exact Or.inl (congrArg Ty.concrete (Option.some.inj h))
  | var v => simp [Ty.toAnnot] at h
  | constrained v c => simp [Ty.toAnnot] at h
  | generic base args =>
    right
    obtain ⟨name, as, -, has, rfl⟩ := toAnnot_generic h
    obtain ⟨hchildren, hclean, hne⟩ := namedAnnot_children name as
    refine ⟨hclean, hne, fun c hc => Or.inr ?_⟩
    rw [hchildren] at hc
    obtain ⟨d, hd, hdc⟩ := exists_of_mem_right (toAnnots_eq_some has) hc
    exact ⟨d, List.mem_cons_of_mem _ hd, hdc⟩
  | function params returns effects =>
    right
    rw [Ty.toAnnot] at h
    obtain rfl := Option.some.inj h
    refine ⟨trivial, nofun, fun c hc => ?_⟩
    rcases List.mem_append.mp hc with hc | hc
    · obtain ⟨d, hd, rfl⟩ := mem_paramAnnots hc
      exact (hgetD d).imp_right fun hd' => ⟨d, List.mem_append_left _ hd, hd'⟩
    · rw [List.mem_singleton.mp hc]
      exact (hgetD returns).imp_right fun hd' =>
        ⟨returns, List.mem_append_right _ (List.mem_singleton_self _), hd'⟩

/-- A variable in the annotation form occurs in the type. -/
theorem occursCheck_of_toAnnot (t : Ty) : ∀ a, t.toAnnot = some a →
    annotOccurs v a = true → occursCheck v t = true := by
  induction t using Ty.children_induction with
  | h t ih =>
    intro a ha hocc
    rcases toAnnot_spec ha with rfl | ⟨-, hne, hparts⟩
    · rw [occursCheck]
      exact hocc
    · rcases annotOccurs_iff.mp hocc with rfl | ⟨c, hc, hocc⟩
      · exact absurd rfl (hne v)
      · rcases hparts c hc with rfl | ⟨d, hd, hdc⟩
        · simp [annotOccurs] at hocc
        · exact occursCheck_of_mem_children hd (ih d hd c hdc hocc)

/-! ## Clean types -/

/-- No field inside the annotation carries annotations of its own. -/
inductive TypeAnnot.Clean : TypeAnnot → Prop where
  | intro {a : TypeAnnot} (fields : a.FieldsClean) (parts : ∀ c ∈ a.children, Clean c) : Clean a

inductive Ty.Clean : Ty → Prop where
  | intro {t : Ty} (ann : ∀ a, t = .concrete a → a.Clean) (parts : ∀ c ∈ t.children, Clean c) :
    Clean t

theorem toAnnot_clean (t : Ty) : ∀ a, t.toAnnot = some a → t.Clean → a.Clean := by
  induction t using Ty.children_induction with
  | h t ih =>
    intro a ha hclean
    obtain ⟨hann, hparts⟩ := hclean
    rcases toAnnot_spec ha with h | ⟨hfields, -, hforms⟩
    · exact hann a h
    · refine ⟨hfields, fun c hc => ?_⟩
      rcases hforms c hc with rfl | ⟨d, hd, hdc⟩
      · exact ⟨trivial, fun c hc => absurd hc List.not_mem_nil⟩
      · exact ih d hd c hdc (hparts d hd)

theorem resolveCarrier_clean (h : r.Clean) :
    (resolveCarrier (.tyvar v) r).Clean := by
  have hleaf : ∀ w, (TypeAnnot.tyvar w).Clean :=
    fun w => ⟨trivial, fun c hc => absurd hc List.not_mem_nil⟩
  have hgetD : (r.toAnnot.getD (.tyvar v)).Clean := by
    cases hr : r.toAnnot with
    | none => exact hleaf v
    | some a => exact toAnnot_clean r a hr h
  cases r with
  | var w => exact hleaf w
  | constrained w c => exact hleaf w
  | _ => exact hgetD

/-! ## One step of an application -/

theorem apply_succ_cases (h : applySubstitutions S (n + 1) t = some r) :
    (∃ v, (t = .var v ∨ ∃ c, t = .constrained v c) ∧
      (S v = none ∧ r = t ∨ ∃ u, S v = some u ∧ applySubstitutions S n u = some r)) ∨
    (∃ a b, t = .concrete a ∧ r = .concrete b ∧ applyToAnnot S n a = some b) ∨
    ((∀ a, r ≠ .concrete a) ∧
      (∀ w, occursCheck w r = true → ∃ c ∈ r.children, occursCheck w c = true) ∧
      List.Forall₂ (fun c c' => applySubstitutions S n c = some c') t.children r.children) := by
  cases t with
  | var v =>
    refine Or.inl ⟨v, Or.inl rfl, ?_⟩
    rw [applySubstitutions] at h
    cases hv : S v with
    | none => rw [hv] at h; exact Or.inl ⟨rfl, (Option.some.inj h).symm⟩
    | some u => rw [hv] at h; exact Or.inr ⟨u, rfl, h⟩
  | constrained v c =>
    refine Or.inl ⟨v, Or.inr ⟨c, rfl⟩, ?_⟩
    rw [applySubstitutions] at h
    cases hv : S v with
    | none => rw [hv] at h; exact Or.inl ⟨rfl, (Option.some.inj h).symm⟩
    | some u => rw [hv] at h; exact Or.inr ⟨u, rfl, h⟩
  | concrete a =>
    rw [applySubstitutions] at h
    obtain ⟨b, hb, rfl⟩ := Option.map_eq_some_iff.mp h
    exact Or.inr (Or.inl ⟨a, b, rfl, rfl, hb⟩)
  | generic base args =>
    obtain ⟨hparts, base', args', rfl⟩ := Ty.rebuild_spec h
    exact Or.inr (Or.inr ⟨nofun, fun w hw => occursCheck_generic.mp hw, hparts⟩)
  | function params returns effects =>
    obtain ⟨hparts, params', returns', rfl⟩ := Ty.rebuild_spec h
    exact Or.inr (Or.inr ⟨nofun, fun w hw => occursCheck_function.mp hw, hparts⟩)

theorem applyAnn_succ_cases {b : TypeAnnot} (h : applyToAnnot S (n + 1) a = some b) :
    (∃ v, a = .tyvar v ∧ S v = none ∧ b = a) ∨
    (∃ v u r, a = .tyvar v ∧ S v = some u ∧ applySubstitutions S n (.var v) = some r ∧
      b = resolveCarrier a r) ∨
    ((∀ v, b ≠ .tyvar v) ∧ b.FieldsClean ∧
      List.Forall₂ (fun c c' => applyToAnnot S n c = some c') a.children b.children) := by
  by_cases ha : ∃ v, a = .tyvar v
  · obtain ⟨v, rfl⟩ := ha
    rw [applyToAnnot] at h
    cases hv : S v with
    | none =>
      rw [hv] at h
      exact Or.inl ⟨v, rfl, hv, (Option.some.inj h).symm⟩
    | some u =>
      rw [hv] at h
      obtain ⟨r, hr, rfl⟩ := Option.map_eq_some_iff.mp h
      exact Or.inr (Or.inl ⟨v, u, r, rfl, hv, hr, rfl⟩)
  · have hreb : a.rebuild (applyToAnnot S n) = some b := by
      cases a with
      | tyvar v => exact absurd ⟨v, rfl⟩ ha
      | _ => exact h
    obtain ⟨hparts, hclean, htyvar⟩ := TypeAnnot.rebuild_spec hreb
    exact Or.inr (Or.inr ⟨fun v hv => ha ⟨v, htyvar v hv⟩, hclean, hparts⟩)

/-- Results are clean. -/
theorem apply_clean (S : Substitutions) (n : Nat) :
    (∀ t r, applySubstitutions S n t = some r → r.Clean) ∧
      ∀ a b, applyToAnnot S n a = some b → b.Clean := by
  induction n with
  | zero => exact ⟨fun t r h => by simp [applySubstitutions] at h,
      fun a b h => by simp [applyToAnnot] at h⟩
  | succ n ih =>
    obtain ⟨iht, iha⟩ := ih
    constructor
    · intro t r h
      rcases apply_succ_cases h with ⟨v, ht, ⟨-, rfl⟩ | ⟨u, -, hu⟩⟩ | ⟨a, b, -, rfl, hb⟩ |
        ⟨hne, -, hparts⟩
      · rcases ht with rfl | ⟨c, rfl⟩
        · exact ⟨nofun, nofun⟩
        · exact ⟨nofun, nofun⟩
      · exact iht u r hu
      · exact ⟨fun b' hb' => Ty.concrete.inj hb' ▸ iha a b hb, nofun⟩
      · refine ⟨fun a ha => absurd ha (hne a), fun c' hc' => ?_⟩
        obtain ⟨c, -, hc⟩ := exists_of_mem_right hparts hc'
        exact iht c c' hc
    · intro a b h
      rcases applyAnn_succ_cases h with ⟨v, rfl, -, rfl⟩ | ⟨v, u, r, rfl, -, hr, rfl⟩ |
        ⟨-, hclean, hparts⟩
      · exact ⟨trivial, nofun⟩
      · exact resolveCarrier_clean (iht _ r hr)
      · refine ⟨hclean, fun c' hc' => ?_⟩
        obtain ⟨c, -, hc⟩ := exists_of_mem_right hparts hc'
        exact iha c c' hc

/-! ## Which types a carrier can take over -/

/-- The type is a variable or has an annotation form: a carrier of a variable resolved to it is
replaced. -/
def Carriable : Ty → Bool
  | .var _ => true
  | .constrained _ _ => true
  | t => t.toAnnot.isSome

theorem carriable_cases (h : Carriable t = true) :
    (∃ v, t = .var v ∨ ∃ c, t = .constrained v c) ∨ ∃ a, t.toAnnot = some a := by
  cases t with
  | var v => exact Or.inl ⟨v, Or.inl rfl⟩
  | constrained v c => exact Or.inl ⟨v, Or.inr ⟨c, rfl⟩⟩
  | _ => exact Or.inr (Option.isSome_iff_exists.mp h)

theorem carriable_of_toAnnot (h : t.toAnnot = some a) :
    Carriable t = true := by
  cases t with
  | var v => rfl
  | constrained v c => rfl
  | _ => exact Option.isSome_iff_exists.mpr ⟨a, h⟩

variable (carrier : TypeAnnot)

theorem resolveCarrier_of_toAnnot (h : t.toAnnot = some a) : resolveCarrier carrier t = a := by
  cases t with
  | var v => simp [Ty.toAnnot] at h
  | constrained v c => simp [Ty.toAnnot] at h
  | _ => rw [resolveCarrier, h] <;> simp

theorem resolveCarrier_of_not_carriable (h : ¬ Carriable t = true) :
    resolveCarrier carrier t = carrier := by
  cases t with
  | var v => exact absurd rfl h
  | constrained v c => exact absurd rfl h
  | _ =>
    rw [Carriable, Bool.not_eq_true, Option.isSome_eq_false_iff, Option.isNone_iff_eq_none] at h
    · rw [resolveCarrier, h] <;> simp
    all_goals simp

theorem occursCheck_of_resolveCarrier {w : TypeVar} {carrier : TypeAnnot} (hr : Carriable r = true)
    (h : annotOccurs w (resolveCarrier carrier r) = true) :
    occursCheck w r = true := by
  rcases carriable_cases hr with ⟨v, rfl | ⟨c, rfl⟩⟩ | ⟨a, ha⟩
  · exact h
  · exact h
  · rw [resolveCarrier_of_toAnnot carrier ha] at h
    exact occursCheck_of_toAnnot r a ha h

/-- Over a store whose variables resolve to carriable types, no bound variable is left. -/
theorem boundFree_of_apply
    (hS : ∀ v u n r, S v = some u → applySubstitutions S n (.var v) = some r → Carriable r = true)
    (n : Nat) :
    (∀ t r, applySubstitutions S n t = some r → ∀ w, occursCheck w r = true → S w = none) ∧
      ∀ a b, applyToAnnot S n a = some b → ∀ w, annotOccurs w b = true → S w = none := by
  induction n with
  | zero => exact ⟨fun t r h => by simp [applySubstitutions] at h,
      fun a b h => by simp [applyToAnnot] at h⟩
  | succ n ih =>
    obtain ⟨iht, iha⟩ := ih
    constructor
    · intro t r h w hw
      rcases apply_succ_cases h with ⟨v, ht, ⟨hv, rfl⟩ | ⟨u, -, hu⟩⟩ | ⟨a, b, -, rfl, hb⟩ |
        ⟨-, hocc, hparts⟩
      · rcases ht with rfl | ⟨c, rfl⟩
        · rw [occursCheck, decide_eq_true_eq] at hw
          exact hw ▸ hv
        · rw [occursCheck, decide_eq_true_eq] at hw
          exact hw ▸ hv
      · exact iht u r hu w hw
      · rw [occursCheck] at hw
        exact iha a b hb w hw
      · obtain ⟨c', hc', hw⟩ := hocc w hw
        obtain ⟨c, -, hc⟩ := exists_of_mem_right hparts hc'
        exact iht c c' hc w hw
    · intro a b h w hw
      rcases applyAnn_succ_cases h with ⟨v, rfl, hv, rfl⟩ | ⟨v, u, r, rfl, hv, hr, rfl⟩ |
        ⟨hne, -, hparts⟩
      · rw [annotOccurs, decide_eq_true_eq] at hw
        exact hw ▸ hv
      · exact iht _ r hr w (occursCheck_of_resolveCarrier (hS v u n r hv hr) hw)
      · rcases annotOccurs_iff.mp hw with rfl | ⟨c', hc', hw⟩
        · exact absurd rfl (hne w)
        · obtain ⟨c, -, hc⟩ := exists_of_mem_right hparts hc'
          exact iha c c' hc w hw

/-! ## Applications that end -/

theorem applyAnn_of_children (ha : ∀ v, a ≠ .tyvar v) :
    applyToAnnot S (n + 1) a = a.rebuild (applyToAnnot S n) := by
  cases a with
  | tyvar v => exact absurd rfl (ha v)
  | _ => rfl

/-- An application ends if it ends on the variables of the annotation. -/
theorem exists_applyAnn_of_vars (a : TypeAnnot)
    (h : ∀ w, annotOccurs w a = true → ∃ n r, applySubstitutions S n (.var w) = some r) :
    ∃ n b, applyToAnnot S n a = some b := by
  induction a using TypeAnnot.children_induction with
  | h a ih =>
    by_cases ha : ∃ v, a = .tyvar v
    · obtain ⟨v, rfl⟩ := ha
      obtain ⟨n, r, hr⟩ := h v (by simp [annotOccurs])
      cases hv : S v with
      | none => exact ⟨1, .tyvar v, by rw [applyToAnnot, hv]; rfl⟩
      | some u => exact ⟨n + 1, resolveCarrier (.tyvar v) r, by
          rw [applyToAnnot, hv, Option.elim_some, hr]
          rfl⟩
    · have hparts : ∀ c ∈ a.children, ∃ n, ∃ b, applyToAnnot S n c = some b :=
        fun c hc => ih c hc fun w hw => h w (annotOccurs_iff.mpr (Or.inr ⟨c, hc, hw⟩))
      obtain ⟨n, hn⟩ := exists_common_fuel
        (fun n m c hnm ⟨b, hb⟩ => ⟨b, applyAnn_mono hnm hb⟩) hparts
      obtain ⟨b, hb⟩ := TypeAnnot.rebuild_isSome hn
      exact ⟨n + 1, b, by rw [applyAnn_of_children fun v hv => ha ⟨v, hv⟩, hb]⟩

theorem exists_apply_of_vars (t : Ty)
    (h : ∀ w, occursCheck w t = true → ∃ n r, applySubstitutions S n (.var w) = some r) :
    ∃ n r, applySubstitutions S n t = some r := by
  induction t using Ty.children_induction with
  | h t ih =>
    have hparts : ∀ c ∈ t.children, ∃ n, ∃ r, applySubstitutions S n c = some r :=
      fun c hc => ih c hc fun w hw => h w (occursCheck_of_mem_children hc hw)
    obtain ⟨n, hn⟩ := exists_common_fuel (fun n m c hnm ⟨r, hr⟩ => ⟨r, apply_mono hnm hr⟩) hparts
    obtain ⟨r, hr⟩ := Ty.rebuild_isSome hn
    cases t with
    | var v => exact h v (by simp [occursCheck])
    | constrained v c =>
      obtain ⟨n, r, hr⟩ := h v (by simp [occursCheck])
      cases hv : S v with
      | none => exact ⟨1, .constrained v c, by rw [applySubstitutions, hv]; rfl⟩
      | some u =>
        cases n with
        | zero => simp [applySubstitutions] at hr
        | succ n =>
          rw [applySubstitutions, hv] at hr
          exact ⟨n + 1, r, by rw [applySubstitutions, hv]; exact hr⟩
    | concrete a =>
      obtain ⟨n, b, hb⟩ := exists_applyAnn_of_vars a fun w hw => h w (by rw [occursCheck]; exact hw)
      exact ⟨n + 1, .concrete b, by rw [applySubstitutions, hb]; rfl⟩
    | generic base args => exact ⟨n + 1, r, hr⟩
    | function params returns effects => exact ⟨n + 1, r, hr⟩

/-- A clean annotation without bound variables is its own application. -/
theorem exists_applyAnn_self (a : TypeAnnot) (hclean : a.Clean)
    (h : ∀ w, annotOccurs w a = true → S w = none) :
    ∃ n, applyToAnnot S n a = some a := by
  induction a using TypeAnnot.children_induction with
  | h a ih =>
    obtain ⟨hfields, hparts⟩ := hclean
    by_cases ha : ∃ v, a = .tyvar v
    · obtain ⟨v, rfl⟩ := ha
      exact ⟨1, by rw [applyToAnnot, h v (by simp [annotOccurs])]; rfl⟩
    · have hself : ∀ c ∈ a.children, ∃ n, applyToAnnot S n c = some c := fun c hc =>
        ih c hc (hparts c hc) fun w hw => h w (annotOccurs_iff.mpr (Or.inr ⟨c, hc, hw⟩))
      obtain ⟨n, hn⟩ := exists_common_fuel (P := fun n c => applyToAnnot S n c = some c)
        (fun n m c hnm hb => applyAnn_mono hnm hb) hself
      exact ⟨n + 1, by
        rw [applyAnn_of_children fun v hv => ha ⟨v, hv⟩, TypeAnnot.rebuild_self hfields hn]⟩

theorem exists_apply_self (t : Ty) (hclean : t.Clean) (h : ∀ w, occursCheck w t = true → S w = none) :
    ∃ n, applySubstitutions S n t = some t := by
  induction t using Ty.children_induction with
  | h t ih =>
    obtain ⟨hann, hparts⟩ := hclean
    have hself : ∀ c ∈ t.children, ∃ n, applySubstitutions S n c = some c := fun c hc =>
      ih c hc (hparts c hc) fun w hw => h w (occursCheck_of_mem_children hc hw)
    obtain ⟨n, hn⟩ := exists_common_fuel (P := fun n c => applySubstitutions S n c = some c)
      (fun n m c hnm hr => apply_mono hnm hr) hself
    have hr := Ty.rebuild_self hn
    cases t with
    | var v => exact ⟨1, by rw [applySubstitutions, h v (by simp [occursCheck])]; rfl⟩
    | constrained v c => exact ⟨1, by rw [applySubstitutions, h v (by simp [occursCheck])]; rfl⟩
    | concrete a =>
      obtain ⟨n, hb⟩ := exists_applyAnn_self a (hann a rfl) fun w hw =>
        h w (by rw [occursCheck]; exact hw)
      exact ⟨n + 1, by rw [applySubstitutions, hb]; rfl⟩
    | generic base args => exact ⟨n + 1, hr⟩
    | function params returns effects => exact ⟨n + 1, hr⟩

/-! ## The store -/

/-- The store is acyclic: a bound variable that occurs in a binding has a lower rank. -/
def Ranked (S : Substitutions) : Prop :=
  ∃ rank : TypeVar → Nat, ∀ v u, S v = some u → ∀ w, occursCheck w u = true → S w ≠ none →
    rank w < rank v

/-- A ranked store that binds only carriable types. -/
structure StoreInv (S : Substitutions) : Prop where
  ranked : Ranked S
  carriable : ∀ v u, S v = some u → Carriable u = true

theorem exists_apply_var (hS : Ranked S) (v : TypeVar) :
    ∃ n r, applySubstitutions S n (.var v) = some r := by
  obtain ⟨rank, hrank⟩ := hS
  have hunbound : ∀ w, S w = none → ∃ n r, applySubstitutions S n (.var w) = some r :=
    fun w hw => ⟨1, .var w, by rw [applySubstitutions, hw]; rfl⟩
  -- Induction on the rank: a binding's own variables are unbound or of lower rank.
  induction hN : rank v using Nat.strong_induction_on generalizing v with
  | _ N ih =>
    cases hv : S v with
    | none => exact hunbound v hv
    | some u =>
      obtain ⟨n, r, hr⟩ := exists_apply_of_vars u fun w hw => by
        by_cases hw' : S w = none
        · exact hunbound w hw'
        · have hlt := hrank v u hv w hw hw'
          exact ih (rank w) (by omega) w rfl
      exact ⟨n + 1, r, by rw [applySubstitutions, hv]; exact hr⟩

/-- Over a ranked store every application ends. -/
theorem exists_apply (hS : Ranked S) (t : Ty) :
    ∃ n r, applySubstitutions S n t = some r :=
  exists_apply_of_vars t fun w _ => exists_apply_var hS w

/-- A type with an annotation form keeps having one. -/
theorem toAnnot_apply (n : Nat) : ∀ t a r, t.toAnnot = some a →
    applySubstitutions S n t = some r → ∃ b, r.toAnnot = some b := by
  induction n with
  | zero => exact fun t a r _ h => by simp [applySubstitutions] at h
  | succ n ih =>
    intro t a r ha h
    cases t with
    | var v => simp [Ty.toAnnot] at ha
    | constrained v c => simp [Ty.toAnnot] at ha
    | concrete ann =>
      rw [applySubstitutions] at h
      obtain ⟨b, -, rfl⟩ := Option.map_eq_some_iff.mp h
      exact ⟨b, by rw [Ty.toAnnot]⟩
    | function params returns effects =>
      obtain ⟨-, params', returns', rfl⟩ := Ty.rebuild_spec h
      exact ⟨_, by rw [Ty.toAnnot]⟩
    | generic base args =>
      obtain ⟨name, as, rfl, has, -⟩ := toAnnot_generic ha
      obtain ⟨hparts, base', args', rfl⟩ := Ty.rebuild_spec h
      cases hparts with
      | cons hbase hargs =>
        -- The reference in the base is kept.
        have hbase' : base' = .concrete (.reference name) := by
          match n with
          | 0 => simp [applySubstitutions] at hbase
          | 1 => simp [applySubstitutions, applyToAnnot] at hbase
          | n + 2 =>
            simp only [applySubstitutions, applyToAnnot, TypeAnnot.rebuild] at hbase
            exact (Option.some.inj hbase).symm
        obtain ⟨bs, hbs⟩ := toAnnots_isSome (l := args') fun c' hc' => by
          obtain ⟨i, hi, rfl⟩ := List.getElem_of_mem hc'
          have hi' : i < args.length := by rw [hargs.length_eq]; exact hi
          have hforms := toAnnots_eq_some has
          have hi'' : i < as.length := by rw [← hforms.length_eq]; exact hi'
          exact ih _ _ _ (hforms.get hi' hi'') (hargs.get hi' hi)
        exact ⟨namedAnnot name bs, by rw [hbase', Ty.toAnnot, hbs]; rfl⟩

/-- Over such a store variables resolve to carriable types. -/
theorem StoreInv.resolves (hS : StoreInv S) (v : TypeVar) (u : Ty) (n : Nat) (r : Ty) (hv : S v = some u)
    (h : applySubstitutions S n (.var v) = some r) :
    Carriable r = true := by
  obtain ⟨rank, hrank⟩ := hS.ranked
  induction hN : rank v using Nat.strong_induction_on generalizing v u n with
  | _ N ih =>
    cases n with
    | zero => simp [applySubstitutions] at h
    | succ n =>
      rw [applySubstitutions, hv] at h
      change applySubstitutions S n u = some r at h
      -- A binding that is itself a variable is followed, to a lower rank.
      have hvar : ∀ w, occursCheck w u = true → u = .var w ∨ (∃ c, u = .constrained w c) →
          Carriable r = true := by
        intro w hocc hw
        cases n with
        | zero => simp [applySubstitutions] at h
        | succ n =>
          cases hSw : S w with
          | none =>
            have hru : r = u := by
              rcases hw with rfl | ⟨c, rfl⟩
              · rw [applySubstitutions, hSw] at h
                exact (Option.some.inj h).symm
              · rw [applySubstitutions, hSw] at h
                exact (Option.some.inj h).symm
            rw [hru]
            exact hS.carriable v u hv
          | some u' =>
            have hstep : applySubstitutions S (n + 1) (.var w) = some r := by
              rcases hw with rfl | ⟨c, rfl⟩
              · exact h
              · rw [applySubstitutions, hSw] at h
                rw [applySubstitutions, hSw]
                exact h
            have hlt := hrank v u hv w hocc (by rw [hSw]; exact Option.some_ne_none _)
            exact ih (rank w) (by omega) w u' (n + 1) hSw hstep rfl
      rcases carriable_cases (hS.carriable v u hv) with ⟨w, hw⟩ | ⟨a, ha⟩
      · refine hvar w ?_ hw
        rcases hw with rfl | ⟨c, rfl⟩
        · simp [occursCheck]
        · simp [occursCheck]
      · obtain ⟨b, hb⟩ := toAnnot_apply n u a r ha h
        exact carriable_of_toAnnot hb

/-! ## Runs of `bind` -/

/-- Every application ends, leaves no bound variable, and does nothing the second time. Occurrence
is that of `occurs_check`: the payload of a constraint goes unchanged with its variable. -/
def Acyclic (S : Substitutions) : Prop :=
  ∀ t, ∃ n r, applySubstitutions S n t = some r ∧ (∀ w, occursCheck w r = true → S w = none) ∧
    ∃ m, applySubstitutions S m r = some r

theorem StoreInv.acyclic (hS : StoreInv S) : Acyclic S := by
  intro t
  obtain ⟨n, r, hr⟩ := exists_apply hS.ranked t
  have hfree := (boundFree_of_apply hS.resolves n).1 t r hr
  exact ⟨n, r, hr, hfree, exists_apply_self r ((apply_clean S n).1 t r hr) hfree⟩

theorem storedType_eq_some {t' : Ty} (h : storedType v t = some t') :
    t' = t ∧ occursCheck v t = false := by
  unfold storedType at h
  split at h
  · exact absurd h nofun
  · split at h
    · exact absurd h nofun
    · next hocc => exact ⟨(Option.some.inj h).symm, by simpa using hocc⟩

/-- Binding a variable to a type without bound variables keeps the store ranked: the variable goes
below all others. -/
theorem StoreInv.update (hS : StoreInv S) (hfree : ∀ w, occursCheck w t = true → S w = none)
    (hocc : occursCheck v t = false) (hcarr : Carriable t = true) :
    StoreInv (Function.update S v (some t)) := by
  obtain ⟨⟨rank, hrank⟩, hS⟩ := hS
  refine ⟨⟨fun w => if w = v then 0 else rank w + 1, ?_⟩, ?_⟩
  · intro x u hx w hw hbound
    by_cases hxv : x = v
    · subst hxv
      rw [Function.update_self] at hx
      obtain rfl := Option.some.inj hx
      have hwx : w ≠ x := fun h => by rw [h, hocc] at hw; exact Bool.false_ne_true hw
      rw [Function.update_of_ne hwx] at hbound
      exact absurd (hfree w hw) hbound
    · rw [Function.update_of_ne hxv] at hx
      simp only [if_neg hxv]
      by_cases hwv : w = v
      · rw [if_pos hwv]
        omega
      · rw [Function.update_of_ne hwv] at hbound
        have hlt := hrank x u hx w hw hbound
        rw [if_neg hwv]
        omega
  · intro x u hx
    by_cases hxv : x = v
    · subst hxv
      rw [Function.update_self] at hx
      rw [← Option.some.inj hx]
      exact hcarr
    · rw [Function.update_of_ne hxv] at hx
      exact hS x u hx

theorem storeInv_fresh : StoreInv Substitutions.fresh :=
  ⟨⟨fun _ => 0, nofun⟩, nofun⟩

variable {ty : Ty}

theorem bind_eq (h : applySubstitutions S n ty = some t) :
    bind n S v ty = some ((storedType v t).elim S fun t' => Function.update S v (some t')) := by
  unfold bind
  rw [h]
  cases hs : storedType v t <;> simp [hs]

theorem bind_mono {S' : Substitutions} (hnm : n ≤ m) (h : bind n S v ty = some S') :
    bind m S v ty = some S' := by
  obtain ⟨t, ht, -⟩ := Option.bind_eq_some_iff.mp h
  rw [bind_eq ht] at h
  rw [bind_eq (apply_mono hnm ht)]
  exact h

theorem bindAll_mono (hnm : n ≤ m) {S' : Substitutions} {l : List (TypeVar × Ty)}
    (h : bindAll n S l = some S') :
    bindAll m S l = some S' := by
  induction l generalizing S with
  | nil => exact h
  | cons b l ih =>
    obtain ⟨v, ty⟩ := b
    obtain ⟨S₁, h₁, h⟩ := Option.bind_eq_some_iff.mp h
    show (bind m S v ty).bind _ = _
    rw [bind_mono hnm h₁]
    exact ih h

theorem bindAll_snoc {l : List (TypeVar × Ty)} :
    bindAll n S (l ++ [(v, ty)]) = (bindAll n S l).bind fun S' => bind n S' v ty := by
  induction l generalizing S with
  | nil =>
    show (bind n S v ty).bind _ = bind n S v ty
    cases bind n S v ty <;> rfl
  | cons b l ih =>
    obtain ⟨w, u⟩ := b
    show (bind n S w u).bind _ = ((bind n S w u).bind _).bind _
    cases bind n S w u with
    | none => rfl
    | some S₁ => exact ih

theorem bindAll_unique {S₁ S₂ : Substitutions} {l : List (TypeVar × Ty)} (h₁ : bindAll n S l = some S₁)
    (h₂ : bindAll m S l = some S₂) : S₁ = S₂ := by
  have h₁ := bindAll_mono (Nat.le_max_left n m) h₁
  have h₂ := bindAll_mono (Nat.le_max_right n m) h₂
  exact Option.some.inj (h₁.symm.trans h₂)

/-- Every type that a call of the sequence stores is carriable. -/
def StoresCarriable (binds : List (TypeVar × Ty)) : Prop :=
  ∀ pre v ty post, binds = pre ++ (v, ty) :: post → ∀ n S t t',
    bindAll n Substitutions.fresh pre = some S → applySubstitutions S n ty = some t →
      storedType v t = some t' → Carriable t' = true

variable {binds : List (TypeVar × Ty)}

theorem exists_storeInv (h : StoresCarriable binds) (pre : List (TypeVar × Ty)) (hpre : pre <+: binds) :
    ∃ n S, bindAll n Substitutions.fresh pre = some S ∧ StoreInv S := by
  -- Induction on the calls made so far, the last one taken off.
  induction pre using List.reverseRecOn with
  | nil => exact ⟨0, _, rfl, storeInv_fresh⟩
  | append_singleton pre b ih =>
    obtain ⟨v, ty⟩ := b
    obtain ⟨n, S, hrun, hS⟩ := ih ((List.prefix_append pre _).trans hpre)
    obtain ⟨m, t, ht⟩ := exists_apply hS.ranked ty
    have hrun' := bindAll_mono (Nat.le_max_left n m) hrun
    have ht' := apply_mono (Nat.le_max_right n m) ht
    refine ⟨max n m, _, by rw [bindAll_snoc, hrun', Option.bind_some, bind_eq ht'], ?_⟩
    cases hst : storedType v t with
    | none => exact hS
    | some t' =>
      obtain ⟨post, hpost⟩ := hpre
      have hcarr := h pre v ty post (by rw [← hpost]; simp) _ S t t' hrun' ht' hst
      obtain ⟨rfl, hocc⟩ := storedType_eq_some hst
      exact hS.update ((boundFree_of_apply hS.resolves _).1 ty _ ht') hocc hcarr

/-- A carrier of a variable bound to a type it cannot take over is left in place. -/
theorem apply_carrier_of_not_carriable (hv : S v = some t) (ht : applySubstitutions S n t = some t)
    (hcarr : ¬ Carriable t = true) :
    applySubstitutions S (n + 3) (.concrete (.tyvar v)) = some (.concrete (.tyvar v)) := by
  have hvar : applySubstitutions S (n + 1) (.var v) = some t := by
    rw [applySubstitutions, hv]
    exact ht
  rw [applySubstitutions, applyToAnnot, hv, Option.elim_some, hvar, Option.map_some,
    Option.map_some, resolveCarrier_of_not_carriable _ hcarr]

theorem storesCarriable_of_acyclic
    (h : ∀ pre, pre <+: binds → ∃ n S, bindAll n Substitutions.fresh pre = some S ∧ Acyclic S) :
    StoresCarriable binds := by
  intro pre v ty post hbinds n S t t' hrun ht hst
  by_contra hcarr
  obtain ⟨rfl, hocc⟩ := storedType_eq_some hst
  have hpre : pre ++ [(v, ty)] <+: binds := ⟨post, by rw [hbinds]; simp⟩
  -- The stores before and after the call.
  have hS : Acyclic S := by
    obtain ⟨m, S₀, hrun₀, hS₀⟩ := h pre ⟨_, hbinds.symm⟩
    rw [bindAll_unique hrun hrun₀]
    exact hS₀
  have hS' : Acyclic (Function.update S v (some t')) := by
    obtain ⟨m, S₀, hrun₀, hS₀⟩ := h _ hpre
    have hrun' : bindAll n Substitutions.fresh (pre ++ [(v, ty)]) =
        some (Function.update S v (some t')) := by
      rw [bindAll_snoc, hrun, Option.bind_some, bind_eq ht, hst]
      rfl
    rw [bindAll_unique hrun' hrun₀]
    exact hS₀
  -- The stored type mentions no bound variable, so it resolves to itself.
  have hfree : ∀ w, occursCheck w t' = true → Function.update S v (some t') w = none := by
    intro w hw
    have hwv : w ≠ v := fun h => by rw [h, hocc] at hw; exact Bool.false_ne_true hw
    rw [Function.update_of_ne hwv]
    obtain ⟨m, r, hr, hfree, -⟩ := hS ty
    rw [apply_unique hr ht] at hfree
    exact hfree w hw
  obtain ⟨k, hk⟩ := exists_apply_self t' ((apply_clean S n).1 ty t' ht) hfree
  have hcarrier := apply_carrier_of_not_carriable (Function.update_self v (some t') S) hk hcarr
  obtain ⟨m, r, hr, hfree', -⟩ := hS' (.concrete (.tyvar v))
  rw [apply_unique hr hcarrier] at hfree'
  have hnone := hfree' v (by simp [occursCheck, annotOccurs])
  rw [Function.update_self] at hnone
  exact absurd hnone nofun

/-- Substitution stays acyclic along a sequence of calls if and only if every type stored can be
taken over by a carrier. -/
theorem substitution_acyclic_iff (binds : List (TypeVar × Ty)) :
    (∀ pre, pre <+: binds → ∃ n S, bindAll n Substitutions.fresh pre = some S ∧ Acyclic S) ↔
      StoresCarriable binds := by
  constructor
  · exact storesCarriable_of_acyclic
  · intro h pre hpre
    obtain ⟨n, S, hrun, hS⟩ := exists_storeInv h pre hpre
    exact ⟨n, S, hrun, hS.acyclic⟩

/-- `x := Vec<y>`, then `y` to an object with a field of type `x`. The carrier of `x` in the object
stays, because `Vec<y>` has no annotation form, and hides the cycle from the second call. -/
def carrierCycle : List (TypeVar × Ty) :=
  let x := TypeVar.inferenceHole 0 0
  let y := TypeVar.inferenceHole 0 1
  [(x, .generic (.concrete (.reference "Vec")) [.var y]),
    (y, .concrete (.object [⟨"f", false, .tyvar x, []⟩]))]

def carrierCycleStore : Substitutions :=
  Function.update
    (Function.update Substitutions.fresh (.inferenceHole 0 0)
      (some (.generic (.concrete (.reference "Vec")) [.var (.inferenceHole 0 1)])))
    (.inferenceHole 0 1) (some (.concrete (.object [⟨"f", false, .tyvar (.inferenceHole 0 0), []⟩])))

theorem carrierCycleStore_diverges (n : Nat) :
    applySubstitutions carrierCycleStore n (.var (.inferenceHole 0 0)) = none := by
  induction n using Nat.strong_induction_on with
  | _ n ih =>
    -- Six calls lead from the variable back to itself.
    match n with
    | 0 => rfl
    | 1 => rfl
    | 2 => rfl
    | 3 => rfl
    | 4 => rfl
    | 5 => rfl
    | n + 6 =>
      have hback := ih n (by omega)
      have hx : carrierCycleStore (.inferenceHole 0 0) =
        some (.generic (.concrete (.reference "Vec")) [.var (.inferenceHole 0 1)]) := rfl
      have hy : carrierCycleStore (.inferenceHole 0 1) =
        some (.concrete (.object [⟨"f", false, .tyvar (.inferenceHole 0 0), []⟩])) := rfl
      simp [applySubstitutions, applyToAnnot, Ty.rebuild, TypeAnnot.rebuild, hx, hy, hback]

theorem substitution_diverges_through_carrier :
    (∃ S, bindAll 7 Substitutions.fresh carrierCycle = some S ∧
      ∀ n, applySubstitutions S n (.var (.inferenceHole 0 0)) = none) ∧
    ¬ ∃ n S, bindAll n Substitutions.fresh carrierCycle = some S ∧ Acyclic S := by
  have hrun : bindAll 7 Substitutions.fresh carrierCycle = some carrierCycleStore := by rfl
  refine ⟨⟨carrierCycleStore, hrun, carrierCycleStore_diverges⟩, ?_⟩
  rintro ⟨n, S, hrun', hS⟩
  rw [bindAll_unique hrun' hrun] at hS
  obtain ⟨m, r, hr, -⟩ := hS (.var (.inferenceHole 0 0))
  rw [carrierCycleStore_diverges] at hr
  exact absurd hr nofun

end ShapeLang.TypeSystem
