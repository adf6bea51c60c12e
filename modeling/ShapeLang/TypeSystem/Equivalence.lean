import ShapeLang.TypeSystem.UnifierSound
import ShapeLang.TypeSystem.UnifyAnnotations

/-!
# ShapeLang — when two types are the same

`ConstraintSolver::probe_equal` (`crates/shape-runtime/src/type_system/constraints.rs`) is the one
type-equivalence relation of the engine: apply the bindings to both sides, bring both to the canonical
form, and compare structurally.

It is no equivalence relation on all types. An unproven effect row "compares equal to everything", so
that equality does not pass through it from one known row to another; and the comparison of annotations
has no arm for `dyn` and existential annotations, which are not even equal to themselves.

  * `canonicalize` — collections and functions in their inference form;
  * `annotationsEqual_iff` — two annotations are equal when they have the same head and their parts
    match; from it, symmetry, transitivity, and reflexivity away from `dyn` and existentials;
  * `probe_equal_relation` — what remains of the equivalence relation, in every state of the unifier.
-/

namespace ShapeLang.TypeSystem

/-! ## Declared effect rows -/

inductive EffectRowError where
  | atomIllegalAtStage (atom : String) (stage : EffectStage)
  | unknownAtom (name : String)

/-- The names of the atoms are distinct, `Suspend` among them. -/
def EffectAtom.fromSourceName (name : String) : Option EffectAtom :=
  EffectAtom.all.find? fun atom => atom.canonicalName = name

def EffectAtom.legalAt (stage : EffectStage) : EffectAtom → Bool
  | .suspend => stage = .runtime
  | _ => true

namespace ClosedEffectRow

def currentCatalog : Nat := 1

def pure (stage : EffectStage) : ClosedEffectRow := ⟨stage, currentCatalog, ∅⟩

def insert (row : ClosedEffectRow) (atom : EffectAtom) : Except EffectRowError ClosedEffectRow :=
  if atom.legalAt row.stage then .ok { row with atoms := Insert.insert atom row.atoms }
  else .error (.atomIllegalAtStage atom.canonicalName row.stage)

end ClosedEffectRow

def resolveRowAnnot (stage : EffectStage) : EffectRowAnnot → Except EffectRowError EffectRow
  | .atoms names => do
    let row ← names.foldlM (fun (row : ClosedEffectRow) name =>
      match EffectAtom.fromSourceName name with
      | none => .error (.unknownAtom name)
      | some atom => row.insert atom) (ClosedEffectRow.pure stage)
    .ok (.closed row)
  | .param name => .ok (.param name)

/-- No declared row is a proof gap, not a claim of purity. -/
def resolveOptionalRowAnnot (declared : Option EffectRowAnnot) (stage : EffectStage) :
    Except EffectRowError EffectRow :=
  match declared with
  | some ann => resolveRowAnnot stage ann
  | none => .ok .unproven

/-! ## The canonical form -/

mutual

def canonicalizeAnnot : TypeAnnot → Ty
  | .array elem => .generic (.concrete (.reference "Array")) [canonicalizeAnnot elem]
  | .generic name args => .generic (.concrete (.reference name)) (canonicalizeAnnots args)
  | .function params returns effects =>
    .function (canonicalizeParams params) (canonicalizeAnnot returns)
      -- a row that does not resolve is a proof gap as well
      (match resolveOptionalRowAnnot effects .runtime with
        | .ok row => row
        | .error _ => .unproven)
  | other => .concrete other

def canonicalizeAnnots : List TypeAnnot → List Ty
  | [] => []
  | ann :: anns => canonicalizeAnnot ann :: canonicalizeAnnots anns

def canonicalizeParams : List (FunctionParam TypeAnnot) → List Ty
  | [] => []
  | ⟨_, _, ann⟩ :: params => canonicalizeAnnot ann :: canonicalizeParams params

end

/-- `Vec` is another name of `Array`. -/
def canonicalizeCollectionBase (base canonical : Ty) : Ty :=
  match base with
  | .concrete (.reference name) => if name = "Vec" then .concrete (.reference "Array") else canonical
  | _ => canonical

mutual

def Ty.canonicalize : Ty → Ty
  | .concrete ann => canonicalizeAnnot ann
  | .var v => .var v
  | .constrained v c => .constrained v c
  | .generic base args =>
    .generic (canonicalizeCollectionBase base base.canonicalize) (canonicalizeAll args)
  | .function params returns effects => .function (canonicalizeAll params) returns.canonicalize effects

def canonicalizeAll : List Ty → List Ty
  | [] => []
  | ty :: tys => ty.canonicalize :: canonicalizeAll tys

end

/-! ## The comparison -/

/-- An unproven row compares equal to everything. -/
def rowsStructurallyEqual : EffectRow → EffectRow → Bool
  | .unproven, _ => true
  | _, .unproven => true
  | left, right => left == right

mutual

def typesEquivalent : Ty → Ty → Bool
  | .var v₁ => fun | .var v₂ => v₁ == v₂ | _ => false
  | .concrete ann₁ => fun | .concrete ann₂ => annotationsEqual ann₁ ann₂ | _ => false
  | .generic b₁ a₁ => fun
    | .generic b₂ a₂ => typesEquivalent b₁ b₂ && zipTests (typeTests a₁) a₂
    | _ => false
  | .constrained v₁ _ => fun | .constrained v₂ _ => v₁ == v₂ | _ => false
  | .function p₁ r₁ e₁ => fun
    | .function p₂ r₂ e₂ =>
      rowsStructurallyEqual e₁ e₂ && zipTests (typeTests p₁) p₂ && typesEquivalent r₁ r₂
    | _ => false

def typeTests : List Ty → List (Ty → Bool)
  | [] => []
  | ty :: tys => typesEquivalent ty :: typeTests tys

end

/-- The types as they are compared, and the comparison. -/
def probeEqual (S : Substitutions) (fuel : Nat) (t₁ t₂ : Ty) : Option Bool := do
  let a ← applySubstitutions S fuel t₁
  let b ← applySubstitutions S fuel t₂
  some (typesEquivalent a.canonicalize b.canonicalize)

/-! ## Lists that match -/

section Lists

variable {α : Type} {R : α → α → Prop} {l₁ l₂ l₃ : List α}

/-- Every member of either list has a counterpart in the other. -/
structure SameMembers (R : α → α → Prop) (l₁ l₂ : List α) : Prop where
  length : l₁.length = l₂.length
  right : ∀ a ∈ l₁, ∃ b ∈ l₂, R a b
  left : ∀ b ∈ l₂, ∃ a ∈ l₁, R a b

theorem SameMembers.symm (h : SameMembers R l₁ l₂) (hsymm : ∀ a ∈ l₁, ∀ b, R a b → R b a) :
    SameMembers R l₂ l₁ := by
  refine ⟨h.length.symm, fun b hb => ?_, fun a ha => ?_⟩
  · obtain ⟨a, ha, hab⟩ := h.left b hb
    exact ⟨a, ha, hsymm a ha b hab⟩
  · obtain ⟨b, hb, hab⟩ := h.right a ha
    exact ⟨b, hb, hsymm a ha b hab⟩

theorem SameMembers.trans (h : SameMembers R l₁ l₂) (h' : SameMembers R l₂ l₃)
    (htrans : ∀ b ∈ l₂, ∀ a c, R a b → R b c → R a c) : SameMembers R l₁ l₃ := by
  refine ⟨h.length.trans h'.length, fun a ha => ?_, fun c hc => ?_⟩
  · obtain ⟨b, hb, hab⟩ := h.right a ha
    obtain ⟨c, hc, hbc⟩ := h'.right b hb
    exact ⟨c, hc, htrans b hb a c hab hbc⟩
  · obtain ⟨b, hb, hbc⟩ := h'.left c hc
    obtain ⟨a, ha, hab⟩ := h.left b hb
    exact ⟨a, ha, htrans b hb a c hab hbc⟩

theorem forall₂_symm (h : List.Forall₂ R l₁ l₂) (hsymm : ∀ a ∈ l₁, ∀ b, R a b → R b a) :
    List.Forall₂ R l₂ l₁ := by
  induction h with
  | nil => exact .nil
  | cons hab _ ih =>
    exact .cons (hsymm _ List.mem_cons_self _ hab) (ih fun a ha => hsymm a (List.mem_cons_of_mem _ ha))

theorem forall₂_trans (h : List.Forall₂ R l₁ l₂) (h' : List.Forall₂ R l₂ l₃)
    (htrans : ∀ b ∈ l₂, ∀ a c, R a b → R b c → R a c) : List.Forall₂ R l₁ l₃ := by
  induction h generalizing l₃ with
  | nil => exact h'
  | cons hab _ ih =>
    cases h' with
    | cons hbc hrest =>
      exact .cons (htrans _ List.mem_cons_self _ _ hab hbc)
        (ih hrest fun b hb => htrans b (List.mem_cons_of_mem _ hb))

theorem forall₂_concat {a b : α} :
    List.Forall₂ R (l₁ ++ [a]) (l₂ ++ [b]) ↔ List.Forall₂ R l₁ l₂ ∧ R a b := by
  rw [← List.forall₂_reverse_iff, List.reverse_append, List.reverse_append]
  simp [and_comm]

theorem zipTests_iff {test : α → α → Bool} :
    zipTests (l₁.map test) l₂ = true ↔ List.Forall₂ (fun a b => test a b = true) l₁ l₂ := by
  unfold zipTests
  rw [List.forall₂_iff_zip]
  simp [List.zip_map_left]

theorem setTests_iff {test : α → α → Bool} :
    setTests (l₁.map test) l₂ = true ↔ SameMembers (fun a b => test a b = true) l₁ l₂ := by
  unfold setTests
  simp only [List.length_map, Bool.and_eq_true, beq_iff_eq, List.all_map, List.all_eq_true,
    Function.comp_apply, List.any_eq_true, List.any_map]
  exact ⟨fun h => ⟨h.1.1, h.1.2, h.2⟩, fun h => ⟨⟨h.length, h.right⟩, h.left⟩⟩

end Lists

/-! ## Annotations -/

/-- What two equal annotations share besides their parts. -/
inductive AnnotHead where
  | basic (name : String)
  | tyvar (var : TypeVar)
  | array
  | tuple
  | object (fields : List (String × Bool))
  | function (optional : List Bool)
  | union
  | intersection
  | generic (name : String)
  | reference (name : String)
  | borrow (mutable : Bool)
  | void
  | never
  | null
  | undefined
  deriving DecidableEq

/-- `dyn` and existential annotations have no arm in the comparison, and no head here. -/
def TypeAnnot.head : TypeAnnot → Option AnnotHead
  | .basic name => some (.basic name)
  | .tyvar v => some (.tyvar v)
  | .array _ => some .array
  | .tuple _ => some .tuple
  | .object fields => some (.object (fields.map fun field => (field.name, field.optional)))
  | .function params _ _ => some (.function (params.map (·.optional)))
  | .union _ => some .union
  | .intersection _ => some .intersection
  | .generic name _ => some (.generic name)
  | .reference name => some (.reference name)
  | .borrow mutable _ => some (.borrow mutable)
  | .void => some .void
  | .never => some .never
  | .null => some .null
  | .undefined => some .undefined
  | .dyn _ => none
  | .existential _ _ => none

/-- The parts of a union or an intersection match in any order, all others position by position. -/
def PartsMatch {α : Type} (R : α → α → Prop) : AnnotHead → List α → List α → Prop
  | .union => SameMembers R
  | .intersection => SameMembers R
  | _ => List.Forall₂ R

section Parts

variable {α : Type} {R : α → α → Prop} {head : AnnotHead} {l₁ l₂ l₃ : List α}

theorem PartsMatch.refl (h : ∀ a ∈ l₁, R a a) : PartsMatch R head l₁ l₁ := by
  have hset : SameMembers R l₁ l₁ := ⟨rfl, fun a ha => ⟨a, ha, h a ha⟩, fun a ha => ⟨a, ha, h a ha⟩⟩
  have hzip : List.Forall₂ R l₁ l₁ := List.forall₂_same.mpr h
  cases head with
  | union => exact hset
  | intersection => exact hset
  | _ => exact hzip

theorem PartsMatch.symm (h : PartsMatch R head l₁ l₂) (hsymm : ∀ a ∈ l₁, ∀ b, R a b → R b a) :
    PartsMatch R head l₂ l₁ := by
  cases head with
  | union => exact SameMembers.symm h hsymm
  | intersection => exact SameMembers.symm h hsymm
  | _ => exact forall₂_symm h hsymm

theorem PartsMatch.trans (h : PartsMatch R head l₁ l₂) (h' : PartsMatch R head l₂ l₃)
    (htrans : ∀ b ∈ l₂, ∀ a c, R a b → R b c → R a c) : PartsMatch R head l₁ l₃ := by
  cases head with
  | union => exact SameMembers.trans h h' htrans
  | intersection => exact SameMembers.trans h h' htrans
  | _ => exact forall₂_trans h h' htrans

end Parts

theorem annotationTests_eq (anns : List TypeAnnot) : annotationTests anns = anns.map annotationsEqual := by
  induction anns with
  | nil => rfl
  | cons ann anns ih => rw [annotationTests, ih, List.map_cons]

theorem zip_fieldTests_iff {f₁ f₂ : List (ObjectTypeField TypeAnnot)} :
    zipTests (fieldTests f₁) f₂ = true ↔
      (f₁.map fun field => (field.name, field.optional)) =
        (f₂.map fun field => (field.name, field.optional)) ∧
        List.Forall₂ (fun a b => annotationsEqual a b = true) (f₁.map (·.typeAnnot))
          (f₂.map (·.typeAnnot)) := by
  induction f₁ generalizing f₂ with
  | nil => cases f₂ <;> simp [fieldTests, zipTests]
  | cons field f₁ ih =>
    cases f₂ with
    | nil => simp [fieldTests, zipTests]
    | cons field' f₂ =>
      have ih' := @ih f₂
      simp only [zipTests, Bool.and_eq_true, beq_iff_eq] at ih'
      simp only [zipTests, fieldTests, List.length_cons, List.zip_cons_cons, List.all_cons,
        Bool.and_eq_true, beq_iff_eq, Nat.add_right_cancel_iff, List.map_cons, List.cons.injEq,
        Prod.mk.injEq, List.forall₂_cons]
      constructor
      · rintro ⟨hlen, ⟨⟨hname, hopt⟩, hann⟩, hrest⟩
        obtain ⟨hnames, hparts⟩ := ih'.mp ⟨hlen, hrest⟩
        exact ⟨⟨⟨hname, hopt⟩, hnames⟩, hann, hparts⟩
      · rintro ⟨⟨⟨hname, hopt⟩, hnames⟩, hann, hparts⟩
        obtain ⟨hlen, hrest⟩ := ih'.mpr ⟨hnames, hparts⟩
        exact ⟨hlen, ⟨⟨hname, hopt⟩, hann⟩, hrest⟩

theorem zip_paramTests_iff {p₁ p₂ : List (FunctionParam TypeAnnot)} :
    zipTests (paramTests p₁) p₂ = true ↔ (p₁.map (·.optional)) = (p₂.map (·.optional)) ∧
      List.Forall₂ (fun a b => annotationsEqual a b = true) (p₁.map (·.typeAnnot))
        (p₂.map (·.typeAnnot)) := by
  induction p₁ generalizing p₂ with
  | nil => cases p₂ <;> simp [paramTests, zipTests]
  | cons param p₁ ih =>
    cases p₂ with
    | nil => simp [paramTests, zipTests]
    | cons param' p₂ =>
      have ih' := @ih p₂
      simp only [zipTests, Bool.and_eq_true, beq_iff_eq] at ih'
      simp only [zipTests, paramTests, List.length_cons, List.zip_cons_cons, List.all_cons,
        Bool.and_eq_true, beq_iff_eq, Nat.add_right_cancel_iff, List.map_cons, List.cons.injEq,
        List.forall₂_cons]
      constructor
      · rintro ⟨hlen, ⟨hopt, hann⟩, hrest⟩
        obtain ⟨hopts, hparts⟩ := ih'.mp ⟨hlen, hrest⟩
        exact ⟨⟨hopt, hopts⟩, hann, hparts⟩
      · rintro ⟨⟨hopt, hopts⟩, hann, hparts⟩
        obtain ⟨hlen, hrest⟩ := ih'.mpr ⟨hopts, hparts⟩
        exact ⟨hlen, ⟨hopt, hann⟩, hrest⟩

/-- Equal annotations have the same head, and parts that match. -/
theorem annotationsEqual_iff {a b : TypeAnnot} : annotationsEqual a b = true ↔
    ∃ head, b.head = some head ∧ a.head = some head ∧
      PartsMatch (fun c d => annotationsEqual c d = true) head a.children b.children := by
  cases a with
  | tuple elems =>
    cases b <;> simp [annotationsEqual, TypeAnnot.head, TypeAnnot.children, PartsMatch, annotationTests_eq,
      zipTests_iff]
  | object fields =>
    cases b <;> simp [annotationsEqual, TypeAnnot.head, TypeAnnot.children, PartsMatch, zip_fieldTests_iff]
  | function params returns effects =>
    cases b <;> simp [annotationsEqual, TypeAnnot.head, TypeAnnot.children, PartsMatch, zip_paramTests_iff,
      forall₂_concat, and_assoc]
  | union types =>
    cases b <;> simp [annotationsEqual, TypeAnnot.head, TypeAnnot.children, PartsMatch, annotationTests_eq,
      setTests_iff]
  | intersection types =>
    cases b <;> simp [annotationsEqual, TypeAnnot.head, TypeAnnot.children, PartsMatch, annotationTests_eq,
      setTests_iff]
  | generic name args =>
    cases b <;> simp [annotationsEqual, TypeAnnot.head, TypeAnnot.children, PartsMatch, annotationTests_eq,
      zipTests_iff]
  | _ => cases b <;> simp [annotationsEqual, TypeAnnot.head, TypeAnnot.children, PartsMatch]

/-- No `dyn` and no existential annotation, at any depth. -/
inductive TypeAnnot.Comparable : TypeAnnot → Prop where
  | intro {a : TypeAnnot} (head : a.head ≠ none) (parts : ∀ c ∈ a.children, Comparable c) : Comparable a

theorem annotationsEqual_refl {a : TypeAnnot} (h : a.Comparable) : annotationsEqual a a = true := by
  induction h with
  | @intro a hhead _ ih =>
    obtain ⟨head, hhead⟩ := Option.ne_none_iff_exists'.mp hhead
    exact annotationsEqual_iff.mpr ⟨head, hhead, hhead, .refl ih⟩

theorem annotationsEqual_symm {a : TypeAnnot} : ∀ {b}, annotationsEqual a b = true →
    annotationsEqual b a = true := by
  induction a using TypeAnnot.children_induction with
  | h a ih =>
    intro b hab
    obtain ⟨head, hb, ha, hparts⟩ := annotationsEqual_iff.mp hab
    exact annotationsEqual_iff.mpr ⟨head, ha, hb, hparts.symm fun c hc _ => ih c hc⟩

theorem annotationsEqual_trans {b : TypeAnnot} : ∀ {a c}, annotationsEqual a b = true →
    annotationsEqual b c = true → annotationsEqual a c = true := by
  induction b using TypeAnnot.children_induction with
  | h b ih =>
    intro a c hab hbc
    obtain ⟨head, hb, ha, hparts⟩ := annotationsEqual_iff.mp hab
    obtain ⟨head', hc, hb', hparts'⟩ := annotationsEqual_iff.mp hbc
    obtain rfl : head = head' := Option.some.inj (hb.symm.trans hb')
    exact annotationsEqual_iff.mpr ⟨head, hc, ha, hparts.trans hparts' fun d hd _ _ => ih d hd⟩

/-! ## Rows -/

theorem rowsStructurallyEqual_refl (row : EffectRow) : rowsStructurallyEqual row row = true := by
  cases row <;> simp [rowsStructurallyEqual]

theorem rowsStructurallyEqual_symm {left right : EffectRow} (h : rowsStructurallyEqual left right = true) :
    rowsStructurallyEqual right left = true := by
  cases left <;> cases right <;> simp_all [rowsStructurallyEqual]

/-- Equality passes through a row that is known. -/
theorem rowsStructurallyEqual_trans {left middle right : EffectRow} (hknown : middle ≠ .unproven)
    (h : rowsStructurallyEqual left middle = true) (h' : rowsStructurallyEqual middle right = true) :
    rowsStructurallyEqual left right = true := by
  have hcases : ∀ {row row' : EffectRow}, rowsStructurallyEqual row row' = true →
      row = .unproven ∨ row' = .unproven ∨ row = row' := by
    intro row row' hrows
    unfold rowsStructurallyEqual at hrows
    split at hrows
    · exact Or.inl rfl
    · exact Or.inr (Or.inl rfl)
    · exact Or.inr (Or.inr (beq_iff_eq.mp hrows))
  rcases hcases h with rfl | hunproven | rfl
  · rfl
  · exact absurd hunproven hknown
  · exact h'

/-! ## Types -/

theorem typeTests_eq (tys : List Ty) : typeTests tys = tys.map typesEquivalent := by
  induction tys with
  | nil => rfl
  | cons ty tys ih => rw [typeTests, ih, List.map_cons]

/-- Equivalent types, one level at a time. -/
theorem typesEquivalent_cases {a b : Ty} (h : typesEquivalent a b = true) :
    (∃ v, a = .var v ∧ b = .var v) ∨ (∃ v c c', a = .constrained v c ∧ b = .constrained v c') ∨
    (∃ x y, a = .concrete x ∧ b = .concrete y ∧ annotationsEqual x y = true) ∨
    (∃ b₁ a₁ b₂ a₂, a = .generic b₁ a₁ ∧ b = .generic b₂ a₂ ∧ typesEquivalent b₁ b₂ = true ∧
      List.Forall₂ (fun x y => typesEquivalent x y = true) a₁ a₂) ∨
    ∃ p₁ r₁ e₁ p₂ r₂ e₂, a = .function p₁ r₁ e₁ ∧ b = .function p₂ r₂ e₂ ∧
      rowsStructurallyEqual e₁ e₂ = true ∧
      List.Forall₂ (fun x y => typesEquivalent x y = true) p₁ p₂ ∧ typesEquivalent r₁ r₂ = true := by
  cases a <;> cases b <;> simp_all [typesEquivalent, typeTests_eq, zipTests_iff]

theorem typesEquivalent_generic {b₁ b₂ : Ty} {a₁ a₂ : List Ty} (hbase : typesEquivalent b₁ b₂ = true)
    (hargs : List.Forall₂ (fun x y => typesEquivalent x y = true) a₁ a₂) :
    typesEquivalent (.generic b₁ a₁) (.generic b₂ a₂) = true := by
  simp [typesEquivalent, typeTests_eq, zipTests_iff, hbase, hargs]

theorem typesEquivalent_function {p₁ p₂ : List Ty} {r₁ r₂ : Ty} {e₁ e₂ : EffectRow}
    (hrow : rowsStructurallyEqual e₁ e₂ = true)
    (hparams : List.Forall₂ (fun x y => typesEquivalent x y = true) p₁ p₂)
    (hreturns : typesEquivalent r₁ r₂ = true) :
    typesEquivalent (.function p₁ r₁ e₁) (.function p₂ r₂ e₂) = true := by
  simp [typesEquivalent, typeTests_eq, zipTests_iff, hrow, hparams, hreturns]

inductive Ty.Comparable : Ty → Prop where
  | intro {t : Ty} (ann : ∀ a, t = .concrete a → a.Comparable) (parts : ∀ c ∈ t.children, Comparable c) :
    Comparable t

/-- No function type has an unproven row. -/
inductive Ty.RowsKnown : Ty → Prop where
  | intro {t : Ty} (row : ∀ params returns, t ≠ .function params returns .unproven)
    (parts : ∀ c ∈ t.children, RowsKnown c) : RowsKnown t

theorem typesEquivalent_refl {t : Ty} (h : t.Comparable) : typesEquivalent t t = true := by
  induction h with
  | @intro t hann _ ih =>
    cases t with
    | concrete a => exact annotationsEqual_refl (hann a rfl)
    | var v => simp [typesEquivalent]
    | constrained v c => simp [typesEquivalent]
    | generic base args =>
      exact typesEquivalent_generic (ih base List.mem_cons_self)
        (List.forall₂_same.mpr fun c hc => ih c (List.mem_cons_of_mem _ hc))
    | function params returns effects =>
      exact typesEquivalent_function (rowsStructurallyEqual_refl effects)
        (List.forall₂_same.mpr fun c hc => ih c (List.mem_append_left _ hc))
        (ih returns (List.mem_append_right _ (List.mem_singleton_self _)))

theorem typesEquivalent_symm {a : Ty} : ∀ {b}, typesEquivalent a b = true → typesEquivalent b a = true := by
  induction a using Ty.children_induction with
  | h a ih =>
    intro b hab
    rcases typesEquivalent_cases hab with ⟨v, rfl, rfl⟩ | ⟨v, c, c', rfl, rfl⟩ | ⟨x, y, rfl, rfl, hann⟩ |
      ⟨b₁, a₁, b₂, a₂, rfl, rfl, hbase, hargs⟩ | ⟨p₁, r₁, e₁, p₂, r₂, e₂, rfl, rfl, hrow, hparams, hreturns⟩
    · exact hab
    · simp [typesEquivalent]
    · exact annotationsEqual_symm hann
    · exact typesEquivalent_generic (ih b₁ List.mem_cons_self hbase)
        (forall₂_symm hargs fun c hc _ => ih c (List.mem_cons_of_mem _ hc))
    · exact typesEquivalent_function (rowsStructurallyEqual_symm hrow)
        (forall₂_symm hparams fun c hc _ => ih c (List.mem_append_left _ hc))
        (ih r₁ (List.mem_append_right _ (List.mem_singleton_self _)) hreturns)

/-- Equivalence passes through a type whose rows are known. -/
theorem typesEquivalent_trans {b : Ty} (hknown : b.RowsKnown) : ∀ {a c}, typesEquivalent a b = true →
    typesEquivalent b c = true → typesEquivalent a c = true := by
  induction hknown with
  | @intro b hrowKnown _ ih =>
    intro a c hab hbc
    rcases typesEquivalent_cases hab with ⟨v, rfl, rfl⟩ | ⟨v, k, k', rfl, rfl⟩ | ⟨x, y, rfl, rfl, hann⟩ |
      ⟨b₁, a₁, b₂, a₂, rfl, rfl, hbase, hargs⟩ | ⟨p₁, r₁, e₁, p₂, r₂, e₂, rfl, rfl, hrow, hparams, hreturns⟩
    · exact hbc
    · exact hbc
    · rcases typesEquivalent_cases hbc with ⟨_, h, -⟩ | ⟨_, _, _, h, -⟩ | ⟨y', z, h, rfl, hann'⟩ |
        ⟨_, _, _, _, h, -⟩ | ⟨_, _, _, _, _, _, h, -⟩
      · cases h
      · cases h
      · obtain rfl := Ty.concrete.inj h
        exact annotationsEqual_trans hann hann'
      · cases h
      · cases h
    · rcases typesEquivalent_cases hbc with ⟨_, h, -⟩ | ⟨_, _, _, h, -⟩ | ⟨_, _, h, -⟩ |
        ⟨b₂', a₂', b₃, a₃, h, rfl, hbase', hargs'⟩ | ⟨_, _, _, _, _, _, h, -⟩
      · cases h
      · cases h
      · cases h
      · obtain ⟨rfl, rfl⟩ := Ty.generic.inj h
        exact typesEquivalent_generic (ih b₂ List.mem_cons_self hbase hbase')
          (forall₂_trans hargs hargs' fun d hd _ _ => ih d (List.mem_cons_of_mem _ hd))
      · cases h
    · rcases typesEquivalent_cases hbc with ⟨_, h, -⟩ | ⟨_, _, _, h, -⟩ | ⟨_, _, h, -⟩ |
        ⟨_, _, _, _, h, -⟩ | ⟨p₂', r₂', e₂', p₃, r₃, e₃, h, rfl, hrow', hparams', hreturns'⟩
      · cases h
      · cases h
      · cases h
      · cases h
      · obtain ⟨rfl, rfl, rfl⟩ := Ty.function.inj h
        exact typesEquivalent_function
          (rowsStructurallyEqual_trans (fun he => hrowKnown p₂ r₂ (he ▸ rfl)) hrow hrow')
          (forall₂_trans hparams hparams' fun d hd _ _ => ih d (List.mem_append_left _ hd))
          (ih r₂ (List.mem_append_right _ (List.mem_singleton_self _)) hreturns hreturns')

/-! ## The probe -/

/-- `c` is what `t` is compared as: its bindings applied, in canonical form. -/
def Compared (S : Substitutions) (t c : Ty) : Prop :=
  ∃ fuel r, applySubstitutions S fuel t = some r ∧ r.canonicalize = c

/-- The probe returns, and finds the types equal. -/
def ProbesEqual (S : Substitutions) (a b : Ty) : Prop := ∃ fuel, probeEqual S fuel a b = some true

/-- Every variable in the type resolves. -/
def Resolvable (S : Substitutions) (t : Ty) : Prop :=
  ∀ v, occursCheck v t = true → ∃ fuel r, applySubstitutions S fuel (.var v) = some r

section Probe

variable {S : Substitutions} {a b ca cb : Ty}

theorem Compared.unique (h : Compared S a ca) (h' : Compared S a cb) : ca = cb := by
  obtain ⟨_, r, hr, rfl⟩ := h
  obtain ⟨_, r', hr', rfl⟩ := h'
  rw [apply_unique hr hr']

theorem exists_probeEqual (ha : Compared S a ca) (hb : Compared S b cb) :
    ∃ fuel, probeEqual S fuel a b = some (typesEquivalent ca cb) := by
  obtain ⟨n, r, hr, rfl⟩ := ha
  obtain ⟨m, r', hr', rfl⟩ := hb
  refine ⟨max n m, ?_⟩
  unfold probeEqual
  rw [apply_mono (Nat.le_max_left n m) hr, apply_mono (Nat.le_max_right n m) hr']
  rfl

theorem probesEqual_iff :
    ProbesEqual S a b ↔ ∃ ca cb, Compared S a ca ∧ Compared S b cb ∧ typesEquivalent ca cb = true := by
  constructor
  · rintro ⟨fuel, h⟩
    obtain ⟨r, hr, h⟩ := Option.bind_eq_some_iff.mp h
    obtain ⟨r', hr', h⟩ := Option.bind_eq_some_iff.mp h
    exact ⟨_, _, ⟨fuel, r, hr, rfl⟩, ⟨fuel, r', hr', rfl⟩, Option.some.inj h⟩
  · rintro ⟨ca, cb, ha, hb, heq⟩
    obtain ⟨fuel, hfuel⟩ := exists_probeEqual ha hb
    exact ⟨fuel, by rw [hfuel, heq]⟩

end Probe

/-- **What holds of type equality in every state of the unifier.** On types whose variables resolve
the probe returns; it is symmetric, reflexive on types without `dyn` and existential annotations,
and transitive through a type whose effect rows are known. -/
theorem probe_equal_relation (S : Substitutions) :
    (∀ t, Resolvable S t → ∃ c, Compared S t c) ∧
    (∀ a b ca cb, Compared S a ca → Compared S b cb → ∃ fuel res, probeEqual S fuel a b = some res) ∧
    (∀ a c, Compared S a c → c.Comparable → ProbesEqual S a a) ∧
    (∀ a b, ProbesEqual S a b → ProbesEqual S b a) ∧
    ∀ a b c m, ProbesEqual S a b → ProbesEqual S b c → Compared S b m → m.RowsKnown →
      ProbesEqual S a c := by
  refine ⟨fun t ht => ?_, fun a b ca cb ha hb => ?_, fun a c hc hcomparable => ?_, fun a b hab => ?_,
    fun a b c m hab hbc hm hknown => ?_⟩
  · obtain ⟨fuel, r, hr⟩ := exists_apply_of_vars t ht
    exact ⟨r.canonicalize, fuel, r, hr, rfl⟩
  · obtain ⟨fuel, hfuel⟩ := exists_probeEqual ha hb
    exact ⟨fuel, _, hfuel⟩
  · exact probesEqual_iff.mpr ⟨c, c, hc, hc, typesEquivalent_refl hcomparable⟩
  · obtain ⟨ca, cb, ha, hb, heq⟩ := probesEqual_iff.mp hab
    exact probesEqual_iff.mpr ⟨cb, ca, hb, ha, typesEquivalent_symm heq⟩
  · obtain ⟨ca, cb, ha, hb, heq⟩ := probesEqual_iff.mp hab
    obtain ⟨cb', cc, hb', hc, heq'⟩ := probesEqual_iff.mp hbc
    obtain rfl := hb.unique hm
    obtain rfl := hb'.unique hm
    exact probesEqual_iff.mpr ⟨ca, cc, ha, hc, typesEquivalent_trans hknown heq heq'⟩

/-! ## A function type with a row, and a trait object -/

/-- `(int) => int`, with an effect row. -/
def intFunction (effects : EffectRow) : Ty :=
  .function [.concrete (.basic "int")] (.concrete (.basic "int")) effects

theorem resolvable_intFunction (S : Substitutions) (effects : EffectRow) :
    Resolvable S (intFunction effects) := by
  intro v hv
  simp [intFunction, occursCheck, anyOccurs, annotOccurs] at hv

theorem compared_intFunction (S : Substitutions) (effects : EffectRow) :
    Compared S (intFunction effects) (intFunction effects) :=
  ⟨3, intFunction effects, rfl, rfl⟩

theorem intFunction_parts {P : Ty → Prop} (h : P (.concrete (.basic "int"))) (effects : EffectRow) :
    ∀ c ∈ (intFunction effects).children, P c := by
  intro c hc
  have hmem : c = .concrete (.basic "int") := by
    simpa [intFunction, Ty.children] using hc
  exact hmem ▸ h

theorem comparable_intFunction (effects : EffectRow) : (intFunction effects).Comparable := by
  have hint : (Ty.concrete (.basic "int")).Comparable := by
    refine ⟨fun a ha => ?_, fun c hc => absurd hc List.not_mem_nil⟩
    obtain rfl := Ty.concrete.inj ha
    exact ⟨by simp [TypeAnnot.head], fun c hc => absurd hc List.not_mem_nil⟩
  exact ⟨fun a ha => (nomatch ha), intFunction_parts hint effects⟩

theorem rowsKnown_intFunction {effects : EffectRow} (h : effects ≠ .unproven) :
    (intFunction effects).RowsKnown := by
  have hint : (Ty.concrete (.basic "int")).RowsKnown :=
    ⟨fun _ _ h => (nomatch h), fun c hc => absurd hc List.not_mem_nil⟩
  refine ⟨fun params returns heq => h ?_, intFunction_parts hint effects⟩
  exact (Ty.function.inj heq).2.2

theorem probe_equal_relation_intFunction :
    Resolvable Substitutions.fresh (intFunction (.param "E")) ∧
    ProbesEqual Substitutions.fresh (intFunction (.param "E")) (intFunction (.param "E")) ∧
    ProbesEqual Substitutions.fresh (intFunction .unproven) (intFunction (.param "E")) ∧
    ProbesEqual Substitutions.fresh (intFunction (.param "E")) (intFunction .unproven) := by
  obtain ⟨-, -, hrefl, hsymm, htrans⟩ := probe_equal_relation Substitutions.fresh
  have hself := hrefl _ _ (compared_intFunction _ (.param "E")) (comparable_intFunction _)
  have hgap : ProbesEqual Substitutions.fresh (intFunction .unproven) (intFunction (.param "E")) :=
    ⟨3, by rfl⟩
  refine ⟨resolvable_intFunction _ _, hself, ?_, hsymm _ _ hgap⟩
  exact htrans _ _ _ _ hgap hself (compared_intFunction _ _) (rowsKnown_intFunction (by simp))

/-- **Type equality is not an equivalence relation.** A `dyn` annotation is not equal to itself, and
an unproven row is equal to two known rows that differ. -/
theorem probe_equal_not_equivalence :
    (Resolvable Substitutions.fresh (.concrete (.dyn ["Show"])) ∧
      ¬ ProbesEqual Substitutions.fresh (.concrete (.dyn ["Show"])) (.concrete (.dyn ["Show"]))) ∧
    (∀ effects, Resolvable Substitutions.fresh (intFunction effects)) ∧
    ProbesEqual Substitutions.fresh (intFunction (.closed (.pure .runtime))) (intFunction .unproven) ∧
    ProbesEqual Substitutions.fresh (intFunction .unproven) (intFunction (.param "E")) ∧
    ¬ ProbesEqual Substitutions.fresh (intFunction (.closed (.pure .runtime)))
      (intFunction (.param "E")) := by
  refine ⟨⟨fun v hv => ?_, fun h => ?_⟩, resolvable_intFunction _, ⟨3, by rfl⟩, ⟨3, by rfl⟩, fun h => ?_⟩
  · simp [occursCheck, annotOccurs] at hv
  · obtain ⟨ca, cb, ha, hb, heq⟩ := probesEqual_iff.mp h
    have hself : Compared Substitutions.fresh (.concrete (.dyn ["Show"])) (.concrete (.dyn ["Show"])) :=
      ⟨2, _, rfl, rfl⟩
    obtain rfl := ha.unique hself
    obtain rfl := hb.unique hself
    cases heq
  · obtain ⟨ca, cb, ha, hb, heq⟩ := probesEqual_iff.mp h
    obtain rfl := ha.unique (compared_intFunction _ _)
    obtain rfl := hb.unique (compared_intFunction _ _)
    revert heq
    decide

end ShapeLang.TypeSystem
