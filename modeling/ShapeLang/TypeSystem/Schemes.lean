import ShapeLang.Lib.HashMap
import ShapeLang.TypeSystem.UnifierSound

/-!
# ShapeLang — instantiating type schemes

A scheme quantifies variables over a body (`crates/shape-runtime/src/type_system/types/core.rs`).
Each use of it takes a fresh variable for every quantified one and substitutes. `substitute`
rebuilds the body; it passes over annotations, constraints and effect rows.

Holes come from a generator. Generators are not cloneable, no two have the same owner and nothing
else makes a hole, so a hole that occurs in a scheme was made before the generator reached its
present state (`Minted`).
-/

namespace ShapeLang.TypeSystem

open ShapeLang.Lib

/-! ## The generator -/

structure TypeVarGen where
  nextId : Nat
  inferenceOwner : Nat

/-- The next hole. Without a value when the counter, of 32 bits, would overflow. -/
def TypeVarGen.freshVar (gen : TypeVarGen) : Option (TypeVar × TypeVarGen) :=
  if gen.nextId + 1 < 2 ^ 32 then
    some (.inferenceHole gen.inferenceOwner gen.nextId, { gen with nextId := gen.nextId + 1 })
  else none

/-! ## Substitution -/

mutual

def substitute (subst : HashMap TypeVar Ty) : Ty → Ty
  | .var v => (subst.lookup v).getD (.var v)
  | .generic base args => .generic (substitute subst base) (substituteAll subst args)
  | .constrained v constraint => (subst.lookup v).getD (.constrained v constraint)
  | .function params returns _ =>
    .function (substituteAll subst params) (substitute subst returns) .unproven
  | .concrete ann => .concrete ann

def substituteAll (subst : HashMap TypeVar Ty) : List Ty → List Ty
  | [] => []
  | t :: ts => substitute subst t :: substituteAll subst ts

end

/-! ## Schemes -/

structure TypeScheme where
  quantified : List TypeVar
  ty : Ty
  traitBounds : HashMap TypeVar (List String)
  defaultTypes : HashMap TypeVar Ty

structure DeclaredTypeVarInstantiation where
  declared : TypeVar
  instantiated : TypeVar

structure TypeSchemeInstantiation where
  ty : Ty
  boundConstraints : List (Ty × Ty)
  defaultSubstitutions : HashMap TypeVar Ty
  declaredInstantiations : List DeclaredTypeVarInstantiation

def isDeclared : TypeVar → Bool
  | .declared _ _ _ => true
  | _ => false

/-- A constraint for each bound of a variable, with a variable of its own. -/
def boundConstraintsOf (fresh : TypeVar) : List String → TypeVarGen → Option (List (Ty × Ty) × TypeVarGen)
  | [], gen => some ([], gen)
  | traitName :: bounds, gen => do
    let (boundVar, gen) ← gen.freshVar
    let (constraints, gen) ← boundConstraintsOf fresh bounds gen
    some ((.var fresh, .constrained boundVar (.implementsTrait traitName)) :: constraints, gen)

/-- The variables of the loop over the quantified variables. -/
structure Instantiating where
  subst : HashMap TypeVar Ty
  constraints : List (Ty × Ty)
  declaredInstantiations : List DeclaredTypeVarInstantiation

def instantiateVars (scheme : TypeScheme) :
    List TypeVar → Instantiating → TypeVarGen → Option (Instantiating × TypeVarGen)
  | [], st, gen => some (st, gen)
  | var :: vars, st, gen => do
    let (fresh, gen) ← gen.freshVar
    let (constraints, gen) ← boundConstraintsOf fresh ((scheme.traitBounds.lookup var).getD []) gen
    instantiateVars scheme vars
      { subst := st.subst.insert var (.var fresh)
        constraints := st.constraints ++ constraints
        declaredInstantiations :=
          if isDeclared var then st.declaredInstantiations ++ [⟨var, fresh⟩]
            else st.declaredInstantiations } gen

/-- The defaults of the quantified variables, for the variables that replace them. -/
def defaultSubstitutionsOf (scheme : TypeScheme) (subst : HashMap TypeVar Ty) : HashMap TypeVar Ty :=
  scheme.quantified.foldl
    (fun defaults var =>
      match subst.lookup var, scheme.defaultTypes.lookup var with
      | some (.var freshVar), some defaultTy => defaults.insert freshVar (substitute subst defaultTy)
      | _, _ => defaults)
    ∅

def TypeScheme.instantiateWithMetadata (scheme : TypeScheme) (gen : TypeVarGen) :
    Option (TypeSchemeInstantiation × TypeVarGen) :=
  if scheme.quantified = [] then
    some ({ ty := scheme.ty, boundConstraints := [], defaultSubstitutions := ∅
            declaredInstantiations := [] }, gen)
  else do
    let (st, gen) ← instantiateVars scheme scheme.quantified ⟨∅, [], []⟩ gen
    some ({ ty := substitute st.subst scheme.ty, boundConstraints := st.constraints,
            defaultSubstitutions := defaultSubstitutionsOf scheme st.subst,
            declaredInstantiations := st.declaredInstantiations }, gen)

def freshSubst : List TypeVar → HashMap TypeVar Ty → TypeVarGen → Option (HashMap TypeVar Ty × TypeVarGen)
  | [], subst, gen => some (subst, gen)
  | var :: vars, subst, gen => do
    let (fresh, gen) ← gen.freshVar
    freshSubst vars (subst.insert var (.var fresh)) gen

def TypeScheme.instantiate (scheme : TypeScheme) (gen : TypeVarGen) : Option (Ty × TypeVarGen) :=
  if scheme.quantified = [] then some (scheme.ty, gen)
  else do
    let (subst, gen) ← freshSubst scheme.quantified ∅ gen
    some (substitute subst scheme.ty, gen)

/-! ## Where a variable is mentioned -/

mutual

/-- Is the variable mentioned anywhere: as a variable, as a constrained one, as a carrier, or inside
a constraint? -/
def Ty.mentions (v : TypeVar) : Ty → Bool
  | .concrete ann => annotOccurs v ann
  | .var w => w = v
  | .generic base args => base.mentions v || anyMentions v args
  | .constrained w constraint => w = v || constraint.mentions v
  | .function params returns _ => anyMentions v params || returns.mentions v

def TypeConstraint.mentions (v : TypeVar) : TypeConstraint → Bool
  | .comparable | .iterable | .implementsTrait _ => false
  | .hasField _ ty => ty.mentions v
  | .indexable elem => elem.mentions v
  | .callable params returns => anyMentions v params || returns.mentions v
  | .oneOf types => anyMentions v types
  | .extends ty => ty.mentions v
  | .hasMethod _ argTypes returnType => anyMentions v argTypes || returnType.mentions v

def anyMentions (v : TypeVar) : List Ty → Bool
  | [] => false
  | t :: ts => t.mentions v || anyMentions v ts

end

/-! ## Renaming -/

mutual

def TypeAnnot.rename (ρ : TypeVar → TypeVar) : TypeAnnot → TypeAnnot
  | .tyvar v => .tyvar (ρ v)
  | .array elem => .array (elem.rename ρ)
  | .tuple elems => .tuple (renameAnnots ρ elems)
  | .object fields => .object (renameFields ρ fields)
  | .function params returns effects => .function (renameParams ρ params) (returns.rename ρ) effects
  | .union types => .union (renameAnnots ρ types)
  | .intersection types => .intersection (renameAnnots ρ types)
  | .generic name args => .generic name (renameAnnots ρ args)
  | .borrow mutable inner => .borrow mutable (inner.rename ρ)
  | .existential witnesses inner => .existential witnesses (inner.rename ρ)
  | .basic name => .basic name
  | .reference name => .reference name
  | .void => .void
  | .never => .never
  | .null => .null
  | .undefined => .undefined
  | .dyn traits => .dyn traits

def renameAnnots (ρ : TypeVar → TypeVar) : List TypeAnnot → List TypeAnnot
  | [] => []
  | a :: as => a.rename ρ :: renameAnnots ρ as

def renameFields (ρ : TypeVar → TypeVar) :
    List (ObjectTypeField TypeAnnot) → List (ObjectTypeField TypeAnnot)
  | [] => []
  | ⟨name, optional, t, annotations⟩ :: fields =>
    ⟨name, optional, t.rename ρ, annotations⟩ :: renameFields ρ fields

def renameParams (ρ : TypeVar → TypeVar) : List (FunctionParam TypeAnnot) → List (FunctionParam TypeAnnot)
  | [] => []
  | ⟨name, optional, t⟩ :: params => ⟨name, optional, t.rename ρ⟩ :: renameParams ρ params

end

mutual

/-- The type with every variable renamed. An effect row names effect parameters only, so it stays. -/
def Ty.rename (ρ : TypeVar → TypeVar) : Ty → Ty
  | .concrete ann => .concrete (ann.rename ρ)
  | .var v => .var (ρ v)
  | .generic base args => .generic (base.rename ρ) (renameTys ρ args)
  | .constrained v constraint => .constrained (ρ v) (constraint.rename ρ)
  | .function params returns effects => .function (renameTys ρ params) (returns.rename ρ) effects

def TypeConstraint.rename (ρ : TypeVar → TypeVar) : TypeConstraint → TypeConstraint
  | .comparable => .comparable
  | .iterable => .iterable
  | .hasField name ty => .hasField name (ty.rename ρ)
  | .indexable elem => .indexable (elem.rename ρ)
  | .callable params returns => .callable (renameTys ρ params) (returns.rename ρ)
  | .oneOf types => .oneOf (renameTys ρ types)
  | .extends ty => .extends (ty.rename ρ)
  | .hasMethod methodName argTypes returnType =>
    .hasMethod methodName (renameTys ρ argTypes) (returnType.rename ρ)
  | .implementsTrait traitName => .implementsTrait traitName

def renameTys (ρ : TypeVar → TypeVar) : List Ty → List Ty
  | [] => []
  | t :: ts => t.rename ρ :: renameTys ρ ts

end

/-! ### Renaming what is not mentioned -/

mutual

theorem TypeAnnot.rename_eq_self {ρ : TypeVar → TypeVar} :
    ∀ a : TypeAnnot, (∀ v, annotOccurs v a = true → ρ v = v) → a.rename ρ = a
  | .tyvar v, h => by rw [TypeAnnot.rename, h v (by simp [annotOccurs])]
  | .array elem, h => by rw [TypeAnnot.rename, TypeAnnot.rename_eq_self elem fun v hv => h v hv]
  | .tuple elems, h => by rw [TypeAnnot.rename, renameAnnots_eq_self elems fun v hv => h v hv]
  | .object fields, h => by rw [TypeAnnot.rename, renameFields_eq_self fields fun v hv => h v hv]
  | .function params returns effects, h => by
    rw [TypeAnnot.rename, renameParams_eq_self params fun v hv => h v (by simp [annotOccurs, hv]),
      TypeAnnot.rename_eq_self returns fun v hv => h v (by simp [annotOccurs, hv])]
  | .union types, h => by rw [TypeAnnot.rename, renameAnnots_eq_self types fun v hv => h v hv]
  | .intersection types, h => by rw [TypeAnnot.rename, renameAnnots_eq_self types fun v hv => h v hv]
  | .generic name args, h => by rw [TypeAnnot.rename, renameAnnots_eq_self args fun v hv => h v hv]
  | .borrow mutable inner, h => by rw [TypeAnnot.rename, TypeAnnot.rename_eq_self inner fun v hv => h v hv]
  | .existential witnesses inner, h => by
      rw [TypeAnnot.rename, TypeAnnot.rename_eq_self inner fun v hv => h v hv]
  | .basic _, _ | .reference _, _ | .void, _ | .never, _ | .null, _ | .undefined, _ | .dyn _, _ => by
    rw [TypeAnnot.rename]

theorem renameAnnots_eq_self {ρ : TypeVar → TypeVar} :
    ∀ as : List TypeAnnot, (∀ v, annotsOccur v as = true → ρ v = v) → renameAnnots ρ as = as
  | [], _ => by rw [renameAnnots]
  | a :: as, h => by
    rw [renameAnnots, TypeAnnot.rename_eq_self a fun v hv => h v (by simp [annotsOccur, hv]),
      renameAnnots_eq_self as fun v hv => h v (by simp [annotsOccur, hv])]

theorem renameFields_eq_self {ρ : TypeVar → TypeVar} :
    ∀ fields : List (ObjectTypeField TypeAnnot), (∀ v, fieldsOccur v fields = true → ρ v = v) →
      renameFields ρ fields = fields
  | [], _ => by rw [renameFields]
  | ⟨_, _, t, _⟩ :: fields, h => by
    rw [renameFields, TypeAnnot.rename_eq_self t fun v hv => h v (by simp [fieldsOccur, hv]),
      renameFields_eq_self fields fun v hv => h v (by simp [fieldsOccur, hv])]

theorem renameParams_eq_self {ρ : TypeVar → TypeVar} :
    ∀ params : List (FunctionParam TypeAnnot), (∀ v, paramsOccur v params = true → ρ v = v) →
      renameParams ρ params = params
  | [], _ => by rw [renameParams]
  | ⟨_, _, t⟩ :: params, h => by
    rw [renameParams, TypeAnnot.rename_eq_self t fun v hv => h v (by simp [paramsOccur, hv]),
      renameParams_eq_self params fun v hv => h v (by simp [paramsOccur, hv])]

end

mutual

theorem Ty.rename_eq_self {ρ : TypeVar → TypeVar} :
    ∀ t : Ty, (∀ v, t.mentions v = true → ρ v = v) → t.rename ρ = t
  | .concrete ann, h => by
      rw [Ty.rename, ann.rename_eq_self fun v hv => h v (by simpa [Ty.mentions] using hv)]
  | .var v, h => by rw [Ty.rename, h v (by simp [Ty.mentions])]
  | .generic base args, h => by
    rw [Ty.rename, Ty.rename_eq_self base fun v hv => h v (by simp [Ty.mentions, hv]),
      renameTys_eq_self args fun v hv => h v (by simp [Ty.mentions, hv])]
  | .constrained v constraint, h => by
    rw [Ty.rename, h v (by simp [Ty.mentions]),
      TypeConstraint.rename_eq_self constraint fun v hv => h v (by simp [Ty.mentions, hv])]
  | .function params returns effects, h => by
    rw [Ty.rename, renameTys_eq_self params fun v hv => h v (by simp [Ty.mentions, hv]),
      Ty.rename_eq_self returns fun v hv => h v (by simp [Ty.mentions, hv])]

theorem TypeConstraint.rename_eq_self {ρ : TypeVar → TypeVar} :
    ∀ c : TypeConstraint, (∀ v, c.mentions v = true → ρ v = v) → c.rename ρ = c
  | .comparable, _ | .iterable, _ | .implementsTrait _, _ => by rw [TypeConstraint.rename]
  | .hasField _ ty, h => by
    rw [TypeConstraint.rename, Ty.rename_eq_self ty fun v hv => h v (by simp [TypeConstraint.mentions, hv])]
  | .indexable ty, h => by
    rw [TypeConstraint.rename, Ty.rename_eq_self ty fun v hv => h v (by simp [TypeConstraint.mentions, hv])]
  | .callable params returns, h => by
    rw [TypeConstraint.rename, renameTys_eq_self params fun v hv => h v
      (by simp [TypeConstraint.mentions, hv]), Ty.rename_eq_self returns fun v hv => h v
      (by simp [TypeConstraint.mentions, hv])]
  | .oneOf types, h => by
    rw [TypeConstraint.rename, renameTys_eq_self types fun v hv => h v
      (by simp [TypeConstraint.mentions, hv])]
  | .extends ty, h => by
    rw [TypeConstraint.rename, Ty.rename_eq_self ty fun v hv => h v (by simp [TypeConstraint.mentions, hv])]
  | .hasMethod _ argTypes returnType, h => by
    rw [TypeConstraint.rename, renameTys_eq_self argTypes fun v hv => h v
      (by simp [TypeConstraint.mentions, hv]), Ty.rename_eq_self returnType fun v hv => h v
      (by simp [TypeConstraint.mentions, hv])]

theorem renameTys_eq_self {ρ : TypeVar → TypeVar} :
    ∀ ts : List Ty, (∀ v, anyMentions v ts = true → ρ v = v) → renameTys ρ ts = ts
  | [], _ => by rw [renameTys]
  | t :: ts, h => by
    rw [renameTys, Ty.rename_eq_self t fun v hv => h v (by simp [anyMentions, hv]),
      renameTys_eq_self ts fun v hv => h v (by simp [anyMentions, hv])]

end

/-! ## Fresh substitutions -/

/-- The hole could be in existence when the generator is in this state. -/
def Minted (gen : TypeVarGen) (v : TypeVar) : Prop :=
  ∀ k, v = .inferenceHole gen.inferenceOwner k → k < gen.nextId

/-- Every variable of `vars` is mapped to a hole of its own, with a number from `start` up to `stop`. -/
structure FreshFor (vars : List TypeVar) (owner start stop : Nat) (subst : HashMap TypeVar Ty) : Prop where
  lookup_iff : ∀ v, (∃ t, subst.lookup v = some t) ↔ v ∈ vars
  hole : ∀ v t, subst.lookup v = some t → ∃ k, start ≤ k ∧ k < stop ∧ t = .var (.inferenceHole owner k)
  injective : ∀ v v' t, subst.lookup v = some t → subst.lookup v' = some t → v = v'

theorem freshFor_nil (owner start : Nat) : FreshFor [] owner start start ∅ :=
  ⟨fun _ => ⟨nofun, nofun⟩, nofun, nofun⟩

variable {vars : List TypeVar}

theorem FreshFor.mono {owner start stop stop' : Nat} {subst : HashMap TypeVar Ty}
    (h : FreshFor vars owner start stop subst) (hle : stop ≤ stop') :
    FreshFor vars owner start stop' subst := by
  refine ⟨h.lookup_iff, fun v t ht => ?_, h.injective⟩
  obtain ⟨k, hstart, hstop, rfl⟩ := h.hole v t ht
  exact ⟨k, hstart, by omega, rfl⟩

theorem FreshFor.insert {owner start stop : Nat} {subst : HashMap TypeVar Ty}
    (h : FreshFor vars owner start stop subst) (hle : start ≤ stop) (var : TypeVar) :
    FreshFor (vars ++ [var]) owner start (stop + 1)
      (subst.insert var (.var (.inferenceHole owner stop))) := by
  -- the number is larger than all before it
  have hnew : ∀ v, subst.lookup v ≠ some (.var (.inferenceHole owner stop)) := by
    intro v hv
    obtain ⟨k, -, hlt, heq⟩ := h.hole v _ hv
    cases heq
    omega
  refine ⟨fun v => ?_, fun v t ht => ?_, fun v v' t ht ht' => ?_⟩
  · rw [List.mem_append, List.mem_singleton, ← h.lookup_iff v]
    by_cases hv : v = var
    · subst hv
      rw [AList.lookup_insert]
      exact iff_of_true ⟨_, rfl⟩ (Or.inr rfl)
    · rw [AList.lookup_insert_ne hv, or_iff_left hv]
  · rcases lookup_insert_eq_some ht with ⟨-, rfl⟩ | hold
    · exact ⟨stop, hle, by omega, rfl⟩
    · obtain ⟨k, hstart, hstop, rfl⟩ := h.hole v t hold
      exact ⟨k, hstart, by omega, rfl⟩
  · rcases lookup_insert_eq_some ht with ⟨rfl, rfl⟩ | hold <;> rcases lookup_insert_eq_some
      ht' with ⟨rfl, hval⟩ | hold'
    · rfl
    · exact absurd hold' (hnew v')
    · exact absurd (hval ▸ hold) (hnew v)
    · exact h.injective v v' t hold hold'

variable {gen gen' : TypeVarGen}

theorem freshVar_eq_some {v : TypeVar} (h : gen.freshVar = some (v, gen')) :
    v = .inferenceHole gen.inferenceOwner gen.nextId ∧ gen'.inferenceOwner = gen.inferenceOwner ∧
      gen'.nextId = gen.nextId + 1 := by
  rw [TypeVarGen.freshVar] at h
  split at h
  · cases h
    exact ⟨rfl, rfl, rfl⟩
  · cases h

variable {done : List TypeVar}

theorem freshSubst_spec {subst subst' : HashMap TypeVar Ty} {start : Nat}
    (hfresh : FreshFor done gen.inferenceOwner start gen.nextId subst) (hle : start ≤ gen.nextId)
    (h : freshSubst vars subst gen = some (subst', gen')) :
    FreshFor (done ++ vars) gen.inferenceOwner start gen'.nextId subst' ∧
      gen'.inferenceOwner = gen.inferenceOwner ∧ gen.nextId ≤ gen'.nextId := by
  induction vars generalizing done subst gen with
  | nil =>
    cases h
    rw [List.append_nil]
    exact ⟨hfresh, rfl, le_rfl⟩
  | cons var vars ih =>
    rw [freshSubst] at h
    obtain ⟨⟨fresh, gen₁⟩, hvar, h⟩ := Option.bind_eq_some_iff.mp h
    obtain ⟨rfl, howner, hnext⟩ := freshVar_eq_some hvar
    have hinsert := hfresh.insert hle var
    rw [← hnext, ← howner] at hinsert
    rw [← howner] at h
    obtain ⟨hfresh', howner', hle'⟩ := ih hinsert (by omega) h
    rw [List.append_assoc, List.singleton_append, howner] at hfresh'
    exact ⟨hfresh', howner'.trans howner, by omega⟩

theorem boundConstraintsOf_gen {fresh : TypeVar} {bounds : List String} {constraints : List (Ty × Ty)}
    (h : boundConstraintsOf fresh bounds gen = some (constraints, gen')) :
    gen'.inferenceOwner = gen.inferenceOwner ∧ gen.nextId ≤ gen'.nextId := by
  induction bounds generalizing gen constraints with
  | nil =>
    cases h
    exact ⟨rfl, le_rfl⟩
  | cons bound bounds ih =>
    rw [boundConstraintsOf] at h
    obtain ⟨⟨boundVar, gen₁⟩, hvar, h⟩ := Option.bind_eq_some_iff.mp h
    obtain ⟨⟨rest, gen₂⟩, hrest, h⟩ := Option.bind_eq_some_iff.mp h
    cases h
    obtain ⟨-, howner, hnext⟩ := freshVar_eq_some hvar
    obtain ⟨howner', hle⟩ := ih hrest
    exact ⟨howner'.trans howner, by omega⟩

theorem instantiateVars_spec {scheme : TypeScheme} {st st' : Instantiating} {start : Nat}
    (hfresh : FreshFor done gen.inferenceOwner start gen.nextId st.subst) (hle : start ≤ gen.nextId)
    (h : instantiateVars scheme vars st gen = some (st', gen')) :
    FreshFor (done ++ vars) gen.inferenceOwner start gen'.nextId st'.subst ∧
      gen'.inferenceOwner = gen.inferenceOwner ∧ gen.nextId ≤ gen'.nextId := by
  induction vars generalizing done st gen with
  | nil =>
    cases h
    rw [List.append_nil]
    exact ⟨hfresh, rfl, le_rfl⟩
  | cons var vars ih =>
    rw [instantiateVars] at h
    obtain ⟨⟨fresh, gen₁⟩, hvar, h⟩ := Option.bind_eq_some_iff.mp h
    obtain ⟨⟨constraints, gen₂⟩, hbounds, h⟩ := Option.bind_eq_some_iff.mp h
    obtain ⟨rfl, howner, hnext⟩ := freshVar_eq_some hvar
    obtain ⟨howner₂, hle₂⟩ := boundConstraintsOf_gen hbounds
    have hinsert := (hfresh.insert hle var).mono (hnext ▸ hle₂)
    have hgen : gen₂.inferenceOwner = gen.inferenceOwner := howner₂.trans howner
    rw [← hgen] at hinsert
    rw [← hgen] at h
    obtain ⟨hfresh', howner', hle'⟩ := ih hinsert (by omega) h
    rw [List.append_assoc, List.singleton_append, hgen] at hfresh'
    exact ⟨hfresh', howner'.trans hgen, by omega⟩

/-- A call on the scheme, by either of the two functions, with the state the generator is left in. -/
def TypeScheme.InstantiatesTo (scheme : TypeScheme) (gen : TypeVarGen) (r : Ty)
    (gen' : TypeVarGen) : Prop :=
  scheme.instantiate gen = some (r, gen') ∨
    ∃ instance', scheme.instantiateWithMetadata gen = some (instance', gen') ∧ instance'.ty = r

theorem TypeScheme.InstantiatesTo.cases {scheme : TypeScheme} {gen gen' : TypeVarGen} {r : Ty}
    (h : scheme.InstantiatesTo gen r gen') :
    (scheme.quantified = [] ∧ r = scheme.ty) ∨
    (scheme.quantified ≠ [] ∧ ∃ subst, FreshFor scheme.quantified gen.inferenceOwner gen.nextId
      gen'.nextId subst ∧
      r = substitute subst scheme.ty) := by
  rcases h with h | ⟨instance', h, rfl⟩
  · rw [TypeScheme.instantiate] at h
    split at h
    · next hnil =>
      cases h
      exact Or.inl ⟨hnil, rfl⟩
    · next hne =>
      obtain ⟨⟨subst, gen₁⟩, hsubst, h⟩ := Option.bind_eq_some_iff.mp h
      cases h
      exact Or.inr ⟨hne, subst, (freshSubst_spec (freshFor_nil _ _) le_rfl hsubst).1, rfl⟩
  · rw [TypeScheme.instantiateWithMetadata] at h
    split at h
    · next hnil =>
      cases h
      exact Or.inl ⟨hnil, rfl⟩
    · next hne =>
      obtain ⟨⟨st, gen₁⟩, hst, h⟩ := Option.bind_eq_some_iff.mp h
      cases h
      have hempty : FreshFor [] gen.inferenceOwner gen.nextId gen.nextId
          (⟨∅, [], []⟩ : Instantiating).subst :=
        freshFor_nil _ _
      exact Or.inr ⟨hne, st.subst, (instantiateVars_spec hempty le_rfl hst).1, rfl⟩

/-! ## When the result is the renamed body -/

mutual

/-- `substitute` renames this body: no quantified variable stands in an annotation, is constrained
or occurs in a constraint, and no function has a row that is known. -/
def Ty.Renamable (quantified : List TypeVar) : Ty → Prop
  | .concrete ann => ∀ v ∈ quantified, annotOccurs v ann = false
  | .var _ => True
  | .generic base args => base.Renamable quantified ∧ AllRenamable quantified args
  | .constrained v constraint => v ∉ quantified ∧ ∀ w ∈ quantified, constraint.mentions w = false
  | .function params returns effects =>
    AllRenamable quantified params ∧ returns.Renamable quantified ∧ effects = .unproven

def AllRenamable (quantified : List TypeVar) : List Ty → Prop
  | [] => True
  | t :: ts => t.Renamable quantified ∧ AllRenamable quantified ts

end

/-- The variable that a substitution by variables puts in place of one. -/
def freshName (subst : HashMap TypeVar Ty) (v : TypeVar) : TypeVar :=
  match subst.lookup v with
  | some (.var fresh) => fresh
  | _ => v

section

variable {quantified : List TypeVar} {owner start stop : Nat} {subst : HashMap TypeVar Ty}

variable {v : TypeVar}

theorem FreshFor.lookup_of_mem (h : FreshFor quantified owner start stop subst) (hv : v ∈ quantified) :
    subst.lookup v = some (.var (freshName subst v)) ∧
      ∃ k, start ≤ k ∧ k < stop ∧ freshName subst v = .inferenceHole owner k := by
  obtain ⟨t, ht⟩ := (h.lookup_iff v).mpr hv
  obtain ⟨k, hstart, hstop, rfl⟩ := h.hole v t ht
  have hren : freshName subst v = .inferenceHole owner k := by rw [freshName, ht]
  exact ⟨by rw [hren]; exact ht, k, hstart, hstop, hren⟩

theorem FreshFor.lookup_of_not_mem (h : FreshFor quantified owner start stop subst) (hv : v ∉ quantified) :
    subst.lookup v = none ∧ freshName subst v = v := by
  have hnone : subst.lookup v = none := by
    cases hlookup : subst.lookup v with
    | none => rfl
    | some t => exact absurd ((h.lookup_iff v).mp ⟨t, hlookup⟩) hv
  exact ⟨hnone, by rw [freshName, hnone]⟩

theorem FreshFor.substitute_var (h : FreshFor quantified owner start stop subst) (v : TypeVar) :
    substitute subst (.var v) = .var (freshName subst v) := by
  rw [substitute]
  by_cases hv : v ∈ quantified
  · rw [(h.lookup_of_mem hv).1]
    rfl
  · obtain ⟨hnone, hren⟩ := h.lookup_of_not_mem hv
    rw [hnone, hren]
    rfl

theorem FreshFor.substitute_constrained (h : FreshFor quantified owner start stop subst)
    (hv : v ∉ quantified) (constraint : TypeConstraint) :
    substitute subst (.constrained v constraint) = .constrained v constraint := by
  rw [substitute, (h.lookup_of_not_mem hv).1]
  rfl

/-- A variable that is not mentioned is not renamed, and only quantified variables are renamed at all. -/
theorem FreshFor.freshName_self (h : FreshFor quantified owner start stop subst) (mentions : TypeVar → Bool)
    (hnone : ∀ w ∈ quantified, mentions w = false) (hv : mentions v = true) : freshName subst v = v := by
  refine (h.lookup_of_not_mem fun hmem => ?_).2
  rw [hnone v hmem] at hv
  cases hv

mutual

/-- **Sufficiency**: on such a body substitution is renaming. -/
theorem FreshFor.substitute_eq_rename (h : FreshFor quantified owner start stop subst) :
    ∀ t : Ty, t.Renamable quantified → substitute subst t = t.rename (freshName subst)
  | .concrete ann, ht => by
    rw [Ty.Renamable] at ht
    rw [substitute, Ty.rename, ann.rename_eq_self fun v hv => h.freshName_self
      (fun w => annotOccurs w ann) ht hv]
  | .var v, _ => by rw [h.substitute_var, Ty.rename]
  | .generic base args, ht => by
    rw [Ty.Renamable] at ht
    rw [substitute, Ty.rename, h.substitute_eq_rename base ht.1, h.substituteAll_eq_rename args ht.2]
  | .constrained v constraint, ht => by
    rw [Ty.Renamable] at ht
    rw [h.substitute_constrained ht.1, Ty.rename, (h.lookup_of_not_mem ht.1).2,
      constraint.rename_eq_self fun v hv => h.freshName_self (fun w => constraint.mentions w) ht.2 hv]
  | .function params returns effects, ht => by
    rw [Ty.Renamable] at ht
    rw [substitute, Ty.rename, h.substituteAll_eq_rename params ht.1,
      h.substitute_eq_rename returns ht.2.1, ht.2.2]

theorem FreshFor.substituteAll_eq_rename (h : FreshFor quantified owner start stop subst) :
    ∀ ts : List Ty, AllRenamable quantified ts → substituteAll subst ts = renameTys (freshName subst) ts
  | [], _ => by rw [substituteAll, renameTys]
  | t :: ts, hts => by
    rw [AllRenamable] at hts
    rw [substituteAll, renameTys, h.substitute_eq_rename t hts.1, h.substituteAll_eq_rename ts hts.2]

end

mutual

theorem FreshFor.mentions_substitute (h : FreshFor quantified owner start stop subst) {v : TypeVar}
    (hv : v ∈ quantified) (hminted : ∀ k, v = .inferenceHole owner k → k < start) :
    ∀ t : Ty, t.Renamable quantified → (substitute subst t).mentions v = false
  | .concrete ann, ht => by
    rw [Ty.Renamable] at ht
    rw [substitute, Ty.mentions, ht v hv]
  | .var w, _ => by
    rw [h.substitute_var, Ty.mentions, decide_eq_false_iff_not]
    intro heq
    by_cases hw : w ∈ quantified
    · -- a fresh hole is younger than every variable of the scheme
      obtain ⟨-, k, hstart, -, hren⟩ := h.lookup_of_mem hw
      have hlt := hminted k (heq ▸ hren)
      omega
    · rw [(h.lookup_of_not_mem hw).2] at heq
      exact hw (heq ▸ hv)
  | .generic base args, ht => by
    rw [Ty.Renamable] at ht
    rw [substitute, Ty.mentions, h.mentions_substitute hv hminted base ht.1,
      h.mentions_substituteAll hv hminted args ht.2, Bool.or_self]
  | .constrained w constraint, ht => by
    rw [Ty.Renamable] at ht
    have hne : w ≠ v := fun heq => ht.1 (heq ▸ hv)
    rw [h.substitute_constrained ht.1, Ty.mentions, ht.2 v hv, decide_eq_false hne, Bool.or_self]
  | .function params returns effects, ht => by
    rw [Ty.Renamable] at ht
    rw [substitute, Ty.mentions, h.mentions_substituteAll hv hminted params ht.1,
      h.mentions_substitute hv hminted returns ht.2.1, Bool.or_self]

theorem FreshFor.mentions_substituteAll (h : FreshFor quantified owner start stop subst)
    {v : TypeVar} (hv : v ∈ quantified) (hminted : ∀ k, v = .inferenceHole owner k → k < start) :
    ∀ ts : List Ty, AllRenamable quantified ts → anyMentions v (substituteAll subst ts) = false
  | [], _ => by rw [substituteAll, anyMentions]
  | t :: ts, hts => by
    rw [AllRenamable] at hts
    rw [substituteAll, anyMentions, h.mentions_substitute hv hminted t hts.1,
      h.mentions_substituteAll hv hminted ts hts.2, Bool.or_self]

end

end

section

variable {quantified : List TypeVar} {subst₁ subst₂ : HashMap TypeVar Ty}

mutual

/-- **Necessity**: a body that is renamed, with results that share no quantified variable. -/
theorem renamable_of_rename {owner start stop : Nat}
    (h : FreshFor quantified owner start stop subst₁) {ρ : TypeVar → TypeVar} :
    ∀ t : Ty, substitute subst₁ t = t.rename ρ →
      (∀ v ∈ quantified, ¬ ((substitute subst₁ t).mentions v = true ∧
        (substitute subst₂ t).mentions v = true)) →
      (∀ v, v ∉ quantified → subst₂.lookup v = none) → t.Renamable quantified
  | .concrete ann, _, hshare, _ => by
    rw [Ty.Renamable]
    intro v hv
    have hboth := hshare v hv
    rw [substitute, substitute, Ty.mentions, and_self] at hboth
    exact Bool.not_eq_true _ |>.mp hboth
  | .var _, _, _, _ => by
    rw [Ty.Renamable]
    trivial
  | .generic base args, hren, hshare, hnone => by
    rw [substitute, Ty.rename, Ty.generic.injEq] at hren
    rw [Ty.Renamable]
    constructor
    · refine renamable_of_rename h base hren.1 (fun v hv hboth => hshare v hv ?_) hnone
      simp [substitute, Ty.mentions, hboth.1, hboth.2]
    · refine allRenamable_of_rename h args hren.2 (fun v hv hboth => hshare v hv ?_) hnone
      simp [substitute, Ty.mentions, hboth.1, hboth.2]
  | .constrained v constraint, hren, hshare, hnone => by
    rw [Ty.Renamable]
    have hv : v ∉ quantified := by
      -- a quantified variable loses its constraint
      intro hmem
      rw [substitute, (h.lookup_of_mem hmem).1, Ty.rename] at hren
      cases hren
    refine ⟨hv, fun w hw => ?_⟩
    have hboth := hshare w hw
    rw [h.substitute_constrained hv, substitute, hnone v hv] at hboth
    rw [← Bool.not_eq_true]
    intro hmentions
    refine hboth ⟨?_, ?_⟩
    · rw [Ty.mentions, hmentions, Bool.or_true]
    · show (Ty.constrained v constraint).mentions w = true
      rw [Ty.mentions, hmentions, Bool.or_true]
  | .function params returns effects, hren, hshare, hnone => by
    rw [substitute, Ty.rename, Ty.function.injEq] at hren
    rw [Ty.Renamable]
    refine ⟨?_, ?_, hren.2.2.symm⟩
    · refine allRenamable_of_rename h params hren.1 (fun v hv hboth => hshare v hv ?_) hnone
      simp [substitute, Ty.mentions, hboth.1, hboth.2]
    · refine renamable_of_rename h returns hren.2.1 (fun v hv hboth => hshare v hv ?_) hnone
      simp [substitute, Ty.mentions, hboth.1, hboth.2]

theorem allRenamable_of_rename {owner start stop : Nat} (h : FreshFor quantified owner start stop subst₁)
    {ρ : TypeVar → TypeVar} :
    ∀ ts : List Ty, substituteAll subst₁ ts = renameTys ρ ts →
      (∀ v ∈ quantified, ¬ (anyMentions v (substituteAll subst₁ ts) = true ∧ anyMentions v
        (substituteAll subst₂ ts) = true)) →
      (∀ v, v ∉ quantified → subst₂.lookup v = none) → AllRenamable quantified ts
  | [], _, _, _ => by
    rw [AllRenamable]
    trivial
  | t :: ts, hren, hshare, hnone => by
    rw [substituteAll, renameTys, List.cons.injEq] at hren
    rw [AllRenamable]
    constructor
    · refine renamable_of_rename h t hren.1 (fun v hv hboth => hshare v hv ?_) hnone
      simp [substituteAll, anyMentions, hboth.1, hboth.2]
    · refine allRenamable_of_rename h ts hren.2 (fun v hv hboth => hshare v hv ?_) hnone
      simp [substituteAll, anyMentions, hboth.1, hboth.2]

end

end

/-! ## Capture-free instantiation -/

/-- The variable is quantified by the scheme or mentioned in its body. -/
def TypeScheme.Has (scheme : TypeScheme) (v : TypeVar) : Prop :=
  v ∈ scheme.quantified ∨ scheme.ty.mentions v = true

/-- `r` is the body under a renaming of the quantified variables that keeps the variables of the
scheme apart. -/
structure RenamesBody (scheme : TypeScheme) (ρ : TypeVar → TypeVar) (r : Ty) : Prop where
  fixed : ∀ v, v ∉ scheme.quantified → ρ v = v
  injective : ∀ v v', scheme.Has v → scheme.Has v' → ρ v = ρ v' → v = v'
  body : r = scheme.ty.rename ρ

/-- Two results of one scheme that share neither a quantified variable nor what stands for one. -/
structure CaptureFree (scheme : TypeScheme) (r₁ r₂ : Ty) : Prop where
  unshared : ∀ v ∈ scheme.quantified, ¬ (r₁.mentions v = true ∧ r₂.mentions v = true)
  renamed : ∃ ρ₁ ρ₂, RenamesBody scheme ρ₁ r₁ ∧ RenamesBody scheme ρ₂ r₂ ∧
    ∀ v ∈ scheme.quantified, ∀ w ∈ scheme.quantified, ρ₁ v ≠ ρ₂ w

theorem FreshFor.renamesBody {scheme : TypeScheme} {gen : TypeVarGen} {stop : Nat}
    {subst : HashMap TypeVar Ty}
    (h : FreshFor scheme.quantified gen.inferenceOwner gen.nextId stop subst)
    (hminted : ∀ v, scheme.Has v → Minted gen v) (hren : scheme.ty.Renamable scheme.quantified) :
    RenamesBody scheme (freshName subst) (substitute subst scheme.ty) := by
  refine ⟨fun v hv => (h.lookup_of_not_mem hv).2, fun v v' hhas hhas' heq => ?_,
    h.substitute_eq_rename _ hren⟩
  by_cases hv : v ∈ scheme.quantified <;> by_cases hv' : v' ∈ scheme.quantified
  · exact h.injective v v' _ (h.lookup_of_mem hv).1 (heq ▸ (h.lookup_of_mem hv').1)
  · obtain ⟨-, k, hstart, -, hk⟩ := h.lookup_of_mem hv
    rw [hk, (h.lookup_of_not_mem hv').2] at heq
    have hlt := hminted v' hhas' k heq.symm
    omega
  · obtain ⟨-, k, hstart, -, hk⟩ := h.lookup_of_mem hv'
    rw [hk, (h.lookup_of_not_mem hv).2] at heq
    have hlt := hminted v hhas k heq
    omega
  · rw [(h.lookup_of_not_mem hv).2, (h.lookup_of_not_mem hv').2] at heq
    exact heq

/-- **Capture-free instantiation.** Two calls on a scheme, the second with a generator in a later
state or another generator, keep apart what the scheme quantifies and rename its body exactly if it
quantifies nothing or its body is renamable. -/
theorem instantiate_captureFree_iff (scheme : TypeScheme) (gen₁ gen₁' gen₂ gen₂' : TypeVarGen) (r₁ r₂ : Ty)
    (h₁ : scheme.InstantiatesTo gen₁ r₁ gen₁') (h₂ : scheme.InstantiatesTo gen₂ r₂ gen₂')
    (hlater : gen₂.inferenceOwner = gen₁.inferenceOwner → gen₁'.nextId ≤ gen₂.nextId)
    (hminted₁ : ∀ v, scheme.Has v → Minted gen₁ v) (hminted₂ : ∀ v, scheme.Has v → Minted gen₂ v) :
    CaptureFree scheme r₁ r₂ ↔ scheme.quantified = [] ∨ scheme.ty.Renamable scheme.quantified := by
  rcases h₁.cases with ⟨hnil, rfl⟩ | ⟨hne, subst₁, hfresh₁, rfl⟩
  · refine iff_of_true ⟨?_, id, id, ?_, ?_, ?_⟩ (Or.inl hnil)
    · rw [hnil]
      nofun
    · exact ⟨fun _ _ => rfl, fun _ _ _ _ heq => heq, (scheme.ty.rename_eq_self fun _ _ => rfl).symm⟩
    · rcases h₂.cases with ⟨-, rfl⟩ | ⟨hne, -⟩
      · exact ⟨fun _ _ => rfl, fun _ _ _ _ heq => heq, (scheme.ty.rename_eq_self fun _ _ => rfl).symm⟩
      · exact absurd hnil hne
    · rw [hnil]
      nofun
  · rcases h₂.cases with ⟨hnil, -⟩ | ⟨-, subst₂, hfresh₂, rfl⟩
    · exact absurd hnil hne
    · rw [or_iff_right hne]
      constructor
      · rintro ⟨hunshared, ρ₁, ρ₂, hbody₁, -, -⟩
        exact renamable_of_rename hfresh₁ scheme.ty hbody₁.body hunshared fun v hv =>
          (hfresh₂.lookup_of_not_mem hv).1
      · intro hren
        refine ⟨fun v hv hboth => ?_, freshName subst₁, freshName subst₂, hfresh₁.renamesBody hminted₁ hren,
          hfresh₂.renamesBody hminted₂ hren, fun v hv w hw heq => ?_⟩
        · have hfalse := hfresh₁.mentions_substitute hv (fun k hk => hminted₁ v (Or.inl hv) k hk)
              scheme.ty hren
          rw [hfalse] at hboth
          cases hboth.1
        · -- the holes of the two calls come from different stretches of the counter
          obtain ⟨-, k₁, -, hstop₁, hk₁⟩ := hfresh₁.lookup_of_mem hv
          obtain ⟨-, k₂, hstart₂, -, hk₂⟩ := hfresh₂.lookup_of_mem hw
          rw [hk₁, hk₂, TypeVar.inferenceHole.injEq] at heq
          have hle := hlater heq.1.symm
          omega

/-! ### Two schemes -/

/-- The type parameter of a declaration. -/
def paramT : TypeVar := .declared 1 0 0

/-- `∀ T. (T) -> Option<T>`, with no row derived. -/
def optionScheme : TypeScheme where
  quantified := [paramT]
  ty := .function [.var paramT] (.generic (.concrete (.reference "Option")) [.var paramT]) .unproven
  traitBounds := ∅
  defaultTypes := ∅

/-- One generator instantiates the scheme twice. -/
theorem instantiate_captureFree_option : CaptureFree optionScheme
    (.function [.var (.inferenceHole 1 0)]
      (.generic (.concrete (.reference "Option")) [.var (.inferenceHole 1 0)]) .unproven)
    (.function [.var (.inferenceHole 1 1)]
      (.generic (.concrete (.reference "Option")) [.var (.inferenceHole 1 1)])
      .unproven) := by
  have hhas : ∀ v, optionScheme.Has v → v = paramT := by
    rintro v (hv | hv)
    · exact List.mem_singleton.mp hv
    · simpa [optionScheme, Ty.mentions, anyMentions, annotOccurs, eq_comm] using hv
  have hminted : ∀ (gen : TypeVarGen) v, optionScheme.Has v → Minted gen v := by
    intro gen v hv k hk
    rw [hhas v hv] at hk
    cases hk
  refine (instantiate_captureFree_iff optionScheme ⟨0, 1⟩ ⟨1, 1⟩ ⟨1, 1⟩ ⟨2, 1⟩ _ _ (Or.inl rfl) (Or.inl rfl)
    (fun _ => le_rfl) (hminted _) (hminted _)).mpr (Or.inr ?_)
  simp [optionScheme, Ty.Renamable, AllRenamable, annotOccurs]

/-- `∀ T. (Array<T>) -> int ! {FsRead}`, the parameter as an annotation with a carrier. -/
def readScheme : TypeScheme where
  quantified := [paramT]
  ty := .function [.concrete (.array (.tyvar paramT))] (.concrete (.basic "int"))
    (.closed ⟨.runtime, 1, {.fsRead}⟩)
  traitBounds := ∅
  defaultTypes := ∅

/-- Both results have `T` itself in the annotation, and the row is gone. -/
theorem instantiate_shares_carrier :
    ¬ ∀ (scheme : TypeScheme) (gen₁ gen₁' gen₂ gen₂' : TypeVarGen) (r₁ r₂ : Ty),
    scheme.InstantiatesTo gen₁ r₁ gen₁' → scheme.InstantiatesTo gen₂ r₂ gen₂' →
    (gen₂.inferenceOwner = gen₁.inferenceOwner → gen₁'.nextId ≤ gen₂.nextId) →
    (∀ v, scheme.Has v → Minted gen₁ v) →
    (∀ v, scheme.Has v → Minted gen₂ v) → CaptureFree scheme r₁ r₂ := by
  intro h
  have hminted : ∀ (gen : TypeVarGen) v, readScheme.Has v → Minted gen v := by
    rintro gen v (hv | hv) k rfl
    · cases List.mem_singleton.mp hv
    · simp [readScheme, Ty.mentions, anyMentions, annotOccurs, paramT] at hv
  have hfree := h readScheme ⟨0, 1⟩ ⟨1, 1⟩ ⟨1, 1⟩ ⟨2, 1⟩ _ _ (Or.inl rfl) (Or.inl rfl)
      (fun _ => le_rfl) (hminted _) (hminted _)
  refine hfree.unshared paramT (List.mem_singleton_self _) ⟨?_, ?_⟩ <;> decide

end ShapeLang.TypeSystem
