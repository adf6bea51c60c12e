import ShapeLang.TypeSystem.Types

/-!
# ShapeLang — the unifier

The substitution store of the inference engine
(`crates/shape-runtime/src/type_system/unification/unifier.rs`): `bind` applies the bindings made so
far to the new type, refuses a variable bound to itself and a type in which the variable occurs, and
stores the rest; `apply_substitutions` follows bindings through types and, by way of carriers,
through annotations.

`apply_substitutions` and `apply_to_annotation` call each other and follow stored bindings, so they
need not end. The model bounds the depth of the calls; `none` means the bound was too small. A call
ends if some bound is enough.
-/

namespace ShapeLang.TypeSystem

abbrev Substitutions := TypeVar → Option Ty

/-! ## Occurrence -/

mutual

def annotOccurs (var : TypeVar) : TypeAnnot → Bool
  | .tyvar v => v = var
  | .borrow _ inner => annotOccurs var inner
  | .array elem => annotOccurs var elem
  | .tuple elems => annotsOccur var elems
  | .object fields => fieldsOccur var fields
  | .function params returns _ => paramsOccur var params || annotOccurs var returns
  | .union types => annotsOccur var types
  | .intersection types => annotsOccur var types
  | .generic _ args => annotsOccur var args
  | .existential _ inner => annotOccurs var inner
  | .basic _ | .reference _ | .void | .never | .null | .undefined | .dyn _ => false

def annotsOccur (var : TypeVar) : List TypeAnnot → Bool
  | [] => false
  | a :: as => annotOccurs var a || annotsOccur var as

def fieldsOccur (var : TypeVar) : List (ObjectTypeField TypeAnnot) → Bool
  | [] => false
  | ⟨_, _, t, _⟩ :: fields => annotOccurs var t || fieldsOccur var fields

def paramsOccur (var : TypeVar) : List (FunctionParam TypeAnnot) → Bool
  | [] => false
  | ⟨_, _, t⟩ :: params => annotOccurs var t || paramsOccur var params

end

mutual

/-- Does the variable appear in the type, as a variable, a constrained variable or a carrier? -/
def occursCheck (var : TypeVar) : Ty → Bool
  | .var v => v = var
  | .constrained v _ => v = var
  | .generic base args => occursCheck var base || anyOccurs var args
  | .function params returns _ => anyOccurs var params || occursCheck var returns
  | .concrete ann => annotOccurs var ann

def anyOccurs (var : TypeVar) : List Ty → Bool
  | [] => false
  | t :: ts => occursCheck var t || anyOccurs var ts

end

/-! ## Substitution -/

/-- The annotation a carrier becomes when its variable resolves to a type: a carrier again for a
variable, else the type's annotation form, else it stays. -/
def resolveCarrier (carrier : TypeAnnot) : Ty → TypeAnnot
  | .var v => .tyvar v
  | .constrained v _ => .tyvar v
  | resolved => resolved.toAnnot.getD carrier

mutual

def applySubstitutions (S : Substitutions) : Nat → Ty → Option Ty
  | 0, _ => none
  | fuel + 1, .var v => (S v).elim (some (.var v)) (applySubstitutions S fuel)
  | fuel + 1, .constrained v c => (S v).elim (some (.constrained v c)) (applySubstitutions S fuel)
  | fuel + 1, .concrete ann => (applyToAnnot S fuel ann).map .concrete
  | fuel + 1, ty => ty.rebuild (applySubstitutions S fuel)

def applyToAnnot (S : Substitutions) : Nat → TypeAnnot → Option TypeAnnot
  | 0, _ => none
  | fuel + 1, .tyvar v =>
      (S v).elim (some (.tyvar v)) fun _ =>
        (applySubstitutions S fuel (.var v)).map (resolveCarrier (.tyvar v))
  | fuel + 1, ann => ann.rebuild (applyToAnnot S fuel)

end

/-! ## Binding -/

def isVariable (var : TypeVar) : Ty → Bool
  | .var v => v = var
  | _ => false

/-- What `bind` stores, if it stores anything. -/
def storedType (var : TypeVar) (ty : Ty) : Option Ty :=
  if isVariable var ty then none
  else if occursCheck var ty then none
  else some ty

def bind (fuel : Nat) (S : Substitutions) (var : TypeVar) (ty : Ty) : Option Substitutions := do
  let ty ← applySubstitutions S fuel ty
  match storedType var ty with
  | none => some S
  | some ty => some (Function.update S var (some ty))

/-- A sequence of `bind` calls. -/
def bindAll (fuel : Nat) : Substitutions → List (TypeVar × Ty) → Option Substitutions
  | S, [] => some S
  | S, (var, ty) :: rest => do
      let S' ← bind fuel S var ty
      bindAll fuel S' rest

def Substitutions.fresh : Substitutions := fun _ => none

end ShapeLang.TypeSystem
