import ShapeLang.Lib.HashMap
import ShapeLang.TypeSystem.Types

/-!
# ShapeLang — unifying annotations

`ConstraintSolver::unify_annotations` (`crates/shape-runtime/src/type_system/constraints.rs`): is a
value annotated `ann1` accepted where `ann2` is expected? The comparison follows the two annotations
together, and numeric names may differ where the first widens losslessly to the second.

A registered struct stands for its fields when it meets a structural object, and those fields may name
the struct again, so the recursion of the source has no bound: the model takes fuel, and `none` is fuel
that ran out. The source never returns an error here.

  * `numericDomain`, `losslessImplicitNames` — the lattice of numeric names;
  * `annotationsEqual` — exact structural equality, for borrows and existential packages;
  * `unifyStep` — one comparison, over the comparison of the parts;
  * `unifyAnnotations` — the comparison with a bound on its depth.
-/

namespace ShapeLang.TypeSystem

open ShapeLang.Lib

/-! ## Numeric names -/

namespace BuiltinTypes

def canonicalNumericRuntimeName (name : String) : Option String :=
  match name with
  | "number" | "Number" | "float" | "Float" | "f64" => some "f64"
  | "f32" => some "f32"
  | "int" | "Int" | "integer" | "Integer" | "i64" => some "i64"
  | "i32" => some "i32"
  | "i16" => some "i16"
  | "i8" | "char" => some "i8"
  | "u64" => some "u64"
  | "u32" => some "u32"
  | "u16" => some "u16"
  | "u8" | "byte" => some "u8"
  | "isize" => some "isize"
  | "usize" => some "usize"
  | _ => none

def isIntegerTypeName (name : String) : Bool :=
  match canonicalNumericRuntimeName name with
  | some "i8" | some "u8" | some "i16" | some "u16" | some "i32" | some "i64" | some "u32" | some "u64"
  | some "isize" | some "usize" => true
  | _ => false

def isNumberTypeName (name : String) : Bool :=
  match canonicalNumericRuntimeName name with
  | some "f32" | some "f64" => true
  | _ => false

def isBoolTypeName (name : String) : Bool :=
  ["bool", "Bool", "boolean", "Boolean"].contains name

def isStringTypeName (name : String) : Bool :=
  ["string", "String"].contains name

def canonicalScriptAlias (name : String) : Option String :=
  if isBoolTypeName name then some "bool"
  else if isStringTypeName name then some "string"
  else if isIntegerTypeName name then some "int"
  else if isNumberTypeName name then some "number"
  else match name with
    | "Decimal" | "decimal" => some "decimal"
    | _ => none

end BuiltinTypes

/-- The values of a numeric type that are exactly representable integers: `[lo, hi]`. -/
structure NumericDomain where
  lo : Int
  hi : Int
  isFloat : Bool
  deriving DecidableEq, Repr

def NumericDomain.isSubsetOf (self dst : NumericDomain) : Bool :=
  if self.isFloat && !dst.isFloat then false
  else decide (dst.lo ≤ self.lo) && decide (self.hi ≤ dst.hi)

/-- `IntWidth::from_name`, with the range of the width: every width but `i64` has an entry. -/
def intWidthRange (name : String) : Option (Int × Int) :=
  match name with
  | "i8" => some (-128, 127)
  | "u8" => some (0, 255)
  | "i16" => some (-32768, 32767)
  | "u16" => some (0, 65535)
  | "i32" => some (-2147483648, 2147483647)
  | "u32" => some (0, 4294967295)
  | "u64" => some (0, 18446744073709551615)
  | _ => none

def numericDomain (name : String) : Option NumericDomain :=
  match intWidthRange name with
  | some (lo, hi) => some ⟨lo, hi, false⟩
  | none =>
    match BuiltinTypes.canonicalNumericRuntimeName name with
    | some "i64" => some ⟨-2 ^ 63, 2 ^ 63 - 1, false⟩
    | some "isize" => some ⟨-2 ^ 63, 2 ^ 63 - 1, false⟩
    | some "usize" => some ⟨0, 2 ^ 64 - 1, false⟩
    | some "f64" => some ⟨-2 ^ 53, 2 ^ 53, true⟩
    | some "f32" => some ⟨-2 ^ 24, 2 ^ 24, true⟩
    | _ => none

def losslessImplicitNames (src dst : String) : Bool :=
  match numericDomain src, numericDomain dst with
  | some s, some d => s.isSubsetOf d
  | _, _ => false

namespace TypeAnnot

/-- The name of a bare name, `annotation_name` and `as_type_name_str` in the source. -/
def asTypeNameStr : TypeAnnot → Option String
  | basic name => some name
  | reference name => some name
  | _ => none

end TypeAnnot

def losslessImplicit (src dst : TypeAnnot) : Bool :=
  match src.asTypeNameStr, dst.asTypeNameStr with
  | some s, some d => losslessImplicitNames s d
  | _, _ => false

def isAnyError (ann : TypeAnnot) : Bool := ann.asTypeNameStr == some "AnyError"

def isTyvar : TypeAnnot → Bool
  | .tyvar _ => true
  | _ => false

/-! ## Structural equality -/

/-- Two lists agree position by position, the first given as tests. -/
def zipTests {α : Type} (tests : List (α → Bool)) (items : List α) : Bool :=
  tests.length == items.length && (tests.zip items).all fun pair => pair.1 pair.2

/-- Two lists agree in any order, the first given as tests. -/
def setTests {α : Type} (tests : List (α → Bool)) (items : List α) : Bool :=
  tests.length == items.length && tests.all (fun test => items.any test) &&
    items.all fun item => tests.any fun test => test item

mutual

def annotationsEqual : TypeAnnot → TypeAnnot → Bool
  | .basic n₁ => fun | .basic n₂ => n₁ == n₂ | _ => false
  -- a carrier is a `Basic` too, with a text that no other name has
  | .tyvar v₁ => fun | .tyvar v₂ => v₁ == v₂ | _ => false
  | .reference n₁ => fun | .reference n₂ => n₁ == n₂ | _ => false
  | .borrow m₁ i₁ => fun | .borrow m₂ i₂ => m₁ == m₂ && annotationsEqual i₁ i₂ | _ => false
  | .array e₁ => fun | .array e₂ => annotationsEqual e₁ e₂ | _ => false
  | .tuple t₁ => fun | .tuple t₂ => zipTests (annotationTests t₁) t₂ | _ => false
  | .object f₁ => fun | .object f₂ => zipTests (fieldTests f₁) f₂ | _ => false
  | .function p₁ r₁ _ => fun
    | .function p₂ r₂ _ => zipTests (paramTests p₁) p₂ && annotationsEqual r₁ r₂
    | _ => false
  | .union u₁ => fun | .union u₂ => setTests (annotationTests u₁) u₂ | _ => false
  | .intersection i₁ => fun | .intersection i₂ => setTests (annotationTests i₁) i₂ | _ => false
  | .generic n₁ a₁ => fun
    | .generic n₂ a₂ => n₁ == n₂ && zipTests (annotationTests a₁) a₂
    | _ => false
  | .void => fun | .void => true | _ => false
  | .never => fun | .never => true | _ => false
  | .null => fun | .null => true | _ => false
  | .undefined => fun | .undefined => true | _ => false
  | .dyn _ => fun _ => false
  | .existential _ _ => fun _ => false

def annotationTests : List TypeAnnot → List (TypeAnnot → Bool)
  | [] => []
  | ann :: anns => annotationsEqual ann :: annotationTests anns

def fieldTests : List (ObjectTypeField TypeAnnot) → List (ObjectTypeField TypeAnnot → Bool)
  | [] => []
  | ⟨name, optional, ann, _⟩ :: fields =>
    (fun field => name == field.name && optional == field.optional &&
      annotationsEqual ann field.typeAnnot) :: fieldTests fields

def paramTests : List (FunctionParam TypeAnnot) → List (FunctionParam TypeAnnot → Bool)
  | [] => []
  | ⟨_, optional, ann⟩ :: params =>
    (fun param => optional == param.optional && annotationsEqual ann param.typeAnnot) ::
      paramTests params

end

/-! ## The solver's tables -/

/-- What `unify_annotations` reads of the solver. A trait implementation is the text `Trait::Type`. -/
structure ConstraintSolver where
  traitImpls : List String
  structSchemas : HashMap String (List (ObjectTypeField TypeAnnot))

namespace ConstraintSolver

def structFields (solver : ConstraintSolver) (name : String) :
    Option (List (ObjectTypeField TypeAnnot)) :=
  solver.structSchemas.lookup name

def hasTraitImpl (solver : ConstraintSolver) (traitName typeName : String) : Bool :=
  let implemented := fun name : String => solver.traitImpls.contains (traitName ++ "::" ++ name)
  implemented typeName ||
    (BuiltinTypes.canonicalNumericRuntimeName typeName).any implemented ||
    (BuiltinTypes.canonicalScriptAlias typeName).any implemented ||
    (BuiltinTypes.isIntegerTypeName typeName && ["number", "float", "f64"].any implemented)

end ConstraintSolver

/-! ## Existential packages -/

/-- `head_and_args`: the nominal head of an annotation and its type arguments. -/
def headAndArgs : TypeAnnot → Option String × List TypeAnnot
  | .generic name args => (some name, args)
  | .basic name => (some name, [])
  | .reference name => (some name, [])
  | _ => (none, [])

/-- A bare name that is one of the witnesses becomes the marker of its position. -/
def markName (witnesses : List String) (name : String) (ann : TypeAnnot) : TypeAnnot :=
  match witnesses.idxOf? name with
  | some idx => .basic ("\u0001witness:" ++ toString idx)
  | none => ann

mutual

def markWitnessesPositionally (witnesses : List String) : TypeAnnot → TypeAnnot
  | .basic name => markName witnesses name (.basic name)
  | .reference name => markName witnesses name (.reference name)
  | .generic name args => .generic name (markAll witnesses args)
  | .array inner => .array (markWitnessesPositionally witnesses inner)
  | .tuple items => .tuple (markAll witnesses items)
  | ann => ann

def markAll (witnesses : List String) : List TypeAnnot → List TypeAnnot
  | [] => []
  | ann :: anns => markWitnessesPositionally witnesses ann :: markAll witnesses anns

end

def isWitness (witnesses : List String) (ann : TypeAnnot) : Bool :=
  ann.asTypeNameStr.any witnesses.contains

/-! ## One comparison

`unify` stands for the comparison of the parts. A loop that returns early is `allM` or `anyM`. -/

section

variable (solver : ConstraintSolver) (unify : TypeAnnot → TypeAnnot → Option Bool)

def unifyZip (left right : List TypeAnnot) : Option Bool :=
  (left.zip right).allM fun pair => unify pair.1 pair.2

def fieldCompatible (right : List (ObjectTypeField TypeAnnot)) (leftField : ObjectTypeField TypeAnnot) :
    Option Bool :=
  match right.find? (·.name == leftField.name) with
  | none => some false
  | some rightField =>
    if leftField.optional != rightField.optional then some false
    else unify leftField.typeAnnot rightField.typeAnnot

def objectFieldsCompatible (left right : List (ObjectTypeField TypeAnnot)) : Option Bool := do
  if ← left.allM (fieldCompatible unify right) then some (left.length == right.length) else some false

def unifyObjectWithNamedStruct (objFields : List (ObjectTypeField TypeAnnot)) (name : String) :
    Option Bool :=
  match solver.structFields name with
  | some structFields => objectFieldsCompatible unify objFields structFields
  | none => some false

/-- The first annotation of `right` that is not taken yet and unifies is taken. `none` inside: there is
no such annotation. -/
def takeMatch (ann : TypeAnnot) : List (Bool × TypeAnnot) → Option (Option (List (Bool × TypeAnnot)))
  | [] => some none
  | (taken, candidate) :: rest => do
    if ← (if taken then some false else unify ann candidate) then
      some (some ((true, candidate) :: rest))
    else
      let found ← takeMatch ann rest
      some (found.map ((taken, candidate) :: ·))

def unifyRemaining : List TypeAnnot → List (Bool × TypeAnnot) → Option Bool
  | [], _ => some true
  | ann :: left, right => do
    match ← takeMatch unify ann right with
    | none => some false
    | some right => unifyRemaining left right

def unifyAnnotationSets (left right : List TypeAnnot) : Option Bool :=
  if left.length != right.length then some false
  else unifyRemaining unify left (right.map fun ann => (false, ann))

def existentialIntroduces (witnesses : List String) (inner concrete : TypeAnnot) : Option Bool :=
  match concrete with
  | .existential witnesses₂ inner₂ =>
    some (witnesses.length == witnesses₂.length &&
      annotationsEqual (markWitnessesPositionally witnesses inner)
        (markWitnessesPositionally witnesses₂ inner₂))
  | _ =>
    match headAndArgs inner, headAndArgs concrete with
    | (some innerHead, innerArgs), (some concreteHead, concreteArgs) =>
      if innerHead != concreteHead then some false
      else if concreteArgs.isEmpty && innerArgs.all (isWitness witnesses) then some true
      else if innerArgs.length != concreteArgs.length then some false
      else (innerArgs.zip concreteArgs).allM fun pair =>
        if isWitness witnesses pair.1 then some true else unify pair.1 pair.2
    | _, _ => some false

def unifyUnions (u₁ u₂ : List TypeAnnot) : Option Bool := do
  if ← u₁.allM (fun t₁ => u₂.anyM fun t₂ => unify t₁ t₂) then
    u₂.allM fun t₂ => u₁.anyM fun t₁ => unify t₁ t₂
  else some false

/-- The arms of the match, in the order of the source. -/
def unifyShapes : TypeAnnot → TypeAnnot → Option Bool
  | .basic n₁, .basic n₂ => some (n₁ == n₂ || losslessImplicitNames n₁ n₂)
  | .reference n₁, .reference n₂ => some (n₁ == n₂ || losslessImplicitNames n₁ n₂)
  | .basic n₁, .reference n₂ | .reference n₁, .basic n₂ =>
    some (n₁ == n₂ || losslessImplicitNames n₁ n₂)
  | .borrow m₁ i₁, .borrow m₂ i₂ => some (m₁ == m₂ && annotationsEqual i₁ i₂)
  | .array e₁, .array e₂ => unify e₁ e₂
  | .tuple t₁, .tuple t₂ => if t₁.length != t₂.length then some false else unifyZip unify t₁ t₂
  | .object f₁, .object f₂ => objectFieldsCompatible unify f₁ f₂
  | .function p₁ r₁ _, .function p₂ r₂ _ =>
    if p₁.length != p₂.length then some false
    else do
      if ← (p₁.zip p₂).allM (fun pair => unify pair.1.typeAnnot pair.2.typeAnnot) then unify r₁ r₂
      else some false
  | .union u₁, .union u₂ => unifyUnions unify u₁ u₂
  | .union types, other | other, .union types => types.anyM fun type => unify type other
  | .intersection i₁, .intersection i₂ => unifyAnnotationSets unify i₁ i₂
  | .void, .void => some true
  | .null, .null => some true
  | .undefined, .undefined => some true
  | .dyn traits₁, .dyn traits₂ =>
    some (traits₁.length == traits₂.length && traits₁.all traits₂.contains)
  | .generic name [arg], .array elem | .array elem, .generic name [arg] =>
    if name == "Array" then unify arg elem else some false
  | .object fields, .basic name | .basic name, .object fields =>
    unifyObjectWithNamedStruct solver unify fields name
  | .object fields, .reference name | .reference name, .object fields =>
    unifyObjectWithNamedStruct solver unify fields name
  | .basic name, .dyn traits | .dyn traits, .basic name =>
    some (traits.all fun traitName => solver.hasTraitImpl traitName name)
  | .reference name, .dyn traits | .dyn traits, .reference name =>
    some (traits.all fun traitName => solver.hasTraitImpl traitName name)
  | .existential witnesses inner, concrete | concrete, .existential witnesses inner =>
    existentialIntroduces unify witnesses inner concrete
  | _, _ => some false

def unifyStep (ann₁ ann₂ : TypeAnnot) : Option Bool :=
  if isAnyError ann₁ || isAnyError ann₂ then some true
  else if isTyvar ann₁ || isTyvar ann₂ then some true
  else unifyShapes solver unify ann₁ ann₂

end

/-- `unify_annotations`, to the given depth. -/
def unifyAnnotations (solver : ConstraintSolver) : Nat → TypeAnnot → TypeAnnot → Option Bool
  | 0, _, _ => none
  | fuel + 1, ann₁, ann₂ => unifyStep solver (unifyAnnotations solver fuel) ann₁ ann₂

end ShapeLang.TypeSystem
