import ShapeLang.Lib.HashMap
import ShapeLang.TypeSystem.Types
import ShapeLang.Value.Kinds

/-!
# ShapeLang — patterns and the values they match

A `match` compiles every arm to a check of the scrutinee against the pattern
(`crates/shape-vm/src/compiler/patterns/checking.rs`) and runs the first arm whose check succeeds
and whose guard holds. `matchesPattern` is that check, executed on a value: a typed pattern is a
`TypeCheck` against the kind of the value (`executor/exceptions/mod.rs`), a constructor pattern
reads the variant and the payload slots of the object, and `Option` and `Result` have carriers of
their own.

A pattern that the compiler rejects matches nothing here. What an object pattern needs to know about
the static type of the value is taken to be known.
-/

namespace ShapeLang.Patterns

open Lib Value TypeSystem

/-! ## Patterns -/

inductive Literal where
  | int (n : UInt64)
  | uint (n : UInt64)
  | typedInt (n : UInt64)
  | number (bits : UInt64)
  | decimal (text : String)
  | string (text : String)
  | char (c : Char)
  | formattedString (text : String)
  | bool (b : Bool)
  | none
  | unit
  | timeframe (text : String)
  deriving DecidableEq

mutual

inductive Pattern where
  | identifier (name : String)
  | typed (name : String) (ann : TypeAnnot)
  | literal (lit : Literal)
  | array (patterns : List Pattern)
  | object (fields : List (String × Pattern))
  | wildcard
  | constructor (enumName : Option String) (variant : String) (fields : PatternConstructorFields)

inductive PatternConstructorFields where
  | unit
  | tuple (patterns : List Pattern)
  | struct (fields : List (String × Pattern))

end

/-! ## Values -/

/-- A value as the check sees it: a kind with bits, or a heap object. -/
inductive MatchValue where
  | scalar (kind : NativeKind) (bits : UInt64)
  | string (kind : NativeKind) (text : String)
  | some (payload : MatchValue)
  | ok (payload : MatchValue)
  | err (payload : MatchValue)
  | array (elems : List MatchValue)
  | enum (schema : String) (variantId : Nat) (payload : List MatchValue)
  | object (schema : String) (fields : List (String × MatchValue))
  /-- An object that no pattern looks into. -/
  | heap (kind : HeapKind)

namespace MatchValue

def null : MatchValue := .scalar .null 0

def kind : MatchValue → NativeKind
  | .scalar kind _ => kind
  | .string kind _ => kind
  | .some _ | .ok _ | .err _ | .enum _ _ _ | .object _ _ => .ptr .typedObject
  | .array _ => .ptr .typedArray
  | .heap kind => .ptr kind

/-- `is_none_bits_pre_adr020`. -/
def isNoneBits (bits : UInt64) : NativeKind → Bool
  | .null => true
  | .nullableFloat64 => bits = 0x7FF8000000000001
  | .nullableInt8 | .nullableUInt8 => bits = 0x100
  | .nullableInt16 | .nullableUInt16 => bits = 0x10000
  | .nullableInt32 | .nullableUInt32 => bits = 0x100000000
  | .nullableInt64 | .nullableUInt64 | .nullableIntSize | .nullableUIntSize => bits = 0
  -- the null pointer
  | .string | .stringV2 | .decimalV2 | .ptr _ => bits = 0
  | _ => false

def isNull : MatchValue → Bool
  | .scalar kind bits => isNoneBits bits kind
  | _ => false

/-- `UnwrapOption`: what is no carrier stands for itself. -/
def unwrapOption : MatchValue → MatchValue
  | .some payload => payload
  | v => v

/-- `UnwrapOk` behind `IsOk`, and the same for `Err`. -/
def unwrapResult : Bool → MatchValue → Option MatchValue
  | true, .ok payload => Option.some payload
  | false, .err payload => Option.some payload
  | _, _ => Option.none

/-- The `__variant` field. An object without one gives null, which is zero bits. -/
def variantField : MatchValue → Nat
  | .enum _ variantId _ => variantId
  | _ => 0

def payloadFields : MatchValue → List MatchValue
  | .enum _ _ payload => payload
  | _ => []

def isObject : MatchValue → Bool
  | .object _ _ => true
  | _ => false

def field (key : String) : MatchValue → Option MatchValue
  | .object _ fields => fields.lookup key
  | _ => Option.none

end MatchValue

/-! ## What the compiler knows -/

structure VariantInfo where
  name : String
  isUnit : Bool
  deriving DecidableEq

structure Env where
  /-- The enum schemas by name. -/
  enums : HashMap String (List VariantInfo)
  /-- The names of structs. -/
  structs : List String
  resolveTypeName : String → String
  isUppercase : Char → Bool
  /-- `EqNumber` against a literal. -/
  eqNumber : MatchValue → UInt64 → Bool
  /-- `EqDecimal` against a literal. -/
  eqDecimal : MatchValue → String → Bool

namespace Env

/-- The id of a variant is its position. -/
def variantId (env : Env) (enumName variant : String) : Option Nat :=
  (env.enums.lookup (env.resolveTypeName enumName)).bind fun variants => variants.findIdx?
    (·.name = variant)

def declaresUnit (name : String) (variants : List VariantInfo) : Bool :=
  (variants.find? (·.name = name)).any (·.isUnit)

/-- The enum that declares the name as a unit variant, when there is one such enum. -/
def enumForUnitVariant (env : Env) (name : String) : Option String :=
  match env.enums.entries.filter fun entry => declaresUnit name entry.2 with
  | [entry] => some entry.1
  | _ => none

/-- A capitalised identifier that names a unit variant is a pattern for that variant. -/
def normalizeUnitVariantPattern (env : Env) : Pattern → Option Pattern
  | .identifier name =>
    if name.toList.head?.any env.isUppercase then
      (env.enumForUnitVariant name).map fun owner => .constructor (some owner) name .unit
    else none
  | _ => none

/-- The pattern of an arm as it is compiled. -/
def normalize (env : Env) (pattern : Pattern) : Pattern :=
  (env.normalizeUnitVariantPattern pattern).getD pattern

end Env

/-! ## The check -/

/-- `type_check_kinded`: what it has no arm for is refused. -/
def typeCheckKinded (ann : TypeAnnot) (v : MatchValue) : Bool :=
  match ann with
  | .basic "int" =>
    v.kind ∈ [.int8, .int16, .int32, .int64, .intSize, .uint8, .uint16, .uint32, .uint64, .uintSize]
  | .basic "number" | .basic "float" => v.kind = .float64
  | .basic "bool" => v.kind = .bool
  | .basic "string" => v.kind ∈ [.string, .ptr .string]
  | .basic "char" => v.kind = .ptr .char
  | .basic "array" => v.kind = .ptr .typedArray
  | .basic "object" => v.kind = .ptr .typedObject
  | .null =>
    match v with
    | .scalar _ bits => bits = 0
    | _ => false
  | .generic "Result" _ =>
    match v with
    | .ok _ | .err _ => true
    | _ => false
  | .generic "Option" _ =>
    match v with
    | .some _ => true
    | v => v.isNull
  | .generic "Array" _ | .generic "Vec" _ => v.kind = .ptr .typedArray
  | .generic "HashMap" _ | .generic "Map" _ => v.kind = .ptr .hashMap
  | .generic "HashSet" _ | .generic "Set" _ => v.kind = .ptr .hashSet
  | .generic "Iterator" _ => v.kind = .ptr .iterator
  | _ => false

def matchesLiteral (env : Env) (lit : Literal) (v : MatchValue) : Bool :=
  match lit with
  | .bool b =>
    match v with
    | .scalar .bool bits => bits = if b then 1 else 0
    | _ => false
  | .int n | .uint n | .typedInt n =>
    -- the comparison is of bits; those of an object are an address
    match v with
    | .scalar _ bits => bits = n
    | _ => false
  | .number bits => env.eqNumber v bits
  | .decimal text => env.eqDecimal v text
  | .string text =>
    match v with
    | .string _ text' => text' = text
    | _ => false
  | _ => false

/-- How the compiler reads the name of a constructor pattern. -/
inductive ConstructorForm where
  | none
  | some
  | result (ok : Bool)
  | qualified (enumName : String)
  | bare
  deriving DecidableEq

def constructorForm (enumName : Option String) (variant : String) : ConstructorForm :=
  let ofBuiltin := fun owner : String => enumName = Option.none ∨ enumName = Option.some owner
  if variant = "None" ∧ ofBuiltin "Option" then .none
  else if variant = "Some" ∧ ofBuiltin "Option" then .some
  else if variant = "Ok" ∧ ofBuiltin "Result" then .result true
  else if variant = "Err" ∧ ofBuiltin "Result" then .result false
  else match enumName with
    | Option.some name => .qualified name
    | Option.none => .bare

mutual

def matchesPattern (env : Env) : Pattern → MatchValue → Bool
  | .wildcard, _ => true
  | .identifier _, _ => true
  | .typed _ ann, v => typeCheckKinded ann v
  | .literal lit, v => matchesLiteral env lit v
  | .array patterns, v =>
    match v with
    | .array elems => elems.length = patterns.length && matchesElements env patterns elems
    | _ => false
  | .object fields, v => matchesObject env fields v
  | .constructor enumName variant fields, v =>
    matchesConstructor env (constructorForm enumName variant) variant fields v

def matchesConstructor (env : Env) (form : ConstructorForm) (variant : String) :
    PatternConstructorFields → MatchValue → Bool
  | .unit, v =>
    match form with
    | .none => v.isNull
    | .qualified name => env.variantId name variant = some v.variantField
    | _ => false
  | .tuple patterns, v =>
    match form with
    | .some => !v.isNull && matchesSingle env patterns v.unwrapOption
    | .result ok => (v.unwrapResult ok).any fun payload => matchesSingle env patterns payload
    | .qualified name =>
      env.variantId name variant = some v.variantField && matchesElements env patterns v.payloadFields
    | _ => false
  | .struct fields, v =>
    match form with
    | .qualified name =>
      env.variantId name variant = some v.variantField && matchesPositions env fields v.payloadFields
    | .bare =>
      -- a struct in place of a variant
      env.structs.contains (env.resolveTypeName variant) && matchesObject env fields v
    | _ => false

/-- The one pattern inside `Some`, `Ok` and `Err`. -/
def matchesSingle (env : Env) : List Pattern → MatchValue → Bool
  | [pattern], v => matchesPattern env pattern v
  | _, _ => false

/-- Position by position; a slot that is not there reads as null. -/
def matchesElements (env : Env) : List Pattern → List MatchValue → Bool
  | [], _ => true
  | pattern :: patterns, v :: vs => matchesPattern env pattern v && matchesElements env patterns vs
  | pattern :: patterns, [] => matchesPattern env pattern .null && matchesElements env patterns []

/-- A struct payload is read by position too. -/
def matchesPositions (env : Env) : List (String × Pattern) → List MatchValue → Bool
  | [], _ => true
  | (_, pattern) :: fields, v :: vs => matchesPattern env pattern v && matchesPositions env fields vs
  | (_, pattern) :: fields, [] => matchesPattern env pattern .null && matchesPositions env fields []

def matchesObject (env : Env) : List (String × Pattern) → MatchValue → Bool
  | [], v => v.isObject
  | (key, pattern) :: fields, v =>
    (v.field key).any (fun value => matchesPattern env pattern value) && matchesObject env fields v

end

structure MatchArm where
  pattern : Pattern
  /-- Whether the arm has a guard. -/
  guarded : Bool

/-- The check of the arm succeeds. -/
def MatchArm.accepts (env : Env) (arm : MatchArm) (v : MatchValue) : Bool :=
  matchesPattern env (env.normalize arm.pattern) v

end ShapeLang.Patterns
