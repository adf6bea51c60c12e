import ShapeLang.Patterns.Matching
import ShapeLang.TypeSystem.UnifyAnnotations

/-!
# ShapeLang — exhaustiveness of `match`

Before a `match` is compiled its arms are checked against the type of the scrutinee
(`crates/shape-runtime/src/type_system/exhaustiveness.rs`). The check goes by names: an unguarded
constructor arm counts for the variant it names, an unguarded identifier for everything, and for a
union an unguarded typed arm counts for the members that have the same semantic type as its
annotation. It sees neither the patterns inside a constructor arm nor how the arm is compiled.

The values of an enum are its variants with any payload whatsoever. The values of a member of a
union are those of its outermost form; a member whose values no `TypeCheck` can tell is taken to
have all of them. Both take in more than the typed values.
-/

namespace ShapeLang.Patterns

open Lib Value TypeSystem

/-! ## Semantic types -/

inductive SemanticType where
  | number
  | integer
  | bool
  | string
  | option (inner : SemanticType)
  | result (okType : SemanticType) (errType : Option SemanticType)
  | array (elem : SemanticType)
  | struct (name : String) (fields : List (String × SemanticType))
  | enum (name : String) (variants : List (String × Option SemanticType)) (typeParams : List String)
  | named (name : String)
  | generic (name : String) (args : List SemanticType)
  | ref (inner : SemanticType)
  | refMut (inner : SemanticType)
  | never
  | void
  | function (params : List (FunctionParam SemanticType)) (returnType : SemanticType) (isFallible : Bool)

namespace SemanticType

mutual

/-- The derived equality. -/
def beq : SemanticType → SemanticType → Bool
  | number, number | integer, integer | bool, bool | string, string | never, never | void, void => true
  | option a, option b | array a, array b | ref a, ref b | refMut a, refMut b => beq a b
  | result a e, result b f => beq a b && optBeq e f
  | struct n fs, struct m gs => n = m && fieldsBeq fs gs
  | enum n vs ps, enum m ws qs => n = m && variantsBeq vs ws && ps = qs
  | named n, named m => n = m
  | generic n as, generic m bs => n = m && listBeq as bs
  | function ps r e, function qs s f => paramsBeq ps qs && beq r s && e = f
  | _, _ => false

def optBeq : Option SemanticType → Option SemanticType → Bool
  | none, none => true
  | some a, some b => beq a b
  | _, _ => false

def listBeq : List SemanticType → List SemanticType → Bool
  | [], [] => true
  | a :: as, b :: bs => beq a b && listBeq as bs
  | _, _ => false

def fieldsBeq : List (String × SemanticType) → List (String × SemanticType) → Bool
  | [], [] => true
  | (n, a) :: as, (m, b) :: bs => n = m && beq a b && fieldsBeq as bs
  | _, _ => false

def variantsBeq : List (String × Option SemanticType) → List (String × Option SemanticType) → Bool
  | [], [] => true
  | (n, a) :: as, (m, b) :: bs => n = m && optBeq a b && variantsBeq as bs
  | _, _ => false

def paramsBeq : List (FunctionParam SemanticType) → List (FunctionParam SemanticType) → Bool
  | [], [] => true
  | ⟨n, o, a⟩ :: as, ⟨m, q, b⟩ :: bs => n = m && o = q && beq a b && paramsBeq as bs
  | _, _ => false

end

end SemanticType

/-! ## Annotations as semantic types -/

section

-- the reserved name under which an annotation carries a type variable
variable (carrierName : TypeVar → String)

mutual

def annotationToString : TypeAnnot → String
  | .basic name => name
  | .tyvar var => carrierName var
  | .reference name => name
  | .generic name args =>
    if args.isEmpty then name else name ++ "<" ++ ", ".intercalate (annotationsToStrings args) ++ ">"
  | .array elem => "Vec<" ++ annotationToString elem ++ ">"
  | .tuple elems => "[" ++ ", ".intercalate (annotationsToStrings elems) ++ "]"
  | .object fields => "\x7b " ++ ", ".intercalate (fieldsToStrings fields) ++ " \x7d"
  | .function params returns _ =>
    "(" ++ ", ".intercalate (paramsToStrings params) ++ ") -> " ++ annotationToString returns
  | .union types => " | ".intercalate (annotationsToStrings types)
  | .intersection types => " + ".intercalate (annotationsToStrings types)
  | .borrow mutable inner => (if mutable then "&mut " else "&") ++ annotationToString inner
  | .void => "()"
  | .never => "never"
  | .null => "None"
  | .undefined => "undefined"
  | .dyn traits => "dyn " ++ " + ".intercalate traits
  | .existential witnesses inner =>
    "exists<" ++ ", ".intercalate witnesses ++ "> " ++ annotationToString inner

def annotationsToStrings : List TypeAnnot → List String
  | [] => []
  | ann :: anns => annotationToString ann :: annotationsToStrings anns

def fieldsToStrings : List (ObjectTypeField TypeAnnot) → List String
  | [] => []
  | field :: fields =>
    (field.name ++ (if field.optional then "?" else "") ++ ": " ++ annotationToString field.typeAnnot) ::
      fieldsToStrings fields

def paramsToStrings : List (FunctionParam TypeAnnot) → List String
  | [] => []
  | param :: params => annotationToString param.typeAnnot :: paramsToStrings params

end

def scalarNameToSemantic (name : String) : SemanticType :=
  if name ∈ ["int", "Int", "integer", "Integer"] then .integer
  else if name ∈ ["number", "Number", "float", "Float"] then .number
  else if BuiltinTypes.isNumberTypeName name || BuiltinTypes.isIntegerTypeName name then
    .named ((BuiltinTypes.canonicalNumericRuntimeName name).getD name)
  else if BuiltinTypes.isBoolTypeName name then .bool
  else if BuiltinTypes.isStringTypeName name then .string
  else .named name

def genericToSemantic (name : String) (args : List SemanticType) : SemanticType :=
  match name, args with
  | "Option", [inner] => .option inner
  | "Result", okType :: rest => .result okType rest.head?
  | "Vec", [elem] | "Array", [elem] => .array elem
  | name, args => .generic name args

mutual

def annotationToSemantic : TypeAnnot → SemanticType
  | .basic name => scalarNameToSemantic name
  | .tyvar var => .named (carrierName var)
  | .array elem => .array (annotationToSemantic elem)
  | .generic name args => genericToSemantic name (annotationsToSemantics args)
  | .reference name => scalarNameToSemantic name
  | .borrow true inner => .refMut (annotationToSemantic inner)
  | .borrow false inner => .ref (annotationToSemantic inner)
  | .void => .void
  | .never => .never
  | .function params returns _ => .function (paramsToSemantics params) (annotationToSemantic returns) false
  | .tuple elems => .struct "Tuple" (elemsToSemantics 0 elems)
  | .object fields => .struct "Object" (fieldsToSemantics fields)
  | .union types => .enum "Union" (membersToSemantics 0 types) []
  | .intersection _ => .void
  | .null | .undefined => .void
  | .dyn traits => .named ("dyn " ++ " + ".intercalate traits)
  | .existential witnesses inner => .named (annotationToString carrierName (.existential witnesses inner))

def annotationsToSemantics : List TypeAnnot → List SemanticType
  | [] => []
  | ann :: anns => annotationToSemantic ann :: annotationsToSemantics anns

def elemsToSemantics (i : Nat) : List TypeAnnot → List (String × SemanticType)
  | [] => []
  | ann :: anns => ("_" ++ toString i, annotationToSemantic ann) :: elemsToSemantics (i + 1) anns

def membersToSemantics (i : Nat) : List TypeAnnot → List (String × Option SemanticType)
  | [] => []
  | ann :: anns =>
    ("Variant" ++ toString i, some (annotationToSemantic ann)) :: membersToSemantics (i + 1) anns

def fieldsToSemantics : List (ObjectTypeField TypeAnnot) → List (String × SemanticType)
  | [] => []
  | field :: fields => (field.name, annotationToSemantic field.typeAnnot) :: fieldsToSemantics fields

def paramsToSemantics : List (FunctionParam TypeAnnot) → List (FunctionParam SemanticType)
  | [] => []
  | param :: params =>
    ⟨param.name, param.optional, annotationToSemantic param.typeAnnot⟩ :: paramsToSemantics params

end

def typesMatch (a b : TypeAnnot) : Bool :=
  (annotationToSemantic carrierName a).beq (annotationToSemantic carrierName b)

mutual

/-- The name of a member in a report. -/
def formatTypeAnnot : TypeAnnot → String
  | .basic name => name
  | .tyvar var => carrierName var
  | .reference name => name
  | .borrow mutable inner => (if mutable then "&mut " else "&") ++ formatTypeAnnot inner
  | .array elem => "Vec<" ++ formatTypeAnnot elem ++ ">"
  | .tuple elems => "[" ++ ", ".intercalate (formatTypeAnnots elems) ++ "]"
  | .object _ => "object"
  | .function _ _ _ => "function"
  | .union types => " | ".intercalate (formatTypeAnnots types)
  | .intersection types => " + ".intercalate (formatTypeAnnots types)
  | .generic name args =>
    if args.isEmpty then name else name ++ "<" ++ ", ".intercalate (formatTypeAnnots args) ++ ">"
  | .void => "void"
  | .never => "never"
  | .null => "None"
  | .undefined => "undefined"
  | .dyn traits => "dyn " ++ " + ".intercalate traits
  | .existential witnesses inner => "exists<" ++ ", ".intercalate witnesses ++ "> " ++ formatTypeAnnot inner

def formatTypeAnnots : List TypeAnnot → List String
  | [] => []
  | ann :: anns => formatTypeAnnot ann :: formatTypeAnnots anns

end

/-! ## The checker -/

inductive ExhaustivenessResult where
  | exhaustive
  | nonExhaustive (enumName : String) (missingVariants : List String)
  | triviallyExhaustive
  | notApplicable
  deriving DecidableEq

def ExhaustivenessResult.isExhaustive : ExhaustivenessResult → Bool
  | .exhaustive | .triviallyExhaustive | .notApplicable => true
  | .nonExhaustive _ _ => false

def isCatchAllPattern : Pattern → Bool
  | .wildcard | .identifier _ => true
  | _ => false

def hasUnguardedCatchAll (arms : List MatchArm) : Bool :=
  arms.any fun arm => !arm.guarded && isCatchAllPattern arm.pattern

def extractVariantName (expectedEnum : String) : Pattern → Option String
  | .constructor (some enumName) variant _ => if enumName = expectedEnum then some variant else none
  | .constructor none variant _ => some variant
  | _ => none

def collectCoveredVariants (arms : List MatchArm) (enumName : String) : List String :=
  arms.filterMap fun arm => if arm.guarded then none else extractVariantName enumName arm.pattern

def checkExhaustiveness (arms : List MatchArm) (scrutineeType : SemanticType) : ExhaustivenessResult :=
  match scrutineeType with
  | .enum enumName variants _ =>
    let covered := collectCoveredVariants arms enumName
    if hasUnguardedCatchAll arms then .triviallyExhaustive
    else
      let missing := (variants.map Prod.fst).filter fun name => name ∉ covered
      if missing.isEmpty then .exhaustive else .nonExhaustive enumName missing
  | _ => if hasUnguardedCatchAll arms then .triviallyExhaustive else .notApplicable

mutual

def flattenUnionAnnot : TypeAnnot → List TypeAnnot
  | .union types => flattenUnionAnnots types
  | ann => [ann]

def flattenUnionAnnots : List TypeAnnot → List TypeAnnot
  | [] => []
  | ann :: anns => flattenUnionAnnot ann ++ flattenUnionAnnots anns

end

def pushUncovered (covered : List TypeAnnot) (ann : TypeAnnot) : List TypeAnnot :=
  if covered.any fun existing => typesMatch carrierName existing ann then covered else covered ++ [ann]

def collectCoveredUnionTypes (arms : List MatchArm) : List TypeAnnot :=
  arms.foldl (fun covered arm =>
    if arm.guarded then covered
    else match arm.pattern with
      | .typed _ ann => (flattenUnionAnnot ann).foldl (pushUncovered carrierName) covered
      | _ => covered) []

def checkUnionExhaustiveness (arms : List MatchArm) (unionVariants : List TypeAnnot) :
    ExhaustivenessResult :=
  if hasUnguardedCatchAll arms then .triviallyExhaustive
  else
    let coveredTypes := collectCoveredUnionTypes carrierName arms
    let missing := unionVariants.filter fun variant => !coveredTypes.any fun covered =>
        typesMatch carrierName covered variant
    if missing.isEmpty then .exhaustive
    else .nonExhaustive (" | ".intercalate (formatTypeAnnots carrierName unionVariants))
      (formatTypeAnnots carrierName missing)

/-! ## Values of enums and unions -/

/-- A variant of the enum with any payload. -/
def IsEnumValue (env : Env) (enumName : String) (variants : List (String × Option SemanticType))
    (v : MatchValue) : Prop :=
  ∃ variant ∈ variants.map Prod.fst, ∃ variantId payload, env.variantId enumName variant = some variantId ∧
    v = .enum (env.resolveTypeName enumName) variantId payload

def conformsGeneric (v : MatchValue) (name : String) : Bool :=
  match name with
  | "HashMap" | "Map" => v.kind = .ptr .hashMap
  | "HashSet" | "Set" => v.kind = .ptr .hashSet
  | "Iterator" => v.kind = .ptr .iterator
  | _ => true

/-- The value has the outermost form of the type. -/
def conforms (v : MatchValue) : SemanticType → Bool
  | .number => v.kind = .float64
  | .integer =>
    v.kind ∈ [.int8, .int16, .int32, .int64, .intSize, .uint8, .uint16, .uint32, .uint64, .uintSize]
  | .bool => v.kind = .bool
  | .option _ =>
    match v with
    | .some _ => true
    | v => v.isNull
  | .result _ _ =>
    match v with
    | .ok _ | .err _ => true
    | _ => false
  | .array _ => v.kind = .ptr .typedArray
  | .generic name _ => conformsGeneric v name
  | _ => true

def IsUnionValue (members : List TypeAnnot) (v : MatchValue) : Prop :=
  ∃ member ∈ members, conforms v (annotationToSemantic carrierName member) = true

/-! ## Arms that keep what they are counted for -/

/-- The arm is compiled to a check that never fails. -/
def catchesAll (env : Env) (arm : MatchArm) : Bool :=
  !arm.guarded && isCatchAllPattern (env.normalize arm.pattern)

/-- The patterns inside are wildcards and names. -/
def PatternConstructorFields.irrefutable : PatternConstructorFields → Bool
  | .unit => true
  | .tuple patterns => patterns.all isCatchAllPattern
  | .struct fields => fields.all fun field => isCatchAllPattern field.2

/-- The arm is compiled to a check for the variant of the enum and for nothing else. -/
def coversVariant (env : Env) (enumName variant : String) (arm : MatchArm) : Bool :=
  !arm.guarded &&
    match env.normalize arm.pattern with
    | .constructor (some owner) variant' fields =>
      variant' = variant && constructorForm (some owner) variant = .qualified owner &&
        env.variantId owner variant = env.variantId enumName variant && fields.irrefutable
    | _ => false

/-- Every variant that is counted as covered is covered by an arm. -/
def EnumArmsKept (env : Env) (enumName : String) (variants : List (String × Option SemanticType))
    (arms : List MatchArm) :
    Prop :=
  (∃ arm ∈ arms, catchesAll env arm = true) ∨ ∀ variant ∈ variants.map Prod.fst,
    hasUnguardedCatchAll arms = true ∨ variant ∈ collectCoveredVariants arms enumName →
    ∃ arm ∈ arms, coversVariant env enumName variant arm = true

/-- `TypeCheck` accepts every value of the annotated type. -/
def checkable : TypeAnnot → Bool
  | .basic "int" | .basic "number" | .basic "float" | .basic "bool" => true
  | .generic "Option" [_] | .generic "Result" (_ :: _) | .generic "Array" [_] | .generic "Vec" [_] => true
  | .generic "HashMap" _ | .generic "Map" _ | .generic "HashSet" _ | .generic "Set" _ | .generic
      "Iterator" _ => true
  | _ => false

/-- The arm is compiled to a `TypeCheck` that accepts the values of the member. -/
def coversMember (member : TypeAnnot) (arm : MatchArm) : Bool :=
  !arm.guarded &&
    match arm.pattern with
    | .typed _ ann => checkable ann && typesMatch carrierName ann member
    | _ => false

/-- Every member that is counted as covered is covered by an arm. -/
def UnionArmsKept (env : Env) (members : List TypeAnnot) (arms : List MatchArm) : Prop :=
  (∃ arm ∈ arms, catchesAll env arm = true) ∨ ∀ member ∈ members,
    hasUnguardedCatchAll arms = true ∨
      (collectCoveredUnionTypes carrierName arms).any
        (fun covered => typesMatch carrierName covered member) = true →
    ∃ arm ∈ arms, coversMember carrierName member arm = true

/-! ## Checks that succeed -/

variable {carrierName} {env : Env} {v : MatchValue}

theorem matchesPattern_of_isCatchAll {pattern : Pattern} (h : isCatchAllPattern pattern = true)
    (v : MatchValue) :
    matchesPattern env pattern v = true := by
  cases pattern with
  | wildcard => rw [matchesPattern]
  | identifier name => rw [matchesPattern]
  | typed | literal | array | object | constructor => cases h

theorem matchesElements_of_isCatchAll {patterns : List Pattern} (h : patterns.all isCatchAllPattern = true)
    (vs : List MatchValue) : matchesElements env patterns vs = true := by
  induction patterns generalizing vs with
  | nil => rw [matchesElements]
  | cons pattern patterns ih =>
    rw [List.all_cons, Bool.and_eq_true] at h
    cases vs with
    | nil => rw [matchesElements, matchesPattern_of_isCatchAll h.1, ih h.2, Bool.and_self]
    | cons v vs => rw [matchesElements, matchesPattern_of_isCatchAll h.1, ih h.2, Bool.and_self]

theorem matchesPositions_of_isCatchAll {fields : List (String × Pattern)}
    (h : (fields.all fun field => isCatchAllPattern field.2) = true) (vs : List MatchValue) :
    matchesPositions env fields vs = true := by
  induction fields generalizing vs with
  | nil => rw [matchesPositions]
  | cons field fields ih =>
    obtain ⟨key, pattern⟩ := field
    rw [List.all_cons, Bool.and_eq_true] at h
    cases vs with
    | nil => rw [matchesPositions, matchesPattern_of_isCatchAll h.1, ih h.2, Bool.and_self]
    | cons v vs => rw [matchesPositions, matchesPattern_of_isCatchAll h.1, ih h.2, Bool.and_self]

variable {arm : MatchArm}

theorem accepts_of_catchesAll (h : catchesAll env arm = true) (v : MatchValue) :
    arm.guarded = false ∧ arm.accepts env v = true := by
  unfold catchesAll at h
  rw [Bool.and_eq_true, Bool.not_eq_true'] at h
  exact ⟨h.1, matchesPattern_of_isCatchAll h.2 v⟩

variable {enumName variant : String}

theorem accepts_of_coversVariant (h : coversVariant env enumName variant arm = true)
    {variantId : Nat} {schema : String} {payload : List MatchValue}
    (hid : env.variantId enumName variant = some variantId) :
    arm.guarded = false ∧ arm.accepts env (.enum schema variantId payload) = true := by
  unfold coversVariant at h
  rw [Bool.and_eq_true, Bool.not_eq_true'] at h
  obtain ⟨hguard, h⟩ := h
  refine ⟨hguard, ?_⟩
  unfold MatchArm.accepts
  -- only a pattern that names the variant covers it by itself
  split at h
  · rename_i owner variant' fields hpattern
    simp only [Bool.and_eq_true, decide_eq_true_eq] at h
    obtain ⟨⟨⟨rfl, hform⟩, howner⟩, hfields⟩ := h
    rw [hpattern, matchesPattern, hform]
    have hvariant : env.variantId owner variant' = some
        (MatchValue.enum schema variantId payload).variantField :=
      howner.trans hid
    -- its fields accept everything, whatever the payload holds
    cases fields with
    | unit => simp [matchesConstructor, hvariant]
    | tuple patterns =>
      simp only [matchesConstructor, hvariant, decide_true, Bool.true_and]
      exact matchesElements_of_isCatchAll hfields payload
    | struct fields =>
      simp only [matchesConstructor, hvariant, decide_true, Bool.true_and]
      exact matchesPositions_of_isCatchAll hfields payload
  · cases h

theorem conforms_of_beq {a b : SemanticType} (h : a.beq b = true) : conforms v a = conforms v b := by
  cases a <;> cases b <;> simp only [SemanticType.beq, Bool.false_eq_true] at h
  case generic.generic name args name' args' =>
    -- of a generic type the name alone is looked at
    rw [Bool.and_eq_true, decide_eq_true_eq] at h
    rw [h.1]
    rfl
  all_goals rfl

theorem typeCheckKinded_of_conforms {ann : TypeAnnot} (hcheck : checkable ann = true)
    (h : conforms v (annotationToSemantic carrierName ann) = true) : typeCheckKinded ann v = true := by
  unfold checkable at hcheck
  split at hcheck
  all_goals first
    | exact h
    | cases hcheck

variable {member : TypeAnnot}

theorem accepts_of_coversMember (h : coversMember carrierName member arm = true)
    (hv : conforms v (annotationToSemantic carrierName member) = true) :
    arm.guarded = false ∧ arm.accepts env v = true := by
  unfold coversMember at h
  rw [Bool.and_eq_true, Bool.not_eq_true'] at h
  obtain ⟨hguard, h⟩ := h
  refine ⟨hguard, ?_⟩
  split at h
  · rename_i name ann hpattern
    rw [Bool.and_eq_true] at h
    unfold MatchArm.accepts
    rw [hpattern]
    show matchesPattern env (.typed name ann) v = true
    rw [matchesPattern]
    have hann : conforms v (annotationToSemantic carrierName ann) = true := by
      rw [conforms_of_beq h.2]
      exact hv
    exact typeCheckKinded_of_conforms h.1 hann
  · cases h

/-! ## What a report says -/

variable {arms : List MatchArm}

theorem counted_of_isExhaustive {variants : List (String × Option SemanticType)} {typeParams : List String}
    (h : (checkExhaustiveness arms (.enum enumName variants typeParams)).isExhaustive = true)
    (hvariant : variant ∈ variants.map Prod.fst) :
    hasUnguardedCatchAll arms = true ∨ variant ∈ collectCoveredVariants arms enumName := by
  by_cases hall : hasUnguardedCatchAll arms = true
  · exact Or.inl hall
  · refine Or.inr ?_
    unfold checkExhaustiveness at h
    dsimp only at h
    rw [if_neg hall] at h
    split at h
    · rename_i hmissing
      rw [List.isEmpty_iff, List.filter_eq_nil_iff] at hmissing
      simpa using hmissing variant hvariant
    · cases h

theorem countedMember_of_isExhaustive {members : List TypeAnnot}
    (h : (checkUnionExhaustiveness carrierName arms members).isExhaustive = true)
    (hmember : member ∈ members) :
    hasUnguardedCatchAll arms = true ∨
      (collectCoveredUnionTypes carrierName arms).any
        (fun covered => typesMatch carrierName covered member) = true := by
  by_cases hall : hasUnguardedCatchAll arms = true
  · exact Or.inl hall
  · refine Or.inr ?_
    unfold checkUnionExhaustiveness at h
    dsimp only at h
    rw [if_neg hall] at h
    split at h
    · rename_i hmissing
      rw [List.isEmpty_iff, List.filter_eq_nil_iff] at hmissing
      simpa using hmissing member hmember
    · cases h

end

/-! ## A shape and a colour -/

def smallEnv : Env where
  enums := (AList.insert "Shape" [⟨"Circle", false⟩, ⟨"Point", true⟩] ∅).insert "Colour"
    [⟨"Red", true⟩, ⟨"Green", true⟩]
  structs := []
  resolveTypeName := id
  isUppercase := Char.isUpper
  eqNumber := fun _ _ => false
  eqDecimal := fun _ _ => false

/-- `Circle(radius)` and `Point`. -/
def shapeVariants : List (String × Option SemanticType) := [("Circle", some .integer), ("Point", none)]

def colourVariants : List (String × Option SemanticType) := [("Red", none), ("Green", none)]

def circle (radius : UInt64) : MatchValue := .enum "Shape" 0 [.scalar .int64 radius]

/-- `Shape::Circle(r) => …, Shape::Point => …`. -/
def bothShapes : List MatchArm :=
  [⟨.constructor (some "Shape") "Circle" (.tuple [.identifier "r"]), false⟩,
    ⟨.constructor (some "Shape") "Point" .unit, false⟩]

/-- `n: int => …, b: bool => …`. -/
def intAndBool : List MatchArm := [⟨.typed "n" (.basic "int"), false⟩, ⟨.typed "b" (.basic "bool"), false⟩]

/-- `Shape::Circle(1) => …, Shape::Point => …`. -/
def unitCircle : List MatchArm :=
  [⟨.constructor (some "Shape") "Circle" (.tuple [.literal (.int 1)]), false⟩,
    ⟨.constructor (some "Shape") "Point" .unit, false⟩]

/-- `Circle(r) => …, Shape::Point => …`. -/
def bareCircle : List MatchArm :=
  [⟨.constructor none "Circle" (.tuple [.identifier "r"]), false⟩,
    ⟨.constructor (some "Shape") "Point" .unit, false⟩]

/-- `Red => …`. -/
def onlyRed : List MatchArm := [⟨.identifier "Red", false⟩]

/-- `x: int | bool => …`. -/
def intOrBool : List MatchArm := [⟨.typed "x" (.union [.basic "int", .basic "bool"]), false⟩]

end ShapeLang.Patterns
