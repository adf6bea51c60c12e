import ShapeLang.Lib.Tokens

/-!
# Specialization keys

`mono_key` renders a concrete type as words joined by underscores, `const_value_mono_segment` a
const argument, and `build_mono_key_full` joins the segments of all type arguments, const arguments
and closure specs behind the name of the function. The join marks neither the arity of a tuple nor
where one segment ends and the next begins.

An `f64` is its bit pattern.
-/

namespace ShapeLang.Monomorphization

open ShapeLang.Lib.Tokens

/-- A struct or enum: its layout id, and its source name where one is threaded. -/
structure NamedTypeId where
  layout : UInt32
  name : Option String
  deriving DecidableEq

inductive ConcreteType where
  | f64 | f32 | char | i64 | i32 | i16 | i8 | u64 | u32 | u16 | u8 | bool | string
  | struct (id : NamedTypeId)
  | array (elem : ConcreteType)
  | hashMap (key value : ConcreteType)
  | option (inner : ConcreteType)
  | result (ok err : ConcreteType)
  | enum (id : NamedTypeId)
  | closure (id : UInt32)
  | function (id : UInt32)
  | pointer (inner : ConcreteType)
  | tuple (elems : List ConcreteType)
  | void | decimal | bigInt | dateTime
  | hashSet (elem : ConcreteType)
  | deque (elem : ConcreteType)
  | priorityQueue
  | channel (elem : ConcreteType)
  | mutex (inner : ConcreteType)
  | atomic
  | lazy (inner : ConcreteType)

inductive ComptimeConstValue where
  | int (i : Int64)
  | number (bits : UInt64)
  | bool (b : Bool)
  | string (s : String)
  deriving DecidableEq

structure ClosureSpec where
  closureTypeId : UInt32
  returnType : Option ConcreteType
  bodyHash : UInt64

/-- What a generic function is specialized for. -/
structure Instantiation where
  typeArgs : List ConcreteType
  constArgs : List ComptimeConstValue
  closureSpecs : List ClosureSpec

/-- The word behind `struct_` and `enum_`. -/
def NamedTypeId.word (id : NamedTypeId) : String :=
  match id.name with
  | some name => name
  | none => toString id.layout.toNat

mutual

def ConcreteType.monoKey : ConcreteType → String
  | .f64 => "f64"
  | .f32 => "f32"
  | .char => "char"
  | .i64 => "i64"
  | .i32 => "i32"
  | .i16 => "i16"
  | .i8 => "i8"
  | .u64 => "u64"
  | .u32 => "u32"
  | .u16 => "u16"
  | .u8 => "u8"
  | .bool => "bool"
  | .string => "string"
  | .struct id => "struct_" ++ id.word
  | .array elem => "array_" ++ elem.monoKey
  | .hashMap k v => "hashmap_" ++ k.monoKey ++ "_" ++ v.monoKey
  | .option inner => "option_" ++ inner.monoKey
  | .result ok err => "result_" ++ ok.monoKey ++ "_" ++ err.monoKey
  | .enum id => "enum_" ++ id.word
  | .closure id => "closure_" ++ toString id.toNat
  | .function id => "fn_" ++ toString id.toNat
  | .pointer inner => "ptr_" ++ inner.monoKey
  | .tuple elems => "tuple_" ++ "_".intercalate (monoKeys elems)
  | .void => "void"
  | .decimal => "decimal"
  | .bigInt => "bigint"
  | .dateTime => "datetime"
  | .hashSet elem => "hashset_" ++ elem.monoKey
  | .deque elem => "deque_" ++ elem.monoKey
  | .priorityQueue => "priority_queue"
  | .channel elem => "channel_" ++ elem.monoKey
  | .mutex inner => "mutex_" ++ inner.monoKey
  | .atomic => "atomic"
  | .lazy inner => "lazy_" ++ inner.monoKey

def ConcreteType.monoKeys : List ConcreteType → List String
  | [] => []
  | t :: rest => t.monoKey :: monoKeys rest

end

def sanitise (s : String) : String :=
  String.ofList (s.toList.map fun c => if c.isAlphanum || c == '_' then c else '_')

def constValueMonoSegment : ComptimeConstValue → String
  | .int i => "int_" ++ toString i.toInt
  | .bool b => "bool_" ++ toString b
  | .number bits => "f64_" ++ hex bits.toNat
  | .string s => "string_" ++ sanitise s

def returnSegment : Option ConcreteType → String
  | some t => t.monoKey
  | none => "unknown"

def ClosureSpec.segment (spec : ClosureSpec) : String :=
  let ret := returnSegment spec.returnType
  -- a hash of 0 means that none was computed
  if spec.bodyHash ≠ 0 then
    "closure_" ++ toString spec.closureTypeId.toNat ++ "_" ++ ret ++ "_b" ++ hex spec.bodyHash.toNat
  else "closure_" ++ toString spec.closureTypeId.toNat ++ "_" ++ ret

def Instantiation.parts (inst : Instantiation) : List String :=
  ConcreteType.monoKeys inst.typeArgs ++ inst.constArgs.map constValueMonoSegment ++
    inst.closureSpecs.map ClosureSpec.segment

def buildMonoKeyFull (fnName : String) (inst : Instantiation) : String :=
  if inst.typeArgs.isEmpty && inst.constArgs.isEmpty && inst.closureSpecs.isEmpty then fnName
  else fnName ++ "::" ++ "_".intercalate inst.parts

end ShapeLang.Monomorphization
