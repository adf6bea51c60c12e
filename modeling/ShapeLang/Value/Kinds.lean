import Mathlib

/-!
# ShapeLang — kinds of slots

A slot is eight bytes without a tag. What they mean is kept beside them, as a `NativeKind`
(`crates/shape-value/src/native_kind.rs`): a scalar of some width, a string, or a pointer to one of the
heap shapes (`HeapKind`, `heap_variants.rs`).
-/

namespace ShapeLang.Value

inductive HeapKind where
  | string | typedObject | closure | decimal | bigInt | dataTable | future | taskGroup
  | typedArray | temporal | tableView | content | instant | ioHandle | nativeScalar | nativeView
  | char | hashMap | filterExpr | reference | sharedCell | hashSet | iterator | deque | channel
  | priorityQueue | range | result | option | traitObject | mutex | atomic | lazy | moduleFn
  | matrix | matrixSlice | foreignRef
  deriving DecidableEq, Repr

inductive NativeKind where
  | float64 | nullableFloat64 | float32 | char
  | int8 | nullableInt8 | uint8 | nullableUInt8
  | int16 | nullableInt16 | uint16 | nullableUInt16
  | int32 | nullableInt32 | uint32 | nullableUInt32
  | int64 | nullableInt64 | uint64 | nullableUInt64
  | intSize | nullableIntSize | uintSize | nullableUIntSize
  | bool
  /-- The absence of a value; the bits are ignored. -/
  | null
  /-- A shared `String`. -/
  | string
  /-- A raw string object. -/
  | stringV2
  | decimalV2
  | ptr (kind : HeapKind)
  deriving DecidableEq, Repr

end ShapeLang.Value
