import ShapeLang.Lib.CheckedInt
import ShapeLang.Lib.Postfix
import ShapeLang.Value.TypedObject

/-!
# Integer arithmetic of the executor

The VM keeps 64-bit words and their kinds on one stack. `exec_typed_arithmetic` computes on `int`, a
64-bit signed integer, with one opcode for each operator; the compact opcodes carry a numeric width
and bring their result back into it. Both take the words as they are and ignore the kinds.

Floating point is a parameter: the conversions of integers, the five operations, the comparison and `powf`.
-/

namespace ShapeLang.Executor

open Lib Value

inductive VMError where
  | stackOverflow
  | stackUnderflow
  | divisionByZero
  | invalidOperand
  /-- The source gives the name of the kind that it got. -/
  | typeError (expected : String) (got : NativeKind)
  | runtimeError (message : String)
  deriving DecidableEq

inductive Stop where
  | error (e : VMError)
  | panic
  deriving DecidableEq

abbrev Slot := Word × NativeKind

/-! ## The operand stack -/

/-- The live slots, the top one first, in a vector that grows on demand. -/
structure OperandStack where
  slots : List Slot
  capacity : Nat
  maxStackSize : Nat
  fits : slots.length ≤ capacity

namespace OperandStack

/-- The vector may have grown past the limit of the configuration; what it has room for is not
checked again. -/
def pushKinded (vm : OperandStack) (slot : Slot) : Except Stop OperandStack :=
  if h : vm.slots.length < vm.capacity then
    .ok { vm with slots := slot :: vm.slots, fits := h }
  else if vm.maxStackSize ≤ vm.slots.length then .error (.error .stackOverflow)
  else .ok { vm with
    slots := slot :: vm.slots
    capacity := vm.slots.length * 2 + 1
    fits := by simp only [List.length_cons]; omega }

def popKinded (vm : OperandStack) : Except Stop (Slot × OperandStack) :=
  match h : vm.slots with
  | [] => .error (.error .stackUnderflow)
  | slot :: rest =>
    .ok (slot,
      { vm with
        slots := rest
        fits := by have := vm.fits; rw [h, List.length_cons] at this; omega })

/-- Pop one operand, and push what comes of it. -/
def unary (f : Slot → Except Stop Slot) (vm : OperandStack) : Except Stop OperandStack := do
  let (a, vm) ← vm.popKinded
  let result ← f a
  vm.pushKinded result

/-- Pop the right operand, then the left one, and push what comes of them. -/
def binary (f : Slot → Slot → Except Stop Slot) (vm : OperandStack) : Except Stop OperandStack := do
  let (b, vm) ← vm.popKinded
  let (a, vm) ← vm.popKinded
  let result ← f a b
  vm.pushKinded result

theorem popKinded_of_cons {vm : OperandStack} {slot : Slot} {rest : List Slot}
    (h : vm.slots = slot :: rest) :
    ∃ vm', vm.popKinded = .ok (slot, vm') ∧ vm'.slots = rest ∧ vm'.capacity = vm.capacity ∧
      vm'.maxStackSize = vm.maxStackSize ∧ rest.length < vm.capacity := by
  have hfits := vm.fits
  rw [h, List.length_cons] at hfits
  obtain ⟨slots, capacity, maxStackSize, fits⟩ := vm
  subst h
  exact ⟨_, rfl, rfl, rfl, rfl, hfits⟩

end OperandStack

/-! ## Widths -/

/-- The widths below `int` and `u64`. -/
inductive IntWidth where
  | i8 | u8 | i16 | u16 | i32 | u32 | u64
  deriving DecidableEq

namespace IntWidth

def bits : IntWidth → Nat
  | .i8 | .u8 => 8
  | .i16 | .u16 => 16
  | .i32 | .u32 => 32
  | .u64 => 64

def isSigned : IntWidth → Bool
  | .i8 | .i16 | .i32 => true
  | .u8 | .u16 | .u32 | .u64 => false

def mask : IntWidth → Word
  | .i8 | .u8 => 0xff
  | .i16 | .u16 => 0xffff
  | .i32 | .u32 => 0xffffffff
  | .u64 => 0xffffffffffffffff

def signShift : IntWidth → Nat
  | .i8 | .u8 => 7
  | .i16 | .u16 => 15
  | .i32 | .u32 => 31
  | .u64 => 63

def truncate (w : IntWidth) (value : Word) : Word :=
  if w.isSigned then
    let masked := value &&& w.mask
    if masked &&& ((1 : Word) <<< w.signShift) ≠ 0 then masked ||| ~~~w.mask else masked
  else if w.bits = 64 then value
  else value &&& w.mask

end IntWidth

inductive NumericWidth where
  | i8 | i16 | i32 | i64 | u8 | u16 | u32 | u64 | f32 | f64
  deriving DecidableEq

namespace NumericWidth

def isInteger : NumericWidth → Bool
  | .f32 | .f64 => false
  | _ => true

def isUnsigned : NumericWidth → Bool
  | .u8 | .u16 | .u32 | .u64 => true
  | _ => false

def bits : NumericWidth → Nat
  | .i8 | .u8 => 8
  | .i16 | .u16 => 16
  | .i32 | .u32 | .f32 => 32
  | .i64 | .u64 | .f64 => 64

def toIntWidth : NumericWidth → Option IntWidth
  | .i8 => some .i8
  | .u8 => some .u8
  | .i16 => some .i16
  | .u16 => some .u16
  | .i32 => some .i32
  | .u32 => some .u32
  | .u64 => some .u64
  | .i64 | .f32 | .f64 => none

end NumericWidth

def resultKindForWidth (width : NumericWidth) : NativeKind := if width = .u64 then .uint64 else .int64

/-! ## Compact opcodes -/

inductive CompactOp where
  | add | sub | mul | div | mod | cmp
  deriving DecidableEq

/-- Binary floating point, on the words that hold it. -/
structure FloatOps where
  ofSigned : Word → Word
  ofUnsigned : Word → Word
  binop : CompactOp → Word → Word → Word
  partialCmp : Word → Word → Option Ordering
  powf : Word → Word → Word

def coerceToF64Kinded (float : FloatOps) (slot : Slot) : Option Word :=
  match slot.2 with
  | .float64 | .nullableFloat64 => some slot.1
  | .int8 | .int16 | .int32 | .int64 | .intSize => some (float.ofSigned slot.1)
  | .uint8 | .uint16 | .uint32 | .uint64 | .uintSize => some (float.ofUnsigned slot.1)
  | _ => none

def numberOperand (float : FloatOps) (slot : Slot) : Except Stop Word :=
  match coerceToF64Kinded float slot with
  | some word => .ok word
  | none => .error (.error (.typeError "number" slot.2))

/-- An ordering as the `i64` that Rust gives for it. -/
def ordinal : Ordering → Word
  | .lt => -1
  | .eq => 0
  | .gt => 1

def compactIntCheckedBinop (width : NumericWidth) (wrappingOp : Word → Word → Word) (a b : Slot) :
    Except Stop Slot :=
  let result := wrappingOp a.1 b.1
  match width.toIntWidth with
  | some w => .ok (w.truncate result, resultKindForWidth width)
  | none => .ok (result, .int64)

def compactIntDivmod (width : NumericWidth) (op : Word → Word → Word) (a b : Slot) : Except Stop Slot :=
  if b.1 = 0 then .error (.error .divisionByZero)
  else
    let result := op a.1 b.1
    match width.toIntWidth with
    | some w => .ok (w.truncate result, .int64)
    | none => .ok (result, .int64)

def compactIntDivmodU64 (op : Word → Word → Word) (a b : Slot) : Except Stop Slot :=
  if b.1 = 0 then .error (.error .divisionByZero) else .ok (op a.1 b.1, .uint64)

def compactFloatBinop (float : FloatOps) (op : CompactOp) (a b : Slot) : Except Stop Slot := do
  let lhs ← numberOperand float a
  let rhs ← numberOperand float b
  return (float.binop op lhs rhs, .float64)

def compactIntCmp (width : NumericWidth) (a b : Slot) : Except Stop Slot :=
  let ord := if width.isUnsigned then compare a.1.toNat b.1.toNat else compare a.1.toInt b.1.toInt
  .ok (ordinal ord, .int64)

def compactFloatCmp (float : FloatOps) (a b : Slot) : Except Stop Slot := do
  let lhs ← numberOperand float a
  let rhs ← numberOperand float b
  return ((float.partialCmp lhs rhs).elim 0 ordinal, .int64)

/-- `wrapping_div` and `wrapping_rem` of two words are the quotient and the remainder that truncate,
signed or not. -/
def compactValue (float : FloatOps) (width : NumericWidth) : CompactOp → Slot → Slot → Except Stop Slot
  | .add => if width.isInteger then compactIntCheckedBinop width (· + ·) else compactFloatBinop float .add
  | .sub => if width.isInteger then compactIntCheckedBinop width (· - ·) else compactFloatBinop float .sub
  | .mul => if width.isInteger then compactIntCheckedBinop width (· * ·) else compactFloatBinop float .mul
  | .div =>
    if width = .u64 then compactIntDivmodU64 BitVec.udiv
    else if width.isInteger then compactIntDivmod width BitVec.sdiv
    else compactFloatBinop float .div
  | .mod =>
    if width = .u64 then compactIntDivmodU64 BitVec.umod
    else if width.isInteger then compactIntDivmod width BitVec.srem
    else compactFloatBinop float .mod
  | .cmp => if width.isInteger then compactIntCmp width else compactFloatCmp float

/-- `operand` is the width that the instruction carries. -/
def execCompactTypedArithmetic (float : FloatOps) (vm : OperandStack) (op : CompactOp)
    (operand : Option NumericWidth) :
    Except Stop OperandStack :=
  match operand with
  | none => .error (.error .invalidOperand)
  | some width => vm.binary (compactValue float width op)

/-! ## The opcodes of `int` -/

inductive IntBinop where
  | add | sub | mul | div | mod | pow
  deriving DecidableEq

inductive IntUnop where
  | neg
  deriving DecidableEq

def overflowMessage (opName : String) (a b : Word) : String :=
  "integer " ++ opName ++ " overflow: result of " ++ toString a.toInt ++ " and " ++ toString b.toInt ++
    " exceeds the int (i64) range; widen explicitly with `as number` or `as bigint`"

def binopIntChecked (exact : Int → Int → Int) (opName : String) (a b : Slot) : Except Stop Slot :=
  let result := exact a.1.toInt b.1.toInt
  if CheckedInt.Fits result then .ok (BitVec.ofInt 64 result, .int64)
  else .error (.error (.runtimeError (overflowMessage opName a.1 b.1)))

def intBinop (float : FloatOps) : IntBinop → Slot → Slot → Except Stop Slot
  | .add => binopIntChecked (· + ·) "addition"
  | .sub => binopIntChecked (· - ·) "subtraction"
  | .mul => binopIntChecked (· * ·) "multiplication"
  | .div => fun a b => if b.1 = 0 then .error (.error .divisionByZero) else .ok (a.1.sdiv b.1, .int64)
  | .mod => fun a b => if b.1 = 0 then .error (.error .divisionByZero) else .ok (a.1.srem b.1, .int64)
  | .pow => fun a b =>
    if 0 ≤ b.1.toInt ∧ b.1.toInt ≤ 2 ^ 32 - 1 then
      .ok (BitVec.ofInt 64 (a.1.toInt ^ b.1.toInt.toNat), .int64)
    else .ok (float.powf (float.ofSigned a.1) (float.ofSigned b.1), .float64)

/-- Plain negation: a build that checks for overflow stops at `i64::MIN`, another wraps. -/
def intUnop (overflowChecks : Bool) : IntUnop → Slot → Except Stop Slot
  | .neg => fun a => if overflowChecks ∧ a.1.toInt = -2 ^ 63 then .error .panic else .ok (-a.1, .int64)

/-! ## Signed division of words -/

theorem sdiv_ofInt (x y : Word) : x.sdiv y = BitVec.ofInt 64 (x.toInt.tdiv y.toInt) := by
  refine BitVec.eq_of_toInt_eq ?_
  rw [BitVec.toInt_sdiv, BitVec.toInt_ofInt]

theorem srem_ofInt (x y : Word) : x.srem y = BitVec.ofInt 64 (x.toInt.tmod y.toInt) := by
  rw [← BitVec.toInt_srem, BitVec.ofInt_toInt]

/-! ## Code of expressions -/

open Postfix

variable {U B : Type}

/-- The VM for code whose operators are executed by `un` and `bin`. -/
def operandMachine (un : OperandStack → U → Except Stop OperandStack)
    (bin : OperandStack → B → Except Stop OperandStack) :
    Machine OperandStack Slot U B Stop where
  stack := OperandStack.slots
  limit vm := max vm.capacity vm.maxStackSize
  push := OperandStack.pushKinded
  un := un
  bin := bin

section

variable {un : OperandStack → U → Except Stop OperandStack}
  {bin : OperandStack → B → Except Stop OperandStack}

variable {vm : OperandStack}

theorem leaves_push (slot : Slot) (h : vm.slots.length < max vm.capacity vm.maxStackSize) :
    (operandMachine un bin).Leaves vm vm.slots (.ok slot) (vm.pushKinded slot) := by
  rw [OperandStack.pushKinded]
  split
  case isTrue hlt => exact ⟨_, rfl, rfl, Nat.le_refl _⟩
  case isFalse hge =>
    rw [if_neg (by omega)]
    refine ⟨_, rfl, rfl, ?_⟩
    show max vm.capacity vm.maxStackSize ≤ max (vm.slots.length * 2 + 1) vm.maxStackSize
    omega

variable {rest : List Slot}

/-- After a pop there is room for the result. -/
theorem leaves_push_after_pop {vm' : OperandStack} (outcome : Except Stop Slot) (hslots : vm'.slots = rest)
    (hcapacity : vm'.capacity = vm.capacity) (hmax : vm'.maxStackSize = vm.maxStackSize)
    (hlt : rest.length < vm.capacity) :
    (operandMachine un bin).Leaves vm rest outcome (outcome >>= vm'.pushKinded) := by
  cases outcome with
  | error e => rfl
  | ok slot =>
    subst hslots
    have hleaves : (operandMachine un bin).Leaves vm' vm'.slots (.ok slot) (vm'.pushKinded slot) :=
      leaves_push slot (by omega)
    obtain ⟨vm'', hpush, hslots'', hlimit⟩ := hleaves
    refine ⟨vm'', hpush, hslots'', ?_⟩
    show max vm.capacity vm.maxStackSize ≤ _
    rw [← hcapacity, ← hmax]
    exact hlimit

theorem leaves_unary {a : Slot} (f : Slot → Except Stop Slot) (h : vm.slots = a :: rest) :
    (operandMachine un bin).Leaves vm rest (f a) (vm.unary f) := by
  obtain ⟨vm₁, hpop, hslots, hcapacity, hmax, hlt⟩ := OperandStack.popKinded_of_cons h
  have hrun : vm.unary f = f a >>= vm₁.pushKinded := by
    rw [OperandStack.unary, hpop]
    rfl
  rw [hrun]
  exact leaves_push_after_pop (f a) hslots hcapacity hmax hlt

theorem leaves_binary {a b : Slot} (f : Slot → Slot → Except Stop Slot) (h : vm.slots = b :: a :: rest) :
    (operandMachine un bin).Leaves vm rest (f a b) (vm.binary f) := by
  obtain ⟨vm₁, hpop, hslots, hcapacity, hmax, -⟩ := OperandStack.popKinded_of_cons h
  obtain ⟨vm₂, hpop', hslots', hcapacity', hmax', hlt⟩ := OperandStack.popKinded_of_cons hslots
  have hrun : vm.binary f = f a b >>= vm₂.pushKinded := by
    rw [OperandStack.binary, hpop]
    show (vm₁.popKinded >>= _) = _
    rw [hpop']
    rfl
  rw [hrun]
  exact leaves_push_after_pop (f a b) hslots' (hcapacity'.trans hcapacity) (hmax'.trans hmax)
    (hcapacity ▸ hlt)

theorem lawful_operandMachine {unValue : U → Slot → Except Stop Slot}
    {binValue : B → Slot → Slot → Except Stop Slot}
    (hun : ∀ vm op, un vm op = vm.unary (unValue op))
    (hbin : ∀ vm op, bin vm op = vm.binary (binValue op)) :
    (operandMachine un bin).Lawful (.error .stackOverflow) unValue binValue where
  push_full vm slot hfull := by
    have hle : max vm.capacity vm.maxStackSize ≤ vm.slots.length := hfull
    show vm.pushKinded slot = _
    rw [OperandStack.pushKinded, dif_neg (by omega), if_pos (by omega)]
  push_ok _ slot hroom := leaves_push slot hroom
  un_leaves vm op a rest h := by
    show (operandMachine un bin).Leaves vm rest _ (un vm op)
    rw [hun]
    exact leaves_unary _ h
  bin_leaves vm op a b rest h := by
    show (operandMachine un bin).Leaves vm rest _ (bin vm op)
    rw [hbin]
    exact leaves_binary _ h

end

/-- Code of the compact opcodes at one width. There is no operator with one operand. -/
def compactMachine (float : FloatOps) (width : NumericWidth) :
    Machine OperandStack Slot Empty CompactOp Stop :=
  operandMachine (fun _ op => op.elim) fun vm op => execCompactTypedArithmetic float vm op (some width)

variable (float : FloatOps)

theorem lawful_compactMachine (width : NumericWidth) :
    (compactMachine float width).Lawful (.error .stackOverflow) (fun op => op.elim)
    (compactValue float width) :=
  lawful_operandMachine (fun _ op => op.elim) fun _ _ => rfl

/-- Code of the opcodes of `int`. -/
def intMachine (float : FloatOps) (overflowChecks : Bool) :
    Machine OperandStack Slot IntUnop IntBinop Stop :=
  operandMachine (fun vm op => vm.unary (intUnop overflowChecks op)) fun vm op => vm.binary
    (intBinop float op)

theorem lawful_intMachine (overflowChecks : Bool) :
    (intMachine float overflowChecks).Lawful (.error .stackOverflow) (intUnop overflowChecks)
    (intBinop float) :=
  lawful_operandMachine (fun _ _ => rfl) fun _ _ => rfl

end ShapeLang.Executor
