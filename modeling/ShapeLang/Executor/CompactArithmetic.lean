import ShapeLang.Executor.Arithmetic

/-!
# Fixed-width integers

A value of a width below 64 bits travels in a 64-bit word: sign-extended if the width is signed,
zero-extended if it is not. An expression at one width is computed modulo `2 ^ w`: each node is the
exact operation on the values below it, brought back to the representative of its residue that is in
range.
-/

namespace ShapeLang.Executor

open Lib Value Postfix

namespace NumericWidth

def InRange (w : NumericWidth) (x : Int) : Prop :=
  if w.isUnsigned then 0 ≤ x ∧ x < 2 ^ w.bits else -2 ^ (w.bits - 1) ≤ x ∧ x < 2 ^ (w.bits - 1)

instance (w : NumericWidth) (x : Int) : Decidable (w.InRange x) := by unfold InRange; infer_instance

/-- The representative of `x` modulo `2 ^ w` that is in range. -/
def canonical (w : NumericWidth) (x : Int) : Int :=
  if w.isUnsigned then x % 2 ^ w.bits else x.bmod (2 ^ w.bits)

theorem inRange_canonical {w : NumericWidth} (hw : w.isInteger) (x : Int) : w.InRange (w.canonical x) := by
  have hpos : 0 < 2 ^ w.bits := Nat.two_pow_pos _
  have hlower := Int.le_bmod (x := x) hpos
  have hupper := Int.bmod_lt (x := x) hpos
  cases w <;> simp [InRange, canonical, isUnsigned, isInteger, bits] at * <;> omega

theorem canonical_modEq (w : NumericWidth) (x : Int) : (2 ^ w.bits : Int) ∣ w.canonical x - x := by
  unfold canonical
  split
  · exact ⟨-(x / 2 ^ w.bits), by have := Int.emod_add_mul_ediv x (2 ^ w.bits); rw [Int.mul_neg]; omega⟩
  · have hmod := Int.dvd_bmod_sub_self (m := 2 ^ w.bits) (x := x)
    exact_mod_cast hmod

end NumericWidth

/-! ## Truncation -/

variable {n : Nat}

/-- Masking a word keeps its low bits, and filling the rest with the sign bit extends them. -/
theorem sign_extend_masked {mask : Word} (v : Word) (hn : n < 64)
    (hmask : ∀ i < 64, mask.getLsbD i = decide (i < n + 1)) :
    (if v &&& mask &&& ((1 : Word) <<< n) ≠ 0 then v &&& mask ||| ~~~mask else v &&& mask) =
    (v.setWidth (n + 1)).signExtend 64 := by
  have hmsb : (v.setWidth (n + 1)).msb = v.getLsbD n := by
    simp [BitVec.msb_eq_getLsbD_last]
  have hbit : (v &&& mask &&& ((1 : Word) <<< n) ≠ 0) ↔ v.getLsbD n = true := by
    have hpow : (1 : Word) <<< n = BitVec.twoPow 64 n := rfl
    rw [hpow, BitVec.and_twoPow, BitVec.getLsbD_and, hmask n hn]
    have hne : BitVec.twoPow 64 n ≠ 0 := fun h => by
      have := congrArg (BitVec.getLsbD · n) h
      simp [hn] at this
    split <;> simp_all
  refine BitVec.eq_of_getLsbD_eq fun i hi => ?_
  rw [BitVec.getLsbD_signExtend, hmsb]
  by_cases hset : v.getLsbD n = true
  · rw [if_pos (hbit.mpr hset), BitVec.getLsbD_or, BitVec.getLsbD_and, BitVec.getLsbD_not, hmask i hi, hset]
    by_cases hlow : i < n + 1 <;> simp [hlow, hi]
  · rw [if_neg (fun h => hset (hbit.mp h)), BitVec.getLsbD_and, hmask i hi]
    by_cases hlow : i < n + 1 <;> simp [hlow, hi, hset]

theorem mask_eq_setWidth {mask : Word} (v : Word) (hmask : ∀ i < 64, mask.getLsbD i = decide (i < n)) :
    v &&& mask = (v.setWidth n).setWidth 64 := by
  refine BitVec.eq_of_getLsbD_eq fun i hi => ?_
  rw [BitVec.getLsbD_and, hmask i hi, BitVec.getLsbD_setWidth, BitVec.getLsbD_setWidth]
  by_cases hlow : i < n <;> simp [hlow, hi]

theorem setWidth_ofInt (hn : n ≤ 64) (x : Int) : (BitVec.ofInt 64 x).setWidth n = BitVec.ofInt n x := by
  refine BitVec.eq_of_toNat_eq ?_
  rw [BitVec.toNat_setWidth, BitVec.toNat_ofInt, BitVec.toNat_ofInt]
  have hdvd : ((2 ^ n : Nat) : Int) ∣ ((2 ^ 64 : Nat) : Int) := by exact_mod_cast Nat.pow_dvd_pow 2 hn
  have hnonneg : 0 ≤ x % ((2 ^ 64 : Nat) : Int) := Int.emod_nonneg _ (by decide)
  have hcast : (((x % ((2 ^ 64 : Nat) : Int)).toNat % 2 ^ n : Nat) : Int) =
      (x % ((2 ^ n : Nat) : Int)) := by
    rw [Int.natCast_emod, Int.toNat_of_nonneg hnonneg, Int.emod_emod_of_dvd _ hdvd]
  rw [← hcast, Int.toNat_natCast]

theorem IntWidth.getLsbD_mask (w : IntWidth) : ∀ i < 64, w.mask.getLsbD i = decide (i < w.bits) := by
  cases w <;> decide

/-- The word of a number stands for its residue. -/
theorem ofInt_canonical_of_bits {w : NumericWidth} (hw : w.bits = 64) (x : Int) :
    BitVec.ofInt 64 (w.canonical x) = BitVec.ofInt 64 x := by
  refine BitVec.eq_of_toNat_eq ?_
  rw [BitVec.toNat_ofInt, BitVec.toNat_ofInt]
  obtain ⟨q, hq⟩ := w.canonical_modEq x
  rw [hw] at hq
  congr 1
  omega

theorem sign_extend_ofInt (hn : n ≤ 64) (x : Int) :
    ((BitVec.ofInt 64 x).setWidth n).signExtend 64 = BitVec.ofInt 64 (x.bmod (2 ^ n)) := by
  refine BitVec.eq_of_toInt_eq ?_
  rw [BitVec.toInt_signExtend_of_le hn, setWidth_ofInt hn, BitVec.toInt_ofInt, BitVec.toInt_ofInt]
  have hpow : (2 ^ n : Nat) ≤ 2 ^ 64 := Nat.pow_le_pow_right (by decide) hn
  have hpos : 0 < 2 ^ n := Nat.two_pow_pos n
  have hlower := Int.le_bmod (x := x) hpos
  have hupper := Int.bmod_lt (x := x) hpos
  exact (Int.bmod_eq_of_le (by omega) (by omega)).symm

theorem zero_extend_ofInt (hn : n < 64) (x : Int) :
    ((BitVec.ofInt 64 x).setWidth n).setWidth 64 = BitVec.ofInt 64 (x % 2 ^ n) := by
  refine BitVec.eq_of_toNat_eq ?_
  rw [setWidth_ofInt (by omega), BitVec.toNat_setWidth, BitVec.toNat_ofInt, BitVec.toNat_ofInt]
  have hpow : (2 ^ n : Int) < 2 ^ 64 := by exact_mod_cast Nat.pow_lt_pow_right (by decide) hn
  have hpos : (0 : Int) < 2 ^ n := by exact_mod_cast Nat.two_pow_pos n
  have hnonneg : 0 ≤ x % (2 ^ n : Int) := Int.emod_nonneg _ (by omega)
  have hlt : x % (2 ^ n : Int) < 2 ^ n := Int.emod_lt_of_pos _ hpos
  have hcast : ((2 ^ n : Nat) : Int) = 2 ^ n := by simp
  rw [hcast]
  omega

/-- Truncation brings the word of a number to the word of its representative in range. -/
theorem truncate_ofInt {w : NumericWidth} {iw : IntWidth} (h : w.toIntWidth = some iw) (x : Int) :
    iw.truncate (BitVec.ofInt 64 x) = BitVec.ofInt 64 (w.canonical x) := by
  have hsigned : ∀ (n : Nat) (mask : Word), n < 64 → (∀ i < 64, mask.getLsbD i = decide (i < n + 1)) →
      (if BitVec.ofInt 64 x &&& mask &&& ((1 : Word) <<< n) ≠ 0 then BitVec.ofInt 64 x &&& mask ||| ~~~mask
        else BitVec.ofInt 64 x &&& mask) = BitVec.ofInt 64 (x.bmod (2 ^ (n + 1))) :=
          fun n mask hn hmask => by
    rw [sign_extend_masked _ hn hmask, sign_extend_ofInt (by omega)]
  have hunsigned : ∀ (n : Nat) (mask : Word), n < 64 → (∀ i < 64, mask.getLsbD i = decide (i < n)) →
      BitVec.ofInt 64 x &&& mask = BitVec.ofInt 64 (x % 2 ^ n) := fun n mask hn hmask => by
    rw [mask_eq_setWidth _ hmask, zero_extend_ofInt hn]
  cases w <;> cases h
  case i8 => exact hsigned 7 _ (by decide) (IntWidth.getLsbD_mask .i8)
  case i16 => exact hsigned 15 _ (by decide) (IntWidth.getLsbD_mask .i16)
  case i32 => exact hsigned 31 _ (by decide) (IntWidth.getLsbD_mask .i32)
  case u8 => exact hunsigned 8 _ (by decide) (IntWidth.getLsbD_mask .u8)
  case u16 => exact hunsigned 16 _ (by decide) (IntWidth.getLsbD_mask .u16)
  case u32 => exact hunsigned 32 _ (by decide) (IntWidth.getLsbD_mask .u32)
  case u64 => exact (ofInt_canonical_of_bits rfl x).symm

/-! ## Expressions -/

inductive ArithOp where
  | add | sub | mul | div | mod
  deriving DecidableEq

namespace ArithOp

def compact : ArithOp → CompactOp
  | .add => .add
  | .sub => .sub
  | .mul => .mul
  | .div => .div
  | .mod => .mod

/-- The exact operation; division truncates. -/
def exact : ArithOp → Int → Int → Int
  | .add => (· + ·)
  | .sub => (· - ·)
  | .mul => (· * ·)
  | .div => Int.tdiv
  | .mod => Int.tmod

def divides : ArithOp → Bool
  | .div | .mod => true
  | _ => false

end ArithOp

/-- An expression over integers, as they are pushed. -/
inductive WidthExpr where
  | leaf (value : Int) (kind : NativeKind)
  | node (op : ArithOp) (l r : WidthExpr)

namespace WidthExpr

def tree : WidthExpr → Tree Slot Empty CompactOp
  | .leaf value kind => .leaf (BitVec.ofInt 64 value, kind)
  | .node op l r => .bin op.compact l.tree r.tree

def LeavesInRange (w : NumericWidth) : WidthExpr → Prop
  | .leaf value _ => w.InRange value
  | .node _ l r => l.LeavesInRange w ∧ r.LeavesInRange w

/-- Each node is computed exactly and brought back into range. -/
def value (w : NumericWidth) : WidthExpr → Int
  | .leaf value _ => value
  | .node op l r => w.canonical (op.exact (l.value w) (r.value w))

def kind (w : NumericWidth) : WidthExpr → NativeKind
  | .leaf _ kind => kind
  | .node _ _ _ => resultKindForWidth w

/-- Some divisor of the expression is zero. -/
def HasZeroDivisor (w : NumericWidth) : WidthExpr → Prop
  | .leaf _ _ => False
  | .node op l r => l.HasZeroDivisor w ∨ r.HasZeroDivisor w ∨ op.divides = true ∧ r.value w = 0

theorem inRange_value {w : NumericWidth} (hw : w.isInteger) {e : WidthExpr} (h : e.LeavesInRange w) :
    w.InRange (e.value w) := by
  cases e with
  | leaf value kind => exact h
  | node op l r => exact NumericWidth.inRange_canonical hw _

end WidthExpr

/-! ## One operation -/

namespace NumericWidth

theorem toIntWidth_eq_none {w : NumericWidth} (hw : w.isInteger) (h : w.toIntWidth = none) : w = .i64 := by
  cases w <;> first | rfl | cases h; done | exact absurd hw (by decide)

/-- A value of any width but `u64` is the signed number of its word. -/
theorem InRange.toInt_ofInt {w : NumericWidth} (hw : w.isInteger) (hu64 : w ≠ .u64) {x : Int}
    (h : w.InRange x) :
    (BitVec.ofInt 64 x).toInt = x := by
  rw [BitVec.toInt_ofInt]
  have hbounds : -2 ^ 63 ≤ x ∧ x < 2 ^ 63 := by
    cases w <;> simp [InRange, isUnsigned, isInteger, bits] at * <;> omega
  exact Int.bmod_eq_of_le (by omega) (by omega)

/-- A value of an unsigned width is the unsigned number of its word. -/
theorem InRange.toNat_ofInt {w : NumericWidth} (hunsigned : w.isUnsigned) {x : Int} (h : w.InRange x) :
    ((BitVec.ofInt 64 x).toNat : Int) = x := by
  rw [BitVec.toNat_ofInt]
  have hbounds : 0 ≤ x ∧ x < 2 ^ 64 := by
    cases w <;> simp [InRange, isUnsigned, bits] at * <;> omega
  omega

theorem InRange.ofInt_eq_zero {w : NumericWidth} (hw : w.isInteger) {x : Int} (h : w.InRange x) :
    BitVec.ofInt 64 x = 0 ↔ x = 0 := by
  refine ⟨fun hzero => ?_, fun hzero => by rw [hzero]; rfl⟩
  by_cases hu64 : w = .u64
  · subst hu64
    rw [← h.toNat_ofInt rfl, hzero]
    rfl
  · rw [← h.toInt_ofInt hw hu64, hzero]
    rfl

end NumericWidth

section

variable {w : NumericWidth}

theorem compactIntCheckedBinop_eq (hw : w.isInteger) {wrappingOp : Word → Word → Word} {a b : Slot}
    {x : Int} (h : wrappingOp a.1 b.1 = BitVec.ofInt 64 x) :
    compactIntCheckedBinop w wrappingOp a b = .ok
      (BitVec.ofInt 64 (w.canonical x), resultKindForWidth w) := by
  unfold compactIntCheckedBinop
  rw [h]
  cases hiw : w.toIntWidth with
  | some iw => simp only [truncate_ofInt hiw]
  | none =>
    obtain rfl := NumericWidth.toIntWidth_eq_none hw hiw
    rw [ofInt_canonical_of_bits (show NumericWidth.i64.bits = 64 from rfl)]
    rfl

theorem compactIntDivmod_eq (hw : w.isInteger) (hu64 : w ≠ .u64) {op : Word → Word → Word}
    {a b : Slot} {x : Int} (hb : b.1 ≠ 0) (h : op a.1 b.1 = BitVec.ofInt 64 x) :
    compactIntDivmod w op a b = .ok (BitVec.ofInt 64 (w.canonical x), resultKindForWidth w) := by
  have hkind : resultKindForWidth w = .int64 := if_neg hu64
  unfold compactIntDivmod
  rw [if_neg hb, h, hkind]
  cases hiw : w.toIntWidth with
  | some iw => simp only [truncate_ofInt hiw]
  | none =>
    obtain rfl := NumericWidth.toIntWidth_eq_none hw hiw
    rw [ofInt_canonical_of_bits (show NumericWidth.i64.bits = 64 from rfl)]

theorem udiv_ofInt (x y : Word) : x.udiv y = BitVec.ofInt 64 ((x.toNat : Int).tdiv y.toNat) := by
  refine BitVec.eq_of_toNat_eq ?_
  have hlt : x.toNat / y.toNat < 2 ^ 64 := Nat.lt_of_le_of_lt (Nat.div_le_self _ _) x.isLt
  rw [← Int.ofNat_tdiv, BitVec.toNat_ofInt]
  show (x / y).toNat = _
  rw [BitVec.toNat_udiv, Int.emod_eq_of_lt (Int.natCast_nonneg _) (by exact_mod_cast hlt),
    Int.toNat_natCast]

theorem umod_ofInt (x y : Word) : x.umod y = BitVec.ofInt 64 ((x.toNat : Int).tmod y.toNat) := by
  refine BitVec.eq_of_toNat_eq ?_
  have hlt : x.toNat % y.toNat < 2 ^ 64 := Nat.lt_of_le_of_lt (Nat.mod_le _ _) x.isLt
  rw [← Int.ofNat_tmod, BitVec.toNat_ofInt]
  show (x % y).toNat = _
  rw [BitVec.toNat_umod, Int.emod_eq_of_lt (Int.natCast_nonneg _) (by exact_mod_cast hlt),
    Int.toNat_natCast]

/-- Division and remainder go to unsigned words at `u64` and to signed words at the other widths. -/
theorem divmod_eq (hw : w.isInteger) {unsignedOp signedOp : Word → Word → Word} {exact : Int → Int → Int}
    (hunsigned : ∀ x y, unsignedOp x y = BitVec.ofInt 64 (exact x.toNat y.toNat))
    (hsigned : ∀ x y, signedOp x y = BitVec.ofInt 64 (exact x.toInt y.toInt)) {a b : Int} (ha : w.InRange a)
    (hb : w.InRange b) (ka kb : NativeKind) :
    (if w = .u64 then compactIntDivmodU64 unsignedOp else compactIntDivmod w signedOp)
    (BitVec.ofInt 64 a, ka)
        (BitVec.ofInt 64 b, kb) =
      if b = 0 then .error (.error .divisionByZero)
      else .ok (BitVec.ofInt 64 (w.canonical (exact a b)), resultKindForWidth w) := by
  by_cases hzero : b = 0
  · subst hzero
    rw [if_pos rfl]
    split
    · exact if_pos rfl
    · exact if_pos rfl
  -- the word of a divisor is zero only if the divisor is
  · have hne : BitVec.ofInt 64 b ≠ 0 := fun h => hzero ((hb.ofInt_eq_zero hw).mp h)
    rw [if_neg hzero]
    split
    -- at 64 unsigned bits the words are the numbers
    case isTrue hu64 =>
      subst hu64
      rw [compactIntDivmodU64, if_neg hne, hunsigned, ha.toNat_ofInt rfl, hb.toNat_ofInt rfl,
        ofInt_canonical_of_bits (show NumericWidth.u64.bits = 64 from rfl)]
      rfl
    -- at the other widths the operands are sign-extended and the result is narrowed
    case isFalse hu64 =>
      refine compactIntDivmod_eq hw hu64 hne ?_
      rw [hsigned, ha.toInt_ofInt hw hu64, hb.toInt_ofInt hw hu64]

theorem ofInt_sub (x y : Int) : BitVec.ofInt 64 (x - y) = BitVec.ofInt 64 x - BitVec.ofInt 64 y := by
  rw [Int.sub_eq_add_neg, BitVec.ofInt_add, BitVec.ofInt_neg, BitVec.sub_eq_add_neg]

variable (float : FloatOps)

/-- One operation on values in range: an error for a zero divisor, else the representative of the
exact result. -/
theorem compactValue_eq (hw : w.isInteger) (op : ArithOp) {a b : Int} (ha : w.InRange a) (hb : w.InRange b)
    (ka kb : NativeKind) :
    compactValue float w op.compact (BitVec.ofInt 64 a, ka) (BitVec.ofInt 64 b, kb) =
      if op.divides = true ∧ b = 0 then .error (.error .divisionByZero)
      else .ok (BitVec.ofInt 64 (w.canonical (op.exact a b)), resultKindForWidth w) := by
  cases op with
  | add =>
    rw [if_neg (by simp [ArithOp.divides]), ArithOp.compact, compactValue, if_pos hw]
    exact compactIntCheckedBinop_eq hw (BitVec.ofInt_add a b).symm
  | sub =>
    rw [if_neg (by simp [ArithOp.divides]), ArithOp.compact, compactValue, if_pos hw]
    exact compactIntCheckedBinop_eq hw (ofInt_sub a b).symm
  | mul =>
    rw [if_neg (by simp [ArithOp.divides]), ArithOp.compact, compactValue, if_pos hw]
    exact compactIntCheckedBinop_eq hw (BitVec.ofInt_mul a b).symm
  | div =>
    rw [ArithOp.compact, compactValue, if_pos hw]
    simpa [ArithOp.divides, ArithOp.exact] using divmod_eq hw udiv_ofInt sdiv_ofInt ha hb ka kb
  | mod =>
    rw [ArithOp.compact, compactValue, if_pos hw]
    simpa [ArithOp.divides, ArithOp.exact] using divmod_eq hw umod_ofInt srem_ofInt ha hb ka kb

/-- Values in range compare as their words do. -/
theorem compactIntCmp_eq (hw : w.isInteger) {a b : Int} (ha : w.InRange a) (hb : w.InRange b)
    (ka kb : NativeKind) :
    compactIntCmp w (BitVec.ofInt 64 a, ka) (BitVec.ofInt 64 b, kb) = .ok
      (ordinal (compare a b), .int64) := by
  unfold compactIntCmp
  by_cases hunsigned : w.isUnsigned
  · have hcompare : compare (BitVec.ofInt 64 a).toNat (BitVec.ofInt 64 b).toNat = compare a b := by
      have hlt : (BitVec.ofInt 64 a).toNat < (BitVec.ofInt 64 b).toNat ↔ a < b := by
        rw [← Int.ofNat_lt, ha.toNat_ofInt hunsigned, hb.toNat_ofInt hunsigned]
      have heq : (BitVec.ofInt 64 a).toNat = (BitVec.ofInt 64 b).toNat ↔ a = b := by
        rw [← Int.ofNat_inj, ha.toNat_ofInt hunsigned, hb.toNat_ofInt hunsigned]
      simp only [compare, compareOfLessAndEq, hlt, heq]
    simp only [hunsigned, if_true, hcompare]
  · have hu64 : w ≠ .u64 := fun h => hunsigned (by rw [h]; rfl)
    simp only [hunsigned, if_false, ha.toInt_ofInt hw hu64, hb.toInt_ofInt hw hu64, Bool.false_eq_true]

/-! ## Expressions -/

/-- An expression evaluates to the word of its value, or its evaluation meets a zero divisor. -/
theorem WidthExpr.eval_tree (hw : w.isInteger) {e : WidthExpr} (h : e.LeavesInRange w) :
    (e.HasZeroDivisor w → e.tree.eval (fun op => op.elim) (compactValue float w) = .error
      (.error .divisionByZero)) ∧
      (¬e.HasZeroDivisor w →
        e.tree.eval (fun op => op.elim) (compactValue float w) = .ok
          (BitVec.ofInt 64 (e.value w), e.kind w)) := by
  induction e with
  | leaf value kind => exact ⟨fun h => h.elim, fun _ => rfl⟩
  | node op l r ihl ihr =>
    obtain ⟨hl, hr⟩ := h
    have hop := compactValue_eq float hw op (inRange_value hw hl) (inRange_value hw hr) (l.kind w)
        (r.kind w)
    rw [tree, Tree.eval]
    -- the left operand is evaluated first
    by_cases hzerol : l.HasZeroDivisor w
    · rw [(ihl hl).1 hzerol]
      exact ⟨fun _ => rfl, fun hno => absurd (.inl hzerol) hno⟩
    rw [(ihl hl).2 hzerol]
    show (_ → (r.tree.eval _ _ >>= compactValue float w op.compact _) = _) ∧
      (_ → (r.tree.eval _ _ >>= compactValue float w op.compact _) = _)
    by_cases hzeror : r.HasZeroDivisor w
    · rw [(ihr hr).1 hzeror]
      exact ⟨fun _ => rfl, fun hno => absurd (.inr (.inl hzeror)) hno⟩
    rw [(ihr hr).2 hzeror]
    show (_ → compactValue float w op.compact _ _ = _) ∧ (_ → compactValue float w op.compact _ _ = _)
    rw [hop]
    constructor
    · rintro (hzero | hzero | hzero)
      · exact absurd hzero hzerol
      · exact absurd hzero hzeror
      · exact if_pos hzero
    · intro hno
      exact if_neg fun hzero => hno (.inr (.inr hzero))

/-- How code ends: without room for its operands; with a division by zero, exactly where `zero`
holds; or with a slot pushed. -/
def Ends (float : FloatOps) (w : NumericWidth) (t : Tree Slot Empty CompactOp) (vm : OperandStack)
    (zero : Prop) (slot : Slot) : Prop :=
  (compactMachine float w).run vm t.code = .error (.error .stackOverflow) ∧
      max vm.capacity vm.maxStackSize < vm.slots.length + t.need ∨
    zero ∧ (compactMachine float w).run vm t.code = .error (.error .divisionByZero) ∨
    ¬zero ∧ ∃ vm', (compactMachine float w).run vm t.code = .ok vm' ∧ vm'.slots = slot :: vm.slots

theorem ends_of_eval {float : FloatOps} {t : Tree Slot Empty CompactOp} {zero : Prop} {slot : Slot}
    (vm : OperandStack)
    (hzero : zero → t.eval (fun op => op.elim) (compactValue float w) = .error
      (.error .divisionByZero))
    (hvalue : ¬zero → t.eval (fun op => op.elim) (compactValue float w) = .ok slot) :
    Ends float w t vm zero slot := by
  rcases (lawful_compactMachine float w).run_code t vm with hfull | hleaves
  · exact .inl hfull
  by_cases h : zero
  · rw [hzero h] at hleaves
    exact .inr (.inl ⟨h, hleaves⟩)
  · rw [hvalue h] at hleaves
    obtain ⟨vm', hrun, hslots, -⟩ := hleaves
    exact .inr (.inr ⟨h, vm', hrun, hslots⟩)

/-- At every integer width and from every stack, code of an expression whose leaves are in range
ends with a division by zero, exactly if a divisor in it is zero, or with the word of its value,
which is in range, on the stack, unless there is no room for its operands. The comparison of two
such expressions ends with the order of their values. -/
theorem compact_expression_modulo (float : FloatOps) (w : NumericWidth) (hw : w.isInteger) (e : WidthExpr)
    (he : e.LeavesInRange w) (vm : OperandStack) :
    w.InRange (e.value w) ∧
    Ends float w e.tree vm (e.HasZeroDivisor w) (BitVec.ofInt 64 (e.value w), e.kind w) ∧
    ∀ other : WidthExpr, other.LeavesInRange w →
      Ends float w (.bin .cmp e.tree other.tree) vm (e.HasZeroDivisor w ∨ other.HasZeroDivisor w)
        (ordinal (compare (e.value w) (other.value w)), .int64) := by
  have heval := e.eval_tree float hw he
  have hrange := WidthExpr.inRange_value hw he
  refine ⟨hrange, ends_of_eval vm heval.1 heval.2, fun other hother => ?_⟩
  have heval' := other.eval_tree float hw hother
  have hrange' := WidthExpr.inRange_value hw hother
  refine ends_of_eval vm (fun h => ?_) fun h => ?_
  -- the comparison fails where one of its sides does
  · rw [Tree.eval]
    by_cases hzero : e.HasZeroDivisor w
    · rw [heval.1 hzero]
      rfl
    · rw [heval.2 hzero]
      show (other.tree.eval _ _ >>= _) = _
      rw [heval'.1 (h.resolve_left hzero)]
      rfl
  · obtain ⟨hzero, hzero'⟩ := not_or.mp h
    rw [Tree.eval, heval.2 hzero]
    show (other.tree.eval _ _ >>= _) = _
    rw [heval'.2 hzero']
    show compactValue float w .cmp _ _ = _
    rw [compactValue, if_pos hw]
    exact compactIntCmp_eq hw hrange hrange' _ _

end

/-- `200 + 100` at `u8`, on an empty stack, compared with `44`. No operation on floats is executed. -/
theorem u8_addition_wraps :
    let float : FloatOps := ⟨id, id, fun _ a _ => a, fun _ _ => none, fun a _ => a⟩
    let vm : OperandStack := { slots := [], capacity := 0, maxStackSize := 100, fits := by decide }
    let sum : WidthExpr := .node .add (.leaf 200 .int64) (.leaf 100 .int64)
    Ends float .u8 (.bin .cmp sum.tree (WidthExpr.leaf 44 .int64).tree) vm False (ordinal .eq, .int64) := by
  intro float vm sum
  have hleaves : sum.LeavesInRange .u8 :=
    ⟨show NumericWidth.InRange .u8 200 by decide, show NumericWidth.InRange .u8 100 by decide⟩
  have h := (compact_expression_modulo float .u8 rfl sum hleaves vm).2.2 (.leaf 44 .int64)
    (show NumericWidth.InRange .u8 44 by decide)
  have hno : ¬(sum.HasZeroDivisor .u8 ∨ (WidthExpr.leaf 44 .int64).HasZeroDivisor .u8) := by
    simp [sum, WidthExpr.HasZeroDivisor, ArithOp.divides]
  rwa [eq_false hno] at h

end ShapeLang.Executor
