import ShapeLang.Executor.Arithmetic

/-!
# Arithmetic on `int`

Addition, subtraction and multiplication of `int` report an overflow as an error. Division, power
and negation do not: `i64::MIN / -1` and a power that leaves the range wrap, an exponent above
`u32::MAX` goes to floating point, and negation of `i64::MIN` stops a build with overflow checks and
wraps in one without. An expression is computed exactly or refused, at every node, where evaluating
it meets none of these.
-/

namespace ShapeLang.Executor

open Lib Value Postfix CheckedInt

inductive IntExpr where
  | leaf (value : Int64)
  | neg (e : IntExpr)
  | bin (op : IntBinop) (l r : IntExpr)

namespace IntExpr

def tree : IntExpr → Tree Slot IntUnop IntBinop
  | .leaf value => .leaf (BitVec.ofInt 64 value.toInt, .int64)
  | .neg e => .un .neg e.tree
  | .bin op l r => .bin op l.tree r.tree

def code (e : IntExpr) : List (Instr Slot IntUnop IntBinop) := e.tree.code

/-- `sub` is a subexpression, and `before` is the code that stands before its own. -/
inductive Occurs (sub : IntExpr) : List (Instr Slot IntUnop IntBinop) → IntExpr → Prop where
  | here : Occurs sub [] sub
  | neg {before : List (Instr Slot IntUnop IntBinop)} {e : IntExpr} (h : Occurs sub before e) :
      Occurs sub before (.neg e)
  | left {before : List (Instr Slot IntUnop IntBinop)} {op : IntBinop} {l r : IntExpr}
      (h : Occurs sub before l) :
      Occurs sub before (.bin op l r)
  | right {before : List (Instr Slot IntUnop IntBinop)} {op : IntBinop} {l r : IntExpr}
      (h : Occurs sub before r) :
      Occurs sub (l.code ++ before) (.bin op l r)

theorem Occurs.exists_after {sub e : IntExpr} {before : List (Instr Slot IntUnop IntBinop)}
    (h : Occurs sub before e) :
    ∃ after, e.code = before ++ sub.code ++ after := by
  induction h with
  | here => exact ⟨[], by simp⟩
  | @neg before e _ ih =>
    obtain ⟨after, hafter⟩ := ih
    exact ⟨after ++ [.un .neg], by rw [code, tree, Tree.code, ← code, hafter, List.append_assoc]⟩
  | @left before op l r _ ih =>
    obtain ⟨after, hafter⟩ := ih
    exact ⟨after ++ (r.code ++ [.bin op]),
      by rw [code, tree, Tree.code, ← code, ← code, hafter, List.append_assoc]⟩
  | @right before op l r _ ih =>
    obtain ⟨after, hafter⟩ := ih
    exact ⟨after ++ [.bin op], by rw [code, tree, Tree.code, ← code, ← code, hafter]; simp⟩

end IntExpr

/-! ## The exact value -/

/-- The exact result of an operation; division truncates. A zero divisor and a negative exponent
give none. -/
def IntBinop.exact : IntBinop → Int → Int → Option Int
  | .add => fun a b => some (a + b)
  | .sub => fun a b => some (a - b)
  | .mul => fun a b => some (a * b)
  | .div => fun a b => if b = 0 then none else some (a.tdiv b)
  | .mod => fun a b => if b = 0 then none else some (a.tmod b)
  | .pow => fun a b => if b < 0 then none else some (a ^ b.toNat)

def IntExpr.exact : IntExpr → Option Int
  | .leaf value => some value.toInt
  | .neg e => e.exact.map (- ·)
  | .bin op l r => l.exact.bind fun a => r.exact.bind (op.exact a)

/-- A run of the code never panics, and whatever has been pushed for a subexpression when the run
has come through its code is the exact value of it, as an `int`. -/
def ExactOrError (float : FloatOps) (overflowChecks : Bool) (e : IntExpr) (vm : OperandStack) : Prop :=
  (intMachine float overflowChecks).run vm e.code ≠ .error .panic ∧
    ∀ sub before, IntExpr.Occurs sub before e → ∀ vm',
      (intMachine float overflowChecks).run vm (before ++ sub.code) = .ok vm' →
      ∃ x, sub.exact = some x ∧ Fits x ∧ vm'.slots.head? = some (BitVec.ofInt 64 x, .int64)

/-! ## What evaluation meets -/

inductive Outcome where
  | value (x : Int)
  | error
  | unchecked

/-- What an operation on two values gives: its result, an error, or one of the cases that are not
checked. -/
def IntBinop.outcome : IntBinop → Int → Int → Outcome
  | .add => fun a b => if Fits (a + b) then .value (a + b) else .error
  | .sub => fun a b => if Fits (a - b) then .value (a - b) else .error
  | .mul => fun a b => if Fits (a * b) then .value (a * b) else .error
  | .div =>
    fun a b => if b = 0 then .error else if a = -2 ^ 63 ∧ b = -1 then .unchecked
      else .value (a.tdiv b)
  | .mod => fun a b => if b = 0 then .error else .value (a.tmod b)
  | .pow => fun a b => if 0 ≤ b ∧ b < 2 ^ 32 ∧ Fits (a ^ b.toNat) then .value (a ^ b.toNat) else .unchecked

/-- What exact evaluation from left to right meets first: a value, an error, or a case that is not
checked. -/
def IntExpr.outcome : IntExpr → Outcome
  | .leaf value => .value value.toInt
  | .neg e =>
    match e.outcome with
    | .value a => if a = -2 ^ 63 then .unchecked else .value (-a)
    | other => other
  | .bin op l r =>
    match l.outcome with
    | .value a =>
      match r.outcome with
      | .value b => op.outcome a b
      | other => other
    | other => other

/-! ## One operation -/

/-- A number in the range of `int`, as a slot. -/
def intSlot (x : Int) : Slot := (BitVec.ofInt 64 x, .int64)

variable {x : Int}

theorem toInt_intSlot (h : Fits x) : (intSlot x).1.toInt = x := by
  show (BitVec.ofInt 64 x).toInt = x
  rw [BitVec.toInt_ofInt]
  unfold Fits at h
  exact Int.bmod_eq_of_le (by omega) (by omega)

theorem intSlot_eq_zero (h : Fits x) : (intSlot x).1 = 0 ↔ x = 0 := by
  refine ⟨fun hzero => ?_, fun hzero => by rw [hzero]; rfl⟩
  rw [← toInt_intSlot h, hzero]
  rfl

variable {a b : Int}

/-- A truncated quotient fits, but for the one that is out of range. -/
theorem fits_tdiv (ha : Fits a) (hb : b ≠ 0) (hmin : ¬(a = -2 ^ 63 ∧ b = -1)) : Fits (a.tdiv b) := by
  unfold Fits at *
  have habs : (a.tdiv b).natAbs = a.natAbs / b.natAbs := Int.natAbs_tdiv a b
  by_cases hone : b.natAbs = 1
  · rcases (show b = 1 ∨ b = -1 by omega) with rfl | rfl
    · simpa using ha
    · rw [Int.tdiv_neg, Int.tdiv_one]
      omega
  · have hhalf : a.natAbs / b.natAbs ≤ a.natAbs / 2 := Nat.div_le_div_left (by omega) (by decide)
    omega

theorem fits_tmod (ha : Fits a) : Fits (a.tmod b) := by
  unfold Fits at *
  have habs := Int.natAbs_tmod a b
  have hle : a.natAbs % b.natAbs ≤ a.natAbs := Nat.mod_le _ _
  rcases Int.le_total 0 a with hpos | hneg
  · have hsign := Int.tmod_nonneg b hpos
    omega
  · have hsign : 0 ≤ (-a).tmod b := Int.tmod_nonneg b (by omega)
    rw [Int.neg_tmod] at hsign
    omega

variable {float : FloatOps} {overflowChecks : Bool}

variable {exact : Int → Int → Int} (opName : String)

theorem checked_value (ha : Fits a) (hb : Fits b)
    (h : (if Fits (exact a b) then Outcome.value (exact a b) else .error) = .value x) :
    Fits x ∧ some (exact a b) = some x ∧ binopIntChecked exact opName (intSlot a) (intSlot b) = .ok
      (intSlot x) := by
  split at h
  case isFalse => cases h
  case isTrue hfits =>
    cases h
    refine ⟨hfits, rfl, ?_⟩
    unfold binopIntChecked
    rw [toInt_intSlot ha, toInt_intSlot hb, if_pos hfits]
    rfl

theorem checked_error (ha : Fits a) (hb : Fits b)
    (h : (if Fits (exact a b) then Outcome.value (exact a b) else .error) = .error) :
    ∃ e, binopIntChecked exact opName (intSlot a) (intSlot b) = .error (.error e) := by
  split at h
  case isTrue => cases h
  case isFalse hfits =>
    unfold binopIntChecked
    rw [toInt_intSlot ha, toInt_intSlot hb, if_neg hfits]
    exact ⟨_, rfl⟩

/-- Division and remainder, by the operation on words that computes them. -/
theorem intDivide {op : Word → Word → Word}
    (hop : ∀ x y, op x y = BitVec.ofInt 64 (exact x.toInt y.toInt)) (ha : Fits a) (hb : Fits b) :
    (if (intSlot b).1 = 0 then (.error (.error .divisionByZero) : Except Stop Slot)
      else .ok (op (intSlot a).1 (intSlot b).1, .int64)) =
      if b = 0 then .error (.error .divisionByZero) else .ok (intSlot (exact a b)) := by
  simp only [intSlot_eq_zero hb, hop, toInt_intSlot ha, toInt_intSlot hb]
  rfl

variable {op : IntBinop}

/-- The value of an operation is what is pushed for it, and it is exact. -/
theorem intBinop_of_value (ha : Fits a) (hb : Fits b) (h : op.outcome a b = .value x) :
    Fits x ∧ op.exact a b = some x ∧ intBinop float op (intSlot a) (intSlot b) = .ok (intSlot x) := by
  cases op with
  | add => exact checked_value _ ha hb h
  | sub => exact checked_value _ ha hb h
  | mul => exact checked_value _ ha hb h
  -- the division that wraps is excluded by the outcome
  | div =>
    simp only [IntBinop.outcome] at h
    split_ifs at h with hzero hmin
    cases h
    exact ⟨fits_tdiv ha hzero hmin, if_neg hzero, (intDivide sdiv_ofInt ha hb).trans (if_neg hzero)⟩
  | mod =>
    simp only [IntBinop.outcome] at h
    split_ifs at h with hzero
    cases h
    exact ⟨fits_tmod ha, if_neg hzero, (intDivide srem_ofInt ha hb).trans (if_neg hzero)⟩
  -- an exponent of 32 bits is taken as it is, and a power that fits has its own word
  | pow =>
    simp only [IntBinop.outcome] at h
    split_ifs at h with hpow
    cases h
    obtain ⟨hnonneg, hlt, hfits⟩ := hpow
    refine ⟨hfits, if_neg (by omega), ?_⟩
    simp only [intBinop, toInt_intSlot ha, toInt_intSlot hb]
    rw [if_pos ⟨hnonneg, by omega⟩]
    rfl

theorem intBinop_of_error (ha : Fits a) (hb : Fits b) (h : op.outcome a b = .error) :
    ∃ e, intBinop float op (intSlot a) (intSlot b) = .error (.error e) := by
  cases op with
  | add => exact checked_error _ ha hb h
  | sub => exact checked_error _ ha hb h
  | mul => exact checked_error _ ha hb h
  | div =>
    simp only [IntBinop.outcome] at h
    split_ifs at h with hzero
    exact ⟨_, (intDivide sdiv_ofInt ha hb).trans (if_pos hzero)⟩
  | mod =>
    simp only [IntBinop.outcome] at h
    split_ifs at h with hzero
    exact ⟨_, (intDivide srem_ofInt ha hb).trans (if_pos hzero)⟩
  | pow =>
    simp only [IntBinop.outcome] at h
    split_ifs at h

/-- What is pushed in a case that is not checked is no exact `int`. -/
theorem intBinop_of_unchecked (float : FloatOps) (ha : Fits a) (hb : Fits b)
    (h : op.outcome a b = .unchecked) :
    ∃ slot, intBinop float op (intSlot a) (intSlot b) = .ok slot ∧
      ∀ x, op.exact a b = some x → Fits x → slot ≠ intSlot x := by
  cases op with
  | add | sub | mul =>
    simp only [IntBinop.outcome] at h
    split_ifs at h
  | div =>
    simp only [IntBinop.outcome] at h
    split_ifs at h with hzero hmin
    refine ⟨_, (intDivide sdiv_ofInt ha hb).trans (if_neg hzero), fun x hx hfits => ?_⟩
    obtain ⟨rfl, rfl⟩ := hmin
    cases hx
    exact absurd hfits (by decide)
  | mod =>
    simp only [IntBinop.outcome] at h
    split_ifs at h
  | pow =>
    simp only [IntBinop.outcome] at h
    split_ifs at h with hpow
    simp only [intBinop, toInt_intSlot ha, toInt_intSlot hb]
    by_cases hexp : 0 ≤ b ∧ b ≤ 2 ^ 32 - 1
    · rw [if_pos hexp]
      refine ⟨_, rfl, fun x hx hfits => ?_⟩
      simp only [IntBinop.exact] at hx
      rw [if_neg (by omega)] at hx
      cases hx
      exact absurd ⟨hexp.1, by omega, hfits⟩ hpow
    -- the result is a float
    · rw [if_neg hexp]
      refine ⟨_, rfl, fun x _ _ heq => ?_⟩
      exact absurd (congrArg Prod.snd heq) (by simp [intSlot])

theorem intUnop_neg_of_ne (overflowChecks : Bool) (ha : Fits a) (hmin : a ≠ -2 ^ 63) :
    Fits (-a) ∧ intUnop overflowChecks .neg (intSlot a) = .ok (intSlot (-a)) := by
  have hfits : Fits (-a) := by
    unfold Fits at *
    omega
  refine ⟨hfits, ?_⟩
  simp only [intUnop, toInt_intSlot ha]
  rw [if_neg fun h => hmin h.2]
  simp only [intSlot, BitVec.ofInt_neg]

theorem intUnop_neg_eq (overflowChecks : Bool) (a : Slot) :
    intUnop overflowChecks .neg a = .error .panic ∨ ∃ slot, intUnop overflowChecks .neg a = .ok slot := by
  simp only [intUnop]
  split
  · exact .inl rfl
  · exact .inr ⟨_, rfl⟩

/-! ## Expressions -/

namespace IntExpr

/-- Evaluation on the stack gives the value that exact evaluation gives, and an error where that
gives one. -/
theorem eval_tree (float : FloatOps) (overflowChecks : Bool) (e : IntExpr) :
    (∀ x, e.outcome = .value x → Fits x ∧ e.exact = some x ∧
      e.tree.eval (intUnop overflowChecks) (intBinop float) = .ok (intSlot x)) ∧
    (e.outcome = .error → ∃ err, e.tree.eval (intUnop overflowChecks) (intBinop float) = .error
      (.error err)) := by
  induction e with
  | leaf value =>
    refine ⟨fun x h => ?_, fun h => by cases h⟩
    cases h
    exact ⟨fits_toInt value, rfl, rfl⟩
  | neg e ih =>
    simp only [outcome, exact, tree, Tree.eval]
    cases he : e.outcome with
    | value a =>
      obtain ⟨hfits, hexact, heval⟩ := ih.1 a he
      rw [heval, hexact]
      refine ⟨fun x h => ?_, fun h => ?_⟩
      · dsimp only at h
        split at h
        case isTrue => cases h
        case isFalse hmin =>
          cases h
          obtain ⟨hfits', hneg⟩ := intUnop_neg_of_ne overflowChecks hfits hmin
          exact ⟨hfits', rfl, hneg⟩
      · dsimp only at h
        split at h <;> cases h
    | error =>
      obtain ⟨err, heval⟩ := ih.2 he
      rw [heval]
      exact ⟨fun x h => (by cases h), fun _ => ⟨err, rfl⟩⟩
    | unchecked => exact ⟨fun x h => (by cases h), fun h => (by cases h)⟩
  -- the left operand first: its error, or a case that nothing checks, is that of the node
  | bin op l r ihl ihr =>
    simp only [outcome, exact, tree, Tree.eval]
    cases hl : l.outcome with
    | value a =>
      obtain ⟨hfitsl, hexactl, hevall⟩ := ihl.1 a hl
      rw [hevall, hexactl]
      cases hr : r.outcome with
      | value b =>
        obtain ⟨hfitsr, hexactr, hevalr⟩ := ihr.1 b hr
        rw [hevalr, hexactr]
        exact ⟨fun x h => intBinop_of_value hfitsl hfitsr h, fun h => intBinop_of_error hfitsl hfitsr h⟩
      | error =>
        obtain ⟨err, hevalr⟩ := ihr.2 hr
        rw [hevalr]
        exact ⟨fun x h => (by cases h), fun _ => ⟨err, rfl⟩⟩
      | unchecked => exact ⟨fun x h => (by cases h), fun h => (by cases h)⟩
    | error =>
      obtain ⟨err, hevall⟩ := ihl.2 hl
      rw [hevall]
      exact ⟨fun x h => (by cases h), fun _ => ⟨err, rfl⟩⟩
    | unchecked => exact ⟨fun x h => (by cases h), fun h => (by cases h)⟩

theorem outcome_bin_left {op : IntBinop} {l r : IntExpr} (h : (bin op l r).outcome ≠ .unchecked) :
    l.outcome ≠ .unchecked := fun hl => h (by simp only [outcome, hl])

theorem outcome_bin_right {op : IntBinop} {l r : IntExpr} {a : Int} (h : (bin op l r).outcome ≠ .unchecked)
    (hl : l.outcome = .value a) : r.outcome ≠ .unchecked := fun hr => h (by simp only [outcome, hl, hr])

variable {e : IntExpr}

theorem outcome_neg (h : (neg e).outcome ≠ .unchecked) : e.outcome ≠ .unchecked := fun he =>
  h (by simp only [outcome, he])

variable {before : List (Instr Slot IntUnop IntBinop)} {vm : OperandStack}

/-- A subexpression that a run comes through meets no unchecked case, if the whole meets none. -/
theorem Occurs.outcome_ne {sub : IntExpr} (h : Occurs sub before e) (he : e.outcome ≠ .unchecked)
    {vm' : OperandStack}
    (hrun : (intMachine float overflowChecks).run vm (before ++ sub.code) = .ok vm') :
    sub.outcome ≠ .unchecked := by
  induction h generalizing vm with
  | here => exact he
  | neg _ ih => exact ih (outcome_neg he) hrun
  | left _ ih => exact ih (outcome_bin_left he) hrun
  | @right before op l r _ ih =>
    rw [List.append_assoc, Machine.run_append] at hrun
    obtain ⟨vm₁, hleft, hright⟩ := Fallible.bind_eq_ok.mp hrun
    -- the left operand came through, so its outcome is a value
    have hleft' : (intMachine float overflowChecks).run vm ([] ++ l.tree.code) = .ok vm₁ := hleft
    obtain ⟨v, hv, -⟩ := (lawful_intMachine float overflowChecks).run_append_code hleft'
    cases hl : l.outcome with
    | value a => exact ih (outcome_bin_right he hl) hright
    | error =>
      obtain ⟨err, heval⟩ := (l.eval_tree float overflowChecks).2 hl
      rw [heval] at hv
      cases hv
    | unchecked => exact absurd hl (outcome_bin_left he)

/-- A subexpression at which a run stops or has pushed something that is not its exact value. -/
def Fails (float : FloatOps) (overflowChecks : Bool) (vm : OperandStack)
    (before : List (Instr Slot IntUnop IntBinop)) (sub : IntExpr) : Prop :=
  (intMachine float overflowChecks).run vm (before ++ sub.code) = .error .panic ∨
    ∃ vm', (intMachine float overflowChecks).run vm (before ++ sub.code) = .ok vm' ∧
      ∀ x, sub.exact = some x → Fits x → vm'.slots.head? ≠ some (intSlot x)

/-- With room for its operands, the code of an expression leaves what evaluation gives. -/
theorem run_of_room (float : FloatOps) (overflowChecks : Bool) (e : IntExpr) (vm : OperandStack)
    (hroom : vm.slots.length + e.tree.need ≤ max vm.capacity vm.maxStackSize) :
    (intMachine float overflowChecks).Leaves vm vm.slots
    (e.tree.eval (intUnop overflowChecks) (intBinop float))
      ((intMachine float overflowChecks).run vm e.code) := by
  rcases (lawful_intMachine float overflowChecks).run_code e.tree vm with ⟨-, hneed⟩ | hleaves
  · exact absurd hroom (Nat.not_le.mpr hneed)
  · exact hleaves

/-- Code that runs behind other code fails where it fails from the state the other code leads to. -/
theorem Fails.after {vm' : OperandStack} {code : List (Instr Slot IntUnop IntBinop)} {sub : IntExpr}
    (h : Fails float overflowChecks vm' before sub)
    (hrun : (intMachine float overflowChecks).run vm code = .ok vm') :
    Fails float overflowChecks vm (code ++ before) sub := by
  unfold Fails at *
  rwa [List.append_assoc, Machine.run_append_of_ok hrun]

/-- A node fails that pushes a slot which is not its exact value. -/
theorem fails_of_eval {slot : Slot}
    (hroom : vm.slots.length + e.tree.need ≤ max vm.capacity vm.maxStackSize)
    (heval : e.tree.eval (intUnop overflowChecks) (intBinop float) = .ok slot)
    (hexact : ∀ x, e.exact = some x → Fits x → slot ≠ intSlot x) :
    Fails float overflowChecks vm [] e := by
  have hleaves := e.run_of_room float overflowChecks vm hroom
  rw [heval] at hleaves
  obtain ⟨vm', hrun, hslots, -⟩ := hleaves
  refine .inr ⟨vm', hrun, fun x hx hfits hhead => hexact x hx hfits ?_⟩
  rw [show vm'.slots = slot :: vm.slots from hslots] at hhead
  exact Option.some.inj hhead

/-- An unchecked case is reached where there is room for the operands. -/
theorem exists_fails (float : FloatOps) (overflowChecks : Bool) (h : e.outcome = .unchecked)
    (vm : OperandStack) (hroom : vm.slots.length + e.tree.need ≤ max vm.capacity vm.maxStackSize) :
    ∃ sub before, Occurs sub before e ∧ Fails float overflowChecks vm before sub := by
  induction e generalizing vm with
  | leaf value => cases h
  | neg e ih =>
    have heval := e.eval_tree float overflowChecks
    simp only [outcome] at h
    cases he : e.outcome with
    | unchecked =>
      obtain ⟨sub, before, hoccurs, hfails⟩ := ih he vm hroom
      exact ⟨sub, before, .neg hoccurs, hfails⟩
    | error => simp [he] at h
    | value a =>
      -- the operand is there, so the unchecked case is the negation of the minimum
      obtain ⟨hfits, hexact, hevale⟩ := heval.1 a he
      have hmin : a = -2 ^ 63 := by
        simp only [he] at h
        split at h
        case isTrue hmin => exact hmin
        case isFalse => cases h
      have hnode : (neg e).tree.eval (intUnop overflowChecks) (intBinop float)
          = intUnop overflowChecks .neg (intSlot a) := by
        rw [tree, Tree.eval, hevale]
        rfl
      refine ⟨neg e, [], .here, ?_⟩
      -- with overflow checks the machine panics, without them the result is not exact
      rcases intUnop_neg_eq overflowChecks (intSlot a) with hpanic | ⟨slot, hslot⟩
      · have hleaves := (neg e).run_of_room float overflowChecks vm hroom
        rw [hnode, hpanic] at hleaves
        exact .inl hleaves
      · refine fails_of_eval hroom (hnode.trans hslot) fun x hx hfitsx => ?_
        rw [IntExpr.exact, hexact, hmin] at hx
        cases hx
        exact absurd hfitsx (by decide)
  | bin op l r ihl ihr =>
    have hneedl : l.tree.need ≤ (bin op l r).tree.need := Nat.le_max_left _ _
    have hneedr : r.tree.need + 1 ≤ (bin op l r).tree.need := Nat.le_max_right _ _
    have hevall := l.eval_tree float overflowChecks
    have hevalr := r.eval_tree float overflowChecks
    simp only [outcome] at h
    cases hl : l.outcome with
    | unchecked =>
      obtain ⟨sub, before, hoccurs, hfails⟩ := ihl hl vm (by omega)
      exact ⟨sub, before, .left hoccurs, hfails⟩
    | error => simp [hl] at h
    | value a =>
      obtain ⟨hfitsl, hexactl, hevall⟩ := hevall.1 a hl
      simp only [hl] at h
      cases hr : r.outcome with
      -- the right operand is evaluated above the value of the left one
      | unchecked =>
        have hleaves := l.run_of_room float overflowChecks vm (by omega)
        rw [hevall] at hleaves
        obtain ⟨vm₁, hrun, hslots, hlimit⟩ := hleaves
        have hslots : vm₁.slots = intSlot a :: vm.slots := hslots
        have hlimit : max vm.capacity vm.maxStackSize ≤ max vm₁.capacity vm₁.maxStackSize := hlimit
        obtain ⟨sub, before, hoccurs, hfails⟩ := ihr hr vm₁ (by rw [hslots, List.length_cons]; omega)
        exact ⟨sub, _, .right hoccurs, hfails.after hrun⟩
      | error => simp [hr] at h
      | value b =>
        obtain ⟨hfitsr, hexactr, hevalr⟩ := hevalr.1 b hr
        simp only [hr] at h
        obtain ⟨slot, hslot, hexact⟩ := intBinop_of_unchecked float hfitsl hfitsr h
        refine ⟨bin op l r, [], .here, fails_of_eval hroom ?_ fun x hx => hexact x ?_⟩
        · rw [tree, Tree.eval, hevall]
          show (r.tree.eval _ _ >>= _) = _
          rw [hevalr]
          exact hslot
        · rw [IntExpr.exact, hexactl, hexactr] at hx
          exact hx

end IntExpr

/-- An expression on `int` is computed exactly or refused, at every node and from every stack,
exactly if evaluating it meets no unchecked case. -/
theorem int_exact_or_error_iff (float : FloatOps) (overflowChecks : Bool) (e : IntExpr) :
    (∀ vm, ExactOrError float overflowChecks e vm) ↔ e.outcome ≠ .unchecked := by
  constructor
  · intro hall hunchecked
    -- a stack with just the room that the expression needs
    let vm : OperandStack :=
      { slots := [], capacity := 0, maxStackSize := e.tree.need, fits := Nat.le_refl 0 }
    obtain ⟨hpanic, hexact⟩ := hall vm
    obtain ⟨sub, before, hoccurs, hfails⟩ :=
      IntExpr.exists_fails float overflowChecks hunchecked vm (by simp [vm])
    rcases hfails with hstop | ⟨vm', hrun, hne⟩
    · obtain ⟨after, hafter⟩ := hoccurs.exists_after
      exact hpanic (by rw [hafter]; exact Machine.run_append_of_error hstop after)
    · obtain ⟨x, hx, hfits, hhead⟩ := hexact sub before hoccurs vm' hrun
      exact hne x hx hfits hhead
  · intro hchecked vm
    constructor
    · intro hpanic
      rcases (lawful_intMachine float overflowChecks).run_code e.tree vm with ⟨hfull, -⟩ | hleaves
      · exact absurd (hfull.symm.trans hpanic) (by simp)
      · have heval := e.eval_tree float overflowChecks
        cases he : e.outcome with
        | value x =>
          rw [(heval.1 x he).2.2] at hleaves
          obtain ⟨vm', hrun, -⟩ := hleaves
          exact absurd (hrun.symm.trans hpanic) (by simp)
        | error =>
          obtain ⟨err, herr⟩ := heval.2 he
          rw [herr] at hleaves
          exact absurd (Eq.trans (Eq.symm hleaves) hpanic) (by simp)
        | unchecked => exact hchecked he
    -- every part of an expression without unchecked cases has a value or fails
    · intro sub before hoccurs vm' hrun
      have hsub := hoccurs.outcome_ne hchecked hrun
      obtain ⟨v, hv, hhead⟩ := (lawful_intMachine float overflowChecks).run_append_code hrun
      have heval := sub.eval_tree float overflowChecks
      cases houtcome : sub.outcome with
      | value x =>
        obtain ⟨hfits, hexact, hx⟩ := heval.1 x houtcome
        rw [hx] at hv
        cases hv
        exact ⟨x, hexact, hfits, hhead⟩
      | error =>
        obtain ⟨err, herr⟩ := heval.2 houtcome
        rw [herr] at hv
        cases hv
      | unchecked => exact absurd houtcome hsub

theorem not_exactOrError_of_run {float : FloatOps} {overflowChecks : Bool} {e : IntExpr}
    {vm : OperandStack} {x : Int} {slots : List Slot} (hexact : e.exact = some x) (hfits : ¬ Fits x)
    (hrun : ((intMachine float overflowChecks).run vm e.code).map OperandStack.slots = .ok slots) :
    ¬ExactOrError float overflowChecks e vm := by
  rintro ⟨-, hall⟩
  obtain ⟨vm', hok, -⟩ := Fallible.map_eq_ok.mp hrun
  obtain ⟨y, hy, hfits', -⟩ := hall e [] .here vm' hok
  rw [hexact] at hy
  obtain rfl := Option.some.inj hy
  exact hfits hfits'

/-- Without overflow checks, `i64::MIN / -1` and `-i64::MIN` are pushed as `i64::MIN`. -/
theorem div_and_neg_of_min_wrap :
    let float : FloatOps := ⟨id, id, fun _ a _ => a, fun _ _ => none, fun a _ => a⟩
    let vm : OperandStack := { slots := [], capacity := 0, maxStackSize := 100, fits := by decide }
    let quotient : IntExpr := .bin .div (.leaf (Int64.ofInt (-2 ^ 63))) (.leaf (-1))
    let negated : IntExpr := .neg (.leaf (Int64.ofInt (-2 ^ 63)))
    (quotient.exact = some (2 ^ 63) ∧
      ((intMachine float false).run vm quotient.code).map OperandStack.slots =
        .ok [(BitVec.ofInt 64 (-2 ^ 63), .int64)] ∧
      ¬ExactOrError float false quotient vm) ∧
    negated.exact = some (2 ^ 63) ∧
      ((intMachine float false).run vm negated.code).map OperandStack.slots =
        .ok [(BitVec.ofInt 64 (-2 ^ 63), .int64)] ∧
      ¬ExactOrError float false negated vm := by
  intro float vm quotient negated
  have hquotient : ((intMachine float false).run vm quotient.code).map OperandStack.slots =
      .ok [(BitVec.ofInt 64 (-2 ^ 63), .int64)] := by
    decide
  have hnegated : ((intMachine float false).run vm negated.code).map OperandStack.slots =
      .ok [(BitVec.ofInt 64 (-2 ^ 63), .int64)] := by
    decide
  exact ⟨⟨by decide, hquotient, not_exactOrError_of_run (x := 2 ^ 63) (by decide) (by decide) hquotient⟩,
    by decide, hnegated, not_exactOrError_of_run (x := 2 ^ 63) (by decide) (by decide) hnegated⟩

end ShapeLang.Executor
