import Mathlib

/-!
# Checked 64-bit arithmetic

A 64-bit operation is the exact integer operation, followed by the question whether its result is
still a 64-bit number. `checked` asks it; an operation that wraps instead keeps the residue.
-/

namespace ShapeLang.Lib.CheckedInt

def Fits (x : Int) : Prop := -2 ^ 63 ≤ x ∧ x < 2 ^ 63

instance (x : Int) : Decidable (Fits x) := inferInstanceAs (Decidable (_ ∧ _))

theorem fits_toInt (a : Int64) : Fits a.toInt := ⟨Int64.le_toInt a, Int64.toInt_lt a⟩

theorem toInt_ofInt {x : Int} (h : Fits x) : (Int64.ofInt x).toInt = x := by
  exact Int64.toInt_ofInt_of_le h.1 h.2

/-- The 64-bit number that is `x`, where there is one. -/
def checked (x : Int) : Option Int64 := if Fits x then some (Int64.ofInt x) else none

end ShapeLang.Lib.CheckedInt
