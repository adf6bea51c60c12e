import Mathlib

/-!
# Loops with a cap

`for _ in 0..cap { changed = step(&mut s); if !changed { break } }`, and whether any turn changed
something. When a turn that reports no change leaves the state alone, the early exit is invisible:
the loop is `cap` turns (`run_eq_iterate`).
-/

namespace Capped

variable {α : Type*}

def run (step : α → α × Bool) : Nat → α → α × Bool
  | 0, s => (s, false)
  | cap + 1, s =>
      let r := step s
      if r.2 then ((run step cap r.1).1, true) else (r.1, false)

variable {step : α → α × Bool}

/-- A loop that reports no change has not changed the state. -/
theorem run_unchanged (hstep : ∀ s, (step s).2 = false → (step s).1 = s) (cap : Nat) (s : α)
    (h : (run step cap s).2 = false) : (run step cap s).1 = s := by
  cases cap with
  | zero => rfl
  | succ cap =>
    rw [run] at h ⊢
    cases hflag : (step s).2 with
    | true => simp [hflag] at h
    | false =>
      simp only [Bool.false_eq_true, if_false]
      exact hstep s hflag

/-- **The early exit is invisible.** -/
theorem run_eq_iterate (hstep : ∀ s, (step s).2 = false → (step s).1 = s) (cap : Nat) (s : α) :
    (run step cap s).1 = (fun s => (step s).1)^[cap] s := by
  induction cap generalizing s with
  | zero => rfl
  | succ cap ih =>
    rw [run, Function.iterate_succ_apply]
    cases hflag : (step s).2 with
    | true =>
      simp only [if_true]
      exact ih (step s).1
    | false =>
      have hfix : (step s).1 = s := hstep s hflag
      simp only [Bool.false_eq_true, if_false]
      rw [hfix]
      exact (Function.iterate_fixed (f := fun s => (step s).1) hfix cap).symm

end Capped
