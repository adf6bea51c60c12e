import Mathlib

/-!
# Selection problems

Choose for each name a value that is on offer for it, where some names are wanted from outside and a
chosen value asks for further names, each with a requirement. A selection solves the problem when it
is closed under what is wanted and meets every requirement. This is the shape of package resolution,
and of any other configuration problem whose constraints come from the choices themselves.

A partial selection only ever asks for less than its extensions: `Solution.candidate` is the reason why a
search that fixes one name at a time, over all values that meet what is demanded so far, loses no solution.
-/

namespace ShapeLang.Lib

variable {P E R : Type*}

structure Problem (P E R : Type*) where
  wanted : P → Prop
  required : P → R → Prop
  offers : P → E → Prop
  asks : E → P → R → Prop
  meets : R → E → Prop

namespace Problem

variable (problem : Problem P E R) {sel sel' : P → Option E} {p : P} {r : R} {e : E}

/-- Names that are wanted from outside or by a selected value. -/
def Wanted (sel : P → Option E) (p : P) : Prop :=
  problem.wanted p ∨ ∃ q e r, sel q = some e ∧ problem.asks e p r

/-- Requirements on a name, from outside or by a selected value. -/
def Demanded (sel : P → Option E) (p : P) (r : R) : Prop :=
  problem.required p r ∨ ∃ q e, sel q = some e ∧ problem.asks e p r

structure Solution (sel : P → Option E) : Prop where
  offered : ∀ p e, sel p = some e → problem.offers p e
  closed : ∀ p, problem.Wanted sel p → ∃ e, sel p = some e
  met : ∀ p e r, sel p = some e → problem.Demanded sel p r → problem.meets r e

/-- Names that are wanted through a chain of selected values. -/
inductive Reached (sel : P → Option E) : P → Prop
  | outside {p : P} : problem.wanted p → Reached sel p
  | asked {q p : P} {e : E} {r : R} : Reached sel q → sel q = some e → problem.asks e p r → Reached sel p

/-- A selection without superfluous names. -/
def Grounded (sel : P → Option E) : Prop :=
  ∀ p e, sel p = some e → problem.Reached sel p

end Problem

/-- `sel'` keeps every choice of `sel`. -/
def Extends (sel sel' : P → Option E) : Prop :=
  ∀ p e, sel p = some e → sel' p = some e

theorem Extends.refl (sel : P → Option E) : Extends sel sel :=
  fun _ _ h => h

theorem Extends.trans {sel₁ sel₂ sel₃ : P → Option E} (h₁ : Extends sel₁ sel₂) (h₂ : Extends sel₂ sel₃) :
    Extends sel₁ sel₃ :=
  fun p e h => h₂ p e (h₁ p e h)

theorem extends_update [DecidableEq P] {sel : P → Option E} {p : P} (hnone : sel p = none) (e : E) :
    Extends sel (Function.update sel p (some e)) := by
  intro q e' hq
  have hne : q ≠ p := by
    rintro rfl
    rw [hnone] at hq
    cases hq
  rw [Function.update_of_ne hne]
  exact hq

theorem Extends.update [DecidableEq P] {sel sel' : P → Option E} {p : P} {e : E} (h : Extends sel sel')
    (hp : sel' p = some e) : Extends (Function.update sel p (some e)) sel' := by
  intro q e' hq
  by_cases hqp : q = p
  · subst hqp
    rw [Function.update_self] at hq
    rw [hp, ← Option.some.inj hq]
  · rw [Function.update_of_ne hqp] at hq
    exact h q e' hq

namespace Problem

variable {problem : Problem P E R} {sel sel' : P → Option E} {p : P} {r : R} {e : E}

theorem Wanted.mono (h : Extends sel sel') (hp : problem.Wanted sel p) : problem.Wanted sel' p := by
  rcases hp with hp | ⟨q, e, r, hq, hasks⟩
  · exact Or.inl hp
  · exact Or.inr ⟨q, e, r, h q e hq, hasks⟩

theorem Demanded.mono (h : Extends sel sel') (hr : problem.Demanded sel p r) :
    problem.Demanded sel' p r := by
  rcases hr with hr | ⟨q, e, hq, hasks⟩
  · exact Or.inl hr
  · exact Or.inr ⟨q, e, h q e hq, hasks⟩

theorem Reached.mono (h : Extends sel sel') (hp : problem.Reached sel p) : problem.Reached sel' p := by
  induction hp with
  | outside hp => exact .outside hp
  | asked _ hq hasks ih => exact .asked ih (h _ _ hq) hasks

/-- A solution above a partial selection chooses, for each name that is wanted by now, a value on offer that
meets what is demanded by now. -/
theorem Solution.candidate (hsol : problem.Solution sel') (h : Extends sel sel')
    (hp : problem.Wanted sel p) :
    ∃ e, sel' p = some e ∧ problem.offers p e ∧ ∀ r, problem.Demanded sel p r → problem.meets r e := by
  obtain ⟨e, he⟩ := hsol.closed p (hp.mono h)
  exact ⟨e, he, hsol.offered p e he, fun r hr => hsol.met p e r he (hr.mono h)⟩

/-- Choosing a wanted name adds nothing superfluous. -/
theorem Grounded.update [DecidableEq P] (h : problem.Grounded sel) (hnone : sel p = none)
    (hp : problem.Wanted sel p) (e : E) : problem.Grounded (Function.update sel p (some e)) := by
  have hext := extends_update hnone e
  intro q e' hq
  by_cases hqp : q = p
  · subst hqp
    rcases hp with hp | ⟨o, e₀, r, ho, hasks⟩
    · exact .outside hp
    · exact .asked ((h o e₀ ho).mono hext) (hext o e₀ ho) hasks
  · rw [Function.update_of_ne hqp] at hq
    exact (h q e' hq).mono hext

/-- The open names of a partial selection. -/
def Unresolved (problem : Problem P E R) (sel : P → Option E) (p : P) : Prop :=
  problem.Wanted sel p ∧ sel p = none

/-- An open name with the fewest choices left, where every open name has one. -/
def Fewest (problem : Problem P E R) (choices : (P → Option E) → P → Nat) (sel : P → Option E)
    (p : P) : Prop :=
  problem.Unresolved sel p ∧ 0 < choices sel p ∧ ∀ q, problem.Unresolved sel q →
    choices sel p ≤ choices sel q

/-- The partial selections that a fewest-choices-first search can come to. -/
inductive Explored [DecidableEq P] (problem : Problem P E R) (choices : (P → Option E) → P → Nat) :
    (P → Option E) → Prop
  | start : Explored problem choices fun _ => none
  | choose {sel : P → Option E} {p : P} {e : E} :
    Explored problem choices sel → problem.Fewest choices sel p → problem.offers p e →
      (∀ r, problem.Demanded sel p r → problem.meets r e) →
      Explored problem choices (Function.update sel p (some e))

/-- At no point of the search do two open names share the fewest choices. -/
def TieFree [DecidableEq P] (problem : Problem P E R) (choices : (P → Option E) → P → Nat) : Prop :=
  ∀ sel, Explored problem choices sel → ∀ p q, problem.Fewest choices sel p →
    problem.Fewest choices sel q → p = q

end Problem

end ShapeLang.Lib
