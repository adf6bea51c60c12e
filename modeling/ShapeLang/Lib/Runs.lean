import Mathlib

/-!
# Runs of a deterministic machine

A machine is a step function; a run is a start and the list of its actions. The states that a run
goes through are those at the end of its beginnings: `Throughout` says something of all of them,
`EveryStep` says something of each action in the state where it is taken.

The rules relate the two: a condition on steps that is enough for an invariant, and one that the
invariant needs.
-/

namespace ShapeLang.Lib

variable {σ α : Type} {step : σ → α → σ} {start : σ} {actions : List α} {inv : σ → Prop} {ok : σ → α → Prop}

/-- In every state of the run, the first and the last included. -/
def Throughout (step : σ → α → σ) (start : σ) (actions : List α) (inv : σ → Prop) : Prop :=
  ∀ done, done <+: actions → inv (done.foldl step start)

/-- Of every action of the run, in the state before it. -/
def EveryStep (step : σ → α → σ) (start : σ) (actions : List α) (ok : σ → α → Prop) : Prop :=
  ∀ done action, done ++ [action] <+: actions → ok (done.foldl step start) action

theorem everyStep_nil : EveryStep step start [] ok := by
  intro done action hnil
  simp at hnil

theorem everyStep_cons {action : α} (hfirst : ok start action)
    (hrest : EveryStep step (step start action) actions ok) :
    EveryStep step start (action :: actions) ok := by
  intro done last hbegin
  cases done with
  | nil =>
    obtain ⟨rfl, _⟩ := List.cons_prefix_cons.mp hbegin
    exact hfirst
  | cons first done =>
    obtain ⟨rfl, hlater⟩ := List.cons_prefix_cons.mp hbegin
    exact hrest done last hlater

theorem throughout_of_everyStep
    (hstep : ∀ state action, inv state → ok state action → inv (step state action))
    (hstart : inv start) (hok : EveryStep step start actions ok) :
    Throughout step start actions inv := by
  intro done
  -- From the end: the last action of a beginning is taken in a state that has the invariant already.
  induction done using List.reverseRecOn with
  | nil => exact fun _ => hstart
  | append_singleton done action ih =>
    intro hprefix
    have hbefore : inv (done.foldl step start) := ih ((List.prefix_append done [action]).trans hprefix)
    rw [List.foldl_append]
    exact hstep _ action hbefore (hok done action hprefix)

theorem everyStep_of_throughout
    (hstep : ∀ state action, inv state → inv (step state action) → ok state action)
    (hinv : Throughout step start actions inv) : EveryStep step start actions ok := by
  intro done action hprefix
  have hbefore : inv (done.foldl step start) := hinv done ((List.prefix_append done [action]).trans hprefix)
  have hafter := hinv (done ++ [action]) hprefix
  rw [List.foldl_append] at hafter
  exact hstep _ action hbefore hafter

/-- An invariant that every action keeps holds in every state of every run. -/
theorem throughout_of_invariant (hstep : ∀ state action, inv state → inv (step state action))
    (hstart : inv start) :
    Throughout step start actions inv :=
  throughout_of_everyStep (fun state action hinv (_ : True) => hstep state action hinv) hstart
    (fun _ _ _ => True.intro)

theorem Throughout.last (h : Throughout step start actions inv) : inv (actions.foldl step start) :=
  h actions (List.prefix_refl actions)

end ShapeLang.Lib
