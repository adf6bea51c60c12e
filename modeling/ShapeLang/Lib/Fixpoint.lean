import Mathlib

/-!
# Sweeping to a fixpoint

The loop `loop { changed = false; for b in order { … changed = true … }; if !changed { break } }`.
One turn at `b` either changes the state (`some`) or leaves it (`none`).

  * `sweep` — one pass over the order, with the flag;
  * `loop` — passes until one of them changes nothing, bounded by `fuel`;
  * `loop_stable` — when the loop ends, no turn changes the final state any more, and whatever
    every turn preserves holds of it;
  * `loop_isSome` — the loop ends if every changing turn climbs towards a bound;
  * `loop_isSome_of_settled` — it ends as well if a pass that does not climb settles everything.
-/

namespace Fixpoint

variable {α β : Type*}

def turn (step : α → β → Option α) (r : α × Bool) (b : β) : α × Bool :=
  match step r.1 b with
  | some s => (s, true)
  | none => r

def sweep (step : α → β → Option α) (order : List β) (s : α) : α × Bool :=
  order.foldl (turn step) (s, false)

def loop (step : α → β → Option α) (order : List β) : Nat → α → Option α
  | 0, _ => none
  | fuel + 1, s =>
      let r := sweep step order s
      if r.2 then loop step order fuel r.1 else some r.1

variable {step : α → β → Option α} {order : List β}

/-- A raised flag stays up. -/
theorem foldl_turn_flag (order : List β) (s : α) : (order.foldl (turn step) (s, true)).2 = true := by
  induction order generalizing s with
  | nil => rfl
  | cons b order ih =>
    rw [List.foldl_cons]
    unfold turn
    cases step s b with
    | none => exact ih s
    | some s' => exact ih s'

/-- A pass that raises no flag left the state as it was, and no turn would change it. -/
theorem sweep_stable {s : α} (h : (sweep step order s).2 = false) :
    (sweep step order s).1 = s ∧ ∀ b ∈ order, step s b = none := by
  induction order with
  | nil => exact ⟨rfl, fun b hb => absurd hb List.not_mem_nil⟩
  | cons b order ih =>
    rw [sweep, List.foldl_cons, turn] at h
    cases hb : step s b with
    | some s' =>
      rw [show (s, false).1 = s from rfl, hb] at h
      rw [foldl_turn_flag] at h
      cases h
    | none =>
      rw [show (s, false).1 = s from rfl, hb] at h
      obtain ⟨hs, hall⟩ := ih h
      constructor
      · rw [sweep, List.foldl_cons, turn, show (s, false).1 = s from rfl, hb]
        exact hs
      · intro c hc
        rcases List.mem_cons.mp hc with rfl | hc
        · exact hb
        · exact hall c hc

theorem sweep_invariant {P : α → Prop} (hstep : ∀ s b s', P s → b ∈ order → step s b = some s' → P s')
    {s : α} (hs : P s) : P (sweep step order s).1 := by
  have hfold : ∀ (rest : List β) (r : α × Bool), (∀ b ∈ rest, b ∈ order) → P r.1 →
      P (rest.foldl (turn step) r).1 := by
    intro rest
    induction rest with
    | nil => exact fun r _ hr => hr
    | cons b rest ih =>
      intro r hsub hr
      refine ih _ (fun c hc => hsub c (List.mem_cons_of_mem _ hc)) ?_
      unfold turn
      cases hb : step r.1 b with
      | none => exact hr
      | some s' => exact hstep r.1 b s' hr (hsub b List.mem_cons_self) hb
  exact hfold order (s, false) (fun b hb => hb) hs

/-- **The loop ends in a stable state** that satisfies every invariant of its turns. -/
theorem loop_stable {P : α → Prop} (hstep : ∀ s b s', P s → b ∈ order → step s b = some s' → P s')
    {fuel : Nat} {s t : α} (hs : P s) (h : loop step order fuel s = some t) :
    P t ∧ ∀ b ∈ order, step t b = none := by
  induction fuel generalizing s with
  | zero => cases h
  | succ fuel ih =>
    rw [loop] at h
    have hP := sweep_invariant hstep hs
    cases hflag : (sweep step order s).2 with
    | true =>
      rw [hflag, if_pos rfl] at h
      exact ih hP h
    | false =>
      rw [hflag] at h
      obtain ⟨hsame, hall⟩ := sweep_stable hflag
      rw [hsame] at h hP
      obtain rfl : s = t := by simpa using h
      exact ⟨hP, hall⟩

/-- A pass that raised its flag climbed, one that did not stayed. -/
theorem foldl_turn_climbs {P : α → Prop} {size : α → Nat}
    (hstep : ∀ s b s', P s → b ∈ order → step s b = some s' → P s' ∧ size s < size s') {rest : List β}
    (hrest : ∀ b ∈ rest, b ∈ order) {r : α × Bool} (hr : P r.1) :
    P (rest.foldl (turn step) r).1 ∧ size r.1 ≤ size (rest.foldl (turn step) r).1 ∧
      (r.2 = false → (rest.foldl (turn step) r).2 = true → size r.1 < size
        (rest.foldl (turn step) r).1) := by
  induction rest generalizing r with
  | nil => exact ⟨hr, Nat.le_refl _, fun hf ht => by rw [List.foldl_nil, hf] at ht; cases ht⟩
  | cons b rest ih =>
    have hrest' : ∀ c ∈ rest, c ∈ order := fun c hc => hrest c (List.mem_cons_of_mem _ hc)
    rw [List.foldl_cons]
    cases hb : step r.1 b with
    | none =>
      have hturn : turn step r b = r := by rw [turn, hb]
      rw [hturn]
      exact ih hrest' hr
    | some s' =>
      have hturn : turn step r b = (s', true) := by rw [turn, hb]
      obtain ⟨hs', hclimb⟩ := hstep r.1 b s' hr (hrest b List.mem_cons_self) hb
      have hrec := @ih hrest' (s', true) hs'
      have hle : size s' ≤ size (rest.foldl (turn step) (s', true)).1 := hrec.2.1
      rw [hturn]
      exact ⟨hrec.1, by omega, fun _ _ => by omega⟩

/-- **The loop ends** when every changing turn climbs in `size` and no state of the run is above the
bound. -/
theorem loop_isSome {P : α → Prop} {size : α → Nat} {bound : Nat}
    (hstep : ∀ s b s', P s → b ∈ order → step s b = some s' → P s' ∧ size s < size s')
    (hbound : ∀ s, P s → size s ≤ bound) {fuel : Nat} {s : α} (hs : P s) (hfuel : bound < fuel + size s) :
    ∃ t, loop step order fuel s = some t := by
  induction fuel generalizing s with
  | zero =>
    have := hbound s hs
    omega
  | succ fuel ih =>
    obtain ⟨hP, -, hclimb⟩ :=
      @foldl_turn_climbs _ _ step order P size hstep order (fun b hb => hb) (s, false) hs
    rw [loop]
    cases hflag : (sweep step order s).2 with
    | true =>
      have hlt : size s < size (sweep step order s).1 := hclimb rfl hflag
      rw [if_pos rfl]
      exact ih hP (by omega)
    | false => exact ⟨_, rfl⟩

/-! ## Turns that need not climb -/

section

variable {P : α → Prop} {size : α → Nat} {settled : β → α → Prop}

/-- A pass never goes down, and one that does not climb settles every member of its order. -/
theorem foldl_turn_settles
    (hclimb : ∀ s b s', P s → b ∈ order → step s b = some s' → P s' ∧ size s ≤ size s')
    (hnone : ∀ s b, P s → b ∈ order → step s b = none → settled b s)
    (hturn : ∀ s b s', P s → b ∈ order → step s b = some s' → size s' = size s →
      settled b s' ∧ ∀ c, settled c s → settled c s')
    {rest : List β} (hrest : ∀ b ∈ rest, b ∈ order) {r : α × Bool} (hr : P r.1) :
    P (rest.foldl (turn step) r).1 ∧ size r.1 ≤ size (rest.foldl (turn step) r).1 ∧
      (size (rest.foldl (turn step) r).1 = size r.1 →
        ∀ b, b ∈ rest ∨ settled b r.1 → settled b (rest.foldl (turn step) r).1) := by
  induction rest generalizing r with
  | nil => exact ⟨hr, Nat.le_refl _, fun _ b hb => hb.resolve_left List.not_mem_nil⟩
  | cons b rest ih =>
    have hb : b ∈ order := hrest b List.mem_cons_self
    have hrest' : ∀ c ∈ rest, c ∈ order := fun c hc => hrest c (List.mem_cons_of_mem _ hc)
    rw [List.foldl_cons]
    cases hstep : step r.1 b with
    -- no step: the member is settled as it stands, and the rest of the pass keeps it so
    | none =>
      have hsettled : settled b r.1 := hnone r.1 b hr hb hstep
      rw [show turn step r b = r by rw [turn, hstep]]
      obtain ⟨hP, hle, hall⟩ := ih hrest' hr
      refine ⟨hP, hle, fun hsize c hc => hall hsize c ?_⟩
      rcases hc with hc | hc
      · rcases List.mem_cons.mp hc with rfl | hc
        · exact Or.inr hsettled
        · exact Or.inl hc
      · exact Or.inr hc
    | some s' =>
      obtain ⟨hs', hup⟩ := hclimb r.1 b s' hr hb hstep
      rw [show turn step r b = (s', true) by rw [turn, hstep]]
      obtain ⟨hP, hle, hall⟩ := @ih hrest' (s', true) hs'
      have hle : size s' ≤ size (rest.foldl (turn step) (s', true)).1 := hle
      -- a pass that ends at the size it began with has climbed at no member
      refine ⟨hP, hup.trans hle, fun hsize c hc => ?_⟩
      obtain ⟨hsettled, hkeep⟩ := hturn r.1 b s' hr hb hstep (by omega)
      refine hall (show _ = size s' by omega) c ?_
      rcases hc with hc | hc
      · rcases List.mem_cons.mp hc with rfl | hc
        · exact Or.inr hsettled
        · exact Or.inl hc
      · exact Or.inr (hkeep c hc)

theorem sweep_of_none {s : α} (h : ∀ b ∈ order, step s b = none) : sweep step order s = (s, false) := by
  unfold sweep
  induction order with
  | nil => rfl
  | cons b order ih =>
    have hturn : turn step (s, false) b = (s, false) := by
      rw [turn, show (s, false).1 = s from rfl, h b List.mem_cons_self]
    rw [List.foldl_cons, hturn]
    exact ih fun c hc => h c (List.mem_cons_of_mem _ hc)

/-- **The loop ends** when no turn goes down, no state of the run is above the bound, and where
everything is settled no turn changes anything. -/
theorem loop_isSome_of_settled {bound : Nat}
    (hclimb : ∀ s b s', P s → b ∈ order → step s b = some s' → P s' ∧ size s ≤ size s')
    (hnone : ∀ s b, P s → b ∈ order → step s b = none → settled b s)
    (hturn : ∀ s b s', P s → b ∈ order → step s b = some s' → size s' = size s →
      settled b s' ∧ ∀ c, settled c s → settled c s')
    (hdone : ∀ s, P s → (∀ b ∈ order, settled b s) → ∀ b ∈ order, step s b = none)
    (hbound : ∀ s, P s → size s ≤ bound) {fuel : Nat} {s : α} (hs : P s)
    (hfuel : 2 * bound + 2 ≤ fuel + 2 * size s) :
    ∃ t, loop step order fuel s = some t := by
  induction fuel generalizing s with
  | zero =>
    have := hbound s hs
    omega
  | succ fuel ih =>
    obtain ⟨hP, hle, hall⟩ := @foldl_turn_settles _ _ step order P size settled hclimb hnone hturn order
      (fun b hb => hb) (s, false) hs
    have hle : size s ≤ size (sweep step order s).1 := hle
    rw [loop]
    cases hflag : (sweep step order s).2 with
    | false => exact ⟨_, rfl⟩
    | true =>
      rw [if_pos rfl]
      rcases hle.lt_or_eq with hlt | heq
      · exact ih hP (by omega)
      · -- the next pass is the last one
        have hstop : sweep step order (sweep step order s).1 = _ :=
          sweep_of_none (hdone _ hP fun b hb => hall heq.symm b (Or.inl hb))
        obtain ⟨fuel, rfl⟩ : ∃ k, fuel = k + 1 := by
          have := hbound s hs
          exact ⟨fuel - 1, by omega⟩
        rw [loop, hstop]
        exact ⟨_, rfl⟩

end

/-- The loop never ends if every pass from a state of `P` changes something and stays in `P`. -/
theorem loop_eq_none {P : α → Prop}
    (hsweep : ∀ s, P s → (sweep step order s).2 = true ∧ P (sweep step order s).1) {s : α}
    (hs : P s) (fuel : Nat) : loop step order fuel s = none := by
  induction fuel generalizing s with
  | zero => rfl
  | succ fuel ih =>
    obtain ⟨hflag, hnext⟩ := hsweep s hs
    rw [loop, hflag, if_pos rfl]
    exact ih hnext

end Fixpoint
