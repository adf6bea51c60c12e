import ShapeLang.Lib.Dominance
import ShapeLang.Mir.Dominators

/-!
# ShapeLang — the tree of immediate dominators

While `dominators` runs, its table is a tree: every entry but that of the entry block points to a
block with a smaller number that has an entry too. `Above` is the order of the tree. `climb` and
`intersect` stay inside it, and end: the second gives the last block that stands above both
arguments.

A turn of the loop moves one block, with everything below it, to a place further up. `Above` changes
only between blocks below the moved one and blocks numbered before it.
-/

namespace ShapeLang.Mir

/-- `y` stands above `x`, or is `x`. -/
abbrev Above (doms : BasicBlockId → Option BasicBlockId) (x y : BasicBlockId) : Prop :=
  Relation.ReflTransGen (fun x y => doms x = some y) x y

/-- A table of dominators on the way. -/
structure IsTree (number : BasicBlockId → Nat) (doms : BasicBlockId → Option BasicBlockId) : Prop where
  root : doms 0 = some 0
  number_root : number 0 = 0
  closed : ∀ {x y}, doms x = some y → ∃ z, doms y = some z
  decreasing : ∀ {x y}, x ≠ 0 → doms x = some y → number y < number x
  injective : ∀ {x y u v}, doms x = some u → doms y = some v → number x = number y → x = y

namespace IsTree

variable {number : BasicBlockId → Nat} {doms : BasicBlockId → Option BasicBlockId}
  {x y z a b c : BasicBlockId}

theorem number_le (h : IsTree number doms) (habove : Above doms x y) : number y ≤ number x := by
  induction habove with
  | refl => exact Nat.le_refl _
  | @tail y z _ hstep ih =>
    by_cases hy : y = 0
    · subst hy
      obtain rfl := Option.some.inj (h.root.symm.trans hstep)
      exact ih
    · have := h.decreasing hy hstep
      omega

theorem isSome_above (h : IsTree number doms) (hx : ∃ u, doms x = some u) (habove : Above doms x y) :
    ∃ u, doms y = some u := by
  induction habove with
  | refl => exact hx
  | tail _ hstep _ => exact h.closed hstep

theorem above_root (h : IsTree number doms) (habove : Above doms 0 y) : y = 0 := by
  induction habove with
  | refl => rfl
  | tail _ hstep ih =>
    subst ih
    exact Option.some.inj (hstep.symm.trans h.root)

/-- One above the other, and different: numbered before it. -/
theorem number_lt (h : IsTree number doms) (hne : y ≠ x) (habove : Above doms x y) :
    number y < number x := by
  rcases habove.cases_head with rfl | ⟨z, hstep, hrest⟩
  · exact absurd rfl hne
  · by_cases hx : x = 0
    · subst hx
      obtain rfl := Option.some.inj (h.root.symm.trans hstep)
      exact absurd (h.above_root hrest) hne
    · have := h.decreasing hx hstep
      have := h.number_le hrest
      omega

/-- What stands above one block is in a line. -/
theorem above_of_above (h : IsTree number doms) (hy : Above doms x y) (hz : Above doms x z)
    (hle : number z ≤ number y) : Above doms y z := by
  induction hy using Relation.ReflTransGen.head_induction_on with
  | refl => exact hz
  | @head x u hstep hrest ih =>
    rcases hz.cases_head with rfl | ⟨v, hstep', hz'⟩
    · -- `z` is where the line starts, so nothing after it can be numbered as high unless it is
      -- the entry block
      by_cases hx : x = 0
      · subst hx
        obtain rfl : y = 0 := h.above_root (hrest.head hstep)
        exact .refl
      · have := h.decreasing hx hstep
        have := h.number_le hrest
        omega
    · obtain rfl := Option.some.inj (hstep.symm.trans hstep')
      exact ih hz'

/-! ## Climbing -/

theorem climb_spec (h : IsTree number doms) (b : BasicBlockId) {fuel : Nat} (hfuel : number a < fuel)
    (ha : ∃ u, doms a = some u) :
    ∃ a', ControlFlowGraph.climb number doms fuel a b = some a' ∧ Above doms a a' ∧ number a' ≤ number b ∧
      ∀ z, Above doms a z → number z ≤ number b → Above doms a' z := by
  induction fuel generalizing a with
  | zero => omega
  | succ fuel ih =>
    rw [ControlFlowGraph.climb]
    split
    · rename_i hgt
      have hne : a ≠ 0 := by
        rintro rfl
        rw [h.number_root] at hgt
        omega
      obtain ⟨u, hu⟩ := ha
      have hless := h.decreasing hne hu
      obtain ⟨a', hclimb, habove, hle, hall⟩ := @ih u (by omega) (h.closed hu)
      refine ⟨a', by rw [hu]; exact hclimb, habove.head hu, hle, fun z hz hzb => hall z ?_ hzb⟩
      rcases hz.cases_head with rfl | ⟨v, hv, hz'⟩
      · omega
      · obtain rfl := Option.some.inj (hu.symm.trans hv)
        exact hz'
    · rename_i hle
      exact ⟨a, rfl, .refl, by omega, fun z hz _ => hz⟩

/-- The last block above both, with everything else that is above both above it. -/
structure IsMeet (doms : BasicBlockId → Option BasicBlockId) (blocks : List BasicBlockId)
    (c : BasicBlockId) : Prop where
  above : ∀ p ∈ blocks, Above doms p c
  last : ∀ z, (∀ p ∈ blocks, Above doms p z) → Above doms c z

theorem intersect_spec (h : IsTree number doms) {fuel : Nat} (hfuel : number a + number b + 1 < fuel)
    (ha : ∃ u, doms a = some u) (hb : ∃ u, doms b = some u) :
    ∃ c, ControlFlowGraph.intersect number doms fuel a b = some c ∧ IsMeet doms [a, b] c := by
  induction fuel generalizing a b with
  | zero => omega
  | succ fuel ih =>
    rw [ControlFlowGraph.intersect]
    split
    · rename_i heq
      subst heq
      refine ⟨a, rfl, ⟨fun p hp => ?_, fun z hz => hz a List.mem_cons_self⟩⟩
      obtain rfl : p = a := by simpa using hp
      exact .refl
    · rename_i hne
      have hnumber : number a ≠ number b := by
        obtain ⟨u, hu⟩ := ha
        obtain ⟨v, hv⟩ := hb
        exact fun heq => hne (h.injective hu hv heq)
      obtain ⟨a', hclimba, habovea, hlea, halla⟩ := h.climb_spec b (show number a < fuel by omega) ha
      obtain ⟨b', hclimbb, haboveb, hleb, hallb⟩ := h.climb_spec a' (show number b < fuel by omega) hb
      have hnumbera := h.number_le habovea
      have hnumberb := h.number_le haboveb
      -- the numbers differ, so one of the two climbs moves
      have hless : number a' + number b' < number a + number b := by omega
      obtain ⟨c, hc, hmeet⟩ := @ih a' b' (by omega) (h.isSome_above ha habovea) (h.isSome_above hb haboveb)
      refine ⟨c, by rw [hclimba]; simpa [hclimbb] using hc,
        ⟨fun p hp => ?_, fun z hz => hmeet.last z fun p hp => ?_⟩⟩
      · rcases List.mem_cons.mp hp with rfl | hp
        · exact habovea.trans (hmeet.above a' List.mem_cons_self)
        · obtain rfl : p = b := by simpa using hp
          exact haboveb.trans (hmeet.above b' (by simp))
      · have hza := hz a List.mem_cons_self
        have hzb := hz b (by simp)
        have hza' := halla z hza (h.number_le hzb)
        rcases List.mem_cons.mp hp with rfl | hp
        · exact hza'
        · obtain rfl : p = b' := by simpa using hp
          exact hallb z hzb (h.number_le hza')

/-- One predecessor in a turn of the loop. -/
def meetPredecessor (fuel : Nat) (number : BasicBlockId → Nat) (doms : BasicBlockId → Option BasicBlockId)
    (acc : Option BasicBlockId) (p : BasicBlockId) : Option (Option BasicBlockId) :=
  if (doms p).isNone then some acc
  else match acc with
    | none => some (some p)
    | some current => (ControlFlowGraph.intersect number doms fuel current p).map some

/-- The fold over the predecessors: where they meet, if some of them have an entry. -/
theorem meetPredecessors_spec (h : IsTree number doms) {fuel bound : Nat} (hfuel : 2 * bound + 1 < fuel)
    (hbound : ∀ {x u}, doms x = some u → number x ≤ bound) (preds : List BasicBlockId) :
    ∃ r, preds.foldlM (meetPredecessor fuel number doms) none = some r ∧
      (r = none → ∀ p ∈ preds, doms p = none) ∧
      ∀ c, r = some c → IsMeet doms (preds.filter fun p => (doms p).isSome) c ∧ ∃ u, doms c = some u := by
  induction preds using List.reverseRecOn with
  | nil => exact ⟨none, rfl, by simp, by simp⟩
  | append_singleton preds p ih =>
    obtain ⟨r, hr, hnone, hsome⟩ := ih
    rw [List.foldlM_append, hr]
    -- a predecessor without entry is passed over
    cases hp : doms p with
    | none =>
      refine ⟨r, by simp [meetPredecessor, hp], fun hr q hq => ?_, fun c hc => ?_⟩
      · rcases List.mem_append.mp hq with hq | hq
        · exact hnone hr q hq
        · rw [List.mem_singleton.mp hq, hp]
      · rw [List.filter_append]
        simpa [hp] using hsome c hc
    | some u =>
      cases r with
      -- the first one that has an entry is where they meet so far
      | none =>
        have hempty : (preds.filter fun q => (doms q).isSome) = [] := by
          refine List.filter_eq_nil_iff.mpr fun q hq => ?_
          rw [hnone rfl q hq]
          simp
        refine ⟨some p, by simp [meetPredecessor, hp], by simp, fun c hc => ?_⟩
        obtain rfl := Option.some.inj hc
        rw [List.filter_append, hempty]
        refine ⟨⟨fun q hq => ?_, fun z hz => hz p (by simp [hp])⟩, u, hp⟩
        obtain rfl : q = p := by simpa [hp] using hq
        exact .refl
      -- climbing from both ends where the two meet
      | some current =>
        obtain ⟨hmeet, v, hv⟩ := hsome current rfl
        have hle := hbound hv
        have hle' := hbound hp
        obtain ⟨c, hc, hboth⟩ :=
          h.intersect_spec (show number current + number p + 1 < fuel by omega) ⟨v, hv⟩ ⟨u, hp⟩
        refine ⟨some c, by simp [meetPredecessor, hp, hc], by simp, fun c' hc' => ?_⟩
        obtain rfl := Option.some.inj hc'
        have hcurrent := hboth.above current List.mem_cons_self
        refine ⟨⟨fun q hq => ?_, fun z hz => hboth.last z fun q hq => ?_⟩, h.isSome_above ⟨v, hv⟩ hcurrent⟩
        · rw [List.filter_append] at hq
          rcases List.mem_append.mp hq with hq | hq
          · exact (hmeet.above q hq).trans hcurrent
          · obtain rfl : q = p := by simpa [hp] using hq
            exact hboth.above q (by simp)
        · rcases List.mem_cons.mp hq with rfl | hq
          · exact hmeet.last z fun s hs => hz s
              (by rw [List.filter_append]; exact List.mem_append_left _ hs)
          · obtain rfl : q = p := by simpa using hq
            exact hz q (by rw [List.filter_append]; simp [hp])

/-! ## Moving one block up -/

/-- `b` gets the parent `c`: numbered before it, and above the parent it had. -/
structure Moves (number : BasicBlockId → Nat) (doms : BasicBlockId → Option BasicBlockId)
    (b c : BasicBlockId) : Prop where
  ne_root : b ≠ 0
  number_lt : number c < number b
  parent : ∃ u, doms c = some u
  up : ∀ {q}, doms b = some q → Above doms q c
  injective : ∀ {y v}, doms y = some v → number b = number y → b = y

theorem update (h : IsTree number doms) (hmoves : Moves number doms b c) :
    IsTree number (Function.update doms b (some c)) where
  root := by rw [Function.update_of_ne (Ne.symm hmoves.ne_root), h.root]
  number_root := h.number_root
  closed {x y} hstep := by
    -- no entry is taken away
    have hold : ∀ {y}, (∃ u, doms y = some u) → ∃ u, Function.update doms b (some c) y = some u := by
      rintro y ⟨u, hu⟩
      by_cases hy : y = b
      · exact ⟨c, by rw [hy, Function.update_self]⟩
      · exact ⟨u, by rw [Function.update_of_ne hy, hu]⟩
    by_cases hx : x = b
    · subst hx
      rw [Function.update_self] at hstep
      obtain rfl := Option.some.inj hstep
      exact hold hmoves.parent
    · rw [Function.update_of_ne hx] at hstep
      exact hold (h.closed hstep)
  decreasing {x y} hx hstep := by
    by_cases hxb : x = b
    · subst hxb
      rw [Function.update_self] at hstep
      obtain rfl := Option.some.inj hstep
      exact hmoves.number_lt
    · rw [Function.update_of_ne hxb] at hstep
      exact h.decreasing hx hstep
  injective {x y u v} hx hy heq := by
    by_cases hxb : x = b
    · subst hxb
      by_cases hyb : y = x
      · exact hyb.symm
      · rw [Function.update_of_ne hyb] at hy
        exact hmoves.injective hy heq
    · rw [Function.update_of_ne hxb] at hx
      by_cases hyb : y = b
      · subst hyb
        exact (hmoves.injective hx heq.symm).symm
      · rw [Function.update_of_ne hyb] at hy
        exact h.injective hx hy heq

/-- Blocks numbered from the moved one on stand above the same blocks as before. -/
theorem above_update_of_le (h : IsTree number doms) (hmoves : Moves number doms b c)
    (habove : Above doms x z) (hle : number b ≤ number z) :
    Above (Function.update doms b (some c)) x z := by
  induction habove using Relation.ReflTransGen.head_induction_on with
  | refl => exact .refl
  | @head x u hstep hrest ih =>
    have hne : x ≠ b := by
      rintro rfl
      have := h.decreasing hmoves.ne_root hstep
      have := h.number_le hrest
      omega
    exact ih.head (by rw [Function.update_of_ne hne, hstep])

/-- What does not stand below the moved block keeps its line. -/
theorem above_update_of_not (habove : Above doms x z) (hnot : ¬Above doms x b) :
    Above (Function.update doms b (some c)) x z := by
  induction habove using Relation.ReflTransGen.head_induction_on with
  | refl => exact .refl
  | @head x u hstep hrest ih =>
    have hne : x ≠ b := fun heq => hnot (heq ▸ .refl)
    exact (ih fun hub => hnot (hub.head hstep)).head (by rw [Function.update_of_ne hne, hstep])

/-- A block before the moved one is not below it. -/
theorem not_above_of_lt (h : IsTree number doms) (hlt : number x < number b) : ¬Above doms x b := by
  intro habove
  have := h.number_le habove
  omega

/-- Lines only get shorter. -/
theorem above_of_update (h : IsTree number doms) (hmoves : Moves number doms b c)
    (habove : Above (Function.update doms b (some c)) x z) : (∃ u, doms x = some u) → Above doms x z := by
  induction habove using Relation.ReflTransGen.head_induction_on with
  | refl => exact fun _ => .refl
  | @head x u hstep hrest ih =>
    rintro ⟨v, hv⟩
    by_cases hne : x = b
    · subst hne
      rw [Function.update_self] at hstep
      obtain rfl := Option.some.inj hstep
      have hup : Above doms x _ := .head hv (hmoves.up hv)
      exact hup.trans (ih hmoves.parent)
    · rw [Function.update_of_ne hne] at hstep
      exact (ih (h.closed hstep)).head hstep

end IsTree

end ShapeLang.Mir
