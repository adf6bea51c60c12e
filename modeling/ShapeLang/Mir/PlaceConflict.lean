import ShapeLang.Mir.Types

/-!
# ShapeLang — what two conflicting places have in common

`Place::conflicts_with` compares two places from the outside in. What a place means is read from its
root: the set of access paths it may denote, where an index step may denote any element. The two
readings meet the same pairs of steps only where the places are equally deep, and even there the
comparison looks at the kind of a step and forgets its field.

  * `Place.steps` — the projections from the root outwards; a place is its root and its steps.
  * `overlaps_extend_iff` — what the comparison computes behind the common prefix of two places.
  * `Denotes`, `AccessOverlap` — the access paths of a place, and when two places have comparable ones.
  * `Comparable` — where the two agree.
-/

namespace ShapeLang.Mir

/-! ## Steps -/

inductive PlaceStep where
  | field (f : FieldIdx)
  | index (idx : Operand)
  | deref
  deriving DecidableEq

namespace Place

def project (base : Place) : PlaceStep → Place
  | .field f => .field base f
  | .index idx => .index base idx
  | .deref => .deref base

/-- The place reached from `base` by more steps. -/
def extend (base : Place) (steps : List PlaceStep) : Place := steps.foldl project base

def steps : Place → List PlaceStep
  | localSlot _ => []
  | field base f => base.steps ++ [.field f]
  | index base idx => base.steps ++ [.index idx]
  | deref base => base.steps ++ [.deref]

variable (base : Place)

@[simp] theorem extend_nil : base.extend [] = base := rfl

variable (σ : List PlaceStep) (a : PlaceStep)

@[simp] theorem extend_concat :
    base.extend (σ ++ [a]) = (base.extend σ).project a := by
  simp [extend]

theorem extend_append (τ : List PlaceStep) : base.extend (σ ++ τ) = (base.extend σ).extend τ := by
  simp [extend]

@[simp] theorem steps_project : (base.project a).steps = base.steps ++ [a] := by
  cases a <;> rfl

theorem steps_extend : (base.extend σ).steps = base.steps ++ σ := by
  induction σ using List.reverseRecOn with
  | nil => simp
  | append_singleton σ a ih => rw [extend_concat, steps_project, ih, List.append_assoc]

theorem extend_steps : ∀ p : Place, (localSlot p.rootLocal).extend p.steps = p
  | localSlot _ => rfl
  | field base f => by
    show (localSlot base.rootLocal).extend (base.steps ++ [.field f]) = base.project (.field f)
    rw [extend_concat, extend_steps base]
  | index base idx => by
    show (localSlot base.rootLocal).extend (base.steps ++ [.index idx]) = base.project (.index idx)
    rw [extend_concat, extend_steps base]
  | deref base => by
    show (localSlot base.rootLocal).extend (base.steps ++ [.deref]) = base.project .deref
    rw [extend_concat, extend_steps base]

theorem extend_inj {base : Place} {σ τ : List PlaceStep} : base.extend σ = base.extend τ ↔ σ = τ := by
  constructor
  · intro h
    have hsteps := congrArg steps h
    rw [steps_extend, steps_extend] at hsteps
    exact List.append_cancel_left hsteps
  · rintro rfl
    rfl

theorem isPrefixOf_project (p base : Place) (a : PlaceStep) :
    p.isPrefixOf (base.project a) = (p == base.project a || p.isPrefixOf base) := by
  cases a <;> rfl

/-- A prefix is a place from which some more steps lead on. -/
theorem isPrefixOf_iff {p q : Place} : p.isPrefixOf q = true ↔ ∃ τ, q = p.extend τ := by
  constructor
  · intro h
    rw [← extend_steps q] at h ⊢
    generalize q.steps = σ at h ⊢
    induction σ using List.reverseRecOn with
    | nil =>
      have heq : p = localSlot q.rootLocal := by simpa [isPrefixOf] using h
      exact ⟨[], heq.symm⟩
    | append_singleton σ a ih =>
      rw [extend_concat] at h ⊢
      rw [isPrefixOf_project, Bool.or_eq_true, beq_iff_eq] at h
      rcases h with heq | h
      · exact ⟨[], heq.symm⟩
      · obtain ⟨τ, hτ⟩ := ih h
        exact ⟨τ ++ [a], by rw [extend_concat, ← hτ]⟩
  · rintro ⟨τ, rfl⟩
    induction τ using List.reverseRecOn with
    | nil => exact isPrefixOf_self p
    | append_singleton τ a ih => rw [extend_concat, isPrefixOf_project, ih, Bool.or_true]

theorem isPrefixOf_extend {base : Place} {σ τ : List PlaceStep} :
    (base.extend σ).isPrefixOf (base.extend τ) = true ↔ σ <+: τ := by
  rw [isPrefixOf_iff]
  constructor
  · rintro ⟨ρ, h⟩
    rw [← extend_append] at h
    exact ⟨ρ, (extend_inj.mp h).symm⟩
  · rintro ⟨ρ, rfl⟩
    exact ⟨ρ, extend_append base σ ρ⟩

end Place

/-! ## The comparison from the outside in -/

namespace PlaceStep

/-- Two fields or two index steps, whichever they are. -/
def sameKind : PlaceStep → PlaceStep → Bool
  | .field _, .field _ => true
  | .index _, .index _ => true
  | _, _ => false

def isIndex : PlaceStep → Bool
  | .index _ => true
  | _ => false

end PlaceStep

/-- Read from the outside, the steps pair up by kind until the shorter list is used up. -/
def PairedFromOutside (σ τ : List PlaceStep) : Prop :=
  ∀ x ∈ σ.reverse.zip τ.reverse, PlaceStep.sameKind x.1 x.2 = true

instance (σ τ : List PlaceStep) : Decidable (PairedFromOutside σ τ) :=
  inferInstanceAs (Decidable (∀ x ∈ σ.reverse.zip τ.reverse, PlaceStep.sameKind x.1 x.2 = true))

theorem pairedFromOutside_concat {σ τ : List PlaceStep} {a b : PlaceStep} :
    PairedFromOutside (σ ++ [a]) (τ ++ [b]) ↔ PlaceStep.sameKind a b = true ∧ PairedFromOutside σ τ := by
  simp [PairedFromOutside]

theorem pairedFromOutside_nil_left (τ : List PlaceStep) : PairedFromOutside [] τ := by
  simp [PairedFromOutside]

theorem pairedFromOutside_nil_right (σ : List PlaceStep) : PairedFromOutside σ [] := by
  simp [PairedFromOutside]

namespace Place

/-- The comparison of two places by their last steps. -/
theorem overlaps_project (p q : Place) (a b : PlaceStep) : (p.project a).overlaps (q.project b) =
    if PlaceStep.sameKind a b then
      if a.isIndex then p.overlaps q else if p = q then a == b else p.overlaps q
    else (p.project a).isPrefixOf (q.project b) || (q.project b).isPrefixOf (p.project a) := by
  cases a <;> cases b <;> simp [project, overlaps, PlaceStep.sameKind, PlaceStep.isIndex]
  split <;> simp [Bool.beq_eq_decide_eq]

theorem overlaps_local_project (s : SlotId) (q : Place) (b : PlaceStep) :
    (localSlot s).overlaps (q.project b) =
      ((localSlot s).isPrefixOf (q.project b) || (q.project b).isPrefixOf (localSlot s)) ∧
    (q.project b).overlaps (localSlot s) =
      ((q.project b).isPrefixOf (localSlot s) || (localSlot s).isPrefixOf (q.project b)) := by
  cases b <;> exact ⟨rfl, rfl⟩

/-- A place overlaps its extensions, from either side. -/
theorem overlaps_of_isPrefixOf (s : SlotId) (σ τ : List PlaceStep) :
    ((localSlot s).extend σ).overlaps ((localSlot s).extend (σ ++ τ)) = true ∧
      ((localSlot s).extend (σ ++ τ)).overlaps ((localSlot s).extend σ) = true := by
  have hprefix : ((localSlot s).extend σ).isPrefixOf ((localSlot s).extend (σ ++ τ)) = true :=
    isPrefixOf_extend.mpr ⟨τ, rfl⟩
  -- on the steps of the shorter place; the longer one keeps at least one more step
  induction σ using List.reverseRecOn generalizing τ with
  | nil =>
    cases τ using List.reverseRecOn with
    | nil => simp [overlaps]
    | append_singleton τ b =>
      rw [List.nil_append, extend_concat] at hprefix ⊢
      obtain ⟨hl, hr⟩ := overlaps_local_project s ((localSlot s).extend τ) b
      rw [extend_nil] at hprefix ⊢
      rw [hl, hr, hprefix]
      simp
  | append_singleton σ a ih =>
    have hrec : ∀ ρ, ((localSlot s).extend σ).overlaps ((localSlot s).extend (σ ++ ρ)) = true ∧
        ((localSlot s).extend (σ ++ ρ)).overlaps ((localSlot s).extend σ) = true :=
      fun ρ => ih ρ (isPrefixOf_extend.mpr ⟨ρ, rfl⟩)
    cases τ using List.reverseRecOn with
    | nil =>
      have hself := (hrec []).1
      rw [List.append_nil] at hself ⊢
      rw [extend_concat, overlaps_project]
      simp [hself]
    | append_singleton τ b =>
      have hlonger := hrec (a :: τ)
      have hne : (localSlot s).extend σ ≠ (localSlot s).extend (σ ++ a :: τ) := by
        intro heq
        have hlen := congrArg List.length (extend_inj.mp heq)
        simp at hlen
      rw [← List.append_assoc, extend_concat, extend_concat] at hprefix ⊢
      rw [show σ ++ [a] ++ τ = σ ++ a :: τ by simp] at hprefix ⊢
      rw [overlaps_project, overlaps_project, if_neg hne, if_neg (Ne.symm hne), hlonger.1,
        hlonger.2, hprefix]
      simp

theorem not_prefix_of_ne {γ σ τ : List PlaceStep} {a b : PlaceStep} (hab : a ≠ b) :
    ¬ γ ++ a :: σ <+: γ ++ b :: τ := by
  rw [List.prefix_append_right_inj, List.cons_prefix_cons]
  exact fun h => hab h.1

/-- One step of the comparison, for places of which neither is a prefix of the other. -/
theorem overlaps_concat {s : SlotId} {σ τ : List PlaceStep} {c d : PlaceStep} (hl : ¬ σ ++ [c] <+: τ ++ [d])
    (hr : ¬ τ ++ [d] <+: σ ++ [c]) :
    ((localSlot s).extend (σ ++ [c])).overlaps ((localSlot s).extend (τ ++ [d])) = true ↔
      PlaceStep.sameKind c d = true ∧ (c.isIndex = true ∨ σ ≠ τ) ∧
        ((localSlot s).extend σ).overlaps ((localSlot s).extend τ) = true := by
  have hl' : ¬ ((localSlot s).extend (σ ++ [c])).isPrefixOf ((localSlot s).extend (τ ++ [d])) = true :=
    fun h => hl (isPrefixOf_extend.mp h)
  have hr' : ¬ ((localSlot s).extend (τ ++ [d])).isPrefixOf ((localSlot s).extend (σ ++ [c])) = true :=
    fun h => hr (isPrefixOf_extend.mp h)
  rw [extend_concat, extend_concat] at hl' hr' ⊢
  rw [overlaps_project]
  by_cases hkind : PlaceStep.sameKind c d = true
  · rw [if_pos hkind]
    by_cases hindex : c.isIndex = true
    · simp [hkind, hindex]
    · rw [if_neg hindex]
      by_cases hσ : σ = τ
      · -- two fields of one base: they differ, or the places would be equal
        subst hσ
        have hcd : c ≠ d := fun h => hl (h ▸ List.prefix_rfl)
        simp [hcd, hindex]
      · rw [if_neg fun h => hσ (extend_inj.mp h)]
        simp [hkind, hσ]
  · rw [if_neg hkind]
    simp [hkind, hl', hr']

/-- **What the comparison computes.** Behind the common prefix of two places, where their steps
differ at once, they overlap if the steps pair up from the outside; places of one depth must in
addition differ first in an index. -/
theorem overlaps_extend_iff {s : SlotId} {γ σ τ : List PlaceStep} {a b : PlaceStep} (hab : a ≠ b) :
    ((localSlot s).extend (γ ++ a :: σ)).overlaps ((localSlot s).extend (γ ++ b :: τ)) = true ↔
      PairedFromOutside (a :: σ) (b :: τ) ∧ (σ.length = τ.length → a.isIndex = true) := by
  have hl : ¬ γ ++ a :: σ <+: γ ++ b :: τ := not_prefix_of_ne hab
  have hr : ¬ γ ++ b :: τ <+: γ ++ a :: σ := not_prefix_of_ne (Ne.symm hab)
  -- by the depth of the two places: the outermost steps are compared first, and then the rest
  induction σ using List.reverseRecOn generalizing τ with
  | nil =>
    cases τ using List.reverseRecOn with
    | nil =>
      rw [overlaps_concat hl hr]
      have hself := (overlaps_of_isPrefixOf s γ []).1
      rw [List.append_nil] at hself
      have hpair := @pairedFromOutside_concat [] [] a b
      rw [List.nil_append, List.nil_append] at hpair
      simp [hself, hpair, pairedFromOutside_nil_left]
    | append_singleton τ d =>
      have hlonger := (overlaps_of_isPrefixOf s γ (b :: τ)).1
      rw [← List.cons_append, ← List.append_assoc] at hl hr ⊢
      rw [overlaps_concat hl hr]
      have hpair := @pairedFromOutside_concat [] (b :: τ) a d
      rw [List.nil_append, List.cons_append] at hpair
      simp [hlonger, hpair, pairedFromOutside_nil_left]
  | append_singleton σ c ih =>
    cases τ using List.reverseRecOn with
    | nil =>
      have hlonger := (overlaps_of_isPrefixOf s γ (a :: σ)).2
      rw [← List.cons_append, ← List.append_assoc] at hl hr ⊢
      rw [overlaps_concat hl hr]
      have hpair := @pairedFromOutside_concat (a :: σ) [] c b
      rw [List.nil_append, List.cons_append] at hpair
      simp [hlonger, hpair, pairedFromOutside_nil_right]
    | append_singleton τ d =>
      -- of equal depth so far, the places below still differ at the same step
      have hne : γ ++ a :: σ ≠ γ ++ b :: τ := by
        intro h
        exact hab (List.cons.inj (List.append_cancel_left h)).1
      rw [← List.cons_append, ← List.cons_append, ← List.append_assoc, ← List.append_assoc] at hl hr ⊢
      have hrec : ((localSlot s).extend (γ ++ a :: σ)).overlaps
          ((localSlot s).extend (γ ++ b :: τ)) = true ↔
          PairedFromOutside (a :: σ) (b :: τ) ∧ (σ.length = τ.length → a.isIndex = true) :=
        ih (not_prefix_of_ne hab) (not_prefix_of_ne (Ne.symm hab))
      have hpair := @pairedFromOutside_concat (a :: σ) (b :: τ) c d
      rw [overlaps_concat hl hr, hrec, hpair]
      simp [hne, and_assoc]

end Place

/-! ## The access paths of a place -/

inductive AccessStep where
  | field (f : FieldIdx)
  | element (n : Nat)
  | deref
  deriving DecidableEq

structure AccessPath where
  root : SlotId
  steps : List AccessStep

/-- What a step may lead to: an index operand may have any value. -/
inductive PlaceStep.Denotes : PlaceStep → AccessStep → Prop
  | field (f : FieldIdx) : Denotes (.field f) (.field f)
  | index (idx : Operand) (n : Nat) : Denotes (.index idx) (.element n)
  | deref : Denotes .deref .deref

def Place.Denotes (p : Place) (path : AccessPath) : Prop :=
  path.root = p.rootLocal ∧ List.Forall₂ PlaceStep.Denotes p.steps path.steps

/-- Some access path of one place is a prefix of an access path of the other. -/
def Place.AccessOverlap (p q : Place) : Prop :=
  ∃ a b, p.Denotes a ∧ q.Denotes b ∧ a.root = b.root ∧ (a.steps <+: b.steps ∨ b.steps <+: a.steps)

/-- Two steps that may lead to the same place. -/
def PlaceStep.matches : PlaceStep → PlaceStep → Bool
  | .field f, .field g => f == g
  | .index _, .index _ => true
  | .deref, .deref => true
  | _, _ => false

/-- Read from the root, the steps match until the shorter list is used up. -/
def MatchedFromRoot (σ τ : List PlaceStep) : Prop := ∀ x ∈ σ.zip τ, x.1.matches x.2 = true

instance (σ τ : List PlaceStep) : Decidable (MatchedFromRoot σ τ) :=
  inferInstanceAs (Decidable (∀ x ∈ σ.zip τ, x.1.matches x.2 = true))

variable {σ τ : List PlaceStep} {a b : PlaceStep}

theorem matchedFromRoot_cons :
    MatchedFromRoot (a :: σ) (b :: τ) ↔ a.matches b = true ∧ MatchedFromRoot σ τ := by
  simp [MatchedFromRoot]

theorem PlaceStep.matches_iff : a.matches b = true ↔ ∃ x, a.Denotes x ∧ b.Denotes x := by
  constructor
  · intro h
    match a, b with
    | .field f, .field g =>
      obtain rfl : f = g := by simpa [PlaceStep.matches] using h
      exact ⟨.field f, .field f, .field f⟩
    | .index i, .index j => exact ⟨.element 0, .index i 0, .index j 0⟩
    | .deref, .deref => exact ⟨.deref, .deref, .deref⟩
  · rintro ⟨x, ha, hb⟩
    cases ha <;> cases hb <;> simp [PlaceStep.matches]

theorem exists_denoted (σ : List PlaceStep) : ∃ α, List.Forall₂ PlaceStep.Denotes σ α := by
  induction σ with
  | nil => exact ⟨[], .nil⟩
  | cons a σ ih =>
    obtain ⟨α, hα⟩ := ih
    obtain ⟨x, hx, -⟩ :=
      PlaceStep.matches_iff.mp (show a.matches a = true by cases a <;> simp [PlaceStep.matches])
    exact ⟨x :: α, .cons hx hα⟩

/-- Two lists of steps denote comparable paths if they match from the root. -/
theorem matchedFromRoot_iff : MatchedFromRoot σ τ ↔
    ∃ α β, List.Forall₂ PlaceStep.Denotes σ α ∧ List.Forall₂ PlaceStep.Denotes τ β ∧
      (α <+: β ∨ β <+: α) := by
  induction σ generalizing τ with
  | nil =>
    obtain ⟨β, hβ⟩ := exists_denoted τ
    exact ⟨fun _ => ⟨[], β, .nil, hβ, Or.inl List.nil_prefix⟩, fun _ => by simp [MatchedFromRoot]⟩
  | cons a σ ih =>
    cases τ with
    | nil =>
      obtain ⟨α, hα⟩ := exists_denoted (a :: σ)
      exact ⟨fun _ => ⟨α, [], hα, .nil, Or.inr List.nil_prefix⟩, fun _ => by simp [MatchedFromRoot]⟩
    -- the first steps can denote one key, and the rest matches
    | cons b τ =>
      rw [matchedFromRoot_cons, ih, PlaceStep.matches_iff]
      constructor
      · rintro ⟨⟨x, hax, hbx⟩, α, β, hα, hβ, hprefix⟩
        refine ⟨x :: α, x :: β, .cons hax hα, .cons hbx hβ, ?_⟩
        simpa [List.cons_prefix_cons] using hprefix
      · rintro ⟨α, β, hα, hβ, hprefix⟩
        cases hα with
        | @cons _ x _ α hax hα =>
          cases hβ with
          | @cons _ y _ β hby hβ =>
            rw [List.cons_prefix_cons, List.cons_prefix_cons] at hprefix
            rcases hprefix with ⟨rfl, hprefix⟩ | ⟨rfl, hprefix⟩
            · exact ⟨⟨x, hax, hby⟩, α, β, hα, hβ, Or.inl hprefix⟩
            · exact ⟨⟨y, hax, hby⟩, α, β, hα, hβ, Or.inr hprefix⟩

theorem Place.accessOverlap_iff {p q : Place} (hroot : p.rootLocal = q.rootLocal) :
    p.AccessOverlap q ↔ MatchedFromRoot p.steps q.steps := by
  rw [matchedFromRoot_iff]
  constructor
  · rintro ⟨a, b, ⟨-, ha⟩, ⟨-, hb⟩, -, hprefix⟩
    exact ⟨a.steps, b.steps, ha, hb, hprefix⟩
  · rintro ⟨α, β, hα, hβ, hprefix⟩
    exact ⟨⟨p.rootLocal, α⟩, ⟨q.rootLocal, β⟩, ⟨rfl, hα⟩, ⟨rfl, hβ⟩, hroot, hprefix⟩

/-! ## Where the comparison is right -/

/-- What remains of two lists behind their longest common prefix. -/
def remainders : List PlaceStep → List PlaceStep → List PlaceStep × List PlaceStep
  | a :: σ, b :: τ => if a = b then remainders σ τ else (a :: σ, b :: τ)
  | σ, τ => (σ, τ)

/-- Two places whose conflict is decided by the kinds of their steps from the outside. Behind the
common prefix, either nothing remains of one of them; or they part in steps that are not both index
steps, and then they are equally deep or a pair of steps from the outside is of different kinds; or
they part in two index operands, and then the pairing from the outside succeeds just where the steps
match from the root. -/
def Place.Comparable (p q : Place) : Prop :=
  match remainders p.steps q.steps with
  | (a :: σ, b :: τ) =>
      if a.isIndex && b.isIndex then PairedFromOutside (a :: σ) (b :: τ) ↔ MatchedFromRoot σ τ
      else σ.length = τ.length ∨ ¬ PairedFromOutside (a :: σ) (b :: τ)
  | _ => True

theorem remainders_spec (σ τ : List PlaceStep) :
    ∃ γ, σ = γ ++ (remainders σ τ).1 ∧ τ = γ ++ (remainders σ τ).2 ∧
    ∀ a σ' b τ', remainders σ τ = (a :: σ', b :: τ') → a ≠ b := by
  induction σ, τ using remainders.induct with
  | case1 σ a τ ih =>
    obtain ⟨γ, hσ, hτ, hne⟩ := ih
    rw [remainders, if_pos rfl]
    exact ⟨a :: γ, by rw [List.cons_append, ← hσ], by rw [List.cons_append, ← hτ], hne⟩
  | case2 a σ b τ hab =>
    rw [remainders, if_neg hab]
    refine ⟨[], rfl, rfl, ?_⟩
    rintro a' σ' b' τ' ⟨⟩
    exact hab
  | case3 σ τ hcons =>
    have heq : remainders σ τ = (σ, τ) := by
      match σ, τ, hcons with
      | [], _, _ => rw [remainders]; simp
      | _ :: _, [], _ => rw [remainders]; simp
      | a :: σ, b :: τ, hcons => exact absurd rfl (hcons a σ b τ rfl)
    rw [heq]
    refine ⟨[], rfl, rfl, ?_⟩
    rintro a σ' b τ' ⟨⟩
    exact absurd rfl (hcons a σ' b τ' rfl)

theorem sameKind_of_isIndex (ha : a.isIndex = true) (hb : b.isIndex = true) :
    PlaceStep.sameKind a b = true ∧ a.matches b = true := by
  cases a <;> cases b <;> simp_all [PlaceStep.isIndex, PlaceStep.sameKind, PlaceStep.matches]

/-- Distinct steps match only if both are index steps. -/
theorem matches_eq_false_of_ne (hab : a ≠ b) (h : ¬ (a.isIndex && b.isIndex) = true) :
    a.matches b = false := by
  cases a <;> cases b <;> simp_all [PlaceStep.isIndex, PlaceStep.matches]

theorem matchedFromRoot_append (γ σ τ : List PlaceStep) :
    MatchedFromRoot (γ ++ σ) (γ ++ τ) ↔ MatchedFromRoot σ τ := by
  induction γ with
  | nil => rfl
  | cons a γ ih =>
    have hself : a.matches a = true := by cases a <;> simp [PlaceStep.matches]
    rw [List.cons_append, List.cons_append, matchedFromRoot_cons, ih]
    simp [hself]

/-- The last pair of a pairing of lists of one length is the first pair of steps. -/
theorem sameKind_of_pairedFromOutside (hlen : σ.length = τ.length)
    (h : PairedFromOutside (a :: σ) (b :: τ)) :
    PlaceStep.sameKind a b = true := by
  refine h (a, b) ?_
  rw [List.reverse_cons, List.reverse_cons, List.zip_append (by simp [hlen])]
  simp

/-- **Where a conflict is decided rightly.** Two places of one root are reported to conflict exactly
when they have comparable access paths, if and only if they are `Comparable`. -/
theorem Place.conflictsWith_exact_iff (p q : Place) (hroot : p.rootLocal = q.rootLocal) :
    (p.conflictsWith q = true ↔ p.AccessOverlap q) ↔ p.Comparable q := by
  obtain ⟨γ, hp, hq, hne⟩ := remainders_spec p.steps q.steps
  rw [Place.accessOverlap_iff hroot]
  have hp' : (localSlot p.rootLocal).extend p.steps = p := extend_steps p
  have hq' : (localSlot p.rootLocal).extend q.steps = q := by rw [hroot]; exact extend_steps q
  unfold Place.Comparable
  match hrem : remainders p.steps q.steps with
  | ([], τ) =>
    -- one place is a prefix of the other: both say yes
    rw [hrem] at hp hq
    have hprefix : p.isPrefixOf q = true := by
      rw [← hp', ← hq', isPrefixOf_extend, hp, hq]
      simp
    rw [hp, hq, matchedFromRoot_append]
    simp [conflictsWith, hroot, hprefix, MatchedFromRoot]
  | (a :: σ, []) =>
    rw [hrem] at hp hq
    have hprefix : q.isPrefixOf p = true := by
      rw [← hp', ← hq', isPrefixOf_extend, hp, hq]
      simp
    rw [hp, hq, matchedFromRoot_append]
    simp [conflictsWith, hroot, hprefix, MatchedFromRoot]
  | (a :: σ, b :: τ) =>
    have hab : a ≠ b := hne a σ b τ hrem
    rw [hrem] at hp hq
    have hconflict : p.conflictsWith q = true ↔
        PairedFromOutside (a :: σ) (b :: τ) ∧ (σ.length = τ.length → a.isIndex = true) := by
      have hl : ¬ p.isPrefixOf q = true := by
        rw [← hp', ← hq', isPrefixOf_extend, hp, hq]
        exact not_prefix_of_ne hab
      have hr : ¬ q.isPrefixOf p = true := by
        rw [← hp', ← hq', isPrefixOf_extend, hp, hq]
        exact not_prefix_of_ne (Ne.symm hab)
      have hoverlaps := @overlaps_extend_iff p.rootLocal γ σ τ a b hab
      rw [← hp, ← hq, hp', hq'] at hoverlaps
      rw [← hoverlaps]
      simp [conflictsWith, hroot, hl, hr]
    rw [hconflict, hp, hq, matchedFromRoot_append, matchedFromRoot_cons]
    simp only
    by_cases hindex : (a.isIndex && b.isIndex) = true
    · rw [if_pos hindex]
      obtain ⟨ha, hb⟩ := Bool.and_eq_true_iff.mp hindex
      simp [ha, (sameKind_of_isIndex ha hb).2]
    · rw [if_neg hindex, matches_eq_false_of_ne hab hindex]
      -- the places are disjoint, so the comparison is right where it says no
      have hlast : PairedFromOutside (a :: σ) (b :: τ) → σ.length = τ.length → ¬ a.isIndex = true := by
        intro hpaired hlen ha
        have hkind := sameKind_of_pairedFromOutside hlen hpaired
        apply hindex
        cases a <;> cases b <;> simp_all [PlaceStep.isIndex, PlaceStep.sameKind]
      simp only [Bool.false_eq_true, false_and, iff_false, not_and]
      constructor
      · intro h
        by_contra hor
        rw [not_or, not_not] at hor
        exact h hor.2 fun hlen => absurd hlen hor.1
      · rintro (hlen | hpaired) hpaired' ha
        · exact hlast hpaired' hlen (ha hlen)
        · exact hpaired hpaired'

/-- `x[i].a` and `x[j]`, with `x`, `i` and `j` in the slots 1, 2 and 3. -/
theorem conflictsWith_misses_element :
    ¬ ∀ p q : Place, p.rootLocal = q.rootLocal → (p.conflictsWith q = true ↔ p.AccessOverlap q) := by
  intro h
  let p : Place := .field (.index (.localSlot 1) (.copy (.localSlot 2))) 0
  let q : Place := .index (.localSlot 1) (.copy (.localSlot 3))
  have hroot : p.rootLocal = q.rootLocal := rfl
  have hoverlap : p.AccessOverlap q := (Place.accessOverlap_iff hroot).mpr (by decide)
  have hconflict := (h p q hroot).mpr hoverlap
  revert hconflict
  decide

/-- Two fields of a local conflict exactly if they are one field. -/
theorem conflictsWith_exact_fields :
    (Place.field (.localSlot 1) 0).conflictsWith (.field (.localSlot 1) 2) = true ↔
      (Place.field (.localSlot 1) 0).AccessOverlap (.field (.localSlot 1) 2) :=
  (Place.conflictsWith_exact_iff (.field (.localSlot 1) 0) (.field (.localSlot 1) 2) rfl).mpr (Or.inl rfl)

end ShapeLang.Mir
