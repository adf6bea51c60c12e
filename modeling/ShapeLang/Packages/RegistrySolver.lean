import ShapeLang.Lib.Demand
import ShapeLang.Packages.Registry

/-!
# The registry solver solves the registry's selection problem

An index and a set of constraints pose a selection problem (`solverProblem`): the constrained
packages are wanted, each listed version is on offer, and a selected version asks for its
dependencies. The solver refines the search of that problem: its constraint map holds exactly what
the current selection demands (`Exact`), so that its candidates are the values that a solution above
the current selection can choose.
-/

namespace ShapeLang.Packages

open ShapeLang.Lib

variable {V R : Type} {semver : Semver V R} {registry : RegistryIndex} {order : HashOrder String}

/-! ## The problem behind an index -/

section

variable (semver registry)

/-- The version depends on `p` with the requirement `r`. -/
def Asks (e : RegistrySelection V) (p : String) (r : R) : Prop :=
  ∃ spec str, e.dependencies.lookup p = some spec ∧ registryRequirementForSpec spec = some str ∧
    semver.parseReq str = .ok r

/-- Every dependency of the version is a registry requirement. -/
def Usable (e : RegistrySelection V) : Prop :=
  ∀ p spec, e.dependencies.lookup p = some spec → ∃ r, Asks semver e p r

/-- The index lists the version for the package. -/
def Listed (p : String) (e : RegistrySelection V) : Prop :=
  ∃ all, registryCandidatesFor semver registry p [] = .ok all ∧ e ∈ all

def solverProblem (constraints : HashMap String (List R)) : Problem String (RegistrySelection V) R where
  wanted p := p ∈ constraints
  required p r := r ∈ reqsOf constraints p
  offers p e := Listed semver registry p e ∧ Usable semver e
  asks := Asks semver
  meets r e := semver.reqMatches r e.version = true

end

/-- The selections as a partial function. -/
def selection (selected : HashMap String (RegistrySelection V)) : String → Option (RegistrySelection V) :=
  fun p => selected.lookup p

theorem selection_insert (selected : HashMap String (RegistrySelection V)) (p : String)
    (e : RegistrySelection V) :
    selection (selected.insert p e) = Function.update (selection selected) p (some e) := by
  funext q
  by_cases hqp : q = p
  · subst hqp
    rw [Function.update_self]
    exact AList.lookup_insert _
  · rw [Function.update_of_ne hqp]
    exact AList.lookup_insert_ne hqp

/-! ## Candidates -/

theorem collectCandidates_eq (package : String) (reqs : List R) (records : List RegistryVersionRecord) :
    collectCandidates semver package reqs records =
      (collectCandidates semver package [] records).map
        (List.filter fun e => reqs.all fun req => semver.reqMatches req e.version) := by
  induction records with
  | nil => rfl
  | cons record rest ih =>
    unfold collectCandidates
    by_cases hyanked : record.yanked = true
    · rw [if_pos hyanked, if_pos hyanked]
      exact ih
    · rw [if_neg hyanked, if_neg hyanked]
      cases semver.parseVersion record.version with
      | error err => rfl
      | ok version =>
        show (collectCandidates semver package reqs rest >>= _) = _
        rw [ih]
        cases collectCandidates semver package [] rest with
        | error err => rfl
        | ok all =>
          show (if (reqs.all fun req => semver.reqMatches req version) = true then _ else _) = Except.ok _
          by_cases hreqs : (reqs.all fun req => semver.reqMatches req version) = true
          · rw [if_pos hreqs, List.filter_cons, if_pos hreqs]
          · rw [if_neg hreqs, List.filter_cons, if_neg hreqs]

variable {reqs : List R}

/-- The candidates depend on the requirements only as a set. -/
theorem registryCandidatesFor_congr (package : String) {reqs' : List R} (h : ∀ r, r ∈ reqs ↔ r ∈ reqs') :
    registryCandidatesFor semver registry package reqs = registryCandidatesFor semver registry
      package reqs' := by
  have hall : ∀ e : RegistrySelection V, (reqs.all fun req => semver.reqMatches req e.version) =
      reqs'.all fun req => semver.reqMatches req e.version := by
    intro e
    rw [Bool.eq_iff_iff, List.all_eq_true, List.all_eq_true]
    exact forall_congr' fun r => imp_congr_left (h r)
  unfold registryCandidatesFor
  cases loadRegistryIndex registry package with
  | error err => rfl
  | ok index =>
    show (if _ then _ else _) = (if _ then _ else _)
    rw [collectCandidates_eq package reqs, collectCandidates_eq package reqs', funext hall]

variable (semver registry) in
/-- What loading and filtering can give. -/
theorem registryCandidatesFor_cases (package : String) (reqs : List R) :
    (∃ err, registryCandidatesFor semver registry package reqs = .error err ∧
      ∃ err', registryCandidatesFor semver registry package ([] : List R) = .error err') ∨
    ∃ cands all, registryCandidatesFor semver registry package reqs = .ok cands ∧
      registryCandidatesFor semver registry package [] = .ok all ∧
      cands.Perm (all.filter fun e => reqs.all fun req => semver.reqMatches req e.version) := by
  unfold registryCandidatesFor
  cases loadRegistryIndex registry package with
  | error err => exact Or.inl ⟨err, rfl, err, rfl⟩
  | ok index =>
    simp only [bind, Except.bind]
    by_cases hname : (index.package.any fun x => decide (x ≠ package)) = true
    · simp only [if_pos hname]
      exact Or.inl ⟨_, rfl, _, rfl⟩
    · simp only [if_neg hname]
      rw [collectCandidates_eq package reqs]
      cases collectCandidates semver package ([] : List R) index.versions with
      | error err => exact Or.inl ⟨err, rfl, err, rfl⟩
      | ok out =>
        refine Or.inr ⟨_, _, rfl, rfl, (List.perm_insertionSort _ _).trans ?_⟩
        exact ((List.perm_insertionSort _ out).filter _).symm

theorem mem_candidates {package : String} {cands : List (RegistrySelection V)}
    (h : registryCandidatesFor semver registry package reqs = .ok cands) (e : RegistrySelection V) :
    e ∈ cands ↔ Listed semver registry package e ∧ ∀ r ∈ reqs, semver.reqMatches r e.version = true := by
  rcases registryCandidatesFor_cases semver registry package reqs with
    ⟨err, herr, -⟩ | ⟨cands', all, hcands, hall, hperm⟩
  · rw [h] at herr
    cases herr
  · obtain rfl := Except.ok.inj (h.symm.trans hcands)
    rw [hperm.mem_iff, List.mem_filter, List.all_eq_true]
    refine and_congr_left fun _ => ⟨fun he => ⟨all, hall, he⟩, ?_⟩
    rintro ⟨all', hall', he⟩
    rw [Except.ok.inj (hall.symm.trans hall')]
    exact he

variable {err : String}

theorem not_listed_of_error {package : String}
    (h : registryCandidatesFor semver registry package reqs = .error err)
    (e : RegistrySelection V) :
    ¬ Listed semver registry package e := by
  rintro ⟨all, hall, -⟩
  rcases registryCandidatesFor_cases semver registry package reqs with
    ⟨-, -, err', herr'⟩ | ⟨cands, -, hcands, -⟩
  · exact absurd (hall.symm.trans herr') (by simp)
  · exact absurd (h.symm.trans hcands) (by simp)

theorem mem_files_of_listed {package : String} {e : RegistrySelection V}
    (h : Listed semver registry package e) :
    package ∈ registry.files := by
  obtain ⟨all, hall, -⟩ := h
  by_contra hnot
  have hload : ∃ err, loadRegistryIndex registry package = .error err := by
    unfold loadRegistryIndex
    rw [AList.lookup_eq_none.mpr hnot]
    exact ⟨_, rfl⟩
  obtain ⟨err, herr⟩ := hload
  unfold registryCandidatesFor at hall
  rw [herr] at hall
  cases hall

/-! ## One pass -/

/-- The edge's dependency asks for `p` with `r`. -/
def EdgeAsks (semver : Semver V R) (edge : DependencyEdge V) (p : String) (r : R) : Prop :=
  p = edge.depName ∧ ∃ str, registryRequirementForSpec edge.depSpec = some str ∧ semver.parseReq str = .ok r

variable {point : List Nat}

theorem mem_dependencyEdges {selected : HashMap String (RegistrySelection V)} {edge : DependencyEdge V} :
    edge ∈ dependencyEdges order point selected ↔
      ∃ e, selected.lookup edge.pkgName = some e ∧ edge.pkgVersion = e.version ∧
        e.dependencies.lookup edge.depName = some edge.depSpec := by
  unfold dependencyEdges
  rw [List.mem_flatMap]
  constructor
  · rintro ⟨⟨pkgName, i⟩, -, hedge⟩
    cases hlookup : selected.lookup pkgName with
    | none =>
      simp only [hlookup] at hedge
      exact absurd hedge List.not_mem_nil
    | some e =>
      simp only [hlookup, List.mem_filterMap, Option.map_eq_some_iff] at hedge
      obtain ⟨depName, -, depSpec, hspec, rfl⟩ := hedge
      exact ⟨e, hlookup, rfl, hspec⟩
  -- the walk goes over all packages and all their dependencies, in any order
  · rintro ⟨e, hlookup, hversion, hspec⟩
    have hname : edge.pkgName ∈ order.walk (0 :: point) selected.keys := by
      rw [(order.perm _ _).mem_iff]
      exact AList.mem_keys.mp (AList.lookup_isSome.mp (by rw [hlookup]; rfl))
    obtain ⟨i, hi⟩ := List.mem_iff_getElem?.mp hname
    refine ⟨(edge.pkgName, i), List.mk_mem_zipIdx_iff_getElem?.mpr hi, ?_⟩
    simp only [hlookup, List.mem_filterMap, Option.map_eq_some_iff]
    refine ⟨edge.depName, ?_, edge.depSpec, hspec, ?_⟩
    · rw [(order.perm _ _).mem_iff]
      exact AList.mem_keys.mp (AList.lookup_isSome.mp (by rw [hspec]; rfl))
    · rw [← hversion]

/-- The constraint map grows by the requirements in `Added`, and by nothing else. -/
structure Grows (constraints constraints' : HashMap String (List R)) (Added : String → R → Prop) :
    Prop where
  keys : ∀ p, p ∈ constraints' ↔ p ∈ constraints ∨ ∃ r, Added p r
  reqs : ∀ p r, r ∈ reqsOf constraints' p ↔ r ∈ reqsOf constraints p ∨ Added p r

variable {p : String} {constraints : HashMap String (List R)}

theorem mem_of_mem_reqsOf {r : R} (h : r ∈ reqsOf constraints p) :
    p ∈ constraints := by
  by_contra hnot
  unfold reqsOf at h
  rw [AList.lookup_eq_none.mpr hnot] at h
  exact absurd h List.not_mem_nil

theorem Grows.trans {c₁ c₂ c₃ : HashMap String (List R)} {A B : String → R → Prop} (h₁ : Grows c₁ c₂ A)
    (h₂ : Grows c₂ c₃ B) : Grows c₁ c₃ fun p r => A p r ∨ B p r := by
  constructor
  · intro p
    rw [h₂.keys, h₁.keys]
    constructor
    · rintro ((h | ⟨r, h⟩) | ⟨r, h⟩)
      · exact Or.inl h
      · exact Or.inr ⟨r, Or.inl h⟩
      · exact Or.inr ⟨r, Or.inr h⟩
    · rintro (h | ⟨r, h | h⟩)
      · exact Or.inl (Or.inl h)
      · exact Or.inl (Or.inr ⟨r, h⟩)
      · exact Or.inr ⟨r, h⟩
  · intro p r
    rw [h₂.reqs, h₁.reqs, or_assoc]

theorem parseVersionReq_eq_ok {name req : String} {r : R} :
    parseVersionReq semver name req = .ok r ↔ semver.parseReq req = .ok r := by
  unfold parseVersionReq
  cases semver.parseReq req with
  | ok parsed => exact Iff.rfl
  | error err => exact ⟨fun h => (by cases h), fun h => (by cases h)⟩

variable [DecidableEq R]

theorem addRequirement_grows (constraints : HashMap String (List R)) (p : String) (r : R) :
    Grows constraints (addRequirement constraints p r).1 fun p' r' => p' = p ∧ r' = r := by
  unfold addRequirement
  by_cases hmem : r ∈ reqsOf constraints p
  -- the requirement is there already: nothing changes
  · rw [if_pos hmem]
    refine ⟨fun p' => ⟨Or.inl, ?_⟩, fun p' r' => ⟨Or.inl, ?_⟩⟩
    · rintro (h | ⟨r', rfl, -⟩)
      · exact h
      · exact mem_of_mem_reqsOf hmem
    · rintro (h | ⟨rfl, rfl⟩)
      · exact h
      · exact hmem
  · rw [if_neg hmem]
    constructor
    · intro p'
      rw [AList.mem_insert]
      constructor
      · rintro (rfl | h)
        · exact Or.inr ⟨r, rfl, rfl⟩
        · exact Or.inl h
      · rintro (h | ⟨-, rfl, -⟩)
        · exact Or.inr h
        · exact Or.inl rfl
    · intro p' r'
      by_cases hp : p' = p
      -- only the list of this package grows
      · subst hp
        have hreqs : reqsOf (constraints.insert p' (reqsOf constraints p' ++ [r])) p' =
            reqsOf constraints p' ++ [r] := by
          show ((constraints.insert p' _).lookup p').getD [] = _
          rw [AList.lookup_insert]
          rfl
        rw [hreqs, List.mem_append, List.mem_singleton]
        exact or_congr Iff.rfl ⟨fun h => ⟨rfl, h⟩, fun h => h.2⟩
      · have hreqs : reqsOf (constraints.insert p (reqsOf constraints p ++ [r])) p' =
            reqsOf constraints p' := by
          show ((constraints.insert p _).lookup p').getD [] = _
          rw [AList.lookup_insert_ne hp]
          rfl
        rw [hreqs]
        exact ⟨Or.inl, fun h => h.resolve_right fun h' => hp h'.1⟩

/-- What the second loop of a pass takes in. -/
structure Absorbed (semver : Semver V R) (edges : List (DependencyEdge V))
    (constraints : HashMap String (List R)) (changed : Bool)
    (constraints' : HashMap String (List R)) (changed' : Bool) : Prop where
  grows : Grows constraints constraints' fun p r => ∃ edge ∈ edges, EdgeAsks semver edge p r
  usable : ∀ edge ∈ edges, ∃ r, EdgeAsks semver edge edge.depName r
  unchanged : changed' = false → constraints' = constraints
  settled : (∀ edge ∈ edges, ∀ p r, EdgeAsks semver edge p r → r ∈ reqsOf constraints p) →
    changed' = changed

variable {edges : List (DependencyEdge V)} {c : HashMap String (List R)} {changed : Bool}

theorem absorbed_of_ok {c' : HashMap String (List R)} {changed' : Bool}
    (h : absorbDependencies semver edges c changed = .ok (c', changed')) :
    Absorbed semver edges c changed c' changed' ∧ (changed' = false → changed = false) := by
  induction edges generalizing c changed with
  | nil =>
    obtain ⟨rfl, rfl⟩ := Prod.mk.inj (Except.ok.inj h)
    refine ⟨⟨⟨?_, ?_⟩, ?_, fun _ => rfl, fun _ => rfl⟩, id⟩
    · intro p
      simp
    · intro p r
      simp
    · intro edge hedge
      exact absurd hedge List.not_mem_nil
  | cons edge rest ih =>
    unfold absorbDependencies at h
    cases hspec : registryRequirementForSpec edge.depSpec with
    | none =>
      rw [hspec] at h
      cases h
    | some str =>
      rw [hspec] at h
      obtain ⟨r, hr, hrest⟩ := Fallible.bind_eq_ok.mp h
      have hparse := parseVersionReq_eq_ok.mp hr
      have hrest' : absorbDependencies semver rest (addRequirement c edge.depName r).1
          (changed || (addRequirement c edge.depName r).2) = .ok (c', changed') := hrest
      obtain ⟨⟨hgrows, husable, hunchanged, hsettled⟩, hmono⟩ := ih hrest'
      -- the edge asks for one requirement
      have hedge : ∀ p r', EdgeAsks semver edge p r' ↔ p = edge.depName ∧ r' = r := by
        intro p r'
        constructor
        · rintro ⟨rfl, str', hstr', hr'⟩
          obtain rfl := Option.some.inj (hspec.symm.trans hstr')
          exact ⟨rfl, Except.ok.inj (hr'.symm.trans hparse)⟩
        · rintro ⟨rfl, rfl⟩
          exact ⟨rfl, str, hspec, hparse⟩
      refine ⟨⟨?_, ?_, ?_, ?_⟩, fun hfalse => (Bool.or_eq_false_iff.mp (hmono hfalse)).1⟩
      · have hboth := (addRequirement_grows c edge.depName r).trans hgrows
        constructor
        · intro p
          rw [hboth.keys]
          simp only [List.mem_cons, exists_eq_or_imp, hedge]
        · intro p r'
          rw [hboth.reqs]
          simp only [List.mem_cons, exists_eq_or_imp, hedge]
      · intro edge' hmem
        rcases List.mem_cons.mp hmem with rfl | hmem
        · exact ⟨r, (hedge _ _).mpr ⟨rfl, rfl⟩⟩
        · exact husable edge' hmem
      · intro hfalse
        have hadded := (Bool.or_eq_false_iff.mp (hmono hfalse)).2
        rw [hunchanged hfalse]
        unfold addRequirement at hadded ⊢
        split at hadded
        · rename_i hmem
          rw [if_pos hmem]
        · cases hadded
      · intro hall
        have hmem : r ∈ reqsOf c edge.depName :=
          hall edge List.mem_cons_self _ _ ((hedge _ _).mpr ⟨rfl, rfl⟩)
        have hadd : addRequirement c edge.depName r = (c, false) := if_pos hmem
        rw [hadd] at hsettled
        rw [hsettled fun edge' hmem' => hall edge' (List.mem_cons_of_mem _ hmem'), Bool.or_false]

theorem unusable_of_error (h : absorbDependencies semver edges c changed = .error err) :
    ∃ edge ∈ edges, ∀ r, ¬ EdgeAsks semver edge edge.depName r := by
  induction edges generalizing c changed with
  | nil => cases h
  | cons edge rest ih =>
    unfold absorbDependencies at h
    cases hspec : registryRequirementForSpec edge.depSpec with
    | none =>
      refine ⟨edge, List.mem_cons_self, ?_⟩
      rintro r ⟨-, str, hstr, -⟩
      rw [hspec] at hstr
      cases hstr
    | some str =>
      rw [hspec] at h
      rcases Fallible.bind_eq_error.mp h with hparse | ⟨r, -, hrest⟩
      · refine ⟨edge, List.mem_cons_self, ?_⟩
        rintro r ⟨-, str', hstr', hr⟩
        obtain rfl := Option.some.inj (hspec.symm.trans hstr')
        rw [parseVersionReq_eq_ok.mpr hr] at hparse
        cases hparse
      · obtain ⟨edge', hmem, hnone⟩ := ih hrest
        exact ⟨edge', List.mem_cons_of_mem _ hmem, hnone⟩

variable {names : List String}

omit [DecidableEq R] in
theorem checkSelected_eq_ok {selected : HashMap String (RegistrySelection V)} :
    checkSelected semver constraints selected names = .ok () ↔
      ∀ p ∈ names, ∀ e, selected.lookup p = some e → ∀ r ∈ reqsOf constraints p,
        semver.reqMatches r e.version = true := by
  induction names with
  | nil => simp [checkSelected]
  | cons p rest ih =>
    rw [List.forall_mem_cons]
    unfold checkSelected
    cases hlookup : selected.lookup p with
    | none =>
      show checkSelected semver constraints selected rest = .ok () ↔ _
      rw [ih]
      exact ⟨fun h => ⟨fun e he => (by cases he), h⟩, fun h => h.2⟩
    | some chosen =>
      show (if _ then _ else _) = Except.ok () ↔ _
      by_cases hall : ((reqsOf constraints p).all fun req => semver.reqMatches req chosen.version) = true
      · rw [if_pos hall, ih]
        rw [List.all_eq_true] at hall
        refine ⟨fun h => ⟨fun e he r hr => ?_, h⟩, fun h => h.2⟩
        obtain rfl := Option.some.inj he
        exact hall r hr
      · rw [if_neg hall]
        refine ⟨fun h => (by cases h), fun h => absurd ?_ hall⟩
        exact List.all_eq_true.mpr (h.1 chosen rfl)

/-! ## Propagation -/

variable {init : HashMap String (List R)} {selected : HashMap String (RegistrySelection V)}

/-- The constraint map lies between the constraints from outside and what the selection demands. -/
structure Tracks (problem : Problem String (RegistrySelection V) R)
    (sel : String → Option (RegistrySelection V)) (c : HashMap String (List R)) : Prop where
  wanted : ∀ p, problem.wanted p → p ∈ c
  required : ∀ p r, problem.required p r → r ∈ reqsOf c p
  onlyWanted : ∀ p ∈ c, problem.Wanted sel p
  onlyDemanded : ∀ p, ∀ r ∈ reqsOf c p, problem.Demanded sel p r

/-- The constraint map holds exactly what the selection demands. -/
structure Exact (problem : Problem String (RegistrySelection V) R)
    (sel : String → Option (RegistrySelection V)) (c : HashMap String (List R)) : Prop where
  keys : ∀ p, p ∈ c ↔ problem.Wanted sel p
  reqs : ∀ p r, r ∈ reqsOf c p ↔ problem.Demanded sel p r

/-- Nothing that is selected stands against what the selection demands. -/
structure Consistent (semver : Semver V R) (problem : Problem String (RegistrySelection V) R)
    (sel : String → Option (RegistrySelection V)) : Prop where
  usable : ∀ p e, sel p = some e → Usable semver e
  met : ∀ p e r, sel p = some e → problem.Demanded sel p r → problem.meets r e

omit [DecidableEq R] in
theorem tracks_self (sel : String → Option (RegistrySelection V)) :
    Tracks (solverProblem semver registry init) sel init :=
  ⟨fun _ h => h, fun _ _ h => h, fun _ h => Or.inl h, fun _ _ h => Or.inl h⟩

variable {sel : String → Option (RegistrySelection V)} {problem : Problem String (RegistrySelection V) R}

omit [DecidableEq R] in
/-- Exact constraints stay within the demands of a larger selection. -/
theorem Exact.tracks {sel' : String → Option (RegistrySelection V)} (h : Exact problem sel c)
    (hext : Extends sel sel') :
    Tracks problem sel' c where
  wanted := fun p hp => (h.keys p).mpr (Or.inl hp)
  required := fun p r hr => (h.reqs p r).mpr (Or.inl hr)
  onlyWanted := fun p hp => ((h.keys p).mp hp).mono hext
  onlyDemanded := fun p r hr => ((h.reqs p r).mp hr).mono hext

omit [DecidableEq R] in
theorem edgeAsks_iff_asks {r : R} :
    (∃ edge ∈ dependencyEdges order point selected, EdgeAsks semver edge p r) ↔
      ∃ q e, selection selected q = some e ∧ Asks semver e p r := by
  constructor
  · rintro ⟨edge, hedge, rfl, str, hstr, hparse⟩
    obtain ⟨e, he, -, hspec⟩ := mem_dependencyEdges.mp hedge
    exact ⟨edge.pkgName, e, he, edge.depSpec, str, hspec, hstr, hparse⟩
  · rintro ⟨q, e, he, spec, str, hspec, hstr, hparse⟩
    refine ⟨{ pkgName := q, pkgVersion := e.version, depName := p, depSpec := spec }, ?_, rfl, str,
      hstr, hparse⟩
    exact mem_dependencyEdges.mpr ⟨e, he, rfl, hspec⟩

/-- A pass that goes through: it makes the constraints exact, and changes nothing when they already were. -/
theorem constraintPass_ok {c' : HashMap String (List R)}
    (htracks : Tracks (solverProblem semver registry init) (selection selected) c)
    (h : constraintPass semver order point c selected = .ok (c', changed)) :
    Exact (solverProblem semver registry init) (selection selected) c' ∧
      (∀ p e, selection selected p = some e → Usable semver e) ∧
      (∀ p e, selection selected p = some e → ∀ r ∈ reqsOf c p, semver.reqMatches r e.version = true) ∧
      (changed = false → c' = c) ∧
      (Exact (solverProblem semver registry init) (selection selected) c → changed = false) := by
  obtain ⟨_, hcheck, habsorb⟩ := Fallible.bind_eq_ok.mp h
  obtain ⟨hgrows, husable, hunchanged, hsettled⟩ := (absorbed_of_ok habsorb).1
  refine ⟨⟨?_, ?_⟩, ?_, ?_, hunchanged, ?_⟩
  -- the packages: those of before and those an edge asks for
  · intro p
    rw [hgrows.keys]
    constructor
    · rintro (hp | ⟨r, hr⟩)
      · exact htracks.onlyWanted p hp
      · obtain ⟨q, e, hq, hasks⟩ := edgeAsks_iff_asks.mp hr
        exact Or.inr ⟨q, e, r, hq, hasks⟩
    · rintro (hp | ⟨q, e, r, hq, hasks⟩)
      · exact Or.inl (htracks.wanted p hp)
      · exact Or.inr ⟨r, edgeAsks_iff_asks.mpr ⟨q, e, hq, hasks⟩⟩
  · intro p r
    rw [hgrows.reqs]
    constructor
    · rintro (hr | hr)
      · exact htracks.onlyDemanded p r hr
      · exact Or.inr (edgeAsks_iff_asks.mp hr)
    · rintro (hr | hr)
      · exact Or.inl (htracks.required p r hr)
      · exact Or.inr (edgeAsks_iff_asks.mpr hr)
  -- every edge parsed, so every selected version is usable
  · intro q e hq p spec hspec
    obtain ⟨r, -, str, hstr, hparse⟩ := husable
      { pkgName := q, pkgVersion := e.version, depName := p, depSpec := spec }
      (mem_dependencyEdges.mpr ⟨e, hq, rfl, hspec⟩)
    exact ⟨r, spec, str, hspec, hstr, hparse⟩
  · intro p e hp r hr
    refine checkSelected_eq_ok.mp hcheck p ?_ e hp r hr
    rw [(order.perm _ _).mem_iff]
    exact AList.mem_keys.mp (mem_of_mem_reqsOf hr)
  -- when the constraints were exact, no edge adds to them
  · intro hexact
    apply hsettled
    intro edge hedge p r hasks
    exact (hexact.reqs p r).mpr (Or.inr (edgeAsks_iff_asks.mp ⟨edge, hedge, hasks⟩))

/-- A pass that fails: no solution lies above the selection. -/
theorem constraintPass_error (htracks : Tracks (solverProblem semver registry init) (selection selected) c)
    (h : constraintPass semver order point c selected = .error err)
    {sol : String → Option (RegistrySelection V)}
    (hsol : (solverProblem semver registry init).Solution sol) :
    ¬ Extends (selection selected) sol := by
  intro hext
  rcases Fallible.bind_eq_error.mp h with hcheck | ⟨-, -, habsorb⟩
  · have hok : checkSelected semver c selected (order.walk (2 :: point) c.keys) = .ok () := by
      rw [checkSelected_eq_ok]
      intro p _ e he r hr
      exact hsol.met p e r (hext p e he) ((htracks.onlyDemanded p r hr).mono hext)
    rw [hok] at hcheck
    cases hcheck
  · obtain ⟨edge, hedge, hnone⟩ := unusable_of_error habsorb
    obtain ⟨e, he, -, hspec⟩ := mem_dependencyEdges.mp hedge
    obtain ⟨r, spec, str, hspec', hstr, hparse⟩ := (hsol.offered _ e (hext _ e he)).2 _ _ hspec
    obtain rfl := Option.some.inj (hspec.symm.trans hspec')
    exact hnone r ⟨rfl, str, hstr, hparse⟩

variable (order) in
/-- Two rounds are enough: the second one finds nothing to add. -/
theorem propagate_spec (fuel : Nat) (point : List Nat)
    (htracks : Tracks (solverProblem semver registry init) (selection selected) c) :
    (∃ err, propagate semver order (fuel + 2) point c selected = some (.error err) ∧
      ∀ sol, (solverProblem semver registry init).Solution sol → ¬ Extends (selection selected) sol) ∨
    ∃ c', propagate semver order (fuel + 2) point c selected = some (.ok c') ∧
      Exact (solverProblem semver registry init) (selection selected) c' ∧
      Consistent semver (solverProblem semver registry init) (selection selected) := by
  rw [propagate]
  cases hpass : constraintPass semver order ((fuel + 1) :: point) c selected with
  | error err => exact Or.inl ⟨err, rfl, fun sol hsol => constraintPass_error htracks hpass hsol⟩
  | ok out =>
    obtain ⟨c₁, changed⟩ := out
    obtain ⟨hexact, husable, hchecked, hunchanged, -⟩ := constraintPass_ok htracks hpass
    cases changed with
    | false =>
      obtain rfl := hunchanged rfl
      exact Or.inr ⟨c₁, rfl, hexact, husable, fun p e r hp hr => hchecked p e hp r
        ((hexact.reqs p r).mpr hr)⟩
    | true =>
      show (∃ err, propagate semver order (fuel + 1) point c₁ selected = _ ∧ _) ∨
        ∃ c', propagate semver order (fuel + 1) point c₁ selected = _ ∧ _
      rw [propagate]
      have htracks₁ := hexact.tracks (Extends.refl _)
      cases hpass₁ : constraintPass semver order (fuel :: point) c₁ selected with
      | error err => exact Or.inl ⟨err, rfl, fun sol hsol => constraintPass_error htracks₁ hpass₁ hsol⟩
      | ok out₁ =>
        obtain ⟨c₂, changed₁⟩ := out₁
        obtain ⟨-, -, hchecked₁, hunchanged₁, hsettled⟩ := constraintPass_ok htracks₁ hpass₁
        obtain rfl := hsettled hexact
        obtain rfl := hunchanged₁ rfl
        exact Or.inr ⟨c₂, rfl, hexact, husable,
          fun p e r hp hr => hchecked₁ p e hp r ((hexact.reqs p r).mpr hr)⟩

/-! ## The search -/

/-- The scan's choice among the packages it has seen: all of them have candidates, and it has the fewest. -/
structure BestOf (semver : Semver V R) (registry : RegistryIndex) (c : HashMap String (List R))
    (seen : List String) (choice : Option (String × List (RegistrySelection V))) : Prop where
  chosen : seen ≠ [] → ∃ p cands, choice = some (p, cands)
  best : ∀ p cands, choice = some (p, cands) →
    p ∈ seen ∧ registryCandidatesFor semver registry p (reqsOf c p) = .ok cands ∧ cands ≠ [] ∧
    ∀ q ∈ seen, ∃ cands', registryCandidatesFor semver registry q (reqsOf c q) = .ok cands' ∧
      cands.length ≤ cands'.length

omit [DecidableEq R] in
theorem BestOf.step {c : HashMap String (List R)} {seen : List String} {package : String}
    {choice : Option (String × List (RegistrySelection V))} {candidates : List (RegistrySelection V)}
    (h : BestOf semver registry c seen choice)
    (hcands : registryCandidatesFor semver registry package (reqsOf c package) = .ok candidates)
    (hne : candidates ≠ []) :
    BestOf semver registry c (seen ++ [package])
      (if choice.all fun current => candidates.length < current.2.length then some (package, candidates)
      else choice) := by
  by_cases hless : (choice.all fun current => decide (candidates.length < current.2.length)) = true
  -- the package has strictly fewer candidates than the best so far
  · rw [if_pos hless]
    refine ⟨fun _ => ⟨package, candidates, rfl⟩, ?_⟩
    intro p cands hp
    obtain ⟨rfl, rfl⟩ := Prod.mk.inj (Option.some.inj hp)
    refine ⟨List.mem_append_right _ (List.mem_singleton.mpr rfl), hcands, hne, ?_⟩
    intro q hq
    rcases List.mem_append.mp hq with hq | hq
    · obtain ⟨p₀, cands₀, rfl⟩ := h.chosen (List.ne_nil_of_mem hq)
      obtain ⟨cands', hcands', hle⟩ := (h.best p₀ cands₀ rfl).2.2.2 q hq
      have hlt : candidates.length < cands₀.length := by simpa using hless
      exact ⟨cands', hcands', by omega⟩
    · obtain rfl := List.mem_singleton.mp hq
      exact ⟨candidates, hcands, Nat.le_refl _⟩
  -- it has not: the choice stays, and is still at most as long
  · rw [if_neg hless]
    cases choice with
    | none => exact absurd rfl hless
    | some current =>
      obtain ⟨p, cands⟩ := current
      refine ⟨fun _ => ⟨p, cands, rfl⟩, ?_⟩
      intro p' cands' hp'
      obtain ⟨rfl, rfl⟩ := Prod.mk.inj (Option.some.inj hp')
      obtain ⟨hseen, hreg, hne', hall⟩ := h.best p cands rfl
      refine ⟨List.mem_append_left _ hseen, hreg, hne', ?_⟩
      intro q hq
      rcases List.mem_append.mp hq with hq | hq
      · exact hall q hq
      · obtain rfl := List.mem_singleton.mp hq
        have hge : cands.length ≤ candidates.length := by simpa using hless
        exact ⟨candidates, hcands, hge⟩

variable {choice : Option (String × List (RegistrySelection V))}

omit [DecidableEq R] in
theorem BestOf.run {seen : List String} {choice' : Option (String × List (RegistrySelection V))}
    (h : BestOf semver registry c seen choice)
    (hrun : chooseNext semver registry c names choice = .ok choice') :
    BestOf semver registry c (seen ++ names) choice' := by
  induction names generalizing seen choice with
  | nil =>
    obtain rfl := Except.ok.inj hrun
    rw [List.append_nil]
    exact h
  | cons package rest ih =>
    obtain ⟨candidates, hcands, hrest⟩ := Fallible.bind_eq_ok.mp hrun
    split at hrest
    · cases hrest
    · rename_i hempty
      have hne : candidates ≠ [] := fun hnil => hempty (List.isEmpty_iff.mpr hnil)
      have hnext := ih (h.step hcands hne) hrest
      rw [List.append_assoc] at hnext
      exact hnext

omit [DecidableEq R] in
/-- The scan fails at a package that has no candidates. -/
theorem chooseNext_error (h : chooseNext semver registry c names choice = .error err) :
    ∃ p ∈ names, ∀ e, Listed semver registry p e → ∃ r ∈ reqsOf c p, semver.reqMatches r e.version ≠
      true := by
  induction names generalizing choice with
  | nil => cases h
  | cons package rest ih =>
    rcases Fallible.bind_eq_error.mp h with hload | ⟨candidates, hcands, hrest⟩
    · exact ⟨package, List.mem_cons_self, fun e he => absurd he (not_listed_of_error hload e)⟩
    · split at hrest
      · rename_i hempty
        refine ⟨package, List.mem_cons_self, ?_⟩
        intro e he
        by_contra hnot
        have hmem := (mem_candidates hcands e).mpr ⟨he, fun r hr => by
          by_contra hr'
          exact hnot ⟨r, hr, hr'⟩⟩
        rw [List.isEmpty_iff.mp hempty] at hmem
        exact absurd hmem List.not_mem_nil
      · obtain ⟨p, hp, hnone⟩ := ih hrest
        exact ⟨p, List.mem_cons_of_mem _ hp, hnone⟩

/-- No solution keeps what is selected. -/
def DeadEnd (problem : Problem String (RegistrySelection V) R)
    (sel : String → Option (RegistrySelection V)) :
    Prop :=
  ∀ sol, problem.Solution sol → ¬ Extends sel sol

/-- The solver branches on `package` over `candidates`: it is open, and none has fewer candidates. -/
structure Branches (semver : Semver V R) (registry : RegistryIndex)
    (problem : Problem String (RegistrySelection V) R) (sel : String → Option (RegistrySelection V))
    (c : HashMap String (List R)) (package : String) (candidates : List (RegistrySelection V)) : Prop where
  exact : Exact problem sel c
  unresolved : problem.Unresolved sel package
  loaded : registryCandidatesFor semver registry package (reqsOf c package) = .ok candidates
  nonempty : candidates ≠ []
  fewest : ∀ q, problem.Unresolved sel q → ∃ candidates',
    registryCandidatesFor semver registry q (reqsOf c q) = .ok candidates' ∧ candidates.length ≤
      candidates'.length

variable (order) in
/-- What one call of the solver can do: fail for good, return what is selected, or branch. -/
theorem solve_cases (fuel : Nat) (point : List Nat)
    (htracks : Tracks (solverProblem semver registry init) (selection selected) c) :
    (∃ err, solveRegistryConstraints semver registry order (fuel + 2) point c selected = some (.error err) ∧
      DeadEnd (solverProblem semver registry init) (selection selected)) ∨
    (∃ c', solveRegistryConstraints semver registry order (fuel + 2) point c selected = some
      (.ok (c', selected)) ∧
      Consistent semver (solverProblem semver registry init) (selection selected) ∧
      ∀ p, (solverProblem semver registry init).Wanted (selection selected) p →
        ∃ e, selection selected p = some e) ∨
    ∃ c' package candidates,
      solveRegistryConstraints semver registry order (fuel + 2) point c selected =
        tryCandidates package
          (fun i candidate => solveRegistryConstraints semver registry order (fuel + 1) (i :: 2 :: point) c'
            (selected.insert package candidate)) 0 candidates none ∧
      Branches semver registry (solverProblem semver registry init) (selection selected) c' package
        candidates := by
  -- propagation first, then the packages that are not selected yet
  unfold solveRegistryConstraints
  rcases propagate_spec order fuel (0 :: point) htracks with
    ⟨err, hprop, hdead⟩ | ⟨c', hprop, hexact, hconsistent⟩
  · rw [show fuel + 1 + 1 = fuel + 2 from rfl, hprop]
    exact Or.inl ⟨err, rfl, hdead⟩
  · rw [show fuel + 1 + 1 = fuel + 2 from rfl, hprop]
    generalize hnames : ((order.walk (1 :: point) c'.keys).filter fun name =>
      (selected.lookup name).isNone) = names
    have hmem : ∀ p, p ∈ names ↔
        (solverProblem semver registry init).Unresolved (selection selected) p := by
      intro p
      rw [← hnames, List.mem_filter, (order.perm _ _).mem_iff, Option.isNone_iff_eq_none]
      exact and_congr_left fun _ => (AList.mem_keys.symm).trans (hexact.keys p)
    cases hempty : names.isEmpty with
    -- nothing is left to select
    | true =>
      refine Or.inr (Or.inl ⟨c', ?_, hconsistent, ?_⟩)
      · simp only [hnames, hempty, if_true]
      · intro p hp
        cases hsel : selection selected p with
        | some e => exact ⟨e, rfl⟩
        | none =>
          have hin := (hmem p).mpr ⟨hp, hsel⟩
          rw [List.isEmpty_iff.mp hempty] at hin
          exact absurd hin List.not_mem_nil
    | false =>
      have hne : names ≠ [] := by
        intro hnil
        rw [hnil] at hempty
        cases hempty
      simp only [hnames, hempty]
      cases hchoose : chooseNext semver registry c' names none with
      | error err =>
        -- a package without a candidate has none in any solution either
        refine Or.inl ⟨err, rfl, ?_⟩
        intro sol hsol hext
        obtain ⟨p, hp, hnone⟩ := chooseNext_error hchoose
        obtain ⟨e, -, hoffers, hmeets⟩ := hsol.candidate hext ((hmem p).mp hp).1
        obtain ⟨r, hr, hnot⟩ := hnone e hoffers.1
        exact hnot (hmeets r ((hexact.reqs p r).mp hr))
      | ok choice =>
        -- the fewest candidates: the package to branch at
        have hinit : BestOf semver registry c' [] none :=
          ⟨fun h => absurd rfl h, fun p cands h => (by cases h)⟩
        have hbest := hinit.run hchoose
        rw [List.nil_append] at hbest
        obtain ⟨package, candidates, rfl⟩ := hbest.chosen hne
        obtain ⟨hin, hcands, hcandsne, hfewest⟩ := hbest.best package candidates rfl
        refine Or.inr (Or.inr ⟨c', package, candidates, rfl, hexact, (hmem package).mp hin, hcands,
          hcandsne, ?_⟩)
        exact fun q hq => hfewest q ((hmem q).mpr hq)

omit [DecidableEq R] in
/-- The first candidate that leads to a good end is taken; otherwise all of them are bad. -/
theorem tryCandidates_spec {package : String} {recurse : Nat → RegistrySelection V → Outcome V R}
    {Good : HashMap String (List R) × HashMap String (RegistrySelection V) → Prop}
    {Bad : RegistrySelection V → Prop} (candidates : List (RegistrySelection V)) (i : Nat)
    (lastErr : Option String)
    (h : ∀ j, ∀ candidate ∈ candidates, (∃ out, recurse j candidate = some (.ok out) ∧ Good out) ∨
      ∃ err, recurse j candidate = some (.error err) ∧ Bad candidate) :
    (∃ out, tryCandidates package recurse i candidates lastErr = some (.ok out) ∧ Good out) ∨
      ∃ err, tryCandidates package recurse i candidates lastErr = some (.error err) ∧
        ∀ candidate ∈ candidates, Bad candidate := by
  induction candidates generalizing i lastErr with
  | nil => exact Or.inr ⟨_, rfl, fun candidate hmem => absurd hmem List.not_mem_nil⟩
  | cons candidate rest ih =>
    unfold tryCandidates
    rcases h i candidate List.mem_cons_self with ⟨out, hout, hgood⟩ | ⟨err, herr, hbad⟩
    · rw [hout]
      exact Or.inl ⟨out, rfl, hgood⟩
    · rw [herr]
      rcases ih (i + 1) (some err) (fun j cand hmem => h j cand (List.mem_cons_of_mem _ hmem)) with
        hgood | ⟨err', herr', hall⟩
      · exact Or.inl hgood
      · exact Or.inr ⟨err', herr', List.forall_mem_cons.mpr ⟨hbad, hall⟩⟩

/-- Packages of the index that are not selected: what the depth of the search is bounded by. -/
def remaining (registry : RegistryIndex) (selected : HashMap String (RegistrySelection V)) : Nat :=
  (registry.files.keys.filter fun p => (selected.lookup p).isNone).length

theorem remaining_insert_lt {package : String} (hfile : package ∈ registry.files)
    (hnone : selected.lookup package = none) (e : RegistrySelection V) :
    remaining registry (selected.insert package e) < remaining registry selected := by
  have hsub : (registry.files.keys.filter fun p => ((selected.insert package e).lookup p).isNone).Sublist
      (registry.files.keys.filter fun p => (selected.lookup p).isNone) := by
    apply List.monotone_filter_right
    intro p hp
    by_cases hpp : p = package
    · subst hpp
      rw [hnone]
      rfl
    · rw [AList.lookup_insert_ne hpp] at hp
      exact hp
  refine lt_of_le_of_ne hsub.length_le fun heq => ?_
  have hin : package ∈ registry.files.keys.filter fun p =>
      ((selected.insert package e).lookup p).isNone := by
    rw [hsub.eq_of_length heq, List.mem_filter, hnone]
    exact ⟨AList.mem_keys.mp hfile, rfl⟩
  rw [List.mem_filter, AList.lookup_insert] at hin
  exact absurd hin.2 (by simp)

/-- The selection is a part of the search: listed versions only, each of them needed. -/
structure PartialSelection (semver : Semver V R) (registry : RegistryIndex)
    (problem : Problem String (RegistrySelection V) R)
    (sel : String → Option (RegistrySelection V)) : Prop where
  listed : ∀ p e, sel p = some e → Listed semver registry p e
  grounded : problem.Grounded sel

omit [DecidableEq R] in
theorem PartialSelection.update {e : RegistrySelection V} (h : PartialSelection semver registry problem sel)
    (hp : problem.Unresolved sel p) (he : Listed semver registry p e) :
    PartialSelection semver registry problem (Function.update sel p (some e)) := by
  refine ⟨?_, h.grounded.update hp.2 hp.1 e⟩
  intro q e' hq
  by_cases hqp : q = p
  · subst hqp
    rw [Function.update_self] at hq
    rw [← Option.some.inj hq]
    exact he
  · rw [Function.update_of_ne hqp] at hq
    exact h.listed q e' hq

omit [DecidableEq R] in
theorem PartialSelection.solution
    (h : PartialSelection semver registry (solverProblem semver registry init) sel)
    (hconsistent : Consistent semver (solverProblem semver registry init) sel)
    (hclosed : ∀ p, (solverProblem semver registry init).Wanted sel p → ∃ e, sel p = some e) :
    (solverProblem semver registry init).Solution sel :=
  ⟨fun p e he => ⟨h.listed p e he, hconsistent.usable p e he⟩, hclosed, hconsistent.met⟩

section

variable {c' : HashMap String (List R)} {package : String} {candidates : List (RegistrySelection V)}
  (hbranch : Branches semver registry (solverProblem semver registry init)
    (selection selected) c' package candidates)

include hbranch

omit [DecidableEq R] in
theorem Branches.remaining_lt {e : RegistrySelection V} (he : e ∈ candidates) :
    remaining registry (selected.insert package e) < remaining registry selected :=
  remaining_insert_lt (mem_files_of_listed ((mem_candidates hbranch.loaded e).mp he).1)
    hbranch.unresolved.2 e

omit [DecidableEq R] in
theorem Branches.extends (e : RegistrySelection V) :
    Extends (selection selected) (selection (selected.insert package e)) := by
  rw [selection_insert]
  exact extends_update hbranch.unresolved.2 e

omit [DecidableEq R] in
theorem Branches.partialSelection {e : RegistrySelection V}
    (h : PartialSelection semver registry (solverProblem semver registry init) (selection selected))
    (he : e ∈ candidates) :
    PartialSelection semver registry (solverProblem semver registry init)
      (selection (selected.insert package e)) := by
  rw [selection_insert]
  exact h.update hbranch.unresolved ((mem_candidates hbranch.loaded e).mp he).1

omit [DecidableEq R] in
/-- The candidates leave no solution out. -/
theorem Branches.deadEnd
    (hall : ∀ e ∈ candidates,
      DeadEnd (solverProblem semver registry init) (selection (selected.insert package e))) :
    DeadEnd (solverProblem semver registry init) (selection selected) := by
  intro sol hsol hext
  obtain ⟨e, he, hoffers, hmeets⟩ := hsol.candidate hext hbranch.unresolved.1
  have hmem : e ∈ candidates := (mem_candidates hbranch.loaded e).mpr
    ⟨hoffers.1, fun r hr => hmeets r ((hbranch.exact.reqs package r).mp hr)⟩
  refine hall e hmem sol hsol ?_
  rw [selection_insert]
  exact hext.update he

end

variable (order) in
/-- With fuel for the packages that are left, the solver ends: with a solution above what is selected, or
with an error when there is none. -/
theorem solve_spec (fuel : Nat) (point : List Nat) {c : HashMap String (List R)}
    (htracks : Tracks (solverProblem semver registry init) (selection selected) c)
    (hpart : PartialSelection semver registry (solverProblem semver registry init) (selection selected))
    (hfuel : remaining registry selected ≤ fuel) :
    (∃ out, solveRegistryConstraints semver registry order (fuel + 2) point c selected = some (.ok out) ∧
      (solverProblem semver registry init).Solution (selection out.2) ∧
      (solverProblem semver registry init).Grounded (selection out.2) ∧
      Extends (selection selected) (selection out.2)) ∨
    ∃ err, solveRegistryConstraints semver registry order (fuel + 2) point c selected = some (.error err) ∧
      DeadEnd (solverProblem semver registry init) (selection selected) := by
  induction fuel generalizing point c selected with
  | zero =>
    rcases solve_cases order 0 point htracks
      with hdead | ⟨c', hok, hconsistent, hclosed⟩ | ⟨c', p, cands, -, hbranch⟩
    · exact Or.inr hdead
    · exact Or.inl ⟨_, hok, hpart.solution hconsistent hclosed, hpart.grounded, Extends.refl _⟩
    · -- A package that can be branched on is left, against the fuel.
      obtain ⟨e, he⟩ := List.exists_mem_of_ne_nil _ hbranch.nonempty
      have hlt := hbranch.remaining_lt he
      omega
  | succ fuel ih =>
    rcases solve_cases order (fuel + 1) point htracks with
      hdead | ⟨c', hok, hconsistent, hclosed⟩ | ⟨c', p, cands, hsolve, hbranch⟩
    · exact Or.inr hdead
    · exact Or.inl ⟨_, hok, hpart.solution hconsistent hclosed, hpart.grounded, Extends.refl _⟩
    · rw [hsolve]
      refine (tryCandidates_spec cands 0 none ?_).imp_right
        fun ⟨err, herr, hall⟩ => ⟨err, herr, hbranch.deadEnd hall⟩
      intro j e hmem
      have hlt := hbranch.remaining_lt hmem
      refine (ih (j :: 2 :: point) (hbranch.exact.tracks (hbranch.extends e))
        (hbranch.partialSelection hpart hmem) (by omega)).imp_left ?_
      rintro ⟨out, hout, hsol, hground, hext⟩
      exact ⟨out, hout, hsol, hground, (hbranch.extends e).trans hext⟩

end ShapeLang.Packages
