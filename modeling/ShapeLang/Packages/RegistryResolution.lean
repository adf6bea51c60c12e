import ShapeLang.Packages.RegistrySolver

/-!
# What registry resolution promises

Read off the search of `RegistrySolver`: on every well-formed index the solver ends, returns only
closed selections that meet every requirement, and finds one whenever there is one among the
versions that are not yanked. Whether it succeeds does not depend on the iteration order of its
maps; which of several selections it returns does, through the package it branches on when two of
them have equally few candidates.
-/

namespace ShapeLang.Packages

open ShapeLang.Lib

variable {V R : Type} [DecidableEq R]

/-! ## Closed selections -/

/-- Every index file is readable and names its package, versions parse, dependencies are requirements on
registry packages. -/
structure WellFormed (semver : Semver V R) (registry : RegistryIndex) : Prop where
  readable : ∀ p file, registry.files.lookup p = some file → ∃ index, file = .ok index
  named : ∀ p index, registry.files.lookup p = some (.ok index) → index.package = none ∨
    index.package = some p
  versions : ∀ p index, registry.files.lookup p = some (.ok index) →
    ∀ record ∈ index.versions, ∃ version, semver.parseVersion record.version = .ok version
  requirements : ∀ p index, registry.files.lookup p = some (.ok index) →
    ∀ record ∈ index.versions, ∀ d spec, record.dependencies.lookup d = some spec →
      ∃ str r, registryRequirementForSpec spec = some str ∧ semver.parseReq str = .ok r

/-- `e` is the version of `p` that `record` describes. -/
def Describes (semver : Semver V R) (record : RegistryVersionRecord) (p : String)
    (e : RegistrySelection V) : Prop :=
  semver.parseVersion record.version = .ok e.version ∧ e.dependencies = record.dependencies ∧
    e.package = p ∧
    e.source = record.source ∧ e.registry = "default"

/-- `e` is a version of `p` in the index, by a record that `Eligible` accepts. -/
def InIndex (semver : Semver V R) (registry : RegistryIndex)
    (Eligible : RegistryVersionRecord → Prop) (p : String) (e : RegistrySelection V) : Prop :=
  ∃ index record, registry.files.lookup p = some (.ok index) ∧ record ∈ index.versions ∧ Eligible record ∧
    Describes semver record p e

/-- A selection of eligible versions that contains every constrained package and every dependency,
with every requirement met. -/
structure ClosedSelection (semver : Semver V R) (registry : RegistryIndex)
    (Eligible : RegistryVersionRecord → Prop) (constraints : HashMap String (List R))
    (sel : String → Option (RegistrySelection V)) : Prop where
  listed : ∀ p e, sel p = some e → InIndex semver registry Eligible p e
  constrained : ∀ p ∈ constraints, ∃ e, sel p = some e ∧
    ∀ r ∈ reqsOf constraints p, semver.reqMatches r e.version = true
  closed : ∀ p e, sel p = some e → ∀ d r, Asks semver e d r →
    ∃ e', sel d = some e' ∧ semver.reqMatches r e'.version = true

def NotYanked (record : RegistryVersionRecord) : Prop := record.yanked = false

section

variable {semver : Semver V R} {registry : RegistryIndex} {constraints : HashMap String (List R)}
  {sel : String → Option (RegistrySelection V)}

omit [DecidableEq R] in
theorem mem_collectCandidates {package : String} {records : List RegistryVersionRecord}
    {out : List (RegistrySelection V)}
    (h : collectCandidates semver package ([] : List R) records = .ok out)
    (e : RegistrySelection V) :
    e ∈ out ↔ ∃ record ∈ records, NotYanked record ∧ Describes semver record package e := by
  induction records generalizing out with
  | nil =>
    obtain rfl := Except.ok.inj h
    simp
  | cons record rest ih =>
    unfold collectCandidates at h
    by_cases hyanked : record.yanked = true
    -- a yanked record gives no candidate
    · rw [if_pos hyanked] at h
      rw [ih h]
      simp [NotYanked, hyanked]
    · rw [if_neg hyanked] at h
      cases hparse : semver.parseVersion record.version with
      | error err =>
        rw [hparse] at h
        cases h
      | ok version =>
        rw [hparse] at h
        obtain ⟨out', hrest, hcons⟩ := Fallible.bind_eq_ok.mp h
        obtain rfl := Except.ok.inj hcons
        rw [List.mem_cons, ih hrest, List.exists_mem_cons_iff]
        -- what is left is the record in front
        refine or_congr_left ?_
        constructor
        · rintro rfl
          exact ⟨by simpa [NotYanked] using hyanked, hparse, rfl, rfl, rfl, rfl⟩
        · rintro ⟨-, hversion, hdeps, hname, hsource, hregistry⟩
          rw [hparse] at hversion
          obtain rfl := Except.ok.inj hversion
          cases e
          cases hdeps
          cases hname
          cases hsource
          cases hregistry
          rfl

omit [DecidableEq R] in
theorem collectCandidates_ok {package : String} {records : List RegistryVersionRecord}
    (h : ∀ record ∈ records, ∃ version, semver.parseVersion record.version = .ok version) :
    ∃ out, collectCandidates semver package ([] : List R) records = .ok out := by
  induction records with
  | nil => exact ⟨[], rfl⟩
  | cons record rest ih =>
    obtain ⟨out, hout⟩ := ih fun record' hmem => h record' (List.mem_cons_of_mem _ hmem)
    unfold collectCandidates
    split
    · exact ⟨out, hout⟩
    · obtain ⟨version, hversion⟩ := h record List.mem_cons_self
      rw [hversion]
      exact ⟨_, Fallible.bind_eq_ok.mpr ⟨out, hout, rfl⟩⟩

omit [DecidableEq R] in
/-- On a well-formed index the listed versions are those that are not yanked. -/
theorem WellFormed.listed_iff (hwf : WellFormed semver registry) (p : String) (e : RegistrySelection V) :
    Listed semver registry p e ↔ InIndex semver registry NotYanked p e := by
  constructor
  · rintro ⟨all, hall, he⟩
    obtain ⟨index, hload, hrest⟩ := Fallible.bind_eq_ok.mp hall
    split at hrest
    · cases hrest
    · obtain ⟨out, hout, hsort⟩ := Fallible.bind_eq_ok.mp hrest
      obtain rfl := Except.ok.inj hsort
      rw [(List.perm_insertionSort _ _).mem_iff, mem_collectCandidates hout] at he
      obtain ⟨record, hrecord, hyanked, hdescribes⟩ := he
      refine ⟨index, record, ?_, hrecord, hyanked, hdescribes⟩
      unfold loadRegistryIndex at hload
      cases hfile : registry.files.lookup p with
      | none =>
        rw [hfile] at hload
        cases hload
      | some file =>
        rw [hfile] at hload
        exact congrArg some hload
  · rintro ⟨index, record, hfile, hrecord, hyanked, hdescribes⟩
    -- the file is read, and all its versions parse
    have hcollect : ∃ out, collectCandidates semver p ([] : List R) index.versions = .ok out :=
      collectCandidates_ok (hwf.versions p index hfile)
    obtain ⟨out, hout⟩ := hcollect
    have hload : loadRegistryIndex registry p = .ok index := by
      unfold loadRegistryIndex
      rw [hfile]
    have hnamed : ¬ (index.package.any fun x => decide (x ≠ p)) = true := by
      rcases hwf.named p index hfile with hnone | hsome
      · rw [hnone]
        simp
      · rw [hsome]
        simp
    have hall : registryCandidatesFor semver registry p [] =
        .ok (out.insertionSort fun a b => semver.versionLe b.version a.version = true) := by
      refine Fallible.bind_eq_ok.mpr ⟨index, hload, ?_⟩
      rw [if_neg hnamed]
      exact Fallible.bind_eq_ok.mpr ⟨out, hout, rfl⟩
    refine ⟨_, hall, ?_⟩
    rw [(List.perm_insertionSort _ _).mem_iff, mem_collectCandidates hout]
    exact ⟨record, hrecord, hyanked, hdescribes⟩

omit [DecidableEq R] in
theorem WellFormed.usable (hwf : WellFormed semver registry)
    {Eligible : RegistryVersionRecord → Prop} {p : String} {e : RegistrySelection V}
    (he : InIndex semver registry Eligible p e) : Usable semver e := by
  obtain ⟨index, record, hfile, hrecord, -, -, hdeps, -⟩ := he
  intro d spec hspec
  rw [hdeps] at hspec
  obtain ⟨str, r, hstr, hparse⟩ := hwf.requirements p index hfile record hrecord d spec hspec
  exact ⟨r, spec, str, by rw [hdeps]; exact hspec, hstr, hparse⟩

omit [DecidableEq R] in
/-- On a well-formed index, closed selections of versions that are not yanked are the solutions of
the search. -/
theorem WellFormed.solution_iff (hwf : WellFormed semver registry) :
    (solverProblem semver registry constraints).Solution sel ↔
      ClosedSelection semver registry NotYanked constraints sel := by
  constructor
  · rintro ⟨hoffered, hclosed, hmet⟩
    refine ⟨fun p e he => (hwf.listed_iff p e).mp (hoffered p e he).1, ?_, ?_⟩
    · intro p hp
      obtain ⟨e, he⟩ := hclosed p (Or.inl hp)
      exact ⟨e, he, fun r hr => hmet p e r he (Or.inl hr)⟩
    · intro p e he d r hasks
      obtain ⟨e', he'⟩ := hclosed d (Or.inr ⟨p, e, r, he, hasks⟩)
      exact ⟨e', he', hmet d e' r he' (Or.inr ⟨p, e, he, hasks⟩)⟩
  · rintro ⟨hlisted, hconstrained, hclosed⟩
    refine ⟨fun p e he => ⟨(hwf.listed_iff p e).mpr (hlisted p e he), hwf.usable (hlisted p e he)⟩, ?_, ?_⟩
    · rintro p (hp | ⟨q, e, r, hq, hasks⟩)
      · obtain ⟨e, he, -⟩ := hconstrained p hp
        exact ⟨e, he⟩
      · obtain ⟨e', he', -⟩ := hclosed q e hq p r hasks
        exact ⟨e', he'⟩
    · rintro p e r he (hr | ⟨q, e₀, hq, hasks⟩)
      · obtain ⟨e', he', hall⟩ := hconstrained p (mem_of_mem_reqsOf hr)
        obtain rfl := Option.some.inj (he.symm.trans he')
        exact hall r hr
      · obtain ⟨e', he', hmatch⟩ := hclosed q e₀ hq p r hasks
        obtain rfl := Option.some.inj (he.symm.trans he')
        exact hmatch

end

/-! ## Sound, complete and terminating -/

section

variable {semver : Semver V R} {registry : RegistryIndex} {constraints : HashMap String (List R)}

omit [DecidableEq R] in
theorem partialSelection_empty :
    PartialSelection semver registry (solverProblem semver registry constraints)
      (selection (∅ : HashMap String (RegistrySelection V))) :=
  ⟨fun _ _ h => (by cases h), fun _ _ h => (by cases h)⟩

theorem remaining_empty :
    remaining registry (∅ : HashMap String (RegistrySelection V)) = registry.files.keys.length := by
  unfold remaining
  rw [List.filter_eq_self.mpr]
  intro p _
  rfl

variable (semver registry constraints) in
/-- The solver from its start: it ends with a solution, or with an error when there is none. -/
theorem solve_start (order : HashOrder String) {fuel : Nat}
    (hfuel : registry.files.keys.length + 2 ≤ fuel) :
    (∃ out, solveRegistryConstraints semver registry order fuel [] constraints ∅ = some (.ok out) ∧
      (solverProblem semver registry constraints).Solution (selection out.2) ∧
      (solverProblem semver registry constraints).Grounded (selection out.2)) ∨
    ∃ err, solveRegistryConstraints semver registry order fuel [] constraints ∅ = some (.error err) ∧
      ∀ sel, ¬ (solverProblem semver registry constraints).Solution sel := by
  obtain ⟨fuel, rfl⟩ : ∃ n, fuel = n + 2 := ⟨fuel - 2, by omega⟩
  have hremaining : remaining registry (∅ : HashMap String (RegistrySelection V)) ≤ fuel := by
    rw [remaining_empty]
    omega
  have htracks : Tracks (solverProblem semver registry constraints)
      (selection (∅ : HashMap String (RegistrySelection V))) constraints := tracks_self _
  rcases solve_spec order fuel [] htracks partialSelection_empty hremaining with
    ⟨out, hout, hsol, hground, -⟩ | ⟨err, herr, hdead⟩
  · exact Or.inl ⟨out, hout, hsol, hground⟩
  · exact Or.inr ⟨err, herr, fun sel hsel => hdead sel hsel fun p e h => (by cases h)⟩

end

/-- Registry solving is sound, complete and terminating over the versions that are not yanked. -/
theorem solve_sound_complete (semver : Semver V R) (registry : RegistryIndex)
    (hwf : WellFormed semver registry) (order : HashOrder String)
    (constraints : HashMap String (List R)) :
    ∃ bound, ∀ fuel ≥ bound, ∃ result,
      solveRegistryConstraints semver registry order fuel [] constraints ∅ = some result ∧
      (∀ out, result = .ok out → ClosedSelection semver registry NotYanked constraints (selection out.2)) ∧
      ((∃ sel, ClosedSelection semver registry NotYanked constraints sel) → ∃ out, result = .ok out) := by
  refine ⟨registry.files.keys.length + 2, fun fuel hfuel => ?_⟩
  rcases solve_start semver registry constraints order hfuel with ⟨out, hout, hsol, -⟩ | ⟨err, herr, hnone⟩
  · refine ⟨_, hout, ?_, fun _ => ⟨out, rfl⟩⟩
    intro out' hout'
    obtain rfl := Except.ok.inj hout'
    exact hwf.solution_iff.mp hsol
  · refine ⟨_, herr, fun out' h => (by cases h), ?_⟩
    rintro ⟨sel, hsel⟩
    exact absurd (hwf.solution_iff.mpr hsel) (hnone sel)

/-! Versions `1.0.0` and `2.0.0` by their major number, with the requirements `*` and `<2.0.0`. -/

def majorSemver : Semver Nat (Option Nat) where
  parseVersion s := if s = "1.0.0" then .ok 1 else if s = "2.0.0" then .ok 2
    else .error "unexpected character"
  parseReq s := if s = "*" then .ok none else if s = "<2.0.0" then .ok (some 2)
    else .error "unexpected character"
  reqMatches r v := r.all fun bound => v < bound
  versionLe a b := a ≤ b
  showVersion v := if v = 1 then "1.0.0" else "2.0.0"
  showReq r := if r.isNone then "*" else "<2.0.0"

def indexFile (versions : List RegistryVersionRecord) : Except String RegistryIndexFile :=
  .ok { package := none, versions }

def anyVersion (names : List String) : HashMap String (List (Option Nat)) :=
  names.foldr (fun name map => map.insert name [none]) ∅

/-- One package with one version, which is yanked. -/
def yankedRegistry : RegistryIndex where
  registryIndexDir := "index"
  files := (∅ : HashMap String _).insert "a"
    (indexFile [{ version := "1.0.0", yanked := true, dependencies := ∅ }])

def oldVersion : RegistryVersionRecord := { version := "1.0.0", yanked := false, dependencies := ∅ }

def newVersion (other : String) : RegistryVersionRecord :=
  { version := "2.0.0", yanked := false
    dependencies := (∅ : HashMap String _).insert other (.version "<2.0.0") }

/-- Two packages of two versions, where each new version needs an old one of the other package. -/
def rivalRegistry : RegistryIndex where
  registryIndexDir := "index"
  files := ((∅ : HashMap String _).insert "b" (indexFile [newVersion "a", oldVersion])).insert "a"
    (indexFile [newVersion "b", oldVersion])

omit [DecidableEq R] in
/-- Well-formedness entry by entry. -/
theorem wellFormed_of_entries {semver : Semver V R} {registry : RegistryIndex}
    (h : ∀ entry ∈ registry.files.entries, ∃ index, entry.2 = .ok index ∧
      (index.package = none ∨ index.package = some entry.1) ∧
      ∀ record ∈ index.versions, (∃ version, semver.parseVersion record.version = .ok version) ∧
        ∀ dep ∈ record.dependencies.entries,
          ∃ str r, registryRequirementForSpec dep.2 = some str ∧ semver.parseReq str = .ok r) :
    WellFormed semver registry := by
  have hentry : ∀ p file, registry.files.lookup p = some file → (⟨p, file⟩ : Sigma fun _ => _) ∈
      registry.files.entries := fun p file hfile => AList.mem_lookup_iff.mp hfile
  refine ⟨?_, ?_, ?_, ?_⟩
  · intro p file hfile
    obtain ⟨index, hindex, -⟩ := h _ (hentry p file hfile)
    exact ⟨index, hindex⟩
  · intro p index hfile
    obtain ⟨index', hindex, hnamed, -⟩ := h _ (hentry p _ hfile)
    obtain rfl := Except.ok.inj hindex
    exact hnamed
  · intro p index hfile record hrecord
    obtain ⟨index', hindex, -, hrecords⟩ := h _ (hentry p _ hfile)
    obtain rfl := Except.ok.inj hindex
    exact (hrecords record hrecord).1
  · intro p index hfile record hrecord d spec hspec
    obtain ⟨index', hindex, -, hrecords⟩ := h _ (hentry p _ hfile)
    obtain rfl := Except.ok.inj hindex
    exact (hrecords record hrecord).2 _ (AList.mem_lookup_iff.mp hspec)

theorem wellFormed_rivalRegistry : WellFormed majorSemver rivalRegistry := by
  have hrecords : ∀ other, ∀ record ∈ [newVersion other, oldVersion],
      (∃ version, majorSemver.parseVersion record.version = .ok version) ∧
        ∀ dep ∈ record.dependencies.entries,
          ∃ str r, registryRequirementForSpec dep.2 = some str ∧ majorSemver.parseReq str = .ok r := by
    intro other record hrecord
    rcases List.mem_pair.mp hrecord with rfl | rfl
    · have hparse : majorSemver.parseVersion "2.0.0" = .ok 2 := by decide
      refine ⟨⟨2, hparse⟩, ?_⟩
      intro dep hdep
      obtain rfl := List.mem_singleton.mp hdep
      exact ⟨_, some 2, rfl, by decide⟩
    · exact ⟨⟨1, by decide⟩, fun dep hdep => absurd hdep List.not_mem_nil⟩
  apply wellFormed_of_entries
  intro entry hentry
  rcases List.mem_pair.mp hentry with rfl | rfl
  · exact ⟨_, rfl, Or.inl rfl, hrecords "b"⟩
  · exact ⟨_, rfl, Or.inl rfl, hrecords "a"⟩

theorem rivalRegistry_solved : WellFormed majorSemver rivalRegistry ∧
    ∃ bound, ∀ fuel ≥ bound, ∃ result,
      solveRegistryConstraints majorSemver rivalRegistry HashOrder.forward fuel []
        (anyVersion ["a", "b"]) ∅ =
        some result ∧
      (∀ out, result = .ok out →
        ClosedSelection majorSemver rivalRegistry NotYanked (anyVersion ["a", "b"]) (selection out.2)) ∧
      ((∃ sel, ClosedSelection majorSemver rivalRegistry NotYanked (anyVersion ["a", "b"]) sel) →
        ∃ out, result = .ok out) :=
  ⟨wellFormed_rivalRegistry,
    solve_sound_complete majorSemver rivalRegistry wellFormed_rivalRegistry .forward
      (anyVersion ["a", "b"])⟩

/-- The index lists a version that meets every requirement, and the solver fails: the version is yanked. -/
theorem yanked_version_not_selected : WellFormed majorSemver yankedRegistry ∧
    (∃ sel, ClosedSelection majorSemver yankedRegistry (fun _ => True) (anyVersion ["a"]) sel) ∧
    ∃ err, solveRegistryConstraints majorSemver yankedRegistry .forward 3 [] (anyVersion ["a"]) ∅ =
      some (.error err) := by
  refine ⟨?_, ?_, _, rfl⟩
  · apply wellFormed_of_entries
    intro entry hentry
    obtain rfl := List.mem_singleton.mp hentry
    refine ⟨_, rfl, Or.inl rfl, ?_⟩
    intro record hrecord
    obtain rfl := List.mem_singleton.mp hrecord
    exact ⟨⟨1, by decide⟩, fun dep hdep => absurd hdep List.not_mem_nil⟩
  -- the selection takes the yanked version
  · refine ⟨fun p => if p = "a" then some { package := "a", version := 1, dependencies := ∅ } else
      none, ?_, ?_, ?_⟩
    · intro p e he
      split at he
      · rename_i hp
        subst hp
        obtain rfl := Option.some.inj he
        exact ⟨_, _, rfl, List.mem_singleton.mpr rfl, trivial, by decide, rfl, rfl, rfl, rfl⟩
      · cases he
    · intro p hp
      have hpa : p = "a" := by
        rcases (AList.mem_insert _).mp hp with hpa | hempty
        · exact hpa
        · exact absurd hempty (AList.notMem_empty p)
      subst hpa
      refine ⟨_, if_pos rfl, ?_⟩
      intro r hr
      obtain rfl : r = none := List.mem_singleton.mp hr
      rfl
    · intro p e he d r hasks
      split at he
      · obtain rfl := Option.some.inj he
        obtain ⟨spec, str, hspec, -⟩ := hasks
        cases hspec
      · cases he

/-! ## Iteration order -/

section

variable {semver : Semver V R} {registry : RegistryIndex} {constraints : HashMap String (List R)}

open Classical in
/-- How many listed versions of `p` meet what the selection demands. -/
noncomputable def candidateCount (semver : Semver V R) (registry : RegistryIndex)
    (constraints : HashMap String (List R))
    (sel : String → Option (RegistrySelection V)) (p : String) : Nat :=
  match registryCandidatesFor semver registry p ([] : List R) with
  | .error _ => 0
  | .ok all => all.countP fun e =>
    decide (∀ r, (solverProblem semver registry constraints).Demanded sel p r →
      semver.reqMatches r e.version = true)

omit [DecidableEq R] in
theorem length_candidates {sel : String → Option (RegistrySelection V)}
    {c : HashMap String (List R)} {p : String} {candidates : List (RegistrySelection V)}
    (hexact : Exact (solverProblem semver registry constraints) sel c)
    (h : registryCandidatesFor semver registry p (reqsOf c p) = .ok candidates) :
    candidates.length = candidateCount semver registry constraints sel p := by
  rcases registryCandidatesFor_cases semver registry p (reqsOf c p) with
    ⟨err, herr, -⟩ | ⟨cands, all, hcands, hall, hperm⟩
  · rw [h] at herr
    cases herr
  · obtain rfl := Except.ok.inj (h.symm.trans hcands)
    unfold candidateCount
    rw [hall, hperm.length_eq, ← List.countP_eq_length_filter]
    refine List.countP_congr fun e _ => ?_
    simp only [List.all_eq_true, decide_eq_true_eq]
    exact forall_congr' fun r => imp_congr_left (hexact.reqs p r)

omit [DecidableEq R] in
theorem Branches.fewestChoices {sel : String → Option (RegistrySelection V)}
    {c : HashMap String (List R)} {p : String} {candidates : List (RegistrySelection V)}
    (h : Branches semver registry (solverProblem semver registry constraints) sel c p candidates) :
    (solverProblem semver registry constraints).Fewest
    (candidateCount semver registry constraints) sel p := by
  refine ⟨h.unresolved, ?_, ?_⟩
  · rw [← length_candidates h.exact h.loaded]
    exact List.length_pos_iff.mpr h.nonempty
  · intro q hq
    obtain ⟨candidates', hloaded, hle⟩ := h.fewest q hq
    rw [← length_candidates h.exact h.loaded, ← length_candidates h.exact hloaded]
    exact hle

/-- Two outcomes that select the same, or are both errors. -/
def Agree (a b : Outcome V R) : Prop :=
  (∃ out₁ out₂, a = some (.ok out₁) ∧ b = some (.ok out₂) ∧ selection out₁.2 = selection out₂.2) ∨
    ∃ err₁ err₂, a = some (.error err₁) ∧ b = some (.error err₂)

omit [DecidableEq R] in
theorem tryCandidates_agree {package : String} {recurse₁ recurse₂ : Nat → RegistrySelection V → Outcome V R}
    (candidates : List (RegistrySelection V)) (i : Nat) (last₁ last₂ : Option String)
    (h : ∀ j, ∀ e ∈ candidates, Agree (recurse₁ j e) (recurse₂ j e)) :
    Agree (tryCandidates package recurse₁ i candidates last₁)
      (tryCandidates package recurse₂ i candidates last₂) := by
  induction candidates generalizing i last₁ last₂ with
  | nil => exact Or.inr ⟨_, _, rfl, rfl⟩
  | cons e rest ih =>
    unfold tryCandidates
    rcases h i e List.mem_cons_self with ⟨out₁, out₂, h₁, h₂, hsame⟩ | ⟨err₁, err₂, h₁, h₂⟩
    · rw [h₁, h₂]
      exact Or.inl ⟨out₁, out₂, rfl, rfl, hsame⟩
    · rw [h₁, h₂]
      exact ih (i + 1) (some err₁) (some err₂) fun j e' hmem => h j e' (List.mem_cons_of_mem _ hmem)

/-- Two runs from the same selection end alike: both decide whether a solution lies above it. -/
theorem solve_decides (order₁ order₂ : HashOrder String) (fuel : Nat) (point : List Nat)
    {c₁ c₂ : HashMap String (List R)} {selected₁ selected₂ : HashMap String (RegistrySelection V)}
    (hsame : selection selected₁ = selection selected₂)
    (htracks₁ : Tracks (solverProblem semver registry constraints) (selection selected₁) c₁)
    (htracks₂ : Tracks (solverProblem semver registry constraints) (selection selected₂) c₂)
    (hpart : PartialSelection semver registry (solverProblem semver registry constraints)
      (selection selected₁))
    (hfuel : remaining registry selected₁ ≤ fuel) :
    (∃ out₁ out₂, solveRegistryConstraints semver registry order₁ (fuel + 2) point c₁ selected₁ =
      some (.ok out₁) ∧
      solveRegistryConstraints semver registry order₂ (fuel + 2) point c₂ selected₂ = some (.ok out₂) ∧
      (solverProblem semver registry constraints).Solution (selection out₁.2) ∧
      Extends (selection selected₁) (selection out₁.2)) ∨
    ∃ err₁ err₂, solveRegistryConstraints semver registry order₁ (fuel + 2) point c₁ selected₁ =
      some (.error err₁) ∧
      solveRegistryConstraints semver registry order₂ (fuel + 2) point c₂ selected₂ = some
        (.error err₂) := by
  have hfuel₂ : remaining registry selected₂ ≤ fuel := by
    have hlookup : ∀ p, selected₁.lookup p = selected₂.lookup p := fun p => congrFun hsame p
    unfold remaining at hfuel ⊢
    simpa only [hlookup] using hfuel
  -- a solution that one of the runs finds lies above both selections
  rcases solve_spec order₁ fuel point htracks₁ hpart hfuel with
    ⟨out₁, hout₁, hsol₁, -, hext₁⟩ | ⟨err₁, herr₁, hdead₁⟩
  · rcases solve_spec order₂ fuel point htracks₂ (hsame ▸ hpart) hfuel₂ with
      ⟨out₂, hout₂, -⟩ | ⟨err₂, -, hdead₂⟩
    · exact Or.inl ⟨out₁, out₂, hout₁, hout₂, hsol₁, hext₁⟩
    · exact absurd (hsame ▸ hext₁) (hdead₂ _ hsol₁)
  · rcases solve_spec order₂ fuel point htracks₂ (hsame ▸ hpart) hfuel₂ with
      ⟨out₂, -, hsol₂, -, hext₂⟩ | ⟨err₂, herr₂, -⟩
    · exact absurd (hsame ▸ hext₂) (hdead₁ _ hsol₂)
    · exact Or.inr ⟨err₁, err₂, herr₁, herr₂⟩

omit [DecidableEq R] in
/-- Without ties, two branches at one selection are the same branch. -/
theorem Branches.unique {sel : String → Option (RegistrySelection V)}
    {c₁ c₂ : HashMap String (List R)} {p₁ p₂ : String} {cands₁ cands₂ : List (RegistrySelection V)}
    (htie : (solverProblem semver registry constraints).TieFree
      (candidateCount semver registry constraints))
    (hexplored : (solverProblem semver registry constraints).Explored
      (candidateCount semver registry constraints) sel)
    (h₁ : Branches semver registry (solverProblem semver registry constraints) sel c₁ p₁ cands₁)
    (h₂ : Branches semver registry (solverProblem semver registry constraints) sel c₂ p₂ cands₂) :
    p₁ = p₂ ∧ cands₁ = cands₂ := by
  obtain rfl := htie sel hexplored p₁ p₂ h₁.fewestChoices h₂.fewestChoices
  have hreqs : ∀ r, r ∈ reqsOf c₁ p₁ ↔ r ∈ reqsOf c₂ p₁ :=
    fun r => (h₁.exact.reqs p₁ r).trans (h₂.exact.reqs p₁ r).symm
  have hload := h₁.loaded
  rw [registryCandidatesFor_congr p₁ hreqs, h₂.loaded] at hload
  exact ⟨rfl, (Except.ok.inj hload).symm⟩

/-- Two successful runs from the same selection: both return it, or both branch. -/
theorem solve_cases_pair (order₁ order₂ : HashOrder String) (fuel : Nat) (point : List Nat)
    {c₁ c₂ : HashMap String (List R)} {selected₁ selected₂ : HashMap String (RegistrySelection V)}
    (hsame : selection selected₁ = selection selected₂)
    (htracks₁ : Tracks (solverProblem semver registry constraints) (selection selected₁) c₁)
    (htracks₂ : Tracks (solverProblem semver registry constraints) (selection selected₂) c₂)
    {out₁ out₂ : HashMap String (List R) × HashMap String (RegistrySelection V)}
    (hout₁ : solveRegistryConstraints semver registry order₁ (fuel + 2) point c₁ selected₁ = some
      (.ok out₁))
    (hout₂ : solveRegistryConstraints semver registry order₂ (fuel + 2) point c₂ selected₂ = some
      (.ok out₂)) :
    (out₁.2 = selected₁ ∧ out₂.2 = selected₂) ∨
    ∃ c₁' c₂' p₁ p₂ cands₁ cands₂,
      solveRegistryConstraints semver registry order₁ (fuel + 2) point c₁ selected₁ =
        tryCandidates p₁ (fun i e => solveRegistryConstraints semver registry order₁ (fuel + 1)
          (i :: 2 :: point) c₁'
          (selected₁.insert p₁ e)) 0 cands₁ none ∧
      solveRegistryConstraints semver registry order₂ (fuel + 2) point c₂ selected₂ =
        tryCandidates p₂ (fun i e => solveRegistryConstraints semver registry order₂ (fuel + 1)
          (i :: 2 :: point) c₂'
          (selected₂.insert p₂ e)) 0 cands₂ none ∧
      Branches semver registry (solverProblem semver registry constraints) (selection selected₁) c₁'
        p₁ cands₁ ∧
      Branches semver registry (solverProblem semver registry constraints) (selection selected₁) c₂'
        p₂ cands₂ := by
  rcases solve_cases order₁ fuel point htracks₁ with
    ⟨err₁, h₁, -⟩ | ⟨c₁', h₁, -, hclosed₁⟩ | ⟨c₁', p₁, cands₁, h₁, hbranch₁⟩
  · rw [hout₁] at h₁
    cases h₁
  · rcases solve_cases order₂ fuel point htracks₂ with
      ⟨err₂, h₂, -⟩ | ⟨c₂', h₂, -, -⟩ | ⟨c₂', p₂, cands₂, -, hbranch₂⟩
    · rw [hout₂] at h₂
      cases h₂
    · rw [hout₁] at h₁
      rw [hout₂] at h₂
      refine Or.inl ⟨?_, ?_⟩
      · rw [Except.ok.inj (Option.some.inj h₁)]
      · rw [Except.ok.inj (Option.some.inj h₂)]
    · -- Nothing is open in the first run, so there is nothing to branch on in the second.
      obtain ⟨hwanted, hopen⟩ := hbranch₂.unresolved
      obtain ⟨e, he⟩ := hclosed₁ p₂ (hsame ▸ hwanted)
      rw [← hsame, he] at hopen
      cases hopen
  · rcases solve_cases order₂ fuel point htracks₂ with
      ⟨err₂, h₂, -⟩ | ⟨c₂', -, -, hclosed₂⟩ | ⟨c₂', p₂, cands₂, h₂, hbranch₂⟩
    · rw [hout₂] at h₂
      cases h₂
    · obtain ⟨hwanted, hopen⟩ := hbranch₁.unresolved
      obtain ⟨e, he⟩ := hclosed₂ p₁ (hsame ▸ hwanted)
      rw [hsame, he] at hopen
      cases hopen
    · exact Or.inr ⟨c₁', c₂', p₁, p₂, cands₁, cands₂, h₁, h₂, hbranch₁, hsame ▸ hbranch₂⟩

/-- Two runs that differ in their iteration orders only: without ties they branch on the same packages. -/
theorem solve_agree
    (htie : (solverProblem semver registry constraints).TieFree
      (candidateCount semver registry constraints))
    (order₁ order₂ : HashOrder String) (fuel : Nat) (point : List Nat)
    {c₁ c₂ : HashMap String (List R)} {selected₁ selected₂ : HashMap String (RegistrySelection V)}
    (hsame : selection selected₁ = selection selected₂)
    (htracks₁ : Tracks (solverProblem semver registry constraints) (selection selected₁) c₁)
    (htracks₂ : Tracks (solverProblem semver registry constraints) (selection selected₂) c₂)
    (hpart : PartialSelection semver registry (solverProblem semver registry constraints)
      (selection selected₁))
    (hexplored : (solverProblem semver registry constraints).Explored
      (candidateCount semver registry constraints)
      (selection selected₁))
    (hfuel : remaining registry selected₁ ≤ fuel) :
    Agree (solveRegistryConstraints semver registry order₁ (fuel + 2) point c₁ selected₁)
      (solveRegistryConstraints semver registry order₂ (fuel + 2) point c₂ selected₂) := by
  rcases solve_decides order₁ order₂ fuel point hsame htracks₁ htracks₂ hpart hfuel with
    ⟨out₁, out₂, hout₁, hout₂, -⟩ | herrs
  rotate_left
  · exact Or.inr herrs
  induction fuel generalizing point c₁ c₂ selected₁ selected₂ out₁ out₂ with
  | zero =>
    rcases solve_cases_pair order₁ order₂ 0 point hsame htracks₁ htracks₂ hout₁ hout₂ with
      ⟨h₁, h₂⟩ | ⟨_, _, _, _, cands₁, _, -, -, hbranch, -⟩
    · exact Or.inl ⟨out₁, out₂, hout₁, hout₂, by rw [h₁, h₂, hsame]⟩
    · -- A package that can be branched on is left, against the fuel.
      obtain ⟨e, he⟩ := List.exists_mem_of_ne_nil _ hbranch.nonempty
      have hlt := hbranch.remaining_lt he
      omega
  | succ fuel ih =>
    rcases solve_cases_pair order₁ order₂ (fuel + 1) point hsame htracks₁ htracks₂ hout₁ hout₂ with
      ⟨h₁, h₂⟩ | ⟨c₁', c₂', p, p₂, cands, cands₂, h₁, h₂, hbranch, hbranch₂⟩
    · exact Or.inl ⟨out₁, out₂, hout₁, hout₂, by rw [h₁, h₂, hsame]⟩
    · obtain ⟨rfl, rfl⟩ := hbranch.unique htie hexplored hbranch₂
      rw [h₁, h₂]
      refine tryCandidates_agree cands 0 none none fun j e hmem => ?_
      have hsame' : selection (selected₁.insert p e) = selection (selected₂.insert p e) := by
        rw [selection_insert, selection_insert, hsame]
      have htracks₁' := hbranch.exact.tracks (hbranch.extends e)
      have htracks₂' := hbranch₂.exact.tracks (hbranch.extends e)
      rw [hsame'] at htracks₂'
      have hpart' := hbranch.partialSelection hpart hmem
      have hlt := hbranch.remaining_lt hmem
      rcases solve_decides order₁ order₂ fuel (j :: 2 :: point) hsame' htracks₁' htracks₂' hpart'
        (by omega) with
        ⟨out₁', out₂', hout₁', hout₂', hsol, hext⟩ | herrs
      · refine ih (j :: 2 :: point) hsame' htracks₁' htracks₂' hpart' ?_
          (by omega) out₁' out₂' hout₁' hout₂'
        have hchosen : selection (selected₁.insert p e) p = some e := AList.lookup_insert _
        have hmatches := (mem_candidates hbranch.loaded e).mp hmem
        rw [selection_insert]
        exact .choose hexplored hbranch.fewestChoices (hsol.offered p e (hext p e hchosen))
          fun r hr => hmatches.2 r ((hbranch.exact.reqs p r).mpr hr)
      · exact Or.inr herrs

variable (registry) in
theorem solve_agree_start
    (htie : (solverProblem semver registry constraints).TieFree
      (candidateCount semver registry constraints))
    (order₁ order₂ : HashOrder String) {fuel : Nat}
    (hfuel : registry.files.keys.length + 2 ≤ fuel) :
    Agree (solveRegistryConstraints semver registry order₁ fuel [] constraints ∅)
      (solveRegistryConstraints semver registry order₂ fuel [] constraints ∅) := by
  obtain ⟨fuel, rfl⟩ : ∃ n, fuel = n + 2 := ⟨fuel - 2, by omega⟩
  have hremaining : remaining registry (∅ : HashMap String (RegistrySelection V)) ≤ fuel := by
    rw [remaining_empty]
    omega
  exact solve_agree htie order₁ order₂ fuel [] rfl (tracks_self _)
    (tracks_self _) partialSelection_empty .start
    hremaining

end

/-- Iteration order does not decide whether the solver succeeds. It decides what is selected only
where two open packages tie for the fewest candidates and there are several selections without
superfluous packages. -/
theorem solve_order_independent (semver : Semver V R) (registry : RegistryIndex)
    (constraints : HashMap String (List R)) (order₁ order₂ : HashOrder String) :
    ∃ bound, ∀ fuel ≥ bound,
      (∃ err₁ err₂,
        solveRegistryConstraints semver registry order₁ fuel [] constraints ∅ = some (.error err₁) ∧
        solveRegistryConstraints semver registry order₂ fuel [] constraints ∅ = some (.error err₂)) ∨
      ∃ out₁ out₂,
        solveRegistryConstraints semver registry order₁ fuel [] constraints ∅ = some (.ok out₁) ∧
        solveRegistryConstraints semver registry order₂ fuel [] constraints ∅ = some (.ok out₂) ∧
        (solverProblem semver registry constraints).Solution (selection out₁.2) ∧
        (solverProblem semver registry constraints).Solution (selection out₂.2) ∧
        ((solverProblem semver registry constraints).TieFree (candidateCount semver registry constraints) ∨
          (∀ sel sel', (solverProblem semver registry constraints).Solution sel →
            (solverProblem semver registry constraints).Grounded sel →
            (solverProblem semver registry constraints).Solution sel' →
            (solverProblem semver registry constraints).Grounded sel' → sel = sel') →
          selection out₁.2 = selection out₂.2) := by
  refine ⟨registry.files.keys.length + 2, fun fuel hfuel => ?_⟩
  rcases solve_start semver registry constraints order₁ hfuel with
    ⟨out₁, hout₁, hsol₁, hground₁⟩ | ⟨err₁, herr₁, hnone₁⟩
  · rcases solve_start semver registry constraints order₂ hfuel with
      ⟨out₂, hout₂, hsol₂, hground₂⟩ | ⟨err₂, -, hnone₂⟩
    · refine Or.inr ⟨out₁, out₂, hout₁, hout₂, hsol₁, hsol₂, ?_⟩
      -- without ties both runs branch at the same packages; with one solution they can find no
      -- other
      rintro (htie | hunique)
      · have hagree := solve_agree_start registry htie order₁ order₂ hfuel
        rcases hagree with ⟨out₁', out₂', h₁, h₂, hsame⟩ | ⟨err, -, h₁, -⟩
        · rw [hout₁] at h₁
          rw [hout₂] at h₂
          rw [Except.ok.inj (Option.some.inj h₁), Except.ok.inj (Option.some.inj h₂), hsame]
        · rw [hout₁] at h₁
          cases h₁
      · exact hunique _ _ hsol₁ hground₁ hsol₂ hground₂
    · exact absurd hsol₁ (hnone₂ _)
  · rcases solve_start semver registry constraints order₂ hfuel with
      ⟨out₂, -, hsol₂, -⟩ | ⟨err₂, herr₂, -⟩
    · exact absurd hsol₂ (hnone₁ _)
    · exact Or.inl ⟨err₁, err₂, herr₁, herr₂⟩

/-- Two packages with two candidates each: the one that the walk meets first gets its new version. -/
theorem rivalRegistry_order_decides :
    ∃ out₁ out₂,
      solveRegistryConstraints majorSemver rivalRegistry .forward 4 [] (anyVersion ["a", "b"]) ∅ =
        some (.ok out₁) ∧
      solveRegistryConstraints majorSemver rivalRegistry .backward 4 [] (anyVersion ["a", "b"]) ∅ =
        some (.ok out₂) ∧
      (out₁.2.lookup "a").map (·.version) = some 2 ∧ (out₂.2.lookup "a").map (·.version) = some 1 ∧
      selection out₁.2 ≠ selection out₂.2 := by
  have hread : ∀ (order : HashOrder String) (version : Nat),
      (solveRegistryConstraints majorSemver rivalRegistry order 4 [] (anyVersion ["a", "b"]) ∅).map
        (fun result => result.toOption.map fun out => (out.2.lookup "a").map (·.version)) =
        some (some (some version)) →
      ∃ out, solveRegistryConstraints majorSemver rivalRegistry order 4 [] (anyVersion ["a", "b"]) ∅ =
        some (.ok out) ∧ (out.2.lookup "a").map (·.version) = some version := by
    intro order version h
    obtain ⟨result, hresult, hout⟩ := Option.map_eq_some_iff.mp h
    cases result with
    | error err => cases hout
    | ok out => exact ⟨out, hresult, Option.some.inj hout⟩
  obtain ⟨out₁, hout₁, ha₁⟩ := hread .forward 2 (by decide +kernel)
  obtain ⟨out₂, hout₂, ha₂⟩ := hread .backward 1 (by decide +kernel)
  refine ⟨out₁, out₂, hout₁, hout₂, ha₁, ha₂, fun hsame => ?_⟩
  have hlookup : out₁.2.lookup "a" = out₂.2.lookup "a" := congrFun hsame "a"
  rw [hlookup, ha₂] at ha₁
  cases ha₁

end ShapeLang.Packages
