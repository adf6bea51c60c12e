import ShapeLang.Bytecode.LinkSpec
import ShapeLang.Bytecode.LinkedStates

/-!
# ShapeLang — when the hashes settle

A pointer from a caller to a callee is good as long as the callee keeps its hash. What the joint loop
does to pointers can therefore be followed without looking at any hash, by two facts per function: has
it just got a new hash, and which permissions does it have. A new hash travels one plain call up in
each dependency pass, a permission one call up in each permission pass, and a permission that arrives
makes a new hash.

  * `Wave`, `depPass`, `permPass` — these two facts and what a pass does to them;
  * `HashesSettle` — ten rounds leave no called function with a new hash;
  * `Tracks` — the loop's state and its wave agree, pass by pass;
  * `Resolved` — the finished store has no dangling pointer, and links, exactly when the hashes settle.
-/

namespace ShapeLang.Bytecode

open Relation

variable {β η κ : Type}

/-! ## Waves -/

section Waves

variable (unit : Compilation β)

/-- `a` is finished before `b`. -/
def CompiledBefore (a b : String) : Prop :=
  ∃ pre post, unit.builders = pre ++ post ∧ a ∈ pre.map (·.name) ∧ b ∈ post.map (·.name)

/-- The functions the first dependency pass changes: a callee was not there yet, or a pointer along a
cycle has to be reset. -/
def FirstRehash (n : String) : Prop :=
  (∃ m, PlainCall unit n m ∧ ¬ CompiledBefore unit m n) ∨
    ∃ m, CycleCall unit n m ∧ CompiledBefore unit m n

/-- What of a state matters to pointers. -/
structure Wave where
  /-- The function has got a new hash since its callers were resolved. -/
  rehashed : String → Prop
  permissions : String → Set Permission

namespace Wave

def depPass (w : Wave) : Wave :=
  { w with rehashed := fun n => ∃ m, PlainCall unit n m ∧ w.rehashed m }

/-- A permission comes over a pointer that is good. -/
def arrived (w : Wave) (n : String) : Set Permission :=
  {p | p ∈ w.permissions n ∨ ∃ m, PlainCall unit n m ∧ ¬ w.rehashed m ∧ p ∈ w.permissions m}

def permPass (w : Wave) : Wave where
  rehashed n := w.rehashed n ∨ w.arrived unit n ≠ w.permissions n
  permissions := w.arrived unit

/-- After the first dependency pass. -/
def first : Wave where
  rehashed := FirstRehash unit
  permissions n := {p | ∃ x ∈ unit.builders, x.name = n ∧ p ∈ x.requiredPermissions}

def round (w : Wave) : Wave := ((depPass unit)^[maxIterations] w).permPass unit

/-- After ten rounds, the first of which has one dependency pass behind it. -/
def last : Wave := (round unit)^[9] (((depPass unit)^[9] (first unit)).permPass unit)

end Wave

/-- No function that is called outside a cycle has a new hash at the end. -/
def HashesSettle : Prop := ∀ n m, PlainCall unit n m → ¬ (Wave.last unit).rehashed m

end Waves

variable {unit : Compilation β}

theorem plainCall_acyclic {n : String} (h : TransGen (PlainCall unit) n n) : False := by
  obtain ⟨m, hnm, hmn⟩ := TransGen.head'_iff.mp h
  exact hnm.2.2 (ReflTransGen.mono (fun _ _ hc => hc.1) _ _ hmn)

/-- A second permission pass in a row brings nothing: what has arrived is behind a new hash. -/
theorem Wave.permPass_permPass (w : Wave) : (w.permPass unit).permPass unit = w.permPass unit := by
  have harrived : ∀ n, (w.permPass unit).arrived unit n = w.arrived unit n := by
    intro n
    ext p
    constructor
    · rintro (hp | ⟨m, hm, hold, hp⟩)
      · exact hp
      · have hold' : ¬ (w.rehashed m ∨ w.arrived unit m ≠ w.permissions m) := hold
        have hsame : w.arrived unit m = w.permissions m := by
          by_contra hne
          exact hold' (Or.inr hne)
        have hp' : p ∈ w.arrived unit m := hp
        rw [hsame] at hp'
        exact Or.inr ⟨m, hm, fun hr => hold' (Or.inl hr), hp'⟩
    · intro hp
      exact Or.inl hp
  have hperms : (w.permPass unit).arrived unit = (w.permPass unit).permissions := funext harrived
  show Wave.mk (fun n => (w.permPass unit).rehashed n ∨
      (w.permPass unit).arrived unit n ≠ (w.permPass unit).permissions n)
    ((w.permPass unit).arrived unit) = w.permPass unit
  rw [hperms]
  simp only [ne_eq, not_true_eq_false, or_false]

theorem Wave.iterate_permPass (w : Wave) (k : Nat) :
    (Wave.permPass unit)^[k + 1] w = w.permPass unit := by
  induction k with
  | zero => rfl
  | succ k ih => rw [Function.iterate_succ_apply', ih, Wave.permPass_permPass]

/-! ## The wave of a state -/

section States

variable [DecidableEq η] {H : Sha256 β η} {cyclic : List (String × String)}

/-- `b` has, at `i`, the pointer `d` to its plain callee `m`, whose blob is `c`. -/
structure PointsTo (unit : Compilation β) (st : LinkState β η) (n : String) (b : FunctionBlob β η)
    (i : Nat) (m : String) (d : η) (c : FunctionBlob β η) : Prop where
  caller : st.blob? n = some b
  callee : st.blob? m = some c
  call : PlainCall unit n m
  name : b.calleeNames[i]? = some m
  pointer : b.dependencies[i]? = some d

/-- A callee that is not a function of the compilation has no hash. -/
def UnknownZero (H : Sha256 β η) (unit : Compilation β) (st : LinkState β η) : Prop :=
  ∀ n b, st.blob? n = some b → ∀ (i : Nat) m d, m ∉ unit.names → b.calleeNames[i]? = some m →
    b.dependencies[i]? = some d → d = H.zero

structure Tracks (H : Sha256 β η) (unit : Compilation β) (cyclic : List (String × String))
    (st : LinkState β η) (w : Wave) : Prop where
  linked : Linked H unit st
  cycleZero : CycleZero H cyclic st
  unknownZero : UnknownZero H unit st
  permissions : ∀ n b, st.blob? n = some b → ∀ p, p ∈ b.requiredPermissions ↔ p ∈ w.permissions n
  good_iff : ∀ n b i m d c, PointsTo unit st n b i m d c → (d = c.contentHash ↔ ¬ w.rehashed m)
  /-- A pointer is a digest of the callee with no more permissions than it has now. -/
  older : ∀ n b i m d c, PointsTo unit st n b i m d c →
    ∃ input, d = H.digest input ∧ ∃ s : PermissionSet, s ⊆ c.requiredPermissions ∧
      input.requiredPermissionNames = s.iter.map Permission.name

variable {st : LinkState β η} {n : String}

theorem Linked.exists_blob (h : Linked H unit st) (hn : n ∈ unit.names) : ∃ b, st.blob? n = some b :=
  Option.isSome_iff_exists.mp ((h.isSome_iff n).mpr hn)

/-- The pointer of a call. -/
theorem Linked.exists_pointer (h : Linked H unit st) {m : String} (hcall : Calls unit n m) :
    ∃ (b : FunctionBlob β η) (i : Nat) (d : η), st.blob? n = some b ∧
      b.calleeNames[i]? = some m ∧ b.dependencies[i]? = some d := by
  obtain ⟨x, hx, hxn, hmem, -⟩ := hcall
  obtain ⟨b, hb⟩ := h.exists_blob (List.mem_map.mpr ⟨x, hx, hxn⟩)
  obtain ⟨y, hy, hyn, hcallees, -⟩ := (h.ok n b hb).built
  obtain rfl : y = x := unit.builder_unique hy hx (hyn.trans hxn.symm)
  obtain ⟨i, hi⟩ := List.mem_iff_getElem?.mp (hcallees ▸ hmem)
  have hlt := (List.getElem?_eq_some_iff.mp hi).1
  rw [← (h.ok n b hb).aligned] at hlt
  exact ⟨b, i, _, hb, hi, List.getElem?_eq_getElem hlt⟩

theorem Linked.exists_pointsTo (h : Linked H unit st) {m : String} (hcall : PlainCall unit n m) :
    ∃ b i d c, PointsTo unit st n b i m d c := by
  obtain ⟨b, i, d, hb, hi, hd⟩ := h.exists_pointer hcall.1
  obtain ⟨x, -, -, -, hm⟩ := hcall.1
  obtain ⟨c, hc⟩ := h.exists_blob hm
  exact ⟨b, i, d, c, hb, hc, hcall, hi, hd⟩

omit [DecidableEq η] in
/-- The callee that a pointer which is a blob's hash was made for. -/
theorem BlobOk.callee_of_digest {b : FunctionBlob β η} (h : BlobOk H unit n b) {i : Nat} {d : η}
    (hd : b.dependencies[i]? = some d) {c : FunctionBlob β η} (hc : d = c.computeHash H) :
    ∃ callee, b.calleeNames[i]? = some callee ∧ c.name = callee := by
  have hlt := (List.getElem?_eq_some_iff.mp hd).1
  rw [h.aligned] at hlt
  refine ⟨_, List.getElem?_eq_getElem hlt, ?_⟩
  rcases h.honest i _ d (List.getElem?_eq_getElem hlt) hd with hz | ⟨input, hin, hdi⟩
  · exact absurd (hz.symm.trans hc).symm (H.digest_ne_zero _)
  · rw [← hin]
    exact congrArg FunctionBlobHashInput.name (H.digest_injective (hc.symm.trans hdi))

section Passes

variable (hcyc : ∀ a b, (a, b) ∈ cyclic ↔ CycleCall unit a b)
include hcyc

variable {st : LinkState β η} {n : String}

/-- What a dependency pass writes over a plain call: the callee's hash before the pass. -/
theorem resolveDep_plain (h : Linked H unit st) {m : String} {c : FunctionBlob β η}
    (hcall : PlainCall unit n m) (hc : st.blob? m = some c) (d : η) :
    resolveDep H cyclic st n m d = c.contentHash := by
  have hself : m ≠ n := fun heq => hcall.2.1 heq.symm
  have hncyc : (n, m) ∉ cyclic := fun hmem => hcall.2.2 ((hcyc n m).mp hmem).2.2
  rw [resolveDep, if_neg hself, if_neg hncyc, h.coherent.blobNameToHash_eq, hc]
  rfl

/-- A blob is settled when its pointers along cycles are reset and the others are good. -/
theorem settled_iff_pointers (h : Linked H unit st) {b : FunctionBlob β η} (hb : st.blob? n = some b) :
    Settled H cyclic st b ↔
      (∀ (i : Nat) callee d, CycleCall unit n callee → b.calleeNames[i]? = some callee →
        b.dependencies[i]? = some d → d = H.zero) ∧
      ∀ i m d c, PointsTo unit st n b i m d c → d = c.contentHash := by
  obtain ⟨-, rfl⟩ := h.coherent.blob?_finalized hb
  rw [settled_iff]
  -- what resolving does to a pointer, by the kind of its callee
  constructor
  · intro hset
    refine ⟨fun i callee d hcycle hc hd => ?_, fun i m d c hp => ?_⟩
    · have hres := hset i callee d hc hd
      have hself : callee ≠ b.name := fun heq => hcycle.2.1 heq.symm
      rw [resolveDep, if_neg hself, if_pos ((hcyc _ _).mpr hcycle)] at hres
      exact hres.symm
    · rw [← resolveDep_plain hcyc h hp.call hp.callee d]
      exact (hset i m d hp.name hp.pointer).symm
  -- the function itself, a callee on a cycle, a callee without a blob, a plain call
  · rintro ⟨hcycle, hplain⟩ i callee d hc hd
    by_cases hself : callee = b.name
    · rw [resolveDep, if_pos hself]
    · by_cases hmem : (b.name, callee) ∈ cyclic
      · rw [resolveDep, if_neg hself, if_pos hmem]
        exact (hcycle i callee d ((hcyc _ _).mp hmem) hc hd).symm
      · cases hcb : st.blob? callee with
        | none =>
          rw [resolveDep, if_neg hself, if_neg hmem, h.coherent.blobNameToHash_eq, hcb]
          rfl
        | some c =>
          have hin : callee ∈ unit.names := (h.isSome_iff callee).mp (by rw [hcb]; rfl)
          have hcall := plainCall_of_callee hcyc (h.ok _ b hb) hc hself hmem hin
          rw [resolveDep_plain hcyc h hcall hcb d]
          exact (hplain i callee d c ⟨hb, hcb, hcall, hc, hd⟩).symm

variable {w : Wave}

/-- **A dependency pass, from any state.** Afterwards a pointer is good when its callee was settled. -/
theorem depIteration_tracks (h : Linked H unit st) (hunknown : UnknownZero H unit st)
    (hset : ∀ m c, st.blob? m = some c → (Settled H cyclic st c ↔ ¬ w.rehashed m))
    (hperm : ∀ n b, st.blob? n = some b → ∀ p, p ∈ b.requiredPermissions ↔ p ∈ w.permissions n) :
    Tracks H unit cyclic (depIteration H cyclic st).1 w := by
  obtain ⟨hcoh, hblob⟩ := blob?_depIteration cyclic h.coherent
  obtain ⟨hlinked, hzero⟩ := depIteration_linked hcyc h
  -- the pointer written, and the callee's blob on both sides of the pass
  have hpointer : ∀ n b i m d c, PointsTo unit (depIteration H cyclic st).1 n b i m d c →
      ∃ c₀, st.blob? m = some c₀ ∧ c = resolved H cyclic st c₀ ∧ d = c₀.contentHash := by
    intro n b i m d c hp
    have hb := hp.caller
    have hc := hp.callee
    rw [hblob] at hb hc
    obtain ⟨b₀, hb₀, rfl⟩ := Option.map_eq_some_iff.mp hb
    obtain ⟨c₀, hc₀, rfl⟩ := Option.map_eq_some_iff.mp hc
    have hd : (resolveDeps H cyclic st b₀)[i]? = some d := hp.pointer
    have hname : b₀.calleeNames[i]? = some m := hp.name
    rw [getElem?_resolveDeps, hname, (h.coherent.blob?_finalized hb₀).2] at hd
    obtain ⟨d₀, -, rfl⟩ := Option.map_eq_some_iff.mp hd
    exact ⟨c₀, hc₀, rfl, resolveDep_plain hcyc h hp.call hc₀ d₀⟩
  refine ⟨hlinked, hzero, fun n b hb i m d hm hname hd => ?_, fun n b hb p => ?_,
    fun n b i m d c hp => ?_, fun n b i m d c hp => ?_⟩
  · rw [hblob] at hb
    obtain ⟨b₀, hb₀, rfl⟩ := Option.map_eq_some_iff.mp hb
    have hname' : b₀.calleeNames[i]? = some m := hname
    have hd' : (resolveDeps H cyclic st b₀)[i]? = some d := hd
    rw [getElem?_resolveDeps, hname'] at hd'
    obtain ⟨d₀, hd₀, rfl⟩ := Option.map_eq_some_iff.mp hd'
    have hnone : st.blob? m = none := by
      rw [← Option.not_isSome_iff_eq_none, h.isSome_iff]
      exact hm
    show resolveDep H cyclic st b₀.name m d₀ = H.zero
    rw [resolveDep, h.coherent.blobNameToHash_eq, hnone, hunknown n b₀ hb₀ i m d₀ hm hname' hd₀]
    simp
  · rw [hblob] at hb
    obtain ⟨b₀, hb₀, rfl⟩ := Option.map_eq_some_iff.mp hb
    exact hperm n b₀ hb₀ p
  · obtain ⟨c₀, hc₀, rfl, rfl⟩ := hpointer n b i m d c hp
    have hfin := (h.coherent.blob?_finalized hc₀).1
    rw [← hset m c₀ hc₀]
    constructor
    · intro heq
      by_contra hne
      exact computeHash_ne_of_dependencies_ne hne hfin heq.symm
    · intro hs
      rw [resolved_of_settled hs hfin]
  · obtain ⟨c₀, hc₀, rfl, rfl⟩ := hpointer n b i m d c hp
    exact ⟨_, (h.coherent.blob?_finalized hc₀).1, c₀.requiredPermissions, subset_rfl, rfl⟩

theorem Tracks.depPass (h : Tracks H unit cyclic st w) :
    Tracks H unit cyclic (depIteration H cyclic st).1 (w.depPass unit) := by
  refine depIteration_tracks hcyc h.linked h.unknownZero (fun m c hc => ?_) h.permissions
  rw [settled_iff_pointers hcyc h.linked hc]
  constructor
  · rintro ⟨-, hgood⟩ ⟨k, hk, hrehashed⟩
    obtain ⟨b, i, d, ck, hp⟩ := h.linked.exists_pointsTo hk
    obtain rfl : b = c := Option.some.inj (hp.caller.symm.trans hc)
    exact (h.good_iff m b i k d ck hp).mp (hgood i k d ck hp) hrehashed
  · intro hnone
    refine ⟨fun i callee d hcycle hname hd => ?_, fun i k d ck hp => ?_⟩
    · exact h.cycleZero m c hc i callee d ((hcyc m callee).mpr hcycle) hname hd
    · exact (h.good_iff m c i k d ck hp).mpr fun hr => hnone ⟨k, hp.call, hr⟩

/-- What comes over the pointers in a permission pass. -/
theorem Tracks.mem_accumulated_iff (h : Tracks H unit cyclic st w) {b : FunctionBlob β η}
    (hb : st.blob? n = some b) (p : Permission) :
    p ∈ accumulated st b ↔ p ∈ w.arrived unit n := by
  rw [mem_accumulated]
  constructor
  · rintro (hp | ⟨d, hd, c, hget, hp⟩)
    · exact Or.inl ((h.permissions n b hb p).mp hp)
    · -- a pointer found in the store is a plain one, and good
      have hok := h.linked.ok n b hb
      obtain ⟨hc, hdc⟩ := h.linked.coherent.get_eq_some_iff.mp hget
      have hdigest : d = c.computeHash H := hdc.trans (h.linked.coherent.blob?_finalized hc).1
      have hne : d ≠ H.zero := hdigest ▸ H.digest_ne_zero _
      obtain ⟨i, hi⟩ := List.mem_iff_getElem?.mp hd
      obtain ⟨callee, hcallee, hname⟩ := hok.callee_of_digest hi hdigest
      rw [hname] at hc
      have hself : callee ≠ n := fun heq => hne (hok.self_zero i d (heq ▸ hcallee) hi)
      have hncyc : (n, callee) ∉ cyclic :=
        fun hmem => hne (h.cycleZero n b hb i callee d hmem hcallee hi)
      have hin : callee ∈ unit.names := (h.linked.isSome_iff callee).mp (by rw [hc]; rfl)
      have hcall := plainCall_of_callee hcyc hok hcallee hself hncyc hin
      have hpoint : PointsTo unit st n b i callee d c := ⟨hb, hc, hcall, hcallee, hi⟩
      exact Or.inr ⟨callee, hcall, (h.good_iff _ _ _ _ _ _ hpoint).mp hdc,
        (h.permissions callee c hc p).mp hp⟩
  · rintro (hp | ⟨m, hm, hgood, hp⟩)
    · exact Or.inl ((h.permissions n b hb p).mpr hp)
    · obtain ⟨b', i, d, c, hpoint⟩ := h.linked.exists_pointsTo hm
      obtain rfl : b' = b := Option.some.inj (hpoint.caller.symm.trans hb)
      have hd := (h.good_iff _ _ _ _ _ _ hpoint).mpr hgood
      have hname := (h.linked.coherent.blob?_finalized hpoint.callee).2
      refine Or.inr ⟨d, List.mem_of_getElem? hpoint.pointer, c, ?_, ?_⟩
      · exact h.linked.coherent.get_eq_some_iff.mpr ⟨hname.symm ▸ hpoint.callee, hd⟩
      · exact (h.permissions m c hpoint.callee p).mpr hp

theorem Tracks.permPass (h : Tracks H unit cyclic st w) :
    Tracks H unit cyclic (permIteration H st).1 (w.permPass unit) := by
  obtain ⟨hcoh, hblob⟩ := blob?_permIteration h.linked.coherent
  obtain ⟨hlinked, hzero⟩ := permIteration_linked hcyc h.linked h.cycleZero
  -- the pointer is the one from before the pass
  have hpointer : ∀ n b i m d c, PointsTo unit (permIteration H st).1 n b i m d c →
      ∃ b₀ c₀, PointsTo unit st n b₀ i m d c₀ ∧ c = inherited H st c₀ := by
    intro n b i m d c hp
    have hb := hp.caller
    have hc := hp.callee
    rw [hblob] at hb hc
    obtain ⟨b₀, hb₀, rfl⟩ := Option.map_eq_some_iff.mp hb
    obtain ⟨c₀, hc₀, rfl⟩ := Option.map_eq_some_iff.mp hc
    exact ⟨b₀, c₀, ⟨hb₀, hc₀, hp.call, hp.name, hp.pointer⟩, rfl⟩
  refine ⟨hlinked, hzero, fun n b hb i m d hm hname hd => ?_, fun n b hb p => ?_,
    fun n b i m d c hp => ?_, fun n b i m d c hp => ?_⟩
  · rw [hblob] at hb
    obtain ⟨b₀, hb₀, rfl⟩ := Option.map_eq_some_iff.mp hb
    exact h.unknownZero n b₀ hb₀ i m d hm hname hd
  · rw [hblob] at hb
    obtain ⟨b₀, hb₀, rfl⟩ := Option.map_eq_some_iff.mp hb
    exact h.mem_accumulated_iff hcyc hb₀ p
  · obtain ⟨b₀, c₀, hp₀, rfl⟩ := hpointer n b i m d c hp
    have hfin := (h.linked.coherent.blob?_finalized hp₀.callee).1
    have hmem := h.mem_accumulated_iff hcyc hp₀.callee
    have hold := h.permissions m c₀ hp₀.callee
    show d = (inherited H st c₀).contentHash ↔
      ¬ (w.rehashed m ∨ w.arrived unit m ≠ w.permissions m)
    by_cases hsame : accumulated st c₀ = c₀.requiredPermissions
    · -- nothing arrives, the callee stays as it is
      have hstay : w.arrived unit m = w.permissions m := by
        ext p
        rw [← hmem p, ← hold p, hsame]
      rw [inherited, hsame, FunctionBlob.finalize_of_finalized hfin, hstay,
        h.good_iff _ _ _ _ _ _ hp₀]
      simp
    · -- the new digest has a permission that no older one has
      have hchange : w.arrived unit m ≠ w.permissions m := by
        intro heq
        refine hsame (Finset.ext fun p => ?_)
        rw [hmem p, hold p, heq]
      refine iff_of_false (fun heq => ?_) (fun hnot => hnot (Or.inr hchange))
      obtain ⟨input, hd, s, hs, hnames⟩ := h.older _ _ _ _ _ _ hp₀
      have hinput := H.digest_injective (hd.symm.trans heq)
      have hsets : s = accumulated st c₀ := by
        apply PermissionSet.names_injective
        rw [← hnames]
        exact congrArg FunctionBlobHashInput.requiredPermissionNames hinput
      refine hsame (Finset.Subset.antisymm (hsets ▸ hs) fun p hp => ?_)
      exact mem_accumulated.mpr (Or.inl hp)
  · obtain ⟨b₀, c₀, hp₀, rfl⟩ := hpointer n b i m d c hp
    obtain ⟨input, hd, s, hs, hnames⟩ := h.older _ _ _ _ _ _ hp₀
    exact ⟨input, hd, s, fun p hp => mem_accumulated.mpr (Or.inl (hs hp)), hnames⟩

theorem Tracks.iterate_depPass (h : Tracks H unit cyclic st w) (k : Nat) :
    Tracks H unit cyclic ((fun s => (depIteration H cyclic s).1)^[k] st)
      ((Wave.depPass unit)^[k] w) := by
  induction k with
  | zero => exact h
  | succ k ih =>
    rw [Function.iterate_succ_apply', Function.iterate_succ_apply']
    exact ih.depPass hcyc

/-- The ten permission passes of a round. -/
theorem Tracks.iterate_permPass (h : Tracks H unit cyclic st w) :
    Tracks H unit cyclic ((fun s => (permIteration H s).1)^[maxIterations] st)
      (w.permPass unit) := by
  have hrun : ∀ k, Tracks H unit cyclic ((fun s => (permIteration H s).1)^[k] st)
      ((Wave.permPass unit)^[k] w) := by
    intro k
    induction k with
    | zero => exact h
    | succ k ih =>
      rw [Function.iterate_succ_apply', Function.iterate_succ_apply']
      exact ih.permPass hcyc
  have hten := hrun maxIterations
  rwa [maxIterations, Wave.iterate_permPass] at hten

theorem Tracks.round (h : Tracks H unit cyclic st w) :
    Tracks H unit cyclic (jointIteration H cyclic st).1 (w.round unit) := by
  rw [jointIteration_eq]
  exact (h.iterate_depPass hcyc maxIterations).iterate_permPass hcyc

end Passes

/-! ## The first pass -/

variable {m : String}

theorem not_compiledBefore_of_split {pre rest : List (FunctionBlobBuilder β)} {x : FunctionBlobBuilder β}
    (hsplit : unit.builders = pre ++ x :: rest) (hm : m ∉ pre.map (·.name)) :
    ¬ CompiledBefore unit m x.name := by
  rintro ⟨pre', post', hsplit', hm', hn'⟩
  have hnd := unit.names_nodup
  rw [hsplit] at hsplit'
  rcases List.append_eq_append_iff.mp hsplit' with ⟨l, hl, hrest⟩ | ⟨l, hl, hrest⟩
  · -- the split is after `x`, whose name would then occur twice
    cases l with
    | nil =>
      rw [List.append_nil] at hl
      exact hm (hl ▸ hm')
    | cons y l =>
      rw [List.cons_append] at hrest
      obtain ⟨rfl, rfl⟩ := List.cons.inj hrest
      rw [hsplit, List.map_append, List.nodup_append] at hnd
      have htail := hnd.2.1
      rw [List.map_cons, List.nodup_cons, List.map_append, List.mem_append] at htail
      exact htail.1 (Or.inr hn')
  · rw [hl, List.map_append, List.mem_append] at hm
    exact hm (Or.inl hm')

/-- What the compiler wrote: the hash of a callee that was finished before, the sentinel for others. -/
def PointerWritten (H : Sha256 β η) (unit : Compilation β) (st : LinkState β η) (n m : String) (d : η) :
    Prop :=
  (CompiledBefore unit m n ∧ ∃ c, st.blob? m = some c ∧ d = c.contentHash) ∨
    (¬ CompiledBefore unit m n ∧ d = H.zero)

theorem compileBlobs_pointer (H : Sha256 β η) (unit : Compilation β) (n : String)
    (b : FunctionBlob β η) (hb : (compileBlobs H unit).blob? n = some b) (i : Nat) (m : String) (d : η)
    (hm : b.calleeNames[i]? = some m) (hd : b.dependencies[i]? = some d) :
    PointerWritten H unit (compileBlobs H unit) n m d := by
  refine (compileBlobs_induction H unit (P := fun _ st => ∀ n b,
    st.blob? n = some b → ∀ (i : Nat) m d, b.calleeNames[i]? = some m →
      b.dependencies[i]? = some d → PointerWritten H unit st n m d)
    (fun n b hb => by simp [LinkState.blob?] at hb) ?_).2.2 n b hb i m d hm hd
  intro pre x rest st hsplit hcoh hsome hnew hold n b hb i m d hm hd
  obtain ⟨hcoh', hblob⟩ := compileBlob_spec hcoh hnew
  -- blobs that are there stay
  have hkeep : ∀ m c, st.blob? m = some c → (compileBlob H st x).blob? m = some c := by
    intro m c hc
    rw [hblob, if_neg, hc]
    rintro rfl
    rw [hnew] at hc
    cases hc
  rw [hblob] at hb
  split at hb
  · rename_i hn
    subst hn
    obtain rfl := Option.some.inj hb
    have hm' : x.calledFunctions[i]? = some m := hm
    have hd' : (x.calledFunctions.map fun c => (st.blobNameToHash c).getD H.zero)[i]? = some d := hd
    rw [List.getElem?_map, hm'] at hd'
    have hwritten : (st.blobNameToHash m).getD H.zero = d := Option.some.inj hd'
    rw [hcoh.blobNameToHash_eq] at hwritten
    cases hmb : st.blob? m with
    | some c =>
      rw [hmb] at hwritten
      have hpre : m ∈ pre.map (·.name) := (hsome m).mp (by rw [hmb]; rfl)
      exact Or.inl ⟨⟨pre, x :: rest, hsplit, hpre, List.mem_cons_self⟩, c, hkeep m c hmb,
        hwritten.symm⟩
    | none =>
      rw [hmb] at hwritten
      have hpre : m ∉ pre.map (·.name) := by
        rw [← hsome, hmb]
        simp
      exact Or.inr ⟨not_compiledBefore_of_split hsplit hpre, hwritten.symm⟩
  · rcases hold n b hb i m d hm hd with ⟨hbefore, c, hc, hdc⟩ | hafter
    · exact Or.inl ⟨hbefore, c, hkeep m c hc, hdc⟩
    · exact Or.inr hafter

/-- **The first dependency pass.** -/
theorem compileBlobs_tracks (hcyc : ∀ a b, (a, b) ∈ cyclic ↔ CycleCall unit a b) :
    Tracks H unit cyclic (depIteration H cyclic (compileBlobs H unit)).1 (Wave.first unit) := by
  have h := compileBlobs_linked H unit
  refine depIteration_tracks hcyc h (fun n b hb i m d hm hname hd => ?_) (fun n b hb => ?_)
    (fun n b hb p => ?_)
  · rcases compileBlobs_pointer H unit n b hb i m d hname hd with ⟨⟨pre, post, hsplit, hpre, -⟩, -⟩ | h
    · refine absurd ?_ hm
      rw [Compilation.names, hsplit, List.map_append]
      exact List.mem_append_left _ hpre
    · exact h.2
  · rw [settled_iff_pointers hcyc h hb]
    have hwritten := compileBlobs_pointer H unit n b hb
    constructor
    · rintro ⟨hcycle, hgood⟩ (⟨m, hm, hafter⟩ | ⟨m, hm, hbefore⟩)
      · obtain ⟨b', i, d, c, hp⟩ := h.exists_pointsTo hm
        obtain rfl : b' = b := Option.some.inj (hp.caller.symm.trans hb)
        rcases hwritten i m d hp.name hp.pointer with ⟨hbefore, -⟩ | ⟨-, hz⟩
        · exact hafter hbefore
        · have hhash := (h.coherent.blob?_finalized hp.callee).1
          exact H.digest_ne_zero _ ((hhash.symm.trans (hgood i m d c hp).symm).trans hz)
      · obtain ⟨b', i, d, hb', hi, hd⟩ := h.exists_pointer hm.1
        obtain rfl : b' = b := Option.some.inj (hb'.symm.trans hb)
        rcases hwritten i m d hi hd with ⟨-, c, hc, hdc⟩ | ⟨hafter, -⟩
        · have hhash := (h.coherent.blob?_finalized hc).1
          exact H.digest_ne_zero _ ((hhash.symm.trans hdc.symm).trans (hcycle i m d hm hi hd))
        · exact hafter hbefore
    · intro hnone
      refine ⟨fun i callee d hcall hc hd => ?_, fun i m d c hp => ?_⟩
      · rcases hwritten i callee d hc hd with ⟨hbefore, -⟩ | ⟨-, hz⟩
        · exact absurd (Or.inr ⟨callee, hcall, hbefore⟩) hnone
        · exact hz
      · rcases hwritten i m d hp.name hp.pointer with ⟨-, c', hc', hdc⟩ | ⟨hafter, -⟩
        · obtain rfl : c' = c := Option.some.inj (hc'.symm.trans hp.callee)
          exact hdc
        · exact absurd (Or.inl ⟨m, hp.call, hafter⟩) hnone
  · -- before any permission pass a blob has what its function requires directly
    have hdirect : ∀ n b, (compileBlobs H unit).blob? n = some b →
        ∃ x ∈ unit.builders, x.name = n ∧ b.requiredPermissions = x.requiredPermissions := by
      refine (compileBlobs_induction H unit (P := fun _ st => ∀ n b,
        st.blob? n = some b → ∃ x ∈ unit.builders, x.name = n ∧
          b.requiredPermissions = x.requiredPermissions)
        (fun n b hb => by simp [LinkState.blob?] at hb) ?_).2.2
      intro pre x rest st hsplit hcoh hsome hnew hold n b hb
      rw [(compileBlob_spec hcoh hnew).2] at hb
      split at hb
      · rename_i hn
        obtain rfl := Option.some.inj hb
        exact ⟨x, by rw [hsplit]; exact List.mem_append_right _ List.mem_cons_self, hn.symm, rfl⟩
      · exact hold n b hb
    obtain ⟨x, hx, hxn, hreq⟩ := hdirect n b hb
    rw [hreq]
    constructor
    · exact fun hp => ⟨x, hx, hxn, hp⟩
    · rintro ⟨y, hy, hyn, hp⟩
      obtain rfl : y = x := unit.builder_unique hy hx (hyn.trans hxn.symm)
      exact hp

/-- **The finished program and its wave.** -/
theorem build_tracks (H : Sha256 β η) (unit : Compilation β) :
    Tracks H unit (mutualEdges (compileBlobs H unit).functionStore)
      (buildContentAddressedProgram H unit) (Wave.last unit) := by
  have hcyc := (compileBlobs_linked H unit).mem_mutualEdges
  rw [buildContentAddressedProgram, jointLoop, Capped.run_eq_iterate jointIteration_unchanged]
  -- the first round starts one dependency pass later
  have hfirst : Tracks H unit (mutualEdges (compileBlobs H unit).functionStore)
      (jointIteration H (mutualEdges (compileBlobs H unit).functionStore) (compileBlobs H unit)).1
      (((Wave.depPass unit)^[9] (Wave.first unit)).permPass unit) := by
    rw [jointIteration_eq]
    exact ((compileBlobs_tracks hcyc).iterate_depPass hcyc 9).iterate_permPass hcyc
  have hrounds : ∀ k, Tracks H unit (mutualEdges (compileBlobs H unit).functionStore)
      ((fun s => (jointIteration H (mutualEdges (compileBlobs H unit).functionStore) s).1)^[k + 1]
        (compileBlobs H unit))
      ((Wave.round unit)^[k] (((Wave.depPass unit)^[9] (Wave.first unit)).permPass unit)) := by
    intro k
    induction k with
    | zero => exact hfirst
    | succ k ih =>
      rw [Function.iterate_succ_apply', Function.iterate_succ_apply' (f := Wave.round unit)]
      exact ih.round hcyc
  exact hrounds 9

theorem build_linked (H : Sha256 β η) (unit : Compilation β) :
    Linked H unit (buildContentAddressedProgram H unit) := (build_tracks H unit).linked

/-! ## What the loop leaves alone -/

/-- An invariant of both kinds of passes holds of the finished program. -/
theorem build_induction {P : LinkState β η → Prop} (hbase : P (compileBlobs H unit))
    (hdep : ∀ cyclic st, Coherent H st → P st → P (depIteration H cyclic st).1)
    (hperm : ∀ st, Coherent H st → P st → P (permIteration H st).1) :
    P (buildContentAddressedProgram H unit) := by
  have hiterate : ∀ {f : LinkState β η → LinkState β η}, (∀ st, Coherent H st ∧ P st →
      Coherent H (f st) ∧ P (f st)) → ∀ k st, Coherent H st ∧ P st →
      Coherent H (f^[k] st) ∧ P (f^[k] st) := by
    intro f hf k st hst
    induction k with
    | zero => exact hst
    | succ k ih =>
      rw [Function.iterate_succ_apply']
      exact hf _ ih
  rw [buildContentAddressedProgram, jointLoop, Capped.run_eq_iterate jointIteration_unchanged]
  refine (hiterate (fun st hst => ?_) _ _ ⟨(compileBlobs_linked H unit).coherent, hbase⟩).2
  rw [jointIteration_eq]
  refine hiterate (fun st hst => ?_) _ _ (hiterate (fun st hst => ?_) _ _ hst)
  · exact ⟨(blob?_permIteration hst.1).1, hperm st hst.1 hst.2⟩
  · exact ⟨(blob?_depIteration _ hst.1).1, hdep _ st hst.1 hst.2⟩

/-- A blob has the code and the callees of its function. -/
def FromBuilder (unit : Compilation β) (st : LinkState β η) : Prop :=
  ∀ n b, st.blob? n = some b → ∃ x ∈ unit.builders, x.name = n ∧ b.body = x.body ∧
    b.calleeNames = x.calledFunctions

theorem build_fromBuilder (H : Sha256 β η) (unit : Compilation β) :
    FromBuilder unit (buildContentAddressedProgram H unit) := by
  refine build_induction (P := FromBuilder unit) ?_ (fun cyclic st hcoh h n b hb => ?_)
    (fun st hcoh h n b hb => ?_)
  · refine (compileBlobs_induction H unit (P := fun _ st => FromBuilder unit st)
      (fun n b hb => by simp [LinkState.blob?] at hb) ?_).2.2
    intro pre x rest st hsplit hcoh _ hnew hold n b hb
    rw [(compileBlob_spec hcoh hnew).2] at hb
    split at hb
    · rename_i hn
      obtain rfl := Option.some.inj hb
      refine ⟨x, ?_, hn.symm, rfl, rfl⟩
      rw [hsplit]
      exact List.mem_append_right _ List.mem_cons_self
    · exact hold n b hb
  · rw [(blob?_depIteration cyclic hcoh).2] at hb
    obtain ⟨b₀, hb₀, rfl⟩ := Option.map_eq_some_iff.mp hb
    exact h n b₀ hb₀
  · rw [(blob?_permIteration hcoh).2] at hb
    obtain ⟨b₀, hb₀, rfl⟩ := Option.map_eq_some_iff.mp hb
    exact h n b₀ hb₀

/-! ## The finished store -/

/-- Every pointer is the sentinel or the hash of the callee it was made for. -/
def PointersGood (H : Sha256 β η) (st : LinkState β η) : Prop :=
  ∀ e ∈ st.functionStore, ∀ (i : Nat) d, e.2.dependencies[i]? = some d → d ≠ H.zero →
    ∃ b, (d, b) ∈ st.functionStore ∧ e.2.calleeNames[i]? = some b.name

variable {n : String} {st : LinkState β η}

/-- A pointer that is not the sentinel belongs to a plain call. -/
theorem Tracks.pointsTo_of_ne_zero {w : Wave} (h : Tracks H unit cyclic st w)
    (hcyc : ∀ a b, (a, b) ∈ cyclic ↔ CycleCall unit a b) {b : FunctionBlob β η}
    (hb : st.blob? n = some b) {i : Nat} {d : η} (hd : b.dependencies[i]? = some d)
    (hne : d ≠ H.zero) : ∃ m c, PointsTo unit st n b i m d c := by
  have hok := h.linked.ok n b hb
  have hlt := (List.getElem?_eq_some_iff.mp hd).1
  rw [hok.aligned] at hlt
  obtain ⟨m, hm⟩ : ∃ m, b.calleeNames[i]? = some m := ⟨_, List.getElem?_eq_getElem hlt⟩
  have hin : m ∈ unit.names := by
    by_contra hin
    exact hne (h.unknownZero n b hb i m d hin hm hd)
  have hself : m ≠ n := fun heq => hne (hok.self_zero i d (heq ▸ hm) hd)
  have hncyc : (n, m) ∉ cyclic := fun hmem => hne (h.cycleZero n b hb i m d hmem hm hd)
  obtain ⟨c, hc⟩ := h.linked.exists_blob hin
  exact ⟨m, c, hb, hc, plainCall_of_callee hcyc hok hm hself hncyc hin, hm, hd⟩

/-- **The sentinel** stands for the function itself, for a callee on a cycle with it, and for a callee
that is not there. -/
theorem Tracks.eq_zero_iff {w : Wave} (h : Tracks H unit cyclic st w)
    (hcyc : ∀ a b, (a, b) ∈ cyclic ↔ CycleCall unit a b) {b : FunctionBlob β η}
    (hb : st.blob? n = some b) {i : Nat} {d : η} (hm : b.calleeNames[i]? = some m)
    (hd : b.dependencies[i]? = some d) :
    d = H.zero ↔ m = n ∨ CycleCall unit n m ∨ m ∉ unit.names := by
  constructor
  · intro hz
    by_contra hnot
    rw [not_or, not_or, not_not] at hnot
    obtain ⟨hself, hncyc, hin⟩ := hnot
    have hmem : (n, m) ∉ cyclic := fun hmem => hncyc ((hcyc n m).mp hmem)
    have hcall := plainCall_of_callee hcyc (h.linked.ok n b hb) hm hself hmem hin
    obtain ⟨c, hc⟩ := h.linked.exists_blob hin
    obtain ⟨input, hdigest, -⟩ := h.older n b i m d c ⟨hb, hc, hcall, hm, hd⟩
    exact H.digest_ne_zero input (hdigest.symm.trans hz)
  · rintro (rfl | hcycle | hunknown)
    · exact (h.linked.ok m b hb).self_zero i d hm hd
    · exact h.cycleZero n b hb i m d ((hcyc n m).mpr hcycle) hm hd
    · exact h.unknownZero n b hb i m d hunknown hm hd

theorem pointersGood_iff (H : Sha256 β η) (unit : Compilation β) :
    PointersGood H (buildContentAddressedProgram H unit) ↔ HashesSettle unit := by
  have h := build_tracks H unit
  have hcyc := (compileBlobs_linked H unit).mem_mutualEdges
  constructor
  · intro hgood n m hcall
    obtain ⟨b, i, d, c, hp⟩ := h.linked.exists_pointsTo hcall
    obtain ⟨input, hd, -⟩ := h.older n b i m d c hp
    have hne : d ≠ H.zero := hd ▸ H.digest_ne_zero input
    obtain ⟨hmem, -⟩ := h.linked.coherent.blob?_eq_some.mp hp.caller
    obtain ⟨c', hc', hname⟩ := hgood _ hmem i d hp.pointer hne
    obtain ⟨hc'', hdc⟩ := h.linked.coherent.mem_iff.mp hc'
    have hmc : m = c'.name := Option.some.inj (hp.name.symm.trans hname)
    obtain rfl : c' = c := Option.some.inj (hc''.symm.trans (hmc ▸ hp.callee))
    exact (h.good_iff n b i m d c' hp).mp hdc
  · intro hsettle e he i d hd hne
    obtain ⟨heb, -⟩ := h.linked.coherent.mem_iff.mp he
    obtain ⟨m, c, hp⟩ := h.pointsTo_of_ne_zero hcyc heb hd hne
    have hdc := (h.good_iff _ _ _ _ _ _ hp).mpr (hsettle _ m hp.call)
    obtain ⟨hcmem, hcname⟩ := h.linked.coherent.blob?_eq_some.mp hp.callee
    exact ⟨c, hdc ▸ hcmem, hcname.symm ▸ hp.name⟩

/-- How many functions are below `n` along plain calls. -/
noncomputable def plainRank (unit : Compilation β) (n : String) : Nat :=
  open Classical in (unit.names.toFinset.filter fun m => TransGen (PlainCall unit) n m).card

omit [DecidableEq η] in
theorem plainRank_lt (h : PlainCall unit n m) : plainRank unit m < plainRank unit n := by
  classical
  unfold plainRank
  apply Finset.card_lt_card
  rw [Finset.ssubset_iff_of_subset]
  · refine ⟨m, ?_, ?_⟩
    · obtain ⟨x, -, -, -, hm⟩ := h.1
      rw [Finset.mem_filter, List.mem_toFinset]
      exact ⟨hm, .single h⟩
    · rw [Finset.mem_filter]
      exact fun hself => plainCall_acyclic hself.2
  · intro k hk
    rw [Finset.mem_filter] at hk ⊢
    exact ⟨hk.1, hk.2.head h⟩

omit [DecidableEq η] in
theorem plainRank_le (unit : Compilation β) (n : String) : plainRank unit n ≤ unit.names.length := by
  classical
  unfold plainRank
  exact (Finset.card_filter_le _ _).trans (List.toFinset_card_le _)

/-- The store has one entry for each function. -/
theorem Linked.names_perm (h : Linked H unit st) :
    (st.functionStore.map (·.2.name)).Perm unit.names := by
  refine (List.perm_ext_iff_of_nodup h.coherent.names_nodup unit.names_nodup).mpr fun n => ?_
  show n ∈ st.functionStore.map (·.2.name) ↔ n ∈ unit.names
  rw [← h.isSome_iff, Option.isSome_iff_exists, List.mem_map]
  constructor
  · rintro ⟨e, he, rfl⟩
    exact ⟨e.2, (h.coherent.mem_iff.mp he).1⟩
  · rintro ⟨b, hb⟩
    obtain ⟨hmem, hname⟩ := h.coherent.blob?_eq_some.mp hb
    exact ⟨_, hmem, hname⟩

theorem Linked.store_length (h : Linked H unit st) :
    st.functionStore.length = unit.names.length := by
  rw [← h.names_perm.length_eq, List.length_map]

/-- A store without dangling pointers is sorted. -/
theorem topoSort_of_pointersGood (H : Sha256 β η) (unit : Compilation β)
    (hgood : PointersGood H (buildContentAddressedProgram H unit)) {entry : η}
    (hentry : (buildContentAddressedProgram H unit).blobNameToHash "__main__" = some entry) :
    ∃ order, topoSort H.zero (buildContentAddressedProgram H unit).functionStore entry
      = .ok order := by
  have h := build_tracks H unit
  have hcyc := (compileBlobs_linked H unit).mem_mutualEdges
  -- a hash has the rank of its function
  have hrank : ∀ {e}, e ∈ (buildContentAddressedProgram H unit).functionStore →
      FunctionStore.get (buildContentAddressedProgram H unit).functionStore e.1 = some e.2 :=
    fun he => (FunctionStore.get_eq_some h.linked.coherent.keys_nodup).mpr he
  refine topoSort_ok h.linked.coherent.wellKeyed (fun hash =>
    ((FunctionStore.get (buildContentAddressedProgram H unit).functionStore hash).map fun b =>
      plainRank unit b.name).getD 0) (fun e he d hd hne => ?_) (fun e he => ?_) ?_
  · obtain ⟨i, hi⟩ := List.mem_iff_getElem?.mp hd
    obtain ⟨heb, -⟩ := h.linked.coherent.mem_iff.mp he
    obtain ⟨m, c, hp⟩ := h.pointsTo_of_ne_zero hcyc heb hi hne
    obtain ⟨b, hb, hname⟩ := hgood e he i d hi hne
    refine ⟨List.mem_map.mpr ⟨_, hb, rfl⟩, ?_⟩
    have hm : b.name = m := Option.some.inj (hname.symm.trans hp.name)
    simp only [hrank hb, hrank he, Option.map_some, Option.getD_some]
    exact plainRank_lt (hm.symm ▸ hp.call)
  · simp only [hrank he, Option.map_some, Option.getD_some]
    have hle := plainRank_le unit e.2.name
    rw [h.linked.store_length]
    omega
  · obtain ⟨b, hb, -⟩ := h.linked.coherent.registered _ _ hentry
    exact List.mem_map.mpr ⟨_, hb, rfl⟩

end States

/-! ## Convergence -/

section Convergence

variable [DecidableEq η]

/-- The finished store, and what linking makes of it. -/
structure Resolved (H : Sha256 (Body κ) η) (unit : Compilation (Body κ))
    (st : LinkState (Body κ) η) : Prop where
  pointers : PointersGood H st
  keyed : ∀ e ∈ st.functionStore, e.1 = e.2.contentHash
  complete : ∀ n ∈ unit.names, ∃ e ∈ st.functionStore, e.2.name = n
  links : ∀ program : Program κ η, program.functionStore = st.functionStore →
    st.blobNameToHash "__main__" = some program.entry →
      (∀ hash, link H.zero program ≠ .error (.missingBlob hash)) ∧
        link H.zero program ≠ .error .circularDependency

/-- **Dependency resolution converges exactly when the hashes settle.** -/
theorem dependency_resolution_iff (H : Sha256 (Body κ) η) (unit : Compilation (Body κ)) :
    Resolved H unit (buildContentAddressedProgram H unit) ↔ HashesSettle unit := by
  constructor
  · exact fun h => (pointersGood_iff H unit).mp h.pointers
  · intro hsettle
    have hlinked := build_linked H unit
    have hgood := (pointersGood_iff H unit).mpr hsettle
    refine ⟨hgood, hlinked.coherent.keyed, fun n hn => ?_, fun program hstore hentry => ?_⟩
    · obtain ⟨b, hb⟩ := hlinked.exists_blob hn
      obtain ⟨hmem, hname⟩ := hlinked.coherent.blob?_eq_some.mp hb
      exact ⟨_, hmem, hname⟩
    · obtain ⟨order, horder⟩ := topoSort_of_pointersGood H unit hgood hentry
      rw [← hstore] at horder
      obtain ⟨blobs, hblobs⟩ := sortedBlobs_ok_of_topoSort horder
      have hlink : link H.zero program = linkBlobs H.zero program blobs := by
        unfold link
        rw [hblobs]
        rfl
      rw [hlink]
      exact linkBlobs_ne_error

end Convergence

/-! ## Eleven plain calls -/

/-- An ideal digest of content with a body. -/
inductive ContentDigest (β : Type) where
  | zero
  | nil
  | cons (head tail : ContentDigest β)
  | of (name : String) (body : β) (dependencies : ContentDigest β) (permissionNames : List String)
  deriving DecidableEq

def ContentDigest.ofList : List (ContentDigest β) → ContentDigest β
  | [] => .nil
  | d :: ds => .cons d (ofList ds)

theorem ContentDigest.ofList_injective :
    Function.Injective (ContentDigest.ofList : List (ContentDigest β) → ContentDigest β) := by
  intro l l' h
  induction l generalizing l' with
  | nil =>
    cases l' with
    | nil => rfl
    | cons d' ds' => cases h
  | cons d ds ih =>
    cases l' with
    | nil => cases h
    | cons d' ds' =>
      obtain ⟨rfl, htail⟩ := ContentDigest.cons.injEq .. ▸ h
      rw [ih htail]

def contentSha256 (β : Type) : Sha256 β (ContentDigest β) where
  zero := .zero
  digest input := .of input.name input.body (.ofList input.dependencies) input.requiredPermissionNames
  digest_injective := by
    rintro ⟨n, b, d, p⟩ ⟨n', b', d', p'⟩ h
    simp only [ContentDigest.of.injEq] at h
    obtain ⟨rfl, rfl, hdeps, rfl⟩ := h
    obtain rfl := ContentDigest.ofList_injective hdeps
    rfl
  digest_ne_zero input h := nomatch h

/-- A function body without code. -/
def emptyBody (κ : Type) : Body κ where
  arity := 0
  paramNames := []
  localsCount := 0
  isClosure := false
  capturesCount := 0
  isAsync := false
  refParams := []
  refMutates := []
  mutableCaptures := []
  frameDescriptor := none
  captureKinds := []
  instructions := []
  constants := []
  strings := []
  typeSchemas := []
  foreignDependencies := []

/-- `__main__` calls `k`, which calls `j`, …, which calls `a`; `a` reads files. -/
def longChainUnit : Compilation (Body Unit) where
  builders :=
    [⟨"a", [], {.fsRead}, emptyBody Unit⟩, ⟨"b", ["a"], ∅, emptyBody Unit⟩,
      ⟨"c", ["b"], ∅, emptyBody Unit⟩, ⟨"d", ["c"], ∅, emptyBody Unit⟩,
      ⟨"e", ["d"], ∅, emptyBody Unit⟩, ⟨"f", ["e"], ∅, emptyBody Unit⟩,
      ⟨"g", ["f"], ∅, emptyBody Unit⟩, ⟨"h", ["g"], ∅, emptyBody Unit⟩,
      ⟨"i", ["h"], ∅, emptyBody Unit⟩, ⟨"j", ["i"], ∅, emptyBody Unit⟩,
      ⟨"k", ["j"], ∅, emptyBody Unit⟩, ⟨"__main__", ["k"], ∅, emptyBody Unit⟩]
  names_nodup := by decide

/-- **Eleven calls leave a dangling pointer**: the tenth round re-hashes `k`, and no dependency pass
follows that would tell `__main__`. -/
theorem long_chain_dangles :
    ¬ ∀ (H : Sha256 (Body Unit) (ContentDigest (Body Unit))) (unit : Compilation (Body Unit)),
      (∀ x ∈ unit.builders, ∀ c ∈ x.calledFunctions, c ∈ unit.names) →
        Resolved H unit (buildContentAddressedProgram H unit) := by
  intro hclaim
  have hres := hclaim (contentSha256 (Body Unit)) longChainUnit (by decide)
  have hdangles : ∃ e ∈ (buildContentAddressedProgram (contentSha256 (Body Unit))
      longChainUnit).functionStore, ∃ d ∈ e.2.dependencies, d ≠ .zero ∧
        d ∉ (buildContentAddressedProgram (contentSha256 (Body Unit))
          longChainUnit).functionStore.map Prod.fst := by
    decide +kernel
  obtain ⟨e, he, d, hd, hne, hnot⟩ := hdangles
  obtain ⟨i, hi⟩ := List.mem_iff_getElem?.mp hd
  obtain ⟨b, hb, -⟩ := hres.pointers e he i d hi hne
  exact hnot (List.mem_map.mpr ⟨_, hb, rfl⟩)

end ShapeLang.Bytecode
