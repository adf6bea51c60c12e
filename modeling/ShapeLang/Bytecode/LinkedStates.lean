import ShapeLang.Bytecode.LinkStore
import ShapeLang.Lib.Chain

/-!
# ShapeLang — the states of the joint loop

A dependency on a cycle edge stays `ZERO` and finds nothing in the store, so permissions travel along
the other calls only (`PlainCall`), which form no cycle.

  * `Calls`, `CycleCall`, `PlainCall` — the call graph of a compilation;
  * `Linked` — what holds of every state: no blob has a permission that does not come down its plain
    calls;
  * `Settled` — a blob that a further dependency pass would not change;
  * `Linked.mem_mutualEdges` — the edges the code resets are the calls on a cycle.
-/

namespace ShapeLang.Bytecode

open Relation

variable {β η : Type}

/-! ## The call graph -/

section Calls

variable (unit : Compilation β)

def Compilation.names : List String := unit.builders.map (·.name)

theorem Compilation.builder_unique {x y : FunctionBlobBuilder β} (hx : x ∈ unit.builders)
    (hy : y ∈ unit.builders) (hname : x.name = y.name) : x = y :=
  List.inj_on_of_nodup_map unit.names_nodup hx hy hname

/-- One function of the compilation calls another. -/
def Calls (a b : String) : Prop :=
  ∃ x ∈ unit.builders, x.name = a ∧ b ∈ x.calledFunctions ∧ b ∈ unit.names

/-- A call that lies on a call cycle through another function. -/
def CycleCall (a b : String) : Prop := Calls unit a b ∧ a ≠ b ∧ ReflTransGen (Calls unit) b a

def PlainCall (a b : String) : Prop := Calls unit a b ∧ a ≠ b ∧ ¬ ReflTransGen (Calls unit) b a

/-- A permission that some function down the plain calls of `n` requires directly. -/
def Inherits (n : String) (p : Permission) : Prop :=
  ∃ c, ReflTransGen (PlainCall unit) n c ∧
    ∃ x ∈ unit.builders, x.name = c ∧ p ∈ x.requiredPermissions

end Calls

variable {unit : Compilation β}

theorem Inherits.step {n m : String} {p : Permission} (hcall : PlainCall unit n m)
    (h : Inherits unit m p) : Inherits unit n p := by
  obtain ⟨c, hc, x, hx⟩ := h
  exact ⟨c, hc.head hcall, x, hx⟩

/-! ## The states of the loop -/

section States

variable [DecidableEq η] {H : Sha256 β η} {cyclic : List (String × String)}

/-- What every state of the loop knows of a blob. -/
structure BlobOk (H : Sha256 β η) (unit : Compilation β) (n : String) (b : FunctionBlob β η) :
    Prop where
  built : ∃ x ∈ unit.builders, x.name = n ∧ b.calleeNames = x.calledFunctions ∧
    x.requiredPermissions ⊆ b.requiredPermissions
  aligned : b.dependencies.length = b.calleeNames.length
  /-- A dependency is the sentinel or a digest of some version of the callee. -/
  honest : ∀ (i : Nat) callee d, b.calleeNames[i]? = some callee → b.dependencies[i]? = some d →
    d = H.zero ∨ ∃ input, input.name = callee ∧ d = H.digest input
  self_zero : ∀ (i : Nat) d, b.calleeNames[i]? = some n → b.dependencies[i]? = some d → d = H.zero
  sound : ∀ p ∈ b.requiredPermissions, Inherits unit n p

structure Linked (H : Sha256 β η) (unit : Compilation β) (st : LinkState β η) : Prop where
  coherent : Coherent H st
  isSome_iff : ∀ n, (st.blob? n).isSome ↔ n ∈ unit.names
  ok : ∀ n b, st.blob? n = some b → BlobOk H unit n b

/-- The dependencies on cycle edges have been reset. -/
def CycleZero (H : Sha256 β η) (cyclic : List (String × String)) (st : LinkState β η) : Prop :=
  ∀ n b, st.blob? n = some b → ∀ (i : Nat) callee d, (n, callee) ∈ cyclic →
    b.calleeNames[i]? = some callee → b.dependencies[i]? = some d → d = H.zero

/-- An invariant of the compiler's loop: `P pre st` says what holds when `pre` is finished. -/
theorem compileBlobs_induction (H : Sha256 β η) (unit : Compilation β)
    {P : List (FunctionBlobBuilder β) → LinkState β η → Prop}
    (hnil : P [] { functionStore := [], blobNameToHash := fun _ => none })
    (hstep : ∀ pre x rest (st : LinkState β η), unit.builders = pre ++ x :: rest → Coherent H st →
      (∀ n, (st.blob? n).isSome ↔ n ∈ pre.map (·.name)) → st.blob? x.name = none → P pre st →
      P (pre ++ [x]) (compileBlob H st x)) :
    Coherent H (compileBlobs H unit) ∧ (∀ n, ((compileBlobs H unit).blob? n).isSome ↔ n ∈ unit.names)
      ∧ P unit.builders (compileBlobs H unit) := by
  have hrun : ∀ (rest pre : List (FunctionBlobBuilder β)) (st : LinkState β η),
      unit.builders = pre ++ rest → Coherent H st →
      (∀ n, (st.blob? n).isSome ↔ n ∈ pre.map (·.name)) → P pre st →
      Coherent H (rest.foldl (compileBlob H) st) ∧
        (∀ n, ((rest.foldl (compileBlob H) st).blob? n).isSome ↔ n ∈ unit.names) ∧
        P unit.builders (rest.foldl (compileBlob H) st) := by
    intro rest
    induction rest with
    | nil =>
      intro pre st hsplit hcoh hsome hP
      rw [List.append_nil] at hsplit
      rw [Compilation.names, hsplit]
      exact ⟨hcoh, hsome, hP⟩
    | cons x rest ih =>
      intro pre st hsplit hcoh hsome hP
      -- the name is new, so the function's own entry is not registered yet
      have hnew : st.blob? x.name = none := by
        have hnd := unit.names_nodup
        rw [hsplit, List.map_append, List.map_cons, List.nodup_append] at hnd
        rw [← Option.not_isSome_iff_eq_none, hsome]
        exact fun hmem => hnd.2.2 _ hmem _ List.mem_cons_self rfl
      obtain ⟨hcoh', hblob⟩ := compileBlob_spec hcoh hnew
      refine ih (pre ++ [x]) _ (by rw [hsplit]; simp) hcoh' (fun n => ?_)
        (hstep pre x rest st hsplit hcoh hsome hnew hP)
      rw [hblob]
      by_cases hn : n = x.name
      · simp [hn]
      · rw [if_neg hn, hsome]
        simp [hn]
  exact hrun unit.builders [] _ rfl ⟨List.nodup_nil, nofun, nofun, nofun, nofun⟩
    (fun n => by simp [LinkState.blob?]) hnil

theorem compileBlobs_linked (H : Sha256 β η) (unit : Compilation β) :
    Linked H unit (compileBlobs H unit) := by
  obtain ⟨hcoh, hsome, hok⟩ := compileBlobs_induction H unit
    (P := fun _ st => ∀ n b, st.blob? n = some b → BlobOk H unit n b)
    (fun n b hb => by simp [LinkState.blob?] at hb)
    (fun pre x rest st hsplit hcoh hsome hnew hok n b hb => by
      rw [(compileBlob_spec hcoh hnew).2] at hb
      split at hb
      · rename_i hn
        obtain rfl := Option.some.inj hb
        subst hn
        -- the blob that is being registered: its callees have the hash they have now, or none
        have hx : x ∈ unit.builders := by
          rw [hsplit]
          exact List.mem_append_right _ List.mem_cons_self
        have hdep : ∀ (i : Nat) callee d, x.calledFunctions[i]? = some callee →
            (x.calledFunctions.map fun c => (st.blobNameToHash c).getD H.zero)[i]? = some d →
            d = (st.blobNameToHash callee).getD H.zero := by
          intro i callee d hc hd
          rw [List.getElem?_map, hc] at hd
          exact (Option.some.inj hd).symm
        refine ⟨⟨x, hx, rfl, rfl, fun p hp => hp⟩, List.length_map .., ?_, ?_, ?_⟩
        · intro i callee d hc hd
          rw [hdep i callee d hc hd]
          cases hk : st.blobNameToHash callee with
          | none => exact Or.inl rfl
          | some k => exact Or.inr (hcoh.registered_digest hk)
        · intro i d hc hd
          rw [hdep i _ d hc hd, hcoh.blobNameToHash_eq, hnew]
          rfl
        · exact fun p hp => ⟨x.name, .refl, x, hx, rfl, hp⟩
      · exact hok n b hb)
  exact ⟨hcoh, hsome, hok⟩

/-! ## Dependency passes -/

omit [DecidableEq η] in
theorem getElem?_resolveDeps (st : LinkState β η) (b : FunctionBlob β η) (i : Nat) :
    (resolveDeps H cyclic st b)[i]? = b.dependencies[i]?.map fun d =>
      match b.calleeNames[i]? with
      | some callee => resolveDep H cyclic st b.name callee d
      | none => d := by
  rw [resolveDeps, List.getElem?_map, List.getElem?_zipIdx]
  cases b.dependencies[i]? with
  | none => rfl
  | some d =>
    show some (match b.calleeNames[0 + i]? with
      | some callee => resolveDep H cyclic st b.name callee d
      | none => d) = some _
    rw [Nat.zero_add]

/-- A settled blob: another pass would not change it. -/
def Settled (H : Sha256 β η) (cyclic : List (String × String)) (st : LinkState β η)
    (b : FunctionBlob β η) : Prop := resolveDeps H cyclic st b = b.dependencies

omit [DecidableEq η] in
theorem settled_iff {st : LinkState β η} {b : FunctionBlob β η} :
    Settled H cyclic st b ↔ ∀ (i : Nat) callee d, b.calleeNames[i]? = some callee →
      b.dependencies[i]? = some d → resolveDep H cyclic st b.name callee d = d := by
  constructor
  · intro h i callee d hc hd
    have hi : (resolveDeps H cyclic st b)[i]? = _ := getElem?_resolveDeps st b i
    rw [show resolveDeps H cyclic st b = b.dependencies from h, hd, hc] at hi
    exact (Option.some.inj hi).symm
  · intro h
    refine List.ext_getElem? fun i => ?_
    rw [getElem?_resolveDeps]
    cases hd : b.dependencies[i]? with
    | none => rfl
    | some d =>
      cases hc : b.calleeNames[i]? with
      | none => rfl
      | some callee => exact congrArg some (h i callee d hc hd)

omit [DecidableEq η] in
theorem resolved_of_settled {st : LinkState β η} {b : FunctionBlob β η}
    (h : Settled H cyclic st b) (hfin : b.Finalized H) : resolved H cyclic st b = b := by
  rw [resolved, show resolveDeps H cyclic st b = b.dependencies from h,
    FunctionBlob.finalize_of_finalized hfin]

section Passes

variable (hcyc : ∀ a b, (a, b) ∈ cyclic ↔ CycleCall unit a b)
include hcyc

omit [DecidableEq η] in
/-- A callee that is neither the function itself nor on a cycle edge is a plain callee, or not a
function of the compilation. -/
theorem plainCall_of_callee {n callee : String} {b : FunctionBlob β η} (hok : BlobOk H unit n b)
    {i : Nat} (hc : b.calleeNames[i]? = some callee) (hself : callee ≠ n)
    (hncyc : (n, callee) ∉ cyclic) (hname : callee ∈ unit.names) : PlainCall unit n callee := by
  obtain ⟨x, hx, hxn, hcallees, -⟩ := hok.built
  have hcall : Calls unit n callee :=
    ⟨x, hx, hxn, hcallees ▸ List.mem_of_getElem? hc, hname⟩
  exact ⟨hcall, Ne.symm hself, fun hback => hncyc ((hcyc n callee).mpr
    ⟨hcall, Ne.symm hself, hback⟩)⟩

theorem depIteration_linked {st : LinkState β η} (h : Linked H unit st) :
    Linked H unit (depIteration H cyclic st).1 ∧
      CycleZero H cyclic (depIteration H cyclic st).1 := by
  obtain ⟨hcoh, hblob⟩ := blob?_depIteration cyclic h.coherent
  -- a resolved dependency is the old one or the hash under the callee's name
  have hdep : ∀ n b, st.blob? n = some b → ∀ (i : Nat) callee d,
      b.calleeNames[i]? = some callee → (resolveDeps H cyclic st b)[i]? = some d →
      ∃ d₀, b.dependencies[i]? = some d₀ ∧ d = resolveDep H cyclic st n callee d₀ := by
    intro n b hb i callee d hc hd
    rw [getElem?_resolveDeps, hc, (h.coherent.blob?_finalized hb).2] at hd
    obtain ⟨d₀, hd₀, rfl⟩ := Option.map_eq_some_iff.mp hd
    exact ⟨d₀, hd₀, rfl⟩
  refine ⟨⟨hcoh, fun n => ?_, fun n b' hb' => ?_⟩, fun n b' hb' i callee d hmem hc hd => ?_⟩
  · rw [hblob, Option.isSome_map]
    exact h.isSome_iff n
  · rw [hblob] at hb'
    obtain ⟨b, hb, rfl⟩ := Option.map_eq_some_iff.mp hb'
    have hok := h.ok n b hb
    refine ⟨hok.built, ?_, fun i callee d hc hd => ?_, fun i d hc hd => ?_, hok.sound⟩
    · show (resolveDeps H cyclic st b).length = b.calleeNames.length
      rw [resolveDeps, List.length_map, List.length_zipIdx]
      exact hok.aligned
    -- the function itself, a callee on a cycle, any other callee
    · obtain ⟨d₀, hd₀, rfl⟩ := hdep n b hb i callee d hc hd
      unfold resolveDep
      split
      · exact hok.honest i callee d₀ hc hd₀
      · split
        · exact Or.inl rfl
        · cases hk : st.blobNameToHash callee with
          | none => exact hok.honest i callee d₀ hc hd₀
          | some k => exact Or.inr (h.coherent.registered_digest hk)
    · obtain ⟨d₀, hd₀, rfl⟩ := hdep n b hb i n d hc hd
      rw [resolveDep, if_pos rfl]
      exact hok.self_zero i d₀ hc hd₀
  · rw [hblob] at hb'
    obtain ⟨b, hb, rfl⟩ := Option.map_eq_some_iff.mp hb'
    obtain ⟨d₀, -, rfl⟩ := hdep n b hb i callee d hc hd
    have hne : callee ≠ n := fun heq => ((hcyc n callee).mp hmem).2.1 heq.symm
    rw [resolveDep, if_neg hne, if_pos hmem]

/-! ## Permission passes -/

omit hcyc in
theorem mem_foldl_required {st : LinkState β η} {p : Permission} (deps : List η) (acc : PermissionSet) :
    p ∈ deps.foldl (fun acc dep =>
      match FunctionStore.get st.functionStore dep with
      | some depBlob => acc ∪ depBlob.requiredPermissions
      | none => acc) acc ↔ p ∈ acc ∨ ∃ d ∈ deps, ∃ c,
        FunctionStore.get st.functionStore d = some c ∧ p ∈ c.requiredPermissions := by
  induction deps generalizing acc with
  | nil => simp
  | cons d deps ih =>
    rw [List.foldl_cons, ih]
    cases hd : FunctionStore.get st.functionStore d with
    | none => simp [hd]
    | some c => simp [hd, or_assoc]

omit hcyc in
theorem mem_accumulated {st : LinkState β η} {b : FunctionBlob β η} {p : Permission} :
    p ∈ accumulated st b ↔ p ∈ b.requiredPermissions ∨ ∃ d ∈ b.dependencies, ∃ c,
      FunctionStore.get st.functionStore d = some c ∧ p ∈ c.requiredPermissions :=
  mem_foldl_required _ _

theorem permIteration_linked {st : LinkState β η} (h : Linked H unit st)
    (hzero : CycleZero H cyclic st) :
    Linked H unit (permIteration H st).1 ∧ CycleZero H cyclic (permIteration H st).1 := by
  obtain ⟨hcoh, hblob⟩ := blob?_permIteration h.coherent
  refine ⟨⟨hcoh, fun n => ?_, fun n b' hb' => ?_⟩, fun n b' hb' i callee d hmem hc hd => ?_⟩
  · rw [hblob, Option.isSome_map]
    exact h.isSome_iff n
  · rw [hblob] at hb'
    obtain ⟨b, hb, rfl⟩ := Option.map_eq_some_iff.mp hb'
    have hok := h.ok n b hb
    obtain ⟨x, hx, hxn, hcallees, hsub⟩ := hok.built
    refine ⟨⟨x, hx, hxn, hcallees, fun p hp => ?_⟩, hok.aligned, hok.honest, hok.self_zero, ?_⟩
    · exact mem_accumulated.mpr (Or.inl (hsub hp))
    · intro p hp
      rcases mem_accumulated.mp hp with hp | ⟨d, hd, c, hget, hp⟩
      · exact hok.sound p hp
      · -- a dependency found in the store is a plain callee
        obtain ⟨hc, hdc⟩ := h.coherent.get_eq_some_iff.mp hget
        have hdigest : d = c.computeHash H := hdc.trans (h.coherent.blob?_finalized hc).1
        have hne : d ≠ H.zero := hdigest ▸ H.digest_ne_zero _
        obtain ⟨i, hi⟩ := List.mem_iff_getElem?.mp hd
        obtain ⟨callee, hcallee⟩ : ∃ callee, b.calleeNames[i]? = some callee := by
          have hlt := (List.getElem?_eq_some_iff.mp hi).1
          rw [hok.aligned] at hlt
          exact ⟨_, List.getElem?_eq_getElem hlt⟩
        have hname : c.name = callee := by
          rcases hok.honest i callee d hcallee hi with hz | ⟨input, hin, hdi⟩
          · exact absurd hz hne
          · rw [← hin]
            exact congrArg FunctionBlobHashInput.name (H.digest_injective (hdigest.symm.trans hdi))
        rw [hname] at hc
        have hself : callee ≠ n := fun heq => hne (hok.self_zero i d (heq ▸ hcallee) hi)
        have hncyc : (n, callee) ∉ cyclic :=
          fun hmem => hne (hzero n b hb i callee d hmem hcallee hi)
        have hin : callee ∈ unit.names := (h.isSome_iff callee).mp (by rw [hc]; rfl)
        exact (h.ok callee c hc).sound p hp |>.step
          (plainCall_of_callee hcyc hok hcallee hself hncyc hin)
  · rw [hblob] at hb'
    obtain ⟨b, hb, rfl⟩ := Option.map_eq_some_iff.mp hb'
    exact hzero n b hb i callee d hmem hc hd

/-! ## Joint passes -/

omit hcyc in
theorem jointIteration_eq (st : LinkState β η) : (jointIteration H cyclic st).1
    = (fun s => (permIteration H s).1)^[maxIterations]
        ((fun s => (depIteration H cyclic s).1)^[maxIterations] st) := by
  rw [jointIteration]
  simp only
  rw [Capped.run_eq_iterate permIteration_unchanged,
    Capped.run_eq_iterate (depIteration_unchanged cyclic)]

omit hcyc in
theorem jointIteration_unchanged (st : LinkState β η) (h : (jointIteration H cyclic st).2 = false) :
    (jointIteration H cyclic st).1 = st := by
  simp only [jointIteration, Bool.or_eq_false_iff] at h ⊢
  have hdeps := Capped.run_unchanged (depIteration_unchanged cyclic) _ _ h.1
  rw [hdeps] at h ⊢
  exact Capped.run_unchanged permIteration_unchanged _ _ h.2

end Passes

/-! ## Cycle edges -/

theorem reaches_iff {adj : List (String × String)} {a b : String} :
    reaches adj a b = true ↔ ReflTransGen (fun x y => (x, y) ∈ adj) a b := by
  rw [reaches, decide_eq_true_eq, Worklist.mem_collect_iff]
  constructor
  · rintro ⟨x, hx, hreach⟩
    obtain rfl := List.mem_singleton.mp hx
    exact ReflTransGen.mono (fun _ _ h => h.2) _ _ hreach
  · intro h
    refine ⟨a, List.mem_singleton_self _, ?_⟩
    -- cut the way at its first visit of `b`
    induction h using ReflTransGen.head_induction_on with
    | refl => exact .refl
    | @head x y hxy _ ih =>
      by_cases hxb : x = b
      · rw [hxb]
      · exact ih.head ⟨by simpa using hxb, hxy⟩

omit [DecidableEq η] in
theorem mem_callAdj {store : FunctionStore β η} {a b : String} :
    (a, b) ∈ callAdj store ↔ ∃ e ∈ store, e.2.name = a ∧ b ∈ e.2.calleeNames ∧ b ≠ a := by
  simp only [callAdj, List.mem_flatMap, List.mem_map, List.mem_filter, decide_eq_true_eq]
  constructor
  · rintro ⟨e, he, c, ⟨hc, hne⟩, heq⟩
    obtain ⟨rfl, rfl⟩ := Prod.mk.injEq .. ▸ heq
    exact ⟨e, he, rfl, hc, hne⟩
  · rintro ⟨e, he, rfl, hb, hne⟩
    exact ⟨e, he, b, ⟨hb, hne⟩, rfl⟩

theorem Linked.mem_callAdj {st : LinkState β η} (h : Linked H unit st) {a b : String} :
    (a, b) ∈ callAdj st.functionStore ↔
      b ≠ a ∧ ∃ x ∈ unit.builders, x.name = a ∧ b ∈ x.calledFunctions := by
  rw [Bytecode.mem_callAdj]
  constructor
  · rintro ⟨e, he, rfl, hb, hne⟩
    obtain ⟨x, hx, hxn, hcallees, -⟩ := (h.ok _ _ (h.coherent.mem_iff.mp he).1).built
    exact ⟨hne, x, hx, hxn, hcallees ▸ hb⟩
  · rintro ⟨hne, x, hx, rfl, hb⟩
    obtain ⟨c, hc⟩ := Option.isSome_iff_exists.mp
      ((h.isSome_iff x.name).mpr (List.mem_map.mpr ⟨x, hx, rfl⟩))
    obtain ⟨y, hy, hyn, hcallees, -⟩ := (h.ok _ _ hc).built
    obtain rfl : y = x := unit.builder_unique hy hx hyn
    obtain ⟨hmem, hname⟩ := h.coherent.blob?_eq_some.mp hc
    exact ⟨(c.contentHash, c), hmem, hname, by rw [hcallees]; exact hb, hne⟩

/-- The code's search agrees with reachability along calls. -/
theorem Linked.reaches_iff {st : LinkState β η} (h : Linked H unit st) {a b : String}
    (hb : b ∈ unit.names) :
    ReflTransGen (fun x y => (x, y) ∈ callAdj st.functionStore) a b ↔
      ReflTransGen (Calls unit) a b := by
  constructor
  · intro hreach
    have hboth : a ∈ unit.names ∧ ReflTransGen (Calls unit) a b := by
      induction hreach using ReflTransGen.head_induction_on with
      | refl => exact ⟨hb, .refl⟩
      | @head x y hxy _ ih =>
        obtain ⟨-, z, hz, rfl, hcall⟩ := h.mem_callAdj.mp hxy
        exact ⟨List.mem_map.mpr ⟨z, hz, rfl⟩, ih.2.head ⟨z, hz, rfl, hcall, ih.1⟩⟩
    exact hboth.2
  · intro hreach
    induction hreach with
    | refl => exact .refl
    | @tail x y _ hxy ih =>
      obtain ⟨z, hz, hzn, hcall, -⟩ := hxy
      have hx : x ∈ unit.names := List.mem_map.mpr ⟨z, hz, hzn⟩
      by_cases hyx : y = x
      · exact hyx ▸ ih hx
      · exact (ih hx).tail (h.mem_callAdj.mpr ⟨hyx, z, hz, hzn, hcall⟩)

theorem Linked.mem_mutualEdges {st : LinkState β η} (h : Linked H unit st) (a b : String) :
    (a, b) ∈ mutualEdges st.functionStore ↔ CycleCall unit a b := by
  rw [mutualEdges, List.mem_filter, h.mem_callAdj, Bytecode.reaches_iff]
  constructor
  · rintro ⟨⟨hne, x, hx, rfl, hcall⟩, hreach⟩
    rw [h.reaches_iff (List.mem_map.mpr ⟨x, hx, rfl⟩)] at hreach
    -- `b` calls on towards `a`, so it is a function of the compilation
    have hb : b ∈ unit.names := by
      rcases ReflTransGen.cases_head hreach with heq | ⟨c, ⟨y, hy, hyn, -⟩, -⟩
      · exact absurd heq hne
      · exact List.mem_map.mpr ⟨y, hy, hyn⟩
    exact ⟨⟨x, hx, rfl, hcall, hb⟩, Ne.symm hne, hreach⟩
  · rintro ⟨⟨x, hx, rfl, hcall, -⟩, hne, hreach⟩
    have hname : x.name ∈ unit.names := List.mem_map.mpr ⟨x, hx, rfl⟩
    exact ⟨⟨Ne.symm hne, x, hx, rfl, hcall⟩, (h.reaches_iff hname).mpr hreach⟩

end States

end ShapeLang.Bytecode
