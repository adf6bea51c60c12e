import ShapeLang.Bytecode.Resolution

/-!
# ShapeLang — permissions along calls

What the joint loop does for permissions. A round moves them one plain call up, and only over pointers
that are good: a round re-hashes every blob it changes, and the callers' pointers to it dangle until
the next dependency passes. The wave of the compilation says what has arrived after ten rounds.

  * `PermissionsArrive` — nothing is still on its way along a plain call;
  * `permissionsArrive_of_chains`, `hashesSettle_of_chains` — so it is where no chain of plain calls
    is longer than ten, and there the hashes settle too;
  * `permission_closure_iff` — the final permissions are closed under all calls if and only if they
    have arrived and the cycle edges happen to add nothing.
-/

namespace ShapeLang.Bytecode

open Relation

variable {β η : Type} {unit : Compilation β}

/-- After ten rounds every function has what the functions down its plain calls require directly. -/
def PermissionsArrive (unit : Compilation β) : Prop :=
  ∀ n p, Inherits unit n p → p ∈ (Wave.last unit).permissions n

/-! ## Chains of plain calls -/

section Chains

/-- Every chain of plain calls from `n` has fewer than `k` calls. -/
def DepthLt (unit : Compilation β) (n : String) (k : Nat) : Prop :=
  ∀ l, (n :: l).IsChain (PlainCall unit) → l.length < k

variable {n m : String} {k j : Nat} {w : Wave} {p : Permission}

theorem DepthLt.mono {k' : Nat} (h : DepthLt unit n k) (hk : k ≤ k') : DepthLt unit n k' :=
  fun l hl => Nat.lt_of_lt_of_le (h l hl) hk

theorem DepthLt.callee (h : DepthLt unit n (k + 1)) (hcall : PlainCall unit n m) :
    DepthLt unit m k := by
  intro l hl
  have hlen := h (m :: l) (List.isChain_cons_cons.mpr ⟨hcall, hl⟩)
  rw [List.length_cons] at hlen
  omega

/-- A new hash is gone after as many dependency passes as there are calls below. -/
theorem DepthLt.not_rehashed (h : DepthLt unit n k) :
    ¬ ((Wave.depPass unit)^[k] w).rehashed n := by
  induction k generalizing n with
  | zero => exact absurd (h [] (List.isChain_singleton n)) (Nat.not_lt_zero _)
  | succ k ih =>
    rw [Function.iterate_succ_apply']
    rintro ⟨m, hcall, hrehashed⟩
    exact ih (h.callee hcall) hrehashed

theorem Wave.permissions_iterate_depPass (k : Nat) :
    ((Wave.depPass unit)^[k] w).permissions = w.permissions := by
  induction k with
  | zero => rfl
  | succ k ih =>
    rw [Function.iterate_succ_apply']
    exact ih

/-- A permission that a function at most `j` plain calls below `n` requires directly. -/
def InheritsWithin (unit : Compilation β) : Nat → String → Permission → Prop
  | 0, n, p => p ∈ (Wave.first unit).permissions n
  | j + 1, n, p => p ∈ (Wave.first unit).permissions n ∨
    ∃ m, PlainCall unit n m ∧ InheritsWithin unit j m p

theorem Inherits.within (h : Inherits unit n p) (hdepth : DepthLt unit n (k + 1)) :
    InheritsWithin unit k n p := by
  obtain ⟨c, hc, hrequires⟩ := h
  induction k generalizing n with
  | zero =>
    rcases ReflTransGen.cases_head hc with rfl | ⟨m, hm, -⟩
    · exact hrequires
    · -- no plain call leaves `n`
      exact absurd (hdepth.callee hm [] (List.isChain_singleton m)) (Nat.not_lt_zero _)
  | succ k ih =>
    rcases ReflTransGen.cases_head hc with rfl | ⟨m, hm, hmc⟩
    · exact Or.inl hrequires
    · exact Or.inr ⟨m, hm, ih (hdepth.callee hm) hmc⟩

/-- What has arrived `j` rounds on at the functions less than `k` plain calls deep. -/
structure ArrivedBelow (unit : Compilation β) (k j : Nat) (w : Wave) : Prop where
  direct : ∀ n p, p ∈ (Wave.first unit).permissions n → p ∈ w.permissions n
  within : ∀ n p, DepthLt unit n k → InheritsWithin unit j n p → p ∈ w.permissions n

/-- One round, of which `k` dependency passes are counted. -/
theorem ArrivedBelow.pass (h : ArrivedBelow unit k j w) :
    ArrivedBelow unit (k + 1) (j + 1) (((Wave.depPass unit)^[k] w).permPass unit) := by
  have hkept : ∀ n p, p ∈ w.permissions n →
      p ∈ (((Wave.depPass unit)^[k] w).permPass unit).permissions n := by
    intro n p hp
    refine Or.inl ?_
    rw [Wave.permissions_iterate_depPass]
    exact hp
  refine ⟨fun n p hp => hkept n p (h.direct n p hp), fun n p hdepth hwithin => ?_⟩
  rcases hwithin with hp | ⟨m, hcall, hp⟩
  · exact hkept n p (h.direct n p hp)
  · -- the callee is shallow enough to have lost its new hash
    have hm := hdepth.callee hcall
    refine Or.inr ⟨m, hcall, hm.not_rehashed, ?_⟩
    rw [Wave.permissions_iterate_depPass]
    exact h.within m p hm hp

theorem ArrivedBelow.mono {k' : Nat} (h : ArrivedBelow unit k j w) (hk : k' ≤ k) :
    ArrivedBelow unit k' j w :=
  ⟨h.direct, fun n p hdepth => h.within n p (hdepth.mono hk)⟩

theorem arrivedBelow_round (j : Nat) : ArrivedBelow unit 10 (j + 1)
    ((Wave.round unit)^[j] (((Wave.depPass unit)^[9] (Wave.first unit)).permPass unit)) := by
  induction j with
  | zero => exact ArrivedBelow.pass ⟨fun _ _ hp => hp, fun _ _ _ hp => hp⟩
  | succ j ih =>
    rw [Function.iterate_succ_apply']
    exact ih.pass.mono (by omega)

/-- What a wave has comes down plain calls. -/
def Wave.Sound (unit : Compilation β) (w : Wave) : Prop :=
  ∀ n p, p ∈ w.permissions n → Inherits unit n p

theorem Wave.Sound.arrived (h : w.Sound unit) (k : Nat)
    (hp : p ∈ ((Wave.depPass unit)^[k] w).arrived unit n) : Inherits unit n p := by
  rcases hp with hp | ⟨m, hcall, -, hp⟩
  · rw [Wave.permissions_iterate_depPass] at hp
    exact h n p hp
  · rw [Wave.permissions_iterate_depPass] at hp
    exact (h m p hp).step hcall

theorem sound_round (j : Nat) : Wave.Sound unit
    ((Wave.round unit)^[j] (((Wave.depPass unit)^[9] (Wave.first unit)).permPass unit)) := by
  induction j with
  | zero =>
    have hfirst : (Wave.first unit).Sound unit := fun n p hp => ⟨n, .refl, hp⟩
    exact fun n p hp => hfirst.arrived 9 hp
  | succ j ih =>
    rw [Function.iterate_succ_apply']
    exact fun n p hp => ih.arrived maxIterations hp

section Short

variable (hchain : ∀ l : List String, l.IsChain (PlainCall unit) → l.length ≤ 11)
include hchain

theorem depthLt_of_chains (n : String) : DepthLt unit n 11 := by
  intro l hl
  have hlen := hchain (n :: l) hl
  rw [List.length_cons] at hlen
  omega

/-- Ten calls at most in a chain, and ten rounds are enough. -/
theorem permissionsArrive_of_chains : PermissionsArrive unit := by
  intro n p hinherits
  have hdepth := depthLt_of_chains hchain n
  -- nine rounds for functions less than ten deep, and the tenth goes one level higher
  have hlast : ArrivedBelow unit 11 10 (Wave.last unit) := by
    rw [Wave.last, Function.iterate_succ_apply']
    exact (arrivedBelow_round 8).pass
  exact hlast.within n p hdepth (hinherits.within hdepth)

/-- The tenth round brings nothing to a function that is called, so its hash stays. -/
theorem hashesSettle_of_chains : HashesSettle unit := by
  intro n m hcall
  have hdepth : DepthLt unit m 10 := (depthLt_of_chains hchain n).callee hcall
  rw [Wave.last, Function.iterate_succ_apply']
  rintro (hrehashed | hchanged)
  · exact hdepth.not_rehashed hrehashed
  · refine hchanged (Set.Subset.antisymm (fun p hp => ?_) fun p hp => Or.inl hp)
    have hinherits := (sound_round 8).arrived maxIterations hp
    rw [Wave.permissions_iterate_depPass]
    exact (arrivedBelow_round 8).within m p hdepth (hinherits.within hdepth)

end Short

end Chains

/-! ## The closure -/

section Closure

variable [DecidableEq η] {H : Sha256 β η}

/-- An edge of the call graph as the stored blobs have it. -/
def CalleeEdge (st : LinkState β η) (a b : String) : Prop :=
  ∃ e ∈ st.functionStore, e.2.name = a ∧ b ∈ e.2.calleeNames

/-- Permissions are closed under calls. -/
def PermissionClosed (st : LinkState β η) : Prop :=
  ∀ A ∈ st.functionStore, ∀ B ∈ st.functionStore,
    ReflTransGen (CalleeEdge st) A.2.name B.2.name →
      B.2.requiredPermissions ⊆ A.2.requiredPermissions

theorem Linked.calls_of_calleeEdge {st : LinkState β η} (h : Linked H unit st) {a b : String}
    (hb : b ∈ unit.names) : CalleeEdge st a b ↔ Calls unit a b := by
  constructor
  · rintro ⟨e, he, rfl, hmem⟩
    obtain ⟨x, hx, hxn, hcallees, -⟩ := (h.ok _ _ (h.coherent.mem_iff.mp he).1).built
    exact ⟨x, hx, hxn, hcallees ▸ hmem, hb⟩
  · rintro ⟨x, hx, rfl, hmem, -⟩
    by_cases hself : b = x.name
    · obtain ⟨c, hc⟩ := Option.isSome_iff_exists.mp
        ((h.isSome_iff x.name).mpr (List.mem_map.mpr ⟨x, hx, rfl⟩))
      obtain ⟨y, hy, hyn, hcallees, -⟩ := (h.ok _ _ hc).built
      obtain rfl : y = x := unit.builder_unique hy hx hyn
      obtain ⟨hstored, hname⟩ := h.coherent.blob?_eq_some.mp hc
      exact ⟨_, hstored, hname, by rw [hcallees]; exact hmem⟩
    · obtain ⟨e, he, hen, hcallee, -⟩ :=
        Bytecode.mem_callAdj.mp (h.mem_callAdj.mpr ⟨hself, x, hx, rfl, hmem⟩)
      exact ⟨e, he, hen, hcallee⟩

variable {n : String} {p : Permission}

/-- The final permissions come down plain calls. -/
theorem inherits_of_mem_last (hn : n ∈ unit.names) (H : Sha256 β η)
    (hp : p ∈ (Wave.last unit).permissions n) : Inherits unit n p := by
  have htracks := build_tracks H unit
  obtain ⟨b, hb⟩ := htracks.linked.exists_blob hn
  exact (htracks.linked.ok n b hb).sound p ((htracks.permissions n b hb p).mpr hp)

/-- In a closed program a caller ends with the permissions of its callee. -/
theorem PermissionClosed.mem_last_of_calls {m : String}
    (hclosed : PermissionClosed (buildContentAddressedProgram H unit)) (hcall : Calls unit n m)
    (hp : p ∈ (Wave.last unit).permissions m) : p ∈ (Wave.last unit).permissions n := by
  have htracks := build_tracks H unit
  obtain ⟨x, hx, hxn, -, hm⟩ := id hcall
  obtain ⟨A, hA⟩ := htracks.linked.exists_blob (List.mem_map.mpr ⟨x, hx, hxn⟩)
  obtain ⟨B, hB⟩ := htracks.linked.exists_blob hm
  have hpB := (htracks.permissions m B hB p).mpr hp
  rw [← htracks.permissions n A hA]
  obtain ⟨hAmem, rfl⟩ := htracks.linked.coherent.blob?_eq_some.mp hA
  obtain ⟨hBmem, rfl⟩ := htracks.linked.coherent.blob?_eq_some.mp hB
  exact hclosed _ hAmem _ hBmem (.single ((htracks.linked.calls_of_calleeEdge hm).mpr hcall)) hpB

theorem PermissionClosed.permissionsArrive
    (hclosed : PermissionClosed (buildContentAddressedProgram H unit)) :
    PermissionsArrive unit := by
  rintro n p ⟨c, hc, x, hx, rfl, hp⟩
  have htracks := build_tracks H unit
  induction hc using ReflTransGen.head_induction_on with
  | refl =>
    obtain ⟨b, hb⟩ := htracks.linked.exists_blob (List.mem_map.mpr ⟨x, hx, rfl⟩)
    obtain ⟨y, hy, hyn, -, hsub⟩ := (htracks.linked.ok _ b hb).built
    obtain rfl : y = x := unit.builder_unique hy hx hyn
    exact (htracks.permissions _ b hb p).mp (hsub hp)
  | head hcall _ ih => exact hclosed.mem_last_of_calls hcall.1 ih

/-- **Permission closure, exactly.** The finished program's permissions are closed under calls if and
only if ten rounds are enough for every permission that travels along plain calls, and no call on a
cycle reaches a permission that its caller does not already reach along plain calls. -/
theorem permission_closure_iff (H : Sha256 β η) (unit : Compilation β) :
    PermissionClosed (buildContentAddressedProgram H unit) ↔
      PermissionsArrive unit ∧
        ∀ a b, CycleCall unit a b → ∀ p, Inherits unit b p → Inherits unit a p := by
  have htracks := build_tracks H unit
  have hlinked := htracks.linked
  constructor
  · intro hclosed
    refine ⟨hclosed.permissionsArrive, fun a b hcycle p hp => ?_⟩
    obtain ⟨x, hx, hxn, -⟩ := hcycle.1
    exact inherits_of_mem_last (List.mem_map.mpr ⟨x, hx, hxn⟩) H
      (hclosed.mem_last_of_calls hcycle.1 (hclosed.permissionsArrive b p hp))
  · rintro ⟨harrive, hcycle⟩ A hA B hB hreach p hp
    have hB' := (hlinked.coherent.mem_iff.mp hB).1
    have hA' := (hlinked.coherent.mem_iff.mp hA).1
    have hBn : B.2.name ∈ unit.names := (hlinked.isSome_iff _).mp (by rw [hB']; rfl)
    -- back along the calls, edge by edge
    have hback : ∀ a, ReflTransGen (CalleeEdge (buildContentAddressedProgram H unit)) a B.2.name →
        a ∈ unit.names ∧ Inherits unit a p := by
      intro a hreach
      induction hreach using ReflTransGen.head_induction_on with
      | refl => exact ⟨hBn, (hlinked.ok _ _ hB').sound p hp⟩
      | @head x y hxy _ ih =>
        obtain ⟨hy, hinh⟩ := ih
        have hcall := (hlinked.calls_of_calleeEdge hy).mp hxy
        obtain ⟨z, hz, hzn, -⟩ := id hcall
        refine ⟨List.mem_map.mpr ⟨z, hz, hzn⟩, ?_⟩
        by_cases hself : x = y
        · exact hself ▸ hinh
        · by_cases hcyc : ReflTransGen (Calls unit) y x
          · exact hcycle x y ⟨hcall, hself, hcyc⟩ p hinh
          · exact hinh.step ⟨hcall, hself, hcyc⟩
    exact (htracks.permissions _ _ hA' p).mpr (harrive _ p (hback _ hreach).2)

end Closure

/-! ## A call cycle -/

/-- `b` reads files and calls `a`; `a` calls `b`. -/
def cyclicUnit : Compilation Unit where
  builders := [⟨"b", ["a"], {.fsRead}, ()⟩, ⟨"a", ["b"], ∅, ()⟩]
  names_nodup := by decide

/-- **A cycle loses a permission.** `a` calls `b` and does not get its `fs.read`. -/
theorem permission_lost_on_cycle :
    ¬ ∀ (H : Sha256 Unit (ContentDigest Unit)) (unit : Compilation Unit),
      PermissionClosed (buildContentAddressedProgram H unit) := by
  intro hclaim
  have hfound : ∃ A ∈ (buildContentAddressedProgram (contentSha256 Unit) cyclicUnit).functionStore,
      ∃ B ∈ (buildContentAddressedProgram (contentSha256 Unit) cyclicUnit).functionStore,
        B.2.name ∈ A.2.calleeNames ∧ ¬ B.2.requiredPermissions ⊆ A.2.requiredPermissions := by
    decide
  obtain ⟨A, hA, B, hB, hcall, hnot⟩ := hfound
  exact hnot (hclaim (contentSha256 Unit) cyclicUnit A hA B hB (.single ⟨A, hA, rfl, hcall⟩))

end ShapeLang.Bytecode
