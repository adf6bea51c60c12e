import ShapeLang.Bytecode.ContentAddressed

/-!
# ShapeLang — the store, seen by name

The joint loop works on a map from hashes to blobs whose keys move while it runs. Since a digest
determines the name it was taken of, the map is at every moment also a map from names to blobs. This
module proves that view once:

  * `Coherent` — each entry is a finalized blob under its own hash, and the name index agrees;
  * `blob?` — the blob of a name;
  * `blob?_depIteration`, `blob?_permIteration` — one pass of either loop replaces, name by name,
    each blob by its resolved or its inherited version, whatever the order of the map's entries.
-/

namespace ShapeLang.Bytecode

variable {β η : Type} [DecidableEq η] {H : Sha256 β η}

/-! ## Lookup -/

variable {b : FunctionBlob β η}

theorem FunctionStore.get_eq_some {store : FunctionStore β η} (hnd : (store.map Prod.fst).Nodup) {h : η} :
    FunctionStore.get store h = some b ↔ (h, b) ∈ store := by
  induction store with
  | nil => simp [FunctionStore.get]
  | cons e store ih =>
    obtain ⟨hne, hnd⟩ := List.nodup_cons.mp hnd
    rw [FunctionStore.get, List.find?_cons]
    by_cases he : e.1 = h
    · subst he
      simp only [decide_true, Option.map_some, Option.some.injEq, List.mem_cons]
      constructor
      · rintro rfl
        exact Or.inl rfl
      · rintro (heq | hmem)
        · rw [← heq]
        · exact absurd (List.mem_map.mpr ⟨_, hmem, rfl⟩) hne
    · simp only [he, decide_false]
      rw [← FunctionStore.get, ih hnd, List.mem_cons]
      constructor
      · exact Or.inr
      · rintro (heq | hmem)
        · exact absurd (by rw [← heq]) he
        · exact hmem

def FunctionBlob.Finalized (H : Sha256 β η) (b : FunctionBlob β η) : Prop :=
  b.contentHash = b.computeHash H

omit [DecidableEq η] in
theorem FunctionBlob.finalize_of_finalized (h : b.Finalized H) :
    b.finalize H = b := by
  rw [FunctionBlob.finalize, ← h]

omit [DecidableEq η] in
/-- A digest determines the name. -/
theorem FunctionBlob.name_eq {b' : FunctionBlob β η} (h : b.Finalized H) (h' : b'.Finalized H)
    (heq : b.contentHash = b'.contentHash) : b.name = b'.name := by
  rw [h, h'] at heq
  exact congrArg FunctionBlobHashInput.name (H.digest_injective heq)

/-- The invariant of the store and the name index. -/
structure Coherent (H : Sha256 β η) (st : LinkState β η) : Prop where
  keys_nodup : (st.functionStore.map Prod.fst).Nodup
  keyed : ∀ e ∈ st.functionStore, e.1 = e.2.contentHash
  finalized : ∀ e ∈ st.functionStore, e.2.Finalized H
  indexed : ∀ e ∈ st.functionStore, st.blobNameToHash e.2.name = some e.1
  registered : ∀ n h, st.blobNameToHash n = some h → ∃ b, (h, b) ∈ st.functionStore ∧ b.name = n

/-- The blob of a name. -/
def LinkState.blob? (st : LinkState β η) (n : String) : Option (FunctionBlob β η) :=
  (st.blobNameToHash n).bind (FunctionStore.get st.functionStore)

namespace Coherent

variable {st : LinkState β η}

variable {n : String} {b : FunctionBlob β η}

theorem blob?_eq_some (h : Coherent H st) :
    st.blob? n = some b ↔ (b.contentHash, b) ∈ st.functionStore ∧ b.name = n := by
  rw [LinkState.blob?, Option.bind_eq_some_iff]
  constructor
  · rintro ⟨k, hk, hget⟩
    obtain ⟨b', hb', hname⟩ := h.registered n k hk
    rw [FunctionStore.get_eq_some h.keys_nodup] at hget
    obtain rfl : b' = b :=
      congrArg Prod.snd (List.inj_on_of_nodup_map h.keys_nodup hb' hget rfl)
    rw [← h.keyed _ hget]
    exact ⟨hget, hname⟩
  · rintro ⟨hmem, rfl⟩
    exact ⟨b.contentHash, h.indexed _ hmem, (FunctionStore.get_eq_some h.keys_nodup).mpr hmem⟩

theorem mem_iff (h : Coherent H st) {e : η × FunctionBlob β η} :
    e ∈ st.functionStore ↔ st.blob? e.2.name = some e.2 ∧ e.1 = e.2.contentHash := by
  constructor
  · intro he
    have hk := h.keyed e he
    exact ⟨h.blob?_eq_some.mpr ⟨by rw [← hk]; exact he, rfl⟩, hk⟩
  · rintro ⟨hb, hk⟩
    have := (h.blob?_eq_some.mp hb).1
    rwa [← hk] at this

theorem blob?_finalized (h : Coherent H st) (hb : st.blob? n = some b) : b.Finalized H ∧ b.name = n :=
  ⟨h.finalized _ (h.blob?_eq_some.mp hb).1, (h.blob?_eq_some.mp hb).2⟩

theorem blobNameToHash_eq (h : Coherent H st) (n : String) :
    st.blobNameToHash n = (st.blob? n).map (·.contentHash) := by
  cases hn : st.blobNameToHash n with
  | none => simp [LinkState.blob?, hn]
  | some k =>
    obtain ⟨b, hb, rfl⟩ := h.registered n k hn
    have hk : k = b.contentHash := h.keyed _ hb
    rw [h.blob?_eq_some.mpr ⟨hk ▸ hb, rfl⟩, hk]
    rfl

omit [DecidableEq η] in
/-- A registered hash is a digest of content under that name. -/
theorem registered_digest (h : Coherent H st) {k : η} (hk : st.blobNameToHash n = some k) :
    ∃ input, input.name = n ∧ k = H.digest input := by
  obtain ⟨b, hb, rfl⟩ := h.registered n k hk
  have hkey : k = b.contentHash := h.keyed _ hb
  exact ⟨⟨b.name, b.body, b.dependencies, b.requiredPermissions.iter.map Permission.name⟩, rfl,
    hkey.trans (h.finalized _ hb)⟩

/-- A hash found in the store belongs to the blob of its name. -/
theorem get_eq_some_iff (h : Coherent H st) {k : η} :
    FunctionStore.get st.functionStore k = some b ↔
      st.blob? b.name = some b ∧ k = b.contentHash := by
  rw [FunctionStore.get_eq_some h.keys_nodup, h.mem_iff]

omit [DecidableEq η] in
theorem names_nodup (h : Coherent H st) : (st.functionStore.map (·.2.name)).Nodup := by
  refine List.Nodup.map_on (fun e he e' he' hname => ?_) (List.Nodup.of_map _ h.keys_nodup)
  refine List.inj_on_of_nodup_map h.keys_nodup he he' ?_
  have h1 := h.indexed e he
  rw [hname, h.indexed e' he'] at h1
  exact (Option.some.inj h1).symm

end Coherent

/-! ## Storing a blob -/

variable {st' : LinkState β η} {b : FunctionBlob β η}

/-- The store with the blob of one name replaced or added. -/
theorem coherent_update {st : LinkState β η} (h : Coherent H st) (hb : b.Finalized H)
    (hnd : (st'.functionStore.map Prod.fst).Nodup)
    (hmem : ∀ e, e ∈ st'.functionStore ↔ e = (b.contentHash, b) ∨ e ∈ st.functionStore ∧ e.2.name ≠ b.name)
    (hindex : st'.blobNameToHash = Function.update st.blobNameToHash b.name (some b.contentHash)) :
    Coherent H st' ∧ ∀ n, st'.blob? n = if n = b.name then some b else st.blob? n := by
  -- the new store: the invariant entry by entry, the replaced blob apart
  have hcoh : Coherent H st' := by
    refine ⟨hnd, fun e he => ?_, fun e he => ?_, fun e he => ?_, fun n k hk => ?_⟩
    · rcases (hmem e).mp he with rfl | ⟨he, -⟩
      · rfl
      · exact h.keyed e he
    · rcases (hmem e).mp he with rfl | ⟨he, -⟩
      · exact hb
      · exact h.finalized e he
    · rw [hindex]
      rcases (hmem e).mp he with rfl | ⟨he, hname⟩
      · exact Function.update_self ..
      · rw [Function.update_of_ne hname]
        exact h.indexed e he
    · rw [hindex] at hk
      by_cases hn : n = b.name
      · subst hn
        rw [Function.update_self] at hk
        obtain rfl := Option.some.inj hk
        exact ⟨b, (hmem _).mpr (Or.inl rfl), rfl⟩
      · rw [Function.update_of_ne hn] at hk
        obtain ⟨b', hb', rfl⟩ := h.registered n k hk
        exact ⟨b', (hmem _).mpr (Or.inr ⟨hb', hn⟩), rfl⟩
  refine ⟨hcoh, fun n => ?_⟩
  split
  · rename_i hn
    exact hcoh.blob?_eq_some.mpr ⟨(hmem _).mpr (Or.inl rfl), hn.symm⟩
  -- other names are found as before
  · rename_i hn
    refine Option.ext fun b' => ?_
    rw [hcoh.blob?_eq_some, h.blob?_eq_some, hmem]
    constructor
    · rintro ⟨heq | ⟨he, -⟩, hname⟩
      · obtain rfl : b' = b := congrArg Prod.snd heq
        exact absurd hname.symm hn
      · exact ⟨he, hname⟩
    · rintro ⟨he, hname⟩
      exact ⟨Or.inr ⟨he, fun hbn => hn (hname ▸ hbn)⟩, hname⟩

variable {s : FunctionStore β η}

theorem FunctionStore.insert_keys_nodup (h : (s.map Prod.fst).Nodup) (k : η) (b : FunctionBlob β η) :
    ((FunctionStore.insert s k b).map Prod.fst).Nodup := by
  rw [FunctionStore.insert, List.map_cons, List.nodup_cons]
  refine ⟨fun hk => ?_, h.sublist (List.filter_sublist.map _)⟩
  obtain ⟨e, he, hek⟩ := List.mem_map.mp hk
  exact of_decide_eq_true (List.mem_filter.mp he).2 hek

omit [DecidableEq η] in
/-- An entry under the hash of a finalized blob has the blob's name. -/
theorem Coherent.name_of_key {st : LinkState β η} (h : Coherent H st) {e : η × FunctionBlob β η}
    (he : e ∈ st.functionStore) (hb : b.Finalized H) (hk : e.1 = b.contentHash) :
    e.2.name = b.name :=
  FunctionBlob.name_eq (h.finalized e he) hb ((h.keyed e he).symm.trans hk)

theorem rekey_spec {st : LinkState β η} (h : Coherent H st) {b₀ : FunctionBlob β η}
    (hb₀ : st.blob? b.name = some b₀) (hb : b.Finalized H) :
    Coherent H (rekey st (b₀.contentHash, b)) ∧
      ∀ n, (rekey st (b₀.contentHash, b)).blob? n = if n = b.name then some b else st.blob? n := by
  obtain ⟨hfin₀, hname₀⟩ := h.blob?_finalized hb₀
  refine coherent_update h hb ?_ (fun e => ?_) rfl
  · exact FunctionStore.insert_keys_nodup (h.keys_nodup.sublist (List.filter_sublist.map _)) _ _
  · simp only [rekey, FunctionStore.insert, FunctionStore.remove, List.mem_cons, List.mem_filter,
      decide_eq_true_eq]
    refine or_congr_right ⟨?_, ?_⟩
    · rintro ⟨⟨he, hold⟩, -⟩
      refine ⟨he, fun hname => hold ?_⟩
      obtain ⟨he1, he2⟩ := h.mem_iff.mp he
      rw [hname, hb₀] at he1
      rw [he2, Option.some.inj he1]
    · rintro ⟨he, hname⟩
      exact ⟨⟨he, fun hold => hname ((h.name_of_key he hfin₀ hold).trans hname₀)⟩,
        fun hnew => hname (h.name_of_key he hb hnew)⟩

theorem compileBlob_spec {st : LinkState β η} (h : Coherent H st) {builder : FunctionBlobBuilder β}
    (hnew : st.blob? builder.name = none) :
    Coherent H (compileBlob H st builder) ∧ ∀ n, (compileBlob H st builder).blob? n
      = if n = builder.name then some (builder.finalize H st.blobNameToHash) else st.blob? n := by
  have hb : (builder.finalize H st.blobNameToHash).Finalized H := rfl
  refine coherent_update h hb ?_ (fun e => ?_) rfl
  · exact FunctionStore.insert_keys_nodup h.keys_nodup _ _
  · simp only [compileBlob, FunctionStore.insert, FunctionStore.remove, List.mem_cons,
      List.mem_filter, decide_eq_true_eq]
    refine or_congr_right (and_congr_right fun he => ⟨fun _ hname => ?_, fun hname hkey => ?_⟩)
    · have hsome := (h.mem_iff.mp he).1
      rw [hname, show (builder.finalize H st.blobNameToHash).name = builder.name from rfl,
        hnew] at hsome
      cases hsome
    · exact hname (h.name_of_key he hb hkey)

/-! ## Moving blobs to their new keys -/

variable {entries : List (η × FunctionBlob β η)}

/-- A batch of replacements, one per name. -/
theorem foldl_rekey_spec {st : LinkState β η} (h : Coherent H st) (hnd : (entries.map (·.2.name)).Nodup)
    (hold : ∀ u ∈ entries, ∃ b₀, st.blob? u.2.name = some b₀ ∧ u.1 = b₀.contentHash)
    (hfin : ∀ u ∈ entries, u.2.Finalized H) :
    Coherent H (entries.foldl rekey st) ∧
      (∀ u ∈ entries, (entries.foldl rekey st).blob? u.2.name = some u.2) ∧
      ∀ n, (∀ u ∈ entries, u.2.name ≠ n) → (entries.foldl rekey st).blob? n = st.blob? n := by
  induction entries generalizing st with
  | nil => exact ⟨h, fun u hu => absurd hu List.not_mem_nil, fun n _ => rfl⟩
  | cons u entries ih =>
    obtain ⟨hne, hnd'⟩ := List.nodup_cons.mp hnd
    obtain ⟨old, b⟩ := u
    obtain ⟨b₀, hb₀, rfl⟩ := hold (old, b) List.mem_cons_self
    obtain ⟨hcoh, hblob⟩ := rekey_spec h hb₀ (hfin _ List.mem_cons_self)
    -- one blob for each name, so later replacements do not touch this one
    have hother : ∀ v ∈ entries, v.2.name ≠ b.name :=
      fun v hv hname => hne (List.mem_map.mpr ⟨v, hv, hname⟩)
    obtain ⟨hcoh', hnew, hrest⟩ := ih hcoh hnd'
      (fun v hv => by
        rw [hblob, if_neg (hother v hv)]
        exact hold v (List.mem_cons_of_mem _ hv))
      (fun v hv => hfin v (List.mem_cons_of_mem _ hv))
    refine ⟨hcoh', fun v hv => ?_, fun n hn => ?_⟩
    · rcases List.mem_cons.mp hv with rfl | hv
      · rw [List.foldl_cons, hrest _ hother, hblob, if_pos rfl]
      · exact hnew v hv
    · rw [List.foldl_cons, hrest n fun v hv => hn v (List.mem_cons_of_mem _ hv), hblob,
        if_neg (Ne.symm (hn _ List.mem_cons_self))]

/-- A batch that replaces each blob `b` that changes by `f b`. -/
theorem foldl_rekey_map {st : LinkState β η} {f : FunctionBlob β η → FunctionBlob β η}
    {C : FunctionBlob β η → Prop} (h : Coherent H st) (hnd : (entries.map (·.2.name)).Nodup)
    (hmem : ∀ u, u ∈ entries ↔ ∃ b, st.blob? b.name = some b ∧ C b ∧ u = (b.contentHash, f b))
    (hname : ∀ b, (f b).name = b.name) (hfin : ∀ b, (f b).Finalized H)
    (hsame : ∀ b, b.Finalized H → ¬ C b → f b = b) :
    Coherent H (entries.foldl rekey st) ∧
      ∀ n, (entries.foldl rekey st).blob? n = (st.blob? n).map f := by
  obtain ⟨hcoh, hnew, hrest⟩ := foldl_rekey_spec h hnd
    (fun u hu => by
      obtain ⟨b, hb, -, rfl⟩ := (hmem u).mp hu
      exact ⟨b, by rw [hname]; exact hb, rfl⟩)
    (fun u hu => by
      obtain ⟨b, -, -, rfl⟩ := (hmem u).mp hu
      exact hfin b)
  refine ⟨hcoh, fun n => ?_⟩
  -- a blob that the batch leaves out is one that `f` leaves as it is
  cases hb : st.blob? n with
  | none =>
    rw [hrest n fun u hu hun => ?_, hb]
    · rfl
    · obtain ⟨b, hb', -, rfl⟩ := (hmem u).mp hu
      rw [show b.name = n from (hname b).symm.trans hun, hb] at hb'
      cases hb'
  | some b =>
    obtain ⟨hbfin, rfl⟩ := h.blob?_finalized hb
    by_cases hch : C b
    · have hin := hnew _ ((hmem _).mpr ⟨b, hb, hch, rfl⟩)
      rwa [hname] at hin
    · rw [hrest b.name fun u hu hun => ?_, hb, Option.map_some, hsame b hbfin hch]
      obtain ⟨b', hb', hch', rfl⟩ := (hmem u).mp hu
      rw [show b'.name = b.name from (hname b').symm.trans hun, hb] at hb'
      exact hch (Option.some.inj hb' ▸ hch')

/-! ## One dependency pass -/

/-- A blob with its dependencies resolved against the state. -/
def resolved (H : Sha256 β η) (cyclic : List (String × String)) (st : LinkState β η)
    (b : FunctionBlob β η) : FunctionBlob β η :=
  FunctionBlob.finalize H { b with dependencies := resolveDeps H cyclic st b }

omit [DecidableEq η] in
/-- The labels of what a `filterMap` keeps, when each result carries the label of its source. -/
theorem nodup_filterMap_labels {α γ κ : Type} {l : List α} {g : α → Option γ} {f : α → κ}
    {f' : γ → κ} (hg : ∀ a u, g a = some u → f' u = f a) (hnd : (l.map f).Nodup) :
    ((l.filterMap g).map f').Nodup := by
  refine hnd.sublist ?_
  clear hnd
  induction l with
  | nil => exact List.Sublist.refl _
  | cons a l ih =>
    rw [List.filterMap_cons]
    cases ha : g a with
    | none => exact ih.trans (List.sublist_cons_self _ _)
    | some u =>
      rw [List.map_cons, List.map_cons, hg a u ha]
      exact ih.cons_cons _

omit [DecidableEq η] in
theorem computeHash_ne_of_dependencies_ne {deps : List η} (hne : deps ≠ b.dependencies)
    (h : b.Finalized H) :
    (FunctionBlob.finalize H { b with dependencies := deps }).contentHash ≠ b.contentHash := by
  intro heq
  rw [h] at heq
  exact hne (congrArg FunctionBlobHashInput.dependencies (H.digest_injective heq))

omit [DecidableEq η] in
theorem computeHash_ne_of_permissions_ne {perms : PermissionSet}
    (hne : perms ≠ b.requiredPermissions) (h : b.Finalized H) :
    (FunctionBlob.finalize H { b with requiredPermissions := perms }).contentHash
      ≠ b.contentHash := by
  intro heq
  rw [h] at heq
  exact hne (PermissionSet.names_injective
    (congrArg FunctionBlobHashInput.requiredPermissionNames (H.digest_injective heq)))

theorem mem_recomputed {cyclic : List (String × String)} {st : LinkState β η} (h : Coherent H st)
    {u : η × FunctionBlob β η} :
    u ∈ recomputed H cyclic st ↔ ∃ b, st.blob? b.name = some b ∧
      resolveDeps H cyclic st b ≠ b.dependencies ∧ u = (b.contentHash, resolved H cyclic st b) := by
  simp only [recomputed, List.mem_filterMap]
  constructor
  · rintro ⟨e, he, hu⟩
    obtain ⟨hb, hk⟩ := h.mem_iff.mp he
    split at hu
    · cases hu
    · rename_i hne
      split at hu
      · exact ⟨e.2, hb, hne, (Option.some.inj hu).symm⟩
      · cases hu
  · rintro ⟨b, hb, hne, rfl⟩
    refine ⟨(b.contentHash, b), h.mem_iff.mpr ⟨hb, rfl⟩, ?_⟩
    rw [if_neg hne, if_pos (computeHash_ne_of_dependencies_ne hne (h.blob?_finalized hb).1)]
    rfl

variable (cyclic : List (String × String))

/-- **A dependency pass, by name.** -/
theorem blob?_depIteration {st : LinkState β η} (h : Coherent H st) :
    Coherent H (depIteration H cyclic st).1 ∧
      ∀ n, (depIteration H cyclic st).1.blob? n = (st.blob? n).map (resolved H cyclic st) := by
  have hnd : ((recomputed H cyclic st).map (·.2.name)).Nodup := by
    refine nodup_filterMap_labels (f := fun e => e.2.name) (fun e u hu => ?_) h.names_nodup
    simp only at hu
    split at hu
    · cases hu
    · split at hu
      · rw [← Option.some.inj hu]
        rfl
      · cases hu
  refine foldl_rekey_map (C := fun b => resolveDeps H cyclic st b ≠ b.dependencies) h hnd
    (fun u => mem_recomputed h) (fun b => rfl) (fun b => rfl) (fun b hb hsame => ?_)
  rw [resolved, not_not.mp hsame, FunctionBlob.finalize_of_finalized hb]

theorem depIteration_unchanged (st : LinkState β η) (h : (depIteration H cyclic st).2 = false) :
    (depIteration H cyclic st).1 = st := by
  have hnil : recomputed H cyclic st = [] := by simpa [depIteration] using h
  rw [depIteration, hnil]
  rfl

/-! ## One permission pass

The blobs are first rewritten under their old keys and then moved. The moves drop what stands under
the old keys, so the rewriting in place leaves no trace. -/

/-- Two stores with the same keys whose entries agree except under the keys in `ks`. -/
def AgreeOff (ks : List η) (s s' : FunctionStore β η) : Prop :=
  List.Forall₂ (fun e e' => e.1 = e'.1 ∧ (e.1 ∉ ks → e = e')) s s'

omit [DecidableEq η] in
theorem AgreeOff.refl (ks : List η) (s : FunctionStore β η) : AgreeOff ks s s :=
  List.forall₂_same.mpr fun _ _ => ⟨rfl, fun _ => rfl⟩

variable {ks : List η} {s' : FunctionStore β η}

omit [DecidableEq η] in
theorem agreeOff_trans {s'' : FunctionStore β η} (h : AgreeOff ks s s') (h' : AgreeOff ks s' s'') :
    AgreeOff ks s s'' := by
  unfold AgreeOff at *
  induction h generalizing s'' with
  | nil =>
    cases h'
    exact .nil
  | cons he _ ih =>
    cases h' with
    | cons he' hrest =>
      refine .cons ⟨he.1.trans he'.1, fun hn => ?_⟩ (ih hrest)
      rw [he.2 hn]
      exact he'.2 (he.1 ▸ hn)

theorem AgreeOff.set (h : AgreeOff ks s s') {k : η} (hk : k ∈ ks) (b : FunctionBlob β η) :
    AgreeOff ks s (FunctionStore.set s' k b) := by
  rw [FunctionStore.set, AgreeOff, List.forall₂_map_right_iff]
  refine h.imp fun e e' ⟨h1, h2⟩ => ?_
  split
  · rename_i he
    rw [h1, he]
    exact ⟨rfl, fun hn => absurd hk hn⟩
  · exact ⟨h1, h2⟩

theorem AgreeOff.remove (h : AgreeOff ks s s') (k : η) :
    AgreeOff ks (FunctionStore.remove s k) (FunctionStore.remove s' k) :=
  List.rel_filter (fun _ _ ⟨h1, _⟩ => by simp [h1]) h

theorem AgreeOff.rekey {k : η} {st : LinkState β η}
    (h : AgreeOff (k :: ks) st.functionStore st'.functionStore)
    (hname : st.blobNameToHash = st'.blobNameToHash) (b : FunctionBlob β η) :
    AgreeOff ks (Bytecode.rekey st (k, b)).functionStore (Bytecode.rekey st' (k, b)).functionStore ∧
      (Bytecode.rekey st (k, b)).blobNameToHash = (Bytecode.rekey st' (k, b)).blobNameToHash := by
  refine ⟨List.Forall₂.cons ⟨rfl, fun _ => rfl⟩ (AgreeOff.remove ?_ b.contentHash), ?_⟩
  · have hboth := (List.forall₂_and_left (p := fun e : η × FunctionBlob β η => e.1 ≠ k) _ _).mpr
      ⟨fun e he => of_decide_eq_true (List.mem_filter.mp he).2, h.remove k⟩
    refine hboth.imp fun e e' ⟨hne, h1, h2⟩ => ⟨h1, fun hks => h2 ?_⟩
    simp [hne, hks]
  · simp only [Bytecode.rekey, hname]

theorem foldl_rekey_agree {st : LinkState β η}
    (h : AgreeOff (entries.map Prod.fst) st.functionStore st'.functionStore)
    (hname : st.blobNameToHash = st'.blobNameToHash) :
    entries.foldl rekey st = entries.foldl rekey st' := by
  induction entries generalizing st st' with
  | nil =>
    have heq : st.functionStore = st'.functionStore := by
      have h' : List.Forall₂ Eq st.functionStore st'.functionStore :=
        h.imp fun e e' ⟨_, h2⟩ => h2 List.not_mem_nil
      rwa [List.forall₂_eq_eq_eq] at h'
    obtain ⟨store, names⟩ := st
    obtain ⟨store', names'⟩ := st'
    simp only at heq hname
    rw [heq, hname]
  | cons u entries ih =>
    obtain ⟨hstore, hname'⟩ := h.rekey hname u.2
    exact ih hstore hname'

theorem FunctionStore.get_set_of_ne {k h : η} (hne : h ≠ k) (b : FunctionBlob β η) :
    FunctionStore.get (FunctionStore.set s k b) h = FunctionStore.get s h := by
  unfold FunctionStore.get FunctionStore.set
  induction s with
  | nil => rfl
  | cons e s ih =>
    rw [List.map_cons, List.find?_cons, List.find?_cons]
    by_cases hek : e.1 = k
    · have hkh : k ≠ h := fun hkh => hne hkh.symm
      simp only [hek, if_true, hkh, decide_false]
      exact ih
    · rw [if_neg hek]
      cases decide (e.1 = h) with
      | true => rfl
      | false => exact ih

/-- A blob with the permissions of its dependencies. -/
def inherited (H : Sha256 β η) (st : LinkState β η) (b : FunctionBlob β η) : FunctionBlob β η :=
  FunctionBlob.finalize H { b with requiredPermissions := accumulated st b }

/-- The entry an update leads to. -/
def rewritten (H : Sha256 β η) (s : FunctionStore β η) (u : η × PermissionSet) :
    Option (η × FunctionBlob β η) :=
  (FunctionStore.get s u.1).map fun b =>
    (b.contentHash, FunctionBlob.finalize H { b with requiredPermissions := u.2 })

/-- Rewriting in place: the keys stay, entries under other keys stay, and every rewritten blob is
noted, since its hash changes with its permissions. -/
theorem foldl_writePermissions {updates : List (η × PermissionSet)} (noted : List (η × FunctionBlob β η))
    (hnd : (updates.map Prod.fst).Nodup)
    (hget : ∀ u ∈ updates, ∃ b, FunctionStore.get s u.1 = some b ∧ b.Finalized H ∧
      u.2 ≠ b.requiredPermissions) :
    AgreeOff (updates.map Prod.fst) s (updates.foldl (writePermissions H) (s, noted)).1 ∧
      (updates.foldl (writePermissions H) (s, noted)).2
        = noted ++ updates.filterMap (rewritten H s) := by
  induction updates generalizing s noted with
  | nil => exact ⟨AgreeOff.refl _ _, by simp⟩
  | cons u updates ih =>
    obtain ⟨hne, hnd'⟩ := List.nodup_cons.mp hnd
    obtain ⟨b, hb, hfin, hperm⟩ := hget u List.mem_cons_self
    have hother : ∀ v ∈ updates, v.1 ≠ u.1 := fun v hv heq => hne (List.mem_map.mpr ⟨v, hv, heq⟩)
    obtain ⟨b', hb'⟩ : ∃ b', b' = FunctionBlob.finalize H { b with requiredPermissions := u.2 } :=
      ⟨_, rfl⟩
    -- new permissions, new hash: the key in the store is the old one until the blobs are moved
    have hchanged : b'.contentHash ≠ b.contentHash :=
      hb' ▸ computeHash_ne_of_permissions_ne hperm hfin
    have hwrite : writePermissions H (s, noted) u
        = (FunctionStore.set s u.1 b', noted ++ [(b.contentHash, b')]) := by
      rw [writePermissions, hb]
      simp only [← hb', if_pos hchanged]
    have hrewritten : rewritten H s u = some (b.contentHash, b') := by
      rw [rewritten, hb, hb']
      rfl
    -- the updates that follow look their blob up under another key
    have hsame : ∀ v ∈ updates,
        FunctionStore.get (FunctionStore.set s u.1 b') v.1 = FunctionStore.get s v.1 :=
      fun v hv => FunctionStore.get_set_of_ne (hother v hv) b'
    obtain ⟨hagree, hnoted⟩ := ih (s := FunctionStore.set s u.1 b')
      (noted ++ [(b.contentHash, b')]) hnd' (fun v hv => by
        rw [hsame v hv]
        exact hget v (List.mem_cons_of_mem _ hv))
    rw [List.foldl_cons, hwrite]
    constructor
    · refine agreeOff_trans (AgreeOff.set (AgreeOff.refl _ s) List.mem_cons_self b') ?_
      exact hagree.imp fun e e' ⟨h1, h2⟩ => ⟨h1, fun hn => h2 fun hm =>
        hn (List.mem_cons_of_mem _ hm)⟩
    · rw [hnoted, List.filterMap_cons, hrewritten, List.append_assoc, List.singleton_append]
      refine congrArg (noted ++ _ :: ·) (List.filterMap_congr fun v hv => ?_)
      rw [rewritten, rewritten, hsame v hv]

theorem mem_permUpdates {st : LinkState β η} (h : Coherent H st) {u : η × PermissionSet} :
    u ∈ permUpdates st ↔ ∃ b, st.blob? b.name = some b ∧
      accumulated st b ≠ b.requiredPermissions ∧ u = (b.contentHash, accumulated st b) := by
  simp only [permUpdates, List.mem_filterMap]
  constructor
  · rintro ⟨e, he, hu⟩
    obtain ⟨hb, hk⟩ := h.mem_iff.mp he
    split at hu
    · rename_i hne
      exact ⟨e.2, hb, hne, by rw [← hk]; exact (Option.some.inj hu).symm⟩
    · cases hu
  · rintro ⟨b, hb, hne, rfl⟩
    exact ⟨(b.contentHash, b), h.mem_iff.mpr ⟨hb, rfl⟩, if_pos hne⟩

/-- The entries a permission pass moves. -/
theorem mem_rewritten_permUpdates {st : LinkState β η} (h : Coherent H st)
    {v : η × FunctionBlob β η} :
    v ∈ (permUpdates st).filterMap (rewritten H st.functionStore) ↔ ∃ b, st.blob? b.name = some b ∧
      accumulated st b ≠ b.requiredPermissions ∧ v = (b.contentHash, inherited H st b) := by
  rw [List.mem_filterMap]
  constructor
  · rintro ⟨u, hu, hv⟩
    obtain ⟨b, hb, hne, rfl⟩ := (mem_permUpdates h).mp hu
    rw [rewritten, h.get_eq_some_iff.mpr ⟨hb, rfl⟩] at hv
    exact ⟨b, hb, hne, (Option.some.inj hv).symm⟩
  · rintro ⟨b, hb, hne, rfl⟩
    refine ⟨_, (mem_permUpdates h).mpr ⟨b, hb, hne, rfl⟩, ?_⟩
    rw [rewritten, h.get_eq_some_iff.mpr ⟨hb, rfl⟩]
    rfl

theorem permUpdates_keys_nodup {st : LinkState β η} (h : Coherent H st) :
    ((permUpdates st).map Prod.fst).Nodup := by
  refine nodup_filterMap_labels (f := Prod.fst) (fun e u hu => ?_) h.keys_nodup
  split at hu
  · rw [← Option.some.inj hu]
  · cases hu

/-- The pass is its moves alone. -/
theorem permIteration_eq {st : LinkState β η} (h : Coherent H st) :
    (permIteration H st).1
      = ((permUpdates st).filterMap (rewritten H st.functionStore)).foldl rekey st := by
  obtain ⟨hagree, hnoted⟩ := foldl_writePermissions (H := H) (s := st.functionStore) []
    (permUpdates_keys_nodup h) (fun u hu => by
      obtain ⟨b, hb, hne, rfl⟩ := (mem_permUpdates h).mp hu
      exact ⟨b, h.get_eq_some_iff.mpr ⟨hb, rfl⟩, (h.blob?_finalized hb).1, hne⟩)
  rw [List.nil_append] at hnoted
  rw [permIteration, hnoted]
  symm
  refine foldl_rekey_agree ?_ rfl
  -- the rewritten entries are exactly those under the keys of the moves
  refine hagree.imp fun e e' ⟨h1, h2⟩ => ⟨h1, fun hn => h2 fun hm => hn ?_⟩
  obtain ⟨u, hu, huk⟩ := List.mem_map.mp hm
  obtain ⟨b, hb, hne, rfl⟩ := (mem_permUpdates h).mp hu
  exact List.mem_map.mpr ⟨_, (mem_rewritten_permUpdates h).mpr ⟨b, hb, hne, rfl⟩, huk⟩

/-- **A permission pass, by name.** -/
theorem blob?_permIteration {st : LinkState β η} (h : Coherent H st) :
    Coherent H (permIteration H st).1 ∧
      ∀ n, (permIteration H st).1.blob? n = (st.blob? n).map (inherited H st) := by
  rw [permIteration_eq h]
  have hkeys : (((permUpdates st).filterMap (rewritten H st.functionStore)).map
      Prod.fst).Nodup := by
    refine nodup_filterMap_labels (f := Prod.fst) (fun u v hv => ?_) (permUpdates_keys_nodup h)
    rw [rewritten] at hv
    obtain ⟨b, hb, rfl⟩ := Option.map_eq_some_iff.mp hv
    exact (h.get_eq_some_iff.mp hb).2.symm
  have hnd : (((permUpdates st).filterMap (rewritten H st.functionStore)).map
      (·.2.name)).Nodup := by
    refine List.Nodup.map_on (fun u hu v hv hname => ?_) (List.Nodup.of_map _ hkeys)
    obtain ⟨b, hb, -, rfl⟩ := (mem_rewritten_permUpdates h).mp hu
    obtain ⟨b', hb', -, rfl⟩ := (mem_rewritten_permUpdates h).mp hv
    rw [show b.name = b'.name from hname, hb'] at hb
    rw [Option.some.inj hb]
  refine foldl_rekey_map (C := fun b => accumulated st b ≠ b.requiredPermissions) h hnd
    (fun u => mem_rewritten_permUpdates h) (fun b => rfl) (fun b => rfl) (fun b hb hsame => ?_)
  rw [inherited, not_not.mp hsame, FunctionBlob.finalize_of_finalized hb]

theorem permIteration_unchanged (st : LinkState β η) (h : (permIteration H st).2 = false) :
    (permIteration H st).1 = st := by
  have hnil : permUpdates st = [] := by simpa [permIteration] using h
  rw [permIteration, hnil]
  rfl

end ShapeLang.Bytecode
