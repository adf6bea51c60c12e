import ShapeLang.Bytecode.Transfer

/-!
# ShapeLang — what a content hash says about calls

The hash of a blob covers the hashes of its callees, and so on down, but a callee that is the function
itself or is on a call cycle with it enters as the sentinel, and no callee enters by name. A function
can therefore be given a *detour*: the call `x → m` along a cycle becomes `x → g → m` through a new
function `g`. No hash but the one of `g` notices.

  * `calleeHash` — the hash of the function that an instruction of a linked function calls;
  * `Detour` — the two compilations;
  * `Detour.plainCall_iff`, `Detour.hashesSettle_iff`, `Detour.contentHash_eq` — what stays the same;
  * `hashDetermines_iff` — the hash of a function determines the hashes of what it calls exactly when
    all its calls are plain.
-/

namespace ShapeLang.Bytecode

open Relation

variable {β κ η : Type}

/-! ## A detour -/

/-- The callee `m` of `x` is renamed to `g`. -/
def FunctionBlobBuilder.rename (x m g : String) (y : FunctionBlobBuilder β) :
    FunctionBlobBuilder β :=
  if y.name = x then
    { y with calledFunctions := y.calledFunctions.map fun c => if c = m then g else c }
  else y

/-- In `other` the call from `x` to `m`, which is not a plain one, goes to a new function `g`. It is
compiled right after `back`, which is `m` if the call was along a cycle and else `x`, and calls it. -/
structure Detour (unit other : Compilation β) (x : FunctionBlobBuilder β) (m back g : String) where
  pre : List (FunctionBlobBuilder β)
  post : List (FunctionBlobBuilder β)
  at' : FunctionBlobBuilder β
  body : β
  split : unit.builders = pre ++ at' :: post
  builders : other.builders = pre.map (.rename x.name m g) ++ at'.rename x.name m g ::
    ⟨g, [back], ∅, body⟩ :: post.map (.rename x.name m g)
  at_name : at'.name = back
  mem : x ∈ unit.builders
  callee : m ∈ x.calledFunctions
  back_cases : ((m = x.name ∨ m ∉ unit.names) ∧ back = x.name) ∨ (CycleCall unit x.name m ∧ back = m)
  fresh : g ∉ unit.names
  fresh_callee : ∀ y ∈ unit.builders, g ∉ y.calledFunctions

@[simp]
theorem FunctionBlobBuilder.rename_name (x m g : String) (y : FunctionBlobBuilder β) :
    (y.rename x m g).name = y.name := by
  unfold rename
  split <;> rfl

@[simp]
theorem FunctionBlobBuilder.rename_requiredPermissions (x m g : String) (y : FunctionBlobBuilder β) :
    (y.rename x m g).requiredPermissions = y.requiredPermissions := by
  unfold rename
  split <;> rfl

@[simp]
theorem FunctionBlobBuilder.rename_body (x m g : String) (y : FunctionBlobBuilder β) :
    (y.rename x m g).body = y.body := by
  unfold rename
  split <;> rfl

theorem FunctionBlobBuilder.map_rename_names (x m g : String) (l : List (FunctionBlobBuilder β)) :
    (l.map (FunctionBlobBuilder.rename x m g)).map (·.name) = l.map (·.name) := by
  rw [List.map_map]
  exact List.map_congr_left fun y _ => y.rename_name x m g

theorem compiledBefore_iff (unit : Compilation β) (a b : String) :
    CompiledBefore unit a b ↔ [a, b].Sublist unit.names := by
  rw [List.cons_sublist_iff]
  constructor
  · rintro ⟨pre, post, hsplit, ha, hb⟩
    refine ⟨pre.map (·.name), post.map (·.name), ?_, ha, List.singleton_sublist.mpr hb⟩
    rw [← List.map_append, ← hsplit]
    rfl
  · rintro ⟨r₁, r₂, hnames, ha, hb⟩
    obtain ⟨pre, post, hsplit, rfl, rfl⟩ := List.map_eq_append_iff.mp hnames
    exact ⟨pre, post, hsplit, ha, List.singleton_sublist.mp hb⟩

namespace Detour

variable {unit other : Compilation β} {x : FunctionBlobBuilder β} {m back g : String}

section Calls

variable (h : Detour unit other x m back g)
include h

theorem names_eq : unit.names = h.pre.map (·.name) ++ back :: h.post.map (·.name) := by
  rw [Compilation.names, h.split, List.map_append, List.map_cons, h.at_name]

theorem other_names : other.names = h.pre.map (·.name) ++ back :: g :: h.post.map (·.name) := by
  rw [Compilation.names, h.builders, List.map_append, List.map_cons, List.map_cons,
    FunctionBlobBuilder.map_rename_names, FunctionBlobBuilder.map_rename_names,
    FunctionBlobBuilder.rename_name, h.at_name]

theorem mem_other_names (n : String) : n ∈ other.names ↔ n ∈ unit.names ∨ n = g := by
  rw [h.names_eq, h.other_names]
  simp only [List.mem_append, List.mem_cons]
  tauto

theorem x_ne : x.name ≠ g := fun heq => h.fresh (heq ▸ List.mem_map.mpr ⟨x, h.mem, rfl⟩)

theorem back_mem : back ∈ unit.names := by
  rw [h.names_eq]
  exact List.mem_append_right _ List.mem_cons_self

/-- The functions of the other compilation. -/
theorem mem_other_builders (y : FunctionBlobBuilder β) :
    y ∈ other.builders ↔ (∃ z ∈ unit.builders, z.rename x.name m g = y) ∨ y = ⟨g, [back], ∅, h.body⟩ := by
  rw [h.builders, h.split]
  simp only [List.mem_append, List.mem_cons, List.mem_map]
  constructor
  · rintro (⟨z, hz, rfl⟩ | rfl | rfl | ⟨z, hz, rfl⟩)
    · exact Or.inl ⟨z, Or.inl hz, rfl⟩
    · exact Or.inl ⟨h.at', Or.inr (Or.inl rfl), rfl⟩
    · exact Or.inr rfl
    · exact Or.inl ⟨z, Or.inr (Or.inr hz), rfl⟩
  · rintro (⟨z, hz | rfl | hz, rfl⟩ | rfl)
    · exact Or.inl ⟨z, hz, rfl⟩
    · exact Or.inr (Or.inl rfl)
    · exact Or.inr (Or.inr (Or.inr ⟨z, hz, rfl⟩))
    · exact Or.inr (Or.inr (Or.inl rfl))

theorem calls_proxy : Calls other x.name g := by
  refine ⟨x.rename x.name m g, (h.mem_other_builders _).mpr (Or.inl ⟨x, h.mem, rfl⟩), x.rename_name ..,
    ?_, (h.mem_other_names g).mpr (Or.inr rfl)⟩
  rw [FunctionBlobBuilder.rename, if_pos rfl]
  exact List.mem_map.mpr ⟨m, h.callee, if_pos rfl⟩

theorem proxy_calls : Calls other g back :=
  ⟨_, (h.mem_other_builders _).mpr (Or.inr rfl), rfl, List.mem_cons_self,
    (h.mem_other_names back).mpr (Or.inl h.back_mem)⟩

variable {a b : String}

/-- A call of the other compilation is a call of the first, or one of the two of the detour. -/
theorem calls_cases (hcall : Calls other a b) :
    (Calls unit a b ∧ a ≠ g ∧ b ≠ g ∧ ¬ (a = x.name ∧ b = m)) ∨ (a = x.name ∧ b = g) ∨
      (a = g ∧ b = back) := by
  obtain ⟨y, hy, rfl, hb, hbn⟩ := hcall
  rcases (h.mem_other_builders y).mp hy with ⟨z, hz, rfl⟩ | rfl
  · have hzg : z.name ≠ g := fun heq => h.fresh (heq ▸ List.mem_map.mpr ⟨z, hz, rfl⟩)
    rw [FunctionBlobBuilder.rename_name]
    by_cases hzx : z.name = x.name
    · rw [FunctionBlobBuilder.rename, if_pos hzx] at hb
      obtain ⟨c, hc, hcb⟩ := List.mem_map.mp hb
      by_cases hcm : c = m
      · rw [if_pos hcm] at hcb
        exact Or.inr (Or.inl ⟨hzx, hcb.symm⟩)
      · rw [if_neg hcm] at hcb
        subst hcb
        have hcg : c ≠ g := fun heq => h.fresh_callee z hz (heq ▸ hc)
        refine Or.inl ⟨⟨z, hz, rfl, hc, ?_⟩, hzg, hcg, fun hxm => hcm hxm.2⟩
        exact ((h.mem_other_names c).mp hbn).resolve_right hcg
    · rw [FunctionBlobBuilder.rename, if_neg hzx] at hb
      have hbg : b ≠ g := fun heq => h.fresh_callee z hz (heq ▸ hb)
      refine Or.inl ⟨⟨z, hz, rfl, hb, ?_⟩, hzg, hbg, fun hxm => hzx hxm.1⟩
      exact ((h.mem_other_names b).mp hbn).resolve_right hbg
  · exact Or.inr (Or.inr ⟨rfl, List.mem_singleton.mp hb⟩)

theorem calls_other (hcall : Calls unit a b) (hne : ¬ (a = x.name ∧ b = m)) :
    Calls other a b := by
  obtain ⟨y, hy, rfl, hb, hbn⟩ := hcall
  refine ⟨y.rename x.name m g, (h.mem_other_builders _).mpr (Or.inl ⟨y, hy, rfl⟩), y.rename_name ..,
    ?_, (h.mem_other_names b).mpr (Or.inl hbn)⟩
  unfold FunctionBlobBuilder.rename
  split
  · rename_i hyx
    exact List.mem_map.mpr ⟨b, hb, if_neg fun hbm => hne ⟨hyx, hbm⟩⟩
  · exact hb

/-! ## Reachability -/

/-- Seen from outside, `g` is part of `x`. -/
theorem reaches_iff (ha : a ≠ g) (hb : b ≠ g) :
    ReflTransGen (Calls other) a b ↔ ReflTransGen (Calls unit) a b := by
  constructor
  -- `g` is folded into `x`: each call of the longer program is one of the shorter or stays in place
  · intro hab
    have hlift : ReflTransGen (Calls unit) (if a = g then x.name else a)
        (if b = g then x.name else b) := by
      refine hab.lift' (fun n => if n = g then x.name else n) fun c d hcd => ?_
      show ReflTransGen (Calls unit) (if c = g then x.name else c) (if d = g then x.name else d)
      rcases h.calls_cases hcd with ⟨hcall, hc, hd, -⟩ | ⟨rfl, rfl⟩ | ⟨rfl, rfl⟩
      · simp only [if_neg hc, if_neg hd]
        exact .single hcall
      · simp only [if_neg h.x_ne, if_true]
        exact .refl
      · have hbg : d ≠ c := fun heq => h.fresh (heq ▸ h.back_mem)
        simp only [if_neg hbg, if_true]
        rcases h.back_cases with ⟨-, rfl⟩ | ⟨hcyc, rfl⟩
        · exact .refl
        · exact .single hcyc.1
    rwa [if_neg ha, if_neg hb] at hlift
  -- the call of `x` that was cut goes through `g`
  · intro hab
    refine hab.lift' id fun c d hcd => ?_
    by_cases hxm : c = x.name ∧ d = m
    · obtain ⟨rfl, rfl⟩ := hxm
      rcases h.back_cases with ⟨rfl | hunknown, -⟩ | ⟨-, hback⟩
      · exact .refl
      · obtain ⟨-, -, -, -, hdn⟩ := hcd
        exact absurd hdn hunknown
      · exact (ReflTransGen.single h.calls_proxy).tail (hback ▸ h.proxy_calls)
    · exact .single (h.calls_other hcd hxm)

theorem back_reaches : ReflTransGen (Calls other) back x.name := by
  refine (h.reaches_iff (fun heq => h.fresh (heq ▸ h.back_mem)) h.x_ne).mpr ?_
  rcases h.back_cases with ⟨-, rfl⟩ | ⟨hcyc, rfl⟩
  · exact .refl
  · exact hcyc.2.2

theorem not_plainCall : ¬ PlainCall unit x.name m := by
  intro hplain
  rcases h.back_cases with ⟨rfl | hunknown, -⟩ | ⟨hcyc, -⟩
  · exact hplain.2.1 rfl
  · obtain ⟨-, -, -, -, hm⟩ := hplain.1
    exact hunknown hm
  · exact hplain.2.2 hcyc.2.2

theorem plainCall_iff (a b : String) : PlainCall other a b ↔ PlainCall unit a b := by
  constructor
  · rintro ⟨hcall, hne, hnot⟩
    rcases h.calls_cases hcall with ⟨hcall', ha, hb, -⟩ | ⟨rfl, rfl⟩ | ⟨rfl, rfl⟩
    · exact ⟨hcall', hne, fun hr => hnot ((h.reaches_iff hb ha).mpr hr)⟩
    · exact absurd (h.back_reaches.head h.proxy_calls) hnot
    · exact absurd (h.back_reaches.tail h.calls_proxy) hnot
  · intro hplain
    obtain ⟨y, hy, rfl, -, hbn⟩ := hplain.1
    have ha : y.name ≠ g := fun heq => h.fresh (heq ▸ List.mem_map.mpr ⟨y, hy, rfl⟩)
    have hb : b ≠ g := fun heq => h.fresh (heq ▸ hbn)
    refine ⟨h.calls_other hplain.1 fun hxm => ?_, hplain.2.1,
      fun hr => hplain.2.2 ((h.reaches_iff hb ha).mp hr)⟩
    obtain ⟨hyx, rfl⟩ := hxm
    exact h.not_plainCall (hyx ▸ hplain)

theorem cycleCall_proxy : CycleCall other x.name g :=
  ⟨h.calls_proxy, h.x_ne, h.back_reaches.head h.proxy_calls⟩

end Calls

/-! ## The order of compilation -/

section Order

variable (h : Detour unit other x m back g)
include h

theorem names_sublist : unit.names.Sublist other.names := by
  rw [h.names_eq, h.other_names]
  exact (List.Sublist.refl _).append ((List.sublist_cons_self g _).cons_cons back)

theorem other_names_filter : other.names.filter (· ≠ g) = unit.names := by
  calc other.names.filter (· ≠ g)
      = unit.names.filter (· ≠ g) := by
        rw [h.names_eq, h.other_names]
        simp [List.filter_cons]
    _ = unit.names := List.filter_eq_self.mpr fun n hn =>
        decide_eq_true fun heq => h.fresh (heq ▸ hn)

theorem compiledBefore_other {a b : String} (ha : a ≠ g) (hb : b ≠ g) :
    CompiledBefore other a b ↔ CompiledBefore unit a b := by
  rw [compiledBefore_iff, compiledBefore_iff]
  constructor
  · intro hab
    have hfilter := hab.filter (· ≠ g)
    rw [h.other_names_filter] at hfilter
    simpa [ha, hb] using hfilter
  · exact fun hab => hab.trans h.names_sublist

theorem proxy_compiledBefore (n : String) :
    CompiledBefore other g n ↔ n ∈ h.post.map (·.name) := by
  have hpre : g ∉ h.pre.map (·.name) ∧ g ≠ back := by
    have hfresh := h.fresh
    rw [h.names_eq, List.mem_append, List.mem_cons, not_or, not_or] at hfresh
    exact ⟨hfresh.1, hfresh.2.1⟩
  rw [compiledBefore_iff, h.other_names, List.sublist_append_iff]
  constructor
  · rintro ⟨l₁, l₂, hl, hl₁, hl₂⟩
    cases l₁ with
    | cons a l₁ =>
      obtain ⟨rfl, -⟩ := List.cons.inj hl
      exact absurd (hl₁.subset List.mem_cons_self) hpre.1
    | nil =>
      rw [List.nil_append] at hl
      subst hl
      rw [List.sublist_cons_iff] at hl₂
      rcases hl₂ with hl₂ | ⟨r, hr, -⟩
      · exact List.singleton_sublist.mp (List.cons_sublist_cons.mp hl₂)
      · exact absurd (List.cons.inj hr).1 hpre.2
  · intro hn
    exact ⟨[], [g, n], rfl, List.nil_sublist _,
      ((List.singleton_sublist.mpr hn).cons_cons g).cons back⟩

variable {n : String}

theorem back_compiledBefore (hn : n ∈ h.post.map (·.name)) :
    CompiledBefore unit back n ∧ back ≠ n := by
  constructor
  · rw [compiledBefore_iff, h.names_eq]
    exact List.sublist_append_of_sublist_right ((List.singleton_sublist.mpr hn).cons_cons back)
  · rintro rfl
    have hnd : unit.names.Nodup := unit.names_nodup
    rw [h.names_eq, List.nodup_append, List.nodup_cons] at hnd
    exact hnd.2.1.1 hn

theorem mem_post (hbefore : CompiledBefore unit back n) : n ∈ h.post.map (·.name) := by
  have hnd : unit.names.Nodup := unit.names_nodup
  rw [h.names_eq, List.nodup_append] at hnd
  rw [compiledBefore_iff, h.names_eq, List.sublist_append_iff] at hbefore
  obtain ⟨l₁, l₂, hl, hl₁, hl₂⟩ := hbefore
  cases l₁ with
  | cons a l₁ =>
    obtain ⟨rfl, -⟩ := List.cons.inj hl
    exact absurd rfl (hnd.2.2 _ (hl₁.subset List.mem_cons_self) _ List.mem_cons_self)
  | nil =>
    rw [List.nil_append] at hl
    subst hl
    exact List.singleton_sublist.mp (List.cons_sublist_cons.mp hl₂)

/-- The first dependency pass changes the same functions. -/
theorem firstRehash_iff (hn : n ≠ g) : FirstRehash other n ↔ FirstRehash unit n := by
  have hplain : (∃ k, PlainCall other n k ∧ ¬ CompiledBefore other k n) ↔
      ∃ k, PlainCall unit n k ∧ ¬ CompiledBefore unit k n := by
    refine exists_congr fun k => ?_
    rw [h.plainCall_iff]
    refine and_congr_right fun hcall => not_congr (h.compiledBefore_other ?_ hn)
    obtain ⟨-, -, -, -, hk⟩ := hcall.1
    exact fun heq => h.fresh (heq ▸ hk)
  have hcycle : (∃ k, CycleCall other n k ∧ CompiledBefore other k n) ↔
      ∃ k, CycleCall unit n k ∧ CompiledBefore unit k n := by
    constructor
    · rintro ⟨k, ⟨hcall, hne, hback⟩, hbefore⟩
      rcases h.calls_cases hcall with ⟨hcall', -, hk, -⟩ | ⟨rfl, rfl⟩ | ⟨rfl, -⟩
      · exact ⟨k, ⟨hcall', hne, (h.reaches_iff hk hn).mp hback⟩,
          (h.compiledBefore_other hk hn).mp hbefore⟩
      · -- the detour stands in for the call it replaces
        obtain ⟨hbefore', hne'⟩ := h.back_compiledBefore ((h.proxy_compiledBefore _).mp hbefore)
        rcases h.back_cases with ⟨-, hself⟩ | ⟨hcyc, rfl⟩
        · exact absurd hself hne'
        · exact ⟨back, hcyc, hbefore'⟩
      · exact absurd rfl hn
    · rintro ⟨k, hcyc, hbefore⟩
      obtain ⟨-, -, -, -, hkn⟩ := hcyc.1
      have hk : k ≠ g := fun heq => h.fresh (heq ▸ hkn)
      by_cases hxm : n = x.name ∧ k = m
      · obtain ⟨rfl, rfl⟩ := hxm
        rcases h.back_cases with ⟨rfl | hunknown, -⟩ | ⟨-, rfl⟩
        · exact absurd rfl hcyc.2.1
        · exact absurd hkn hunknown
        · exact ⟨g, h.cycleCall_proxy, (h.proxy_compiledBefore _).mpr (h.mem_post hbefore)⟩
      · exact ⟨k, ⟨h.calls_other hcyc.1 hxm, hcyc.2.1, (h.reaches_iff hk hn).mpr hcyc.2.2⟩,
          (h.compiledBefore_other hk hn).mpr hbefore⟩
  exact or_congr hplain hcycle

end Order

/-! ## Waves -/

/-- Two waves that agree on every function but `g`. -/
def Agree (g : String) (w w' : Wave) : Prop :=
  ∀ n ≠ g, (w'.rehashed n ↔ w.rehashed n) ∧ w'.permissions n = w.permissions n

section Waves

variable (h : Detour unit other x m back g)
include h

variable {w w' : Wave}

theorem agree_depPass (hw : Agree g w w') :
    Agree g (w.depPass unit) (w'.depPass other) := by
  refine fun n hn => ⟨exists_congr fun k => ?_, (hw n hn).2⟩
  rw [h.plainCall_iff]
  refine and_congr_right fun hcall => (hw k ?_).1
  obtain ⟨-, -, -, -, hk⟩ := hcall.1
  exact fun heq => h.fresh (heq ▸ hk)

theorem agree_permPass (hw : Agree g w w') :
    Agree g (w.permPass unit) (w'.permPass other) := by
  have harrived : ∀ n ≠ g, w'.arrived other n = w.arrived unit n := by
    intro n hn
    refine Set.ext fun p => or_congr (by rw [(hw n hn).2]) (exists_congr fun k => ?_)
    rw [h.plainCall_iff]
    refine and_congr_right fun hcall => ?_
    obtain ⟨-, -, -, -, hk⟩ := hcall.1
    have hkg : k ≠ g := fun heq => h.fresh (heq ▸ hk)
    rw [(hw k hkg).1, (hw k hkg).2]
  refine fun n hn => ⟨?_, harrived n hn⟩
  show w'.rehashed n ∨ w'.arrived other n ≠ w'.permissions n ↔
    w.rehashed n ∨ w.arrived unit n ≠ w.permissions n
  rw [(hw n hn).1, harrived n hn, (hw n hn).2]

theorem agree_first : Agree g (Wave.first unit) (Wave.first other) := by
  refine fun n hn => ⟨h.firstRehash_iff hn, Set.ext fun p => ?_⟩
  constructor
  · rintro ⟨y, hy, rfl, hp⟩
    rcases (h.mem_other_builders y).mp hy with ⟨z, hz, rfl⟩ | rfl
    · exact ⟨z, hz, (z.rename_name ..).symm, z.rename_requiredPermissions .. ▸ hp⟩
    · exact absurd rfl hn
  · rintro ⟨z, hz, rfl, hp⟩
    exact ⟨_, (h.mem_other_builders _).mpr (Or.inl ⟨z, hz, rfl⟩), z.rename_name ..,
      (z.rename_requiredPermissions ..).symm ▸ hp⟩

omit h in
theorem agree_iterate {f f' : Wave → Wave} (hf : ∀ {w w'}, Agree g w w' → Agree g (f w) (f' w'))
    (hw : Agree g w w') (k : Nat) : Agree g (f^[k] w) (f'^[k] w') := by
  induction k with
  | zero => exact hw
  | succ k ih =>
    rw [Function.iterate_succ_apply', Function.iterate_succ_apply']
    exact hf ih

theorem agree_last : Agree g (Wave.last unit) (Wave.last other) := by
  refine agree_iterate (fun hw => ?_) (h.agree_permPass (agree_iterate h.agree_depPass h.agree_first 9)) 9
  exact h.agree_permPass (agree_iterate h.agree_depPass hw maxIterations)

theorem hashesSettle_iff : HashesSettle other ↔ HashesSettle unit := by
  refine forall₂_congr fun n k => ?_
  rw [h.plainCall_iff]
  refine forall_congr' fun hcall => not_congr (h.agree_last k ?_).1
  obtain ⟨-, -, -, -, hk⟩ := hcall.1
  exact fun heq => h.fresh (heq ▸ hk)

end Waves

end Detour

/-! ## Hashes -/

section Hashes

variable [DecidableEq η] {H : Sha256 β η} {unit other : Compilation β}

/-- Once the hashes settle, a pointer is decided by its call. -/
theorem Tracks.pointer_cases {cyclic : List (String × String)} {st : LinkState β η} {w : Wave}
    (h : Tracks H unit cyclic st w) (hcyc : ∀ a b, (a, b) ∈ cyclic ↔ CycleCall unit a b)
    (hsettle : ∀ n m, PlainCall unit n m → ¬ w.rehashed m) {n m : String} {b : FunctionBlob β η}
    (hb : st.blob? n = some b) {i : Nat} {d : η} (hm : b.calleeNames[i]? = some m)
    (hd : b.dependencies[i]? = some d) :
    (PlainCall unit n m ∧ ∃ c, st.blob? m = some c ∧ d = c.contentHash) ∨
      (¬ PlainCall unit n m ∧ d = H.zero) := by
  by_cases hcall : PlainCall unit n m
  · obtain ⟨-, -, -, -, hmn⟩ := hcall.1
    obtain ⟨c, hc⟩ := h.linked.exists_blob hmn
    exact Or.inl ⟨hcall, c, hc, (h.good_iff n b i m d c ⟨hb, hc, hcall, hm, hd⟩).mpr (hsettle n m hcall)⟩
  · refine Or.inr ⟨hcall, ?_⟩
    by_contra hne
    obtain ⟨m', c, hp⟩ := h.pointsTo_of_ne_zero hcyc hb hd hne
    obtain rfl : m' = m := Option.some.inj (hp.name.symm.trans hm)
    exact hcall hp.call

namespace Detour

variable {x : FunctionBlobBuilder β} {m back g : String}

theorem calleeNames_eq (h : Detour unit other x m back g) {n : String} {b b' : FunctionBlob β η}
    (hn : n ∈ unit.names) (hb : (buildContentAddressedProgram H unit).blob? n = some b)
    (hb' : (buildContentAddressedProgram H other).blob? n = some b') :
    b'.body = b.body ∧ b'.calleeNames
      = b.calleeNames.map fun c => if n = x.name ∧ c = m then g else c := by
  obtain ⟨y, hy, rfl, hbody, hcallees⟩ := build_fromBuilder H unit n b hb
  obtain ⟨y', hy', hname, hbody', hcallees'⟩ := build_fromBuilder H other _ b' hb'
  rcases (h.mem_other_builders y').mp hy' with ⟨z, hz, rfl⟩ | rfl
  · rw [FunctionBlobBuilder.rename_name] at hname
    obtain rfl : z = y := unit.builder_unique hz hy hname
    refine ⟨by rw [hbody, hbody', FunctionBlobBuilder.rename_body], ?_⟩
    rw [hcallees, hcallees', FunctionBlobBuilder.rename]
    by_cases hzx : z.name = x.name
    · simp [hzx]
    · simp [hzx]
  · exact absurd hn (by rw [← hname]; exact h.fresh)

/-- **The hashes do not see the detour.** -/
theorem contentHash_eq (h : Detour unit other x m back g) (hsettle : HashesSettle unit) {n : String}
    (hn : n ∈ unit.names) {b b' : FunctionBlob β η}
    (hb : (buildContentAddressedProgram H unit).blob? n = some b)
    (hb' : (buildContentAddressedProgram H other).blob? n = some b') :
    b'.contentHash = b.contentHash := by
  -- by the number of functions below along plain calls
  induction hrank : plainRank unit n using Nat.strong_induction_on generalizing n b b' with
  | _ r ih =>
    subst hrank
    have ht := build_tracks H unit
    have ht' := build_tracks H other
    obtain ⟨hfin, hname⟩ := ht.linked.coherent.blob?_finalized hb
    obtain ⟨hfin', hname'⟩ := ht'.linked.coherent.blob?_finalized hb'
    obtain ⟨hbody, hcallees⟩ := h.calleeNames_eq hn hb hb'
    have hng : n ≠ g := fun heq => h.fresh (heq ▸ hn)
    have hperms : b'.requiredPermissions = b.requiredPermissions := by
      refine Finset.ext fun p => ?_
      rw [ht.permissions n b hb, ht'.permissions n b' hb', (h.agree_last n hng).2]
    have hdeps : b'.dependencies = b.dependencies := by
      have hlen : b'.dependencies.length = b.dependencies.length := by
        rw [(ht.linked.ok n b hb).aligned, (ht'.linked.ok n b' hb').aligned, hcallees,
          List.length_map]
      refine List.ext_getElem hlen fun i hi' hi => ?_
      have hic : i < b.calleeNames.length := (ht.linked.ok n b hb).aligned ▸ hi
      have hcallee := List.getElem?_eq_getElem hic
      generalize b.calleeNames[i] = c at hcallee
      have hcallee' : b'.calleeNames[i]? = some (if n = x.name ∧ c = m then g else c) := by
        rw [hcallees, List.getElem?_map, hcallee]
        rfl
      have hcases := ht.pointer_cases (compileBlobs_linked H unit).mem_mutualEdges hsettle hb hcallee
        (List.getElem?_eq_getElem hi)
      have hcases' := ht'.pointer_cases (compileBlobs_linked H other).mem_mutualEdges
        (h.hashesSettle_iff.mpr hsettle) hb' hcallee' (List.getElem?_eq_getElem hi')
      rw [h.plainCall_iff] at hcases'
      rcases hcases with ⟨hcall, k, hk, hd⟩ | ⟨hncall, hd⟩
      · -- a plain callee keeps its name and, below, its hash
        have hxm : ¬ (n = x.name ∧ c = m) := by
          rintro ⟨rfl, rfl⟩
          exact h.not_plainCall hcall
        rw [if_neg hxm] at hcases'
        rcases hcases' with ⟨-, k', hk', hd'⟩ | ⟨hncall, -⟩
        · obtain ⟨-, -, -, -, hcn⟩ := hcall.1
          rw [hd, hd', ih _ (plainRank_lt hcall) hcn hk hk' rfl]
        · exact absurd hcall hncall
      · rcases hcases' with ⟨hcall, -⟩ | ⟨-, hd'⟩
        · split at hcall
          · obtain ⟨-, -, -, -, hgn⟩ := hcall.1
            exact absurd hgn h.fresh
          · exact absurd hcall hncall
        · rw [hd, hd']
    rw [hfin, hfin', FunctionBlob.computeHash, FunctionBlob.computeHash, hname, hname', hbody, hperms,
      hdeps]

end Detour

end Hashes

/-! ## Linked programs -/

/-- The content hash of the function that the `k`-th instruction of a function calls. -/
def LinkedProgram.calleeHash (lp : LinkedProgram κ η) (f : LinkedFunction η) (k : Nat) : Option η :=
  if k < f.bodyLength then
    lp.instructions[f.entryPoint + k]?.bind fun instr =>
      instr.callee.bind fun fid => lp.functions[fid.toNat]?.map (·.blobHash)
  else none

section Link

variable [DecidableEq η]

/-- A finished program of the compiler and its linked form. Function ids fit in sixteen bits. -/
structure Produced (H : Sha256 (Body κ) η) (unit : Compilation (Body κ)) (program : Program κ η)
    (lp : LinkedProgram κ η) : Prop where
  store : program.functionStore = (buildContentAddressedProgram H unit).functionStore
  entry : (buildContentAddressedProgram H unit).blobNameToHash "__main__" = some program.entry
  links : link H.zero program = .ok lp
  fits : unit.names.length ≤ 65536

/-- What linking has made of the program. -/
structure Layout (H : Sha256 (Body κ) η) (unit : Compilation (Body κ)) (program : Program κ η)
    (lp : LinkedProgram κ η) (blobs : List (Blob κ η)) : Prop where
  sorted : SortedBlobs H.zero (buildContentAddressedProgram H unit).functionStore blobs
  linkable : Linkable program blobs
  linked : IsLinked H.zero program blobs lp

variable {H : Sha256 (Body κ) η} {unit other : Compilation (Body κ)} {program : Program κ η}
  {lp : LinkedProgram κ η} {blobs : List (Blob κ η)}

/-- The blobs that a program of the compiler is linked from, and the sort they come from. -/
theorem exists_layout
    (hstore : program.functionStore = (buildContentAddressedProgram H unit).functionStore)
    (hlink : link H.zero program = .ok lp) :
    ∃ blobs, Layout H unit program lp blobs ∧
      topoSort H.zero program.functionStore program.entry = .ok (blobs.map (·.contentHash)) := by
  unfold link at hlink
  obtain ⟨blobs, hblobs, hlp⟩ := Fallible.bind_eq_ok.mp hlink
  obtain ⟨hlinkable, hlinked⟩ := linkBlobs_ok hlp
  have hkeyed : WellKeyed program.functionStore := by
    rw [hstore]
    exact (build_linked H unit).coherent.wellKeyed
  refine ⟨blobs, ⟨?_, hlinkable, hlinked⟩, topoSort_of_sortedBlobs hkeyed hblobs⟩
  rw [← hstore]
  exact sortedBlobs_spec hkeyed hblobs

theorem Produced.exists_layout (h : Produced H unit program lp) :
    ∃ blobs, Layout H unit program lp blobs := by
  obtain ⟨blobs, hlay, -⟩ := Bytecode.exists_layout h.store h.links
  exact ⟨blobs, hlay⟩

/-- A program that links has no dangling pointers. -/
theorem Layout.hashesSettle (h : Layout H unit program lp blobs) : HashesSettle unit := by
  have hlinked := build_linked H unit
  refine (pointersGood_iff H unit).mp fun e he i d hd hne => ?_
  have hkey := hlinked.coherent.keyed e he
  have hmem : e.2 ∈ blobs := (h.sorted.mem_iff e.2).mpr (hkey ▸ he)
  obtain ⟨c, hc, rfl, -⟩ := h.sorted.dependency e.2 hmem d (List.mem_of_getElem? hd) hne
  have hcb := (h.sorted.blob? c).mp hc
  refine ⟨c, (h.sorted.mem_iff c).mp hc, ?_⟩
  obtain ⟨callee, hcallee, rfl⟩ := (hlinked.ok _ _ ((h.sorted.blob? e.2).mp hmem)).callee_of_digest hd
    (hlinked.coherent.blob?_finalized hcb).1
  exact hcallee

variable {zero : η}

theorem IsLinked.functions_hash (h : IsLinked zero program blobs lp) (i : Nat) :
    lp.functions[i]?.map (·.blobHash) = blobs[i]?.map (·.contentHash) := by
  rw [h.functions, List.getElem?_map, Option.map_map]
  conv => rhs; rw [← placedBlobs_map_blob blobs, List.getElem?_map, Option.map_map]
  rfl

variable {placed : (Blob κ η × BlobOffsets) × Nat}

/-- The callee of an instruction, by the reference it makes. -/
theorem IsLinked.calleeHash_eq (h : IsLinked zero program blobs lp)
    (hplaced : placed ∈ placedBlobs blobs) (k : Nat) :
    lp.calleeHash (linkedFunction placed.1.1 placed.1.2) k
      = (placed.1.1.body.instructions[k]?.bind Instruction.callee).bind fun idx =>
          blobs[(reference zero blobs placed idx).toNat]?.map (·.contentHash) := by
  show (if k < placed.1.1.body.instructions.length then _ else none) = _
  split
  · rename_i hk
    obtain ⟨r, hr, hremap⟩ := h.getElem?_instructions hplaced (List.getElem?_eq_getElem hk)
    show (lp.instructions[placed.1.2.instructionBase + k]?.bind _) = _
    rw [hr, List.getElem?_eq_getElem hk, Option.bind_some, Option.bind_some,
      remapInstruction_callee hremap]
    cases placed.1.1.body.instructions[k].callee with
    | none => rfl
    | some idx => exact h.functions_hash _
  · rename_i hk
    rw [List.getElem?_eq_none (Nat.not_lt.mp hk)]
    rfl

theorem index_fits {j : Nat} (hj : j < 65536) : (UInt16.ofNat j).toNat = j := by
  rw [UInt16.toNat_ofNat']
  exact Nat.mod_eq_of_lt hj

/-- A pointer becomes the position of the blob with that hash. -/
theorem SortedBlobs.reference_eq {store : FunctionStore (Body κ) η} (h : SortedBlobs zero store blobs)
    {idx : UInt16} {j : Nat} {c : Blob κ η} (hj : blobs[j]? = some c)
    (hd : placed.1.1.dependencies[idx.toNat]? = some c.contentHash) (hne : c.contentHash ≠ zero) :
    reference zero blobs placed idx = .ofNat j := by
  have hindex := (indexBy_eq_some h.hashes_nodup).mpr ⟨c, hj, rfl⟩
  unfold reference remapFid
  simp only [hd, if_neg hne, hindex, Option.getD_some]

/-- A pointer leads to the function with that hash. -/
theorem SortedBlobs.reference_of_ne_zero {store : FunctionStore (Body κ) η}
    (h : SortedBlobs zero store blobs) (hfits : blobs.length ≤ 65536)
    (hplaced : placed ∈ placedBlobs blobs) {idx : UInt16} {d : η}
    (hd : placed.1.1.dependencies[idx.toNat]? = some d) (hne : d ≠ zero) :
    blobs[(reference zero blobs placed idx).toNat]?.map (·.contentHash) = some d := by
  obtain ⟨c, hc, rfl, -⟩ := h.dependency _
    (List.mem_of_getElem? (getElem?_of_mem_placedBlobs hplaced)) d (List.mem_of_getElem? hd) hne
  obtain ⟨j, hj⟩ := List.mem_iff_getElem?.mp hc
  have hlt := (List.getElem?_eq_some_iff.mp hj).1
  rw [h.reference_eq hj hd hne, index_fits (hlt.trans_le hfits), hj, Option.map_some]

theorem Produced.blobs_fit (hp : Produced H unit program lp) (h : Layout H unit program lp blobs) :
    blobs.length ≤ 65536 := by
  rw [h.sorted.length_eq]
  exact hp.fits

/-! ## The program with the detour -/

/-- The pools of the blobs together are those of the functions. -/
theorem SortedBlobs.sum_eq
    (h : SortedBlobs H.zero (buildContentAddressedProgram H unit).functionStore blobs)
    (f : String → Body κ → Nat) : (blobs.map fun b => f b.name b.body).sum
      = (unit.builders.map fun y => f y.name y.body).sum := by
  have hblobs : (blobs.map fun b => f b.name b.body) = (blobs.map (·.name)).map fun n =>
      (((buildContentAddressedProgram H unit).blob? n).map fun b => f n b.body).getD 0 := by
    rw [List.map_map]
    refine List.map_congr_left fun b hb => ?_
    rw [Function.comp_apply, (h.blob? b).mp hb]
    rfl
  have hbuilders : (unit.builders.map fun y => f y.name y.body) = unit.names.map fun n =>
      (((buildContentAddressedProgram H unit).blob? n).map fun b => f n b.body).getD 0 := by
    rw [Compilation.names, List.map_map]
    refine List.map_congr_left fun y hy => ?_
    obtain ⟨b, hb⟩ := (build_linked H unit).exists_blob (List.mem_map.mpr ⟨y, hy, rfl⟩)
    obtain ⟨z, hz, hname, hbody, -⟩ := build_fromBuilder H unit _ b hb
    obtain rfl : z = y := unit.builder_unique hz hy hname
    rw [Function.comp_apply, hb, Option.map_some, Option.getD_some, hbody]
  rw [hblobs, hbuilders]
  exact (h.names_perm.map _).sum_eq

theorem Layout.exists_blob (h : Layout H unit program lp blobs) {y : FunctionBlobBuilder (Body κ)}
    (hy : y ∈ unit.builders) : ∃ b ∈ blobs, b.name = y.name ∧ b.body = y.body ∧
      b.calleeNames = y.calledFunctions := by
  obtain ⟨i, b, -, hb, hname⟩ := h.sorted.exists_index (List.mem_map.mpr ⟨y, hy, rfl⟩)
  have hmem := List.mem_of_getElem? hb
  obtain ⟨z, hz, hzn, hbody, hcallees⟩ := build_fromBuilder H unit _ b ((h.sorted.blob? b).mp hmem)
  obtain rfl : z = y := unit.builder_unique hz hy (hzn.trans hname)
  exact ⟨b, hmem, hname, hbody, hcallees⟩

theorem Detour.exists_produced {x : FunctionBlobBuilder (Body κ)} {m back g : String}
    (h : Detour unit other x m back g) (hbody : h.body = emptyBody κ) (hp : Produced H unit program lp)
    (hfits : unit.names.length < 65536) : ∃ program' lp', Produced H other program' lp' := by
  obtain ⟨blobs, hlay⟩ := hp.exists_layout
  have hsettle := hlay.hashesSettle
  have hlinked := build_linked H unit
  have hlinked' := build_linked H other
  -- the entry keeps its hash
  obtain ⟨b, hb, hbentry⟩ : ∃ b, (buildContentAddressedProgram H unit).blob? "__main__" = some b ∧
      b.contentHash = program.entry := by
    have hentry := hp.entry
    rw [hlinked.coherent.blobNameToHash_eq] at hentry
    exact Option.map_eq_some_iff.mp hentry
  have hmain : "__main__" ∈ unit.names := (hlinked.isSome_iff _).mp (by rw [hb]; rfl)
  obtain ⟨b', hb'⟩ := hlinked'.exists_blob ((h.mem_other_names _).mpr (Or.inl hmain))
  have hentry' : (buildContentAddressedProgram H other).blobNameToHash "__main__"
      = some program.entry := by
    rw [hlinked'.coherent.blobNameToHash_eq, hb', Option.map_some,
      h.contentHash_eq hsettle hmain hb hb', hbentry]
  -- the sort succeeds
  let program' : Program κ η :=
    { program with functionStore := (buildContentAddressedProgram H other).functionStore }
  obtain ⟨order, horder⟩ := topoSort_of_pointersGood H other
    ((pointersGood_iff H other).mpr (h.hashesSettle_iff.mpr hsettle)) hentry'
  obtain ⟨blobs', hblobs'⟩ : ∃ blobs', sortedBlobs H.zero program' = .ok blobs' :=
    sortedBlobs_ok_of_topoSort horder
  have hsorted' : SortedBlobs H.zero program'.functionStore blobs' :=
    sortedBlobs_spec hlinked'.coherent.wellKeyed hblobs'
  replace hsorted' : SortedBlobs H.zero (buildContentAddressedProgram H other).functionStore blobs' :=
    hsorted'
  -- the new function adds nothing to the pools
  have hsum : ∀ f : Body κ → Nat, f (emptyBody κ) = 0 →
      (blobs'.map fun b => f b.body).sum = (blobs.map fun b => f b.body).sum := by
    intro f hf
    rw [hsorted'.sum_eq fun _ => f, hlay.sorted.sum_eq fun _ => f, h.builders, h.split]
    simp [Function.comp_def, hbody, hf]
  have hsource : ∀ b ∈ blobs', b.body = emptyBody κ ∨ ∃ c ∈ blobs, c.name = b.name ∧ c.body = b.body := by
    intro b hb
    obtain ⟨y, hy, hyn, hyb, -⟩ := build_fromBuilder H other _ b ((hsorted'.blob? b).mp hb)
    rcases (h.mem_other_builders y).mp hy with ⟨z, hz, rfl⟩ | rfl
    · obtain ⟨c, hc, hcn, hcb, -⟩ := hlay.exists_blob hz
      refine Or.inr ⟨c, hc, hcn.trans ?_, hcb.trans ?_⟩
      · rw [← hyn, FunctionBlobBuilder.rename_name]
      · rw [hyb, FunctionBlobBuilder.rename_body]
    · exact Or.inl (hyb.trans hbody)
  have hlinkable : Linkable program' blobs' := by
    refine ⟨?_, ?_, fun b hb => ?_, fun b hb => ?_⟩
    · rw [hsum (·.constants.length) rfl]
      exact hlay.linkable.constants
    · rw [hsum (·.strings.length) rfl]
      exact hlay.linkable.strings
    · rcases hsource b hb with hempty | ⟨c, hc, hcn, hcb⟩
      · exact Or.inr (Or.inl (by rw [hempty]; rfl))
      · have hok := hlay.linkable.layouts c hc
        unfold LayoutOk at hok ⊢
        rw [← hcn, ← hcb]
        exact hok
    · rcases hsource b hb with hempty | ⟨c, hc, -, hcb⟩
      · rw [hempty]
        exact fun instr hinstr => absurd hinstr List.not_mem_nil
      · rw [← hcb]
        exact hlay.linkable.foreign c hc
  obtain ⟨lp', hlp'⟩ := exists_linkBlobs H.zero hlinkable
  refine ⟨program', lp', rfl, hentry', ?_, ?_⟩
  · unfold link
    rw [hblobs']
    exact hlp'
  · have hlen : other.names.length = unit.names.length + 1 := by
      rw [h.names_eq, h.other_names]
      simp only [List.length_append, List.length_cons]
      omega
    omega

/-- A callee of `x` that is not a plain one can be given a detour. -/
theorem exists_detour {x : FunctionBlobBuilder β} {unit : Compilation β} (hx : x ∈ unit.builders)
    {m : String} (hm : m ∈ x.calledFunctions) (hplain : ¬ PlainCall unit x.name m) (body : β) :
    ∃ (other : Compilation β) (back g : String) (h : Detour unit other x m back g), h.body = body := by
  -- what the new function calls back
  obtain ⟨back, hback, hcases⟩ : ∃ back ∈ unit.names,
      ((m = x.name ∨ m ∉ unit.names) ∧ back = x.name) ∨ (CycleCall unit x.name m ∧ back = m) := by
    have hxn : x.name ∈ unit.names := List.mem_map.mpr ⟨x, hx, rfl⟩
    by_cases hself : m = x.name
    · exact ⟨x.name, hxn, Or.inl ⟨Or.inl hself, rfl⟩⟩
    by_cases hmn : m ∈ unit.names
    · have hcall : Calls unit x.name m := ⟨x, hx, rfl, hm, hmn⟩
      have hback : ReflTransGen (Calls unit) m x.name := by
        by_contra hnot
        exact hplain ⟨hcall, Ne.symm hself, hnot⟩
      exact ⟨m, hmn, Or.inr ⟨⟨hcall, Ne.symm hself, hback⟩, rfl⟩⟩
    · exact ⟨x.name, hxn, Or.inl ⟨Or.inr hmn, rfl⟩⟩
  obtain ⟨g, hg⟩ := Infinite.exists_notMem_finset
    (unit.names ++ unit.builders.flatMap (·.calledFunctions)).toFinset
  rw [List.mem_toFinset, List.mem_append, not_or] at hg
  obtain ⟨at', hat, hatn⟩ := List.mem_map.mp hback
  obtain ⟨pre, post, hsplit⟩ := List.append_of_mem hat
  have hnames : unit.names = pre.map (·.name) ++ back :: post.map (·.name) := by
    rw [Compilation.names, hsplit, List.map_append, List.map_cons, hatn]
  have hnodup : ((pre.map (FunctionBlobBuilder.rename x.name m g) ++ at'.rename x.name m g ::
      ⟨g, [back], ∅, body⟩ :: post.map (FunctionBlobBuilder.rename x.name m g)).map (·.name)).Nodup := by
    have hnd : unit.names.Nodup := unit.names_nodup
    have hfresh := hg.1
    rw [List.map_append, List.map_cons, List.map_cons, FunctionBlobBuilder.map_rename_names,
      FunctionBlobBuilder.map_rename_names, FunctionBlobBuilder.rename_name, hatn]
    have hperm : (pre.map (·.name) ++ back :: g :: post.map (·.name)).Perm (g :: unit.names) := by
      rw [hnames]
      exact ((List.Perm.swap g back _).append_left _).trans List.perm_middle
    exact hperm.nodup_iff.mpr (List.nodup_cons.mpr ⟨hfresh, hnd⟩)
  refine ⟨⟨_, hnodup⟩, back, g, ⟨pre, post, at', body, hsplit, rfl, hatn, hx, hm, hcases, hg.1,
    fun y hy hgy => hg.2 (List.mem_flatMap.mpr ⟨y, hy, hgy⟩)⟩, rfl⟩

/-! ## What a hash determines -/

/-- The function operands of `x` refer to its callees. -/
def ReferencesInRange (x : FunctionBlobBuilder (Body κ)) : Prop :=
  ∀ instr ∈ x.body.instructions, ∀ idx, instr.callee = some idx →
    idx.toNat < x.calledFunctions.length

/-- Every function operand of `x` leads to another function, and not along a call cycle. -/
def PlainReferences (unit : Compilation (Body κ)) (x : FunctionBlobBuilder (Body κ)) : Prop :=
  ∀ instr ∈ x.body.instructions, ∀ idx, instr.callee = some idx → ∀ callee,
    x.calledFunctions[idx.toNat]? = some callee → PlainCall unit x.name callee

/-- A function with the hash of `f`, in whatever program, calls functions with the same hashes. -/
def HashDetermines (H : Sha256 (Body κ) η) (lp : LinkedProgram κ η) (f : LinkedFunction η) : Prop :=
  ∀ unit' program' lp', Produced H unit' program' lp' → ∀ f' ∈ lp'.functions,
    f'.blobHash = f.blobHash → ∀ k, lp'.calleeHash f' k = lp.calleeHash f k

variable {f : LinkedFunction η}

theorem Layout.exists_placed (h : Layout H unit program lp blobs) (hf : f ∈ lp.functions) :
    ∃ placed ∈ placedBlobs blobs,
      linkedFunction placed.1.1 placed.1.2 = f ∧
        (buildContentAddressedProgram H unit).blob? placed.1.1.name = some placed.1.1 := by
  rw [h.linked.functions] at hf
  obtain ⟨placed, hplaced, hfp⟩ := List.mem_map.mp hf
  exact ⟨placed, hplaced, hfp, (h.sorted.blob? _).mp
    (List.mem_of_getElem? (getElem?_of_mem_placedBlobs hplaced))⟩

theorem hashDetermines_of_plain (hp : Produced H unit program lp) {x : FunctionBlobBuilder (Body κ)}
    (hx : x ∈ unit.builders) (hrange : ReferencesInRange x) (hf : f ∈ lp.functions)
    (hname : f.name = x.name) (hplain : PlainReferences unit x) :
    HashDetermines H lp f := by
  intro unit' program' lp' hp' f' hf' hhash k
  obtain ⟨blobs, hlay⟩ := hp.exists_layout
  obtain ⟨blobs', hlay'⟩ := hp'.exists_layout
  obtain ⟨placed, hplaced, rfl, hb⟩ := hlay.exists_placed hf
  obtain ⟨placed', hplaced', rfl, hb'⟩ := hlay'.exists_placed hf'
  have ht := build_tracks H unit
  -- equal hashes, equal contents
  have hfin := (ht.linked.coherent.blob?_finalized hb).1
  have hfin' := ((build_linked H unit').coherent.blob?_finalized hb').1
  have hinput := H.digest_injective (hfin'.symm.trans (hhash.trans hfin))
  have hbody : placed'.1.1.body = placed.1.1.body := congrArg FunctionBlobHashInput.body hinput
  have hdeps : placed'.1.1.dependencies = placed.1.1.dependencies :=
    congrArg FunctionBlobHashInput.dependencies hinput
  obtain ⟨y, hy, hyn, hyb, hyc⟩ := build_fromBuilder H unit _ _ hb
  obtain rfl : y = x := unit.builder_unique hy hx (hyn.trans hname)
  rw [hlay.linked.calleeHash_eq hplaced, hlay'.linked.calleeHash_eq hplaced', hbody]
  cases hk : placed.1.1.body.instructions[k]? with
  | none => rfl
  | some instr =>
    rw [Option.bind_some]
    cases hcallee : instr.callee with
    | none => rfl
    | some idx =>
      have hinstr : instr ∈ y.body.instructions := hyb ▸ List.mem_of_getElem? hk
      have hidx := hrange instr hinstr idx hcallee
      have hm : placed.1.1.calleeNames[idx.toNat]? = some y.calledFunctions[idx.toNat] := by
        rw [hyc]
        exact List.getElem?_eq_getElem hidx
      have hlt : idx.toNat < placed.1.1.dependencies.length := by
        rw [(ht.linked.ok _ _ hb).aligned, hyc]
        exact hidx
      have hd := List.getElem?_eq_getElem hlt
      have hcall := hplain instr hinstr idx hcallee _ (List.getElem?_eq_getElem hidx)
      have hne : placed.1.1.dependencies[idx.toNat] ≠ H.zero := by
        rcases ht.pointer_cases (compileBlobs_linked H unit).mem_mutualEdges hlay.hashesSettle hb hm hd
          with ⟨-, c, hc, hdc⟩ | ⟨hnot, -⟩
        · rw [hdc, (ht.linked.coherent.blob?_finalized hc).1]
          exact H.digest_ne_zero _
        · exact absurd (hyn ▸ hcall) hnot
      have hd' : placed'.1.1.dependencies[idx.toNat]? = some placed.1.1.dependencies[idx.toNat] := by
        rw [hdeps]
        exact hd
      rw [Option.bind_some, Option.bind_some, hlay.sorted.reference_of_ne_zero
        (hp.blobs_fit hlay) hplaced hd hne, hlay'.sorted.reference_of_ne_zero
        (hp'.blobs_fit hlay') hplaced' hd' hne]

/-- With the detour, the call leads to the new function. -/
theorem Detour.calleeHash_ne {x : FunctionBlobBuilder (Body κ)} {m back g : String}
    (h : Detour unit other x m back g) (hp : Produced H unit program lp) {program' : Program κ η}
    {lp' : LinkedProgram κ η} (hp' : Produced H other program' lp') (hf : f ∈ lp.functions)
    (hname : f.name = x.name) {k : Nat} {instr : Instruction} {idx : UInt16}
    (hk : x.body.instructions[k]? = some instr) (hcallee : instr.callee = some idx)
    (hm : x.calledFunctions[idx.toNat]? = some m) :
    ∃ f' ∈ lp'.functions, f'.blobHash = f.blobHash ∧ lp'.calleeHash f' k ≠ lp.calleeHash f k := by
  obtain ⟨blobs, hlay⟩ := hp.exists_layout
  obtain ⟨blobs', hlay'⟩ := hp'.exists_layout
  obtain ⟨placed, hplaced, rfl, hb⟩ := hlay.exists_placed hf
  replace hname : placed.1.1.name = x.name := hname
  have hxn : x.name ∈ unit.names := List.mem_map.mpr ⟨x, h.mem, rfl⟩
  -- `x` in the other program
  obtain ⟨b', hb'⟩ := (build_linked H other).exists_blob ((h.mem_other_names _).mpr (Or.inl hxn))
  have hb'n := ((build_linked H other).coherent.blob?_finalized hb').2
  obtain ⟨placed', hplaced', rfl⟩ := exists_placedBlobs
    ((hlay'.sorted.blob? b').mpr (hb'n.symm ▸ hb'))
  rw [hname] at hb
  have hhash := h.contentHash_eq hlay.hashesSettle hxn hb hb'
  obtain ⟨hbody, hcallees⟩ := h.calleeNames_eq hxn hb hb'
  obtain ⟨y, hy, hyn, hyb, hyc⟩ := build_fromBuilder H unit _ _ hb
  obtain rfl : y = x := unit.builder_unique hy h.mem hyn
  refine ⟨linkedFunction placed'.1.1 placed'.1.2, ?_, hhash, ?_⟩
  · rw [hlay'.linked.functions]
    exact List.mem_map.mpr ⟨placed', hplaced', rfl⟩
  rw [hlay.linked.calleeHash_eq hplaced, hlay'.linked.calleeHash_eq hplaced', hbody, hyb, hk,
    Option.bind_some, hcallee, Option.bind_some, Option.bind_some]
  -- the reference is the sentinel, and its name is the new one
  have hm' : placed'.1.1.calleeNames[idx.toNat]? = some g := by
    rw [hcallees, hyc, List.getElem?_map, hm, Option.map_some, if_pos ⟨rfl, rfl⟩]
  have ht' := build_tracks H other
  have hlt := (List.getElem?_eq_some_iff.mp hm').1
  rw [← (ht'.linked.ok _ _ hb').aligned] at hlt
  have hz : placed'.1.1.dependencies[idx.toNat]? = some H.zero := by
    rw [List.getElem?_eq_getElem hlt]
    exact congrArg some ((ht'.eq_zero_iff (compileBlobs_linked H other).mem_mutualEdges hb' hm'
      (List.getElem?_eq_getElem hlt)).mpr (Or.inr (Or.inl h.cycleCall_proxy)))
  obtain ⟨j, c, hj, hc, hcn⟩ := hlay'.sorted.exists_index ((h.mem_other_names g).mpr (Or.inr rfl))
  rw [reference_of_zero hz hm', if_pos (hb'n ▸ Ne.symm h.x_ne), hj, Option.getD_some,
    index_fits ((List.getElem?_eq_some_iff.mp hc).1.trans_le (hp'.blobs_fit hlay')), hc,
    Option.map_some]
  intro heq
  obtain ⟨a, ha, hac⟩ := Option.map_eq_some_iff.mp heq.symm
  have hablob := (hlay.sorted.blob? a).mp (List.mem_of_getElem? ha)
  have hcblob := (hlay'.sorted.blob? c).mp (List.mem_of_getElem? hc)
  have hafin := ((build_linked H unit).coherent.blob?_finalized hablob).1
  have hcfin := (ht'.linked.coherent.blob?_finalized hcblob).1
  have hsame : a.name = c.name := FunctionBlob.name_eq hafin hcfin hac
  refine h.fresh ?_
  rw [← hcn, ← hsame, ← (build_linked H unit).isSome_iff, hablob]
  rfl

/-- **A content hash determines the calls of a function that makes plain calls only**; when one more
function would still fit, of no other. -/
theorem hashDetermines_iff (H : Sha256 (Body κ) η) (unit : Compilation (Body κ))
    (program : Program κ η) (lp : LinkedProgram κ η) (hp : Produced H unit program lp)
    (x : FunctionBlobBuilder (Body κ)) (hx : x ∈ unit.builders) (hrange : ReferencesInRange x)
    (f : LinkedFunction η) (hf : f ∈ lp.functions) (hname : f.name = x.name) :
    (PlainReferences unit x → HashDetermines H lp f) ∧
      (unit.names.length < 65536 → (HashDetermines H lp f ↔ PlainReferences unit x)) := by
  refine ⟨hashDetermines_of_plain hp hx hrange hf hname, fun hfits =>
    ⟨fun hdet instr hinstr idx hcallee callee hm => ?_,
      hashDetermines_of_plain hp hx hrange hf hname⟩⟩
  by_contra hplain
  obtain ⟨other, back, g, h, hbody⟩ :=
    exists_detour hx (List.mem_of_getElem? hm) hplain (emptyBody κ)
  obtain ⟨program', lp', hp'⟩ := h.exists_produced hbody hp hfits
  obtain ⟨k, hk⟩ := List.mem_iff_getElem?.mp hinstr
  obtain ⟨f', hf', hhash, hne⟩ := h.calleeHash_ne hp hp' hf hname hk hcallee hm
  exact hne (hdet other program' lp' hp' f' hf' hhash k)

end Link

/-! ## Recursion, and a detour -/

theorem produced_of_isOk (unit : Compilation (Body Unit)) (hfits : unit.names.length ≤ 65536)
    (hmain : ((buildContentAddressedProgram (contentSha256 (Body Unit)) unit).blobNameToHash
      "__main__").isSome = true) (hok : (link .zero (compiledProgram unit)).isOk = true) :
    ∃ lp, Produced (contentSha256 (Body Unit)) unit (compiledProgram unit) lp := by
  cases hlink : link .zero (compiledProgram unit) with
  | error e =>
    rw [hlink] at hok
    cases hok
  | ok lp =>
    refine ⟨lp, rfl, ?_, hlink, hfits⟩
    obtain ⟨entry, hentry⟩ := Option.isSome_iff_exists.mp hmain
    show _ = some (((buildContentAddressedProgram (contentSha256 (Body Unit)) unit).blobNameToHash
      "__main__").getD .zero)
    rw [hentry]
    rfl

theorem hashDetermines_iff_oneCallUnit :
    ∃ lp, Produced (contentSha256 (Body Unit)) oneCallUnit (compiledProgram oneCallUnit) lp ∧
      ∃ f ∈ lp.functions, f.name = "__main__" ∧
        (HashDetermines (contentSha256 (Body Unit)) lp f ↔
          PlainReferences oneCallUnit ⟨"__main__", ["a"], ∅, callBody [0]⟩) := by
  obtain ⟨lp, hp⟩ := produced_of_isOk oneCallUnit (by decide) (by decide +kernel)
    (by decide +kernel)
  obtain ⟨blobs, hlay⟩ := hp.exists_layout
  have hx : (⟨"__main__", ["a"], ∅, callBody [0]⟩ : FunctionBlobBuilder (Body Unit))
      ∈ oneCallUnit.builders := by decide
  have hrange : ReferencesInRange
      (⟨"__main__", ["a"], ∅, callBody [0]⟩ : FunctionBlobBuilder (Body Unit)) := by
    intro instr hinstr idx hidx
    obtain rfl : instr = ⟨.other 0, some (.function 0)⟩ := List.mem_singleton.mp hinstr
    obtain rfl : 0 = idx := Option.some.inj hidx
    decide
  have hnames := hlay.linked.functions_name
  have hmem : "__main__" ∈ lp.functions.map (·.name) := by
    rw [hnames]
    exact hlay.sorted.names_perm.mem_iff.mpr (by decide)
  obtain ⟨f, hf, hname⟩ := List.mem_map.mp hmem
  exact ⟨lp, hp, f, hf, hname, (hashDetermines_iff (contentSha256 (Body Unit)) oneCallUnit
    (compiledProgram oneCallUnit) lp hp _ hx hrange f hf hname).2 (by decide)⟩

/-- `f` calls itself. -/
def selfCallUnit : Compilation (Body Unit) where
  builders := [⟨"f", ["f"], ∅, callBody [0]⟩, ⟨"__main__", ["f"], ∅, callBody [0]⟩]
  names_nodup := by decide

/-- `f` calls `g`, which calls `f`. -/
def detourUnit : Compilation (Body Unit) where
  builders := [⟨"f", ["g"], ∅, callBody [0]⟩, ⟨"g", ["f"], ∅, callBody [0]⟩,
    ⟨"__main__", ["f"], ∅, callBody [0]⟩]
  names_nodup := by decide

/-- **A recursive function has the hash of one that calls another**: the target of the call is hashed
neither way. -/
theorem equal_hashes_different_callees :
    ¬ ∀ (H : Sha256 (Body Unit) (ContentDigest (Body Unit))) (unit unit' : Compilation (Body Unit))
        (program program' : Program Unit (ContentDigest (Body Unit)))
        (lp lp' : LinkedProgram Unit (ContentDigest (Body Unit))),
      Produced H unit program lp → Produced H unit' program' lp' →
        ∀ f ∈ lp.functions, ∀ f' ∈ lp'.functions, f'.blobHash = f.blobHash →
          ∀ k, lp'.calleeHash f' k = lp.calleeHash f k := by
  intro hclaim
  obtain ⟨lp, hp⟩ := produced_of_isOk selfCallUnit (by decide) (by decide +kernel)
    (by decide +kernel)
  obtain ⟨lp', hp'⟩ := produced_of_isOk detourUnit (by decide) (by decide +kernel)
    (by decide +kernel)
  -- the two programs are evaluated: one function has the same hash in both and another callee
  have hdiffer : ∀ lp ∈ (link .zero (compiledProgram selfCallUnit)).toOption,
      ∀ lp' ∈ (link .zero (compiledProgram detourUnit)).toOption,
        ∃ f ∈ lp.functions, ∃ f' ∈ lp'.functions, f'.blobHash = f.blobHash ∧
          lp'.calleeHash f' 0 ≠ lp.calleeHash f 0 := by
    decide +kernel
  have hto : ∀ {unit : Compilation (Body Unit)} {lp},
      Produced (contentSha256 (Body Unit)) unit (compiledProgram unit) lp →
      lp ∈ (link .zero (compiledProgram unit)).toOption := by
    intro unit lp hp
    show (link .zero (compiledProgram unit)).toOption = some lp
    rw [show link .zero (compiledProgram unit) = .ok lp from hp.links]
    rfl
  obtain ⟨f, hf, f', hf', hhash, hne⟩ := hdiffer lp (hto hp) lp' (hto hp')
  exact hne (hclaim _ _ _ _ _ lp lp' hp hp' f hf f' hf' hhash 0)

end ShapeLang.Bytecode
