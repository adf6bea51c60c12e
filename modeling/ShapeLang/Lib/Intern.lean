import Mathlib

/-!
# Interning with narrow indices

A pool of values and a map from keys to positions in it, where a position is stored in sixteen bits. A
key is entered once; its value is appended at the end:

  * `Pool.intern` — enter a key with its value, unless the key is there;
  * `firstUses` — keys in the order of their first occurrence;
  * `Pool.Ok` — the keys in the order they were entered, and what relates each to its value;
  * `Pool.Ok.lookup` — as long as the positions fit, the stored position of a key leads to a value that
    is related to it.
-/

namespace Intern

variable {K V : Type} [DecidableEq K]

structure Pool (K V : Type) where
  index : K → Option UInt16
  values : List V

def Pool.empty : Pool K V := ⟨fun _ => none, []⟩

/-- Enter `k` with the value `v`, at the position the pool has reached. -/
def Pool.intern (p : Pool K V) (k : K) (v : V) : Pool K V :=
  if (p.index k).isSome then p
  else ⟨Function.update p.index k (some (.ofNat p.values.length)), p.values ++ [v]⟩

/-- A pool whose keys were entered in the order `keys`, each with a value related to it by `R`. -/
structure Pool.Ok (R : K → V → Prop) (p : Pool K V) (keys : List K) : Prop where
  nodup : keys.Nodup
  related : List.Forall₂ R keys p.values
  index_eq : ∀ (i : Nat) k, keys[i]? = some k → p.index k = some (.ofNat i)
  mem_of_index : ∀ k l, p.index k = some l → k ∈ keys

/-- The keys after entering `k`. -/
def addKey (keys : List K) (k : K) : List K := if k ∈ keys then keys else keys ++ [k]

theorem mem_addKey {keys : List K} {k k' : K} : k' ∈ addKey keys k ↔ k' ∈ keys ∨ k' = k := by
  unfold addKey
  split
  · rename_i hk
    constructor
    · exact Or.inl
    · rintro (h | rfl)
      · exact h
      · exact hk
  · rw [List.mem_append, List.mem_singleton]

/-- Keys in the order in which each first occurs. -/
def firstUses (keys : List K) : List K := keys.foldl addKey []

theorem firstUses_concat (keys : List K) (k : K) :
    firstUses (keys ++ [k]) = addKey (firstUses keys) k := by
  rw [firstUses, List.foldl_append]
  rfl

theorem mem_firstUses {keys : List K} {k : K} : k ∈ firstUses keys ↔ k ∈ keys := by
  induction keys using List.reverseRecOn with
  | nil => rfl
  | append_singleton keys k' ih =>
    rw [firstUses_concat, mem_addKey, ih, List.mem_append, List.mem_singleton]

theorem firstUses_of_nodup {keys : List K} (h : keys.Nodup) : firstUses keys = keys := by
  induction keys using List.reverseRecOn with
  | nil => rfl
  | append_singleton keys k ih =>
    rw [List.nodup_append] at h
    rw [firstUses_concat, ih h.1, addKey, if_neg]
    exact fun hk => h.2.2 k hk k (List.mem_singleton_self k) rfl

namespace Pool.Ok

variable {R : K → V → Prop} {p : Pool K V} {keys : List K}

omit [DecidableEq K] in
theorem empty : Ok R (Pool.empty : Pool K V) [] :=
  ⟨List.nodup_nil, .nil, fun i k h => by simp at h, fun k l h => nomatch h⟩

omit [DecidableEq K] in
theorem index_isSome (h : Ok R p keys) {k : K} : (p.index k).isSome ↔ k ∈ keys := by
  constructor
  · intro hk
    obtain ⟨l, hl⟩ := Option.isSome_iff_exists.mp hk
    exact h.mem_of_index k l hl
  · intro hk
    obtain ⟨i, hi⟩ := List.mem_iff_getElem?.mp hk
    rw [h.index_eq i k hi]
    rfl

omit [DecidableEq K] in
/-- Keys and values may be related more loosely. -/
theorem mono {S : K → V → Prop} (h : Ok R p keys) (hRS : ∀ k v, R k v → S k v) : Ok S p keys :=
  ⟨h.nodup, h.related.imp hRS, h.index_eq, h.mem_of_index⟩

theorem intern (h : Ok R p keys) {k : K} {v : V} (hv : k ∉ keys → R k v) :
    Ok R (p.intern k v) (addKey keys k) := by
  unfold Pool.intern addKey
  by_cases hk : k ∈ keys
  · rw [if_pos (h.index_isSome.mpr hk), if_pos hk]
    exact h
  · rw [if_neg fun hsome => hk (h.index_isSome.mp hsome), if_neg hk]
    -- the new key goes behind the others, at the index that is the number of values
    have hlen : p.values.length = keys.length := h.related.length_eq.symm
    refine ⟨?_, List.rel_append h.related (.cons (hv hk) .nil), fun i k' hi => ?_, fun k' l hl => ?_⟩
    · rw [List.nodup_append]
      refine ⟨h.nodup, List.nodup_singleton k, fun a ha b hb => ?_⟩
      rw [List.mem_singleton.mp hb]
      exact fun heq => hk (heq ▸ ha)
    -- by place: the keys of before, or the new one
    · rcases Nat.lt_or_ge i keys.length with hlt | hge
      · rw [List.getElem?_append_left hlt] at hi
        have hne : k' ≠ k := fun heq => hk (heq ▸ List.mem_of_getElem? hi)
        show Function.update p.index k _ k' = _
        rw [Function.update_of_ne hne, h.index_eq i k' hi]
      · rw [List.getElem?_append_right hge] at hi
        have hi0 : i - keys.length = 0 := by
          have hlt := (List.getElem?_eq_some_iff.mp hi).1
          simp only [List.length_cons, List.length_nil] at hlt
          omega
        rw [hi0] at hi
        obtain rfl : k = k' := Option.some.inj hi
        show Function.update p.index k _ k = _
        rw [Function.update_self, hlen, show i = keys.length by omega]
    · by_cases hne : k' = k
      · rw [hne]
        exact List.mem_append_right _ List.mem_cons_self
      · have hl' : Function.update p.index k _ k' = some l := hl
        rw [Function.update_of_ne hne] at hl'
        exact List.mem_append_left _ (h.mem_of_index k' l hl')

theorem index_idxOf (h : Ok R p keys) {k : K} (hk : k ∈ keys) :
    p.index k = some (.ofNat (keys.idxOf k)) :=
  h.index_eq _ k (List.getElem?_idxOf hk)

omit [DecidableEq K] in
/-- **A key leads to its value**, as long as positions fit in sixteen bits. -/
theorem lookup (h : Ok R p keys) (hfits : keys.length ≤ 65536) {k : K} (hk : k ∈ keys) :
    ∃ l v, p.index k = some l ∧ p.values[l.toNat]? = some v ∧ R k v := by
  obtain ⟨i, hi⟩ := List.mem_iff_getElem?.mp hk
  have hlt := (List.getElem?_eq_some_iff.mp hi).1
  have hlt' : i < p.values.length := h.related.length_eq ▸ hlt
  have hto : (UInt16.ofNat i).toNat = i := by
    rw [UInt16.toNat_ofNat']
    exact Nat.mod_eq_of_lt (by omega)
  refine ⟨_, p.values[i], h.index_eq i k hi, ?_, ?_⟩
  · rw [hto]
    exact List.getElem?_eq_getElem hlt'
  · have hrel := h.related.get hlt hlt'
    have hki : keys.get ⟨i, hlt⟩ = k := (List.getElem?_eq_some_iff.mp hi).2
    rw [hki] at hrel
    exact hrel

end Pool.Ok

/-- Sixteen-bit keys always fit. -/
theorem length_le_of_nodup {keys : List UInt16} (h : keys.Nodup) : keys.length ≤ 65536 := by
  have hsub : (keys.map UInt16.toNat).Subperm (List.range 65536) := by
    refine List.Nodup.subperm (h.map fun a b hab => UInt16.toNat.inj hab) fun n hn => ?_
    obtain ⟨k, -, rfl⟩ := List.mem_map.mp hn
    exact List.mem_range.mpr k.toNat_lt
  have hlen := hsub.length_le
  rwa [List.length_map, List.length_range] at hlen

end Intern
