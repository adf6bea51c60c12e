import Mathlib

/-!
# Words joined by a separator

A list of words that do not contain the separator is determined by its join, and so is a number by its
decimal or hexadecimal rendering.
-/

namespace ShapeLang.Lib.Tokens

/-! ## Joins -/

theorem intercalate_inj {c : Char} {xs ys : List String} (hx : ∀ s ∈ xs, c ∉ s.toList)
    (hy : ∀ s ∈ ys, c ∉ s.toList) (hxs : xs ≠ []) (hys : ys ≠ [])
    (h : (String.singleton c).intercalate xs = (String.singleton c).intercalate ys) : xs = ys := by
  have hsplit := congrArg (fun s => (s.split c).toList.map (·.copy)) h
  simp only [String.toList_split_intercalate hx, String.toList_split_intercalate hy, if_neg hxs, if_neg hys]
    at hsplit
  exact hsplit

/-- A join of joins is the join of all the words. -/
theorem intercalate_intercalate {sep : String} {groups : List (List String)} (h : ∀ ws ∈ groups, ws ≠ []) :
    sep.intercalate (groups.map sep.intercalate) = sep.intercalate groups.flatten := by
  induction groups with
  | nil => rfl
  | cons ws groups ih =>
    have hws : ws ≠ [] := h ws List.mem_cons_self
    have hgroups : ∀ ws ∈ groups, ws ≠ [] := fun ws hmem => h ws (List.mem_cons_of_mem _ hmem)
    cases groups with
    | nil => rw [List.map_singleton, String.intercalate_singleton, List.flatten_singleton]
    | cons ws' groups =>
      have hne : (ws' :: groups).flatten ≠ [] := by
        rw [List.flatten_cons]
        exact List.append_ne_nil_of_left_ne_nil (hgroups ws' List.mem_cons_self) _
      have hmap : (ws' :: groups).map sep.intercalate ≠ [] := List.cons_ne_nil _ _
      have hflatten : (ws :: ws' :: groups).flatten = ws ++ (ws' :: groups).flatten := List.flatten_cons
      rw [List.map_cons, String.intercalate_cons_of_ne_nil hmap, ih hgroups, hflatten,
        String.intercalate_append_of_ne_nil hws hne]

/-! ## Renderings -/

/-- `{:x}` -/
def hex (n : Nat) : String :=
  String.ofList (Nat.toDigits 16 n)

def hexDigits : List Char :=
  ['0', '1', '2', '3', '4', '5', '6', '7', '8', '9', 'a', 'b', 'c', 'd', 'e', 'f']

theorem digitChar_mem_hexDigits {n : Nat} (h : n < 16) : n.digitChar ∈ hexDigits := by
  revert n
  decide

theorem digitChar_inj {m n : Nat} (hm : m < 16) (hn : n < 16) (h : m.digitChar = n.digitChar) : m = n := by
  have hall : ∀ m < 16, ∀ n < 16, m.digitChar = n.digitChar → m = n := by decide
  exact hall m hm n hn h

theorem mem_toDigits {n : Nat} {c : Char} (h : c ∈ Nat.toDigits 16 n) : c ∈ hexDigits := by
  induction n using Nat.strongRecOn with
  | ind n ih =>
    by_cases hn : n < 16
    · rw [Nat.toDigits_of_lt_base hn, List.mem_singleton] at h
      rw [h]
      exact digitChar_mem_hexDigits hn
    · rw [Nat.toDigits_of_base_le (by omega) (by omega), List.mem_append, List.mem_singleton] at h
      rcases h with h | rfl
      · exact ih (n / 16) (by omega) h
      · exact digitChar_mem_hexDigits (Nat.mod_lt n (by omega))

theorem toDigits_injective : ∀ {m n : Nat}, Nat.toDigits 16 m = Nat.toDigits 16 n → m = n := by
  intro m
  induction m using Nat.strongRecOn with
  | ind m ih =>
    intro n h
    by_cases hm : m < 16
    · by_cases hn : n < 16
      · rw [Nat.toDigits_of_lt_base hm, Nat.toDigits_of_lt_base hn] at h
        exact digitChar_inj hm hn (List.cons.inj h).1
      · -- one digit against at least two
        have hlen := congrArg List.length h
        have hpos : 0 < (Nat.toDigits 16 (n / 16)).length := Nat.length_toDigits_pos
        rw [Nat.toDigits_of_lt_base hm, Nat.toDigits_of_base_le (by omega) (by omega),
          List.length_append] at hlen
        simp only [List.length_singleton] at hlen
        omega
    · by_cases hn : n < 16
      · have hlen := congrArg List.length h
        have hpos : 0 < (Nat.toDigits 16 (m / 16)).length := Nat.length_toDigits_pos
        rw [Nat.toDigits_of_lt_base hn, Nat.toDigits_of_base_le (by omega) (by omega),
          List.length_append] at hlen
        simp only [List.length_singleton] at hlen
        omega
      · rw [Nat.toDigits_of_base_le (by omega) (by omega : 16 ≤ m),
          Nat.toDigits_of_base_le (by omega) (by omega : 16 ≤ n)] at h
        obtain ⟨hhigh, hlow⟩ := List.append_inj' h rfl
        have hdiv := ih (m / 16) (by omega) hhigh
        have hmod := digitChar_inj (Nat.mod_lt m (by omega)) (Nat.mod_lt n (by omega))
            (List.cons.inj hlow).1
        omega

theorem hex_injective {m n : Nat} (h : hex m = hex n) : m = n :=
  toDigits_injective (String.ofList_injective h)

theorem mem_hex {n : Nat} {c : Char} (h : c ∈ (hex n).toList) : c ∈ hexDigits := by
  rw [hex, String.toList_ofList] at h
  exact mem_toDigits h

theorem underscore_notMem_hex (n : Nat) : '_' ∉ (hex n).toList := by
  intro h
  have hdigit := mem_hex h
  revert hdigit
  decide

theorem underscore_notMem_toString (n : Nat) : '_' ∉ (toString n).toList := by
  rw [Nat.toString_eq_ofList_toDigits, String.toList_ofList]
  exact Nat.underscore_not_in_toDigits

theorem underscore_notMem_toString_int (n : Int) : '_' ∉ (toString n).toList := by
  rw [Int.toString_eq_repr, Int.repr_eq_if]
  split
  · exact underscore_notMem_toString _
  · rw [String.toList_append, List.mem_append]
    rintro (h | h)
    · revert h
      decide
    · exact underscore_notMem_toString _ h

end ShapeLang.Lib.Tokens
