import Mathlib

/-!
# Delimited encodings

Items are written one behind the other, each closed by a byte that its own bytes do not hold.
Reading up to the first delimiter then gives the item back, so the bytes determine the items. In
UTF-8 two bytes are of use for that: `0xff` occurs in no string, and `0` only in strings with a NUL.
-/

namespace ShapeLang.Lib

section

variable {α β : Type} {delimiter : α}

/-- The first delimiter is in one place only. -/
theorem append_delimiter_inj {a b x y : List α} (ha : delimiter ∉ a) (hb : delimiter ∉ b) :
    a ++ delimiter :: x = b ++ delimiter :: y ↔ a = b ∧ x = y := by
  refine ⟨fun h => ?_, fun ⟨hab, hxy⟩ => by rw [hab, hxy]⟩
  induction a generalizing b with
  | nil =>
    cases b with
    | nil => exact ⟨rfl, (List.cons.inj h).2⟩
    | cons head b => exact absurd (List.mem_cons.mpr (Or.inl (List.cons.inj h).1)) hb
  | cons head a ih =>
    cases b with
    | nil => exact absurd (List.mem_cons.mpr (Or.inl (List.cons.inj h).1.symm)) ha
    | cons head' b =>
      obtain ⟨hhead, hrest⟩ := List.cons.inj h
      have htail := ih (fun hmem => ha (List.mem_cons_of_mem _ hmem))
          (fun hmem => hb (List.mem_cons_of_mem _ hmem)) hrest
      exact ⟨by rw [hhead, htail.1], htail.2⟩

/-- Items closed by a delimiter that none of them holds are determined by their concatenation. -/
theorem flatMap_delimited_inj {body : β → List α} (valid : β → Prop) (hnot : ∀ item, delimiter ∉ body item)
    (hinj : ∀ a b, valid a → valid b → body a = body b → a = b) {xs ys : List β} (hxs : ∀ x ∈ xs, valid x)
    (hys : ∀ y ∈ ys, valid y)
    (h : (xs.flatMap fun item => body item ++ [delimiter]) = ys.flatMap fun item => body item ++
      [delimiter]) :
    xs = ys := by
  induction xs generalizing ys with
  | nil =>
    cases ys with
    | nil => rfl
    | cons y ys =>
      have hlength := congrArg List.length h
      simp at hlength
  | cons x xs ih =>
    cases ys with
    | nil =>
      have hlength := congrArg List.length h
      simp at hlength
    | cons y ys =>
      simp only [List.flatMap_cons, List.append_assoc, List.singleton_append] at h
      -- the first delimiter ends the first item on both sides
      obtain ⟨hbody, hrest⟩ := (append_delimiter_inj (hnot x) (hnot y)).mp h
      have hhead := hinj x y (hxs x List.mem_cons_self) (hys y List.mem_cons_self) hbody
      have htail := ih (fun x hmem => hxs x (List.mem_cons_of_mem _ hmem))
        (fun y hmem => hys y (List.mem_cons_of_mem _ hmem)) hrest
      rw [hhead, htail]

end

/-! ## Strings as bytes -/

/-- `as_bytes`. -/
def utf8 (text : String) : List UInt8 := text.toUTF8.data.toList

theorem utf8_eq_flatMap (text : String) : utf8 text = text.toList.flatMap String.utf8EncodeChar := by
  unfold utf8
  rw [String.toUTF8_eq_toByteArray, ← String.utf8Encode_toList]
  simp [List.utf8Encode]

theorem utf8_injective : Function.Injective utf8 := by
  intro a b h
  unfold utf8 at h
  rw [String.toUTF8_eq_toByteArray, String.toUTF8_eq_toByteArray] at h
  have hbytes : a.toByteArray = b.toByteArray := ByteArray.ext (Array.toList_inj.mp h)
  exact String.toByteArray_inj.mp hbytes

/-- A byte of a character is the character itself, below `0x80`, or one of `0x80` to `0xf7`. -/
theorem mem_utf8EncodeChar {c : Char} {byte : UInt8} (h : byte ∈ String.utf8EncodeChar c) :
    byte.toNat = c.toNat ∧ c.toNat < 0x80 ∨ 0x80 ≤ byte.toNat ∧ byte.toNat < 0xf8 := by
  have hval : c.toNat = c.val.toNat := rfl
  unfold String.utf8EncodeChar at h
  dsimp only at h
  rw [hval]
  generalize c.val.toNat = v at h
  split at h
  · rw [List.mem_singleton] at h
    rw [h, UInt8.toNat_ofNat']
    omega
  · right
    split at h
    · simp only [List.mem_cons, List.not_mem_nil, or_false] at h
      rcases h with rfl | rfl <;> rw [UInt8.toNat_ofNat'] <;> omega
    · split at h
      · simp only [List.mem_cons, List.not_mem_nil, or_false] at h
        rcases h with rfl | rfl | rfl <;> rw [UInt8.toNat_ofNat'] <;> omega
      · simp only [List.mem_cons, List.not_mem_nil, or_false] at h
        rcases h with rfl | rfl | rfl | rfl <;> rw [UInt8.toNat_ofNat'] <;> omega

theorem ff_notMem_utf8 (text : String) : (0xff : UInt8) ∉ utf8 text := by
  rw [utf8_eq_flatMap, List.mem_flatMap]
  rintro ⟨c, -, hmem⟩
  have hnat : (0xff : UInt8).toNat = 255 := rfl
  rcases mem_utf8EncodeChar hmem with h | h <;> omega

theorem zero_mem_utf8 {text : String} (h : (0 : UInt8) ∈ utf8 text) : '\x00' ∈ text.toList := by
  rw [utf8_eq_flatMap, List.mem_flatMap] at h
  obtain ⟨c, hc, hmem⟩ := h
  have hnat : (0 : UInt8).toNat = 0 := rfl
  have hzero : c.toNat = 0 := by
    rcases mem_utf8EncodeChar hmem with h | h <;> omega
  have heq : c = '\x00' := Char.toNat_inj.mp hzero
  rwa [← heq]

end ShapeLang.Lib
