import Mathlib

/-!
# Byte buffers

Little-endian fields of a fixed width, writing into a zeroed buffer and slicing one. A write outside the
buffer and a slice outside the data answer `none`.

A buffer that is written from front to back is at every moment `written ++ zeros rest`, and
`overwrite_zeros` says what the next write does to it; `overwriteAll_zeros` is the run.
-/

namespace ShapeLang.Lib

abbrev Bytes := List UInt8

namespace Bytes

/-! ## Little-endian fields -/

/-- The low `width` bytes of `n`, least significant first. -/
def le : (width n : Nat) → Bytes
  | 0, _ => []
  | width + 1, n => UInt8.ofNat n :: le width (n / 256)

def ofLe (bytes : Bytes) : Nat :=
  bytes.foldr (fun b n => b.toNat + 256 * n) 0

variable (n : Nat)

@[simp] theorem length_le (width n : Nat) : (le width n).length = width := by
  induction width generalizing n with
  | zero => rfl
  | succ width ih => rw [le, List.length_cons, ih]

theorem ofLe_le (width n : Nat) : ofLe (le width n) = n % 256 ^ width := by
  induction width generalizing n with
  | zero => rw [pow_zero, Nat.mod_one]; rfl
  | succ width ih =>
    have hbyte : (UInt8.ofNat n).toNat = n % 256 := UInt8.toNat_ofNat'
    show (UInt8.ofNat n).toNat + 256 * ofLe (le width (n / 256)) = _
    rw [ih, hbyte, pow_succ', Nat.mod_mul]

/-- The number in the `width` bytes at `start`. -/
def field (bytes : Bytes) (start width : Nat) : Nat :=
  ofLe ((bytes.drop start).take width)

theorem field_lt (data : Bytes) (start width : Nat) : field data start width < 256 ^ width := by
  have hofLe : ∀ bytes : Bytes, ofLe bytes < 256 ^ bytes.length := by
    intro bytes
    induction bytes with
    | nil => decide
    | cons byte bytes ih =>
      show byte.toNat + 256 * ofLe bytes < 256 ^ (bytes.length + 1)
      have hbyte := byte.toNat_lt
      rw [pow_succ]
      omega
  have hlength : ((data.drop start).take width).length ≤ width := List.length_take_le _ _
  exact lt_of_lt_of_le (hofLe _) (Nat.pow_le_pow_right (by decide) hlength)

theorem field_le (width n : Nat) (rest : Bytes) :
    field (le width n ++ rest) 0 width = n % 256 ^ width := by
  rw [field, List.drop_zero, List.take_left' (length_le width n), ofLe_le]

-- Packed structs are read from the front: a field that starts behind the first one.
variable {width start : Nat}

theorem field_skip (h : width ≤ start) (n : Nat) (rest : Bytes) (width' : Nat) :
    field (le width n ++ rest) start width' = field rest (start - width) width' := by
  rw [field, List.drop_append, List.drop_eq_nil_of_le (by rw [length_le]; exact h), length_le,
    List.nil_append, field]

theorem field_drop (data : Bytes) (start skip width : Nat) :
    field data (start + skip) width = field (data.drop start) skip width := by
  unfold field
  rw [List.drop_drop]

variable {size : Nat}

theorem field_take {data : Bytes} (h : start + width ≤ size) :
    field (data.take size) start width = field data start width := by
  rw [field, List.drop_take, List.take_take, Nat.min_eq_left (by omega), field]

theorem field_append {front : Bytes} (h : start + width ≤ front.length) (rest : Bytes) :
    field (front ++ rest) start width = field front start width := by
  rw [field, List.drop_append_of_le_length (by omega), List.take_append_of_le_length, field]
  rw [List.length_drop]
  omega

theorem field_skip_append {front : Bytes} (h : front.length = start) (rest : Bytes) (width : Nat) :
    field (front ++ rest) start width = field rest 0 width := by
  unfold field
  rw [← h, List.drop_left, List.drop_zero]

theorem field_le_of_lt {n : Nat} (h : n < 256 ^ width) (rest : Bytes) :
    field (le width n ++ rest) 0 width = n := by
  rw [field_le, Nat.mod_eq_of_lt h]

theorem ofLe_injective {x y : Bytes} (hlength : x.length = y.length) (h : ofLe x = ofLe y) : x = y := by
  induction x generalizing y with
  | nil => exact (List.length_eq_zero_iff.mp hlength.symm).symm
  | cons byte x ih =>
    cases y with
    | nil => cases hlength
    | cons byte' y =>
      have hbyte := byte.toNat_lt
      have hbyte' := byte'.toNat_lt
      change byte.toNat + 256 * ofLe x = byte'.toNat + 256 * ofLe y at h
      have hrest : ofLe x = ofLe y := by omega
      have hfirst : byte.toNat = byte'.toNat := by omega
      rw [UInt8.toNat_inj.mp hfirst, ih (Nat.succ.inj hlength) hrest]

/-- A slice tells the bytes at its places. -/
theorem getElem?_of_take_drop {a b : Bytes} {k : Nat}
    (h : (a.drop start).take width = (b.drop start).take width) (hstart : start ≤ k)
    (hk : k < start + width) : a[k]? = b[k]? := by
  have hget : ∀ data : Bytes, ((data.drop start).take width)[k - start]? = data[k]? := by
    intro data
    rw [List.getElem?_take_of_lt (by omega), List.getElem?_drop, Nat.add_sub_cancel' hstart]
  rw [← hget a, ← hget b, h]

theorem take_drop_of_getElem? {a b : Bytes} (h : ∀ k, start ≤ k → k < start + width → a[k]? = b[k]?) :
    (a.drop start).take width = (b.drop start).take width := by
  refine List.ext_getElem? fun i => ?_
  by_cases hi : i < width
  · rw [List.getElem?_take_of_lt hi, List.getElem?_take_of_lt hi, List.getElem?_drop, List.getElem?_drop]
    exact h (start + i) (Nat.le_add_right _ _) (Nat.add_lt_add_left hi _)
  · rw [List.getElem?_take_eq_none (Nat.not_lt.mp hi), List.getElem?_take_eq_none (Nat.not_lt.mp hi)]

/-! ## Writing into a buffer -/

def zeros (n : Nat) : Bytes :=
  List.replicate n 0

@[simp] theorem length_zeros : (zeros n).length = n :=
  List.length_replicate

theorem zeros_add (m n : Nat) : zeros (m + n) = zeros m ++ zeros n :=
  (List.replicate_append_replicate).symm

/-- `buffer[offset..offset + bytes.len()]` replaced by `bytes`. -/
def overwrite (buffer : Bytes) (offset : Nat) (bytes : Bytes) : Option Bytes :=
  if offset + bytes.length ≤ buffer.length then
    some (buffer.take offset ++ bytes ++ buffer.drop (offset + bytes.length))
  else none

/-- The chunks one after the other from `offset` on. -/
def overwriteAll : List Bytes → Nat → Bytes → Option Bytes
  | [], _, buffer => some buffer
  | chunk :: rest, offset, buffer => do
    let buffer ← overwrite buffer offset chunk
    overwriteAll rest (offset + chunk.length) buffer

variable {written : Bytes} {offset : Nat}

theorem overwrite_zeros {bytes : Bytes} {gap rest n : Nat} (hoffset : offset = written.length + gap)
    (hn : n = gap + (bytes.length + rest)) :
    overwrite (written ++ zeros n) offset bytes =
      some (written ++ zeros gap ++ bytes ++ zeros rest) := by
  subst hoffset hn
  have hfits : written.length + gap + bytes.length ≤
      (written ++ zeros (gap + (bytes.length + rest))).length := by
    rw [List.length_append, length_zeros]
    omega
  rw [overwrite, if_pos hfits, zeros_add, zeros_add, ← List.append_assoc]
  have htake : List.take (written.length + gap)
      (written ++ zeros gap ++ (zeros bytes.length ++ zeros rest)) = written ++ zeros gap := by
    apply List.take_left'
    rw [List.length_append, length_zeros]
  have hdrop : List.drop (written.length + gap + bytes.length)
      (written ++ zeros gap ++ (zeros bytes.length ++ zeros rest)) = zeros rest := by
    rw [← List.append_assoc]
    apply List.drop_left'
    simp only [List.length_append, length_zeros]
  rw [htake, hdrop]

variable {chunks : List Bytes}

theorem overwriteAll_zeros {gap rest n : Nat} (hoffset : offset = written.length + gap)
    (hn : n = gap + (chunks.flatten.length + rest)) :
    overwriteAll chunks offset (written ++ zeros n) =
      some (written ++ zeros gap ++ chunks.flatten ++ zeros rest) := by
  induction chunks generalizing written offset gap n with
  | nil =>
    have hn' : n = gap + rest := by simpa using hn
    rw [overwriteAll, hn', zeros_add, List.flatten_nil, List.append_nil, List.append_assoc]
  | cons chunk chunks ih =>
    -- after the first write there is no gap left
    have hn' : n = gap + (chunk.length + (chunks.flatten.length + rest)) := by
      rw [hn, List.flatten_cons, List.length_append, Nat.add_assoc]
    have hoffset' : offset + chunk.length = (written ++ zeros gap ++ chunk).length + 0 := by
      simp only [List.length_append, length_zeros]
      omega
    have hfirst := overwrite_zeros hoffset hn'
    have hrest := ih hoffset' (Nat.zero_add _).symm
    rw [overwriteAll, hfirst]
    show overwriteAll chunks (offset + chunk.length) _ = _
    rw [hrest]
    simp [zeros, List.append_assoc]

theorem overwrite_next (hoffset : offset = written.length) (bytes : Bytes) (rest : Nat) :
    overwrite (written ++ zeros (bytes.length + rest)) offset bytes = some
      (written ++ bytes ++ zeros rest) := by
  have h := overwrite_zeros (show offset = written.length + 0 from hoffset)
    (Nat.zero_add (bytes.length + rest)).symm
  rw [h]
  simp [zeros]

theorem overwrite_front (bytes : Bytes) (rest : Nat) :
    overwrite (zeros (bytes.length + rest)) 0 bytes = some (bytes ++ zeros rest) := by
  have h : overwrite ([] ++ zeros (bytes.length + rest)) 0 bytes = some ([] ++ bytes ++ zeros rest) :=
    overwrite_next rfl bytes rest
  rwa [List.nil_append, List.nil_append] at h

theorem overwriteAll_next (hoffset : offset = written.length) (chunks : List Bytes) (rest : Nat) :
    overwriteAll chunks offset (written ++ zeros (chunks.flatten.length + rest)) =
      some (written ++ chunks.flatten ++ zeros rest) := by
  have h := overwriteAll_zeros (show offset = written.length + 0 from hoffset)
    (Nat.zero_add (chunks.flatten.length + rest)).symm
  rw [h]
  simp [zeros]

/-! ## Slicing -/

/-- `data[start..stop]`. -/
def slice (data : Bytes) (start stop : Nat) : Option Bytes :=
  if start ≤ stop ∧ stop ≤ data.length then some ((data.drop start).take (stop - start)) else none

theorem slice_append {before bytes after : Bytes} {stop : Nat} (hstart : start = before.length)
    (hstop : stop = start + bytes.length) :
    slice (before ++ bytes ++ after) start stop = some bytes := by
  subst hstart hstop
  have hin : before.length ≤ before.length + bytes.length ∧
      before.length + bytes.length ≤ (before ++ bytes ++ after).length := by
    simp only [List.length_append]
    omega
  rw [slice, if_pos hin, List.append_assoc, List.drop_left, Nat.add_sub_cancel_left, List.take_left]

/-! ## Rows of equal chunks -/

theorem length_flatten_map {α : Type} {toBytes : α → Bytes} (hsize : ∀ a, (toBytes a).length = size)
    (items : List α) :
    (items.map toBytes).flatten.length = items.length * size := by
  induction items with
  | nil => rw [List.map_nil, List.flatten_nil, List.length_nil, List.length_nil, Nat.zero_mul]
  | cons a items ih =>
    rw [List.map_cons, List.flatten_cons, List.length_append, hsize, ih, List.length_cons, Nat.succ_mul,
      Nat.add_comm]

theorem drop_flatten (hsize : ∀ c ∈ chunks, c.length = size) (rest : Bytes) {i : Nat}
    (hi : i ≤ chunks.length) :
    (chunks.flatten ++ rest).drop (i * size) = (chunks.drop i).flatten ++ rest := by
  induction chunks generalizing i with
  | nil =>
    obtain rfl : i = 0 := by simpa using hi
    rw [Nat.zero_mul, List.drop_zero, List.drop_zero]
  | cons chunk chunks ih =>
    cases i with
    | zero => rw [Nat.zero_mul, List.drop_zero, List.drop_zero]
    | succ i =>
      have hchunk : chunk.length = size := hsize chunk List.mem_cons_self
      have hi' : i ≤ chunks.length := by simpa using hi
      have hsplit : (i + 1) * size = chunk.length + i * size := by
        rw [hchunk, Nat.succ_mul, Nat.add_comm]
      rw [List.flatten_cons, List.append_assoc, hsplit, List.drop_append, List.drop_eq_nil_of_le (by omega),
        List.nil_append, Nat.add_sub_cancel_left, ih (fun c hc => hsize c (List.mem_cons_of_mem _ hc)) hi']
      rfl

/-- Reading the rows one by one gives the rows back. -/
theorem map_range_flatten {α : Type} (items : List α) {toBytes : α → Bytes}
    (hsize : ∀ a, (toBytes a).length = size) {read : Bytes → α}
    (hread : ∀ a rest, read (toBytes a ++ rest) = a) (rest : Bytes) :
    (List.range items.length).map (fun i => read (((items.map toBytes).flatten ++ rest).drop (i * size))) =
      items := by
  apply List.ext_getElem
  · rw [List.length_map, List.length_range]
  · intro i hi hi'
    have hchunks : ∀ c ∈ items.map toBytes, c.length = size := by
      intro c hc
      obtain ⟨a, -, rfl⟩ := List.mem_map.mp hc
      exact hsize a
    have hlen : i ≤ (items.map toBytes).length := by
      rw [List.length_map]
      omega
    have hi'' : i < (items.map toBytes).length := by
      rw [List.length_map]
      omega
    rw [List.getElem_map, List.getElem_range, drop_flatten hchunks rest hlen,
      List.drop_eq_getElem_cons hi'', List.flatten_cons, List.append_assoc, List.getElem_map, hread]

end Bytes

end ShapeLang.Lib
