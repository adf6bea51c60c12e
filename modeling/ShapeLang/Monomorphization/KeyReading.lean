import ShapeLang.Monomorphization.Keys

/-!
# Reading a specialization key back

Keys of plain instantiations can be read back word by word, so that two of them with one key are
equal. Plain means: no tuple, names without an underscore that are not numerals and have one layout
each, const strings that are one word which begins no segment, and no `f64` const whose bits render
as a type word. What is left ambiguous is a closure type argument before another type argument,
which reads like a closure spec; the two may not be mixed.
-/

namespace ShapeLang.Monomorphization

open ShapeLang.Lib.Tokens

/-! ## Words -/

namespace ConcreteType

/-- The words of a key. A tuple has no words of its own that could be told apart. -/
def words : ConcreteType → List String
  | .struct id => ["struct", id.word]
  | .enum id => ["enum", id.word]
  | .closure id => ["closure", toString id.toNat]
  | .function id => ["fn", toString id.toNat]
  | .array elem => "array" :: elem.words
  | .option inner => "option" :: inner.words
  | .pointer inner => "ptr" :: inner.words
  | .hashSet elem => "hashset" :: elem.words
  | .deque elem => "deque" :: elem.words
  | .channel elem => "channel" :: elem.words
  | .mutex inner => "mutex" :: inner.words
  | .lazy inner => "lazy" :: inner.words
  | .hashMap k v => "hashmap" :: (k.words ++ v.words)
  | .result ok err => "result" :: (ok.words ++ err.words)
  | .priorityQueue => ["priority", "queue"]
  | .tuple _ => ["tuple"]
  | .f64 => ["f64"]
  | .f32 => ["f32"]
  | .char => ["char"]
  | .i64 => ["i64"]
  | .i32 => ["i32"]
  | .i16 => ["i16"]
  | .i8 => ["i8"]
  | .u64 => ["u64"]
  | .u32 => ["u32"]
  | .u16 => ["u16"]
  | .u8 => ["u8"]
  | .bool => ["bool"]
  | .string => ["string"]
  | .void => ["void"]
  | .decimal => ["decimal"]
  | .bigInt => ["bigint"]
  | .dateTime => ["datetime"]
  | .atomic => ["atomic"]

def depth : ConcreteType → Nat
  | .array t | .option t | .pointer t | .hashSet t | .deque t | .channel t | .mutex t | .lazy t =>
    t.depth + 1
  | .hashMap a b | .result a b => max a.depth b.depth + 1
  | _ => 0

end ConcreteType

/-- The layout ids of the named structs and enums. -/
structure Layouts where
  structs : String → UInt32
  enums : String → UInt32

/-- The name is one word that is not a numeral, and has the layout its name stands for. -/
def NamedTypeId.Plain (layouts : String → UInt32) (id : NamedTypeId) : Prop :=
  ∀ name, id.name = some name →
    '_' ∉ name.toList ∧ (∀ n : UInt32, name ≠ toString n.toNat) ∧ id.layout = layouts name

def ConcreteType.Plain (layouts : Layouts) : ConcreteType → Prop
  | .struct id => id.Plain layouts.structs
  | .enum id => id.Plain layouts.enums
  | .array t | .option t | .pointer t | .hashSet t | .deque t | .channel t | .mutex t | .lazy t =>
    t.Plain layouts
  | .hashMap a b | .result a b => a.Plain layouts ∧ b.Plain layouts
  | .tuple _ => False
  | _ => True

variable {layouts : Layouts}

theorem ConcreteType.words_ne_nil (t : ConcreteType) : t.words ≠ [] := by
  cases t <;> exact List.cons_ne_nil _ _

theorem intercalate_cons {w : String} {ws : List String} (h : ws ≠ []) :
    "_".intercalate (w :: ws) = w ++ "_" ++ "_".intercalate ws :=
  String.intercalate_cons_of_ne_nil h

theorem intercalate_two {w : String} (a b : ConcreteType) :
    "_".intercalate (w :: (a.words ++ b.words)) =
      w ++ "_" ++ ("_".intercalate a.words ++ "_" ++ "_".intercalate b.words) := by
  rw [intercalate_cons (List.append_ne_nil_of_left_ne_nil a.words_ne_nil _),
    String.intercalate_append_of_ne_nil a.words_ne_nil b.words_ne_nil]

theorem ConcreteType.monoKey_eq : (t : ConcreteType) → t.Plain layouts → t.monoKey = "_".intercalate t.words
  | .array t, h | .option t, h | .pointer t, h | .hashSet t, h | .deque t, h | .channel t, h | .mutex t, h
  | .lazy t, h => by
    have ht : t.Plain layouts := h
    rw [monoKey, words, intercalate_cons t.words_ne_nil, monoKey_eq t ht]
    rfl
  | .hashMap a b, h => by
    rw [monoKey, words, intercalate_two a b, monoKey_eq a h.1, monoKey_eq b h.2]
    show "hashmap" ++ "_" ++ _ ++ "_" ++ _ = _
    simp only [String.append_assoc]
  | .result a b, h => by
    rw [monoKey, words, intercalate_two a b, monoKey_eq a h.1, monoKey_eq b h.2]
    show "result" ++ "_" ++ _ ++ "_" ++ _ = _
    simp only [String.append_assoc]
  | .struct id, _ | .enum id, _ => by
    rw [monoKey, words, intercalate_cons (List.cons_ne_nil _ _), String.intercalate_singleton]
    rfl
  | .closure id, _ | .function id, _ => by
    rw [monoKey, words, intercalate_cons (List.cons_ne_nil _ _), String.intercalate_singleton]
    rfl
  | .tuple _, h => h.elim
  | .priorityQueue, _ => rfl
  | .f64, _ | .f32, _ | .char, _ | .i64, _ | .i32, _ | .i16, _ | .i8, _ | .u64, _ | .u32, _
  | .u16, _ | .u8, _ | .bool, _ | .string, _ | .void, _ | .decimal, _ | .bigInt, _ | .dateTime, _
  | .atomic, _ => rfl

theorem NamedTypeId.underscore_notMem {f : String → UInt32} {id : NamedTypeId} (h : id.Plain f) :
    '_' ∉ id.word.toList := by
  rw [word]
  split
  · next name hname => exact (h name hname).1
  · exact underscore_notMem_toString _

/-- No word of a plain type contains the separator. -/
theorem ConcreteType.underscore_notMem :
    (t : ConcreteType) → t.Plain layouts → ∀ w ∈ t.words, '_' ∉ w.toList
  | .array t, h | .option t, h | .pointer t, h | .hashSet t, h | .deque t, h | .channel t, h | .mutex t, h
  | .lazy t, h => by
    have ht : t.Plain layouts := h
    intro w hw
    rcases List.mem_cons.mp hw with rfl | hw
    · decide
    · exact underscore_notMem t ht w hw
  | .hashMap a b, h | .result a b, h => by
    intro w hw
    rcases List.mem_cons.mp hw with rfl | hw
    · decide
    · rcases List.mem_append.mp hw with hw | hw
      · exact underscore_notMem a h.1 w hw
      · exact underscore_notMem b h.2 w hw
  | .struct id, h | .enum id, h => by
    intro w hw
    rcases List.mem_cons.mp hw with rfl | hw
    · decide
    · rw [List.mem_singleton.mp hw]
      exact NamedTypeId.underscore_notMem h
  | .closure id, _ | .function id, _ => by
    intro w hw
    rcases List.mem_cons.mp hw with rfl | hw
    · decide
    · rw [List.mem_singleton.mp hw]
      exact underscore_notMem_toString _
  | .tuple _, h => h.elim
  | .priorityQueue, _ => by decide
  | .f64, _ | .f32, _ | .char, _ | .i64, _ | .i32, _ | .i16, _ | .i8, _ | .u64, _ | .u32, _
  | .u16, _ | .u8, _ | .bool, _ | .string, _ | .void, _ | .decimal, _ | .bigInt, _ | .dateTime, _
  | .atomic, _ => by decide

/-! ## Reading a type -/

def atoms : List (String × ConcreteType) :=
  [("f64", .f64), ("f32", .f32), ("char", .char), ("i64", .i64), ("i32", .i32), ("i16", .i16), ("i8", .i8),
    ("u64", .u64), ("u32", .u32), ("u16", .u16), ("u8", .u8), ("bool", .bool), ("string", .string),
    ("void", .void), ("decimal", .decimal), ("bigint", .bigInt), ("datetime", .dateTime),
    ("atomic", .atomic)]

def unaries : List (String × (ConcreteType → ConcreteType)) :=
  [("array", .array), ("option", .option), ("ptr", .pointer), ("hashset", .hashSet), ("deque", .deque),
    ("channel", .channel), ("mutex", .mutex), ("lazy", .lazy)]

def binaries : List (String × (ConcreteType → ConcreteType → ConcreteType)) :=
  [("hashmap", .hashMap), ("result", .result)]

noncomputable def readU32 (w : String) : UInt32 :=
  Function.invFun (fun n : UInt32 => toString n.toNat) w

theorem readU32_toString (n : UInt32) : readU32 (toString n.toNat) = n := by
  refine Function.leftInverse_invFun (f := fun n : UInt32 => toString n.toNat) ?_ n
  intro m n h
  exact UInt32.toNat_inj.mp (Nat.repr_injective h)

open Classical in
noncomputable def readNamed (f : String → UInt32) (w : String) : NamedTypeId :=
  if ∃ n : UInt32, toString n.toNat = w then { layout := readU32 w, name := none }
  else { layout := f w, name := some w }

theorem readNamed_word {f : String → UInt32} {id : NamedTypeId} (h : id.Plain f) :
    readNamed f id.word = id := by
  obtain ⟨layout, name⟩ := id
  cases name with
  | none =>
    show readNamed f (toString layout.toNat) = _
    rw [readNamed, if_pos ⟨layout, rfl⟩, readU32_toString]
  | some name =>
    obtain ⟨-, hnumeral, hlayout⟩ := h name rfl
    have hno : ¬∃ n : UInt32, toString n.toNat = name := by
      rintro ⟨n, hn⟩
      exact hnumeral n hn.symm
    show readNamed f name = _
    rw [readNamed, if_neg hno]
    exact congrArg (NamedTypeId.mk · (some name)) hlayout.symm

/-- A type of two words. -/
noncomputable def readPair (layouts : Layouts) : String → List String → Option (ConcreteType × List String)
  | "struct", v :: rest => some (.struct (readNamed layouts.structs v), rest)
  | "enum", v :: rest => some (.enum (readNamed layouts.enums v), rest)
  | "closure", v :: rest => some (.closure (readU32 v), rest)
  | "fn", v :: rest => some (.function (readU32 v), rest)
  | "priority", _ :: rest => some (.priorityQueue, rest)
  | _, _ => none

/-- The type at the front of the words, and the words behind it. -/
noncomputable def readType (layouts : Layouts) : Nat → List String → Option (ConcreteType × List String)
  | n + 1, w :: rest =>
    match atoms.lookup w with
    | some t => some (t, rest)
    | none =>
      match unaries.lookup w with
      | some f => (readType layouts n rest).map fun r => (f r.1, r.2)
      | none =>
        match binaries.lookup w with
        | some f =>
          (readType layouts n rest).bind fun a => (readType layouts n a.2).map fun b => (f a.1 b.1, b.2)
        | none => readPair layouts w rest
  | _, _ => none

variable {w : String}

theorem readType_atom {n : Nat} {t : ConcreteType} (h : atoms.lookup w = some t) (rest : List String) :
    readType layouts (n + 1) (w :: rest) = some (t, rest) := by
  rw [readType, h]

variable {rest : List String}

theorem readType_unary {n : Nat} {f : ConcreteType → ConcreteType} {t : ConcreteType} {ws : List String}
    (hatom : atoms.lookup w = none) (hunary : unaries.lookup w = some f)
    (h : readType layouts n (ws ++ rest) = some (t, rest)) :
    readType layouts (n + 1) (w :: ws ++ rest) = some (f t, rest) := by
  rw [List.cons_append, readType, hatom]
  simp only [hunary, h, Option.map_some]

theorem readType_binary {n : Nat} {f : ConcreteType → ConcreteType → ConcreteType} {a b : ConcreteType}
    {as bs : List String} (hatom : atoms.lookup w = none) (hunary : unaries.lookup w = none)
    (hbinary : binaries.lookup w = some f)
    (ha : readType layouts n (as ++ (bs ++ rest)) = some (a, bs ++ rest))
    (hb : readType layouts n (bs ++ rest) = some (b, rest)) :
    readType layouts (n + 1) (w :: (as ++ bs) ++ rest) = some (f a b, rest) := by
  rw [List.cons_append, List.append_assoc, readType, hatom]
  simp only [hunary, hbinary, ha, Option.bind_some, hb, Option.map_some]

theorem readType_words : (t : ConcreteType) → t.Plain layouts → ∀ n, t.depth < n → ∀ rest,
    readType layouts n (t.words ++ rest) = some (t, rest)
  | _, _, 0, hn, _ => absurd hn (Nat.not_lt_zero _)
  | .array t, h, n + 1, hn, rest | .option t, h, n + 1, hn, rest | .pointer t, h, n + 1, hn, rest
  | .hashSet t, h, n + 1, hn, rest | .deque t, h, n + 1, hn, rest | .channel t, h, n + 1, hn, rest
  | .mutex t, h, n + 1, hn, rest | .lazy t, h, n + 1, hn, rest => by
    have ht : t.Plain layouts := h
    rw [ConcreteType.depth] at hn
    exact readType_unary rfl rfl (readType_words t ht n (by omega) rest)
  | .hashMap a b, h, n + 1, hn, rest | .result a b, h, n + 1, hn, rest => by
    rw [ConcreteType.depth] at hn
    exact readType_binary rfl rfl rfl (readType_words a h.1 n (by omega) _)
      (readType_words b h.2 n (by omega) rest)
  | .struct id, h, n + 1, _, rest => by
    have hread : readType layouts (n + 1) ("struct" :: id.word :: rest) =
        some (.struct (readNamed layouts.structs id.word), rest) := rfl
    rw [readNamed_word h] at hread
    exact hread
  | .enum id, h, n + 1, _, rest => by
    have hread : readType layouts (n + 1) ("enum" :: id.word :: rest) =
        some (.enum (readNamed layouts.enums id.word), rest) := rfl
    rw [readNamed_word h] at hread
    exact hread
  | .closure id, _, n + 1, _, rest => by
    have hread : readType layouts (n + 1) ("closure" :: toString id.toNat :: rest) =
        some (.closure (readU32 (toString id.toNat)), rest) := rfl
    rw [readU32_toString] at hread
    exact hread
  | .function id, _, n + 1, _, rest => by
    have hread : readType layouts (n + 1) ("fn" :: toString id.toNat :: rest) =
        some (.function (readU32 (toString id.toNat)), rest) := rfl
    rw [readU32_toString] at hread
    exact hread
  | .tuple _, h, _, _, _ => h.elim
  | .priorityQueue, _, _ + 1, _, _ => rfl
  | .f64, _, _ + 1, _, _ | .f32, _, _ + 1, _, _ | .char, _, _ + 1, _, _ | .i64, _, _ + 1, _, _
  | .i32, _, _ + 1, _, _ | .i16, _, _ + 1, _, _ | .i8, _, _ + 1, _, _ | .u64, _, _ + 1, _, _
  | .u32, _, _ + 1, _, _ | .u16, _, _ + 1, _, _ | .u8, _, _ + 1, _, _ | .bool, _, _ + 1, _, _
  | .string, _, _ + 1, _, _ | .void, _, _ + 1, _, _ | .decimal, _, _ + 1, _, _
  | .bigInt, _, _ + 1, _, _ | .dateTime, _, _ + 1, _, _ | .atomic, _, _ + 1, _, _ =>
    readType_atom rfl _

/-! ## Reading an argument -/

/-- The words a segment begins with. -/
def startWords : List String :=
  "int" :: atoms.map Prod.fst ++ unaries.map Prod.fst ++ binaries.map Prod.fst ++
    ["struct", "enum", "closure", "fn", "priority"]

/-- One argument of an instantiation, of either kind. -/
inductive Item where
  | type (t : ConcreteType)
  | const (c : ComptimeConstValue)
  | spec (s : ClosureSpec)

def ComptimeConstValue.words : ComptimeConstValue → List String
  | .int i => ["int", toString i.toInt]
  | .bool b => ["bool", toString b]
  | .number bits => ["f64", hex bits.toNat]
  | .string s => ["string", s]

def returnWords : Option ConcreteType → List String
  | some t => t.words
  | none => ["unknown"]

def hashWords (hash : UInt64) : List String :=
  if hash ≠ 0 then ["b" ++ hex hash.toNat] else []

def ClosureSpec.words (spec : ClosureSpec) : List String :=
  "closure" :: toString spec.closureTypeId.toNat :: (returnWords spec.returnType ++ hashWords spec.bodyHash)

def Item.words : Item → List String
  | .type t => t.words
  | .const c => c.words
  | .spec s => s.words

/-- A string is one word of its own, a number does not render as a type. -/
def ComptimeConstValue.Plain : ComptimeConstValue → Prop
  | .int _ | .bool _ => True
  | .number bits => bits ≠ 0xf64 ∧ bits ≠ 0xf32
  | .string s => (∀ c ∈ s.toList, c.isAlphanum) ∧ s ∉ startWords

def ClosureSpec.Plain (layouts : Layouts) (spec : ClosureSpec) : Prop :=
  ∀ t, spec.returnType = some t → t.Plain layouts

/-- With `specs` a closure is a spec and never a type argument, without it the other way round. -/
def Item.Plain (layouts : Layouts) (specs : Bool) : Item → Prop
  | .type t => t.Plain layouts ∧ (specs = true → ∀ id, t ≠ .closure id)
  | .const c => c.Plain
  | .spec s => s.Plain layouts ∧ specs = true

def Item.depth : Item → Nat
  | .type t => t.depth
  | .const _ => 0
  | .spec s => match s.returnType with | some t => t.depth | none => 0

noncomputable def readI64 (w : String) : Int64 :=
  Function.invFun (fun i : Int64 => toString i.toInt) w

noncomputable def readBits (w : String) : UInt64 :=
  Function.invFun (fun n : UInt64 => hex n.toNat) w

noncomputable def readHash (w : String) : UInt64 :=
  Function.invFun (fun n : UInt64 => "b" ++ hex n.toNat) w

theorem readI64_toString (i : Int64) : readI64 (toString i.toInt) = i := by
  refine Function.leftInverse_invFun (f := fun i : Int64 => toString i.toInt) ?_ i
  intro i j h
  exact Int64.toInt_inj.mp (Int.repr_injective h)

theorem readBits_hex (n : UInt64) : readBits (hex n.toNat) = n := by
  refine Function.leftInverse_invFun (f := fun n : UInt64 => hex n.toNat) ?_ n
  intro m n h
  exact UInt64.toNat_inj.mp (hex_injective h)

theorem readHash_hex (n : UInt64) : readHash ("b" ++ hex n.toNat) = n := by
  refine Function.leftInverse_invFun (f := fun n : UInt64 => "b" ++ hex n.toNat) ?_ n
  intro m n h
  exact UInt64.toNat_inj.mp (hex_injective (String.append_right_inj "b" |>.mp h))

/-- The body hash behind a closure spec: a word that begins no segment. -/
noncomputable def readBodyHash : List String → UInt64 × List String
  | w :: rest => if w ∈ startWords then (0, w :: rest) else (readHash w, rest)
  | [] => (0, [])

noncomputable def readReturn (layouts : Layouts) (n : Nat) :
    List String → Option (Option ConcreteType × List String)
  | "unknown" :: rest => some (none, rest)
  | words => (readType layouts n words).map fun r => (some r.1, r.2)

/-- The argument at the front of the words. -/
noncomputable def readItem (layouts : Layouts) (specs : Bool) (n : Nat) (words : List String) :
    Option (Item × List String) :=
  let type := (readType layouts n words).map fun r => (Item.type r.1, r.2)
  match words with
  | w :: v :: rest =>
    if w = "int" then some (.const (.int (readI64 v)), rest)
    else if w = "bool" ∧ (v = "true" ∨ v = "false") then some (.const (.bool (v == "true")), rest)
    else if w = "f64" ∧ v ∉ startWords then some (.const (.number (readBits v)), rest)
    else if w = "string" ∧ v ∉ startWords then some (.const (.string v), rest)
    else if w = "closure" ∧ specs = true then
      (readReturn layouts n rest).map fun r =>
        let h := readBodyHash r.2
        (.spec { closureTypeId := readU32 v, returnType := r.1, bodyHash := h.1 }, h.2)
    else type
  | _ => type

/-- What follows an argument: nothing, or the next one. -/
def Boundary (words : List String) : Prop :=
  ∀ w ∈ words.head?, w ∈ startWords

/-- What the first word of a type tells. -/
structure TypeHead (t : ConcreteType) (w : String) (ws : List String) : Prop where
  words : t.words = w :: ws
  start : w ∈ startWords
  not_int : w ≠ "int"
  not_unknown : w ≠ "unknown"
  alone : w = "bool" ∨ w = "f64" ∨ w = "string" → ws = []
  closure : w = "closure" → ∃ id, t = .closure id

theorem ConcreteType.exists_head {t : ConcreteType} (h : t.Plain layouts) : ∃ w ws, TypeHead t w ws := by
  cases t with
  | tuple elems => exact h.elim
  | closure id =>
    exact ⟨_, _, rfl, by decide, by decide, by decide, fun hw => absurd hw (by decide), fun _ => ⟨id, rfl⟩⟩
  | f64 | bool | string =>
    exact ⟨_, _, rfl, by decide, by decide, by decide, fun _ => rfl, fun hw => absurd hw (by decide)⟩
  | _ =>
    exact ⟨_, _, rfl, by decide, by decide, by decide, fun hw => absurd hw (by decide),
      fun hw => absurd hw (by decide)⟩

variable {specs : Bool} {n : Nat} {rest : List String}

/-- A type argument reads as a type: whatever could turn its first word into something else would
have to be the first word of the next argument. -/
theorem readItem_type {t : ConcreteType} (h : (Item.type t).Plain layouts specs) (hn : t.depth < n)
    (hrest : Boundary rest) :
    readItem layouts specs n (t.words ++ rest) = some (.type t, rest) := by
  obtain ⟨w, ws, hhead⟩ := ConcreteType.exists_head h.1
  have hread := readType_words t h.1 n hn rest
  have htype : ((readType layouts n (t.words ++ rest)).map fun r => (Item.type r.1, r.2)) =
      some (.type t, rest) := by rw [hread, Option.map_some]
  -- a closure type is not read as a specialization, and one that could be is excluded
  have hclosure : ¬(w = "closure" ∧ specs = true) := by
    rintro ⟨hw, hspecs⟩
    obtain ⟨id, hid⟩ := hhead.closure hw
    exact h.2 hspecs id hid
  rw [hhead.words, List.cons_append] at htype ⊢
  cases htail : ws ++ rest with
  | nil =>
    rw [htail] at htype
    exact htype
  | cons v tail =>
    rw [htail] at htype
    -- a lone word is read as a constant only if the next word could start nothing
    have hnext : w = "bool" ∨ w = "f64" ∨ w = "string" → v ∈ startWords := by
      intro hw
      rw [hhead.alone hw, List.nil_append] at htail
      exact hrest v (by rw [htail]; rfl)
    have hbool : ¬(w = "bool" ∧ (v = "true" ∨ v = "false")) := by
      rintro ⟨hw, hv⟩
      have hstart := hnext (Or.inl hw)
      rcases hv with rfl | rfl
      · revert hstart
        decide
      · revert hstart
        decide
    have hnumber : ¬(w = "f64" ∧ v ∉ startWords) := fun hw => hw.2 (hnext (Or.inr (Or.inl hw.1)))
    have hstring : ¬(w = "string" ∧ v ∉ startWords) := fun hw => hw.2 (hnext (Or.inr (Or.inr hw.1)))
    rw [readItem]
    simp only [if_neg hhead.not_int, if_neg hbool, if_neg hnumber, if_neg hstring, if_neg hclosure]
    exact htype

-- Checked as a Boolean: the kernel evaluates the letters of a word faster than a quantifier over them.
theorem startWords_hex :
    (startWords.all fun w => !(w.toList.all hexDigits.contains) || w == "f64" || w == "f32") = true := by
  decide +kernel

theorem startWords_hash :
    (startWords.all fun w => w.toList.head? != some 'b' ||
      !(w.toList.tail.all hexDigits.contains)) = true := by
  decide +kernel

theorem all_hexDigits (n : Nat) : (hex n).toList.all hexDigits.contains = true := by
  rw [List.all_eq_true]
  intro c hc
  rw [List.contains_iff_mem]
  exact mem_hex hc

theorem hex_f64 : hex 0xf64 = "f64" := by
  rw [hex, Nat.toDigits_of_base_le (by decide) (by decide), Nat.toDigits_of_base_le (by decide) (by decide),
    Nat.toDigits_of_lt_base (by decide)]
  rfl

theorem hex_f32 : hex 0xf32 = "f32" := by
  rw [hex, Nat.toDigits_of_base_le (by decide) (by decide), Nat.toDigits_of_base_le (by decide) (by decide),
    Nat.toDigits_of_lt_base (by decide)]
  rfl

theorem hex_notMem_startWords {bits : UInt64} (h : (ComptimeConstValue.number bits).Plain) :
    hex bits.toNat ∉ startWords := by
  intro hmem
  have hword := List.all_eq_true.mp startWords_hex _ hmem
  rw [all_hexDigits, Bool.not_true, Bool.false_or, Bool.or_eq_true, beq_iff_eq, beq_iff_eq] at hword
  rcases hword with hw | hw
  · exact h.1 (UInt64.toNat_inj.mp (hex_injective (hw.trans hex_f64.symm)))
  · exact h.2 (UInt64.toNat_inj.mp (hex_injective (hw.trans hex_f32.symm)))

theorem hash_notMem_startWords (hash : UInt64) : "b" ++ hex hash.toNat ∉ startWords := by
  intro hmem
  have hlist : ("b" ++ hex hash.toNat).toList = 'b' :: (hex hash.toNat).toList := by
    rw [String.toList_append]
    rfl
  have hword := List.all_eq_true.mp startWords_hash _ hmem
  rw [hlist, List.head?_cons, List.tail_cons, all_hexDigits] at hword
  revert hword
  decide

theorem readItem_const {c : ComptimeConstValue} (h : c.Plain) (rest : List String) :
    readItem layouts specs n (c.words ++ rest) = some (.const c, rest) := by
  cases c with
  | int i =>
    show readItem layouts specs n ("int" :: toString i.toInt :: rest) = _
    rw [readItem]
    simp only [if_true, readI64_toString]
  | bool b =>
    cases b with
    | false => rfl
    | true => rfl
  | number bits =>
    have hword := hex_notMem_startWords h
    show readItem layouts specs n ("f64" :: hex bits.toNat :: rest) = _
    simp [readItem, hword, readBits_hex]
  | string s =>
    show readItem layouts specs n ("string" :: s :: rest) = _
    simp [readItem, h.2]

theorem readBodyHash_words (hash : UInt64) (hrest : Boundary rest) :
    readBodyHash (hashWords hash ++ rest) = (hash, rest) := by
  rw [hashWords]
  by_cases hzero : hash = 0
  · rw [if_neg (not_not_intro hzero), List.nil_append, hzero]
    cases rest with
    | nil => rfl
    | cons w rest => rw [readBodyHash, if_pos (hrest w rfl)]
  · rw [if_pos hzero, List.singleton_append, readBodyHash, if_neg (hash_notMem_startWords hash),
      readHash_hex]

theorem readReturn_words {ret : Option ConcreteType} (hplain : ∀ t, ret = some t → t.Plain layouts)
    (hn : ∀ t, ret = some t → t.depth < n) (rest : List String) :
    readReturn layouts n (returnWords ret ++ rest) = some (ret, rest) := by
  cases ret with
  | none => rfl
  | some t =>
    obtain ⟨w, ws, hhead⟩ := ConcreteType.exists_head (hplain t rfl)
    have hread := readType_words t (hplain t rfl) n (hn t rfl) rest
    show readReturn layouts n (t.words ++ rest) = _
    rw [hhead.words, List.cons_append] at hread ⊢
    rw [readReturn]
    · rw [hread, Option.map_some]
    · intro rest' heq
      exact hhead.not_unknown (List.cons.inj heq).1

variable {spec : ClosureSpec}

theorem readItem_spec (h : spec.Plain layouts) (hn : (Item.spec spec).depth < n) (hrest : Boundary rest) :
    readItem layouts true n (spec.words ++ rest) = some (.spec spec, rest) := by
  obtain ⟨id, ret, hash⟩ := spec
  have hdepth : ∀ t, ret = some t → t.depth < n := by
    rintro t rfl
    exact hn
  have hret := readReturn_words h hdepth (hashWords hash ++ rest)
  have hhash := readBodyHash_words hash hrest
  show readItem layouts true n
    ("closure" :: toString id.toNat :: (returnWords ret ++ hashWords hash ++ rest)) = _
  rw [List.append_assoc]
  simp [readItem, hret, hhash]
  exact readU32_toString id

variable {i : Item}

theorem readItem_words (h : i.Plain layouts specs) (hn : i.depth < n) (hrest : Boundary rest) :
    readItem layouts specs n (i.words ++ rest) = some (i, rest) := by
  cases i with
  | type t => exact readItem_type h hn hrest
  | const c => exact readItem_const h rest
  | spec s =>
    obtain ⟨hplain, rfl⟩ := h
    exact readItem_spec hplain hn hrest

/-! ## Reading a whole key -/

theorem Item.exists_head (h : i.Plain layouts specs) :
    ∃ w ws, i.words = w :: ws ∧ w ∈ startWords := by
  cases i with
  | type t =>
    obtain ⟨w, ws, hhead⟩ := ConcreteType.exists_head h.1
    exact ⟨w, ws, hhead.words, hhead.start⟩
  | const c =>
    cases c with
    | int i => exact ⟨"int", _, rfl, by decide⟩
    | bool b => exact ⟨"bool", _, rfl, by decide⟩
    | number bits => exact ⟨"f64", _, rfl, by decide⟩
    | string s => exact ⟨"string", _, rfl, by decide⟩
  | spec s => exact ⟨"closure", _, rfl, by decide⟩

theorem boundary_flatMap {items : List Item} (h : ∀ i ∈ items, i.Plain layouts specs) :
    Boundary (items.flatMap Item.words) := by
  intro v hv
  cases items with
  | nil => cases hv
  | cons i items =>
    obtain ⟨w, ws, hwords, hstart⟩ := Item.exists_head (h i List.mem_cons_self)
    rw [List.flatMap_cons, hwords, List.cons_append, List.head?_cons, Option.mem_some_iff] at hv
    rw [← hv]
    exact hstart

theorem flatMap_words_inj {specs : Bool} {items items' : List Item} (h : ∀ i ∈ items, i.Plain layouts specs)
    (h' : ∀ i ∈ items', i.Plain layouts specs)
    (heq : items.flatMap Item.words = items'.flatMap Item.words) : items = items' := by
  induction items generalizing items' with
  | nil =>
    cases items' with
    | nil => rfl
    | cons j items' =>
      obtain ⟨w, ws, hwords, -⟩ := Item.exists_head (h' j List.mem_cons_self)
      rw [List.flatMap_cons, hwords] at heq
      cases heq
  | cons i items ih =>
    cases items' with
    | nil =>
      obtain ⟨w, ws, hwords, -⟩ := Item.exists_head (h i List.mem_cons_self)
      rw [List.flatMap_cons, hwords] at heq
      cases heq
    | cons j items' =>
      have hi : ∀ x ∈ items, x.Plain layouts specs := fun x hx => h x (List.mem_cons_of_mem _ hx)
      have hj : ∀ x ∈ items', x.Plain layouts specs := fun x hx => h' x (List.mem_cons_of_mem _ hx)
      -- both first arguments are what is read from the front of the same words
      have hread := readItem_words (h i List.mem_cons_self)
          (Nat.lt_succ_of_le (Nat.le_max_left i.depth j.depth))
        (boundary_flatMap hi)
      have hread' := readItem_words (h' j List.mem_cons_self)
          (Nat.lt_succ_of_le (Nat.le_max_right i.depth j.depth))
        (boundary_flatMap hj)
      rw [List.flatMap_cons, List.flatMap_cons] at heq
      rw [heq, hread'] at hread
      obtain ⟨hhead, hrest⟩ := Prod.mk.inj (Option.some.inj hread)
      rw [hhead, ih hi hj hrest.symm]

/-! ## Instantiations -/

def Item.segment : Item → String
  | .type t => t.monoKey
  | .const c => constValueMonoSegment c
  | .spec s => s.segment

def Instantiation.items (inst : Instantiation) : List Item :=
  inst.typeArgs.map .type ++ inst.constArgs.map .const ++ inst.closureSpecs.map .spec

/-- The instantiations whose keys can be read. Closures are either all specs or all type arguments. -/
structure Instantiation.Plain (layouts : Layouts) (specs : Bool) (inst : Instantiation) : Prop where
  types : ∀ t ∈ inst.typeArgs, t.Plain layouts
  consts : ∀ c ∈ inst.constArgs, c.Plain
  returns : ∀ s ∈ inst.closureSpecs, s.Plain layouts
  closure_types : specs = true → ∀ id, ConcreteType.closure id ∉ inst.typeArgs
  closure_specs : specs = false → inst.closureSpecs = []

theorem Instantiation.Plain.items {specs : Bool} {inst : Instantiation} (h : inst.Plain layouts specs) :
    ∀ i ∈ inst.items, i.Plain layouts specs := by
  intro i hi
  rcases List.mem_append.mp hi with hi | hi
  · rcases List.mem_append.mp hi with hi | hi
    · obtain ⟨t, ht, rfl⟩ := List.mem_map.mp hi
      refine ⟨h.types t ht, ?_⟩
      rintro hspecs id rfl
      exact h.closure_types hspecs id ht
    · obtain ⟨c, hc, rfl⟩ := List.mem_map.mp hi
      exact h.consts c hc
  · obtain ⟨s, hs, rfl⟩ := List.mem_map.mp hi
    refine ⟨h.returns s hs, ?_⟩
    cases specs with
    | true => rfl
    | false =>
      rw [h.closure_specs rfl] at hs
      cases hs

theorem ConcreteType.monoKeys_eq (ts : List ConcreteType) : monoKeys ts = ts.map monoKey := by
  induction ts with
  | nil => rfl
  | cons t ts ih => rw [monoKeys, ih, List.map_cons]

theorem Instantiation.parts_eq (inst : Instantiation) : inst.parts = inst.items.map Item.segment := by
  rw [parts, ConcreteType.monoKeys_eq, items, List.map_append, List.map_append, List.map_map, List.map_map,
    List.map_map]
  rfl

theorem Instantiation.ext_items {inst inst' : Instantiation} (h : inst.items = inst'.items) :
    inst = inst' := by
  let typeOf : Item → Option ConcreteType := fun i => match i with | .type t => some t | _ => none
  let constOf : Item → Option ComptimeConstValue := fun i => match i with | .const c => some c | _ => none
  let specOf : Item → Option ClosureSpec := fun i => match i with | .spec s => some s | _ => none
  have hread : ∀ x : Instantiation, x = ⟨x.items.filterMap typeOf, x.items.filterMap constOf,
      x.items.filterMap specOf⟩ := by
    intro x
    simp [items, typeOf, constOf, specOf, List.filterMap_append, List.filterMap_map]
  rw [hread inst, hread inst', h]

theorem sanitise_eq {s : String} (h : ∀ c ∈ s.toList, c.isAlphanum) : sanitise s = s := by
  have hmap : (s.toList.map fun c => if c.isAlphanum || c == '_' then c else '_') = s.toList := by
    conv_rhs => rw [← List.map_id s.toList]
    apply List.map_congr_left
    intro c hc
    rw [h c hc]
    rfl
  rw [sanitise, hmap, String.ofList_toList]

theorem intercalate_pair (v w : String) : "_".intercalate [v, w] = v ++ "_" ++ w := by
  rw [intercalate_cons (List.cons_ne_nil _ _), String.intercalate_singleton]

theorem constSegment_eq {c : ComptimeConstValue} (h : c.Plain) :
    constValueMonoSegment c = "_".intercalate c.words := by
  cases c with
  | int i => exact (intercalate_pair "int" (toString i.toInt)).symm
  | bool b => exact (intercalate_pair "bool" (toString b)).symm
  | number bits => exact (intercalate_pair "f64" (hex bits.toNat)).symm
  | string s =>
    rw [constValueMonoSegment, sanitise_eq h.1]
    exact (intercalate_pair "string" s).symm

theorem returnWords_ne_nil (ret : Option ConcreteType) : returnWords ret ≠ [] := by
  cases ret with
  | none => exact List.cons_ne_nil _ _
  | some t => exact t.words_ne_nil

theorem specSegment_eq (h : spec.Plain layouts) :
    spec.segment = "_".intercalate spec.words := by
  obtain ⟨id, ret, hash⟩ := spec
  have hret : returnSegment ret = "_".intercalate (returnWords ret) := by
    cases ret with
    | none => exact String.intercalate_singleton.symm
    | some t => exact ConcreteType.monoKey_eq t (h t rfl)
  have hne := returnWords_ne_nil ret
  have hwords : ∀ ws, "_".intercalate ("closure" :: toString id.toNat :: (returnWords ret ++ ws)) =
      "closure" ++ "_" ++ (toString id.toNat ++ "_" ++ "_".intercalate (returnWords ret ++ ws)) := by
    intro ws
    rw [intercalate_cons (List.cons_ne_nil _ _), intercalate_cons
      (List.append_ne_nil_of_left_ne_nil hne ws)]
  show (if hash ≠ 0 then "closure" ++ "_" ++ toString id.toNat ++ "_" ++ returnSegment ret ++
    ("_" ++ "b") ++
      hex hash.toNat
    else "closure" ++ "_" ++ toString id.toNat ++ "_" ++ returnSegment ret) = _
  rw [hret, ClosureSpec.words, hwords, hashWords]
  by_cases hzero : hash = 0
  · rw [if_neg (not_not_intro hzero), if_neg (not_not_intro hzero), List.append_nil]
    simp only [String.append_assoc]
  · rw [if_pos hzero, if_pos hzero, String.intercalate_append_of_ne_nil hne (List.cons_ne_nil _ _),
      String.intercalate_singleton]
    simp only [String.append_assoc]

theorem Item.segment_eq (h : i.Plain layouts specs) :
    i.segment = "_".intercalate i.words := by
  cases i with
  | type t => exact t.monoKey_eq h.1
  | const c => exact constSegment_eq h
  | spec s => exact specSegment_eq h.1

theorem underscore_notMem_alphanum {s : String} (h : ∀ c ∈ s.toList, c.isAlphanum) : '_' ∉ s.toList := by
  intro hmem
  have hletter := h '_' hmem
  revert hletter
  decide

theorem Item.underscore_notMem {specs : Bool} {i : Item} (h : i.Plain layouts specs) :
    ∀ w ∈ i.words, '_' ∉ w.toList := by
  -- an item of two words
  have hpair : ∀ {v w : String}, '_' ∉ v.toList → '_' ∉ w.toList → ∀ x ∈ [v, w], '_' ∉ x.toList := by
    intro v w hv hw x hx
    rcases List.mem_cons.mp hx with rfl | hx
    · exact hv
    · rw [List.mem_singleton.mp hx]
      exact hw
  cases i with
  | type t => exact t.underscore_notMem h.1
  | const c =>
    cases c with
    | int i => exact hpair (by decide) (underscore_notMem_toString_int _)
    | bool b =>
      cases b with
      | false => exact hpair (by decide) (by decide)
      | true => exact hpair (by decide) (by decide)
    | number bits => exact hpair (by decide) (underscore_notMem_hex _)
    | string s => exact hpair (by decide) (underscore_notMem_alphanum h.1)
  -- the marker, the function, the return type and the hash of the captures
  | spec s =>
    obtain ⟨id, ret, hash⟩ := s
    intro w hw
    rcases List.mem_cons.mp hw with rfl | hw
    · decide
    rcases List.mem_cons.mp hw with rfl | hw
    · exact underscore_notMem_toString _
    rcases List.mem_append.mp hw with hw | hw
    · cases ret with
      | none =>
        rw [List.mem_singleton.mp hw]
        decide
      | some t => exact t.underscore_notMem (h.1 t rfl) w hw
    · rw [hashWords] at hw
      by_cases hzero : hash = 0
      · rw [if_neg (not_not_intro hzero)] at hw
        cases hw
      · rw [if_pos hzero] at hw
        rw [List.mem_singleton.mp hw, String.toList_append, List.mem_append]
        rintro (hb | hb)
        · revert hb
          decide
        · exact underscore_notMem_hex _ hb

theorem Instantiation.Plain.words_ne_nil {specs : Bool} {inst : Instantiation}
    (h : inst.Plain layouts specs) (hitems : inst.items ≠ []) :
    inst.items.flatMap Item.words ≠ [] := by
  obtain ⟨i, items, hcons⟩ := List.exists_cons_of_ne_nil hitems
  obtain ⟨w, ws, hwords, -⟩ := Item.exists_head (h.items i (by rw [hcons]; exact List.mem_cons_self))
  rw [hcons, List.flatMap_cons, hwords, List.cons_append]
  exact List.cons_ne_nil _ _

theorem Instantiation.Plain.underscore_notMem {specs : Bool} {inst : Instantiation}
    (h : inst.Plain layouts specs) : ∀ w ∈ inst.items.flatMap Item.words, '_' ∉ w.toList := by
  intro w hw
  obtain ⟨i, hi, hmem⟩ := List.mem_flatMap.mp hw
  exact Item.underscore_notMem (h.items i hi) w hmem

theorem Instantiation.Plain.join_parts {specs : Bool} {inst : Instantiation}
    (h : inst.Plain layouts specs) :
    "_".intercalate inst.parts = "_".intercalate (inst.items.flatMap Item.words) := by
  have hsegments : inst.items.map Item.segment = (inst.items.map Item.words).map "_".intercalate := by
    rw [List.map_map]
    exact List.map_congr_left fun i hi => Item.segment_eq (h.items i hi)
  have hne : ∀ ws ∈ inst.items.map Item.words, ws ≠ [] := by
    intro ws hws
    obtain ⟨i, hi, rfl⟩ := List.mem_map.mp hws
    obtain ⟨w, ws, hwords, -⟩ := Item.exists_head (h.items i hi)
    rw [hwords]
    exact List.cons_ne_nil _ _
  rw [Instantiation.parts_eq, hsegments, intercalate_intercalate hne, ← List.flatMap_def]

/-- No argument at all is the bare name. -/
theorem buildMonoKeyFull_eq (fnName : String) (inst : Instantiation) :
    buildMonoKeyFull fnName inst =
      if inst.items = [] then fnName else fnName ++ "::" ++ "_".intercalate inst.parts := by
  obtain ⟨types, consts, specs⟩ := inst
  rw [buildMonoKeyFull]
  have hitems : (types.isEmpty && consts.isEmpty && specs.isEmpty) = true ↔
      (⟨types, consts, specs⟩ : Instantiation).items = [] := by
    simp [Instantiation.items, and_assoc]
  by_cases h : (⟨types, consts, specs⟩ : Instantiation).items = []
  · rw [if_pos (hitems.mpr h), if_pos h]
  · rw [if_neg fun hempty => h (hitems.mp hempty), if_neg h]

/-- Keys of plain instantiations separate them. -/
theorem buildMonoKeyFull_injective {specs : Bool} (fnName : String) {inst inst' : Instantiation}
    (h : inst.Plain layouts specs) (h' : inst'.Plain layouts specs)
    (hkey : buildMonoKeyFull fnName inst = buildMonoKeyFull fnName inst') : inst = inst' := by
  rw [buildMonoKeyFull_eq, buildMonoKeyFull_eq] at hkey
  have hlonger : ∀ s : String, fnName ≠ fnName ++ "::" ++ s := by
    intro s hs
    have hlen := congrArg String.length hs
    rw [String.length_append, String.length_append] at hlen
    have htwo : "::".length = 2 := rfl
    omega
  by_cases hitems : inst.items = []
  · by_cases hitems' : inst'.items = []
    · exact Instantiation.ext_items (hitems.trans hitems'.symm)
    · rw [if_pos hitems, if_neg hitems'] at hkey
      exact absurd hkey (hlonger _)
  · by_cases hitems' : inst'.items = []
    · rw [if_neg hitems, if_pos hitems'] at hkey
      exact absurd hkey.symm (hlonger _)
    · rw [if_neg hitems, if_neg hitems', h.join_parts, h'.join_parts] at hkey
      have hjoin := (String.append_right_inj _).mp hkey
      have hwords := intercalate_inj h.underscore_notMem h'.underscore_notMem (h.words_ne_nil hitems)
        (h'.words_ne_nil hitems') hjoin
      exact Instantiation.ext_items (flatMap_words_inj h.items h'.items hwords)

end ShapeLang.Monomorphization
