import ShapeLang.TypeSystem.UnifyAnnotations

/-!
# ShapeLang — the direction of widening

When `unify_annotations` accepts a value of one annotation where another is expected, every numeric type
of the value should land in a numeric type that holds all of its values. `Fits` says what that means,
over the values of the numeric types and not over the solver's ranges: the members of a union value fit
each, one member of an expected union is enough, and the parameters of a function go the other way.

The recursion of the source does not keep to that direction. It compares the parameters of functions in
the order of the functions, an expected union member by member with the *member* first, an array with
`Array<T>` always with `T` first, and it takes one fitting member of a union value for all of them.
`Compares` follows the pairs that the recursion comes to, through its early returns, and keeps for each on
which side the value is; `Direct` says of one such pair that none of this matters for it.

  * `losslessImplicitNames_values` — the lattice of names against the values of the types;
  * `unify_fits` — what is accepted fits, where every pair that is compared is direct.
-/

namespace ShapeLang.TypeSystem

/-! ## Loops that return early -/

section

variable {α : Type} {p : α → Option Bool} {l : List α}

theorem forall_of_allM (h : l.allM p = some true) : ∀ a ∈ l, p a = some true := by
  induction l with
  | nil => exact fun a ha => nomatch ha
  | cons a l ih =>
    rw [List.allM_cons] at h
    obtain ⟨b, hb, h⟩ := Option.bind_eq_some_iff.mp h
    cases b with
    | false => cases h
    | true =>
      intro c hc
      rcases List.mem_cons.mp hc with rfl | hc
      · exact hb
      · exact ih h c hc

/-- The loop stops at the first member that passes; those before it were refused. -/
theorem split_of_anyM (h : l.anyM p = some true) :
    ∃ pre a post, l = pre ++ a :: post ∧ (∀ b ∈ pre, p b = some false) ∧ p a = some true := by
  induction l with
  | nil => cases h
  | cons a l ih =>
    rw [List.anyM_cons] at h
    obtain ⟨b, hb, h⟩ := Option.bind_eq_some_iff.mp h
    cases b with
    | true => exact ⟨[], a, l, rfl, fun b hb => absurd hb List.not_mem_nil, hb⟩
    | false =>
      obtain ⟨pre, c, post, rfl, hpre, hc⟩ := ih h
      refine ⟨a :: pre, c, post, rfl, fun b' hb' => ?_, hc⟩
      rcases List.mem_cons.mp hb' with rfl | hb'
      · exact hb
      · exact hpre b' hb'

end

/-! ## Values of the numeric types -/

/-- The integers from `lo` to `hi`. -/
def intValues (lo hi : ℤ) : Set ℚ := {v | ∃ z : ℤ, v = z ∧ lo ≤ z ∧ z ≤ hi}

/-- The finite values of a binary floating-point format. -/
def floatValues (precision : ℕ) (emin emax : ℤ) : Set ℚ :=
  {v | ∃ m e : ℤ, v = m * 2 ^ e ∧ |m| < 2 ^ precision ∧ emin ≤ e ∧ e ≤ emax}

def binary64Values : Set ℚ := floatValues 53 (-1074) 971

def binary32Values : Set ℚ := floatValues 24 (-149) 104

/-- The values of the numeric type of a name. -/
def numericValues (name : String) : Option (Set ℚ) :=
  match name with
  | "i8" => some (intValues (-2 ^ 7) (2 ^ 7 - 1))
  | "u8" => some (intValues 0 (2 ^ 8 - 1))
  | "i16" => some (intValues (-2 ^ 15) (2 ^ 15 - 1))
  | "u16" => some (intValues 0 (2 ^ 16 - 1))
  | "i32" => some (intValues (-2 ^ 31) (2 ^ 31 - 1))
  | "u32" => some (intValues 0 (2 ^ 32 - 1))
  | "i64" | "int" | "Int" | "integer" | "Integer" | "isize" => some (intValues (-2 ^ 63) (2 ^ 63 - 1))
  | "u64" | "usize" => some (intValues 0 (2 ^ 64 - 1))
  | "f64" | "number" | "Number" | "float" | "Float" => some binary64Values
  | "f32" => some binary32Values
  | _ => none

/-- Every value of the first numeric type is a value of the second. -/
def Widens (src dst : String) : Prop :=
  ∃ S D, numericValues src = some S ∧ numericValues dst = some D ∧ S ⊆ D

/-- What the solver's range says about the values: the whole type for the integers, the format for
the floats. -/
def NumericDomain.Describes (domain : NumericDomain) (values : Set ℚ) : Prop :=
  (domain.isFloat = false ∧ values = intValues domain.lo domain.hi) ∨
    (domain = ⟨-2 ^ 53, 2 ^ 53, true⟩ ∧ values = binary64Values) ∨
    (domain = ⟨-2 ^ 24, 2 ^ 24, true⟩ ∧ values = binary32Values)

theorem numericDomain_describes {name : String} {domain : NumericDomain}
    (h : numericDomain name = some domain) :
    ∃ values, numericValues name = some values ∧ domain.Describes values := by
  unfold numericDomain at h
  split at h
  case h_1 lo hi hw =>
    obtain rfl := Option.some.inj h
    unfold intWidthRange at hw
    split at hw <;> cases hw
    all_goals exact ⟨_, rfl, Or.inl ⟨rfl, rfl⟩⟩
  case h_2 hw =>
    split at h <;> cases h
    all_goals
      rename_i hc
      unfold BuiltinTypes.canonicalNumericRuntimeName at hc
      split at hc <;> first | exact absurd hc (by decide) | skip
      all_goals first
        | exact ⟨_, rfl, Or.inl ⟨rfl, rfl⟩⟩
        | exact ⟨_, rfl, Or.inr (Or.inl ⟨rfl, rfl⟩)⟩
        | exact ⟨_, rfl, Or.inr (Or.inr ⟨rfl, rfl⟩)⟩

theorem intValues_mono {lo hi lo' hi' : ℤ} (hlo : lo' ≤ lo) (hhi : hi ≤ hi') :
    intValues lo hi ⊆ intValues lo' hi' := by
  rintro v ⟨z, rfl, hz, hz'⟩
  exact ⟨z, rfl, hlo.trans hz, hz'.trans hhi⟩

/-- The integers up to `2 ^ precision` are exact. At the bound itself the mantissa is one too large and
the exponent takes a factor of two. -/
theorem intValues_subset_floatValues {precision : ℕ} {emin emax lo hi : ℤ} (hp : 0 < precision)
    (hmin : emin ≤ 0) (hmax : 1 ≤ emax) (hlo : -2 ^ precision ≤ lo) (hhi : hi ≤ 2 ^ precision) :
    intValues lo hi ⊆ floatValues precision emin emax := by
  rintro v ⟨z, rfl, hz, hz'⟩
  obtain ⟨k, rfl⟩ : ∃ k, precision = k + 1 := ⟨precision - 1, by omega⟩
  have hpow : (2 : ℤ) ^ (k + 1) = 2 ^ k * 2 := pow_succ 2 k
  have hpos : (0 : ℤ) < 2 ^ k := by positivity
  have hbound : z = 2 ^ (k + 1) ∨ z = -2 ^ (k + 1) ∨ |z| < 2 ^ (k + 1) := by
    rcases eq_or_lt_of_le (hz'.trans hhi) with h | h
    · exact Or.inl h
    · rcases eq_or_lt_of_le (hlo.trans hz) with h' | h'
      · exact Or.inr (Or.inl h'.symm)
      · exact Or.inr (Or.inr (abs_lt.mpr ⟨h', h⟩))
  rcases hbound with rfl | rfl | h
  · refine ⟨2 ^ k, 1, by push_cast; rw [pow_succ], ?_, by omega, hmax⟩
    rw [abs_of_pos hpos]
    omega
  · refine ⟨-2 ^ k, 1, by push_cast; rw [pow_succ, neg_mul], ?_, by omega, hmax⟩
    rw [abs_neg, abs_of_pos hpos]
    omega
  · exact ⟨z, 0, by rw [zpow_zero, mul_one], h, hmin, by omega⟩

theorem binary32_subset_binary64 : binary32Values ⊆ binary64Values := by
  rintro v ⟨m, e, rfl, hm, he, he'⟩
  refine ⟨m, e, rfl, hm.trans ?_, by omega, by omega⟩
  norm_num

theorem losslessImplicitNames_values {src dst : String} (h : losslessImplicitNames src dst = true) :
    Widens src dst := by
  unfold losslessImplicitNames at h
  split at h
  case h_2 => cases h
  case h_1 s d hs hd =>
    obtain ⟨S, hS, hsS⟩ := numericDomain_describes hs
    obtain ⟨D, hD, hdD⟩ := numericDomain_describes hd
    refine ⟨S, D, hS, hD, ?_⟩
    unfold NumericDomain.isSubsetOf at h
    rcases hsS with ⟨hint, rfl⟩ | ⟨rfl, rfl⟩ | ⟨rfl, rfl⟩ <;>
      rcases hdD with ⟨hint', rfl⟩ | ⟨rfl, rfl⟩ | ⟨rfl, rfl⟩
    · rw [hint, hint'] at h
      obtain ⟨hlo, hhi⟩ : d.lo ≤ s.lo ∧ s.hi ≤ d.hi := by simpa using h
      exact intValues_mono hlo hhi
    · rw [hint] at h
      obtain ⟨hlo, hhi⟩ : -2 ^ 53 ≤ s.lo ∧ s.hi ≤ 2 ^ 53 := by simpa using h
      exact intValues_subset_floatValues (by decide) (by decide) (by decide) hlo hhi
    · rw [hint] at h
      obtain ⟨hlo, hhi⟩ : -2 ^ 24 ≤ s.lo ∧ s.hi ≤ 2 ^ 24 := by simpa using h
      exact intValues_subset_floatValues (by decide) (by decide) (by decide) hlo hhi
    -- a float is never an integer
    · simp [hint'] at h
    · exact subset_rfl
    · exact absurd h (by decide)
    · simp [hint'] at h
    · exact binary32_subset_binary64
    · exact subset_rfl

/-! ## Fitting -/

namespace TypeAnnot

/-- The element type of an array, in either spelling. -/
def elemType : TypeAnnot → Option TypeAnnot
  | array elem => some elem
  | generic "Array" [arg] => some arg
  | _ => none

end TypeAnnot

/-- A value annotated with the first is a value for the second: each numeric type of it goes to one that
holds its values. -/
inductive Fits : TypeAnnot → TypeAnnot → Prop where
  | name {x y : TypeAnnot} {s d : String} (hx : x.asTypeNameStr = some s) (hy : y.asTypeNameStr = some d)
      (h : s = d ∨ Widens s d) : Fits x y
  | array {x y a b : TypeAnnot} (hx : x.elemType = some a) (hy : y.elemType = some b) (h : Fits a b) :
      Fits x y
  | tuple {xs ys : List TypeAnnot} (hlen : xs.length = ys.length)
      (h : ∀ a b, (a, b) ∈ xs.zip ys → Fits a b) : Fits (.tuple xs) (.tuple ys)
  | object {left right : List (ObjectTypeField TypeAnnot)} (hlen : left.length = right.length)
      (goesTo : ObjectTypeField TypeAnnot → ObjectTypeField TypeAnnot)
      (hto : ∀ f ∈ left, goesTo f ∈ right ∧ (goesTo f).name = f.name ∧ (goesTo f).optional = f.optional)
      (h : ∀ f ∈ left, Fits f.typeAnnot (goesTo f).typeAnnot) : Fits (.object left) (.object right)
  | function {ps qs : List (FunctionParam TypeAnnot)} {r t : TypeAnnot} {e e' : Option EffectRowAnnot}
      (hlen : ps.length = qs.length)
      (hparams : ∀ p q, (p, q) ∈ ps.zip qs → Fits q.typeAnnot p.typeAnnot) (hreturns : Fits r t) :
      Fits (.function ps r e) (.function qs t e')
  | unionSrc {us : List TypeAnnot} {y : TypeAnnot} (h : ∀ u ∈ us, Fits u y) : Fits (.union us) y
  | unionDst {x u : TypeAnnot} {us : List TypeAnnot} (hu : u ∈ us) (h : Fits x u) : Fits x (.union us)

/-- Annotations made of names, arrays, tuples, objects, functions and unions, without the wildcards. -/
inductive Plain : TypeAnnot → Prop where
  | basic {name : String} (h : name ≠ "AnyError") : Plain (.basic name)
  | reference {name : String} (h : name ≠ "AnyError") : Plain (.reference name)
  | array {elem : TypeAnnot} (h : Plain elem) : Plain (.array elem)
  | genericArray {arg : TypeAnnot} (h : Plain arg) : Plain (.generic "Array" [arg])
  | tuple {elems : List TypeAnnot} (h : ∀ e ∈ elems, Plain e) : Plain (.tuple elems)
  | object {fields : List (ObjectTypeField TypeAnnot)} (h : ∀ f ∈ fields, Plain f.typeAnnot) :
      Plain (.object fields)
  | function {params : List (FunctionParam TypeAnnot)} {returns : TypeAnnot}
      {effects : Option EffectRowAnnot} (hparams : ∀ p ∈ params, Plain p.typeAnnot)
      (hreturns : Plain returns) : Plain (.function params returns effects)
  | union {types : List TypeAnnot} (h : ∀ t ∈ types, Plain t) : Plain (.union types)

/-! ## The pairs that are compared -/

/-- On which side of a comparison the value is. -/
inductive Flow where
  | forward | backward
  deriving DecidableEq, Repr

namespace Flow

def flip : Flow → Flow
  | forward => backward
  | backward => forward

/-- The annotation of the value, of a compared pair. -/
def source : Flow → TypeAnnot → TypeAnnot → TypeAnnot
  | forward, x, _ => x
  | backward, _, y => y

def target : Flow → TypeAnnot → TypeAnnot → TypeAnnot
  | forward, _, y => y
  | backward, x, _ => x

end Flow

/-- A comparison: where the value is, and the two annotations in the order of the call. -/
structure Comparison where
  flow : Flow
  left : TypeAnnot
  right : TypeAnnot

section

variable (solver : ConstraintSolver)

def Accepts (x y : TypeAnnot) : Prop := ∃ n, unifyAnnotations solver n x y = some true

def Refuses (x y : TypeAnnot) : Prop := ∃ n, unifyAnnotations solver n x y = some false

/-- The walk over the fields of an object gets past this one. -/
def FieldAccepted (right : List (ObjectTypeField TypeAnnot)) (f : ObjectTypeField TypeAnnot) : Prop :=
  ∃ g, right.find? (·.name == f.name) = some g ∧ f.optional = g.optional ∧
    Accepts solver f.typeAnnot g.typeAnnot

/-- The comparisons that one comparison comes to. A loop over parts that must all be accepted stops at
the first that is refused, a loop over alternatives at the first that is accepted. -/
inductive Compares : Comparison → Comparison → Prop where
  | array {d : Flow} {e₁ e₂ : TypeAnnot} : Compares ⟨d, .array e₁, .array e₂⟩ ⟨d, e₁, e₂⟩
  | genericArray {d : Flow} {arg elem : TypeAnnot} :
      Compares ⟨d, .generic "Array" [arg], .array elem⟩ ⟨d, arg, elem⟩
  -- the argument comes first, also when the array is the value
  | arrayGeneric {d : Flow} {arg elem : TypeAnnot} :
      Compares ⟨d, .array elem, .generic "Array" [arg]⟩ ⟨d.flip, arg, elem⟩
  | tuple {d : Flow} {xs ys : List TypeAnnot} {pre post : List (TypeAnnot × TypeAnnot)} {a b : TypeAnnot}
      (hlen : xs.length = ys.length) (hzip : xs.zip ys = pre ++ (a, b) :: post)
      (hpre : ∀ pair ∈ pre, Accepts solver pair.1 pair.2) : Compares ⟨d, .tuple xs, .tuple ys⟩ ⟨d, a, b⟩
  | object {d : Flow} {right pre post : List (ObjectTypeField TypeAnnot)} {f g : ObjectTypeField TypeAnnot}
      (hpre : ∀ f' ∈ pre, FieldAccepted solver right f') (hg : right.find? (·.name == f.name) = some g)
      (hopt : f.optional = g.optional) :
      Compares ⟨d, .object (pre ++ f :: post), .object right⟩ ⟨d, f.typeAnnot, g.typeAnnot⟩
  -- a parameter takes what the other function is given
  | param {d : Flow} {ps qs : List (FunctionParam TypeAnnot)} {r t : TypeAnnot}
      {e e' : Option EffectRowAnnot} {pre post : List (FunctionParam TypeAnnot × FunctionParam TypeAnnot)}
      {p q : FunctionParam TypeAnnot} (hlen : ps.length = qs.length)
      (hzip : ps.zip qs = pre ++ (p, q) :: post)
      (hpre : ∀ pair ∈ pre, Accepts solver pair.1.typeAnnot pair.2.typeAnnot) :
      Compares ⟨d, .function ps r e, .function qs t e'⟩ ⟨d.flip, p.typeAnnot, q.typeAnnot⟩
  | returns {d : Flow} {ps qs : List (FunctionParam TypeAnnot)} {r t : TypeAnnot}
      {e e' : Option EffectRowAnnot} (hlen : ps.length = qs.length)
      (hparams : ∀ pair ∈ ps.zip qs, Accepts solver pair.1.typeAnnot pair.2.typeAnnot) :
      Compares ⟨d, .function ps r e, .function qs t e'⟩ ⟨d, r, t⟩
  -- the first loop over two unions looks for a match of each member of the first
  | memberLeft {d : Flow} {pre post pre' post' : List TypeAnnot} {u v : TypeAnnot}
      (hpre : ∀ u' ∈ pre, ∃ v' ∈ pre' ++ v :: post', Accepts solver u' v')
      (htried : ∀ v' ∈ pre', Refuses solver u v') :
      Compares ⟨d, .union (pre ++ u :: post), .union (pre' ++ v :: post')⟩ ⟨d, u, v⟩
  | memberRight {d : Flow} {pre post pre' post' : List TypeAnnot} {u v : TypeAnnot}
      (hleft : ∀ u' ∈ pre ++ u :: post, ∃ v' ∈ pre' ++ v :: post', Accepts solver u' v')
      (hpre : ∀ v' ∈ pre', ∃ u' ∈ pre ++ u :: post, Accepts solver u' v')
      (htried : ∀ u' ∈ pre, Refuses solver u' v) :
      Compares ⟨d, .union (pre ++ u :: post), .union (pre' ++ v :: post')⟩ ⟨d, u, v⟩
  | unionLeft {d : Flow} {pre post : List TypeAnnot} {u y : TypeAnnot} (hy : ∀ vs, y ≠ .union vs)
      (htried : ∀ u' ∈ pre, Refuses solver u' y) : Compares ⟨d, .union (pre ++ u :: post), y⟩ ⟨d, u, y⟩
  -- the member comes first, also when the union is expected
  | unionRight {d : Flow} {pre post : List TypeAnnot} {u x : TypeAnnot} (hx : ∀ vs, x ≠ .union vs)
      (htried : ∀ u' ∈ pre, Refuses solver u' x) : Compares ⟨d, x, .union (pre ++ u :: post)⟩ ⟨d.flip, u, x⟩

/-- Nothing in this comparison turns on the direction that the source loses. -/
structure Direct (c : Comparison) : Prop where
  /-- Names compared against the flow of the value widen both ways or not at all. -/
  names : c.flow = .backward → losslessImplicit c.left c.right = true →
    losslessImplicit c.right c.left = true
  /-- Of a union value that meets one type, every member fits that type or none is accepted. -/
  union : ∀ us, c.flow.source c.left c.right = .union us →
    (∀ vs, c.flow.target c.left c.right ≠ .union vs) →
    (∃ u ∈ us, Accepts solver u (c.flow.target c.left c.right)) →
    ∀ u ∈ us, Fits u (c.flow.target c.left c.right)
  /-- An object accepted against the flow: each field of the value was the one compared with some field. -/
  fields : c.flow = .backward → ∀ left right, c.left = .object left → c.right = .object right →
    left.length = right.length → (∀ f ∈ left, FieldAccepted solver right f) →
    ∀ g ∈ right, ∃ f ∈ left, right.find? (·.name == f.name) = some g
  /-- A name that meets an object is not the name of a struct with its fields. -/
  schema : ∀ fields name, c.left = .object fields ∧ c.right.asTypeNameStr = some name ∨
    c.right = .object fields ∧ c.left.asTypeNameStr = some name →
    ∀ structFields ∈ solver.structFields name, fields.length = structFields.length →
      ∃ f ∈ fields, ¬ FieldAccepted solver structFields f

end

/-! ## What is accepted fits -/

/-- The value's annotation fits the other one. -/
def Comparison.Fit (c : Comparison) : Prop :=
  Fits (c.flow.source c.left c.right) (c.flow.target c.left c.right)

/-- Every comparison that this one comes to is direct. -/
def DirectFrom (solver : ConstraintSolver) (c : Comparison) : Prop :=
  ∀ c', Relation.ReflTransGen (Compares solver) c c' → Direct solver c'

theorem DirectFrom.self {solver : ConstraintSolver} {c : Comparison} (h : DirectFrom solver c) :
    Direct solver c := h c .refl

theorem DirectFrom.next {solver : ConstraintSolver} {c c' : Comparison} (h : DirectFrom solver c)
    (hc : Compares solver c c') : DirectFrom solver c' := fun c'' hr => h c'' (.head hc hr)

section

variable {solver : ConstraintSolver} {n : Nat} {d : Flow} {x y : TypeAnnot}

/-- The comparisons to depth `n` fit when they accept. -/
def AcceptedFit (solver : ConstraintSolver) (n : Nat) : Prop :=
  ∀ d x y, Plain x → Plain y → DirectFrom solver ⟨d, x, y⟩ → unifyAnnotations solver n x y = some true →
    Comparison.Fit ⟨d, x, y⟩

theorem fit_names {s t : String} (hx : x.asTypeNameStr = some s) (hy : y.asTypeNameStr = some t)
    (hd : Direct solver ⟨d, x, y⟩) (h : (s == t || losslessImplicitNames s t) = true) :
    Comparison.Fit ⟨d, x, y⟩ := by
  have hxy : losslessImplicit x y = losslessImplicitNames s t := by rw [losslessImplicit, hx, hy]
  have hyx : losslessImplicit y x = losslessImplicitNames t s := by rw [losslessImplicit, hx, hy]
  rcases Bool.or_eq_true_iff.mp h with h | h
  · have heq : s = t := eq_of_beq h
    cases d with
    | forward => exact .name hx hy (Or.inl heq)
    | backward => exact .name hy hx (Or.inl heq.symm)
  · cases d with
    | forward => exact .name hx hy (Or.inr (losslessImplicitNames_values h))
    | backward =>
      have hback := hd.names rfl (hxy.trans h)
      exact .name hy hx (Or.inr (losslessImplicitNames_values (hyx.symm.trans hback)))

theorem fit_elems {a b : TypeAnnot} (hx : x.elemType = some a) (hy : y.elemType = some b)
    (h : Comparison.Fit ⟨d, a, b⟩) : Comparison.Fit ⟨d, x, y⟩ := by
  cases d with
  | forward => exact .array hx hy h
  | backward => exact .array hy hx h

theorem Comparison.Fit.flip {a b : TypeAnnot} (h : Comparison.Fit ⟨d.flip, a, b⟩) :
    Comparison.Fit ⟨d, b, a⟩ := by
  cases d <;> exact h

theorem mem_zip_swap {α β : Type} {xs : List α} {ys : List β} {a : α} {b : β} (h : (b, a) ∈ ys.zip xs) :
    (a, b) ∈ xs.zip ys := by
  rw [← List.zip_swap]
  exact List.mem_map.mpr ⟨(b, a), h, rfl⟩

theorem fit_tuple {xs ys : List TypeAnnot} (hlen : xs.length = ys.length)
    (h : ∀ a b, (a, b) ∈ xs.zip ys → Comparison.Fit ⟨d, a, b⟩) :
    Comparison.Fit ⟨d, .tuple xs, .tuple ys⟩ := by
  cases d with
  | forward => exact .tuple hlen h
  | backward => exact .tuple hlen.symm fun a b hab => h b a (mem_zip_swap hab)

theorem fit_function {ps qs : List (FunctionParam TypeAnnot)} {r t : TypeAnnot}
    {e e' : Option EffectRowAnnot} (hlen : ps.length = qs.length)
    (hparams : ∀ p q, (p, q) ∈ ps.zip qs → Comparison.Fit ⟨d.flip, p.typeAnnot, q.typeAnnot⟩)
    (hreturns : Comparison.Fit ⟨d, r, t⟩) :
    Comparison.Fit ⟨d, .function ps r e, .function qs t e'⟩ := by
  cases d with
  | forward => exact .function hlen hparams hreturns
  | backward =>
    exact .function hlen.symm (fun q p hqp => hparams p q (mem_zip_swap hqp)) hreturns

variable {left right : List (ObjectTypeField TypeAnnot)}

theorem fit_object (hlen : left.length = right.length)
    (hfields : ∀ f ∈ left, ∃ g, right.find? (·.name == f.name) = some g ∧ f.optional = g.optional ∧
      Comparison.Fit ⟨d, f.typeAnnot, g.typeAnnot⟩)
    (hcovered : d = .backward → ∀ g ∈ right, ∃ f ∈ left, right.find? (·.name == f.name) = some g) :
    Comparison.Fit ⟨d, .object left, .object right⟩ := by
  cases d with
  | forward =>
    have hto : ∀ f ∈ left, ∃ g ∈ right, g.name = f.name ∧ g.optional = f.optional ∧
        Fits f.typeAnnot g.typeAnnot := by
      intro f hf
      obtain ⟨g, hg, hopt, hfit⟩ := hfields f hf
      have hname : g.name = f.name := by simpa using List.find?_some hg
      exact ⟨g, List.mem_of_find?_eq_some hg, hname, hopt.symm, hfit⟩
    choose! goesTo hmem hname hopt hfit using hto
    exact .object hlen goesTo (fun f hf => ⟨hmem f hf, hname f hf, hopt f hf⟩) hfit
  | backward =>
    -- back along the comparisons: each field of the value goes to a field it was compared with
    have hto : ∀ g ∈ right, ∃ f ∈ left, f.name = g.name ∧ f.optional = g.optional ∧
        Fits g.typeAnnot f.typeAnnot := by
      intro g hg
      obtain ⟨f, hf, hfind⟩ := hcovered rfl g hg
      obtain ⟨g', hg', hopt, hfit⟩ := hfields f hf
      obtain rfl : g' = g := Option.some.inj (hg'.symm.trans hfind)
      have hname : g'.name = f.name := by simpa using List.find?_some hfind
      exact ⟨f, hf, hname.symm, hopt, hfit⟩
    choose! goesTo hmem hname hopt hfit using hto
    exact .object hlen.symm goesTo (fun g hg => ⟨hmem g hg, hname g hg, hopt g hg⟩) hfit

variable {us : List TypeAnnot} {u : TypeAnnot}

theorem fit_unionLeft (hd : Direct solver ⟨d, .union us, y⟩) (hy : ∀ vs, y ≠ .union vs) (hu : u ∈ us)
    (haccepts : Accepts solver u y) (h : Comparison.Fit ⟨d, u, y⟩) : Comparison.Fit ⟨d, .union us, y⟩ := by
  cases d with
  | forward => exact .unionSrc (hd.union us rfl hy ⟨u, hu, haccepts⟩)
  | backward => exact .unionDst hu h

theorem fit_unionRight (hd : Direct solver ⟨d, x, .union us⟩) (hx : ∀ vs, x ≠ .union vs) (hu : u ∈ us)
    (haccepts : Accepts solver u x) (h : Comparison.Fit ⟨d, x, u⟩) : Comparison.Fit ⟨d, x, .union us⟩ := by
  cases d with
  | forward => exact .unionDst hu h
  | backward => exact .unionSrc (hd.union us rfl hx ⟨u, hu, haccepts⟩)

theorem fit_unions {vs : List TypeAnnot} (hleft : ∀ u ∈ us, ∃ v ∈ vs, Comparison.Fit ⟨d, u, v⟩)
    (hright : ∀ v ∈ vs, ∃ u ∈ us, Comparison.Fit ⟨d, u, v⟩) :
    Comparison.Fit ⟨d, .union us, .union vs⟩ := by
  cases d with
  | forward =>
    refine .unionSrc fun u hu => ?_
    obtain ⟨v, hv, h⟩ := hleft u hu
    exact .unionDst hv h
  | backward =>
    refine .unionSrc fun v hv => ?_
    obtain ⟨u, hu, h⟩ := hright v hv
    exact .unionDst hu h

/-! ### The accepting arms -/

variable {unify : TypeAnnot → TypeAnnot → Option Bool}

theorem objectFieldsCompatible_eq_true (h : objectFieldsCompatible unify left right = some true) :
    left.length = right.length ∧ ∀ f ∈ left, ∃ g, right.find? (·.name == f.name) = some g ∧
      f.optional = g.optional ∧ unify f.typeAnnot g.typeAnnot = some true := by
  obtain ⟨b, hb, h⟩ := Option.bind_eq_some_iff.mp h
  cases b with
  | false => cases h
  | true =>
    refine ⟨eq_of_beq (Option.some.inj h), fun f hf => ?_⟩
    have hfield := forall_of_allM hb f hf
    unfold fieldCompatible at hfield
    split at hfield
    case h_1 => cases hfield
    case h_2 g hg =>
      split at hfield
      · cases hfield
      · rename_i hopt
        exact ⟨g, hg, by simpa using hopt, hfield⟩

theorem unifyUnions_eq_true {vs : List TypeAnnot} (h : unifyUnions unify us vs = some true) :
    (∀ u ∈ us, ∃ pre v post, vs = pre ++ v :: post ∧ (∀ v' ∈ pre, unify u v' = some false) ∧
      unify u v = some true) ∧
    ∀ v ∈ vs, ∃ pre u post, us = pre ++ u :: post ∧ (∀ u' ∈ pre, unify u' v = some false) ∧
      unify u v = some true := by
  obtain ⟨b, hb, h⟩ := Option.bind_eq_some_iff.mp h
  cases b with
  | false => cases h
  | true =>
    exact ⟨fun u hu => split_of_anyM (forall_of_allM hb u hu),
      fun v hv => split_of_anyM (forall_of_allM h v hv)⟩

theorem Plain.not_wildcard (h : Plain x) : isAnyError x = false ∧ isTyvar x = false := by
  cases h with
  | basic h => exact ⟨by simpa [isAnyError, TypeAnnot.asTypeNameStr] using h, rfl⟩
  | reference h => exact ⟨by simpa [isAnyError, TypeAnnot.asTypeNameStr] using h, rfl⟩
  | _ => exact ⟨rfl, rfl⟩

theorem unifyAnnotations_plain (hx : Plain x) (hy : Plain y) :
    unifyAnnotations solver (n + 1) x y = unifyShapes solver (unifyAnnotations solver n) x y := by
  show unifyStep solver (unifyAnnotations solver n) x y = _
  rw [unifyStep, hx.not_wildcard.1, hx.not_wildcard.2, hy.not_wildcard.1, hy.not_wildcard.2]
  rfl

/-! ### One comparison and all of them -/

theorem AcceptedFit.unionLeft (ih : AcceptedFit solver n) {us : List TypeAnnot}
    (hus : ∀ u ∈ us, Plain u) (hy : Plain y) (hne : ∀ vs, y ≠ .union vs)
    (hd : DirectFrom solver ⟨d, .union us, y⟩)
    (h : (us.anyM fun u => unifyAnnotations solver n u y) = some true) :
    Comparison.Fit ⟨d, .union us, y⟩ := by
  obtain ⟨pre, u, post, rfl, hpre, h⟩ := split_of_anyM h
  have hu : u ∈ pre ++ u :: post := by simp
  have hnext := hd.next (.unionLeft hne fun u' hu' => ⟨n, hpre u' hu'⟩)
  exact fit_unionLeft hd.self hne hu ⟨n, h⟩ (ih d u y (hus u hu) hy hnext h)

theorem AcceptedFit.unionRight (ih : AcceptedFit solver n) {us : List TypeAnnot}
    (hus : ∀ u ∈ us, Plain u) (hx : Plain x) (hne : ∀ vs, x ≠ .union vs)
    (hd : DirectFrom solver ⟨d, x, .union us⟩)
    (h : (us.anyM fun u => unifyAnnotations solver n u x) = some true) :
    Comparison.Fit ⟨d, x, .union us⟩ := by
  obtain ⟨pre, u, post, rfl, hpre, h⟩ := split_of_anyM h
  have hu : u ∈ pre ++ u :: post := by simp
  have hnext := hd.next (.unionRight hne fun u' hu' => ⟨n, hpre u' hu'⟩)
  have hfit := ih d.flip u x (hus u hu) hx hnext h
  exact fit_unionRight hd.self hne hu ⟨n, h⟩ hfit.flip

/-- Both loops over two unions: a match is found for each member, behind members that were refused. -/
theorem AcceptedFit.unions (ih : AcceptedFit solver n) {us vs : List TypeAnnot} (hus : ∀ u ∈ us, Plain u)
    (hvs : ∀ v ∈ vs, Plain v) (hd : DirectFrom solver ⟨d, .union us, .union vs⟩)
    (h : unifyUnions (unifyAnnotations solver n) us vs = some true) :
    Comparison.Fit ⟨d, .union us, .union vs⟩ := by
  obtain ⟨hleft, hright⟩ := unifyUnions_eq_true h
  have hmatched : ∀ u ∈ us, ∃ v ∈ vs, Accepts solver u v := by
    intro u hu
    obtain ⟨pre, v, post, rfl, -, h⟩ := hleft u hu
    exact ⟨v, by simp, n, h⟩
  have hmatched' : ∀ v ∈ vs, ∃ u ∈ us, Accepts solver u v := by
    intro v hv
    obtain ⟨pre, u, post, rfl, -, h⟩ := hright v hv
    exact ⟨u, by simp, n, h⟩
  refine fit_unions (fun u hu => ?_) fun v hv => ?_
  · obtain ⟨pre', v, post', rfl, htried, hpair⟩ := hleft u hu
    obtain ⟨pre, post, rfl⟩ := List.append_of_mem hu
    have hv : v ∈ pre' ++ v :: post' := by simp
    have hnext := hd.next (.memberLeft (fun u' hu' => hmatched u' (by simp [hu'])) fun v' hv' =>
      ⟨n, htried v' hv'⟩)
    exact ⟨v, hv, ih d u v (hus u hu) (hvs v hv) hnext hpair⟩
  · obtain ⟨pre, u, post, rfl, htried, hpair⟩ := hright v hv
    obtain ⟨pre', post', rfl⟩ := List.append_of_mem hv
    have hu : u ∈ pre ++ u :: post := by simp
    have hnext := hd.next
      (.memberRight hmatched (fun v' hv' => hmatched' v' (by simp [hv'])) fun u' hu' => ⟨n, htried u' hu'⟩)
    exact ⟨u, hu, ih d u v (hus u hu) (hvs v hv) hnext hpair⟩

theorem AcceptedFit.object (ih : AcceptedFit solver n) {left right : List (ObjectTypeField TypeAnnot)}
    (hleft : ∀ f ∈ left, Plain f.typeAnnot) (hright : ∀ g ∈ right, Plain g.typeAnnot)
    (hd : DirectFrom solver ⟨d, .object left, .object right⟩)
    (h : objectFieldsCompatible (unifyAnnotations solver n) left right = some true) :
    Comparison.Fit ⟨d, .object left, .object right⟩ := by
  obtain ⟨hlen, hfields⟩ := objectFieldsCompatible_eq_true h
  have haccepted : ∀ f ∈ left, FieldAccepted solver right f := by
    intro f hf
    obtain ⟨g, hg, hopt, h⟩ := hfields f hf
    exact ⟨g, hg, hopt, n, h⟩
  refine fit_object hlen (fun f hf => ?_) fun hback => hd.self.fields hback left right rfl rfl hlen
    haccepted
  obtain ⟨g, hg, hopt, hfield⟩ := hfields f hf
  obtain ⟨pre, post, rfl⟩ := List.append_of_mem hf
  have hnext := hd.next (.object (fun f' hf' => haccepted f' (by simp [hf'])) hg hopt)
  exact ⟨g, hg, hopt, ih d _ _ (hleft f hf) (hright g (List.mem_of_find?_eq_some hg)) hnext hfield⟩

theorem AcceptedFit.tuple (ih : AcceptedFit solver n) {xs ys : List TypeAnnot}
    (hxs : ∀ a ∈ xs, Plain a) (hys : ∀ b ∈ ys, Plain b) (hd : DirectFrom solver ⟨d, .tuple xs, .tuple ys⟩)
    (h : (if xs.length != ys.length then some false else unifyZip (unifyAnnotations solver n) xs ys) =
      some true) : Comparison.Fit ⟨d, .tuple xs, .tuple ys⟩ := by
  split at h
  · cases h
  · rename_i hlen
    have hlen : xs.length = ys.length := by simpa using hlen
    refine fit_tuple hlen fun a b hab => ?_
    obtain ⟨ha, hb⟩ := List.of_mem_zip hab
    obtain ⟨pre, post, hzip⟩ := List.append_of_mem hab
    have hnext := hd.next
        (.tuple hlen hzip fun pair hpair => ⟨n, forall_of_allM h pair (by simp [hzip, hpair])⟩)
    exact ih d a b (hxs a ha) (hys b hb) hnext (forall_of_allM h (a, b) hab)

theorem AcceptedFit.function (ih : AcceptedFit solver n) {ps qs : List (FunctionParam TypeAnnot)}
    {r t : TypeAnnot} {e e' : Option EffectRowAnnot} (hps : ∀ p ∈ ps, Plain p.typeAnnot)
    (hqs : ∀ q ∈ qs, Plain q.typeAnnot) (hr : Plain r) (ht : Plain t)
    (hd : DirectFrom solver ⟨d, .function ps r e, .function qs t e'⟩)
    (h : unifyShapes solver (unifyAnnotations solver n) (.function ps r e) (.function qs t e') =
      some true) : Comparison.Fit ⟨d, .function ps r e, .function qs t e'⟩ := by
  simp only [unifyShapes] at h
  split at h
  · cases h
  · rename_i hlen
    have hlen : ps.length = qs.length := by simpa using hlen
    obtain ⟨b, hb, h⟩ := Option.bind_eq_some_iff.mp h
    cases b with
    | false => cases h
    | true =>
      have hparams : ∀ pair ∈ ps.zip qs, Accepts solver pair.1.typeAnnot pair.2.typeAnnot :=
        fun pair hpair => ⟨n, forall_of_allM hb pair hpair⟩
      refine fit_function hlen (fun p q hpq => ?_) (ih d r t hr ht (hd.next (.returns hlen hparams)) h)
      obtain ⟨hp, hq⟩ := List.of_mem_zip hpq
      obtain ⟨pre, post, hzip⟩ := List.append_of_mem hpq
      have hnext := hd.next (.param hlen hzip fun pair hpair => hparams pair (by simp [hzip, hpair]))
      exact ih d.flip _ _ (hps p hp) (hqs q hq) hnext (forall_of_allM hb (p, q) hpq)

/-- A name that meets an object is no struct with its fields, so the pair is not accepted. -/
theorem Direct.refuses_struct {fields : List (ObjectTypeField TypeAnnot)} {name : String}
    (hd : Direct solver ⟨d, x, y⟩)
    (hxy : x = .object fields ∧ y.asTypeNameStr = some name ∨ y = .object fields ∧ x.asTypeNameStr =
      some name) :
    unifyObjectWithNamedStruct solver (unifyAnnotations solver n) fields name ≠ some true := by
  intro h
  unfold unifyObjectWithNamedStruct at h
  split at h
  · rename_i structFields hstruct
    obtain ⟨hlen, hfields⟩ := objectFieldsCompatible_eq_true h
    obtain ⟨f, hf, hnot⟩ := hd.schema fields name hxy structFields hstruct hlen
    obtain ⟨g, hg, hopt, h⟩ := hfields f hf
    exact hnot ⟨g, hg, hopt, n, h⟩
  · cases h

/-- One comparison: every arm that accepts keeps the direction when the comparison is direct. -/
theorem AcceptedFit.succ (ih : AcceptedFit solver n) : AcceptedFit solver (n + 1) := by
  intro d x y hx hy hd h
  rw [unifyAnnotations_plain hx hy] at h
  cases hx with
  | basic hs =>
    cases hy with
    | basic ht => exact fit_names rfl rfl hd.self (Option.some.inj h)
    | reference ht => exact fit_names rfl rfl hd.self (Option.some.inj h)
    | object hf => exact absurd h (hd.self.refuses_struct (Or.inr ⟨rfl, rfl⟩))
    | union hus => exact ih.unionRight hus (.basic hs) nofun hd h
    | _ => cases h
  | reference hs =>
    cases hy with
    | basic ht => exact fit_names rfl rfl hd.self (Option.some.inj h)
    | reference ht => exact fit_names rfl rfl hd.self (Option.some.inj h)
    | object hf => exact absurd h (hd.self.refuses_struct (Or.inr ⟨rfl, rfl⟩))
    | union hus => exact ih.unionRight hus (.reference hs) nofun hd h
    | _ => cases h
  | array he =>
    cases hy with
    | array he' => exact fit_elems rfl rfl (ih d _ _ he he' (hd.next .array) h)
    | genericArray ha =>
      -- the array on the right comes first here, so the direction turns
      exact fit_elems rfl rfl (ih d.flip _ _ ha he (hd.next .arrayGeneric) h).flip
    | union hus => exact ih.unionRight hus (.array he) nofun hd h
    | _ => cases h
  | genericArray ha =>
    cases hy with
    | array he => exact fit_elems rfl rfl (ih d _ _ ha he (hd.next .genericArray) h)
    | union hus => exact ih.unionRight hus (.genericArray ha) nofun hd h
    | _ => cases h
  | tuple hxs =>
    cases hy with
    | tuple hys => exact ih.tuple hxs hys hd h
    | union hus => exact ih.unionRight hus (.tuple hxs) nofun hd h
    | _ => cases h
  | object hleft =>
    cases hy with
    | basic ht => exact absurd h (hd.self.refuses_struct (Or.inl ⟨rfl, rfl⟩))
    | reference ht => exact absurd h (hd.self.refuses_struct (Or.inl ⟨rfl, rfl⟩))
    | object hright => exact ih.object hleft hright hd h
    | union hus => exact ih.unionRight hus (.object hleft) nofun hd h
    | _ => cases h
  -- parameters and result go one by one
  | function hps hr =>
    cases hy with
    | function hqs ht => exact ih.function hps hqs hr ht hd h
    | union hus => exact ih.unionRight hus (.function hps hr) nofun hd h
    | _ => cases h
  | union hus =>
    cases hy with
    | union hvs => exact ih.unions hus hvs hd h
    | basic ht => exact ih.unionLeft hus (.basic ht) nofun hd h
    | reference ht => exact ih.unionLeft hus (.reference ht) nofun hd h
    | array he => exact ih.unionLeft hus (.array he) nofun hd h
    | genericArray ha => exact ih.unionLeft hus (.genericArray ha) nofun hd h
    | tuple hys => exact ih.unionLeft hus (.tuple hys) nofun hd h
    | object hright => exact ih.unionLeft hus (.object hright) nofun hd h
    | function hqs ht => exact ih.unionLeft hus (.function hqs ht) nofun hd h

theorem acceptedFit (solver : ConstraintSolver) (n : Nat) : AcceptedFit solver n := by
  induction n with
  | zero => exact fun d x y _ _ _ h => nomatch h
  | succ n ih => exact ih.succ

end

theorem not_fits_names {s t : String} (hne : s ≠ t) (hw : ¬ Widens s t) :
    ¬ Fits (.basic s) (.basic t) := by
  intro h
  cases h with
  | name hx hy h =>
    obtain rfl := Option.some.inj hx
    obtain rfl := Option.some.inj hy
    exact h.elim hne hw
  | array hx => cases hx

theorem plain_names {l : List String} (hl : "AnyError" ∉ l) : Plain (.union (l.map .basic)) := by
  refine .union fun u hu => ?_
  obtain ⟨name, hname, rfl⟩ := List.mem_map.mp hu
  exact .basic fun h => hl (h ▸ hname)

/-! ### A solver without tables -/

def emptySolver : ConstraintSolver := ⟨[], ∅⟩

/-- `(param) -> Vec<elem>`. -/
def toVec (param elem : String) : TypeAnnot :=
  .function [⟨none, false, .basic param⟩] (.array (.basic elem)) none

/-- The comparisons of `toVec` with `toVec`. -/
def toVecComparisons : List Comparison :=
  [⟨.forward, toVec "int" "i8", toVec "i64" "i16"⟩, ⟨.backward, .basic "int", .basic "i64"⟩,
    ⟨.forward, .array (.basic "i8"), .array (.basic "i16")⟩, ⟨.forward, .basic "i8", .basic "i16"⟩]

theorem toVecComparisons_closed {c c' : Comparison} (hc : c ∈ toVecComparisons)
    (h : Compares emptySolver c c') : c' ∈ toVecComparisons := by
  simp only [toVecComparisons, List.mem_cons, List.not_mem_nil, or_false] at hc ⊢
  rcases hc with rfl | rfl | rfl | rfl
  · cases h with
    | @param _ _ _ _ _ _ _ pre post p q hlen hzip _ =>
      have hmem : (p, q) ∈ pre ++ (p, q) :: post := by simp
      rw [← hzip] at hmem
      obtain ⟨rfl, rfl⟩ := Prod.mk.inj (List.mem_singleton.mp hmem)
      exact Or.inr (Or.inl rfl)
    | returns hlen => exact Or.inr (Or.inr (Or.inl rfl))
  · cases h
  · cases h
    exact Or.inr (Or.inr (Or.inr rfl))
  · cases h

theorem toVecComparisons_direct {c : Comparison} (hc : c ∈ toVecComparisons) : Direct emptySolver c := by
  simp only [toVecComparisons, List.mem_cons, List.not_mem_nil, or_false] at hc
  have hunion : ∀ us, c.flow.source c.left c.right ≠ .union us := by
    rcases hc with rfl | rfl | rfl | rfl <;> intro us hus <;> cases hus
  have hobject : ∀ fields, c.left ≠ .object fields := by
    rcases hc with rfl | rfl | rfl | rfl <;> intro fields hfields <;> cases hfields
  refine ⟨?_, fun us hus => absurd hus (hunion us), fun _ left right hleft => absurd hleft (hobject left),
    fun _ _ _ structFields h => by cases h⟩
  rcases hc with rfl | rfl | rfl | rfl <;> decide

/-- `i8 | i16`. -/
def smallInt : TypeAnnot := .union [.basic "i8", .basic "i16"]

theorem not_widens_int {dst : String} {lo hi : ℤ} (hdst : numericValues dst = some (intValues lo hi))
    (hhi : hi < 2 ^ 62) : ¬ Widens "int" dst := by
  rintro ⟨S, D, hS, hD, hsub⟩
  obtain rfl := Option.some.inj hS
  obtain rfl := Option.some.inj (hdst.symm.trans hD)
  obtain ⟨z, hz, -, hz'⟩ := hsub ⟨2 ^ 62, rfl, by norm_num, by norm_num⟩
  have : z = 2 ^ 62 := by exact_mod_cast hz.symm
  omega

end ShapeLang.TypeSystem
