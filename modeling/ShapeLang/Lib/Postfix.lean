import ShapeLang.Lib.Fallible

/-!
# Trees as postfix code on a bounded stack

A tree of operators is laid out as code: the operands first, then the operator. A machine with a
stack runs it: a leaf is pushed, an operator takes its operands from the top and pushes what it
makes of them. `run_code` says that running the code of a tree is evaluating the tree, or the stack
has no room for its operands; `run_append_code` says the same of a subtree in the middle of a run.
-/

namespace ShapeLang.Lib.Postfix

inductive Tree (V U B : Type) where
  | leaf (v : V)
  | un (op : U) (t : Tree V U B)
  | bin (op : B) (l r : Tree V U B)

inductive Instr (V U B : Type) where
  | push (v : V)
  | un (op : U)
  | bin (op : B)

variable {S V U B ε : Type}

namespace Tree

def code : Tree V U B → List (Instr V U B)
  | .leaf v => [.push v]
  | .un op t => t.code ++ [.un op]
  | .bin op l r => l.code ++ (r.code ++ [.bin op])

/-- The entries that the code of a tree has on the stack at once. -/
def need : Tree V U B → Nat
  | .leaf _ => 1
  | .un _ t => t.need
  | .bin _ l r => max l.need (r.need + 1)

def eval (un : U → V → Except ε V) (bin : B → V → V → Except ε V) : Tree V U B → Except ε V
  | .leaf v => .ok v
  | .un op t => t.eval un bin >>= un op
  | .bin op l r => l.eval un bin >>= fun a => r.eval un bin >>= bin op a

end Tree

/-- A state has a stack, its top first, that can grow to some limit. -/
structure Machine (S V U B ε : Type) where
  stack : S → List V
  limit : S → Nat
  push : S → V → Except ε S
  un : S → U → Except ε S
  bin : S → B → Except ε S

namespace Machine

variable (M : Machine S V U B ε)

def step (s : S) : Instr V U B → Except ε S
  | .push v => M.push s v
  | .un op => M.un s op
  | .bin op => M.bin s op

def run (s : S) (code : List (Instr V U B)) : Except ε S := code.foldlM M.step s

/-- The result of a run that leaves an outcome on top of `rest`. -/
def Leaves (s : S) (rest : List V) (outcome : Except ε V) (result : Except ε S) : Prop :=
  match outcome with
  | .error e => result = .error e
  | .ok v => ∃ s', result = .ok s' ∧ M.stack s' = v :: rest ∧ M.limit s ≤ M.limit s'

/-- Pushing fails exactly at the limit, and an operator does to the top of the stack what `un` and
`bin` say. -/
structure Lawful (full : ε) (un : U → V → Except ε V) (bin : B → V → V → Except ε V) : Prop where
  push_full : ∀ s v, M.limit s ≤ (M.stack s).length → M.push s v = .error full
  push_ok : ∀ s v, (M.stack s).length < M.limit s → M.Leaves s (M.stack s) (.ok v) (M.push s v)
  un_leaves : ∀ s op a rest, M.stack s = a :: rest → M.Leaves s rest (un op a) (M.un s op)
  bin_leaves : ∀ s op a b rest, M.stack s = b :: a :: rest → M.Leaves s rest (bin op a b) (M.bin s op)

variable {M}

theorem run_append (s : S) (code code' : List (Instr V U B)) :
    M.run s (code ++ code') = M.run s code >>= fun s' => M.run s' code' := List.foldlM_append

theorem run_singleton (s : S) (i : Instr V U B) : M.run s [i] = M.step s i := by
  show (M.step s i >>= fun s' => .ok s') = _
  cases M.step s i <;> rfl

/-- A run reaches what stands behind a piece of code through the states that the piece leads to. -/
theorem run_append_of_ok {s s' : S} {code : List (Instr V U B)} (h : M.run s code = .ok s')
    (code' : List (Instr V U B)) :
    M.run s (code ++ code') = M.run s' code' := by
  rw [run_append, h]
  rfl

theorem run_append_of_error {s : S} {e : ε} {code : List (Instr V U B)}
    (h : M.run s code = .error e) (code' : List (Instr V U B)) :
    M.run s (code ++ code') = .error e := by
  rw [run_append, h]
  rfl

theorem Leaves.of_limit_le {s s' : S} {rest : List V} {outcome : Except ε V} {result : Except ε S}
    (h : M.Leaves s' rest outcome result) (hle : M.limit s ≤ M.limit s') :
    M.Leaves s rest outcome result := by
  cases outcome with
  | error e => exact h
  | ok v =>
    obtain ⟨s'', hresult, hstack, hlimit⟩ := h
    exact ⟨s'', hresult, hstack, Nat.le_trans hle hlimit⟩

variable {full : ε} {un : U → V → Except ε V} {bin : B → V → V → Except ε V}

/-- Running the code of a tree is evaluating it, or the stack has no room for its operands. -/
theorem Lawful.run_code (hM : M.Lawful full un bin) (t : Tree V U B) (s : S) :
    M.run s t.code = .error full ∧ M.limit s < (M.stack s).length + t.need ∨
      M.Leaves s (M.stack s) (t.eval un bin) (M.run s t.code) := by
  induction t generalizing s with
  | leaf v =>
    rw [Tree.code, run_singleton]
    rcases Nat.lt_or_ge (M.stack s).length (M.limit s) with hroom | hfull
    · exact .inr (hM.push_ok s v hroom)
    · exact .inl ⟨hM.push_full s v hfull, Nat.lt_succ_of_le hfull⟩
  | un op t ih =>
    rw [Tree.code, Tree.eval, Tree.need]
    rcases ih s with ⟨hrun, hneed⟩ | hleaves
    · exact .inl ⟨run_append_of_error hrun _, hneed⟩
    · refine .inr ?_
      cases heval : t.eval un bin with
      | error e =>
        rw [heval] at hleaves
        exact run_append_of_error hleaves _
      | ok a =>
        rw [heval] at hleaves
        obtain ⟨s', hrun, hstack, hlimit⟩ := hleaves
        rw [run_append_of_ok hrun, run_singleton]
        exact (hM.un_leaves s' op a _ hstack).of_limit_le hlimit
  | bin op l r ihl ihr =>
    rw [Tree.code, Tree.eval, Tree.need]
    rcases ihl s with ⟨hrun, hneed⟩ | hleaves
    · exact .inl ⟨run_append_of_error hrun _, by omega⟩
    cases hl : l.eval un bin with
    | error e =>
      rw [hl] at hleaves
      exact .inr (run_append_of_error hleaves _)
    | ok a =>
      rw [hl] at hleaves
      obtain ⟨s₁, hrun, hstack, hlimit⟩ := hleaves
      rw [run_append_of_ok hrun]
      rcases ihr s₁ with ⟨hrun', hneed⟩ | hleaves'
      -- one operand is on the stack already
      · refine .inl ⟨run_append_of_error hrun' _, ?_⟩
        rw [hstack, List.length_cons] at hneed
        omega
      refine .inr ?_
      cases hr : r.eval un bin with
      | error e =>
        rw [hr] at hleaves'
        exact run_append_of_error hleaves' _
      | ok b =>
        rw [hr] at hleaves'
        obtain ⟨s₂, hrun', hstack', hlimit'⟩ := hleaves'
        rw [run_append_of_ok hrun', run_singleton]
        rw [hstack] at hstack'
        exact (hM.bin_leaves s₂ op a b _ hstack').of_limit_le (Nat.le_trans hlimit hlimit')

/-- A run that has come through the code of a tree has its value on top. -/
theorem Lawful.run_append_code (hM : M.Lawful full un bin) {t : Tree V U B}
    {before : List (Instr V U B)} {s s' : S} (h : M.run s (before ++ t.code) = .ok s') :
    ∃ v, t.eval un bin = .ok v ∧ (M.stack s').head? = some v := by
  rw [run_append] at h
  obtain ⟨s₁, -, hrun⟩ := Fallible.bind_eq_ok.mp h
  rcases hM.run_code t s₁ with ⟨hfull, -⟩ | hleaves
  · rw [hfull] at hrun
    cases hrun
  · cases heval : t.eval un bin with
    | error e =>
      rw [heval] at hleaves
      rw [show M.run s₁ t.code = .error e from hleaves] at hrun
      cases hrun
    | ok v =>
      rw [heval] at hleaves
      obtain ⟨s₂, hok, hstack, -⟩ := hleaves
      rw [hok] at hrun
      cases hrun
      exact ⟨v, rfl, by rw [hstack]; rfl⟩

end Machine

end ShapeLang.Lib.Postfix
