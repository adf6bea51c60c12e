import Mathlib

/-!
# Invariants along a chain

A path is a list whose consecutive members are related (`List.IsChain`). The two induction rules
the clients use carry a property from one end of a path to the other, where a step may use that
both its ends lie on the path.

`upTo p` cuts a path after its first member that satisfies `p`: the stretch from one such member to
the next.
-/

namespace Chain

variable {α : Type*} {R : α → α → Prop} {P : α → Prop}

variable {l : List α}

/-- Carry a property forwards, from the head of a path to its last member `c`. -/
theorem forward {c : α} (h : (l ++ [c]).IsChain R) (hhead : ∀ a ∈ (l ++ [c]).head?, P a)
    (hstep : ∀ x ∈ l, ∀ y ∈ l ++ [c], R x y → P x → P y) : P c := by
  induction l with
  | nil => exact hhead c rfl
  | cons a l ih =>
    have ha : P a := hhead a rfl
    obtain ⟨hR, htail⟩ := List.isChain_cons.mp (show (a :: (l ++ [c])).IsChain R from h)
    refine ih htail (fun b hb => ?_) (fun x hx y hy => ?_)
    · exact hstep a List.mem_cons_self b (List.mem_cons_of_mem _ (List.mem_of_mem_head? hb))
        (hR b hb) ha
    · exact hstep x (List.mem_cons_of_mem _ hx) y (List.mem_cons_of_mem _ hy)

/-- Carry a property backwards, from the last member of a path to its head `c`. -/
theorem backward {c : α} (h : (c :: l).IsChain R) (hlast : ∀ a ∈ (c :: l).getLast?, P a)
    (hstep : ∀ x ∈ c :: l, ∀ y ∈ l, R x y → P y → P x) : P c := by
  induction l generalizing c with
  | nil => exact hlast c rfl
  | cons b l ih =>
    obtain ⟨hR, htail⟩ := List.isChain_cons_cons.mp h
    refine hstep c List.mem_cons_self b List.mem_cons_self hR (ih htail ?_ ?_)
    · intro a ha
      exact hlast a (by simpa [List.getLast?_cons_cons] using ha)
    · intro x hx y hy
      exact hstep x (List.mem_cons_of_mem _ hx) y (List.mem_cons_of_mem _ hy)

/-- A chain behind each pair of related members, as a list that ends in the second. -/
theorem exists_path {a b : α} (h : Relation.ReflTransGen R a b) :
    ∃ l, (l ++ [b]).IsChain R ∧ (l ++ [b]).head? = some a := by
  induction h with
  | refl => exact ⟨[], List.isChain_singleton _, rfl⟩
  | @tail b c _ hbc ih =>
    obtain ⟨l, hl, hhead⟩ := ih
    refine ⟨l ++ [b], ?_, ?_⟩
    · rw [List.append_assoc, List.singleton_append, List.isChain_append_cons_cons]
      exact ⟨hl, hbc, List.isChain_singleton _⟩
    · rw [List.head?_append, hhead]
      rfl

theorem reflTransGen_of_mem {a c : α} (h : (a :: l).IsChain R) (hc : c ∈ a :: l) :
    Relation.ReflTransGen R a c :=
  h.induction (Relation.ReflTransGen R a) _ (fun _ _ hxy hax => hax.tail hxy)
    (fun _ => .refl) c hc

/-- The last visit of a member of a path. -/
theorem exists_last_visit {c : α} (h : c ∈ l) : ∃ l₁ l₂, l = l₁ ++ c :: l₂ ∧ c ∉ l₂ := by
  obtain ⟨s, t, heq, hs⟩ := List.eq_append_cons_of_mem (List.mem_reverse.mpr h)
  refine ⟨t.reverse, s.reverse, ?_, fun hc => hs (List.mem_reverse.mp hc)⟩
  rw [← List.reverse_reverse l, heq]
  simp

/-! ## Stretches of a path -/

section UpTo

variable (p : α → Prop) [DecidablePred p]

/-- The members of a list up to and including the first that satisfies `p`. -/
def upTo : List α → List α
  | [] => []
  | c :: l => if p c then [c] else c :: upTo l

variable {p}

theorem upTo_append {l₁ l₂ : List α} (h : ∀ c ∈ l₁, ¬ p c) :
    upTo p (l₁ ++ l₂) = l₁ ++ upTo p l₂ := by
  induction l₁ with
  | nil => rfl
  | cons c l₁ ih =>
    rw [List.cons_append, upTo, if_neg (h c List.mem_cons_self),
      ih fun d hd => h d (List.mem_cons_of_mem _ hd), List.cons_append]

variable (l : List α)

theorem mem_upTo_self (c : α) (l : List α) : c ∈ upTo p (c :: l) := by
  rw [upTo]
  split <;> exact List.mem_cons_self

/-- The stretch does not go past a member that satisfies `p`. -/
theorem mem_of_mem_upTo_append {l₁ l₂ : List α} {c d : α} (hd : p d)
    (h : c ∈ upTo p (l₁ ++ d :: l₂)) : c ∈ l₁ ++ [d] := by
  induction l₁ with
  | nil =>
    rw [List.nil_append, upTo, if_pos hd] at h
    exact h
  | cons e l₁ ih =>
    rw [List.cons_append, upTo] at h
    split at h
    · rw [List.mem_singleton.mp h]
      exact List.mem_cons_self
    · rcases List.mem_cons.mp h with rfl | h
      · exact List.mem_cons_self
      · exact List.mem_cons_of_mem _ (ih h)

/-- The stretch is a prefix, it satisfies `p` at its end at most, and it stops short of the whole
list only at a member that satisfies `p`. -/
theorem upTo_spec :
    (∀ c ∈ (upTo p l).dropLast, ¬ p c) ∧
      (upTo p l = l ∨ ∃ l₁ d l₂, l = l₁ ++ d :: l₂ ∧ upTo p l = l₁ ++ [d] ∧ p d) := by
  induction l with
  | nil => exact ⟨fun c hc => absurd hc List.not_mem_nil, Or.inl rfl⟩
  | cons c l ih =>
    rw [upTo]
    split
    · rename_i hc
      exact ⟨fun d hd => absurd hd List.not_mem_nil, Or.inr ⟨[], c, l, rfl, rfl, hc⟩⟩
    · rename_i hc
      obtain ⟨hno, hstop⟩ := ih
      constructor
      · intro d hd
        cases hup : upTo p l with
        | nil => simp [hup] at hd
        | cons e rest =>
          rw [hup, List.dropLast_cons_cons] at hd
          rcases List.mem_cons.mp hd with rfl | hd
          · exact hc
          · exact hno d (hup ▸ hd)
      · rcases hstop with heq | ⟨l₁, d, l₂, rfl, hup, hd⟩
        · exact Or.inl (by rw [heq])
        · exact Or.inr ⟨c :: l₁, d, l₂, rfl, by rw [hup]; rfl, hd⟩

theorem upTo_isPrefix_self : upTo p l <+: l := by
  rcases (upTo_spec (p := p) l).2 with heq | ⟨l₁, d, l₂, hl, hup, -⟩
  · exact ⟨[], by rw [heq, List.append_nil]⟩
  · exact ⟨l₂, by rw [hup, hl]; simp⟩

theorem mem_of_mem_upTo {l : List α} {c : α} (h : c ∈ upTo p l) : c ∈ l :=
  (upTo_isPrefix_self l).mem h

end UpTo

/-! ## Reaching something before something else -/

/-- Some path from the node meets a `hit` with no `stop` before it. -/
inductive Leads (R : α → α → Prop) (hit stop : α → Prop) : α → Prop
  | here {c : α} : hit c → Leads R hit stop c
  | step {c d : α} : ¬ stop c → R c d → Leads R hit stop d → Leads R hit stop c

namespace Leads

variable {hit hit' stop stop' : α → Prop} {R' : α → α → Prop} {c : α}

/-- The path itself. -/
theorem exists_path (h : Leads R hit stop c) :
    ∃ l u, (l ++ [u]).IsChain R ∧ (l ++ [u]).head? = some c ∧ hit u ∧ ∀ d ∈ l, ¬ stop d := by
  induction h with
  | @here c hhit => exact ⟨[], c, List.isChain_singleton c, rfl, hhit, nofun⟩
  | @step c d hstop hR _ ih =>
    obtain ⟨l, u, hchain, hhead, hhit, hfree⟩ := ih
    refine ⟨c :: l, u, ?_, rfl, hhit, ?_⟩
    · rw [List.cons_append, List.isChain_cons]
      refine ⟨fun y hy => ?_, hchain⟩
      rw [hhead] at hy
      obtain rfl : d = y := Option.some.inj hy
      exact hR
    · intro e he
      rcases List.mem_cons.mp he with rfl | he
      · exact hstop
      · exact hfree e he

theorem of_path {l : List α} {u : α} (hchain : (l ++ [u]).IsChain R) (hhead : (l ++ [u]).head? = some c)
    (hhit : hit u) (hfree : ∀ d ∈ l, ¬ stop d) : Leads R hit stop c := by
  induction l generalizing c with
  | nil =>
    obtain rfl : u = c := Option.some.inj hhead
    exact .here hhit
  | cons a l ih =>
    obtain rfl : a = c := Option.some.inj hhead
    obtain ⟨hR, htail⟩ := List.isChain_cons.mp (show (a :: (l ++ [u])).IsChain R from hchain)
    obtain ⟨d, hd⟩ : ∃ d, (l ++ [u]).head? = some d := by
      cases l with
      | nil => exact ⟨u, rfl⟩
      | cons b l => exact ⟨b, rfl⟩
    exact .step (hfree a List.mem_cons_self) (hR d hd)
      (ih htail hd fun e he => hfree e (List.mem_cons_of_mem _ he))

theorem mono (hR : ∀ a b, R a b → R' a b) (hhit : ∀ a, hit a → hit' a) (hstop : ∀ a, stop' a → stop a)
    (h : Leads R hit stop c) : Leads R' hit' stop' c := by
  induction h with
  | here ha => exact .here (hhit _ ha)
  | step hfree hab _ ih => exact .step (fun hs => hfree (hstop _ hs)) (hR _ _ hab) ih

/-- What is met first on the way: one of the hits, with nothing in `touch` before it. -/
theorem first {touch : α → Prop} (htouch : ∀ a, touch a → hit a ∨ stop a) (h : Leads R hit stop c) :
    Leads R hit (fun a => stop a ∨ touch a) c := by
  induction h with
  | here ha => exact .here ha
  | @step a b hfree hab _ ih =>
    by_cases ht : touch a
    · rcases htouch a ht with hhit | hstop
      · exact .here hhit
      · exact absurd hstop hfree
    · exact .step (not_or.mpr ⟨hfree, ht⟩) hab ih

end Leads

end Chain
