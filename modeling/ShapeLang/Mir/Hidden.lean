import ShapeLang.Mir.Objects

/-!
# ShapeLang — objects that nothing outside refers to

An analysis that lets a value pass because it stays where it is, or because nothing else has it,
speaks about objects that are not reached from outside: from certain slots, from certain objects,
from what outlives the frame, from what closures hold. `Outside` says which of these count; `Hidden`
objects are the ones out of reach.

  * `Guarded` — a step that lets a hidden object go only into containers that are hidden too;
  * `Hidden.step` — such a step keeps it hidden;
  * `hidden_alloc` — a new object is hidden.
-/

namespace ShapeLang.Mir

open ObjectGraph

structure Outside where
  slot : SlotId → Prop
  object : ObjId → Prop
  /-- Whether what closures hold counts. -/
  closures : Prop

/-- An object that is held outside. -/
inductive Outside.Root (out : Outside) (σ : Heap) (r : ObjId) : Prop where
  | object (h : out.object r)
  | kept (h : r ∈ σ.kept)
  | slot {s : SlotId} (hs : out.slot s) (h : σ.slot s = some r)
  | captured {f : ObjId} {k : Key} {s : SlotId} (hc : out.closures) (hf : σ.made f = some s)
      (h : σ.cell f k = some r)

def Hidden (out : Outside) (σ : Heap) (o : ObjId) : Prop := ∀ r, out.Root σ r → ¬ Reach σ.cell r o

/-- No reference comes to stand anywhere from which the object is reached. -/
structure AddsNoReference (σ σ' : Heap) (o : ObjId) : Prop where
  slot : ∀ s r, σ'.slot s = some r → σ.slot s = some r ∨ ¬ Reach σ.cell r o
  cell : ∀ a k b, σ'.cell a k = some b → σ.cell a k = some b ∨ ¬ Reach σ.cell b o
  kept : ∀ r ∈ σ'.kept, r ∈ σ.kept ∨ ¬ Reach σ.cell r o

/-- The place whose object an assignment to a field or an element changes. -/
def Place.container? : Place → Option Place
  | .field base _ => some base
  | .index base _ => some base
  | _ => none

/-- A step that is not an assignment to a whole local puts the object only into slots that are not
outside and into containers that are hidden. Then it is no module-binding store, no task boundary
and no write through a reference; and a callee that is given the object adds no reference to it. -/
structure Guarded (out : Outside) (mir : MirFunction) (o : ObjId) (x y : Config) : Prop where
  keep : ∀ stmt ops op, stmtAt mir x.cursor = some stmt → stmt.kind.keeps = some ops → op ∈ ops →
    ¬ FromSlots x.heap (operandUsesSlot op) o
  store : ∀ stmt s ops op, stmtAt mir x.cursor = some stmt → stmt.kind.containerStore = some
    (s, ops) → op ∈ ops →
    FromSlots x.heap (operandUsesSlot op) o →
    ¬ out.slot s ∧ ∀ c, x.heap.slot s = some c → Hidden out x.heap c
  capture : ∀ stmt s ops op, stmtAt mir x.cursor = some stmt → stmt.kind = .closureCapture s ops →
    op ∈ ops →
    FromSlots x.heap (operandUsesSlot op) o → ¬ out.slot s ∧ ¬ out.closures
  assign : ∀ stmt place rv, stmtAt mir x.cursor = some stmt → stmt.kind = .assign place rv →
    (∀ d, place ≠ .localSlot d) → FromSlots x.heap (rvalueUsesSlot rv) o →
    ∃ base, place.container? = some base ∧ ∀ c, Reads x.heap base (some c) → Hidden out x.heap c
  call : ∀ blk func args dest next op, mir.block? x.cursor.block = some blk →
    x.cursor.idx = blk.statements.length → blk.terminator.kind = .call func args dest next →
    op ∈ func :: args → FromSlots x.heap (operandUsesSlot op) o → AddsNoReference x.heap y.heap o

/-- An assignment to a whole local puts the object into a slot that is not outside. -/
def GuardedLocal (out : Outside) (mir : MirFunction) (o : ObjId) (x : Config) : Prop :=
  ∀ stmt d rv, stmtAt mir x.cursor = some stmt → stmt.kind = .assign (.localSlot d) rv →
    FromSlots x.heap (rvalueUsesSlot rv) o → ¬ out.slot d

section

variable {out : Outside} {mir : MirFunction} {σ σ₁ σ' : Heap} {v : Option ObjId} {o : ObjId}

/-! ## Changes of the heap -/

theorem Hidden.addsNoReference (h : Hidden out σ o) (hadd : AddsNoReference σ σ' o)
    (hmade : σ'.made = σ.made) :
    Hidden out σ' o := by
  intro r hroot hreach
  have hold : Reach σ.cell r o := by
    rcases reach_of_added (W := {b | ¬ Reach σ.cell b o}) hadd.cell hreach with hold | ⟨w, hw, hwo⟩
    · exact hold
    · exact absurd hwo hw
  cases hroot with
  | object hr => exact h r (.object hr) hold
  | kept hr => exact (hadd.kept r hr).elim (fun hr => h r (.kept hr) hold) fun hnot => hnot hold
  | slot hs hr => exact (hadd.slot _ r hr).elim (fun hr => h r (.slot hs hr) hold) fun hnot => hnot hold
  | captured hc hf hr =>
    rw [hmade] at hf
    exact (hadd.cell _ _ r hr).elim (fun hr => h r (.captured hc hf hr) hold) fun hnot => hnot hold

/-- References are added only in a container that is hidden too. -/
theorem Hidden.written (h : Hidden out σ o) {c : ObjId} {cell : ObjId → Contents} (hc : Hidden out σ c)
    (hdata : σ.made c = none) (hadd : ∀ a k b, cell a k = some b → σ.cell a k = some b ∨ a = c) :
    Hidden out { σ with cell := cell } o := by
  intro r hroot hreach
  have hold : out.Root σ r := by
    cases hroot with
    | object hr => exact .object hr
    | kept hr => exact .kept hr
    | slot hs hr => exact .slot hs hr
    | captured hcl hf hr =>
      rcases hadd _ _ r hr with hr | rfl
      · exact .captured hcl hf hr
      · exact absurd (hdata.symm.trans hf) nofun
  rcases reach_of_written hadd hreach with hreach | hcont
  · exact h r hold hreach
  · exact hc r hold hcont

theorem Hidden.setSlot (h : Hidden out σ o) {s : SlotId}
    (hv : ∀ r, v = some r → Reach σ.cell r o → ¬ out.slot s) : Hidden out (σ.setSlot s v) o := by
  intro r hroot hreach
  cases hroot with
  | object hr => exact h r (.object hr) hreach
  | kept hr => exact h r (.kept hr) hreach
  | slot hs hr =>
    rcases setSlot_eq_some hr with ⟨rfl, hnew⟩ | ⟨-, hold⟩
    · exact hv r hnew hreach hs
    · exact h r (.slot hs hold) hreach
  | captured hc hf hr => exact h r (.captured hc hf hr) hreach

variable {contents : Contents} {made : Option SlotId} {r : ObjId}

/-- The roots after an allocation: those before, and what a new closure holds. -/
theorem Outside.Root.of_alloc (h : out.Root (σ.alloc contents made) r) :
    out.Root σ r ∨ (out.closures ∧ made ≠ none ∧ ∃ k, contents k = some r) := by
  cases h with
  | object hr => exact Or.inl (.object hr)
  | kept hr => exact Or.inl (.kept hr)
  | slot hs hr => exact Or.inl (.slot hs hr)
  | @captured f k s hc hf hr =>
    rcases update_eq_some hr with ⟨rfl, hin⟩ | ⟨hne, hold⟩
    · refine Or.inr ⟨hc, fun hnone => ?_, k, hin⟩
      simp [Heap.alloc, hnone] at hf
    · exact Or.inl (.captured hc (by simpa [Heap.alloc, hne] using hf) hold)

theorem Outside.Root.lt (hwf : σ.Wf) (hobj : ∀ r, out.object r → r < σ.next) (h : out.Root σ r) :
    r < σ.next := by
  cases h with
  | object hr => exact hobj r hr
  | kept hr => exact hwf.kept r hr
  | slot _ hr => exact hwf.slot _ r hr
  | captured _ _ hr => exact (hwf.cell _ _ r hr).2

theorem Hidden.alloc (h : Hidden out σ o) (hwf : σ.Wf) (hobj : ∀ r, out.object r → r < σ.next)
    (hc : ∀ k b, contents k = some b → b < σ.next)
    (hclosure : out.closures → made ≠ none → ∀ k b, contents k = some b → ¬ Reach σ.cell b o) :
    Hidden out (σ.alloc contents made) o := by
  intro r hroot hreach
  rcases hroot.of_alloc with hold | ⟨hcl, hmade, k, hk⟩
  · exact h r hold (reach_alloc hwf hc (hold.lt hwf hobj) hreach)
  · exact hclosure hcl hmade k r hk (reach_alloc hwf hc (hc k r hk) hreach)

/-- A new object is hidden. -/
theorem hidden_alloc (hwf : σ.Wf) (hobj : ∀ r, out.object r → r < σ.next)
    (hc : ∀ k b, contents k = some b → b < σ.next) :
    Hidden out (σ.alloc contents made) σ.next := by
  intro r hroot hreach
  have hr : r < σ.next := by
    rcases hroot.of_alloc with hold | ⟨-, -, k, hk⟩
    · exact hold.lt hwf hobj
    · exact hc k r hk
  exact Nat.lt_irrefl _ (hwf.reach hr (reach_alloc hwf hc hr hreach))

theorem Hidden.setCell (h : Hidden out σ o) {c : ObjId} {k : Key} (hdata : σ.made c = none)
    (hv : ∀ r, v = some r → Reach σ.cell r o → Hidden out σ c) : Hidden out (σ.setCell c k v) o := by
  by_cases hreach : ∃ r, v = some r ∧ Reach σ.cell r o
  · obtain ⟨r, hr, hreach⟩ := hreach
    refine h.written (hv r hr hreach) hdata fun a k' b hb => ?_
    exact (setCell_eq_some hb).elim (fun hnew => Or.inr hnew.1) Or.inl
  · refine h.addsNoReference ⟨fun s r hr => Or.inl hr, fun a k' b hb => ?_, fun r hr => Or.inl hr⟩ rfl
    rcases setCell_eq_some hb with ⟨-, hnew⟩ | hold
    · exact Or.inr fun hbo => hreach ⟨b, hnew, hbo⟩
    · exact Or.inl hold

theorem WritesThrough.addsNoReference (h : WritesThrough σ v σ')
    (hv : ∀ r, v = some r → ¬ Reach σ.cell r o) :
    AddsNoReference σ σ' o := by
  refine ⟨fun s r hr => ?_, fun a k b hb => ?_, fun r hr => Or.inl (h.kept ▸ hr)⟩
  · rcases h.slot s with hsame | hnew
    · exact Or.inl (hsame ▸ hr)
    · exact Or.inr (hv r (hnew ▸ hr))
  · rcases h.cell a k with hsame | ⟨-, hnew⟩
    · exact Or.inl (hsame ▸ hb)
    · exact Or.inr (hv b (hnew ▸ hb))

/-! ## One step -/

variable {rv : Rvalue}

/-- What is reached from the value of an rvalue is reached from a slot that it uses, unless it is new. -/
theorem Rhs.source (hwf : σ.Wf) (hrv : Rhs σ rv σ₁ v) (ho : o < σ.next) (hv : v = some r)
    (hreach : Reach σ₁.cell r o) :
    FromSlots σ (rvalueUsesSlot rv) o := by
  rcases hrv.cases with ⟨rfl, hfrom⟩ | ⟨contents, rfl, rfl, hfrom⟩
  · exact (hfrom r hv).reach hreach
  · rw [← Option.some.inj hv] at hreach
    rcases reach_alloc_new hwf (fun k b hb => hwf.fromSlots (hfrom k b hb)) hreach
      with rfl | ⟨k, w, hw, hwo⟩
    · exact absurd ho (Nat.lt_irrefl _)
    · exact (hfrom k w hw).reach hwo

/-- A place is read in the same way after an allocation. -/
theorem Reads.of_alloc (hwf : σ.Wf) {p : Place} (h : Reads (σ.alloc contents made) p v) : Reads σ p v := by
  -- what a place is read from was there before
  have hold : ∀ {p : Place} {a : ObjId}, Reads σ p (some a) → (σ.alloc contents made).made a = none →
      σ.made a = none ∧ (σ.alloc contents made).cell a = σ.cell a := by
    intro p a hread hdata
    obtain ⟨r, hr, hreach⟩ := hread.root a rfl
    have hne : a ≠ σ.next := Nat.ne_of_lt (hwf.reach (hwf.slot _ r hr) hreach)
    exact ⟨by simpa [Heap.alloc, hne] using hdata, by simp [Heap.alloc, hne]⟩
  induction h with
  | localSlot s => exact .localSlot s
  | field h hdata ih =>
    obtain ⟨hmade, hcell⟩ := hold ih hdata
    rw [hcell]
    exact .field ih hmade
  | index n h hdata ih =>
    obtain ⟨hmade, hcell⟩ := hold ih hdata
    rw [hcell]
    exact .index n ih hmade
  | deref h ih => exact .deref ih

theorem Rhs.reads (hwf : σ.Wf) (hrv : Rhs σ rv σ₁ v) {p : Place} {w : Option ObjId}
    (h : Reads σ₁ p w) : Reads σ p w := by
  rcases hrv.cases with ⟨rfl, -⟩ | ⟨contents, rfl, -, -⟩
  · exact h
  · exact h.of_alloc hwf

theorem Hidden.rhs (h : Hidden out σ o) (hwf : σ.Wf) (hobj : ∀ r, out.object r → r < σ.next)
    (hrv : Rhs σ rv σ₁ v) :
    Hidden out σ₁ o := by
  rcases hrv.cases with ⟨rfl, -⟩ | ⟨contents, rfl, -, hfrom⟩
  · exact h
  · exact h.alloc hwf hobj (fun k b hb => hwf.fromSlots (hfrom k b hb)) fun _ hnone => absurd rfl hnone

theorem Hidden.assign (h : Hidden out σ o) (hwf : σ.Wf) (hobj : ∀ r, out.object r → r < σ.next)
    (ho : o < σ.next) {c : Cursor} {y : Config} {stmt : MirStatement} (hstmt : stmtAt mir c = some stmt)
    (hg : Guarded out mir o ⟨c, σ⟩ y) (hlocal : GuardedLocal out mir o ⟨c, σ⟩) {place : Place} {rv : Rvalue}
    (hkind : stmt.kind = .assign place rv) (hrv : Rhs σ rv σ₁ v) (hs : Stores σ₁ v place σ') :
    Hidden out σ' o := by
  have h₁ := h.rhs hwf hobj hrv
  have hsource := fun r hr hreach => hrv.source (r := r) hwf ho hr hreach
  cases hs with
  | localSlot d => exact h₁.setSlot fun r hr hreach => hlocal stmt d rv hstmt hkind (hsource r hr hreach)
  | field hread hdata =>
    refine h₁.setCell hdata fun r hr hreach => ?_
    obtain ⟨base, hbase, hhidden⟩ := hg.assign stmt _ rv hstmt hkind nofun (hsource r hr hreach)
    obtain rfl := Option.some.inj hbase
    exact (hhidden _ (hrv.reads hwf hread)).rhs hwf hobj hrv
  | index n hread hdata =>
    refine h₁.setCell hdata fun r hr hreach => ?_
    obtain ⟨base, hbase, hhidden⟩ := hg.assign stmt _ rv hstmt hkind nofun (hsource r hr hreach)
    obtain rfl := Option.some.inj hbase
    exact (hhidden _ (hrv.reads hwf hread)).rhs hwf hobj hrv
  | deref hw =>
    refine h₁.addsNoReference (hw.addsNoReference fun r hr hreach => ?_) hw.made
    obtain ⟨base, hbase, -⟩ := hg.assign stmt _ rv hstmt hkind nofun (hsource r hr hreach)
    cases hbase

/-- A new object with the operands, put into a slot. -/
theorem Hidden.allocated (h : Hidden out σ o) (hwf : σ.Wf) (hobj : ∀ r, out.object r → r < σ.next)
    (ho : o < σ.next) {ops : List Operand} {vs : List (Option ObjId)} {s : SlotId}
    (hops : EvalsAll σ ops vs) (hc : Holds contents vs)
    (hs : ∀ op ∈ ops, FromSlots σ (operandUsesSlot op) o → ¬ out.slot s ∧
      (made ≠ none → ¬ out.closures)) :
    Hidden out ((σ.alloc contents made).setSlot s (some σ.next)) o := by
  have hlt : ∀ k b, contents k = some b → b < σ.next := fun k b hb => hwf.evalsAll hops (hc.1 k b hb)
  have hfrom : ∀ k b, contents k = some b → Reach σ.cell b o → ¬ out.slot s ∧
      (made ≠ none → ¬ out.closures) := by
    intro k b hb hbo
    obtain ⟨op, hop, hev⟩ := hops.fromSlots (hc.1 k b hb)
    exact hs op hop (hev.fromSlots.reach hbo)
  refine (h.alloc hwf hobj hlt fun hcl hmade k b hb hbo => (hfrom k b hb hbo).2 hmade hcl).setSlot
    fun r hr hreach => ?_
  rw [← Option.some.inj hr] at hreach
  rcases reach_alloc_new hwf hlt hreach with rfl | ⟨k, w, hw, hwo⟩
  · exact absurd ho (Nat.lt_irrefl _)
  · exact (hfrom k w hw hwo).1

theorem Hidden.effect (h : Hidden out σ o) (hwf : σ.Wf) (hobj : ∀ r, out.object r → r < σ.next)
    (ho : o < σ.next) {c : Cursor} {y : Config} {stmt : MirStatement}
    (hstmt : stmtAt mir c = some stmt) (hg : Guarded out mir o ⟨c, σ⟩ y)
    (hlocal : GuardedLocal out mir o ⟨c, σ⟩) (he : Effect σ stmt.kind σ') :
    Hidden out σ' o := by
  generalize hkind : stmt.kind = kind at he
  cases he with
  | assign hrv hs => exact h.assign hwf hobj ho hstmt hg hlocal hkind hrv hs
  | placeholder s => exact h
  | drop p => exact h
  | nop => exact h
  | keep hkeeps hops =>
    refine h.addsNoReference ⟨fun s r hr => Or.inl hr, fun a k b hb => Or.inl hb, fun r hr => ?_⟩ rfl
    -- what is kept was reached from an operand, and the guard says that no operand reaches the
    -- object
    refine hr.imp id fun hr hreach => ?_
    obtain ⟨op, hop, hev⟩ := hops.fromSlots hr
    exact hg.keep stmt _ op hstmt (hkind ▸ hkeeps) hop (hev.fromSlots.reach hreach)
  | capture hops hc =>
    refine h.allocated hwf hobj ho hops hc fun op hop hfrom => ?_
    obtain ⟨hslot, hcl⟩ := hg.capture stmt _ _ op hstmt hkind hop hfrom
    exact ⟨hslot, fun _ => hcl⟩
  | storeNew hstore hops hc =>
    exact h.allocated hwf hobj ho hops hc fun op hop hfrom =>
      ⟨(hg.store stmt _ _ op hstmt (hkind ▸ hstore) hop hfrom).1, fun hnone => absurd rfl hnone⟩
  | @storeInto _ s ops vs a contents hstore hops ha hdata hc =>
    -- an operand reaches the object, so the guard allows the store only into what is hidden itself
    by_cases hfrom : ∃ op ∈ ops, FromSlots σ (operandUsesSlot op) o
    · obtain ⟨op, hop, hfrom⟩ := hfrom
      refine h.written ((hg.store stmt _ _ op hstmt (hkind ▸ hstore) hop hfrom).2 a ha) hdata
        fun a' k b hb => ?_
      exact (update_eq_some hb).elim (fun hnew => Or.inr hnew.1) fun hold => Or.inl hold.2
    -- no operand does, so no new path to the object is made
    · refine h.addsNoReference ⟨fun s r hr => Or.inl hr, fun a' k b hb => ?_, fun r hr => Or.inl hr⟩ rfl
      rcases update_eq_some hb with ⟨rfl, hnew⟩ | ⟨-, hold⟩
      · rcases hc k with hsame | ⟨w, hw, hkw⟩
        · exact Or.inl (hsame ▸ hnew)
        · refine Or.inr fun hbo => hfrom ?_
          obtain ⟨op, hop, hev⟩ := hops.fromSlots ((hkw.symm.trans hnew) ▸ hw)
          exact ⟨op, hop, hev.fromSlots.reach hbo⟩
      · exact Or.inl hold

theorem Stores.writesThrough (hwf : σ.Wf) {place : Place} (h : Stores σ v place σ') :
    WritesThrough σ v σ' := by
  have hcell : ∀ {base : Place} {c : ObjId} (k : Key), Reads σ base (some c) → WritesThrough σ v
      (σ.setCell c k v) := by
    intro base c k hread
    obtain ⟨r, hr, hreach⟩ := hread.root c rfl
    refine ⟨fun s => Or.inl rfl, fun a k' => ?_, rfl, rfl, rfl, rfl⟩
    by_cases ha : a = c
    · subst ha
      by_cases hk : k' = k
      · subst hk
        exact Or.inr ⟨hwf.reach (hwf.slot _ r hr) hreach, by simp [Heap.setCell]⟩
      · exact Or.inl (by simp [Heap.setCell, hk])
    · exact Or.inl (by simp [Heap.setCell, ha])
  cases h with
  | localSlot d =>
    refine ⟨fun s => ?_, fun a k => Or.inl rfl, rfl, rfl, rfl, rfl⟩
    by_cases hs : s = d
    · subst hs
      exact Or.inr (by simp [Heap.setSlot])
    · exact Or.inl (by simp [Heap.setSlot, hs])
  | field hread hdata => exact hcell _ hread
  | index n hread hdata => exact hcell _ hread
  | deref hw => exact hw

variable {func : Operand} {args : List Operand} {dest : Place}

/-- A callee adds no reference to an object that nothing it gets at leads to. -/
theorem CallEffect.addsNoReference_of_accessible (hwf : σ.Wf) (ho : o < σ.next)
    (hacc : ∀ f vs, Evals σ func f → EvalsAll σ args vs → ∀ a, Accessible σ f vs a → ¬ Reach σ.cell a o)
    (hcall : CallEffect mir σ func args dest σ') : AddsNoReference σ σ' o := by
  obtain ⟨hf, hargs, hran, hv, hs⟩ := hcall
  rename_i f vs σ₁ v
  -- nothing that the callee produces leads to the object, what it made least of all
  have hprod : ∀ w, Produced σ f vs σ₁.next w → ∀ a, w = some a → ¬ Reach σ.cell a o := by
    intro w hw a ha hao
    rcases hw a ha with hold | ⟨hnew, -⟩
    · exact hacc f vs hf hargs a hold hao
    · rcases Relation.ReflTransGen.cases_head hao with rfl | ⟨b, ⟨k, hb⟩, -⟩
      · exact Nat.not_lt.mpr hnew ho
      · exact Nat.not_lt.mpr hnew (hwf.cell a k b hb).1
  have hwrites := hs.writesThrough (hwf.ran (fun o ho => hwf.evalsAll hargs ho) hran)
  refine ⟨fun s r hr => ?_, fun a k b hb => ?_, fun r hr => ?_⟩
  · rcases hwrites.slot s with hsame | hnew
    · rcases hran.slot s with hsame' | ⟨-, hp⟩
      · exact Or.inl (hsame' ▸ hsame ▸ hr)
      · exact Or.inr (hprod _ hp r (hsame ▸ hr))
    · exact Or.inr (hprod v hv r (hnew ▸ hr))
  · rcases hwrites.cell a k with hsame | ⟨-, hnew⟩
    · rcases hran.cell a k with hsame' | ⟨-, hp⟩
      · exact Or.inl (hsame' ▸ hsame ▸ hb)
      · exact Or.inr (hprod _ hp b (hsame ▸ hb))
    · exact Or.inr (hprod v hv b (hnew ▸ hb))
  · rcases hran.kept r (hwrites.kept ▸ hr) with hold | hp
    · exact Or.inl hold
    · exact Or.inr (hprod _ hp r rfl)

/-- A callee that is not given the object does not get at it. -/
theorem CallEffect.addsNoReference (hwf : σ.Wf) (hkept : ∀ r ∈ σ.kept, ¬ Reach σ.cell r o) (ho : o < σ.next)
    (hgiven : ∀ op ∈ func :: args, ¬ FromSlots σ (operandUsesSlot op) o)
    (hcall : CallEffect mir σ func args dest σ') :
    AddsNoReference σ σ' o := by
  refine hcall.addsNoReference_of_accessible hwf ho fun f vs hf hargs a hacc hao => ?_
  obtain ⟨r, hr, hra⟩ := hacc
  rcases hr with hr | hr | ⟨g, k, rfl, hr⟩
  · obtain ⟨op, hop, hev⟩ := hargs.fromSlots hr
    exact hgiven op (List.mem_cons_of_mem _ hop) (hev.fromSlots.reach (hra.trans hao))
  · exact hkept r hr (hra.trans hao)
  · exact hgiven func List.mem_cons_self (hf.fromSlots.reach ((reach_of_cell hr).trans (hra.trans hao)))

theorem CallEffect.made_eq (h : CallEffect mir σ func args dest σ') (hwf : σ.Wf) : σ'.made = σ.made := by
  obtain ⟨-, hargs, hran, -, hs⟩ := h
  exact (hs.writesThrough (hwf.ran (fun o ho => hwf.evalsAll hargs ho) hran)).made.trans hran.made

end

/-- A guarded step keeps a hidden object hidden. -/
theorem Hidden.step {out : Outside} {mir : MirFunction} {x y : Config} {o : ObjId} (h : Hidden out x.heap o)
    (hwf : x.heap.Wf) (hobj : ∀ r, out.object r → r < x.heap.next) (ho : o < x.heap.next)
    (hg : Guarded out mir o x y) (hlocal : GuardedLocal out mir o x) (hs : HeapStep mir x y) :
    Hidden out y.heap o := by
  cases hs with
  | statement hstmt he => exact h.effect hwf hobj ho hstmt hg hlocal he
  | jump => exact h
  | @call b blk func args dest next σ σ' hblk hterm hcall =>
    refine h.addsNoReference ?_ (hcall.made_eq hwf)
    by_cases hgiven : ∃ op ∈ func :: args, FromSlots σ (operandUsesSlot op) o
    · obtain ⟨op, hop, hfrom⟩ := hgiven
      exact hg.call blk func args dest next op hblk rfl hterm hop hfrom
    · exact hcall.addsNoReference hwf (fun r hr => h r (.kept hr)) ho fun op hop hfrom => hgiven
        ⟨op, hop, hfrom⟩

end ShapeLang.Mir
