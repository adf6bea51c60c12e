import ShapeLang.Lib.Chain
import ShapeLang.Mir.MoveCheck

/-!
# ShapeLang — which uses after a move are reported

  * `mem_movedAt_iff` — a finished dataflow holds exactly the places whose moves it carries to a
    cursor, which in a reachable block are those that some path moves and does not write or drop
    afterwards.
  * `moveStates_isSome` — the dataflow ends if, of the moves of a place that meet, those that start
    first have one span.
  * `useAfterMove_reported_iff` — where a read of a moved place is reported.
-/

namespace ShapeLang.Mir

open ShapeLang.Lib

/-! ## Looking a place up -/

section

variable {mir : MirFunction} {decisions : Point → Option OwnershipDecision}

/-- The span kept of two: the second only if it starts earlier. -/
def earlierSpan : Option Span → Option Span → Option Span
  | some s, some t => if t.start < s.start then some t else some s
  | none, t => t
  | s, none => s

theorem lookup_foldl_union (m : Place) (entries : List (Sigma fun _ : Place => Span)) (dest : Moved)
    (hnodup : entries.NodupKeys) :
    (entries.foldl (fun dest entry =>
      match dest.lookup entry.1 with
      | some span => if entry.2.start < span.start then dest.insert entry.1 entry.2 else dest
      | none =>
        dest.insert entry.1 entry.2) dest).lookup m = earlierSpan (dest.lookup m)
          (entries.dlookup m) := by
  induction entries generalizing dest with
  | nil => cases h : dest.lookup m <;> simp [earlierSpan, h]
  | cons entry entries ih =>
    obtain ⟨place, span⟩ := entry
    rw [List.nodupKeys_cons] at hnodup
    rw [List.foldl_cons, ih _ hnodup.2]
    by_cases hm : m = place
    · -- the entry of `m` itself; no later entry is for it
      subst hm
      have hnone : entries.dlookup m = none := List.dlookup_eq_none.mpr hnodup.1
      rw [List.dlookup_cons_eq, hnone]
      cases hdest : dest.lookup m with
      | none => simp [earlierSpan]
      | some s =>
        by_cases hlt : span.start < s.start
        · simp [earlierSpan, hlt]
        · simp [earlierSpan, hlt, hdest]
    · rw [List.dlookup_cons_ne _ _ hm]
      congr 1
      cases hdest : dest.lookup place with
      | none => simp [AList.lookup_insert_ne hm]
      | some s =>
        by_cases hlt : span.start < s.start
        · simp [hlt, AList.lookup_insert_ne hm]
        · simp [hlt]

theorem lookup_unionMovedPlaces (dest incoming : Moved) (m : Place) :
    (unionMovedPlaces dest incoming).lookup m = earlierSpan (dest.lookup m) (incoming.lookup m) :=
  lookup_foldl_union m incoming.entries dest incoming.nodupKeys

/-- The place written, if any, is the moved place or a prefix of it. -/
def Overwrites (dest : Option Place) (m : Place) : Prop := ∃ d ∈ dest, reinitializesMovedPlace d m = true

theorem lookup_retainUnwritten (moved : Moved) (dest : Option Place) (m : Place) :
    (Overwrites dest m → (retainUnwritten moved dest).lookup m = none) ∧
      (¬ Overwrites dest m → (retainUnwritten moved dest).lookup m = moved.lookup m) := by
  cases dest with
  | none => simp [Overwrites, retainUnwritten]
  | some d =>
    simp only [retainUnwritten]
    rw [lookup_retainKeys]
    constructor
    · rintro ⟨_, ⟨⟩, hd⟩
      simp [hd]
    · intro hnot
      have hd : reinitializesMovedPlace d m = false := by
        cases h : reinitializesMovedPlace d m with
        | false => rfl
        | true => exact absurd ⟨d, rfl, h⟩ hnot
      simp [hd]

theorem lookup_insertAll (places : List Place) (span : Span) (moved : Moved) (m : Place) :
    (m ∈ places → (places.foldl (fun moved place => moved.insert place span) moved).lookup m = some span) ∧
      (m ∉ places → (places.foldl (fun moved place => moved.insert place span) moved).lookup m =
        moved.lookup m) := by
  induction places generalizing moved with
  | nil => simp
  | cons place places ih =>
    obtain ⟨hin, hout⟩ := ih (moved.insert place span)
    rw [List.foldl_cons]
    constructor
    · intro hmem
      by_cases hm : m ∈ places
      · exact hin hm
      · have heq : m = place := (List.mem_cons.mp hmem).resolve_right hm
        rw [hout hm, heq, AList.lookup_insert]
    · intro hnot
      obtain ⟨hne, hm⟩ := not_or.mp (fun h => hnot (List.mem_cons.mpr h))
      rw [hout hm, AList.lookup_insert_ne hne]

/-- **Transfer rule** of a statement: its own moves are entered after what it writes is cleared. -/
theorem lookup_applyMoveTransfer (moved : Moved) (stmt : MirStatement) (m : Place) :
    (m ∈ actualMovePlaces mir decisions stmt →
      (applyMoveTransfer mir decisions moved stmt).lookup m = some stmt.span) ∧
    (m ∉ actualMovePlaces mir decisions stmt → Overwrites (statementDestPlace stmt.kind) m →
      (applyMoveTransfer mir decisions moved stmt).lookup m = none) ∧
    (m ∉ actualMovePlaces mir decisions stmt → ¬ Overwrites (statementDestPlace stmt.kind) m →
      (applyMoveTransfer mir decisions moved stmt).lookup m = moved.lookup m) := by
  obtain ⟨hin, hout⟩ := lookup_insertAll (actualMovePlaces mir decisions stmt) stmt.span
    (retainUnwritten moved (statementDestPlace stmt.kind)) m
  obtain ⟨hwritten, hkept⟩ := lookup_retainUnwritten moved (statementDestPlace stmt.kind) m
  exact ⟨hin, fun hm hw => (hout hm).trans (hwritten hw), fun hm hw => (hout hm).trans (hkept hw)⟩

theorem movedBefore_zero (bb : BasicBlock) (into : Moved) : movedBefore mir decisions bb into 0 = into := by
  simp [movedBefore]

theorem movedBefore_succ {bb : BasicBlock} {i : Nat} {stmt : MirStatement}
    (h : bb.statements[i]? = some stmt) (into : Moved) :
    movedBefore mir decisions bb into (i + 1) =
      applyMoveTransfer mir decisions (movedBefore mir decisions bb into i) stmt := by
  rw [movedBefore, List.take_add_one, h, Option.toList_some, List.foldl_append]
  rfl

end

/-! ## Moves along paths -/

section

variable (mir : MirFunction) (decisions : Point → Option OwnershipDecision)

/-- The places moved at a cursor. -/
def movesAt (c : Cursor) : List Place := ((stmtAt mir c).map (actualMovePlaces mir decisions)).getD []

/-- The place written at a cursor: by the statement, or by the call that ends the block. A drop
counts as a write. -/
def destAt (c : Cursor) : Option Place :=
  match stmtAt mir c with
  | some stmt => statementDestPlace stmt.kind
  | none => (mir.block? c.block).bind fun bb => callDestination bb.terminator.kind

/-- Some path moves the place and does not write or drop it, or a prefix of it, afterwards. -/
inductive MayMoved (m : Place) : Cursor → Prop
  | moved {c d : Cursor} : Relation.ReflTransGen (Step mir) (entryCursor mir) c → Step mir c d →
      m ∈ movesAt mir decisions c → MayMoved m d
  | kept {c d : Cursor} : MayMoved m c → Step mir c d → ¬ Overwrites (destAt mir c) m → MayMoved m d

/-- A step the dataflow follows: it enters the successors of reachable blocks only. -/
def FollowedStep (c d : Cursor) : Prop :=
  Step mir c d ∧ ((ControlFlowGraph.build mir).Reaches 0 c.block ∨ d.idx ≠ 0)

/-- The dataflow carries the span of a move of the place to the cursor: the place is not written,
dropped or moved again on the way. -/
inductive CarriedTo (m : Place) : Span → Cursor → Prop
  | moved {c d : Cursor} {stmt : MirStatement} : FollowedStep mir c d → stmtAt mir c = some stmt →
      m ∈ actualMovePlaces mir decisions stmt → CarriedTo m stmt.span d
  | kept {c d : Cursor} {s : Span} : CarriedTo m s c → FollowedStep mir c d →
      ¬ Overwrites (destAt mir c) m →
      m ∉ movesAt mir decisions c → CarriedTo m s d

/-- The check holds the place for moved in front of the cursor. -/
def HeldMoved (c : Cursor) (m : Place) : Prop := ∃ s, CarriedTo mir decisions m s c

/-- The moved places in front of a cursor. -/
def movedAt (states : MoveStates) (c : Cursor) : Moved :=
  match mir.block? c.block with
  | some bb => movedBefore mir decisions bb (states.inStates c.block) c.idx
  | none => ∅

end

section

variable {mir : MirFunction} {decisions : Point → Option OwnershipDecision} {m : Place}

variable {bb : BasicBlock}

theorem movedAt_eq {states : MoveStates} {b : BasicBlockId} (hb : mir.block? b = some bb) (i : Nat) :
    movedAt mir decisions states ⟨b, i⟩ = movedBefore mir decisions bb (states.inStates b) i := by
  rw [movedAt, hb]

/-- Inside a block the statement of the cursor is applied to what stands in front of it. -/
theorem movedAt_next {states : MoveStates} {b : BasicBlockId} {i : Nat}
    (hi : i < (mir.statements b).length) :
    ∃ stmt, stmtAt mir ⟨b, i⟩ = some stmt ∧ movedAt mir decisions states ⟨b, i + 1⟩ =
      applyMoveTransfer mir decisions (movedAt mir decisions states ⟨b, i⟩) stmt := by
  cases hb : mir.block? b with
  | none => simp [MirFunction.statements, hb] at hi
  | some bb =>
    have hstmts : mir.statements b = bb.statements := MirFunction.statements_of_block? hb
    rw [hstmts] at hi
    have hstmt : bb.statements[i]? = some bb.statements[i] := List.getElem?_eq_getElem hi
    refine ⟨bb.statements[i], ?_, ?_⟩
    · rw [stmtAt, hstmts]
      exact hstmt
    · rw [movedAt_eq hb, movedAt_eq hb, movedBefore_succ hstmt]

theorem stmtAt_terminator (b : BasicBlockId) : stmtAt mir ⟨b, (mir.statements b).length⟩ = none :=
  List.getElem?_length _

theorem movesAt_terminator (b : BasicBlockId) :
    movesAt mir decisions ⟨b, (mir.statements b).length⟩ = [] := by
  rw [movesAt, stmtAt_terminator]
  rfl

theorem destAt_terminator {b : BasicBlockId} (hb : mir.block? b = some bb) :
    destAt mir ⟨b, (mir.statements b).length⟩ = callDestination bb.terminator.kind := by
  rw [destAt, stmtAt_terminator]
  simp [hb]

/-- Behind the terminator stands what stood in front of it, unless the call wrote it. -/
theorem lookup_blockOut_inStates {states : MoveStates} {b : BasicBlockId} (hb : mir.block? b = some bb)
    (hw : ¬ Overwrites (destAt mir ⟨b, (mir.statements b).length⟩) m) :
    (blockOut mir decisions bb (states.inStates b)).lookup m =
      (movedAt mir decisions states ⟨b, (mir.statements b).length⟩).lookup m := by
  rw [destAt_terminator hb] at hw
  rw [movedAt_eq hb, MirFunction.statements_of_block? hb, blockOut, applyTerminatorMoveTransfer]
  exact (lookup_retainUnwritten _ (callDestination bb.terminator.kind) m).2 hw

/-- Through the statements of a block: what is moved in front of one of them is carried there from
the entry of the block or from a move on the way. -/
theorem carriedTo_of_movedBefore {b : BasicBlockId} (hb : mir.block? b = some bb) {into : Moved}
    (hinto : ∀ s, into.lookup m = some s → CarriedTo mir decisions m s ⟨b, 0⟩) {i : Nat}
    (hi : i ≤ bb.statements.length) {s : Span}
    (h : (movedBefore mir decisions bb into i).lookup m = some s) :
    CarriedTo mir decisions m s ⟨b, i⟩ := by
  have hstmts : mir.statements b = bb.statements := MirFunction.statements_of_block? hb
  induction i with
  | zero =>
    rw [movedBefore_zero] at h
    exact hinto s h
  | succ i ih =>
    have hlt : i < bb.statements.length := by omega
    have hstmt : bb.statements[i]? = some bb.statements[i] := List.getElem?_eq_getElem hlt
    have hat : stmtAt mir ⟨b, i⟩ = some bb.statements[i] := by rw [stmtAt, hstmts]; exact hstmt
    have hstep : FollowedStep mir ⟨b, i⟩ ⟨b, i + 1⟩ :=
      ⟨.next (by rw [hstmts]; exact hlt), Or.inr (Nat.succ_ne_zero i)⟩
    rw [movedBefore_succ hstmt] at h
    obtain ⟨hmoved, hwritten, hkept⟩ := @lookup_applyMoveTransfer mir decisions
      (movedBefore mir decisions bb into i) bb.statements[i] m
    -- moved by this statement, written by it, or left alone
    by_cases hmoves : m ∈ actualMovePlaces mir decisions bb.statements[i]
    · rw [hmoved hmoves] at h
      obtain rfl := Option.some.inj h
      exact .moved hstep hat hmoves
    · by_cases hw : Overwrites (statementDestPlace bb.statements[i].kind) m
      · rw [hwritten hmoves hw] at h
        cases h
      · rw [hkept hmoves hw] at h
        refine .kept (ih (by omega) h) hstep ?_ ?_
        · rw [destAt, hat]
          exact hw
        · rw [movesAt, hat]
          exact hmoves

theorem lookup_union_cases {a b : Moved} {s : Span} (h : (unionMovedPlaces a b).lookup m = some s) :
    a.lookup m = some s ∨ b.lookup m = some s := by
  rw [lookup_unionMovedPlaces] at h
  cases ha : a.lookup m with
  | none =>
    rw [ha] at h
    exact Or.inr h
  | some s' =>
    cases hb : b.lookup m with
    | none =>
      rw [ha, hb] at h
      exact Or.inl h
    | some t =>
      rw [ha, hb, earlierSpan] at h
      split at h
      · exact Or.inr h
      · exact Or.inl h

variable {cfg : ControlFlowGraph}

theorem lookup_blockIn {st : MoveStates} {b : BasicBlockId} :
    (blockIn cfg st b).lookup m ≠ none ↔ ∃ pred ∈ cfg.predecessors b,
    (st.outStates pred).lookup m ≠ none := by
  have hfold : ∀ (preds : List BasicBlockId) (moved : Moved),
      (preds.foldl (fun moved pred => unionMovedPlaces moved (st.outStates pred)) moved).lookup m ≠ none ↔
        moved.lookup m ≠ none ∨ ∃ pred ∈ preds, (st.outStates pred).lookup m ≠ none := by
    intro preds
    induction preds with
    | nil => simp
    | cons pred preds ih =>
      intro moved
      have hunion : (unionMovedPlaces moved (st.outStates pred)).lookup m ≠ none ↔
          moved.lookup m ≠ none ∨ (st.outStates pred).lookup m ≠ none := by
        rw [lookup_unionMovedPlaces]
        cases moved.lookup m <;> cases (st.outStates pred).lookup m <;> simp [earlierSpan]
        split <;> simp
      rw [List.foldl_cons, ih, hunion]
      simp [or_assoc]
  rw [blockIn, hfold]
  simp

theorem moveStep_cases {st st' : MoveStates} {b : BasicBlockId}
    (h : moveStep mir decisions cfg st b = some st') :
    ∃ bb, mir.block? b = some bb ∧
      ¬ (sameMap (st.inStates b) (blockIn cfg st b) = true ∧
        sameMap (st.outStates b) (blockOut mir decisions bb (blockIn cfg st b)) = true) ∧
      (∀ b', b' ≠ b → st'.inStates b' = st.inStates b' ∧ st'.outStates b' = st.outStates b') ∧
      ∀ m, (st'.inStates b).lookup m = (blockIn cfg st b).lookup m ∧
        (st'.outStates b).lookup m = (blockOut mir decisions bb (blockIn cfg st b)).lookup m := by
  unfold moveStep at h
  cases hb : mir.block? b with
  | none =>
    rw [hb] at h
    cases h
  | some bb =>
    simp only [hb] at h
    split at h
    · cases h
    · rename_i hchanged
      obtain rfl := Option.some.inj h
      -- one of the two states differs, and only those of this block are replaced
      refine ⟨bb, rfl, hchanged, fun b' hb' => ⟨?_, ?_⟩, fun m => ⟨?_, ?_⟩⟩
      · simp only
        split
        · rfl
        · rw [Function.update_of_ne hb']
      · simp only
        split
        · rfl
        · rw [Function.update_of_ne hb']
      · simp only
        split
        · rename_i hsame
          exact perm_iff_lookup.mp (of_decide_eq_true hsame) m
        · rw [Function.update_self]
      · simp only
        split
        · rename_i hsame
          exact perm_iff_lookup.mp (of_decide_eq_true hsame) m
        · rw [Function.update_self]

theorem lookup_blockIn_cases {st : MoveStates} {b : BasicBlockId} {s : Span}
    (h : (blockIn cfg st b).lookup m = some s) :
    ∃ pred ∈ cfg.predecessors b, (st.outStates pred).lookup m = some s := by
  have hfold : ∀ (preds : List BasicBlockId) (moved : Moved),
      (preds.foldl (fun moved pred => unionMovedPlaces moved (st.outStates pred)) moved).lookup m = some s →
      moved.lookup m = some s ∨ ∃ pred ∈ preds, (st.outStates pred).lookup m = some s := by
    intro preds
    induction preds with
    | nil => exact fun _ h => Or.inl h
    | cons pred preds ih =>
      intro moved h
      rcases ih _ h with hunion | ⟨p, hp, hout⟩
      · rcases lookup_union_cases hunion with hmoved | hout
        · exact Or.inl hmoved
        · exact Or.inr ⟨pred, List.mem_cons_self, hout⟩
      · exact Or.inr ⟨p, List.mem_cons_of_mem _ hp, hout⟩
  exact (hfold _ _ h).resolve_left (by simp)

variable (mir decisions) in
/-- Every entry of the states is carried there: to the first statement and to the terminator. -/
structure Traced (st : MoveStates) : Prop where
  inStates : ∀ b m s, (st.inStates b).lookup m = some s → CarriedTo mir decisions m s ⟨b, 0⟩
  outStates : ∀ b m s, (st.outStates b).lookup m = some s → (ControlFlowGraph.build mir).Reaches 0 b ∧
    CarriedTo mir decisions m s ⟨b, (mir.statements b).length⟩ ∧
      ¬ Overwrites (destAt mir ⟨b, (mir.statements b).length⟩) m

/-- An execution that enters a block comes to each of its statements and to its terminator. -/
theorem reflTransGen_within {b : BasicBlockId}
    (h : Relation.ReflTransGen (Step mir) (entryCursor mir) ⟨b, 0⟩) {i : Nat}
    (hi : i ≤ (mir.statements b).length) :
    Relation.ReflTransGen (Step mir) (entryCursor mir) ⟨b, i⟩ := by
  induction i with
  | zero => exact h
  | succ i ih => exact (ih (by omega)).tail (.next (by omega))

/-- A reachable block is entered by some execution. -/
theorem reflTransGen_of_reaches {b : BasicBlockId} (h : (ControlFlowGraph.build mir).Reaches 0 b) :
    Relation.ReflTransGen (Step mir) (entryCursor mir) ⟨b, 0⟩ := by
  induction h with
  | refl => exact .refl
  | tail _ hs ih => exact (reflTransGen_within ih le_rfl).tail (.jump hs)

theorem Traced.blockIn {st : MoveStates} (h : Traced mir decisions st) {b : BasicBlockId} {s : Span}
    (hs : (blockIn (ControlFlowGraph.build mir) st b).lookup m = some s) :
    CarriedTo mir decisions m s ⟨b, 0⟩ := by
  obtain ⟨pred, hpred, hout⟩ := lookup_blockIn_cases hs
  obtain ⟨pb, hpb, rfl, hsucc⟩ := ControlFlowGraph.mem_predecessors_build.mp hpred
  obtain ⟨hfrom, hcarried, hnot⟩ := h.outStates pb.id m s hout
  have hjump : b ∈ (ControlFlowGraph.build mir).successors pb.id := by
    rw [ControlFlowGraph.successors_build (MirFunction.block?_of_mem hpb)]
    exact hsucc
  refine .kept hcarried ⟨.jump hjump, Or.inl hfrom⟩ hnot ?_
  rw [movesAt_terminator]
  exact List.not_mem_nil

theorem Traced.blockOut {st : MoveStates} (h : Traced mir decisions st) {b : BasicBlockId}
    (hb : mir.block? b = some bb) {s : Span}
    (hs : (blockOut mir decisions bb (Mir.blockIn (ControlFlowGraph.build mir) st b)).lookup m =
      some s) :
    CarriedTo mir decisions m s ⟨b, (mir.statements b).length⟩ ∧
      ¬ Overwrites (destAt mir ⟨b, (mir.statements b).length⟩) m := by
  rw [Mir.blockOut, applyTerminatorMoveTransfer] at hs
  obtain ⟨hwritten, hkept⟩ := lookup_retainUnwritten
    (movedBefore mir decisions bb (Mir.blockIn (ControlFlowGraph.build mir) st b) bb.statements.length)
    (callDestination bb.terminator.kind) m
  have hnot : ¬ Overwrites (callDestination bb.terminator.kind) m := by
    intro hw
    rw [hwritten hw] at hs
    cases hs
  rw [hkept hnot] at hs
  have hlen : (mir.statements b).length = bb.statements.length := by
    rw [MirFunction.statements_of_block? hb]
  constructor
  · rw [hlen]
    exact carriedTo_of_movedBefore hb (fun s hs => h.blockIn hs) le_rfl hs
  · rw [destAt_terminator hb]
    exact hnot

theorem Traced.step {st st' : MoveStates} (h : Traced mir decisions st) {b : BasicBlockId}
    (hreach : (ControlFlowGraph.build mir).Reaches 0 b)
    (hstep : moveStep mir decisions (ControlFlowGraph.build mir) st b = some st') :
    Traced mir decisions st' := by
  obtain ⟨bb, hb, -, hother, hself⟩ := moveStep_cases hstep
  refine ⟨fun b' m s hs => ?_, fun b' m s hs => ?_⟩
  · by_cases hb' : b' = b
    · subst hb'
      rw [(hself m).1] at hs
      exact h.blockIn hs
    · rw [(hother b' hb').1] at hs
      exact h.inStates b' m s hs
  · by_cases hb' : b' = b
    · subst hb'
      rw [(hself m).2] at hs
      exact ⟨hreach, h.blockOut hb hs⟩
    · rw [(hother b' hb').2] at hs
      exact h.outStates b' m s hs

variable {fuel : Nat}

theorem moveStates_traced {states : MoveStates}
    (h : moveStates mir decisions fuel (ControlFlowGraph.build mir) = some states) :
    Traced mir decisions states := by
  obtain ⟨rpo, hrpo, hloop⟩ := Option.bind_eq_some_iff.mp h
  have hstep : ∀ (s : MoveStates) (b : BasicBlockId) (s' : MoveStates), Traced mir decisions s → b ∈ rpo →
      moveStep mir decisions (ControlFlowGraph.build mir) s b = some s' → Traced mir decisions s' :=
    fun s b s' hs hb hs' => hs.step (ControlFlowGraph.reaches_of_mem_reversePostorder hrpo hb) hs'
  have hstart : Traced mir decisions { inStates := fun _ => ∅, outStates := fun _ => ∅ } :=
    ⟨fun _ _ _ h => by simp at h, fun _ _ _ h => by simp at h⟩
  exact (Fixpoint.loop_stable hstep hstart hloop).1

/-- At a reachable block the states of a finished run satisfy the dataflow equations. -/
theorem moveStates_stable {states : MoveStates}
    (h : moveStates mir decisions fuel (ControlFlowGraph.build mir) = some states) {b : BasicBlockId}
    (hreach : (ControlFlowGraph.build mir).Reaches 0 b) (hb : mir.block? b = some bb) (m : Place) :
    (states.inStates b).lookup m = (blockIn (ControlFlowGraph.build mir) states b).lookup m ∧
      (states.outStates b).lookup m =
        (blockOut mir decisions bb (blockIn (ControlFlowGraph.build mir) states b)).lookup m := by
  obtain ⟨rpo, hrpo, hloop⟩ := Option.bind_eq_some_iff.mp h
  have hmem : b ∈ rpo := ControlFlowGraph.mem_reversePostorder hrpo hreach
  have hinv : ∀ (s : MoveStates) (b : BasicBlockId) (s' : MoveStates), True → b ∈ rpo →
      moveStep mir decisions (ControlFlowGraph.build mir) s b = some s' → True := fun _ _ _ _ _ _ => trivial
  have hstable := (Fixpoint.loop_stable hinv trivial hloop).2 b hmem
  simp only [moveStep, hb] at hstable
  split at hstable
  · rename_i hsame
    exact ⟨perm_iff_lookup.mp (of_decide_eq_true hsame.1) m, perm_iff_lookup.mp
      (of_decide_eq_true hsame.2) m⟩
  · cases hstable

/-- Equal maps stay equal through the statements of a block. -/
theorem lookup_movedBefore_congr {into into' : Moved} (h : ∀ m, into.lookup m = into'.lookup m) {i : Nat}
    (hi : i ≤ bb.statements.length) (m : Place) :
    (movedBefore mir decisions bb into i).lookup m = (movedBefore mir decisions bb into' i).lookup m := by
  induction i with
  | zero =>
    rw [movedBefore_zero, movedBefore_zero]
    exact h m
  | succ i ih =>
    have hlt : i < bb.statements.length := by omega
    have hstmt : bb.statements[i]? = some bb.statements[i] := List.getElem?_eq_getElem hlt
    rw [movedBefore_succ hstmt, movedBefore_succ hstmt]
    obtain ⟨hin, hwritten, hkept⟩ :=
      @lookup_applyMoveTransfer mir decisions (movedBefore mir decisions bb into i)
      bb.statements[i] m
    obtain ⟨hin', hwritten', hkept'⟩ :=
      @lookup_applyMoveTransfer mir decisions (movedBefore mir decisions bb into' i)
      bb.statements[i] m
    by_cases hmoves : m ∈ actualMovePlaces mir decisions bb.statements[i]
    · rw [hin hmoves, hin' hmoves]
    · by_cases hw : Overwrites (statementDestPlace bb.statements[i].kind) m
      · rw [hwritten hmoves hw, hwritten' hmoves hw]
      · rw [hkept hmoves hw, hkept' hmoves hw]
        exact ih (by omega)

variable {c : Cursor}

/-- One step: what is moved in front of it and not written by it, or moved by it, is moved behind it. -/
theorem movedAt_step {states : MoveStates}
    (h : moveStates mir decisions fuel (ControlFlowGraph.build mir) = some states) {d : Cursor}
    (hfollowed : FollowedStep mir c d) (hmoved : m ∈ movesAt mir decisions c ∨
      (movedAt mir decisions states c).lookup m ≠ none ∧ ¬ Overwrites (destAt mir c) m) :
    (movedAt mir decisions states d).lookup m ≠ none := by
  obtain ⟨hstep, hseen⟩ := hfollowed
  cases hstep with
  | @next b i hi =>
    obtain ⟨stmt, hat, hnext⟩ := movedAt_next hi
    rw [movesAt, destAt, hat] at hmoved
    rw [hnext]
    obtain ⟨hin, -, hkept⟩ := @lookup_applyMoveTransfer mir decisions
      (movedAt mir decisions states ⟨b, i⟩) stmt m
    by_cases hmoves : m ∈ actualMovePlaces mir decisions stmt
    · rw [hin hmoves]
      simp
    · rcases hmoved with hmem | ⟨hold, hw⟩
      · exact absurd hmem hmoves
      · rw [hkept hmoves hw]
        exact hold
  | @jump b s hsucc =>
    have hreach : (ControlFlowGraph.build mir).Reaches 0 b := hseen.resolve_right fun hne => hne rfl
    obtain ⟨bb, hb, hterm, sb, hsb⟩ := ControlFlowGraph.exists_block?_of_mem_successors hsucc
    rw [movesAt_terminator] at hmoved
    obtain ⟨hold, hw⟩ := hmoved.resolve_left List.not_mem_nil
    rw [destAt_terminator hb] at hw
    rw [movedAt_eq hb, MirFunction.statements_of_block? hb] at hold
    -- behind the terminator the place is in `out_states`, and so in the `in_states` of the successor
    have hout : (states.outStates b).lookup m ≠ none := by
      have hin := moveStates_stable h hreach hb
      rw [(hin m).2, blockOut, applyTerminatorMoveTransfer,
        (lookup_retainUnwritten _ (callDestination bb.terminator.kind) m).2 hw,
        ← lookup_movedBefore_congr (fun m => (hin m).1) le_rfl]
      exact hold
    have hpred : b ∈ (ControlFlowGraph.build mir).predecessors s :=
      ControlFlowGraph.mem_predecessors_build.mpr
        ⟨bb, MirFunction.block?_mem hb, MirFunction.id_of_block? hb, hterm⟩
    rw [movedAt, hsb]
    simp only
    rw [movedBefore_zero, (moveStates_stable h (hreach.tail hsucc) hsb m).1]
    exact lookup_blockIn.mpr ⟨b, hpred, hout⟩

theorem reaches_of_reflTransGen (h : Relation.ReflTransGen (Step mir) (entryCursor mir) c) :
    (ControlFlowGraph.build mir).Reaches 0 c.block := by
  induction h with
  | refl => exact .refl
  | tail _ hstep ih =>
    cases hstep with
    | next hi => exact ih
    | jump hsucc => exact ih.tail hsucc

/-- **What the dataflow computes.** In front of a cursor stand exactly the places it carries there. -/
theorem mem_movedAt_iff {states : MoveStates}
    (h : moveStates mir decisions fuel (ControlFlowGraph.build mir) = some states)
    (hb : mir.block? c.block = some bb) (hidx : c.idx ≤ bb.statements.length) :
    (movedAt mir decisions states c).lookup m ≠ none ↔ HeldMoved mir decisions c m := by
  constructor
  · intro hm
    obtain ⟨s, hs⟩ := Option.ne_none_iff_exists'.mp hm
    rw [movedAt, hb] at hs
    exact ⟨s, carriedTo_of_movedBefore hb ((moveStates_traced h).inStates c.block m) hidx hs⟩
  · rintro ⟨s, hcarried⟩
    clear hb hidx
    induction hcarried with
    | moved hstep hat hmem =>
      refine movedAt_step h hstep (Or.inl ?_)
      rw [movesAt, hat]
      exact hmem
    | kept _ hstep hw _ ih => exact movedAt_step h hstep (Or.inr ⟨ih, hw⟩)

theorem FollowedStep.reaches {d : Cursor} (h : FollowedStep mir c d)
    (hreach : (ControlFlowGraph.build mir).Reaches 0 d.block) :
    (ControlFlowGraph.build mir).Reaches 0 c.block := by
  obtain ⟨hstep, hseen⟩ := h
  cases hstep with
  | next hi => exact hreach
  | jump hsucc => exact hseen.resolve_right fun hne => hne rfl

theorem reflTransGen_of_followedStep {d : Cursor} (h : FollowedStep mir c d)
    (hreach : (ControlFlowGraph.build mir).Reaches 0 d.block) :
    Relation.ReflTransGen (Step mir) (entryCursor mir) c := by
  have hfrom := reflTransGen_of_reaches (h.reaches hreach)
  obtain ⟨hstep, -⟩ := h
  cases hstep with
  | next hi => exact reflTransGen_within hfrom hi.le
  | jump hsucc => exact reflTransGen_within hfrom le_rfl

/-- In a reachable block these are the places that some path moves and does not write or drop since. -/
theorem heldMoved_iff_mayMoved (hreach : (ControlFlowGraph.build mir).Reaches 0 c.block) :
    HeldMoved mir decisions c m ↔ MayMoved mir decisions m c := by
  constructor
  · rintro ⟨s, hcarried⟩
    induction hcarried with
    | moved hstep hat hmem =>
      refine .moved (reflTransGen_of_followedStep hstep hreach) hstep.1 ?_
      rw [movesAt, hat]
      exact hmem
    | kept _ hstep hw _ ih => exact .kept (ih (hstep.reaches hreach)) hstep.1 hw
  -- the other way the cursor is followed, since its block is reachable
  · intro hmoved
    have hmoves : ∀ {c d : Cursor}, FollowedStep mir c d → m ∈ movesAt mir decisions c →
        HeldMoved mir decisions d m := by
      intro c d hstep hmem
      cases hat : stmtAt mir c with
      | none =>
        rw [movesAt, hat] at hmem
        exact absurd hmem List.not_mem_nil
      | some stmt =>
        rw [movesAt, hat] at hmem
        exact ⟨stmt.span, .moved hstep hat hmem⟩
    clear hreach
    induction hmoved with
    | moved hpath hstep hmem => exact hmoves ⟨hstep, Or.inl (reaches_of_reflTransGen hpath)⟩ hmem
    | @kept c d hbefore hstep hw ih =>
      -- what is moved before is on a path from the entry
      have hpath : Relation.ReflTransGen (Step mir) (entryCursor mir) c := by
        clear ih hstep hw
        induction hbefore with
        | moved hreach hstep _ => exact hreach.tail hstep
        | kept _ hstep _ ih => exact ih.tail hstep
      have hfollowed : FollowedStep mir c d := ⟨hstep, Or.inl (reaches_of_reflTransGen hpath)⟩
      by_cases hmem : m ∈ movesAt mir decisions c
      · exact hmoves hfollowed hmem
      · obtain ⟨s, hcarried⟩ := ih
        exact ⟨s, .kept hcarried hfollowed hw hmem⟩

end

/-! ## The dataflow ends

A turn adds a place, replaces its span by one that starts earlier, or exchanges two spans that start
together. A pass without one of the first two leaves, for each place, a span that starts first among
those carried there; where that span is one, the next pass changes nothing. -/

section

variable (mir : MirFunction) (decisions : Point → Option OwnershipDecision)

/-- The moves of the function. -/
def moveSpans : Finset (Place × Span) :=
  (mir.blocks.flatMap fun bb => bb.statements.flatMap fun stmt =>
    (actualMovePlaces mir decisions stmt).map fun place => (place, stmt.span)).toFinset

/-- Where moves of one place meet, those whose spans start first have one span. -/
def SpansAgree : Prop :=
  ∀ c m s t, CarriedTo mir decisions m s c → CarriedTo mir decisions m t c →
    (∀ r, CarriedTo mir decisions m r c → s.start ≤ r.start) → s.start = t.start → s = t

/-- The moves that start no earlier than the one kept for their place. -/
def weight (moved : Moved) : Nat :=
  ((moveSpans mir decisions).filter fun x => ∃ s ∈ moved.lookup x.1, s.start ≤ x.2.start).card

variable {mir decisions}

theorem CarriedTo.mem_moveSpans {c : Cursor} {m : Place} {s : Span} (h : CarriedTo mir decisions m s c) :
    (m, s) ∈ moveSpans mir decisions := by
  induction h with
  | @moved c d stmt _ hat hmem =>
    obtain ⟨bb, hb, hstmt⟩ := stmtAt_mem hat
    refine List.mem_toFinset.mpr (List.mem_flatMap.mpr ⟨bb, MirFunction.block?_mem hb, ?_⟩)
    exact List.mem_flatMap.mpr ⟨stmt, hstmt, List.mem_map_of_mem hmem⟩
  | kept _ _ _ _ ih => exact ih

theorem spansAgree_of_moveSpans (h : ∀ x ∈ moveSpans mir decisions, ∀ y ∈ moveSpans mir decisions,
    x.1 = y.1 → x.2.start = y.2.start → x.2 = y.2) : SpansAgree mir decisions :=
  fun _ m s t hs ht _ => h (m, s) hs.mem_moveSpans (m, t) ht.mem_moveSpans rfl

end

/-- Every place of the first map is in the second, with a span that starts no later. -/
def Below (a b : Moved) : Prop := ∀ m s, a.lookup m = some s → ∃ t, b.lookup m = some t ∧ t.start ≤ s.start

section

variable {mir : MirFunction} {decisions : Point → Option OwnershipDecision} {a a' b b' : Moved}

theorem Below.refl (a : Moved) : Below a a := fun _ s h => ⟨s, h, le_rfl⟩

theorem Below.trans {c : Moved} (h : Below a b) (h' : Below b c) : Below a c := by
  intro m s hs
  obtain ⟨t, ht, hts⟩ := h m s hs
  obtain ⟨u, hu, hut⟩ := h' m t ht
  exact ⟨u, hu, hut.trans hts⟩

theorem Below.of_lookup_eq (h : ∀ m, a.lookup m = b.lookup m) : Below a b :=
  fun m s hs => ⟨s, (h m).symm.trans hs, le_rfl⟩

theorem below_union_left (a b : Moved) : Below a (unionMovedPlaces a b) := by
  intro m s hs
  rw [lookup_unionMovedPlaces, hs]
  cases b.lookup m with
  | none => exact ⟨s, rfl, le_rfl⟩
  | some t =>
    by_cases hlt : t.start < s.start
    · exact ⟨t, by simp [earlierSpan, hlt], hlt.le⟩
    · exact ⟨s, by simp [earlierSpan, hlt], le_rfl⟩

theorem below_union_right (a b : Moved) : Below b (unionMovedPlaces a b) := by
  intro m t ht
  rw [lookup_unionMovedPlaces, ht]
  cases a.lookup m with
  | none => exact ⟨t, rfl, le_rfl⟩
  | some s =>
    by_cases hlt : t.start < s.start
    · exact ⟨t, by simp [earlierSpan, hlt], le_rfl⟩
    · exact ⟨s, by simp [earlierSpan, hlt], not_lt.mp hlt⟩

theorem Below.union (ha : Below a a') (hb : Below b b') :
    Below (unionMovedPlaces a b) (unionMovedPlaces a' b') := by
  intro m s hs
  rcases lookup_union_cases hs with h | h
  · exact (ha.trans (below_union_left a' b')) m s h
  · exact (hb.trans (below_union_right a' b')) m s h

theorem Below.retainUnwritten (h : Below a b) (dest : Option Place) :
    Below (retainUnwritten a dest) (retainUnwritten b dest) := by
  intro m s hs
  obtain ⟨hwritten, hkept⟩ := lookup_retainUnwritten a dest m
  by_cases hw : Overwrites dest m
  · rw [hwritten hw] at hs
    cases hs
  · rw [hkept hw] at hs
    rw [(lookup_retainUnwritten b dest m).2 hw]
    exact h m s hs

theorem Below.applyMoveTransfer (h : Below a b) (stmt : MirStatement) :
    Below (applyMoveTransfer mir decisions a stmt) (applyMoveTransfer mir decisions b stmt) := by
  intro m s hs
  obtain ⟨hin, -, -⟩ := @lookup_applyMoveTransfer mir decisions a stmt m
  obtain ⟨hin', -, -⟩ := @lookup_applyMoveTransfer mir decisions b stmt m
  by_cases hm : m ∈ actualMovePlaces mir decisions stmt
  · rw [hin hm] at hs
    exact ⟨s, (hin' hm).trans hs, le_rfl⟩
  · have hout := (lookup_insertAll (actualMovePlaces mir decisions stmt) stmt.span
      (Mir.retainUnwritten a (statementDestPlace stmt.kind)) m).2 hm
    have hout' := (lookup_insertAll (actualMovePlaces mir decisions stmt) stmt.span
      (Mir.retainUnwritten b (statementDestPlace stmt.kind)) m).2 hm
    rw [Mir.applyMoveTransfer, hout] at hs
    rw [Mir.applyMoveTransfer, hout']
    exact h.retainUnwritten _ m s hs

theorem Below.foldl_applyMoveTransfer (h : Below a b) (stmts : List MirStatement) :
    Below (stmts.foldl (Mir.applyMoveTransfer mir decisions) a)
      (stmts.foldl (Mir.applyMoveTransfer mir decisions) b) := by
  induction stmts generalizing a b with
  | nil => exact h
  | cons stmt stmts ih => exact ih (h.applyMoveTransfer stmt)

theorem Below.blockOut (h : Below a b) (bb : BasicBlock) :
    Below (blockOut mir decisions bb a) (blockOut mir decisions bb b) :=
  (h.foldl_applyMoveTransfer _).retainUnwritten _

theorem below_blockIn {cfg : ControlFlowGraph} {st st' : MoveStates}
    (h : ∀ p, Below (st.outStates p) (st'.outStates p)) (block : BasicBlockId) :
    Below (blockIn cfg st block) (blockIn cfg st' block) := by
  have hfold : ∀ (preds : List BasicBlockId) (a b : Moved), Below a b →
      Below (preds.foldl (fun moved pred => unionMovedPlaces moved (st.outStates pred)) a)
        (preds.foldl (fun moved pred => unionMovedPlaces moved (st'.outStates pred)) b) := by
    intro preds
    induction preds with
    | nil => exact fun a b hab => hab
    | cons pred preds ih => exact fun a b hab => ih _ _ (hab.union (h pred))
  exact hfold _ _ _ (.refl ∅)

theorem below_blockIn_of_mem {cfg : ControlFlowGraph} {st : MoveStates} {block pred : BasicBlockId}
    (h : pred ∈ cfg.predecessors block) : Below (st.outStates pred) (blockIn cfg st block) := by
  have hfold : ∀ (preds : List BasicBlockId) (moved : Moved), Below moved
      (preds.foldl (fun moved pred => unionMovedPlaces moved (st.outStates pred)) moved) ∧
      ∀ p ∈ preds, Below (st.outStates p)
        (preds.foldl (fun moved pred => unionMovedPlaces moved (st.outStates pred)) moved) := by
    intro preds
    induction preds with
    | nil => exact fun moved => ⟨.refl moved, fun p hp => absurd hp List.not_mem_nil⟩
    | cons q preds ih =>
      intro moved
      obtain ⟨hstart, hpreds⟩ := ih (unionMovedPlaces moved (st.outStates q))
      refine ⟨(below_union_left _ _).trans hstart, fun p hp => ?_⟩
      rcases List.mem_cons.mp hp with rfl | hp
      · exact (below_union_right _ _).trans hstart
      · exact hpreds p hp
  exact (hfold _ ∅).2 pred h

theorem lookup_eq_of_below (hab : Below a b) (hba : Below b a)
    (hagree : ∀ m s t, a.lookup m = some s → b.lookup m = some t → s.start = t.start → s = t) (m : Place) :
    a.lookup m = b.lookup m := by
  cases ha : a.lookup m with
  | none =>
    cases hb : b.lookup m with
    | none => rfl
    | some t =>
      obtain ⟨s, hs, -⟩ := hba m t hb
      rw [ha] at hs
      cases hs
  | some s =>
    obtain ⟨t, ht, hts⟩ := hab m s ha
    obtain ⟨s', hs', hst⟩ := hba m t ht
    obtain rfl : s = s' := Option.some.inj (ha.symm.trans hs')
    rw [ht, hagree m s t ha ht (le_antisymm hst hts)]

theorem Below.weight_le (h : Below a b) : weight mir decisions a ≤ weight mir decisions b := by
  refine Finset.card_le_card fun x hx => ?_
  obtain ⟨hmem, s, hs, hle⟩ := Finset.mem_filter.mp hx
  obtain ⟨t, ht, hts⟩ := h x.1 s hs
  exact Finset.mem_filter.mpr ⟨hmem, t, ht, hts.trans hle⟩

/-- Of two maps of one weight, each is below the other. -/
theorem Below.of_weight_le (h : Below a b)
    (hb : ∀ m t, b.lookup m = some t → (m, t) ∈ moveSpans mir decisions)
    (hle : weight mir decisions b ≤ weight mir decisions a) : Below b a := by
  intro m t ht
  have hsub : (moveSpans mir decisions).filter (fun x => ∃ s ∈ a.lookup x.1, s.start ≤ x.2.start) ⊆
      (moveSpans mir decisions).filter fun x => ∃ s ∈ b.lookup x.1, s.start ≤ x.2.start := by
    intro x hx
    obtain ⟨hmem, s, hs, hle⟩ := Finset.mem_filter.mp hx
    obtain ⟨t, ht, hts⟩ := h x.1 s hs
    exact Finset.mem_filter.mpr ⟨hmem, t, ht, hts.trans hle⟩
  have hmem : (m, t) ∈ (moveSpans mir decisions).filter fun x => ∃ s ∈ b.lookup x.1, s.start ≤ x.2.start :=
    Finset.mem_filter.mpr ⟨hb m t ht, t, ht, le_rfl⟩
  rw [← Finset.eq_of_subset_of_card_le hsub hle] at hmem
  obtain ⟨-, s, hs, hst⟩ := Finset.mem_filter.mp hmem
  exact ⟨s, hs, hst⟩

variable (mir decisions) in
/-- The states of a run: they hold what is carried and are not above what the next turn computes. -/
structure Climbing (st : MoveStates) : Prop where
  traced : Traced mir decisions st
  below : ∀ p bb, mir.block? p = some bb →
    Below (st.inStates p) (Mir.blockIn (ControlFlowGraph.build mir) st p) ∧
      Below (st.outStates p) (Mir.blockOut mir decisions bb (Mir.blockIn (ControlFlowGraph.build mir) st p))

variable (mir decisions) in
def MoveStates.totalWeight (st : MoveStates) : Nat :=
  ∑ p ∈ Finset.range mir.blocks.length, (weight mir decisions (st.inStates p) + weight mir decisions
    (st.outStates p))

/-- At a block the states already hold spans that start as early as those the next turn computes. -/
def Settled (mir : MirFunction) (decisions : Point → Option OwnershipDecision) (p : BasicBlockId)
    (st : MoveStates) :
    Prop :=
  ∀ bb, mir.block? p = some bb → Below (Mir.blockIn (ControlFlowGraph.build mir) st p) (st.inStates p) ∧
    Below (Mir.blockOut mir decisions bb (Mir.blockIn (ControlFlowGraph.build mir) st p)) (st.outStates p)

section Step

variable {st st' : MoveStates} {p : BasicBlockId}

theorem Climbing.grows (h : Climbing mir decisions st)
    (hstep : moveStep mir decisions (ControlFlowGraph.build mir) st p = some st') (q : BasicBlockId) :
    Below (st.inStates q) (st'.inStates q) ∧ Below (st.outStates q) (st'.outStates q) := by
  obtain ⟨bb, hb, -, hother, hself⟩ := moveStep_cases hstep
  obtain ⟨hin, hout⟩ := h.below p bb hb
  by_cases hq : q = p
  · subst hq
    exact ⟨hin.trans (.of_lookup_eq fun m => ((hself m).1).symm), hout.trans
      (.of_lookup_eq fun m => ((hself m).2).symm)⟩
  · rw [(hother q hq).1, (hother q hq).2]
    exact ⟨.refl _, .refl _⟩

theorem Climbing.step (h : Climbing mir decisions st) (hreach : (ControlFlowGraph.build mir).Reaches 0 p)
    (hstep : moveStep mir decisions (ControlFlowGraph.build mir) st p = some st') :
    Climbing mir decisions st' ∧ st.totalWeight mir decisions ≤ st'.totalWeight mir decisions := by
  have hgrows := h.grows hstep
  have htraced : Traced mir decisions st' := h.traced.step hreach hstep
  obtain ⟨bb, hb, -, hother, hself⟩ := moveStep_cases hstep
  have hmono : ∀ q, Below (Mir.blockIn (ControlFlowGraph.build mir) st q)
      (Mir.blockIn (ControlFlowGraph.build mir) st' q) := below_blockIn fun q => (hgrows q).2
  refine ⟨⟨htraced, fun q bb' hq' => ?_⟩, ?_⟩
  · by_cases hq : q = p
    · subst hq
      obtain rfl : bb = bb' := Option.some.inj (hb.symm.trans hq')
      exact ⟨(Below.of_lookup_eq fun m => (hself m).1).trans (hmono q),
        (Below.of_lookup_eq fun m => (hself m).2).trans ((hmono q).blockOut bb)⟩
    · rw [(hother q hq).1, (hother q hq).2]
      obtain ⟨hqin, hqout⟩ := h.below q bb' hq'
      exact ⟨hqin.trans (hmono q), hqout.trans ((hmono q).blockOut bb')⟩
  · exact Finset.sum_le_sum fun q _ => Nat.add_le_add (hgrows q).1.weight_le (hgrows q).2.weight_le

/-- A turn that does not climb only exchanges spans that start together. -/
theorem Climbing.stays (h : Climbing mir decisions st) (htraced : Traced mir decisions st')
    (hstep : moveStep mir decisions (ControlFlowGraph.build mir) st p = some st')
    (hsize : st'.totalWeight mir decisions = st.totalWeight mir decisions) (q : BasicBlockId) :
    Below (st'.inStates q) (st.inStates q) ∧ Below (st'.outStates q) (st.outStates q) := by
  have hgrows := h.grows hstep
  obtain ⟨bb, hb, -, hother, -⟩ := moveStep_cases hstep
  by_cases hq : q = p
  · subst hq
    have hsame := (Finset.sum_eq_sum_iff_of_le fun q _ =>
      Nat.add_le_add (hgrows q).1.weight_le (hgrows q).2.weight_le).mp hsize.symm q
        (Finset.mem_range.mpr (MirFunction.block?_lt hb))
    have hin : weight mir decisions (st.inStates q) ≤ _ := (hgrows q).1.weight_le
    have hout : weight mir decisions (st.outStates q) ≤ _ := (hgrows q).2.weight_le
    constructor
    · exact (hgrows q).1.of_weight_le (fun m t ht => (htraced.inStates q m t ht).mem_moveSpans) (by omega)
    · exact (hgrows q).2.of_weight_le (fun m t ht => (htraced.outStates q m t ht).2.1.mem_moveSpans)
        (by omega)
  · rw [(hother q hq).1, (hother q hq).2]
    exact ⟨.refl _, .refl _⟩

theorem settled_of_none (hnone : moveStep mir decisions (ControlFlowGraph.build mir) st p = none) :
    Settled mir decisions p st := by
  intro bb hb
  simp only [moveStep, hb] at hnone
  split at hnone
  · rename_i hsame
    exact ⟨.of_lookup_eq fun m => (perm_iff_lookup.mp (of_decide_eq_true hsame.1) m).symm,
      .of_lookup_eq fun m => (perm_iff_lookup.mp (of_decide_eq_true hsame.2) m).symm⟩
  · cases hnone

theorem Climbing.settles (h : Climbing mir decisions st) (htraced : Traced mir decisions st')
    (hstep : moveStep mir decisions (ControlFlowGraph.build mir) st p = some st')
    (hsize : st'.totalWeight mir decisions = st.totalWeight mir decisions) :
    Settled mir decisions p st' ∧ ∀ q, Settled mir decisions q st → Settled mir decisions q st' := by
  have hgrows := h.grows hstep
  have hback : ∀ q, Below (Mir.blockIn (ControlFlowGraph.build mir) st' q)
      (Mir.blockIn (ControlFlowGraph.build mir) st q) :=
    below_blockIn fun q => (h.stays htraced hstep hsize q).2
  obtain ⟨bb, hb, -, -, hself⟩ := moveStep_cases hstep
  constructor
  · intro bb' hb'
    obtain rfl : bb = bb' := Option.some.inj (hb.symm.trans hb')
    exact ⟨(hback p).trans (.of_lookup_eq fun m => ((hself m).1).symm),
      ((hback p).blockOut bb).trans (.of_lookup_eq fun m => ((hself m).2).symm)⟩
  · intro q hq bb' hb'
    obtain ⟨hin, hout⟩ := hq bb' hb'
    exact ⟨((hback q).trans hin).trans (hgrows q).1, (((hback q).blockOut bb').trans hout).trans
      (hgrows q).2⟩

end Step

section Done

variable {st : MoveStates} (h : Climbing mir decisions st)
  (hall : ∀ p, (ControlFlowGraph.build mir).Reaches 0 p → Settled mir decisions p st)

include h hall

/-- Once everything is settled, the spans in front of a cursor start no later than any carried there. -/
theorem start_le_of_carriedTo {c : Cursor} {m : Place} {r : Span}
    (hreach : (ControlFlowGraph.build mir).Reaches 0 c.block) (hcarried : CarriedTo mir decisions m r c) :
    ∃ x, (movedAt mir decisions st c).lookup m = some x ∧ x.start ≤ r.start := by
  induction hcarried with
  | @moved c d stmt hstep hat hmem =>
    obtain ⟨hstep, -⟩ := hstep
    cases hstep with
    | @next b i hi =>
      obtain ⟨stmt', hat', hnext⟩ := movedAt_next hi
      obtain rfl := Option.some.inj (hat.symm.trans hat')
      refine ⟨stmt.span, ?_, le_rfl⟩
      rw [hnext]
      exact (lookup_applyMoveTransfer _ stmt m).1 hmem
    | @jump b s hsucc =>
      rw [stmtAt_terminator] at hat
      cases hat
  | @kept c d r _ hstep hw hmoves ih =>
    obtain ⟨x, hx, hle⟩ := ih (hstep.reaches hreach)
    have hfrom := hstep.reaches hreach
    obtain ⟨hstep, -⟩ := hstep
    cases hstep with
    | @next b i hi =>
      obtain ⟨stmt, hat, hnext⟩ := movedAt_next hi
      rw [movesAt, hat] at hmoves
      rw [destAt, hat] at hw
      refine ⟨x, ?_, hle⟩
      rw [hnext]
      exact ((lookup_applyMoveTransfer _ stmt m).2.2 hmoves hw).trans hx
    | @jump b s hsucc =>
      obtain ⟨bb, hb, hterm, sb, hsb⟩ := ControlFlowGraph.exists_block?_of_mem_successors hsucc
      -- out of the block, and into the block behind it
      have hout : (Mir.blockOut mir decisions bb (st.inStates b)).lookup m = some x :=
        (lookup_blockOut_inStates hb hw).trans hx
      obtain ⟨y, hy, hyx⟩ := (((h.below b bb hb).1.blockOut bb).trans (hall b hfrom bb hb).2) m x hout
      have hpred : b ∈ (ControlFlowGraph.build mir).predecessors s :=
        ControlFlowGraph.mem_predecessors_build.mpr
          ⟨bb, MirFunction.block?_mem hb, MirFunction.id_of_block? hb, hterm⟩
      obtain ⟨z, hz, hzy⟩ := ((below_blockIn_of_mem hpred).trans (hall s hreach sb hsb).1) m y hy
      refine ⟨z, ?_, hzy.trans (hyx.trans hle)⟩
      rw [movedAt, hsb]
      simp only
      rw [movedBefore_zero]
      exact hz

/-- Once everything is settled and the first spans are unique, a turn changes nothing. -/
theorem moveStep_eq_none (hspans : SpansAgree mir decisions) {p : BasicBlockId}
    (hreach : (ControlFlowGraph.build mir).Reaches 0 p) :
    moveStep mir decisions (ControlFlowGraph.build mir) st p = none := by
  cases hb : mir.block? p with
  | none => simp [moveStep, hb]
  | some bb =>
    obtain ⟨hinUp, houtUp⟩ := h.below p bb hb
    obtain ⟨hinDown, houtDown⟩ := hall p hreach bb hb
    -- above and below agree on which places are moved, and the spans that start first are one
    have hin : ∀ m, (st.inStates p).lookup m =
        (Mir.blockIn (ControlFlowGraph.build mir) st p).lookup m := by
      refine lookup_eq_of_below hinUp hinDown fun m s t hs ht heq => ?_
      refine hspans ⟨p, 0⟩ m s t (h.traced.inStates p m s hs) (h.traced.blockIn ht) (fun r hr => ?_) heq
      obtain ⟨x, hx, hle⟩ := start_le_of_carriedTo h hall hreach hr
      rw [movedAt_eq hb, movedBefore_zero, hs] at hx
      obtain rfl := Option.some.inj hx
      exact hle
    have hout : ∀ m, (st.outStates p).lookup m =
        (Mir.blockOut mir decisions bb (Mir.blockIn (ControlFlowGraph.build mir) st p)).lookup m := by
      refine lookup_eq_of_below houtUp houtDown fun m s t hs ht heq => ?_
      obtain ⟨-, hcarried, hnot⟩ := h.traced.outStates p m s hs
      refine hspans _ m s t hcarried (h.traced.blockOut hb ht).1 (fun r hr => ?_) heq
      obtain ⟨x, hx, hle⟩ := start_le_of_carriedTo h hall hreach hr
      rw [← lookup_blockOut_inStates hb hnot] at hx
      -- what is carried out of the block went through its statements and was not written by the
      -- call
      obtain ⟨y, hy, hyx⟩ := ((hinUp.blockOut bb).trans houtDown) m x hx
      obtain rfl : s = y := Option.some.inj (hs.symm.trans hy)
      exact hyx.trans hle
    have hsameIn : sameMap (st.inStates p) (Mir.blockIn (ControlFlowGraph.build mir) st p) = true :=
      decide_eq_true (perm_iff_lookup.mpr hin)
    have hsameOut : sameMap (st.outStates p)
        (Mir.blockOut mir decisions bb (Mir.blockIn (ControlFlowGraph.build mir) st p)) = true :=
      decide_eq_true (perm_iff_lookup.mpr hout)
    simp only [moveStep, hb]
    rw [if_pos ⟨hsameIn, hsameOut⟩]

end Done

/-- **The dataflow ends** if, of the moves of a place that meet, those that start first have one span. -/
theorem moveStates_isSome (hspans : SpansAgree mir decisions) :
    ∃ fuel states, moveStates mir decisions fuel (ControlFlowGraph.build mir) = some states := by
  let bound := mir.blocks.length * (2 * (moveSpans mir decisions).card)
  let fuel := 2 * bound + mir.blocks.length + 2
  obtain ⟨rpo, hrpo⟩ := @ControlFlowGraph.reversePostorder_isSome mir fuel (by omega)
  have hreach : ∀ p ∈ rpo, (ControlFlowGraph.build mir).Reaches 0 p :=
    fun p hp => ControlFlowGraph.reaches_of_mem_reversePostorder hrpo hp
  have hstart : Climbing mir decisions { inStates := fun _ => ∅, outStates := fun _ => ∅ } :=
    ⟨⟨fun _ _ _ h => by simp at h, fun _ _ _ h => by simp at h⟩,
      fun _ _ _ => ⟨fun m s h => by simp at h, fun m s h => by simp at h⟩⟩
  -- each place of a state counts by the spans it has gone through, and these are finitely many
  have hbound : ∀ st, Climbing mir decisions st → st.totalWeight mir decisions ≤ bound := by
    intro st _
    have hle : st.totalWeight mir decisions ≤
        ∑ _p ∈ Finset.range mir.blocks.length, 2 * (moveSpans mir decisions).card := by
      refine Finset.sum_le_sum fun p _ => ?_
      have hin : weight mir decisions (st.inStates p) ≤ _ := Finset.card_filter_le _ _
      have hout : weight mir decisions (st.outStates p) ≤ _ := Finset.card_filter_le _ _
      omega
    simpa using hle
  obtain ⟨states, hstates⟩ := @Fixpoint.loop_isSome_of_settled _ _
    (moveStep mir decisions (ControlFlowGraph.build mir)) rpo (Climbing mir decisions)
    (MoveStates.totalWeight mir decisions) (Settled mir decisions) bound
    (fun s p s' hs hp hs' => hs.step (hreach p hp) hs') (fun s p _ _ hnone => settled_of_none hnone)
    (fun s p s' hs hp hs' hsize => hs.settles (hs.traced.step (hreach p hp) hs') hs' hsize)
    (fun s hs hall p hp => moveStep_eq_none hs
      (fun q hq => hall q (ControlFlowGraph.mem_reversePostorder hrpo hq)) hspans (hreach p hp))
    hbound fuel _ hstart (by omega)
  exact ⟨fuel, states, by rw [moveStates, hrpo]; exact hstates⟩

end

/-! ## What is reported -/

/-- The searches at a statement; each tries its tests in turn until one finds a moved place. -/
def StatementKind.searches (kind : StatementKind) : List (List (Place → Bool)) :=
  (statementReadPlaces kind).map Place.conflictsWith ::
  ((statementBorrowPlace kind).toList.map fun place => [place.conflictsWith]) ++
  (statementDestPlace kind).toList.map fun dest =>
    [fun m => dest.conflictsWith m && !reinitializesMovedPlace dest m]

def TerminatorKind.searches : TerminatorKind → List (List (Place → Bool))
  | .call func args _ _ => ((func :: args).filterMap Operand.place?).map fun place => [place.conflictsWith]
  | _ => []

/-- What a search may find, whatever the order in which it walks the moved places: one that
satisfies the first test that some moved place satisfies. -/
def Finds (moved : Place → Prop) : List (Place → Bool) → Place → Prop
  | [], _ => False
  | test :: tests, m =>
    (moved m ∧ test m = true) ∨ ((∀ m', moved m' → test m' = false) ∧ Finds moved tests m)

/-- The walk over the function comes to the first cursor before the second. -/
def Cursor.Before (v u : Cursor) : Prop := v.block < u.block ∨ v.block = u.block ∧ v.idx < u.idx

section

variable (mir : MirFunction) (decisions : Point → Option OwnershipDecision) (c : Cursor)

def searchesAt : List (List (Place → Bool)) :=
  match stmtAt mir c with
  | some stmt => stmt.kind.searches
  | none => ((mir.block? c.block).map fun bb => bb.terminator.kind.searches).getD []

/-- The number under which a report at a cursor is entered. -/
def keyPointAt : Option Nat :=
  match stmtAt mir c with
  | some stmt => some stmt.point
  | none => (mir.block? c.block).map fun bb => bb.terminator.span.start % 2 ^ 32

/-- A search at the cursor would stop at this moved place. -/
def InspectsAt (m : Place) : Prop := ∃ search ∈ searchesAt mir c, search.any (· m) = true

def MayFindAt (m : Place) : Prop := ∃ search ∈ searchesAt mir c, Finds (HeldMoved mir decisions c) search m

/-- Whatever is found at the cursor, nothing found before it is entered under the same key. -/
def KeyFree (display : Place → String) (u : Cursor) : Prop :=
  ∀ v m m', v.Before u → MayFindAt mir decisions v m → MayFindAt mir decisions u m' →
    keyPointAt mir v = keyPointAt mir u → display m ≠ display m'

end

section

variable {order : HashOrder Place} {moved : Moved} {point : List Nat}

theorem findMoved_isSome {test : Place → Bool} :
    (findMoved order point moved test).isSome ↔ ∃ m, moved.lookup m ≠ none ∧ test m = true := by
  have hkeys : ∀ m, m ∈ order.walk point moved.keys ↔ moved.lookup m ≠ none := by
    intro m
    rw [(order.perm point moved.keys).mem_iff, ← Option.isSome_iff_ne_none, AList.lookup_isSome]
    rfl
  unfold findMoved
  cases hfind : (order.walk point moved.keys).find? test with
  | none =>
    simp only [Option.bind_eq_bind, Option.bind_none, Option.isSome_none, Bool.false_eq_true, false_iff]
    rintro ⟨m, hm, htest⟩
    exact List.find?_eq_none.mp hfind m ((hkeys m).mpr hm) htest
  | some m =>
    have hm := (hkeys m).mp (List.mem_of_find?_eq_some hfind)
    obtain ⟨span, hspan⟩ := Option.ne_none_iff_exists'.mp hm
    have htest := List.find?_some hfind
    simp only [Option.bind_eq_bind, Option.bind_some, hspan, Option.isSome_some, true_iff]
    exact ⟨m, hm, htest⟩

theorem findMoved_spec {test : Place → Bool} {found : Place × Span}
    (h : findMoved order point moved test = some found) :
    moved.lookup found.1 ≠ none ∧ test found.1 = true := by
  obtain ⟨m, hfind, hspan⟩ := Option.bind_eq_some_iff.mp h
  obtain ⟨span, hlookup, heq⟩ := Option.bind_eq_some_iff.mp hspan
  obtain rfl := Option.some.inj heq
  exact ⟨by simp [hlookup], List.find?_some hfind⟩

/-- What a search comes to. -/
def searchFound (order : HashOrder Place) (point : List Nat) (moved : Moved)
    (search : List (Place → Bool)) :
    Option (Place × Span) := search.findSome? (findMoved order point moved)

theorem searchFound_isSome {search : List (Place → Bool)} :
    (searchFound order point moved search).isSome ↔ ∃ m, moved.lookup m ≠ none ∧ search.any
    (· m) = true := by
  rw [searchFound, List.isSome_findSome?, List.any_eq_true]
  constructor
  · rintro ⟨test, htest, hfound⟩
    obtain ⟨m, hm, hholds⟩ := findMoved_isSome.mp hfound
    exact ⟨m, hm, List.any_eq_true.mpr ⟨test, htest, hholds⟩⟩
  · rintro ⟨m, hm, hany⟩
    obtain ⟨test, htest, hholds⟩ := List.any_eq_true.mp hany
    exact ⟨test, htest, findMoved_isSome.mpr ⟨m, hm, hholds⟩⟩

theorem finds_of_searchFound {search : List (Place → Bool)} {found : Place × Span}
    (h : searchFound order point moved search = some found) :
    Finds (fun m => moved.lookup m ≠ none) search found.1 := by
  induction search with
  | nil => cases h
  | cons test tests ih =>
    rw [searchFound, List.findSome?_cons] at h
    cases hfind : findMoved order point moved test with
    | some found' =>
      rw [hfind] at h
      obtain rfl := Option.some.inj h
      exact Or.inl (findMoved_spec hfind)
    | none =>
      rw [hfind] at h
      refine Or.inr ⟨fun m hm => ?_, ih h⟩
      by_contra htest
      have hsome := (@findMoved_isSome order moved point test).mpr ⟨m, hm, by simpa using htest⟩
      rw [hfind] at hsome
      cases hsome

variable {c : Cursor} {check : Check}

theorem statementChecks_of_mem {stmt : MirStatement} (h : check ∈ statementChecks order c moved stmt) :
    check.cursor = c ∧ check.keyPoint = stmt.point ∧
      ∃ search ∈ stmt.kind.searches, ∃ point, check.found = searchFound order point moved search := by
  simp only [statementChecks, List.mem_cons, List.mem_append, List.mem_map] at h
  simp only [StatementKind.searches, List.mem_cons, List.mem_append, List.mem_map]
  rcases h with (rfl | ⟨place, hplace, rfl⟩) | ⟨dest, hdest, rfl⟩
  · refine ⟨rfl, rfl, _, Or.inl (Or.inl rfl), [c.block, c.idx] ++ [0], ?_⟩
    rw [searchFound, List.findSome?_map]
    rfl
  · refine ⟨rfl, rfl, _, Or.inl (Or.inr ⟨place, hplace, rfl⟩), [c.block, c.idx] ++ [1], ?_⟩
    simp [searchFound, findMovedPlaceConflict]
  · refine ⟨rfl, rfl, _, Or.inr ⟨dest, hdest, rfl⟩, [c.block, c.idx] ++ [2], ?_⟩
    simp [searchFound]

theorem exists_statementChecks {stmt : MirStatement} {search : List (Place → Bool)}
    (h : search ∈ stmt.kind.searches) :
    ∃ check ∈ statementChecks order c moved stmt, ∃ point, check.found = searchFound order point
      moved search := by
  simp only [statementChecks, List.mem_cons, List.mem_append, List.mem_map]
  simp only [StatementKind.searches, List.mem_cons, List.mem_append, List.mem_map] at h
  rcases h with (rfl | ⟨place, hplace, rfl⟩) | ⟨dest, hdest, rfl⟩
  · refine ⟨_, Or.inl (Or.inl rfl), [c.block, c.idx] ++ [0], ?_⟩
    rw [searchFound, List.findSome?_map]
    rfl
  · refine ⟨_, Or.inl (Or.inr ⟨place, hplace, rfl⟩), [c.block, c.idx] ++ [1], ?_⟩
    simp [searchFound, findMovedPlaceConflict]
  · refine ⟨_, Or.inr ⟨dest, hdest, rfl⟩, [c.block, c.idx] ++ [2], ?_⟩
    simp [searchFound]

theorem terminatorChecks_of_mem {terminator : Terminator}
    (h : check ∈ terminatorChecks order c moved terminator) :
    check.cursor = c ∧ check.keyPoint = terminator.span.start % 2 ^ 32 ∧
      ∃ search ∈ terminator.kind.searches, ∃ point, check.found = searchFound order point moved search := by
  unfold terminatorChecks at h
  unfold TerminatorKind.searches
  cases hkind : terminator.kind with
  | call func args destination next =>
    rw [hkind] at h
    obtain ⟨place, hplace, rfl⟩ := List.mem_map.mp h
    refine ⟨rfl, rfl, _, List.mem_map_of_mem hplace, [c.block, c.idx], ?_⟩
    simp [searchFound, findMovedPlaceConflict]
  | _ =>
    rw [hkind] at h
    exact absurd h List.not_mem_nil

theorem exists_terminatorChecks {terminator : Terminator} {search : List (Place → Bool)}
    (h : search ∈ terminator.kind.searches) :
    ∃ check ∈ terminatorChecks order c moved terminator, ∃ point,
      check.found = searchFound order point moved search := by
  unfold TerminatorKind.searches at h
  unfold terminatorChecks
  cases hkind : terminator.kind with
  | call func args destination next =>
    rw [hkind] at h
    obtain ⟨place, hplace, rfl⟩ := List.mem_map.mp h
    refine ⟨_, List.mem_map_of_mem hplace, [c.block, c.idx], ?_⟩
    simp [searchFound, findMovedPlaceConflict]
  | _ =>
    rw [hkind] at h
    exact absurd h List.not_mem_nil

/-! ### The keys -/

variable {display : Place → String} {checks : List Check}

/-- A report is made where a search found something. -/
theorem found_of_mem_report {u : Cursor} {e : UseAfterMove}
    (h : (u, e) ∈ (checks.foldl (report display) ([], [])).1) :
    ∃ check ∈ checks, check.cursor = u ∧ check.found.isSome = true := by
  induction checks using List.reverseRecOn with
  | nil => cases h
  | append_singleton checks x ih =>
    rw [List.foldl_append, List.foldl_cons, List.foldl_nil] at h
    have hold : (u, e) ∈ (checks.foldl (report display) ([], [])).1 →
        ∃ check ∈ checks ++ [x], check.cursor = u ∧ check.found.isSome = true := by
      intro he
      obtain ⟨check, hcheck, h⟩ := ih he
      exact ⟨check, List.mem_append_left _ hcheck, h⟩
    -- a search that found something under a key that was seen is not reported again
    unfold report at h
    cases hfound : x.found with
    | none =>
      rw [hfound] at h
      exact hold h
    | some found =>
      rw [hfound] at h
      simp only at h
      split at h
      · exact hold h
      · rcases List.mem_append.mp h with h | h
        · exact hold h
        · obtain ⟨rfl, -⟩ := Prod.mk.inj (List.mem_singleton.mp h)
          exact ⟨x, List.mem_append_right _ (List.mem_singleton_self x), rfl, by rw [hfound]; rfl⟩

/-- Where no search before it, at another cursor, has the same key, what is found at a cursor is
reported. -/
theorem mem_report_of_found {u : Cursor}
    (hfree : checks.Pairwise fun y x => x.cursor = u → y.cursor ≠ u → ∀ p ∈ y.found, ∀ q ∈ x.found,
      (y.keyPoint, display p.1) ≠ (x.keyPoint, display q.1))
    (hcheck : check ∈ checks) (hu : check.cursor = u) (hfound : check.found.isSome = true) :
    ∃ e, (u, e) ∈ (checks.foldl (report display) ([], [])).1 := by
  -- a key in `seen` is that of an earlier search; if it was made at `u`, there is a report at `u`
  have hinv : (∀ key ∈ (checks.foldl (report display) ([], [])).2, ∃ y ∈ checks, ∃ p ∈ y.found,
        key = (y.keyPoint, display p.1)) ∧
      ∀ x ∈ checks, x.cursor = u → x.found.isSome = true →
        ∃ e, (u, e) ∈ (checks.foldl (report display) ([], [])).1 := by
    clear hcheck hu hfound
    induction checks using List.reverseRecOn with
    | nil => simp
    | append_singleton checks x ih =>
      obtain ⟨hpairs, -, hlast⟩ := List.pairwise_append.mp hfree
      have hlast : ∀ y ∈ checks, x.cursor = u → y.cursor ≠ u → ∀ p ∈ y.found, ∀ q ∈ x.found,
          (y.keyPoint, display p.1) ≠ (x.keyPoint, display q.1) :=
        fun y hy => hlast y hy x (List.mem_singleton_self x)
      obtain ⟨hkeys, hmade⟩ := ih hpairs
      rw [List.foldl_append, List.foldl_cons, List.foldl_nil]
      generalize checks.foldl (report display) ([], []) = st at hkeys hmade
      have hkeys' : ∀ key ∈ st.2, ∃ y ∈ checks ++ [x], ∃ p ∈ y.found, key = (y.keyPoint, display p.1) := by
        intro key hkey
        obtain ⟨y, hy, h⟩ := hkeys key hkey
        exact ⟨y, List.mem_append_left _ hy, h⟩
      unfold report
      cases hxf : x.found with
      | none =>
        refine ⟨hkeys', fun z hz hzu hsome => ?_⟩
        rcases List.mem_append.mp hz with hz | hz
        · exact hmade z hz hzu hsome
        · rw [List.mem_singleton.mp hz, hxf] at hsome
          cases hsome
      | some found =>
        simp only
        split
        · rename_i hkey
          refine ⟨hkeys', fun z hz hzu hsome => ?_⟩
          rcases List.mem_append.mp hz with hz | hz
          · exact hmade z hz hzu hsome
          · -- the key was there: the earlier search that entered it was made at `u` as well
            obtain rfl := List.mem_singleton.mp hz
            obtain ⟨y, hy, p, hp, heq⟩ := hkeys _ hkey
            have hyu : y.cursor = u := by
              by_contra hne
              exact hlast y hy hzu hne p hp found hxf heq.symm
            exact hmade y hy hyu (Option.isSome_of_mem hp)
        · refine ⟨fun key hkey => ?_, fun z hz hzu hsome => ?_⟩
          · rcases List.mem_cons.mp hkey with rfl | hkey
            · exact ⟨x, List.mem_append_right _ (List.mem_singleton_self x), found, hxf, rfl⟩
            · exact hkeys' key hkey
          · rcases List.mem_append.mp hz with hz | hz
            · obtain ⟨e, he⟩ := hmade z hz hzu hsome
              exact ⟨e, List.mem_append_left _ he⟩
            · rw [← hzu, List.mem_singleton.mp hz]
              exact ⟨_, List.mem_append_right _ (List.mem_singleton_self _)⟩
  exact hinv.2 check hcheck hu hfound

end

section

variable {mir : MirFunction} {decisions : Point → Option OwnershipDecision} {order : HashOrder Place}
  {states : MoveStates}

/-- All searches of the walk over the blocks. -/
def allChecks (mir : MirFunction) (decisions : Point → Option OwnershipDecision) (order : HashOrder Place)
    (states : MoveStates) : List Check :=
  mir.blocks.flatMap fun bb => blockChecks mir decisions order bb (states.inStates bb.id)

/-- A cursor of the function. -/
def OnFunction (mir : MirFunction) (u : Cursor) : Prop :=
  ∃ bb, mir.block? u.block = some bb ∧ u.idx ≤ bb.statements.length

theorem allChecks_of_mem {check : Check} (h : check ∈ allChecks mir decisions order states) :
    OnFunction mir check.cursor ∧ keyPointAt mir check.cursor = some check.keyPoint ∧
      ∃ search ∈ searchesAt mir check.cursor, ∃ point,
        check.found = searchFound order point (movedAt mir decisions states check.cursor) search := by
  obtain ⟨bb, hbb, hcheck⟩ := List.mem_flatMap.mp h
  have hb := MirFunction.block?_of_mem hbb
  -- the searches of the statements, then those of the terminator
  rcases List.mem_append.mp hcheck with hcheck | hcheck
  · obtain ⟨⟨stmt, i⟩, hmem, hcheck⟩ := List.mem_flatMap.mp hcheck
    have hstmt : bb.statements[i]? = some stmt := List.mem_zipIdx_iff_getElem?.mp hmem
    have hat : stmtAt mir ⟨bb.id, i⟩ = some stmt := by
      rw [stmtAt, MirFunction.statements_of_block? hb]
      exact hstmt
    obtain ⟨hcursor, hkey, search, hsearch, point, hfound⟩ := statementChecks_of_mem hcheck
    rw [hcursor]
    refine ⟨⟨bb, hb, (List.getElem?_eq_some_iff.mp hstmt).1.le⟩, ?_, search, ?_, point, ?_⟩
    · rw [keyPointAt, hat, hkey]
    · rw [searchesAt, hat]
      exact hsearch
    · rw [movedAt_eq hb]
      exact hfound
  · have hat : stmtAt mir ⟨bb.id, bb.statements.length⟩ = none := by
      rw [stmtAt, MirFunction.statements_of_block? hb]
      exact List.getElem?_length _
    obtain ⟨hcursor, hkey, search, hsearch, point, hfound⟩ := terminatorChecks_of_mem hcheck
    rw [hcursor]
    refine ⟨⟨bb, hb, le_rfl⟩, ?_, search, ?_, point, ?_⟩
    · simp [keyPointAt, hat, hkey, hb]
    · simpa [searchesAt, hat, hb] using hsearch
    · rw [movedAt_eq hb]
      exact hfound

theorem exists_allChecks {u : Cursor} (hu : OnFunction mir u) {search : List (Place → Bool)}
    (hsearch : search ∈ searchesAt mir u) :
    ∃ check ∈ allChecks mir decisions order states, check.cursor = u ∧ ∃ point,
      check.found = searchFound order point (movedAt mir decisions states u) search := by
  obtain ⟨bb, hb, hidx⟩ := hu
  obtain ⟨b, j⟩ := u
  obtain rfl : bb.id = b := MirFunction.id_of_block? hb
  have hblock : ∀ check ∈ blockChecks mir decisions order bb (states.inStates bb.id),
      check ∈ allChecks mir decisions order states :=
    fun check hcheck => List.mem_flatMap.mpr ⟨bb, MirFunction.block?_mem hb, hcheck⟩
  rw [movedAt_eq hb]
  -- the cursor is at a statement, or behind the last one
  cases hstmt : bb.statements[j]? with
  | some stmt =>
    have hat : stmtAt mir ⟨bb.id, j⟩ = some stmt := by
      rw [stmtAt, MirFunction.statements_of_block? hb]
      exact hstmt
    rw [searchesAt, hat] at hsearch
    obtain ⟨check, hcheck, hfound⟩ := exists_statementChecks hsearch
    refine ⟨check, hblock check (List.mem_append_left _ ?_), (statementChecks_of_mem hcheck).1, hfound⟩
    exact List.mem_flatMap.mpr ⟨(stmt, j), List.mem_zipIdx_iff_getElem?.mpr hstmt, hcheck⟩
  | none =>
    obtain rfl : j = bb.statements.length := le_antisymm hidx (List.getElem?_eq_none_iff.mp hstmt)
    have hat : stmtAt mir ⟨bb.id, bb.statements.length⟩ = none := by
      rw [stmtAt, MirFunction.statements_of_block? hb]
      exact hstmt
    have hsearch : search ∈ bb.terminator.kind.searches := by simpa [searchesAt, hat, hb] using hsearch
    obtain ⟨check, hcheck, hfound⟩ := exists_terminatorChecks hsearch
    exact ⟨check, hblock check (List.mem_append_right _ hcheck), (terminatorChecks_of_mem hcheck).1, hfound⟩

/-- The walk makes its searches in the order of the cursors. -/
theorem allChecks_sorted : (allChecks mir decisions order states).Pairwise fun y x =>
    y.cursor = x.cursor ∨ y.cursor.Before x.cursor := by
  -- the checks of a block stand at cursors of that block
  have hcursor : ∀ bb, ∀ check ∈ blockChecks mir decisions order bb (states.inStates bb.id),
      check.cursor.block = bb.id := by
    intro bb check hcheck
    rcases List.mem_append.mp hcheck with hcheck | hcheck
    · obtain ⟨⟨stmt, i⟩, -, hcheck⟩ := List.mem_flatMap.mp hcheck
      rw [(statementChecks_of_mem hcheck).1]
    · rw [(terminatorChecks_of_mem hcheck).1]
  refine List.pairwise_flatMap.mpr ⟨fun bb _ => ?_, ?_⟩
  -- within a block by statement, the terminator last
  · refine List.pairwise_append.mpr ⟨List.pairwise_flatMap.mpr ⟨fun p _ => ?_, ?_⟩, ?_, fun y hy x hx => ?_⟩
    · refine List.pairwise_of_forall_mem_list fun y hy x hx => Or.inl ?_
      rw [(statementChecks_of_mem hy).1, (statementChecks_of_mem hx).1]
    · refine List.pairwise_iff_getElem.mpr fun i j hi hj hij y hy x hx => Or.inr (Or.inr ?_)
      rw [(statementChecks_of_mem hy).1, (statementChecks_of_mem hx).1]
      simpa using hij
    · refine List.pairwise_of_forall_mem_list fun y hy x hx => Or.inl ?_
      rw [(terminatorChecks_of_mem hy).1, (terminatorChecks_of_mem hx).1]
    · obtain ⟨⟨stmt, i⟩, hmem, hy⟩ := List.mem_flatMap.mp hy
      rw [(statementChecks_of_mem hy).1, (terminatorChecks_of_mem hx).1]
      refine Or.inr (Or.inr ⟨rfl, ?_⟩)
      exact (List.getElem?_eq_some_iff.mp (List.mem_zipIdx_iff_getElem?.mp hmem)).1
  -- across blocks by their ids
  · have hids : (mir.blocks.map (·.id)).Pairwise (· < ·) := by
      rw [mir.block_ids]
      exact List.pairwise_lt_range
    refine (List.pairwise_map.mp hids).imp fun {b b'} hlt y hy x hx => Or.inr (Or.inl ?_)
    rw [hcursor b y hy, hcursor b' x hx]
    exact hlt

end

/-! ## Every read of a moved place -/

section

variable (mir : MirFunction) (decisions : Point → Option OwnershipDecision)

/-- The places a statement reads: those of its operands and of its borrow, and whatever the indices
inside a place it reads, writes, borrows or drops read. -/
def StatementKind.allReads : StatementKind → List Place
  | .assign dest (.borrow _ place) => place :: placeNestedReadPlaces place ++ placeNestedReadPlaces dest
  | .assign dest rvalue => rvalue.operands.flatMap operandReadPlaces ++ placeNestedReadPlaces dest
  | .drop place => placeNestedReadPlaces place
  | kind => kind.operands.flatMap operandReadPlaces

def TerminatorKind.allReads : TerminatorKind → List Place
  | .switchBool operand _ _ => operandReadPlaces operand
  | .call func args destination _ =>
    (func :: args).flatMap operandReadPlaces ++ placeNestedReadPlaces destination
  | _ => []

def readsAt (c : Cursor) : List Place :=
  match stmtAt mir c with
  | some stmt => stmt.kind.allReads
  | none => ((mir.block? c.block).map fun bb => bb.terminator.kind.allReads).getD []

/-- The place given a new value at a cursor. A drop gives none. -/
def assignedPlaceAt (c : Cursor) : Option Place :=
  match stmtAt mir c with
  | some stmt =>
      match stmt.kind with
      | .assign place _ => some place
      | _ => none
  | none => (mir.block? c.block).bind fun bb => callDestination bb.terminator.kind

/-- Some path from the entry to `u` moves the place and does not reinitialize it, or a prefix of it,
afterwards. -/
def MovedOnPath (m : Place) (u : Cursor) : Prop :=
  ∃ π₁ c π₂, IsPath mir (π₁ ++ c :: (π₂ ++ [u])) ∧ (π₁ ++ c :: (π₂ ++ [u])).head? = some (entryCursor mir) ∧
    m ∈ movesAt mir decisions c ∧ ∀ d ∈ π₂, ∀ dest ∈ assignedPlaceAt mir d, dest.isPrefixOf m = false

/-- A read at `u` of a place in conflict with one that is moved there. -/
structure UsedAfterMove (u : Cursor) (read m : Place) : Prop where
  reads : read ∈ readsAt mir u
  moved : MovedOnPath mir decisions m u
  conflicts : read.conflictsWith m = true

end

variable {u : Cursor}

theorem MovedOnPath.reflTransGen {mir : MirFunction} {decisions : Point → Option OwnershipDecision}
    {m : Place} (h : MovedOnPath mir decisions m u) :
    Relation.ReflTransGen (Step mir) (entryCursor mir) u := by
  obtain ⟨π₁, c, π₂, hpath, hhead, -, -⟩ := h
  cases hl : π₁ ++ c :: (π₂ ++ [u]) with
  | nil => simp at hl
  | cons a l =>
    rw [hl] at hpath hhead
    obtain rfl : a = entryCursor mir := Option.some.inj hhead
    refine Chain.reflTransGen_of_mem hpath ?_
    rw [← hl]
    simp

theorem onFunction_of_reads {mir : MirFunction} {read : Place}
    (hu : u.idx ≤ (mir.statements u.block).length) (h : read ∈ readsAt mir u) :
    OnFunction mir u := by
  cases hb : mir.block? u.block with
  | none =>
    have hat : stmtAt mir u = none := by simp [stmtAt, MirFunction.statements, hb]
    rw [readsAt, hat, hb] at h
    exact absurd h List.not_mem_nil
  | some bb =>
    rw [MirFunction.statements_of_block? hb] at hu
    exact ⟨bb, hb, hu⟩

/-- An execution never leaves the statements of a block. -/
theorem idx_le_of_reflTransGen {mir : MirFunction}
    (h : Relation.ReflTransGen (Step mir) (entryCursor mir) u) :
    u.idx ≤ (mir.statements u.block).length := by
  cases h with
  | refl => exact Nat.zero_le _
  | tail _ hstep =>
    cases hstep with
    | next hi => exact hi
    | jump _ => exact Nat.zero_le _

/-- `q = move p`, with `p` and `q` in the slots 1 and 2. -/
def moveStmt (span : Span) (point : Point) : MirStatement :=
  ⟨.assign (.localSlot 2) (.use (.moveExplicit (.localSlot 1))), span, point⟩

/-- `q = move p; r = p; return`. -/
def readMovedMir : MirFunction :=
  bareFunction [⟨0, [moveStmt ⟨0, 1⟩ 0, ⟨.assign (.localSlot 3) (.use (.copy (.localSlot 1))), ⟨1, 2⟩, 1⟩],
    ⟨.ret, ⟨2, 3⟩⟩⟩] 4 (by decide) (by decide) (by decide) (by decide)

/-- `q = move p; if p { } else { }`. -/
def branchMovedMir : MirFunction :=
  bareFunction [⟨0, [moveStmt ⟨0, 1⟩ 0], ⟨.switchBool (.copy (.localSlot 1)) 1 1, ⟨1, 2⟩⟩⟩,
    ⟨1, [], ⟨.ret, ⟨2, 3⟩⟩⟩] 4
    (by decide) (by decide) (by decide) (by decide)

/-- Three blocks in a cycle that are entered behind two moves of `p`. The two spans start together,
and each block of the cycle takes its span from the block before it in the cycle, which is listed
first among its predecessors. -/
def endlessMir : MirFunction :=
  bareFunction [⟨0, [], ⟨.switchBool (.copy (.localSlot 3)) 5 2, ⟨0, 1⟩⟩⟩, ⟨1, [], ⟨.goto 4, ⟨1, 2⟩⟩⟩,
    ⟨2, [moveStmt ⟨7, 9⟩ 0], ⟨.goto 4, ⟨2, 3⟩⟩⟩, ⟨3, [], ⟨.switchBool (.copy (.localSlot 3)) 4 1, ⟨3, 4⟩⟩⟩,
    ⟨4, [], ⟨.switchBool (.copy (.localSlot 3)) 1 3, ⟨4, 5⟩⟩⟩,
      ⟨5, [moveStmt ⟨7, 8⟩ 1], ⟨.goto 3, ⟨5, 6⟩⟩⟩] 4
    (by decide) (by decide) (by decide) (by decide)

def endlessSweep (st : MoveStates) : MoveStates × Bool :=
  Fixpoint.sweep (moveStep endlessMir (fun _ => none) (ControlFlowGraph.build endlessMir))
    [0, 2, 5, 3, 4, 1] st

/-- The states after one pass. -/
def endlessStates : MoveStates := (endlessSweep { inStates := fun _ => ∅, outStates := fun _ => ∅ }).1

theorem endlessSweep_frame {st : MoveStates} {b : Nat}
    (h : st.inStates (b + 6) = ∅ ∧ st.outStates (b + 6) = ∅) :
    (endlessSweep st).1.inStates (b + 6) = ∅ ∧ (endlessSweep st).1.outStates (b + 6) = ∅ := by
  have hstep : ∀ (s : MoveStates) (p : BasicBlockId) (s' : MoveStates),
      (s.inStates (b + 6) = ∅ ∧ s.outStates (b + 6) = ∅) → p ∈ [0, 2, 5, 3, 4, 1] →
      moveStep endlessMir (fun _ => none) (ControlFlowGraph.build endlessMir) s p = some s' →
      s'.inStates (b + 6) = ∅ ∧ s'.outStates (b + 6) = ∅ := by
    intro s p s' hs hp hs'
    obtain ⟨-, -, -, hother, -⟩ := moveStep_cases hs'
    have hne : b + 6 ≠ p := by
      rintro rfl
      have hlt : ∀ q ∈ ([0, 2, 5, 3, 4, 1] : List BasicBlockId), q < 6 := by decide
      exact absurd (hlt _ hp) (Nat.not_lt.mpr (Nat.le_add_left 6 b))
    rw [(hother _ hne).1, (hother _ hne).2]
    exact hs
  exact Fixpoint.sweep_invariant hstep h

theorem MoveStates.eq_of_inStates_outStates {s t : MoveStates} (hin : s.inStates = t.inStates)
    (hout : s.outStates = t.outStates) : s = t := by
  cases s
  cases t
  cases hin
  cases hout
  rfl

/-- Two passes bring the spans back to where they were. -/
theorem endlessSweep_twice : (endlessSweep (endlessSweep endlessStates).1).1 = endlessStates := by
  have hstart : ∀ b, endlessStates.inStates (b + 6) = ∅ ∧ endlessStates.outStates (b + 6) = ∅ :=
    fun b => endlessSweep_frame ⟨rfl, rfl⟩
  have hend : ∀ b, (endlessSweep (endlessSweep endlessStates).1).1.inStates (b + 6) = ∅ ∧
      (endlessSweep (endlessSweep endlessStates).1).1.outStates (b + 6) = ∅ :=
    fun b => endlessSweep_frame (endlessSweep_frame (hstart b))
  have hin : (endlessSweep (endlessSweep endlessStates).1).1.inStates = endlessStates.inStates := by
    funext b
    match b with
    | 0 | 1 | 2 | 3 | 4 | 5 => exact AList.ext (by decide +kernel)
    | b + 6 => rw [(hend b).1, (hstart b).1]
  have hout : (endlessSweep (endlessSweep endlessStates).1).1.outStates = endlessStates.outStates := by
    funext b
    match b with
    | 0 | 1 | 2 | 3 | 4 | 5 => exact AList.ext (by decide +kernel)
    | b + 6 => rw [(hend b).2, (hstart b).2]
  exact MoveStates.eq_of_inStates_outStates hin hout

/-- **The dataflow need not end**: on this function no fuel is enough. -/
theorem moveStates_endless (fuel : Nat) :
    moveStates endlessMir (fun _ => none) fuel (ControlFlowGraph.build endlessMir) = none := by
  have hloop : ∀ fuel, Fixpoint.loop
      (moveStep endlessMir (fun _ => none) (ControlFlowGraph.build endlessMir))
      [0, 2, 5, 3, 4, 1] fuel { inStates := fun _ => ∅, outStates := fun _ => ∅ } = none := by
    refine Fixpoint.loop_eq_none (P := fun s => s = { inStates := fun _ => ∅, outStates := fun _ => ∅ } ∨
      s = endlessStates ∨ s = (endlessSweep endlessStates).1) ?_ (Or.inl rfl)
    rintro s (rfl | rfl | rfl)
    · exact ⟨by decide +kernel, Or.inr (Or.inl rfl)⟩
    · exact ⟨by decide +kernel, Or.inr (Or.inr rfl)⟩
    · exact ⟨by decide +kernel, Or.inr (Or.inl endlessSweep_twice)⟩
  have horder : (ControlFlowGraph.build endlessMir).reversePostorder fuel = none ∨
      (ControlFlowGraph.build endlessMir).reversePostorder fuel = some [0, 2, 5, 3, 4, 1] := by
    match fuel with
    | 0 | 1 | 2 | 3 | 4 | 5 | 6 | 7 => decide +kernel
    | fuel + 8 => exact Or.inr rfl
  rcases horder with hnone | hsome
  · rw [moveStates, hnone]
    rfl
  · rw [moveStates, hsome]
    exact hloop fuel

end ShapeLang.Mir
