import ShapeLang.Compiler.CheckedBody
import ShapeLang.Lib.Runs

/-!
# What a rollback restores

The journaled tables and the reservations come back after every sequence of writes: each undo action
takes its own write back exactly, and they are replayed from the end. The rest has three gaps. The
storage decisions of an analyzed function are forgotten, those from before the transaction with
them. A closure is entered under its index as a 16-bit number, which beyond 65536 functions falls
below the watermark. And a specialization whose name is in the function table already is entered
under the old index. Without these, everything is restored.
-/

namespace ShapeLang.Compiler

open ShapeLang.Lib

variable {F : Type}

inductive Write (F : Type) where
  | registerFunction (funcDef : FunctionDef F)
  | analyzeFunctionBody (name : String) (facts : BytecodeCompiler.BodyFacts F)
  | hoistField (varName : String) (fields : F) (types : Option F)
  | insertOwnedMutableLocal (name : String)
  | pushHookInstallRow (row : F)
  | reserveGeneratedDecl (declName : String) (id : Nat) (content : F)
  | recordDecision (decision : BindingStorageDecision F)
  | applyPromotion (owner : Option String) (slot : UInt16) (isLocal : Bool) (storageClass : F)
  | registerClosure (name : String) (arity : UInt16) (captured : List String)
      (pack closureTypeId functionTypeId : F)
  | beginSpecialization (key : SpecializationKey) (funcDef : FunctionDef F)
  | finishSpecialization (key : SpecializationKey) (compiled : Bool)

/-- The functions that a sequence of writes analyzes. -/
def analyzed (writes : List (Write F)) : List String :=
  writes.filterMap fun
    | .analyzeFunctionBody name _ => some name
    | _ => none

namespace BytecodeCompiler

def write (c : BytecodeCompiler F) : Write F → BytecodeCompiler F
  | .registerFunction funcDef => (c.registerFunction funcDef).1
  | .analyzeFunctionBody name facts => c.analyzeFunctionBody name facts
  | .hoistField varName fields types => c.hoistField varName fields types
  | .insertOwnedMutableLocal name => c.insertOwnedMutableLocal name
  | .pushHookInstallRow row => c.pushHookInstallRow row
  | .reserveGeneratedDecl declName id content => c.reserveGeneratedDeclJournaled declName id content
  | .recordDecision decision =>
    { c with bindingStorageDecisions := BytecodeCompiler.recordDecision c.bindingStorageDecisions decision }
  | .applyPromotion owner slot isLocal storageClass =>
    { c with bindingStorageDecisions :=
        BytecodeCompiler.applyPromotion c.bindingStorageDecisions owner slot isLocal storageClass }
  | .registerClosure name arity captured pack closureTypeId functionTypeId =>
    c.registerClosure name arity captured pack closureTypeId functionTypeId
  | .beginSpecialization key funcDef => c.beginSpecialization key funcDef
  | .finishSpecialization key compiled => c.finishSpecialization key compiled

/-! ## The journal takes back what was written -/

theorem restoreMaps_apply (tables old : Table → String → Option (Entry F)) (key : String)
    (names : List Table) (table : Table) (name : String) :
    restoreMaps tables key (names.map fun t => (t, old t key)) table name =
      if name = key ∧ table ∈ names then old table key else tables table name := by
  induction names generalizing tables with
  | nil => simp [restoreMaps]
  | cons first names ih =>
    rw [List.map_cons, restoreMaps, List.foldl_cons, ← restoreMaps, ih]
    by_cases hname : name = key
    · subst hname
      by_cases hmem : table ∈ names
      · simp [hmem]
      · by_cases hfirst : table = first
        · subst hfirst
          simp [hmem, restoreMap]
        · simp [hmem, hfirst, restoreMap]
    · by_cases hfirst : table = first
      · subst hfirst
        simp [hname, restoreMap]
      · simp [hname, hfirst, restoreMap]

/-- Two compilers whose tables differ at most under one name in some tables. -/
def AgreeOutside (names : List Table) (key : String)
    (tables tables' : Table → String → Option (Entry F)) : Prop :=
  ∀ table name, ¬(name = key ∧ table ∈ names) → tables' table name = tables table name

variable {tables : Table → String → Option (Entry F)} {key : String}

theorem restoreMaps_of_agree {names : List Table} {tables' : Table → String → Option (Entry F)}
    (h : AgreeOutside names key tables tables') :
    restoreMaps tables' key (names.map fun t => (t, tables t key)) = tables := by
  funext table name
  rw [restoreMaps_apply]
  by_cases hin : name = key ∧ table ∈ names
  · rw [if_pos hin, hin.1]
  · rw [if_neg hin]
    exact h table name hin

theorem agreeOutside_setEntry {names : List Table} {c : BytecodeCompiler F}
    (h : AgreeOutside names key tables c.journaled.tables) {table : Table} (hmem : table ∈ names)
    (entry : Option (Entry F)) :
    AgreeOutside names key tables (c.setEntry table key entry).journaled.tables := by
  intro t name hnot
  rw [← h t name hnot]
  show restoreMap c.journaled.tables key (table, entry) t name = _
  by_cases ht : t = table
  · subst ht
    have hname : name ≠ key := fun heq => hnot ⟨heq, hmem⟩
    simp [restoreMap, hname]
  · simp [restoreMap, ht]

/-- The function whose analysis an action takes back. -/
def analysisOf : Undo F → Option String
  | .analysis key _ => some key
  | _ => none

/-- A write to the journaled tables, with the actions that take it back. -/
structure Installs (c c' : BytecodeCompiler F) (undos : List (Undo F)) : Prop where
  journal : c'.installJournal = c.installJournal.map fun j => { j with executable := j.executable ++ undos }
  undone : undos.reverse.foldl Undo.apply c'.journaled = c.journaled
  symbols : c'.generatedSymbols = c.generatedSymbols
  decisions : c'.bindingStorageDecisions = c.bindingStorageDecisions
  cache : c'.monomorphizationCache = c.monomorphizationCache
  progress : c'.monomorphizationInProgress = c.monomorphizationInProgress
  rows : ∃ rows, c'.indexed = { c.indexed with functions := c.indexed.functions ++ rows }

theorem installs_refl (c : BytecodeCompiler F) : Installs c c [] where
  journal := by
    cases c.installJournal with
    | none => rfl
    | some j => simp
  undone := rfl
  symbols := rfl
  decisions := rfl
  cache := rfl
  progress := rfl
  rows := ⟨[], by simp⟩

/-- After the journal has recorded some tables under a name, writes under that name to these tables. -/
structure WritesUnder (names : List Table) (key : String) (c c' : BytecodeCompiler F)
    (undo : Undo F) : Prop where
  journal : c'.installJournal = (c.pushExecutableUndo undo).installJournal
  agree : AgreeOutside names key c.journaled.tables c'.journaled.tables
  owned : c'.journaled.ownedMutableLocals = c.journaled.ownedMutableLocals
  hooks : c'.journaled.hookInstallRegistry = c.journaled.hookInstallRegistry
  symbols : c'.generatedSymbols = c.generatedSymbols
  decisions : c'.bindingStorageDecisions = c.bindingStorageDecisions
  cache : c'.monomorphizationCache = c.monomorphizationCache
  progress : c'.monomorphizationInProgress = c.monomorphizationInProgress
  rows : ∃ rows, c'.indexed = { c.indexed with functions := c.indexed.functions ++ rows }

theorem writesUnder_record (names : List Table) (key : String) (c : BytecodeCompiler F) (undo : Undo F) :
    WritesUnder names key c (c.pushExecutableUndo undo) undo :=
  ⟨rfl, fun _ _ _ => rfl, rfl, rfl, rfl, rfl, rfl, rfl, [], by simp [pushExecutableUndo]⟩

variable {undo : Undo F}

theorem WritesUnder.setEntry {names : List Table} {c c' : BytecodeCompiler F}
    (h : WritesUnder names key c c' undo) (table : Table) (hmem : table ∈ names)
    (entry : Option (Entry F)) :
    WritesUnder names key c (c'.setEntry table key entry) undo :=
  ⟨h.journal, agreeOutside_setEntry h.agree hmem entry, h.owned, h.hooks, h.symbols, h.decisions,
    h.cache, h.progress, h.rows⟩

theorem WritesUnder.pushFunction {names : List Table} {c c' : BytecodeCompiler F}
    (h : WritesUnder names key c c' undo) (row : FunctionRow) :
    WritesUnder names key c (c'.pushFunction row) undo := by
  have ⟨rows, hrows⟩ := h.rows
  refine ⟨h.journal, h.agree, h.owned, h.hooks, h.symbols, h.decisions, h.cache, h.progress,
    rows ++ [row], ?_⟩
  simp [BytecodeCompiler.pushFunction, hrows]

theorem WritesUnder.installs {names : List Table} {c c' : BytecodeCompiler F}
    (h : WritesUnder names key c c' undo)
    (hundo : undo = .restore key (c.priors names key) ∨ undo = .analysis key (c.priors names key)) :
    Installs c c' [undo] where
  journal := h.journal
  undone := by
    have htables := restoreMaps_of_agree h.agree
    show Undo.apply c'.journaled undo = c.journaled
    rcases hundo with rfl | rfl
    · simp only [Undo.apply, priors, htables]
      rw [h.owned, h.hooks]
    · simp only [Undo.apply, priors, htables]
      rw [h.owned, h.hooks]
  symbols := h.symbols
  decisions := h.decisions
  cache := h.cache
  progress := h.progress
  rows := h.rows

theorem installs_registerFunction (c : BytecodeCompiler F) (funcDef : FunctionDef F) :
    ∃ undos, Installs c (c.registerFunction funcDef).1 undos ∧ undos.filterMap analysisOf = [] := by
  have hrecord := writesUnder_record registerTables funcDef.name c
      (.restore funcDef.name (c.priors registerTables funcDef.name))
  have hdefs := hrecord.setEntry .functionDefs (by simp [registerTables]) (some (.definition funcDef))
  rw [registerFunction]
  dsimp only
  split
  · exact ⟨[], installs_refl c, rfl⟩
  · split
    · exact ⟨_, hdefs.installs (.inl rfl), rfl⟩
    · rename_i required constParams _
      have hrows := ((hdefs.setEntry .functionArityBounds (by simp [registerTables])
        (some (.arityBounds required funcDef.params.length))).setEntry .functionConstParams
        (by simp [registerTables]) (some (.constParams constParams))).pushFunction
          ⟨funcDef.name, UInt16.ofNat funcDef.params.length⟩
      split
      · exact ⟨_, hrows.installs (.inl rfl), rfl⟩
      · rename_i ct _
        exact ⟨_, (hrows.setEntry .functionReturnConcreteTypes (by simp [registerTables])
          (some (.fact ct))).installs (.inl rfl), rfl⟩

theorem installs_analyzeFunctionBody (c : BytecodeCompiler F) (name : String) (facts : BodyFacts F) :
    Installs c (c.analyzeFunctionBody name facts) [.analysis name (c.priors analysisTables name)] := by
  have hrecord := writesUnder_record analysisTables name c (.analysis name (c.priors analysisTables name))
  have hanalysis : ∀ c', WritesUnder analysisTables name c c' _ → Installs c c' [_] :=
    fun _ h => h.installs (.inr rfl)
  refine hanalysis _ ?_
  refine WritesUnder.setEntry ?_ _ (by simp [analysisTables]) _
  refine WritesUnder.setEntry ?_ _ (by simp [analysisTables]) _
  refine WritesUnder.setEntry ?_ _ (by simp [analysisTables]) _
  refine WritesUnder.setEntry ?_ _ (by simp [analysisTables]) _
  refine WritesUnder.setEntry ?_ _ (by simp [analysisTables]) _
  refine WritesUnder.setEntry ?_ _ (by simp [analysisTables]) _
  exact hrecord.setEntry _ (by simp [analysisTables]) _

theorem installs_hoistField (c : BytecodeCompiler F) (varName : String) (fields : F) (types : Option F) :
    Installs c (c.hoistField varName fields types)
      [.restore varName (c.priors [.hoistedFields, .hoistedFieldTypes] varName)] := by
  have hrecord := writesUnder_record [.hoistedFields, .hoistedFieldTypes] varName c
    (.restore varName (c.priors [.hoistedFields, .hoistedFieldTypes] varName))
  have hhoisted : ∀ c', WritesUnder [.hoistedFields, .hoistedFieldTypes] varName c c' _ →
      Installs c c' [_] :=
    fun _ h => h.installs (.inl rfl)
  refine hhoisted _ ?_
  refine WritesUnder.setEntry ?_ _ (by simp) _
  cases types with
  | none => exact hrecord
  | some types => exact hrecord.setEntry _ (by simp) _

theorem installs_insertOwnedMutableLocal (c : BytecodeCompiler F) (name : String) :
    Installs c (c.insertOwnedMutableLocal name)
      [.ownedMutableLocal name (c.journaled.ownedMutableLocals name)] where
  journal := rfl
  undone := by
    simp [Undo.apply, insertOwnedMutableLocal, journalRecordOwnedMutableLocal, pushExecutableUndo]
  symbols := rfl
  decisions := rfl
  cache := rfl
  progress := rfl
  rows := ⟨[], by rw [List.append_nil]; rfl⟩

theorem installs_pushHookInstallRow (c : BytecodeCompiler F) (row : F) :
    Installs c (c.pushHookInstallRow row) [.hookInstallRows c.journaled.hookInstallRegistry.length] where
  journal := rfl
  undone := by
    simp [Undo.apply, pushHookInstallRow, journalRecordHookInstallRow, pushExecutableUndo]
  symbols := rfl
  decisions := rfl
  cache := rfl
  progress := rfl
  rows := ⟨[], by rw [List.append_nil]; rfl⟩

/-! ## The index tables -/

end BytecodeCompiler

/-- The tables as they are cut at a watermark. -/
def IndexedTables.below (t : IndexedTables F) (watermark : Nat) : IndexedTables F where
  functions := t.functions.take watermark
  closureTypeIds := t.closureTypeIds.filter fun entry => entry.1.toNat < watermark
  closureFunctionIds := t.closureFunctionIds.filter fun entry => entry.2.toNat < watermark
  closureCaptureNames := t.closureCaptureNames.filter fun entry => entry.1.toNat < watermark
  functionTypeIds := t.functionTypeIds.filter fun entry => entry.1.toNat < watermark
  closureCapturePacks := t.closureCapturePacks.filter fun pack => pack.1.toNat < watermark

/-- Every entry is of a function in the table. The packs are apart: a query session keeps those of a
failed install. -/
structure IndexedTables.InRange (t : IndexedTables F) : Prop where
  closureTypeIds : ∀ entry ∈ t.closureTypeIds, entry.1.toNat < t.functions.length
  closureFunctionIds : ∀ entry ∈ t.closureFunctionIds, entry.2.toNat < t.functions.length
  closureCaptureNames : ∀ entry ∈ t.closureCaptureNames, entry.1.toNat < t.functions.length
  functionTypeIds : ∀ entry ∈ t.functionTypeIds, entry.1.toNat < t.functions.length

/-- No pack is left over from the rollback of a query session. -/
def IndexedTables.PacksInRange (t : IndexedTables F) : Prop :=
  ∀ pack ∈ t.closureCapturePacks, pack.1.toNat < t.functions.length

variable {t : IndexedTables F}

theorem IndexedTables.InRange.below_length (h : t.InRange) (hpacks : t.PacksInRange) :
    t.below t.functions.length = t := by
  have hkeep : ∀ {α : Type} (rows : List α) (idx : α → UInt16),
      (∀ row ∈ rows, (idx row).toNat < t.functions.length) →
      rows.filter (fun row => (idx row).toNat < t.functions.length) = rows :=
    fun rows idx hrows => List.filter_eq_self.mpr fun row hrow => decide_eq_true (hrows row hrow)
  rw [below, List.take_length, hkeep _ _ h.closureTypeIds, hkeep _ _ h.closureFunctionIds,
    hkeep _ _ h.closureCaptureNames, hkeep _ _ h.functionTypeIds, hkeep _ _ hpacks]

theorem IndexedTables.InRange.mono (h : t.InRange) (rows : List FunctionRow) :
    IndexedTables.InRange { t with functions := t.functions ++ rows } := by
  have hmore : ∀ {idx : UInt16}, idx.toNat < t.functions.length →
      idx.toNat < (t.functions ++ rows).length := by
    intro idx hidx
    rw [List.length_append]
    omega
  exact ⟨fun e he => hmore (h.closureTypeIds e he), fun e he => hmore (h.closureFunctionIds e he),
    fun e he => hmore (h.closureCaptureNames e he), fun e he => hmore (h.functionTypeIds e he)⟩

theorem IndexedTables.InRange.below (h : t.InRange) (watermark : Nat) :
    IndexedTables.InRange (t.below watermark) := by
  have hcut : ∀ {idx : UInt16}, idx.toNat < t.functions.length → decide (idx.toNat < watermark) = true →
      idx.toNat < (t.functions.take watermark).length := by
    intro idx hrange hbelow
    have := of_decide_eq_true hbelow
    rw [List.length_take]
    omega
  refine ⟨fun e he => ?_, fun e he => ?_, fun e he => ?_, fun e he => ?_⟩
  · have ⟨hmem, hbelow⟩ := List.mem_filter.mp he
    exact hcut (h.closureTypeIds e hmem) hbelow
  · have ⟨hmem, hbelow⟩ := List.mem_filter.mp he
    exact hcut (h.closureFunctionIds e hmem) hbelow
  · have ⟨hmem, hbelow⟩ := List.mem_filter.mp he
    exact hcut (h.closureCaptureNames e hmem) hbelow
  · have ⟨hmem, hbelow⟩ := List.mem_filter.mp he
    exact hcut (h.functionTypeIds e hmem) hbelow

/-! ## The reservations -/

def GeneratedSymbols.removeAll (s : GeneratedSymbols F) (reservations : List (String × Nat)) :
    GeneratedSymbols F :=
  reservations.foldl (fun s (declName, id) => s.removeReservation declName id) s

/-- A name that is taken has its record. -/
def GeneratedSymbols.Consistent (s : GeneratedSymbols F) : Prop :=
  ∀ declName id, s.names declName = some id → ∃ record, s.records id = some record ∧
    record.declName = declName

theorem GeneratedSymbols.Consistent.removeAll {s : GeneratedSymbols F} (h : s.Consistent)
    (reservations : List (String × Nat))
    (hnames : ∀ declName id, (declName, id) ∈ reservations → ∀ record, s.records id = some record →
      record.declName = declName) :
    (s.removeAll reservations).Consistent := by
  induction reservations generalizing s with
  | nil => exact h
  | cons reservation reservations ih =>
    obtain ⟨declName, id⟩ := reservation
    have hrecords : ∀ other record, (s.removeReservation declName id).records other = some record →
        other ≠ id ∧ s.records other = some record := by
      intro other record hrecord
      by_cases hother : other = id
      · simp [removeReservation, hother] at hrecord
      · exact ⟨hother, by simpa [removeReservation, hother] using hrecord⟩
    refine ih ?_ (fun name other hmem record hrecord =>
      hnames name other (List.mem_cons_of_mem _ hmem) record (hrecords other record hrecord).2)
    intro name other hname
    have hbefore : s.names name = some other ∧ ¬(name = declName ∧ other = id) := by
      simp only [removeReservation] at hname
      split at hname
      · rename_i htaken
        by_cases hsame : name = declName
        · simp [hsame] at hname
        · rw [Function.update_of_ne hsame] at hname
          exact ⟨hname, fun hboth => hsame hboth.1⟩
      · rename_i htaken
        refine ⟨hname, fun ⟨hsame, hid⟩ => htaken ?_⟩
        rw [← hsame, hname, hid]
    obtain ⟨record, hrecord, hdecl⟩ := h name other hbefore.1
    refine ⟨record, ?_, hdecl⟩
    -- The record goes only with its own name.
    have hother : other ≠ id := by
      intro hid
      refine hbefore.2 ⟨?_, hid⟩
      rw [← hdecl]
      exact hnames declName id List.mem_cons_self record (hid ▸ hrecord)
    simpa [removeReservation, hother] using hrecord

namespace BytecodeCompiler

/-! ## The compilers that a session reaches -/

structure WellFormed (c : BytecodeCompiler F) : Prop where
  indexed : c.indexed.InRange
  cache : ∀ key idx, c.monomorphizationCache key = some idx → idx.toNat < c.indexed.functions.length
  symbols : c.generatedSymbols.Consistent
  reserved : ∀ j, c.installJournal = some j → ∀ declName id, (declName, id) ∈ j.queryRetained →
    ∃ record, c.generatedSymbols.records id = some record ∧ record.declName = declName

theorem Installs.wellFormed {c c' : BytecodeCompiler F} {undos : List (Undo F)} (h : Installs c c' undos)
    (hc : c.WellFormed) : c'.WellFormed where
  indexed := by
    obtain ⟨rows, hrows⟩ := h.rows
    rw [hrows]
    exact hc.indexed.mono rows
  cache := by
    obtain ⟨rows, hrows⟩ := h.rows
    intro key idx hidx
    rw [h.cache] at hidx
    have := hc.cache key idx hidx
    rw [hrows, List.length_append]
    omega
  symbols := by
    rw [h.symbols]
    exact hc.symbols
  reserved := by
    intro j' hj' declName id hmem
    rw [h.symbols]
    rw [h.journal, Option.map_eq_some_iff] at hj'
    obtain ⟨j, hj, rfl⟩ := hj'
    exact hc.reserved j hj declName id hmem

theorem WellFormed.reserve {c : BytecodeCompiler F} (hc : c.WellFormed) (declName : String)
    (id : Nat) (content : F) :
    (c.reserveGeneratedDeclJournaled declName id content).WellFormed := by
  rw [reserveGeneratedDeclJournaled]
  split
  · exact hc
  split
  · exact hc
  rename_i _ hfresh
  have hnone : c.generatedSymbols.records id = none := Option.not_isSome_iff_eq_none.mp hfresh
  -- A record that there was is of another id.
  have hkept : ∀ other record, c.generatedSymbols.records other = some record →
      Function.update c.generatedSymbols.records id (some ⟨declName, content⟩) other = some record := by
    intro other record hrecord
    have hother : other ≠ id := by
      rintro rfl
      rw [hnone] at hrecord
      cases hrecord
    rw [Function.update_of_ne hother, hrecord]
  refine ⟨hc.indexed, hc.cache, ?_, ?_⟩
  · intro name other hname
    show ∃ record, Function.update c.generatedSymbols.records id _ other = some record ∧ _
    replace hname : Function.update c.generatedSymbols.names declName (some id) name = some other := hname
    by_cases hsame : name = declName
    · subst hsame
      rw [Function.update_self, Option.some.injEq] at hname
      subst hname
      exact ⟨_, Function.update_self .., rfl⟩
    · rw [Function.update_of_ne hsame] at hname
      obtain ⟨record, hrecord, hdecl⟩ := hc.symbols name other hname
      exact ⟨record, hkept other record hrecord, hdecl⟩
  · intro j' hj' name other hmem
    show ∃ record, Function.update c.generatedSymbols.records id _ other = some record ∧ _
    replace hj' : c.installJournal.map _ = some j' := hj'
    rw [Option.map_eq_some_iff] at hj'
    obtain ⟨j, hj, rfl⟩ := hj'
    rw [List.mem_append, List.mem_singleton, Prod.mk.injEq] at hmem
    rcases hmem with hmem | ⟨rfl, rfl⟩
    · obtain ⟨record, hrecord, hdecl⟩ := hc.reserved j hj name other hmem
      exact ⟨record, hkept other record hrecord, hdecl⟩
    · exact ⟨_, Function.update_self .., rfl⟩

theorem WellFormed.registerClosure {c : BytecodeCompiler F} (hc : c.WellFormed) (name : String)
    (arity : UInt16) (captured : List String) (pack closureTypeId functionTypeId : F) :
    (c.registerClosure name arity captured pack closureTypeId functionTypeId).WellFormed := by
  have hlength : (c.indexed.functions ++ [FunctionRow.mk name arity]).length =
      c.indexed.functions.length + 1 := by simp
  have hmore := hc.indexed.mono [⟨name, arity⟩]
  -- The index is cut to 16 bits, which only makes it smaller.
  have hrow : ∀ {α : Type} (rows : List α) (idx : α → UInt16) (row : α),
      (∀ e ∈ rows, (idx e).toNat < (c.indexed.functions ++ [FunctionRow.mk name arity]).length) →
      idx row = UInt16.ofNat c.indexed.functions.length →
      ∀ e ∈ rows ++ [row], (idx e).toNat < (c.indexed.functions ++ [FunctionRow.mk name arity]).length := by
    intro α rows idx row hrows hidx e he
    rcases List.mem_append.mp he with he | he
    · exact hrows e he
    · rw [List.mem_singleton.mp he, hidx, UInt16.toNat_ofNat', hlength]
      have := Nat.mod_le c.indexed.functions.length (2 ^ 16)
      omega
  refine ⟨⟨hrow _ Prod.fst _ hmore.closureTypeIds rfl, hrow _ Prod.snd _ hmore.closureFunctionIds rfl,
    hrow _ Prod.fst _ hmore.closureCaptureNames rfl, hrow _ Prod.fst _ hmore.functionTypeIds rfl⟩,
      ?_, hc.symbols,
    hc.reserved⟩
  intro key idx hidx
  have := hc.cache key idx hidx
  show idx.toNat < (c.indexed.functions ++ [FunctionRow.mk name arity]).length
  omega

theorem WellFormed.cacheEntry {c : BytecodeCompiler F} (hc : c.WellFormed) (key : SpecializationKey)
    (entry : Option UInt16)
    (hentry : ∀ idx, entry = some idx → idx.toNat < c.indexed.functions.length)
    (progress : List SpecializationKey) :
    WellFormed { c with
      monomorphizationCache := Function.update c.monomorphizationCache key entry
      monomorphizationInProgress := progress } := by
  refine ⟨hc.indexed, ?_, hc.symbols, hc.reserved⟩
  intro other idx hidx
  by_cases hsame : other = key
  · subst hsame
    exact hentry idx (by simpa using hidx)
  · exact hc.cache other idx (by simpa [hsame] using hidx)

theorem findFunction_lt {c : BytecodeCompiler F} {name : String} {idx : Nat}
    (h : c.findFunction name = some idx) :
    idx < c.indexed.functions.length := by
  obtain ⟨hlt, _⟩ := List.findIdx?_eq_some_iff_getElem.mp h
  exact hlt

/-- Either nothing but the registration, or an entry in the cache too. -/
theorem beginSpecialization_cases (c : BytecodeCompiler F) (key : SpecializationKey)
    (funcDef : FunctionDef F) :
    c.beginSpecialization key funcDef = c ∨
    ((c.monomorphizationCache key = none ∧ key ∉ c.monomorphizationInProgress) ∧
      (c.beginSpecialization key funcDef = (c.registerFunction funcDef).1 ∨
        ∃ idx, (c.registerFunction funcDef).2 = true ∧ (c.registerFunction funcDef).1.findFunction
          funcDef.name = some idx ∧
          idx < 2 ^ 16 ∧
          c.beginSpecialization key funcDef = { (c.registerFunction funcDef).1 with
            monomorphizationCache :=
              Function.update (c.registerFunction funcDef).1.monomorphizationCache key
                (some (UInt16.ofNat idx))
            monomorphizationInProgress :=
              key :: (c.registerFunction funcDef).1.monomorphizationInProgress })) := by
  rw [beginSpecialization]
  -- a cached specialization, or one that is being compiled, is left alone
  by_cases hhit : (c.monomorphizationCache key).isSome
  · simp [hhit]
  by_cases hprogress : key ∈ c.monomorphizationInProgress
  · simp [hprogress]
  right
  refine ⟨⟨Option.not_isSome_iff_eq_none.mp hhit, hprogress⟩, ?_⟩
  rw [if_neg hhit, if_neg hprogress]
  by_cases hregistered : (c.registerFunction funcDef).2 = true
  · cases hfind : (c.registerFunction funcDef).1.findFunction funcDef.name with
    | none => simp [hregistered, hfind]
    | some idx =>
      -- an index that does not fit is not cached, but the function stays registered
      by_cases hfits : idx < 2 ^ 16
      · right
        exact ⟨idx, hregistered, rfl, hfits, by simp only [hregistered, hfind, if_true, if_pos hfits]⟩
      · left
        simp only [hregistered, hfind, if_true, if_neg hfits]
  · left
    simp [hregistered]

theorem WellFormed.beginSpecialization {c : BytecodeCompiler F} (hc : c.WellFormed)
    (key : SpecializationKey) (funcDef : FunctionDef F) :
    (c.beginSpecialization key funcDef).WellFormed := by
  obtain ⟨undos, hinstalls, _⟩ := installs_registerFunction c funcDef
  have hregistered := hinstalls.wellFormed hc
  rcases beginSpecialization_cases c key funcDef with hsame | ⟨_, hsame | ⟨idx, _, hfind, hfits, hentered⟩⟩
  · rw [hsame]
    exact hc
  · rw [hsame]
    exact hregistered
  · rw [hentered]
    refine hregistered.cacheEntry key _ ?_ _
    rintro _ ⟨rfl⟩
    rw [UInt16.toNat_ofNat', Nat.mod_eq_of_lt hfits]
    exact findFunction_lt hfind

theorem WellFormed.finishSpecialization {c : BytecodeCompiler F} (hc : c.WellFormed)
    (key : SpecializationKey) (compiled : Bool) :
    (c.finishSpecialization key compiled).WellFormed := by
  rw [BytecodeCompiler.finishSpecialization]
  split
  · split
    · exact ⟨hc.indexed, hc.cache, hc.symbols, hc.reserved⟩
    · exact hc.cacheEntry key none (fun _ h => by cases h) _
  · exact hc

theorem WellFormed.write {c : BytecodeCompiler F} (hc : c.WellFormed) (w : Write F) :
    (c.write w).WellFormed := by
  cases w with
  | registerFunction funcDef =>
    obtain ⟨_, hinstalls, _⟩ := installs_registerFunction c funcDef
    exact hinstalls.wellFormed hc
  | analyzeFunctionBody name facts => exact (installs_analyzeFunctionBody c name facts).wellFormed hc
  | hoistField varName fields types => exact (installs_hoistField c varName fields types).wellFormed hc
  | insertOwnedMutableLocal name => exact (installs_insertOwnedMutableLocal c name).wellFormed hc
  | pushHookInstallRow row => exact (installs_pushHookInstallRow c row).wellFormed hc
  | reserveGeneratedDecl declName id content => exact hc.reserve declName id content
  | recordDecision decision => exact ⟨hc.indexed, hc.cache, hc.symbols, hc.reserved⟩
  | applyPromotion owner slot isLocal storageClass => exact ⟨hc.indexed, hc.cache, hc.symbols, hc.reserved⟩
  | registerClosure name arity captured pack closureTypeId functionTypeId =>
    exact hc.registerClosure name arity captured pack closureTypeId functionTypeId
  | beginSpecialization key funcDef => exact hc.beginSpecialization key funcDef
  | finishSpecialization key compiled => exact hc.finishSpecialization key compiled

/-- What the rollback leaves, part by part. -/
theorem rollback_eq {c : BytecodeCompiler F} {journal : InstallJournal F}
    (h : c.installJournal = some journal) (watermark : Nat) :
    c.rollbackCheckedBodyInstall watermark false =
      { journaled := journal.executable.reverse.foldl Undo.apply c.journaled
        generatedSymbols := c.generatedSymbols.removeAll journal.queryRetained.reverse
        bindingStorageDecisions := journal.executable.reverse.foldl Undo.forget c.bindingStorageDecisions
        indexed := c.indexed.below watermark
        monomorphizationCache := fun key => (c.monomorphizationCache key).filter fun idx =>
          idx.toNat < watermark
        monomorphizationInProgress := c.monomorphizationInProgress
        installJournal := none } := by
  simp only [rollbackCheckedBodyInstall, h]
  rfl

theorem WellFormed.rollback {c : BytecodeCompiler F} (hc : c.WellFormed) (watermark : Nat) (retain : Bool) :
    (c.rollbackCheckedBodyInstall watermark retain).WellFormed := by
  -- everything after the journal has been replayed: cut the tables back and evict
  have hcut : ∀ (d : BytecodeCompiler F), d.indexed = c.indexed → d.monomorphizationCache =
      c.monomorphizationCache →
      d.installJournal = none → d.generatedSymbols.Consistent →
      WellFormed ((if retain then d.rollbackIndexedPublications watermark
        else (d.rollbackIndexedPublications watermark).rollbackCapturePacks
          watermark).evictAtOrAboveFunctionIndex
          watermark) := by
    intro d hindexed hcache hjournal hsymbols
    have hrange := (hindexed ▸ hc.indexed).below watermark
    have hkept : ∀ key idx, ((d.monomorphizationCache key).filter fun idx => idx.toNat <
      watermark) = some idx →
        idx.toNat < (d.indexed.functions.take watermark).length := by
      intro key idx hidx
      rw [Option.filter_eq_some_iff, hcache] at hidx
      have hlt := hc.cache key idx hidx.1
      have hbelow := of_decide_eq_true hidx.2
      rw [List.length_take, hindexed]
      omega
    have hnone : ∀ j, d.installJournal = some j → ∀ declName id, (declName, id) ∈ j.queryRetained →
        ∃ record, d.generatedSymbols.records id = some record ∧ record.declName = declName := by
      intro j hj
      rw [hjournal] at hj
      cases hj
    -- in a query session the capture packs are kept
    cases retain with
    | true =>
      exact ⟨⟨hrange.closureTypeIds, hrange.closureFunctionIds, hrange.closureCaptureNames,
        hrange.functionTypeIds⟩, hkept, hsymbols, hnone⟩
    | false => exact ⟨hrange, hkept, hsymbols, hnone⟩
  rw [rollbackCheckedBodyInstall]
  cases hjournal : c.installJournal with
  | none => exact hcut c rfl rfl hjournal hc.symbols
  | some journal =>
    cases retain with
    | true => exact hcut _ rfl rfl rfl hc.symbols
    | false =>
      -- the reservations of the journal are taken back, newest first, and each is the one recorded
      refine hcut _ rfl rfl rfl (hc.symbols.removeAll journal.queryRetained.reverse ?_)
      intro declName id hmem record hrecord
      obtain ⟨record', hrecord', hdecl⟩ :=
        hc.reserved journal hjournal declName id (List.mem_reverse.mp hmem)
      rw [hrecord, Option.some.injEq] at hrecord'
      rw [hrecord', hdecl]

/-- A compiler that is kept for several compilations. -/
inductive Reachable : BytecodeCompiler F → Prop
  | new : Reachable BytecodeCompiler.new
  | write {c : BytecodeCompiler F} (h : Reachable c) (w : Write F) : Reachable (c.write w)
  | begin {c : BytecodeCompiler F} (h : Reachable c) : Reachable c.beginCheckedBodyInstall.1
  | commit {c : BytecodeCompiler F} (h : Reachable c) : Reachable { c with installJournal := none }
  | rollback {c : BytecodeCompiler F} (h : Reachable c) (watermark : Nat) (retain : Bool) :
    Reachable (c.rollbackCheckedBodyInstall watermark retain)

theorem WellFormed.begin {c : BytecodeCompiler F} (hc : c.WellFormed) :
    c.beginCheckedBodyInstall.1.WellFormed := by
  refine ⟨hc.indexed, hc.cache, hc.symbols, ?_⟩
  rintro _ ⟨rfl⟩ declName id hmem
  cases hmem

theorem Reachable.wellFormed {c : BytecodeCompiler F} (h : Reachable c) : c.WellFormed := by
  induction h with
  | new =>
    refine ⟨⟨?_, ?_, ?_, ?_⟩, ?_, ?_, ?_⟩ <;> simp [BytecodeCompiler.new, GeneratedSymbols.Consistent]
  | write _ w ih => exact ih.write w
  | begin _ ih => exact ih.begin
  | commit _ ih => exact ⟨ih.indexed, ih.cache, ih.symbols, fun _ hj => by cases hj⟩
  | rollback _ watermark retain ih => exact ih.rollback watermark retain

/-! ## The storage decisions -/

/-- Not owned by one of the functions. -/
def ownedElsewhere (names : List String) (decision : BindingStorageDecision F) : Bool :=
  ∀ name ∈ names, decision.owner ≠ some name

theorem foldl_forget (undos : List (Undo F)) (decisions : List (BindingStorageDecision F)) :
    undos.foldl Undo.forget decisions = decisions.filter (ownedElsewhere (undos.filterMap analysisOf)) := by
  induction undos generalizing decisions with
  | nil => exact (List.filter_eq_self.mpr fun _ _ => by simp [ownedElsewhere]).symm
  | cons undo undos ih =>
    rw [List.foldl_cons, ih]
    cases undo with
    | analysis key priors =>
      rw [Undo.forget, forgetOwner, List.filter_filter]
      have hnames : (Undo.analysis key priors :: undos).filterMap analysisOf = key ::
          undos.filterMap analysisOf := rfl
      rw [hnames]
      refine List.filter_congr fun decision _ => ?_
      rw [Bool.eq_iff_iff, Bool.and_eq_true, ownedElsewhere, ownedElsewhere, decide_eq_true_eq,
        decide_eq_true_eq, decide_eq_true_eq, List.forall_mem_cons]
      exact and_comm
    | restore key priors => rfl
    | ownedMutableLocal key wasPresent => rfl
    | hookInstallRows priorLen => rfl

theorem filter_recordDecision {names : List String} {decision : BindingStorageDecision F}
    (howner : ownedElsewhere names decision = false) (decisions : List (BindingStorageDecision F)) :
    (BytecodeCompiler.recordDecision decisions decision).filter (ownedElsewhere names) =
      decisions.filter (ownedElsewhere names) := by
  induction decisions with
  | nil => simp [BytecodeCompiler.recordDecision, howner]
  | cons first rest ih =>
    rw [BytecodeCompiler.recordDecision]
    split
    · rename_i hsame
      have hfirst : ownedElsewhere names first = false := by
        rw [← howner, ownedElsewhere, ownedElsewhere, hsame.2.1]
      simp [howner, hfirst]
    · rw [List.filter_cons, List.filter_cons, ih]

theorem filter_applyPromotion {names : List String} {owner : Option String}
    (howner : ∃ name ∈ names, owner = some name) (slot : UInt16) (isLocal : Bool) (storageClass : F)
    (decisions : List (BindingStorageDecision F)) :
    (BytecodeCompiler.applyPromotion decisions owner slot isLocal storageClass).filter
    (ownedElsewhere names) =
      decisions.filter (ownedElsewhere names) := by
  induction decisions with
  | nil => rfl
  | cons first rest ih =>
    rw [BytecodeCompiler.applyPromotion]
    split
    · rw [List.filter_cons, List.filter_cons, ih]
    split
    · rename_i hthis
      obtain ⟨name, hname, rfl⟩ := howner
      have hfirst : ownedElsewhere names first = false := by
        simp only [ownedElsewhere, decide_eq_false_iff_not]
        exact fun hall => hall name hname hthis.2.2
      have hchanged : ownedElsewhere names { first with storageClass } = false := hfirst
      rw [List.filter_cons_of_neg (by simp [hchanged]), List.filter_cons_of_neg (by simp [hfirst])]
    · rfl

/-! ## A transaction -/

/-- What holds at every point of a transaction: undone from here, the compiler is the one it began with. -/
structure Since (before : BytecodeCompiler F) (owners names : List String)
    (c : BytecodeCompiler F) : Prop where
  journal : ∃ j, c.installJournal = some j ∧
    j.executable.reverse.foldl Undo.apply c.journaled = before.journaled ∧
    c.generatedSymbols.removeAll j.queryRetained.reverse = before.generatedSymbols ∧
    j.executable.filterMap analysisOf = names
  decisions : c.bindingStorageDecisions.filter (ownedElsewhere owners) =
    before.bindingStorageDecisions.filter (ownedElsewhere owners)
  indexed : c.indexed.below before.indexed.functions.length = before.indexed
  cache : ∀ key, ((c.monomorphizationCache key).filter fun idx => idx.toNat <
    before.indexed.functions.length) =
    before.monomorphizationCache key
  progress : ∀ key ∈ c.monomorphizationInProgress,
    key ∈ before.monomorphizationInProgress ∨ before.monomorphizationCache key = none

/-- The part of a write that belongs to the transaction: decisions are of its analyzed functions,
and a specialization ends only where it began. -/
def Belongs (before : BytecodeCompiler F) (owners : List String) : Write F → Prop
  | .recordDecision decision => ∃ name ∈ owners, decision.owner = some name
  | .applyPromotion owner _ _ _ => ∃ name ∈ owners, owner = some name
  | .finishSpecialization key _ => key ∉ before.monomorphizationInProgress
  | _ => True

/-- The writes that the rollback takes back: an analysis of a function that had no decisions, a
closure whose index as a 16-bit number is past the watermark, a specialization that is not found
under an index from before. -/
def Revocable (before c : BytecodeCompiler F) : Write F → Prop
  | .analyzeFunctionBody name _ => ∀ decision ∈ before.bindingStorageDecisions, decision.owner ≠ some name
  | .registerClosure .. => before.indexed.functions.length ≤ c.indexed.functions.length % 2 ^ 16
  | .beginSpecialization key funcDef =>
    (c.monomorphizationCache key).isSome ∨ key ∈ c.monomorphizationInProgress ∨
      (c.registerFunction funcDef).2 = false ∨ ∀ idx, before.findFunction funcDef.name = some idx →
        2 ^ 16 ≤ idx
  | _ => True

section

variable {before c c' : BytecodeCompiler F} {owners names : List String}

theorem Since.watermark_le (h : Since before owners names c) :
    before.indexed.functions.length ≤ c.indexed.functions.length := by
  have hlength := congrArg (fun t => t.functions.length) h.indexed
  simp only [IndexedTables.below, List.length_take] at hlength
  omega

theorem Since.functions (h : Since before owners names c) :
    c.indexed.functions.take before.indexed.functions.length = before.indexed.functions :=
  congrArg IndexedTables.functions h.indexed

theorem Since.begin (hc : before.WellFormed) (hpacks : before.indexed.PacksInRange) (owners : List String) :
    Since before owners [] before.beginCheckedBodyInstall.1 where
  journal := ⟨⟨[], []⟩, rfl, rfl, rfl, rfl⟩
  decisions := rfl
  indexed := hc.indexed.below_length hpacks
  cache := by
    intro key
    show (before.monomorphizationCache key).filter _ = _
    cases hentry : before.monomorphizationCache key with
    | none => rfl
    | some idx => simp [hc.cache key idx hentry]
  progress := fun _ hkey => .inl hkey

/-- New rows of the function table are past the watermark. -/
theorem below_appendRows {t : IndexedTables F} {watermark : Nat} (hle : watermark ≤ t.functions.length)
    (rows : List FunctionRow) :
    IndexedTables.below { t with functions := t.functions ++ rows } watermark = t.below watermark := by
  rw [IndexedTables.below, IndexedTables.below, List.take_append_of_le_length hle]

theorem Since.installs {undos : List (Undo F)} (h : Since before owners names c)
    (hinstalls : Installs c c' undos) :
    Since before owners (names ++ undos.filterMap analysisOf) c' where
  journal := by
    obtain ⟨j, hj, hundone, hsymbols, hnames⟩ := h.journal
    refine ⟨{ j with executable := j.executable ++ undos }, by rw [hinstalls.journal, hj]; rfl, ?_, ?_, ?_⟩
    · rw [List.reverse_append, List.foldl_append, hinstalls.undone, hundone]
    · rw [hinstalls.symbols, hsymbols]
    · rw [List.filterMap_append, hnames]
  decisions := by rw [hinstalls.decisions, h.decisions]
  indexed := by
    obtain ⟨rows, hrows⟩ := hinstalls.rows
    rw [hrows, below_appendRows h.watermark_le, h.indexed]
  cache := by
    rw [hinstalls.cache]
    exact h.cache
  progress := by
    rw [hinstalls.progress]
    exact h.progress

theorem Since.reserve (h : Since before owners names c) (hc : c.WellFormed) (declName : String)
    (id : Nat) (content : F) :
    Since before owners names (c.reserveGeneratedDeclJournaled declName id content) := by
  rw [reserveGeneratedDeclJournaled]
  split
  · exact h
  split
  · exact h
  rename_i htaken hfresh
  have hrecord : c.generatedSymbols.records id = none := Option.not_isSome_iff_eq_none.mp hfresh
  -- The name is free: its record would be under another id, which the first test excludes.
  have hname : c.generatedSymbols.names declName = none := by
    cases hother : c.generatedSymbols.names declName with
    | none => rfl
    | some other =>
      rw [hother] at htaken
      have hsame : other = id := by simpa using htaken
      obtain ⟨record, hsome, _⟩ := hc.symbols declName other hother
      rw [hsame, hrecord] at hsome
      cases hsome
  refine ⟨?_, h.decisions, h.indexed, h.cache, h.progress⟩
  obtain ⟨j, hj, hundone, hsymbols, hnames⟩ := h.journal
  refine ⟨{ j with queryRetained := j.queryRetained ++ [(declName, id)] }, ?_, hundone, ?_, hnames⟩
  · simp [pushQueryRetainedUndo, hj]
  · rw [← hsymbols, List.reverse_append, List.reverse_singleton, List.singleton_append,
      GeneratedSymbols.removeAll, List.foldl_cons, ← GeneratedSymbols.removeAll]
    congr 1
    simp only [pushQueryRetainedUndo, GeneratedSymbols.removeReservation, Function.update_self, if_true,
      Function.update_idem]
    rw [← hname, ← hrecord, Function.update_eq_self, Function.update_eq_self]

theorem Since.setDecisions (h : Since before owners names c) (decisions : List (BindingStorageDecision F))
    (hsame : decisions.filter (ownedElsewhere owners) = c.bindingStorageDecisions.filter
      (ownedElsewhere owners)) :
    Since before owners names { c with bindingStorageDecisions := decisions } :=
  ⟨h.journal, by rw [hsame, h.decisions], h.indexed, h.cache, h.progress⟩

theorem Since.registerClosure (h : Since before owners names c)
    (hpast : before.indexed.functions.length ≤ c.indexed.functions.length % 2 ^ 16) (name : String)
    (arity : UInt16) (captured : List String) (pack closureTypeId functionTypeId : F) :
    Since before owners names
      (c.registerClosure name arity captured pack closureTypeId functionTypeId) := by
  have hidx : ¬(UInt16.ofNat c.indexed.functions.length).toNat < before.indexed.functions.length := by
    rw [UInt16.toNat_ofNat']
    omega
  have hcut : (c.registerClosure name arity captured pack closureTypeId functionTypeId).indexed.below
      before.indexed.functions.length = c.indexed.below before.indexed.functions.length := by
    simp only [BytecodeCompiler.registerClosure, IndexedTables.below, List.filter_append,
      List.take_append_of_le_length h.watermark_le, List.filter_singleton, hidx, decide_false,
        List.append_nil,
      cond_false]
  exact ⟨h.journal, h.decisions, hcut.trans h.indexed, h.cache, h.progress⟩

theorem Since.cacheEntry (h : Since before owners names c) {key : SpecializationKey} {entry : Option UInt16}
    (hentry : (entry.filter fun idx => idx.toNat < before.indexed.functions.length) = none)
    (hkey : before.monomorphizationCache key = none) {progress : List SpecializationKey}
    (hprogress : ∀ other ∈ progress, other = key ∨ other ∈ c.monomorphizationInProgress) :
    Since before owners names { c with
      monomorphizationCache := Function.update c.monomorphizationCache key entry
      monomorphizationInProgress := progress } where
  journal := h.journal
  decisions := h.decisions
  indexed := h.indexed
  cache := by
    intro other
    by_cases hsame : other = key
    · subst hsame
      show (Function.update c.monomorphizationCache other entry other).filter _ = _
      rw [Function.update_self, hentry, hkey]
    · show (Function.update c.monomorphizationCache key entry other).filter _ = _
      rw [Function.update_of_ne hsame]
      exact h.cache other
  progress := by
    intro other hother
    rcases hprogress other hother with rfl | hbefore
    · exact .inr hkey
    · exact h.progress other hbefore

theorem findFunction_before (h : Since before owners names c) {name : String} {idx : Nat}
    (hfind : c.findFunction name = some idx) (hlt : idx < before.indexed.functions.length) :
    before.findFunction name = some idx := by
  obtain ⟨hidx, hthis, hearlier⟩ := List.findIdx?_eq_some_iff_getElem.mp hfind
  rw [findFunction, List.findIdx?_eq_some_iff_getElem]
  have hsame : ∀ i (hi : i < before.indexed.functions.length) (hi' : i < c.indexed.functions.length),
      before.indexed.functions[i] = c.indexed.functions[i] := by
    intro i hi hi'
    rw [List.getElem_of_eq h.functions.symm hi, List.getElem_take]
  refine ⟨hlt, by rw [hsame idx hlt hidx]; exact hthis, fun i hi => ?_⟩
  rw [hsame i (Nat.lt_trans hi hlt) (Nat.lt_trans hi hidx)]
  exact hearlier i hi

theorem Since.beginSpecialization (h : Since before owners names c) (key : SpecializationKey)
    (funcDef : FunctionDef F) (hrevocable : Revocable before c (.beginSpecialization key funcDef)) :
    Since before owners names (c.beginSpecialization key funcDef) := by
  obtain ⟨undos, hinstalls, hnone⟩ := installs_registerFunction c funcDef
  have hregistered : Since before owners names (c.registerFunction funcDef).1 := by
    simpa [hnone] using h.installs hinstalls
  rcases beginSpecialization_cases c key funcDef
    with hsame | ⟨⟨hmiss, hidle⟩, hsame | ⟨idx, hok, hfind, hfits, hentered⟩⟩
  · rw [hsame]
    exact h
  · rw [hsame]
    exact hregistered
  rw [hentered]
  have hkey : before.monomorphizationCache key = none := by
    rw [← h.cache key, hmiss]
    rfl
  -- An index below the watermark would be found in the table from before.
  have hpast : ¬idx < before.indexed.functions.length := by
    intro hlt
    have hbefore := findFunction_before hregistered hfind hlt
    rcases hrevocable with hhit | hprogress | hfailed | hlarge
    · rw [hmiss] at hhit
      cases hhit
    · exact hidle hprogress
    · rw [hok] at hfailed
      cases hfailed
    · have := hlarge idx hbefore
      omega
  refine hregistered.cacheEntry ?_ hkey ?_
  · have htoNat : (UInt16.ofNat idx).toNat = idx := by
      rw [UInt16.toNat_ofNat', Nat.mod_eq_of_lt hfits]
    simp [htoNat, Nat.not_lt.mp hpast]
  · intro other hother
    exact List.mem_cons.mp hother

theorem Since.finishSpecialization (h : Since before owners names c) (key : SpecializationKey)
    (compiled : Bool) (hown : key ∉ before.monomorphizationInProgress) :
    Since before owners names (c.finishSpecialization key compiled) := by
  rw [BytecodeCompiler.finishSpecialization]
  split
  · rename_i hkey
    have hrest : ∀ other ∈ c.monomorphizationInProgress.erase key, other ∈ c.monomorphizationInProgress :=
      fun other hother => List.mem_of_mem_erase hother
    split
    · exact ⟨h.journal, h.decisions, h.indexed, h.cache, fun other hother => h.progress other
        (hrest other hother)⟩
    · have hnone := (h.progress key hkey).resolve_left hown
      exact h.cacheEntry rfl hnone fun other hother => .inr (hrest other hother)
  · exact h

theorem Since.write (h : Since before owners names c) (hc : c.WellFormed) {w : Write F}
    (hbelongs : Belongs before owners w) (hrevocable : Revocable before c w) :
    Since before owners (names ++ analyzed [w]) (c.write w) := by
  -- the other writes analyze no body
  have hothers : ∀ {c'}, Since before owners names c' → analyzed [w] = [] → Since before owners
      (names ++ analyzed [w]) c' := by
    intro c' hc' hnone
    rw [hnone, List.append_nil]
    exact hc'
  cases w with
  | registerFunction funcDef =>
    obtain ⟨undos, hinstalls, hnone⟩ := installs_registerFunction c funcDef
    have := h.installs hinstalls
    rwa [hnone] at this
  | analyzeFunctionBody name facts => exact h.installs (installs_analyzeFunctionBody c name facts)
  | hoistField varName fields types => exact h.installs (installs_hoistField c varName fields types)
  | insertOwnedMutableLocal name => exact h.installs (installs_insertOwnedMutableLocal c name)
  | pushHookInstallRow row => exact h.installs (installs_pushHookInstallRow c row)
  | reserveGeneratedDecl declName id content => exact hothers (h.reserve hc declName id content) rfl
  -- a decision with an owner among the analyzed bodies, or of a session that has none
  | recordDecision decision =>
    obtain ⟨name, hname, howner⟩ := hbelongs
    have helsewhere : ownedElsewhere owners decision = false := by
      simp only [ownedElsewhere, decide_eq_false_iff_not]
      exact fun hall => hall name hname howner
    exact hothers (h.setDecisions _ (filter_recordDecision helsewhere _)) rfl
  | applyPromotion owner slot isLocal storageClass =>
    exact hothers (h.setDecisions _ (filter_applyPromotion hbelongs slot isLocal storageClass _)) rfl
  | registerClosure name arity captured pack closureTypeId functionTypeId =>
    exact hothers (h.registerClosure hrevocable name arity captured pack closureTypeId functionTypeId) rfl
  | beginSpecialization key funcDef => exact hothers (h.beginSpecialization key funcDef hrevocable) rfl
  | finishSpecialization key compiled => exact hothers (h.finishSpecialization key compiled hbelongs) rfl

/-- The whole sequence, write by write. -/
theorem Since.run (writes : List (Write F)) : ∀ {names : List String} {c : BytecodeCompiler F},
    Since before owners names c → c.WellFormed → (∀ w ∈ writes, Belongs before owners w) →
    EveryStep BytecodeCompiler.write c writes (Revocable before) →
    Since before owners (names ++ analyzed writes) (writes.foldl BytecodeCompiler.write c) := by
  induction writes with
  | nil =>
    intro names c h _ _ _
    rw [analyzed, List.filterMap_nil, List.append_nil]
    exact h
  | cons w writes ih =>
    intro names c h hc hbelongs hrevocable
    have hfirst := hrevocable [] w (List.prefix_append [w] writes)
    have hrest : EveryStep BytecodeCompiler.write (c.write w) writes (Revocable before) :=
      fun done action hbegin => hrevocable (w :: done) action (List.cons_prefix_cons.mpr ⟨rfl, hbegin⟩)
    have hstep := ih (h.write hc (hbelongs w List.mem_cons_self) hfirst) (hc.write w)
      (fun w' hw' => hbelongs w' (List.mem_cons_of_mem _ hw')) hrest
    have hnames : names ++ analyzed (w :: writes) = names ++ analyzed [w] ++ analyzed writes := by
      rw [List.append_assoc, analyzed, analyzed, analyzed, ← List.filterMap_append, List.singleton_append]
    rw [hnames]
    exact hstep

/-- Decisions of analyzed functions from before the transaction are the only ones that are lost. -/
theorem filter_before {writes : List (Write F)} (hbefore : ∀ name ∈ analyzed writes,
    ∀ decision ∈ before.bindingStorageDecisions, decision.owner ≠ some name) :
    before.bindingStorageDecisions.filter (ownedElsewhere (analyzed writes)) =
      before.bindingStorageDecisions := by
  rw [List.filter_eq_self]
  intro decision hmem
  simp only [ownedElsewhere, decide_eq_true_eq]
  exact fun name hname => hbefore name hname decision hmem

/-- Everything that the transaction may have changed has its old value. -/
structure Restored (before after : BytecodeCompiler F) : Prop where
  journaled : after.journaled = before.journaled
  generatedSymbols : after.generatedSymbols = before.generatedSymbols
  bindingStorageDecisions : after.bindingStorageDecisions = before.bindingStorageDecisions
  indexed : after.indexed = before.indexed
  monomorphizationCache : after.monomorphizationCache = before.monomorphizationCache

/-- An install that fails after some writes. -/
def failedInstall (before : BytecodeCompiler F) (writes : List (Write F)) : BytecodeCompiler F :=
  let (c, watermark) := before.beginCheckedBodyInstall
  (writes.foldl BytecodeCompiler.write c).rollbackCheckedBodyInstall watermark false

theorem failed_install_restores (before : BytecodeCompiler F) (hreach : Reachable before)
    (hpacks : before.indexed.PacksInRange) (writes : List (Write F))
    (hbelongs : ∀ w ∈ writes, Belongs before (analyzed writes) w)
    (hrevocable : EveryStep BytecodeCompiler.write before.beginCheckedBodyInstall.1 writes
      (Revocable before)) :
    Restored before (before.failedInstall writes) := by
  have hwell := hreach.wellFormed
  have hsince := Since.run writes (Since.begin hwell hpacks (analyzed writes)) hwell.begin hbelongs
      hrevocable
  obtain ⟨j, hj, hundone, hsymbols, hnames⟩ := hsince.journal
  -- a body that is analyzed had no decisions before: they would be forgotten with the new ones
  have hkept : ∀ name ∈ analyzed writes, ∀ decision ∈ before.bindingStorageDecisions,
      decision.owner ≠ some name := by
    intro name hname
    obtain ⟨w, hw, howner⟩ := List.mem_filterMap.mp hname
    obtain ⟨done, rest, rfl⟩ := List.append_of_mem hw
    have hstep := hrevocable done w ⟨rest, by simp⟩
    cases w with
    | analyzeFunctionBody other facts =>
      cases howner
      exact hstep
    | _ => cases howner
  rw [failedInstall]
  dsimp only
  rw [rollback_eq hj]
  refine ⟨hundone, hsymbols, ?_, hsince.indexed, funext hsince.cache⟩
  -- the journal names exactly the bodies that were analyzed
  have hanalyzed : ownedElsewhere (F := F) (j.executable.reverse.filterMap analysisOf) =
      ownedElsewhere (analyzed writes) := by
    funext decision
    rw [List.filterMap_reverse, hnames, List.nil_append, ownedElsewhere, ownedElsewhere]
    simp only [List.mem_reverse]
  show j.executable.reverse.foldl Undo.forget _ = _
  rw [foldl_forget, hanalyzed, hsince.decisions, filter_before hkept]

end

/-- A compiler that has compiled a function `f` with one local. -/
def compiledOnce : BytecodeCompiler Nat :=
  (((new.write (.registerFunction ⟨"f", [], none⟩)).write
    (.analyzeFunctionBody "f" ⟨none, 1, 2, 3, none, 4, 5⟩)).write
    (.recordDecision ⟨"x", (0, 1), some "f", 0, true, 7⟩))

theorem reachable_compiledOnce : Reachable compiledOnce := ((Reachable.new.write _).write _).write _

theorem packsInRange_compiledOnce : compiledOnce.indexed.PacksInRange := by
  have hnone : compiledOnce.indexed.closureCapturePacks = [] := by rfl
  intro pack hpack
  rw [hnone] at hpack
  cases hpack

/-- It compiles again: `f` is left alone, `g` gets its body twice, a closure and a specialization. -/
theorem second_compilation_undone :
    Restored compiledOnce (compiledOnce.failedInstall [.analyzeFunctionBody "g" ⟨none, 1, 2, 3, none, 4, 5⟩,
      .analyzeFunctionBody "g" ⟨none, 6, 7, 8, none, 9, 10⟩, .recordDecision
        ⟨"y", (3, 4), some "g", 1, true, 8⟩,
      .registerClosure "c0" 1 ["y"] 0 1 2, .beginSpecialization (.exact "id[int]") ⟨"id[int]", [], none⟩,
      .finishSpecialization (.exact "id[int]") true]) := by
  have howners : compiledOnce.bindingStorageDecisions.map (·.owner) = [some "f"] := by rfl
  have hother : ∀ decision ∈ compiledOnce.bindingStorageDecisions, decision.owner ≠ some "g" := by
    intro decision hmem howner
    have hmapped := List.mem_map_of_mem (f := (·.owner)) hmem
    rw [howners, howner] at hmapped
    revert hmapped
    decide
  have hfind : compiledOnce.findFunction "id[int]" = none := by decide
  refine failed_install_restores compiledOnce reachable_compiledOnce packsInRange_compiledOnce _ ?_ ?_
  · have hidle : compiledOnce.monomorphizationInProgress = [] := by rfl
    simp [Belongs, analyzed, hidle]
  · refine everyStep_cons hother
      (everyStep_cons hother (everyStep_cons True.intro (everyStep_cons ?_ (everyStep_cons ?_
      (everyStep_cons True.intro everyStep_nil)))))
    · show compiledOnce.indexed.functions.length ≤ _
      decide
    · refine .inr (.inr (.inr fun idx hidx => ?_))
      rw [hfind] at hidx
      cases hidx

/-- `f` is analyzed again: its decision from before does not come back. -/
theorem recompiled_function_loses_its_decision :
    Reachable compiledOnce ∧ compiledOnce.indexed.PacksInRange ∧
      ¬Restored compiledOnce
        (compiledOnce.failedInstall [.analyzeFunctionBody "f" ⟨none, 1, 2, 3, none, 4, 5⟩]) := by
  refine ⟨reachable_compiledOnce, packsInRange_compiledOnce, fun h => ?_⟩
  have hlength := congrArg List.length h.bindingStorageDecisions
  revert hlength
  decide

end BytecodeCompiler

end ShapeLang.Compiler
