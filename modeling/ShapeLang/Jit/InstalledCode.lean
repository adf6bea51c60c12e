import ShapeLang.Jit.TierManager
import ShapeLang.Lib.Runs

/-!
# Code stays tied to its metadata

The deopt table of a function is shared by its code and the code of its loops, and so is its entry
among the dependencies. So a result can leave the table of another one behind or overwrite it, and
an invalidation of the function alone takes the dependencies of its loops away. Without these three
cases, the deopt points are always those of the installed code, and no code outlives the transition
of a shape it guards.
-/

namespace ShapeLang.Jit

open ShapeLang.Lib

section

variable {D : Type} {order : WalkOrder}

/-! ## The functions that a shape knows -/

/-- The functions that are invalidated with a shape. -/
def DeoptTracker.dependents (tracker : DeoptTracker) (sid : ShapeId) : List UInt16 :=
  (tracker.shapeDependents sid).getD []

namespace DeoptTracker

variable {tracker : DeoptTracker} {f g : UInt16} {sid : ShapeId}

theorem mem_dependents_register (shapeIds : List ShapeId) :
    g ∈ (tracker.register f shapeIds).dependents sid ↔ g ∈ tracker.dependents sid ∨ g = f ∧
      sid ∈ shapeIds := by
  -- over any shapes, since the map changes on the way
  have hfold : ∀ (shapeIds : List ShapeId) (dependents : ShapeId → Option (List UInt16)),
      g ∈ ((shapeIds.foldl (fun dependents sid =>
          Function.update dependents sid (some (((dependents sid).getD []).insert f))) dependents)
            sid).getD [] ↔
        g ∈ (dependents sid).getD [] ∨ g = f ∧ sid ∈ shapeIds := by
    intro shapeIds
    induction shapeIds with
    | nil => simp
    | cons first shapeIds ih =>
      intro dependents
      rw [List.foldl_cons, ih, List.mem_cons]
      by_cases hsid : sid = first
      · subst hsid
        rw [Function.update_self, Option.getD_some, List.mem_insert_iff]
        tauto
      · rw [Function.update_of_ne hsid]
        tauto
  rw [register]
  split
  · have hnil : shapeIds = [] := List.isEmpty_iff.mp ‹_›
    simp [hnil]
  · exact hfold shapeIds tracker.shapeDependents

variable {dependents : ShapeId → Option (List UInt16)}

/-- Only the function itself is taken out. -/
theorem mem_dropDependent (hne : g ≠ f) (other : ShapeId) (h : g ∈ (dependents sid).getD []) :
    g ∈ (dropDependent f dependents other sid).getD [] := by
  cases hfunctions : dependents other with
  | none =>
    rw [dropDependent, hfunctions]
    exact h
  | some functions =>
    rw [dropDependent, hfunctions]
    simp only
    by_cases hsid : sid = other
    · subst hsid
      rw [hfunctions, Option.getD_some] at h
      have hmem : g ∈ functions.filter (· ≠ f) := List.mem_filter.mpr ⟨h, by simpa using hne⟩
      rw [Function.update_self, if_neg (by simpa using List.ne_nil_of_mem hmem)]
      exact hmem
    · rw [Function.update_of_ne hsid]
      exact h

theorem mem_foldl_of_step {β : Type}
    {step : (ShapeId → Option (List UInt16)) → β → ShapeId → Option (List UInt16)}
    (hstep : ∀ dependents b, g ∈ (dependents sid).getD [] → g ∈ (step dependents b sid).getD [])
    (bs : List β) (h : g ∈ (dependents sid).getD []) :
    g ∈ ((bs.foldl step dependents) sid).getD [] := by
  induction bs generalizing dependents with
  | nil => exact h
  | cons b bs ih => exact ih (hstep dependents b h)

theorem mem_dependents_clearFunction (hne : g ≠ f) (h : g ∈ tracker.dependents sid) :
    g ∈ (tracker.clearFunction order f).dependents sid := by
  rw [clearFunction]
  split
  · exact h
  · exact mem_foldl_of_step (fun _ other => mem_dropDependent hne other) _ h

variable {shapeId : ShapeId}

theorem mem_dependents_forget (hne : g ≠ f) (h : g ∈ tracker.dependents sid) :
    g ∈ (tracker.forget order shapeId f).dependents sid := by
  rw [forget]
  split
  · exact h
  · refine mem_foldl_of_step (fun dependents other hmem => ?_) _ h
    split
    · exact mem_dropDependent hne other hmem
    · exact hmem

theorem mem_invalidateShape_fst (shapeId : ShapeId) :
    g ∈ (tracker.invalidateShape order shapeId).1 ↔ g ∈ tracker.dependents shapeId := by
  rw [invalidateShape, dependents]
  split
  · rename_i hnone
    rw [hnone]
    exact Iff.rfl
  · rename_i functions hfunctions
    rw [hfunctions, Option.getD_some]
    exact (order.functions.perm _ _).mem_iff

/-- A function that is not invalidated with a shape stays known to every shape. -/
theorem mem_dependents_invalidateShape (hnot : g ∉ tracker.dependents shapeId)
    (h : g ∈ tracker.dependents sid) :
    g ∈ (tracker.invalidateShape order shapeId).2.dependents sid := by
  have hsid : sid ≠ shapeId := by
    rintro rfl
    exact hnot h
  rw [invalidateShape]
  split
  · exact h
  · rename_i functions hfunctions
    -- the function is none of those that are taken out of the maps
    have hwalk : ∀ f ∈ order.functions.walk [shapeId] functions, g ≠ f := by
      rintro f hf rfl
      have hmem := (order.functions.perm _ _).mem_iff.mp hf
      rw [dependents, hfunctions] at hnot
      exact hnot hmem
    have hfold : ∀ (fs : List UInt16) (tracker : DeoptTracker), (∀ f ∈ fs, g ≠ f) →
        g ∈ tracker.dependents sid →
        g ∈ (fs.foldl (forget order shapeId) tracker).dependents sid := by
      intro fs
      induction fs with
      | nil => exact fun _ _ h => h
      | cons f fs ih =>
        intro tracker hne h
        exact ih _ (fun f hf => hne f (.tail _ hf)) (mem_dependents_forget (hne f (.head _)) h)
    refine hfold _ _ hwalk ?_
    show g ∈ (Function.update tracker.shapeDependents shapeId none sid).getD []
    rw [Function.update_of_ne hsid]
    exact h

end DeoptTracker

/-! ## The tables -/

namespace TierManager

variable {m : TierManager D}

/-- A piece of code of a function, of the whole function or of one of its loops. -/
def HasCode (m : TierManager D) (f : UInt16) (code : Installed D) : Prop :=
  m.nativeCodeTable f = some code ∨ ∃ ip, m.osrTable (f, ip) = some code

/-- The deopt points that a lookup can find are those of the code of the whole function. -/
def PointsAgree (m : TierManager D) : Prop :=
  ∀ f, (m.deoptTables f).getD [] = ((m.nativeCodeTable f).map fun code => code.result.deoptPoints).getD []

/-- Every shape that a piece of code guards knows its function. -/
def Covered (m : TierManager D) : Prop :=
  ∀ f code, m.HasCode f code → ∀ sid ∈ code.result.shapeGuards, f ∈ m.deoptTracker.dependents sid

/-- No piece of code guards a shape that has been drained since it was installed. -/
def Current (m : TierManager D) : Prop :=
  ∀ f code, m.HasCode f code → ∀ sid ∈ code.result.shapeGuards, sid ∉ code.drained

structure Tied (m : TierManager D) : Prop where
  points : m.PointsAgree
  covered : m.Covered
  current : m.Current

theorem tied_new (functionCount : Nat) : (new functionCount : TierManager D).Tied where
  points _ := rfl
  covered := by
    rintro f code (h | ⟨ip, h⟩)
    · cases h
    · cases h
  current := by
    rintro f code (h | ⟨ip, h⟩)
    · cases h
    · cases h

/-- Two managers with the same tables. -/
theorem Tied.congr {m' : TierManager D} (h : m.Tied) (hnative : m'.nativeCodeTable = m.nativeCodeTable)
    (hosr : m'.osrTable = m.osrTable) (hdeopt : m'.deoptTables = m.deoptTables)
    (htracker : m'.deoptTracker = m.deoptTracker) : m'.Tied := by
  have hcode : ∀ f code, m'.HasCode f code ↔ m.HasCode f code := by
    intro f code
    rw [HasCode, HasCode, hnative, hosr]
  constructor
  · intro f
    rw [hdeopt, hnative]
    exact h.points f
  · intro f code hhas
    rw [htracker]
    exact h.covered f code ((hcode f code).mp hhas)
  · intro f code hhas
    exact h.current f code ((hcode f code).mp hhas)

/-! ## A result -/

/-- What a result may not do: leave the points of the code before it in the table, or put the points
of a loop there. -/
def AcceptsPoints (m : TierManager D) (result : CompilationResult D) : Prop :=
  match result.osrEntry with
  | some _ => result.deoptPoints = []
  | none =>
    result.deoptPoints = [] → ∀ code, m.nativeCodeTable result.functionId = some code →
      code.result.deoptPoints = []

variable {result : CompilationResult D} {code : Installed D}

theorem hasCode_installCode {f : UInt16} (h : (m.installCode result).HasCode f code) :
    m.HasCode f code ∨ f = result.functionId ∧ code = ⟨result, []⟩ := by
  cases hosr : result.osrEntry with
  | some entry =>
    rw [installCode, hosr] at h
    rcases h with h | ⟨ip, h⟩
    · exact .inl (.inl h)
    · have h : Function.update m.osrTable (result.functionId, entry.bytecodeIp) (some ⟨result, []⟩)
          (f, ip) = some code := h
      by_cases hkey : (f, ip) = (result.functionId, entry.bytecodeIp)
      · rw [hkey, Function.update_self] at h
        exact .inr ⟨congrArg Prod.fst hkey, (Option.some.inj h).symm⟩
      · rw [Function.update_of_ne hkey] at h
        exact .inl (.inr ⟨ip, h⟩)
  | none =>
    rw [installCode, hosr] at h
    rcases h with h | ⟨ip, h⟩
    · have h : Function.update m.nativeCodeTable result.functionId (some ⟨result, []⟩) f = some code := h
      by_cases hf : f = result.functionId
      · rw [hf, Function.update_self] at h
        exact .inr ⟨hf, (Option.some.inj h).symm⟩
      · rw [Function.update_of_ne hf] at h
        exact .inl (.inl h)
    · exact .inl (.inr ⟨ip, h⟩)

theorem installCode_deoptTracker (result : CompilationResult D) :
    (m.installCode result).deoptTracker = m.deoptTracker := by
  rw [installCode]
  split <;> rfl

theorem installCode_deoptTables (result : CompilationResult D) :
    (m.installCode result).deoptTables = m.deoptTables := by
  rw [installCode]
  split <;> rfl

/-- The code with its points and its guards. -/
def install (m : TierManager D) (result : CompilationResult D) : TierManager D :=
  ((m.installCode result).storeDeoptPoints result).registerGuards result

theorem install_tables (result : CompilationResult D) :
    (m.install result).nativeCodeTable = (m.installCode result).nativeCodeTable ∧
      (m.install result).osrTable = (m.installCode result).osrTable ∧
      (m.install result).deoptTables =
        (if result.deoptPoints.isEmpty then m.deoptTables
          else Function.update m.deoptTables result.functionId (some result.deoptPoints)) ∧
      (m.install result).deoptTracker = m.deoptTracker.register result.functionId result.shapeGuards := by
  rw [install, registerGuards, storeDeoptPoints, DeoptTracker.register]
  split <;> split <;> simp [installCode_deoptTables, installCode_deoptTracker, *, DeoptTracker.register]

theorem tied_install (h : m.Tied) (hpoints : m.AcceptsPoints result) :
    (m.install result).Tied := by
  obtain ⟨hnative, hosr, hdeopt, htracker⟩ := install_tables (m := m) result
  have hhas : ∀ f code, (m.install result).HasCode f code →
      m.HasCode f code ∨ f = result.functionId ∧ code = ⟨result, []⟩ := by
    intro f code hcode
    rw [HasCode, hnative, hosr] at hcode
    exact hasCode_installCode hcode
  constructor
  · intro f
    rw [hdeopt, hnative, installCode]
    cases hentry : result.osrEntry with
    | some entry =>
      -- the points of a loop would replace those of the function
      have hnone : result.deoptPoints = [] := by simpa [AcceptsPoints, hentry] using hpoints
      rw [if_pos (List.isEmpty_iff.mpr hnone)]
      exact h.points f
    | none =>
      show _ = ((Function.update m.nativeCodeTable result.functionId (some ⟨result, []⟩) f).map
        fun code => code.result.deoptPoints).getD []
      by_cases hf : f = result.functionId
      · subst hf
        rw [Function.update_self, Option.map_some, Option.getD_some]
        by_cases hempty : result.deoptPoints = []
        · rw [if_pos (List.isEmpty_iff.mpr hempty), h.points, hempty]
          have hold : ∀ code, m.nativeCodeTable result.functionId = some code →
              code.result.deoptPoints = [] := by
            have hnone := hpoints
            rw [AcceptsPoints, hentry] at hnone
            exact hnone hempty
          cases hcode : m.nativeCodeTable result.functionId with
          | none => rfl
          | some code => exact hold code hcode
        · rw [if_neg (by simpa using hempty), Function.update_self]
          rfl
      · rw [Function.update_of_ne hf]
        split
        · exact h.points f
        · rw [Function.update_of_ne hf]
          exact h.points f
  · intro f code hcode sid hsid
    rw [htracker, DeoptTracker.mem_dependents_register]
    rcases hhas f code hcode with hold | ⟨rfl, rfl⟩
    · exact .inl (h.covered f code hold sid hsid)
    · exact .inr ⟨rfl, hsid⟩
  · intro f code hcode sid hsid
    rcases hhas f code hcode with hold | ⟨-, rfl⟩
    · exact h.current f code hold sid hsid
    · exact List.not_mem_nil

theorem tied_receive (h : m.Tied)
    (hpoints : result.functionId.toNat < m.functionStates.length → result.nativeCode.isSome →
      m.AcceptsPoints result) :
    (m.receive result).Tied := by
  have hblack : ∀ m : TierManager D, m.Tied → (m.blacklistFailure result).Tied := by
    intro m h
    rw [blacklistFailure]
    split
    · split
      · exact h.congr rfl rfl rfl rfl
      · exact h
    · exact h
  rw [receive]
  split
  · rename_i hidx
    have hpending : TierManager.Tied { m with
        functionStates := m.functionStates.modify result.functionId.toNat
          ({ · with compilationPending := false }) } :=
      h.congr rfl rfl rfl rfl
    refine hblack _ ?_
    cases hcode : result.nativeCode with
    | none => exact hpending
    | some code => exact tied_install hpending (hpoints hidx (by rw [hcode]; rfl))
  · exact h

/-! ## Invalidations -/

theorem hasCode_invalidateFunction {f g : UInt16} (h : (m.invalidateFunction order f).HasCode g code) :
    (g ≠ f ∧ m.HasCode g code) ∨ (g = f ∧ ∃ ip, m.osrTable (f, ip) = some code) := by
  by_cases hg : g = f
  · subst hg
    rcases h with h | ⟨ip, h⟩
    · have h : Function.update m.nativeCodeTable g none g = some code := h
      rw [Function.update_self] at h
      cases h
    · exact .inr ⟨rfl, ip, h⟩
  · rcases h with h | ⟨ip, h⟩
    · have h : Function.update m.nativeCodeTable f none g = some code := h
      rw [Function.update_of_ne hg] at h
      exact .inl ⟨hg, .inl h⟩
    · exact .inl ⟨hg, .inr ⟨ip, h⟩⟩

theorem pointsAgree_invalidateFunction (order : WalkOrder) (h : m.PointsAgree) (f : UInt16) :
    (m.invalidateFunction order f).PointsAgree := by
  intro g
  show (Function.update m.deoptTables f none g).getD [] =
    ((Function.update m.nativeCodeTable f none g).map fun code => code.result.deoptPoints).getD []
  by_cases hg : g = f
  · subst hg
    rw [Function.update_self, Function.update_self]
    rfl
  · rw [Function.update_of_ne hg, Function.update_of_ne hg]
    exact h g

/-- The loops of the function stay, and must not need the dependencies that are cleared. -/
theorem tied_invalidateFunction (h : m.Tied) {f : UInt16}
    (hloops : ∀ ip code, m.osrTable (f, ip) = some code → code.result.shapeGuards = []) :
    (m.invalidateFunction order f).Tied := by
  constructor
  · exact pointsAgree_invalidateFunction order h.points f
  · intro g code hcode sid hsid
    rcases hasCode_invalidateFunction hcode with ⟨hg, hold⟩ | ⟨rfl, ip, hloop⟩
    · exact DeoptTracker.mem_dependents_clearFunction hg (h.covered g code hold sid hsid)
    · rw [hloops ip code hloop] at hsid
      cases hsid
  · intro g code hcode sid hsid
    rcases hasCode_invalidateFunction hcode with ⟨-, hold⟩ | ⟨rfl, ip, hloop⟩
    · exact h.current g code hold sid hsid
    · exact h.current g code (.inr ⟨ip, hloop⟩) sid hsid

theorem hasCode_invalidateOsr {f g : UInt16} (h : (m.invalidateOsr f).HasCode g code) :
    m.HasCode g code ∧ (g = f → m.nativeCodeTable f = some code) := by
  rcases h with h | ⟨ip, h⟩
  · refine ⟨.inl h, ?_⟩
    rintro rfl
    exact h
  · have h : (if g ≠ f then m.osrTable (g, ip) else none) = some code := h
    split at h
    · exact ⟨.inr ⟨ip, h⟩, fun heq => absurd heq ‹g ≠ f›⟩
    · cases h

theorem tied_invalidateOsr (h : m.Tied) (f : UInt16) : (m.invalidateOsr f).Tied where
  points := h.points
  covered g code hcode := h.covered g code (hasCode_invalidateOsr hcode).1
  current g code hcode := h.current g code (hasCode_invalidateOsr hcode).1

/-- Nothing of the function is left. -/
theorem hasCode_invalidateAll {f g : UInt16} (h : (m.invalidateAll order f).HasCode g code) :
    g ≠ f ∧ m.HasCode g code := by
  obtain ⟨hcode, hself⟩ := hasCode_invalidateOsr h
  rcases hasCode_invalidateFunction hcode with hother | ⟨rfl, -⟩
  · exact hother
  · have hnative : Function.update m.nativeCodeTable g none g = some code := hself rfl
    rw [Function.update_self] at hnative
    cases hnative

theorem tied_invalidateAll (h : m.Tied) (f : UInt16) : (m.invalidateAll order f).Tied where
  points := pointsAgree_invalidateFunction order h.points f
  covered g code hcode sid hsid :=
    DeoptTracker.mem_dependents_clearFunction (hasCode_invalidateAll hcode).1
      (h.covered g code (hasCode_invalidateAll hcode).2 sid hsid)
  current g code hcode := h.current g code (hasCode_invalidateAll hcode).2

/-- What a loop of invalidations leaves: nothing of the functions, everything of the others. -/
theorem foldl_invalidateAll (fs : List UInt16) :
    (∀ g code, (fs.foldl (invalidateAll order) m).HasCode g code → g ∉ fs ∧ m.HasCode g code) ∧
      (m.PointsAgree → (fs.foldl (invalidateAll order) m).PointsAgree) ∧
      ∀ g sid, g ∉ fs → g ∈ m.deoptTracker.dependents sid →
        g ∈ (fs.foldl (invalidateAll order) m).deoptTracker.dependents sid := by
  induction fs generalizing m with
  | nil => exact ⟨fun _ _ h => ⟨List.not_mem_nil, h⟩, id, fun _ _ _ h => h⟩
  | cons f fs ih =>
    obtain ⟨hcode, hpoints, hdependents⟩ := @ih (m.invalidateAll order f)
    refine ⟨fun g code h => ?_, fun h => ?_, fun g sid hg h => ?_⟩
    · obtain ⟨hfs, hrest⟩ := hcode g code h
      obtain ⟨hf, hold⟩ := hasCode_invalidateAll hrest
      exact ⟨fun hmem => (List.mem_cons.mp hmem).elim hf hfs, hold⟩
    · exact hpoints (pointsAgree_invalidateFunction order h f)
    · rw [List.mem_cons, not_or] at hg
      exact hdependents g sid hg.2 (DeoptTracker.mem_dependents_clearFunction hg.1 h)

theorem hasCode_noteDrained {sid : ShapeId} {f : UInt16} (h : (m.noteDrained sid).HasCode f code) :
    ∃ old, m.HasCode f old ∧ code = { old with drained := sid :: old.drained } := by
  rcases h with h | ⟨ip, h⟩
  · obtain ⟨old, hold, rfl⟩ := Option.map_eq_some_iff.mp h
    exact ⟨old, .inl hold, rfl⟩
  · obtain ⟨old, hold, rfl⟩ := Option.map_eq_some_iff.mp h
    exact ⟨old, .inr ⟨ip, hold⟩, rfl⟩

/-- The code that guards the shape of the transition is gone, and the rest is still known to its shapes. -/
theorem tied_drainTransition (h : m.Tied) (transition : ShapeId × ShapeId) :
    (m.drainTransition order transition).Tied := by
  obtain ⟨hcode, hpoints, hdependents⟩ := @foldl_invalidateAll D order
    { m.noteDrained transition.1 with
      deoptTracker := (m.deoptTracker.invalidateShape order transition.1).2 }
    (m.deoptTracker.invalidateShape order transition.1).1
  -- code that survives belonged to no function that depends on the shape
  have hhas : ∀ g code, (m.drainTransition order transition).HasCode g code →
      g ∉ m.deoptTracker.dependents transition.1 ∧
        ∃ old, m.HasCode g old ∧ code = { old with drained := transition.1 :: old.drained } := by
    intro g code hg
    obtain ⟨hnot, hnoted⟩ := hcode g code hg
    rw [DeoptTracker.mem_invalidateShape_fst] at hnot
    exact ⟨hnot, hasCode_noteDrained hnoted⟩
  -- the deopt points go with the code, the rest keeps its shapes, and none of them was drained
  constructor
  · refine hpoints fun f => ?_
    show (m.deoptTables f).getD [] = (((m.nativeCodeTable f).map _).map _).getD []
    rw [Option.map_map]
    exact h.points f
  · intro g code hg sid hsid
    obtain ⟨hnot, old, hold, rfl⟩ := hhas g code hg
    refine hdependents g sid ?_ ?_
    · rw [DeoptTracker.mem_invalidateShape_fst]
      exact hnot
    · exact DeoptTracker.mem_dependents_invalidateShape hnot (h.covered g old hold sid hsid)
  · intro g code hg sid hsid
    obtain ⟨hnot, old, hold, rfl⟩ := hhas g code hg
    rintro hdrained
    rcases List.mem_cons.mp hdrained with rfl | hdrained
    · exact hnot (h.covered g old hold _ hsid)
    · exact h.current g old hold sid hsid hdrained

/-! ## Runs -/

end TierManager

/-- A call on the manager. -/
inductive TierCall (D : Type) where
  | pollCompletions (results : List (CompilationResult D)) (transitions : List (ShapeId × ShapeId))
  | invalidateFunction (f : UInt16)
  | invalidateOsr (f : UInt16)
  | invalidateAll (f : UInt16)

def TierManager.call (order : WalkOrder) (m : TierManager D) : TierCall D → TierManager D
  | .pollCompletions results transitions => m.pollCompletions order results transitions
  | .invalidateFunction f => m.invalidateFunction order f
  | .invalidateOsr f => m.invalidateOsr f
  | .invalidateAll f => m.invalidateAll order f

/-- A part of a call: a result of a poll, a transition of a poll, or an invalidation. -/
inductive TierStep (D : Type) where
  | receive (result : CompilationResult D)
  | drain (transition : ShapeId × ShapeId)
  | invalidateFunction (f : UInt16)
  | invalidateOsr (f : UInt16)
  | invalidateAll (f : UInt16)

def TierCall.steps : TierCall D → List (TierStep D)
  | .pollCompletions results transitions => results.map .receive ++ transitions.map .drain
  | .invalidateFunction f => [.invalidateFunction f]
  | .invalidateOsr f => [.invalidateOsr f]
  | .invalidateAll f => [.invalidateAll f]

namespace TierManager

def step (order : WalkOrder) (m : TierManager D) : TierStep D → TierManager D
  | .receive result => m.receive result
  | .drain transition => m.drainTransition order transition
  | .invalidateFunction f => m.invalidateFunction order f
  | .invalidateOsr f => m.invalidateOsr f
  | .invalidateAll f => m.invalidateAll order f

/-- A step that leaves every piece of code its metadata. -/
def Harmless (m : TierManager D) : TierStep D → Prop
  | .receive result =>
    result.functionId.toNat < m.functionStates.length → result.nativeCode.isSome → m.AcceptsPoints result
  | .invalidateFunction f => ∀ ip code, m.osrTable (f, ip) = some code → code.result.shapeGuards = []
  | _ => True

variable {m : TierManager D}

theorem foldl_steps (call : TierCall D) : call.steps.foldl (step order) m = m.call order call := by
  cases call with
  | pollCompletions results transitions =>
    rw [TierCall.steps, List.foldl_append, List.foldl_map, List.foldl_map]
    rfl
  | _ => rfl

theorem tied_step (m : TierManager D) (action : TierStep D) (h : m.Tied) (hok : m.Harmless action) :
    (m.step order action).Tied := by
  cases action with
  | receive result => exact tied_receive h hok
  | drain transition => exact tied_drainTransition h transition
  | invalidateFunction f => exact tied_invalidateFunction h hok
  | invalidateOsr f => exact tied_invalidateOsr h f
  | invalidateAll f => exact tied_invalidateAll h f

theorem foldl_flatMap_steps (calls : List (TierCall D)) (m : TierManager D) :
    (calls.flatMap TierCall.steps).foldl (step order) m = calls.foldl (call order) m := by
  induction calls generalizing m with
  | nil => rfl
  | cons first calls ih => rw [List.flatMap_cons, List.foldl_append, foldl_steps, ih, List.foldl_cons]

theorem bind_getElem?_eq {α : Type} (points : Option (List α)) (k : Nat) :
    (points.bind fun points => points[k]?) = (points.getD [])[k]? := by
  cases points with
  | none => rfl
  | some points => rfl

/-- In a run of harmless steps the deopt points are those of the installed code, and no code is left
that guards a shape drained since its installation. -/
theorem code_keeps_metadata (order : WalkOrder) (functionCount : Nat) (calls : List (TierCall D))
    (hok : EveryStep (step order) (new functionCount) (calls.flatMap TierCall.steps) Harmless) :
    Throughout (call order) (new functionCount) calls fun m =>
      (∀ f k, m.getDeoptInfo f k = (m.nativeCodeTable f).bind fun code => code.result.deoptPoints[k]?) ∧
        ∀ f code, m.HasCode f code → ∀ sid ∈ code.result.shapeGuards, sid ∉ code.drained := by
  intro done hdone
  have htied : (done.foldl (call order) (new functionCount)).Tied := by
    rw [← foldl_flatMap_steps]
    refine throughout_of_everyStep tied_step (tied_new functionCount) hok _ ?_
    obtain ⟨rest, rfl⟩ := hdone
    rw [List.flatMap_append]
    exact List.prefix_append _ _
  refine ⟨fun f k => ?_, htied.current⟩
  rw [getDeoptInfo, bind_getElem?_eq, htied.points f, ← bind_getElem?_eq, Option.bind_map]
  rfl

/-- A function and a loop of it, dropped when a shape that the loop guards changes; then another
function, which is invalidated alone, and the first one again. -/
theorem code_keeps_metadata_of_loop :
    let whole : CompilationResult Nat := ⟨0, .optimizingJit, some 100, none, none, [1, 2], none, [7]⟩
    let loop : CompilationResult Nat := ⟨0, .optimizingJit, some 200, none, some ⟨5⟩, [], some 5, [7, 9]⟩
    let other : CompilationResult Nat := ⟨1, .optimizingJit, some 300, none, none, [3], none, [7]⟩
    let calls : List (TierCall Nat) :=
      [.pollCompletions [whole, loop] [(3, 4)], .pollCompletions [] [(9, 10)], .pollCompletions
      [other, whole] [], .invalidateFunction 1, .invalidateAll 0]
    (((calls.take 1).foldl (call ⟨.forward, .forward⟩) (new 2)).osrTable (0, 5)).isSome = true ∧
      ((calls.take 2).foldl (call ⟨.forward, .forward⟩) (new 2)).osrTable (0, 5) = none ∧
      Throughout (call ⟨.forward, .forward⟩) (new 2) calls fun m =>
        (∀ f k, m.getDeoptInfo f k = (m.nativeCodeTable f).bind fun code => code.result.deoptPoints[k]?) ∧
          ∀ f code, m.HasCode f code → ∀ sid ∈ code.result.shapeGuards, sid ∉ code.drained := by
  intro whole loop other calls
  refine ⟨by decide, by decide, code_keeps_metadata ⟨.forward, .forward⟩ 2 calls ?_⟩
  -- the points of a function come with its code, and those of a loop are left out
  refine everyStep_cons (fun _ _ hempty => absurd hempty (by decide)) (everyStep_cons (fun _ _ => rfl) ?_)
  refine everyStep_cons trivial (everyStep_cons trivial ?_)
  refine everyStep_cons (fun _ _ hempty => absurd hempty (by decide)) ?_
  refine everyStep_cons (fun _ _ hempty => absurd hempty (by decide)) (everyStep_cons ?_ ?_)
  · -- the second function has no loop
    intro ip code hcode
    cases hcode
  · exact everyStep_cons trivial everyStep_nil

/-- The points of a loop stand where those of the function are looked up; and after the function
alone is invalidated, its loop outlives the transition of the shape that it guards. -/
theorem shared_tables_lose_metadata :
    let whole : CompilationResult Nat := ⟨0, .optimizingJit, some 100, none, none, [1], none, []⟩
    let loop : CompilationResult Nat := ⟨0, .optimizingJit, some 200, none, some ⟨5⟩, [2], some 5, [7]⟩
    let overwritten := [TierCall.pollCompletions [whole, loop] []].foldl (call ⟨.forward, .forward⟩) (new 1)
    let outlived := [TierCall.pollCompletions [loop] [], .invalidateFunction 0, .pollCompletions []
      [(7, 8)]].foldl
      (call ⟨.forward, .forward⟩) (new 1)
    overwritten.getDeoptInfo 0 0 ≠
        (overwritten.nativeCodeTable 0).bind (fun code => code.result.deoptPoints[0]?) ∧
      ∃ code, outlived.HasCode 0 code ∧ 7 ∈ code.result.shapeGuards ∧ 7 ∈ code.drained := by
  refine ⟨by decide, ?_⟩
  exact ⟨_, .inr ⟨5, rfl⟩, by decide, by decide⟩

end TierManager

end

end ShapeLang.Jit
