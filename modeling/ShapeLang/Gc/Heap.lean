import Mathlib

/-!
# ShapeLang — the cycle collector

The synchronous trial-deletion collector (`crates/shape-value/src/gc.rs`) over the heap graph that its
visitor sees (`crates/shape-value/src/gc_visit.rs`).

Allocations are nodes of an arbitrary finite type. A node owns references in its slots; dropping the
node releases all of them, tracing follows those of the traced kinds only. Header carriers keep colour
and count in their header; for the `Arc`-backed kinds colour and trial count live in a side table,
seeded from the strong count on first touch.

`collectCycles` runs the three passes, then either gives the white nodes back as raw memory or, when a
closure value is among them, restores their counts and drops the closure values, whose release cascade
(`release`) is to tear the rest down. Recursions are bounded in depth and loops in turns; `none` means
that the bound was too small.
-/

namespace ShapeLang.Gc

inductive GcColor where
  | black | gray | white | purple
  deriving DecidableEq, Repr

inductive NodeKind where
  | typedObject
  | typedArray (callable : Bool)
  | traitObject
  | stringV2
  | decimalV2
  /-- `Arc<String>`. -/
  | arcString
  /-- The other `Arc`-backed kinds: hash maps, channels, big integers and so on. -/
  | arcContainer
  /-- `Arc<HeapValue::ClosureRaw>`, which owns a closure block. -/
  | closureValue
  /-- A raw `TypedClosureHeader` block. -/
  | closureBlock
  /-- `Arc<SharedCell>`, a captured variable. -/
  | sharedCell
  deriving DecidableEq, Repr

namespace NodeKind

/-- Colour and count live in an inline `HeapHeader`. -/
def isHeader : NodeKind → Bool
  | typedObject | typedArray _ | traitObject | stringV2 | decimalV2 | closureBlock => true
  | arcString | arcContainer | closureValue | sharedCell => false

/-- The visitor enumerates the slots. -/
def isTraced : NodeKind → Bool
  | typedObject | typedArray _ | closureValue | closureBlock | sharedCell => true
  | traitObject | stringV2 | decimalV2 | arcString | arcContainer => false

/-- `free_kind` is not `Leak`. -/
def isFreed : NodeKind → Bool
  | typedObject | typedArray _ | stringV2 | decimalV2 | closureBlock => true
  | traitObject | arcString | arcContainer | closureValue | sharedCell => false

/-- The strong count is not read: the seed is a large constant. -/
def isSentinel : NodeKind → Bool
  | arcContainer => true
  | _ => false

/-- Owns no references at all. -/
def isLeaf : NodeKind → Bool
  | stringV2 | decimalV2 | arcString => true
  | _ => false

def isCallableArray : NodeKind → Bool
  | typedArray callable => callable
  | _ => false

def isClosureValue : NodeKind → Bool
  | closureValue => true
  | _ => false

end NodeKind

/-! ## The heap graph -/

structure Heap (ν : Type) where
  kind : ν → NodeKind
  /-- The references a node owns, in slot order, those in `boxed` apart. -/
  slots : ν → List ν
  /-- The contents of the box cells that a closure block owns. Tracing skips them. -/
  boxed : ν → List ν
  slots_leaf : ∀ n, (kind n).isLeaf = true → slots n = []
  boxed_of_ne : ∀ n, kind n ≠ .closureBlock → boxed n = []

namespace Heap

variable {ν : Type} (H : Heap ν)

/-- `node_for_each_child`. -/
def children (n : ν) : List ν := if (H.kind n).isTraced then H.slots n else []

/-- What dropping the node releases. -/
def owned (n : ν) : List ν := H.slots n ++ H.boxed n

/-- What the node owns and tracing does not see. -/
def untraced (n : ν) : List ν := if (H.kind n).isTraced then H.boxed n else H.slots n ++ H.boxed n

/-- The closure elements of the chosen arrays are zeroed. -/
def neuter (chosen : ν → Bool) : Heap ν :=
  { H with
    slots := fun n =>
      if chosen n then (H.slots n).filter (fun c => !(H.kind c).isClosureValue) else H.slots n
    slots_leaf := fun n hn => by
      rw [H.slots_leaf n hn]
      split <;> rfl }

abbrev Reaches : ν → ν → Prop := Relation.ReflTransGen fun a b => b ∈ H.children a

end Heap

/-! ## Collector state -/

/-- Metadata of all nodes: colour and `buffered` bit, the header refcount or `Arc` strong count, and
the side table's shadow counts. -/
structure GcState (ν : Type) where
  color : ν → GcColor
  buffered : ν → Bool
  refcount : ν → Int
  shadow : ν → Int
  seeded : ν → Bool

section Passes

variable {ν : Type} [DecidableEq ν] (H : Heap ν)

def GcState.setColor (s : GcState ν) (n : ν) (c : GcColor) : GcState ν :=
  { s with color := Function.update s.color n c }

def GcState.clearBuffered (s : GcState ν) (n : ν) : GcState ν :=
  { s with buffered := Function.update s.buffered n false }

/-- The side table emptied. -/
def GcState.clearSide (s : GcState ν) : GcState ν :=
  { s with
    color := fun n => if (H.kind n).isHeader then s.color n else .black
    buffered := fun n => if (H.kind n).isHeader then s.buffered n else false
    shadow := fun _ => 0
    seeded := fun _ => false }

def nodeCount (s : GcState ν) (n : ν) : Int :=
  if (H.kind n).isHeader then s.refcount n else s.shadow n

def arcStrongCountSeed (s : GcState ν) (n : ν) : Int :=
  if (H.kind n).isSentinel then 2147483647 else s.refcount n

def nodeTrialDecrement (s : GcState ν) (n : ν) : GcState ν :=
  if (H.kind n).isHeader then
    { s with refcount := Function.update s.refcount n (s.refcount n - 1) }
  else
    let seed := if s.seeded n then s.shadow n else arcStrongCountSeed H s n
    -- `saturating_sub`
    { s with
      shadow := Function.update s.shadow n (max 0 (seed - 1))
      seeded := Function.update s.seeded n true }

def nodeIncrement (s : GcState ν) (n : ν) : GcState ν :=
  if (H.kind n).isHeader then
    { s with refcount := Function.update s.refcount n (s.refcount n + 1) }
  else
    { s with shadow := Function.update s.shadow n (s.shadow n + 1) }

/-! ## The three passes -/

def markGray : Nat → GcState ν → ν → Option (GcState ν)
  | 0, _, _ => none
  | fuel + 1, s, n =>
    if s.color n ≠ .gray then
      (H.children n).foldlM (fun s child => markGray fuel (nodeTrialDecrement H s child) child)
        (s.setColor n .gray)
    else some s

def scanBlack : Nat → GcState ν → ν → Option (GcState ν)
  | 0, _, _ => none
  | fuel + 1, s, n =>
    (H.children n).foldlM
      (fun s child =>
        let s := nodeIncrement H s child
        if s.color child ≠ .black then scanBlack fuel s child else some s)
      (s.setColor n .black)

def scan : Nat → GcState ν → ν → Option (GcState ν)
  | 0, _, _ => none
  | fuel + 1, s, n =>
    if s.color n = .gray then
      if nodeCount H s n > 0 then scanBlack H fuel s n
      else (H.children n).foldlM (fun s child => scan fuel s child) (s.setColor n .white)
    else some s

/-- The list collects the white nodes, children first. -/
def collectWhite : Nat → GcState ν × List ν → ν → Option (GcState ν × List ν)
  | 0, _, _ => none
  | fuel + 1, (s, white), n =>
    if s.color n = .white ∧ s.buffered n = false then do
      let (s, white) ← (H.children n).foldlM (fun p child => collectWhite fuel p child)
        (s.setColor n .black, white)
      some (s, white ++ [n])
    else some (s, white)

/-- The passes over the candidates: the white nodes, and the state with all of them black again. -/
def trialDelete (fuel : Nat) (s : GcState ν) (ptrs : List ν) : Option (GcState ν × List ν) := do
  let s ← ptrs.foldlM (markGray H fuel) s
  let s ← ptrs.foldlM (scan H fuel) s
  let s := ptrs.foldl GcState.clearBuffered s
  ptrs.foldlM (collectWhite H fuel) (s, [])

/-! ## Releasing memory -/

/-- Counts, the allocations given back, and the releases that hit an allocation already given back. -/
structure RcState (ν : Type) where
  refcount : ν → Int
  freed : List ν
  stale : List ν

/-- Drops the shares in `pending` one after the other. A count that falls to zero frees the node, and
the shares it owned are dropped before the next one. -/
def release : Nat → RcState ν → List ν → Option (RcState ν)
  | _, r, [] => some r
  | 0, _, _ :: _ => none
  | fuel + 1, r, n :: pending =>
    if n ∈ r.freed then release fuel { r with stale := r.stale ++ [n] } pending
    else
      let count := r.refcount n - 1
      let r := { r with refcount := Function.update r.refcount n count }
      if count = 0 then release fuel { r with freed := r.freed ++ [n] } (H.owned n ++ pending)
      else release fuel r pending

/-- The nodes reachable from those on the stack (its head is the element popped next). -/
def cascadeReachable : Nat → List ν → List ν → Option (List ν)
  | _, [], reachable => some reachable
  | 0, _ :: _, _ => none
  | fuel + 1, n :: stack, reachable =>
    let (stack, reachable) := (H.children n).foldl
      (fun (stack, reachable) child =>
        if child ∈ reachable then (stack, reachable) else (child :: stack, reachable ++ [child]))
      (stack, reachable)
    cascadeReachable fuel stack reachable

structure Outcome (ν : Type) where
  state : GcState ν
  /-- The allocations given back, by the collector itself or by the cascade. -/
  freed : List ν
  /-- Releases of an allocation that was already given back. -/
  stale : List ν
  /-- The nodes that the returned number counts. -/
  counted : List ν

def Outcome.reclaimed (out : Outcome ν) : Nat := out.counted.length

/-- The cascade: counts restored, the arrays' closure elements neutered, each white closure value
dropped once, the rest of the white nodes given back as raw memory. -/
def collectCascade (fuel : Nat) (s : GcState ν) (white : List ν) : Option (Outcome ν) := do
  let s := white.foldl (fun s n => (H.children n).foldl (nodeIncrement H) s) s
  let values := white.filter fun n => (H.kind n).isClosureValue
  let reachable ← cascadeReachable H fuel values.reverse values
  let neutered := H.neuter fun n => n ∈ white ∧ n ∈ reachable ∧ (H.kind n).isCallableArray
  let raw := white.filter fun n => n ∉ reachable ∧ (H.kind n).isFreed
  let r ← release neutered fuel ⟨s.refcount, raw, []⟩ values
  some
    { state := { s.clearSide H with refcount := r.refcount }
      freed := r.freed
      stale := r.stale
      counted := white.filter fun n => n ∈ reachable ∨ (H.kind n).isFreed }

def collectCycles (fuel : Nat) (s : GcState ν) (ptrs : List ν) : Option (Outcome ν) :=
  if ptrs = [] then some ⟨s, [], [], []⟩
  else do
    let (s, white) ← trialDelete H fuel s ptrs
    if white.any fun n => (H.kind n).isClosureValue then collectCascade H fuel s white
    else
      let freed := white.filter fun n => (H.kind n).isFreed
      some ⟨s.clearSide H, freed, [], freed⟩

end Passes

end ShapeLang.Gc
