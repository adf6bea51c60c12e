import ShapeLang.Mir.PlaceConflict
import ShapeLang.Mir.Provenance
import ShapeLang.Gc.Cascade
import ShapeLang.Bytecode.Extraction
import ShapeLang.Bytecode.PermissionClosure
import ShapeLang.Value.ObjectConstruction
import ShapeLang.Snapshot.Forgery
import ShapeLang.Snapshot.GraphIso
import ShapeLang.Runtime.RollingWindow
import ShapeLang.Packages.RegistryResolution
import ShapeLang.Schemas.Merge
import ShapeLang.Monomorphization.Cache
import ShapeLang.Mir.LivenessExact
import ShapeLang.Mir.MoveCheckSound
import ShapeLang.Packages.ResolverOrder
import ShapeLang.Gc.Coordinator
import ShapeLang.TypeSystem.Schemes
import ShapeLang.TypeSystem.Widening
import ShapeLang.Mir.LocalSinks
import ShapeLang.Mir.ReturnOwnership
import ShapeLang.Bytecode.HotReload
import ShapeLang.Transport.Memoized
import ShapeLang.Executor.InlineCaches
import ShapeLang.Patterns.Exhaustiveness
import ShapeLang.Executor.DeepClone
import ShapeLang.Transport.Sidecars
import ShapeLang.Bytecode.Resupply
import ShapeLang.TypeSystem.Equivalence
import ShapeLang.Mir.ParamEscape
import ShapeLang.Sandbox.VirtualTree
import ShapeLang.BlobWire.Binding
import ShapeLang.Columnar.Untrusted
import ShapeLang.BlobGc.Eligibility
import ShapeLang.Modules.FailedLoad
import ShapeLang.Graph.Order
import ShapeLang.Value.PriorityQueue
import ShapeLang.Value.Range
import ShapeLang.Packages.DirectoryHash
import ShapeLang.Executor.CompactArithmetic
import ShapeLang.Executor.IntArithmetic
import ShapeLang.Runtime.ExactWindows
import ShapeLang.Value.HashTableRuns
import ShapeLang.Jit.InstalledCode
import ShapeLang.Executor.TaskOutcomes
import ShapeLang.Bytecode.FunctionWindows
import ShapeLang.Mir.PostDominatorsExact
import ShapeLang.Compiler.InstallRollback
