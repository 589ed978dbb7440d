import Gilmap.Library.SharedMemory
import Gilmap.Jit.LowerSpec
import Gilmap.Ir.Semantics
import Gilmap.Dispatch.Parallel
import Gilmap.Python.Walker
import Gilmap.Python.FindNode
import Gilmap.Python.Types
import Gilmap.Python.JsonRoundTrip
import Gilmap.Jit.Independence
import Gilmap.Jit.SimdRefines
import Gilmap.Jit.IntParity
import Gilmap.Jit.SafeExprs
import Gilmap.Jit.DefaultBlock
import Gilmap.Jit.TypedIr
import Gilmap.Jit.VectorGap
import Gilmap.Jit.TestTruth
import Gilmap.Jit.LatestBinding
import Gilmap.Jit.SpuriousTrap
import Gilmap.Router.LaneRouting
import Gilmap.Router.Cache
import Gilmap.Router.ErrorModel
import Gilmap.Router.NativeCall
import Gilmap.Router.NumbaNative
import Gilmap.Router.ArrowParity
import Gilmap.Pool.FunctionCache
import Gilmap.Pool.Execute
import Gilmap.Pool.Orphans
import Gilmap.Pool.Buffers
import Gilmap.Pool.Progress
import Gilmap.Pool.Gil
import Gilmap.Pool.Rayon
import Gilmap.Pool.SysPath
import Gilmap.Pool.LockedRuns
import Gilmap.Pool.Shutdown
import Gilmap.Pool.FreeThreaded
import Gilmap.Router.RegistryCalls
import Gilmap.Router.ArrowRows
import Gilmap.Router.CfuncCall
