import Wamrx.Proofs.BoundaryValues
import Wamrx.Proofs.DefinitionOrder
import Wamrx.Proofs.Diagnostics
import Wamrx.Proofs.EmbeddedCalls
import Wamrx.Proofs.EngineTeardown
import Wamrx.Proofs.GlobalContents
import Wamrx.Proofs.LebDecoder
import Wamrx.Proofs.LiveTables
import Wamrx.Proofs.LoadedModules
import Wamrx.Proofs.MemoryContents
import Wamrx.Proofs.ParserInvariance
import Wamrx.Proofs.ParserTermination
import Wamrx.Proofs.ThreadExits
import Wamrx.Proofs.TrapIsolation
