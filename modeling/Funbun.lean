import Funbun.Bundler.ChunkHashesProofs
import Funbun.Bundler.ChunkOrderRuns
import Funbun.Bundler.CrossChunkProofs
import Funbun.Install.HoistResolution
import Funbun.Bundler.ImportTermination
import Funbun.TestRunner.HookRuns
import Funbun.WebSocket.MessagesProofs
import Funbun.Sql.RequestsDelivery
import Funbun.Collections.LinearFifoRuns
import Funbun.Collections.StaticHashMapRuns
import Funbun.Http2.HpackRuns
import Funbun.Ast.SymbolRuns
import Funbun.Bundler.TopLevelAwaitProofs
import Funbun.Printer.MinifyRenamerProofs
import Funbun.Bundler.DependencyWrapperRuns
import Funbun.Parser.DeadControlFlowProofs
import Funbun.Bundler.PartOrderRuns
import Funbun.Install.PackageIndexProofs
import Funbun.Semver.OwnRanges
import Funbun.Semver.BufProofs
import Funbun.SourceMap.LineOffsetPlaces
import Funbun.SourceMap.Printed
import Funbun.SourceMap.TrackingRuns
import Funbun.SourceMap.PiecesMappings
import Funbun.SourceMap.FromVlqText
import Funbun.Valkey.ScannerReplies
import Funbun.Cron.ExpressionProofs
import Funbun.Paths.ResolvePathProofs
import Funbun.Io.HeapRuns
import Funbun.Collections.BitSetRuns
import Funbun.Patch.ApplyProofs
