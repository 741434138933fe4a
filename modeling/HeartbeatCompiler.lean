import HeartbeatCompiler.SingleLoop
import HeartbeatCompiler.ChunkedLoop
import HeartbeatCompiler.SplitPoint
import HeartbeatCompiler.LoopHeader
import HeartbeatCompiler.ChunkControl
import HeartbeatCompiler.LeftoverTable
import HeartbeatCompiler.LevelAnalysis
import HeartbeatCompiler.ExitPhis
import HeartbeatCompiler.LiveIns
import HeartbeatCompiler.TransformPrison
import HeartbeatCompiler.Races
import HeartbeatCompiler.Schedules
import HeartbeatCompiler.Tables
import HeartbeatCompiler.Clock
import HeartbeatCompiler.RollforwardTables
import HeartbeatCompiler.SliceProgram
import HeartbeatCompiler.SliceGraphs
