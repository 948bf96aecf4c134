import Katcp.LineRoundTrip
import Katcp.HeapRun
import Katcp.TimerDischarge
import Katcp.TimerSole
import Katcp.SampleSteps
import Katcp.NoticeCalled
import Katcp.LineSound
import Katcp.GrammarExact
import Katcp.DuplexPipeline
import Katcp.JobPipeline
import Katcp.AvlRun
import Katcp.VrblStore
import Katcp.VrblReadOnly
import Katcp.PollSingle
import Katcp.GueueRun
import Katcp.QueueRun
import Katcp.FlatStack
import Katcp.ClientNames
import Katcp.ClientScope
import Katcp.ModeProtocol
import Katcp.EndpointDeliver
import Katcp.LinkedPath
import Katcp.TimerAnew
import Katcp.VrblBuilt
import Katcp.VrblDeletion
import Katcp.Kurl
import Katcp.RelayStatus
import Katcp.RelaySuspend
import Katcp.SensorLinks
import Katcp.NoticeDelivered
import Katcp.RegisterReads
import Katcp.WordKept
import Katcp.WriteKept
import Katcp.SimplexSound
import Katcp.SimplexTasks
import Katcp.LogVisibility
import Katcp.ScopeCommands
import Katcp.ScopeEnforced
import Katcp.PastTime
import Katcp.SensorChanges
import Katcp.RawCommands
import Katcp.RawLock
import Katcp.RawFlights
import Katcp.RawLifecycle
import Katcp.RawWindow
import Katcp.ReplySlots
import Katcp.ReplyHandlers
import Katcp.ReplyRelay
import Katcp.SampleFailures
import Katcp.ByteBlock
import Katcp.TapFrames
import Katcp.TapArp
import Katcp.TapState
import Katcp.TapDhcp
import Katcp.TapPoll
import Katcp.ItemLog
import Katcp.TapFates
import Katcp.TapSweeps
import Katcp.SensorDiff
import Katcp.SensorDiscrete
import Katcp.SensorPeriod
import Katcp.VrblFailed
import Katcp.LineStage
import Katcp.StageWhole
import Katcp.LineBounds
import Katcp.SharedHints
import Katcp.SharedLines
import Katcp.SharedViews
import Katcp.SharedTurns
import Katcp.SharedWriters
import Katcp.SharedRuns
import Katcp.NoticeMembers
import Katcp.ModeDefinitions
import Katcp.TapFrameRuns
import Katcp.TimeParse
import Katcp.TimerMissed
import Katcp.KurlScan
import Katcp.KurlPrint
import Katcp.BoundedCopy
import Katcp.ParseFlatten
import Katcp.Timestamp
import Katcp.TagValues
import Katcp.SortedVector
import Katcp.TypeRegistry
import Katcp.RelayTemplate
import Katcp.RelayExpanded
import Katcp.ParseReply
import Katcp.TapSweepRuns
import Katcp.ByteBitTotals
import Katcp.NamedVector
import Katcp.TrapMap
import Katcp.AvlWalk
import Katcp.RegisterAccess
import Katcp.RegisterBounds
import Katcp.DhcpMessage
import Katcp.OnesComplement
import Katcp.OptionList
import Katcp.DhcpOptions
import Katcp.DhcpLease
import Katcp.ArbRegistry
import Katcp.ArbReaping
import Katcp.ArbSteps
import Katcp.ArbRuns
import Katcp.TimeArith
import Katcp.VrblGrowth
import Katcp.CutText
import Katcp.DictParse
import Katcp.WsFrames
import Katcp.FrameCheck
import Katcp.RxPath
import Katcp.RxPathRuns
import Katcp.TagSearch
import Katcp.TagSearchEnds
import Katcp.DbaseData
import Katcp.DbaseRuns
import Katcp.DbaseKept
import Katcp.DbaseServed
import Katcp.ChildField
import Katcp.SensorInforms
import Katcp.SensorRelayed
import Katcp.SensorUpdates
import Katcp.ConfData
import Katcp.ConfScan
import Katcp.ConfTree
import Katcp.ConfPlain
import Katcp.ConfExact
import Katcp.FirstMatch
import Katcp.ConfEdits
import Katcp.TaskRunner
import Katcp.TaskScript
import Katcp.TaskRuns
import Katcp.RelayReplies
