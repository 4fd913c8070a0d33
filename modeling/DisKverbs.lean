import DisKverbs.AcceptedWqe
import DisKverbs.AccessCount
import DisKverbs.AdvertisedLimit
import DisKverbs.Answered
import DisKverbs.AskedPeer
import DisKverbs.ByteCount
import DisKverbs.ByteMem
import DisKverbs.CellProg
import DisKverbs.CircBuf
import DisKverbs.Cleanup
import DisKverbs.CompletedOnce
import DisKverbs.Completion
import DisKverbs.CompletionAccount
import DisKverbs.CompletionQueue
import DisKverbs.CompletionStage
import DisKverbs.CqHistory
import DisKverbs.CqMoves
import DisKverbs.CqReturns
import DisKverbs.CqRing
import DisKverbs.CqSpec
import DisKverbs.CqView
import DisKverbs.CreateQp
import DisKverbs.Creation
import DisKverbs.Credits
import DisKverbs.Delivery
import DisKverbs.Device
import DisKverbs.DeviceIds
import DisKverbs.DeviceMemory
import DisKverbs.DeviceMsq
import DisKverbs.DmaPlacement
import DisKverbs.Drains
import DisKverbs.FilledList
import DisKverbs.FreesOnce
import DisKverbs.HeldMaps
import DisKverbs.KeyLookup
import DisKverbs.Ledger
import DisKverbs.LifePhases
import DisKverbs.Link
import DisKverbs.LinkMoves
import DisKverbs.LinkProgress
import DisKverbs.LinkReceive
import DisKverbs.LinkRun
import DisKverbs.LinkSend
import DisKverbs.LinkSpec
import DisKverbs.LiveQps
import DisKverbs.MapSpec
import DisKverbs.MemoryRegion
import DisKverbs.MessageBoundaries
import DisKverbs.MessageFifo
import DisKverbs.Messages
import DisKverbs.Modules
import DisKverbs.MrLifetime
import DisKverbs.MrPins
import DisKverbs.NoLostWakeup
import DisKverbs.OneWorker
import DisKverbs.OutstandingWqes
import DisKverbs.OwnSteps
import DisKverbs.PageChunks
import DisKverbs.PageMapOwner
import DisKverbs.PageUse
import DisKverbs.PairInvariant
import DisKverbs.Pairing
import DisKverbs.PdSlots
import DisKverbs.PdTables
import DisKverbs.PollCq
import DisKverbs.PolledCompletions
import DisKverbs.PostChains
import DisKverbs.PostMapping
import DisKverbs.PostOne
import DisKverbs.PostReturns
import DisKverbs.PostSpec
import DisKverbs.PostStores
import DisKverbs.PostVerbs
import DisKverbs.QpLife
import DisKverbs.QpMoves
import DisKverbs.QpMsq
import DisKverbs.QpNumbers
import DisKverbs.QpStates
import DisKverbs.Qps
import DisKverbs.QueueLife
import DisKverbs.ReceiveLoop
import DisKverbs.RegUserMr
import DisKverbs.ReportedCapacity
import DisKverbs.ReturnedFields
import DisKverbs.RingMachine
import DisKverbs.RingRuns
import DisKverbs.RingSizes
import DisKverbs.RingsFreed
import DisKverbs.RtrCall
import DisKverbs.ScatterGather
import DisKverbs.SciIf
import DisKverbs.SgeLimits
import DisKverbs.SharedPolling
import DisKverbs.SharedPosting
import DisKverbs.SlotTable
import DisKverbs.SpanSpec
import DisKverbs.SpareSlot
import DisKverbs.SplitReceives
import DisKverbs.Srq
import DisKverbs.StaleKeys
import DisKverbs.StepSystem
import DisKverbs.StopWait
import DisKverbs.StoreTrace
import DisKverbs.Stream
import DisKverbs.Tally
import DisKverbs.ThreadBracket
import DisKverbs.ThreadEnds
import DisKverbs.ThreadViews
import DisKverbs.Transfers
import DisKverbs.Verbs
import DisKverbs.WakeInvariant
import DisKverbs.WakeMoves
import DisKverbs.WakeUp
import DisKverbs.WholeMessages
import DisKverbs.WorkQueue
import DisKverbs.WorkerEnds
import DisKverbs.WorkerProgress
import DisKverbs.WqCompletion
import DisKverbs.WqHistory
import DisKverbs.WqMoves
import DisKverbs.WqRing
import DisKverbs.WqSpec
import DisKverbs.WriteBounds
