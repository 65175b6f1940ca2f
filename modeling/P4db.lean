import P4db.Layout.DeclusteredLayout
import P4db.Layout.Equiv.DeclusteredLayout
import P4db.Algorithm.Transition
import P4db.Algorithm.TwoPhase
import P4db.Comm.Barrier
import P4db.Comm.Equiv.Barrier
import P4db.Ee.Database
import P4db.Ee.Executor
import P4db.Ee.Sched
import P4db.Ee.TxnExecutor
import P4db.Ee.HotPeriod
import P4db.Ee.Equiv.Database
import P4db.Ee.Equiv.HotPackets
import P4db.Ee.Equiv.HotPeriod
import P4db.Algorithm.BitStream
import P4db.Ee.Args
import P4db.Ee.Switch
import P4db.Switch.NewP4db
import P4db.Switch.MyP4db
import P4db.Algorithm.LockWord
import P4db.Switch.Handle
import P4db.Switch.Equiv.Handle
import P4db.Switch.SchedServer
import P4db.Ee.SchedIntf
import P4db.Switch.Equiv.SchedServer
import P4db.Ee.Equiv.SchedIntf
import P4db.Ee.Equiv.Switch
import P4db.Ee.HotCold
import P4db.Ee.Equiv.HotCold
import P4db.Ee.Equiv.Sched
import P4db.Ee.Equiv.TxnExecutor
import P4db.Ee.Equiv.Separation
import P4db.Ee.Equiv.StartEnd
import P4db.Ee.Equiv.HotStore
import P4db.Ee.Equiv.Row
import P4db.Ee.Equiv.Executor
import P4db.Ee.Equiv.Coupling
import P4db.Ee.Equiv.Moves
import P4db.Ee.Equiv.Handlers
import P4db.Ee.Equiv.Serializable
import P4db.Ee.Equiv.Changes
import P4db.Algorithm.StampOrder
import P4db.Ee.Equiv.Stamps
import P4db.Ee.Equiv.Effects
import P4db.Ee.Equiv.HotOrder
import P4db.Ee.Equiv.AtomicEnd
import P4db.Ee.Equiv.NoTrace
import P4db.Ee.Equiv.Travel
import P4db.Algorithm.Queues
import P4db.Switch.Equiv.MyP4db
import P4db.Switch.Equiv.TwoPass
import P4db.Ee.Equiv.Split
import P4db.Ee.Equiv.SecondPass
import P4db.Ee.Equiv.Demote
import P4db.Algorithm.TopTwo
import P4db.Ee.Equiv.Hottest
import P4db.Ee.Equiv.Reply
import P4db.Switch.Equiv.MyP4dbWire
import P4db.Switch.Equiv.Passes
import P4db.FastLayout.ProdTrace
import P4db.FastLayout.Equiv.ProdTrace
import P4db.Ee.SwitchGeneric
import P4db.Ee.Equiv.SwitchGeneric
import P4db.Algorithm.HeadCount
import P4db.Utils.RBarrier
import P4db.Utils.Equiv.RBarrier
import P4db.FastLayout.Switch
import P4db.FastLayout.Pipeline
import P4db.FastLayout.PipeLock
import P4db.Algorithm.Placement
import P4db.FastLayout.Equiv.Switch
import P4db.FastLayout.Equiv.SwitchRuns
import P4db.Ee.Equiv.ReplyGeneric
import P4db.Ee.Equiv.Cover
import P4db.Algorithm.Tickets
import P4db.Ee.Equiv.SendQ
import P4db.Switch.Equiv.BestFit
import P4db.Algorithm.CountMap
import P4db.Algorithm.Runs
import P4db.FastLayout.Layout
import P4db.FastLayout.Equiv.Layout
import P4db.FastLayout.Equiv.Prepare
import P4db.Algorithm.Dfs
import P4db.FastLayout.Equiv.SerialChecker
import P4db.Algorithm.Pieces
import P4db.Comm.Tcp
import P4db.Comm.Equiv.Tcp
import P4db.Main.Equiv.Redistribute
import P4db.Algorithm.Balance
import P4db.Layout.Equiv.Balance
import P4db.Ee.RowT
import P4db.Layout.Equiv.Heat
import P4db.Ee.Equiv.RowT
import P4db.Ee.Equiv.Progress
import P4db.Ee.Lockstep
import P4db.Ee.Equiv.Discipline
import P4db.Ee.Equiv.SentOrder
import P4db.Ee.Equiv.SwitchOrder
import P4db.Ee.Equiv.HotPath
import P4db.Ee.Equiv.SentOnce
