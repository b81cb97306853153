import TradeCore.BookSteps
import TradeCore.RunRefines
import TradeCore.Uncrossed
import TradeCore.Priority
import TradeCore.JournalCrash
import TradeCore.AppliedProofs
import TradeCore.RaftDrive
import TradeCore.Outbox
import TradeCore.IterationOrder
import TradeCore.Ledger
import TradeCore.Batch
import TradeCore.Restore
import TradeCore.Compaction
import TradeCore.Availability
import TradeCore.Forwarding
import TradeCore.Fingerprint
import TradeCore.WireBehaviour
import TradeCore.TerminalRows
import TradeCore.JournalReplay
import TradeCore.SnapshotDecoding
import TradeCore.Spsc
import TradeCore.LeafIds
import TradeCore.StrategyRanks
import TradeCore.Budgets
import TradeCore.Latency
import TradeCore.FullView
