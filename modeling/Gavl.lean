import Gavl.Chain.Writer
import Gavl.Chains.Esplora
import Gavl.Chains.FailoverTheorems
import Gavl.Consensus.AdoptTheorems
import Gavl.Consensus.DifficultyTheorems
import Gavl.Consensus.FinalityTheorems
import Gavl.Consensus.ForkChoiceTheorems
import Gavl.Consensus.Genesis
import Gavl.Consensus.HeaviestTheorems
import Gavl.Consensus.Interleaving
import Gavl.Consensus.InterleavingTheorems
import Gavl.Consensus.Mining
import Gavl.Consensus.MiningTheorems
import Gavl.Consensus.Order
import Gavl.Consensus.PruningTheorems
import Gavl.Consensus.RebuildTheorems
import Gavl.Consensus.SettlementTheorems
import Gavl.Consensus.SpellingTheorems
import Gavl.Consensus.VouchedTheorems
import Gavl.Daemon
import Gavl.Desktop.Format
import Gavl.Desktop.FormatTheorems
import Gavl.Desktop.Market
import Gavl.Desktop.MarketTheorems
import Gavl.Det.Agreement
import Gavl.Det.FieldTheorems
import Gavl.Det.JsonParse
import Gavl.Det.JsonParseTheorems
import Gavl.Det.Record
import Gavl.Det.Shape
import Gavl.Ledger.DeliveryTheorems
import Gavl.Ledger.FraudTheorems
import Gavl.Ledger.GrowthTheorems
import Gavl.Ledger.Invariant
import Gavl.Ledger.Ledger
import Gavl.Ledger.LedgerTheorems
import Gavl.Ledger.PartTheorems
import Gavl.Ledger.PruneTheorems
import Gavl.Ledger.RejectTheorems
import Gavl.Ledger.RootTheorems
import Gavl.Ledger.Simulation
import Gavl.Lib.EarlyReturn
import Gavl.Lib.LargestFirst
import Gavl.Lib.LayeredMerkle
import Gavl.Lib.MapTotals
import Gavl.Lib.PrefixCode
import Gavl.Lib.SortedMerkle
import Gavl.Lib.StableSort
import Gavl.Lib.Tapscript
import Gavl.Market.Board
import Gavl.Market.CapacityTheorems
import Gavl.Market.CheckpointTheorems
import Gavl.Market.CodecTheorems
import Gavl.Market.EpochTheorems
import Gavl.Market.Fold
import Gavl.Market.FoldTheorems
import Gavl.Market.LifecycleTheorems
import Gavl.Market.ListingTheorems
import Gavl.Market.OfferTheorems
import Gavl.Market.Ops
import Gavl.Market.OrderTheorems
import Gavl.Market.ParseTheorems
import Gavl.Market.Payload
import Gavl.Market.RequestTheorems
import Gavl.Market.RoundTripTheorems
import Gavl.Market.State
import Gavl.Market.StateTheorems
import Gavl.Market.Untyped
import Gavl.Market.UntypedTheorems
import Gavl.Pos.Plot
import Gavl.Pos.PlotTheorems
import Gavl.Pot.WorkersTheorems
import Gavl.Store.RestartTheorems
import Gavl.Store.SignedTheorems
import Gavl.Store.Store
import Gavl.Swap.AbortTheorems
import Gavl.Swap.BindingTheorems
import Gavl.Swap.Digest
import Gavl.Swap.DigestBindingTheorems
import Gavl.Swap.DigestTheorems
import Gavl.Swap.Engine
import Gavl.Swap.Htlc
import Gavl.Swap.KeepTheorems
import Gavl.Swap.Keys
import Gavl.Swap.KeysTheorems
import Gavl.Swap.ProofTheorems
import Gavl.Swap.ResendTheorems
import Gavl.Swap.RevealTheorems
import Gavl.Swap.Scan
import Gavl.Swap.ScanTheorems
import Gavl.Swap.SecretTheorems
import Gavl.Swap.Session
import Gavl.Swap.SessionTheorems
import Gavl.Swap.SpendTheorems
import Gavl.Swap.Step
import Gavl.Swap.StepTheorems
import Gavl.Sync.BeliefTheorems
import Gavl.Sync.Chunk
import Gavl.Sync.ChunkTheorems
import Gavl.Sync.ConvergeTheorems
import Gavl.Sync.FloodTheorems
import Gavl.Sync.FloorTheorems
import Gavl.Sync.Ingest
import Gavl.Sync.IngestTheorems
import Gavl.Sync.JudgeTheorems
import Gavl.Sync.Node
import Gavl.Sync.Producer
import Gavl.Sync.PullTheorems
import Gavl.Sync.ReassemblerTheorems
import Gavl.Sync.RelayTheorems
import Gavl.Sync.Reports
import Gavl.Sync.SnapshotTheorems
import Gavl.Wallet.ChainWallet
import Gavl.Wallet.CoinTheorems
import Gavl.Wallet.FundsTheorems
import Gavl.Wallet.PaymentTheorems
import Gavl.Wallet.Payments
