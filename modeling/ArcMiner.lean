import ArcMiner.PearlGemm.PowCheck
import ArcMiner.Prl.InstalledState
import ArcMiner.Prl.BTreeOwnership
import ArcMiner.Prl.WinSeeds
import ArcMiner.Prl.SaltedSeedCalls
import ArcMiner.Pool.BincodeSerializer
import ArcMiner.Pool.Frames
import ArcMiner.Pool.JobStore
import ArcMiner.Pool.ShareReplies
import ArcMiner.Prl.ShareVerdicts
import ArcMiner.Rx.RxJob
import ArcMiner.Pool.SessionStore
import ArcMiner.Prl.MerkleTreeHandle
import ArcMiner.Stratum.CryptoNoteConnection
import ArcMiner.Stratum.ReadLoop
import ArcMiner.Stratum.Workers
import ArcMiner.Stratum.SeededClients
import ArcMiner.Stratum.BitcoinStratumJob
import ArcMiner.AkoyaCrypto.ChallengeSearch
import ArcMiner.PearlGemm.BSeedExpand
import ArcMiner.PearlGemm.TgemmRange
import ArcMiner.AkoyaCrypto.PeriodicPattern
import ArcMiner.Config.CpuAlgoConfig
import ArcMiner.Observability.ControlApi
import ArcMiner.AkoyaCrypto.MerkleProofBuilder
import ArcMiner.AkoyaCrypto.AuditDepth
import ArcMiner.PearlGemm.TgemmFolds
import ArcMiner.Prl.SearchWindow
import ArcMiner.PearlGemm.NoiseBTiles
import ArcMiner.Pool.PingLedger
import ArcMiner.Prl.FinalizerReferences
import ArcMiner.Prl.WorkerLivenessWatchdog
import ArcMiner.Gr.SoloBlock
import ArcMiner.Rx.NonceSpace
import ArcMiner.Solo.TemplateLoop
import ArcMiner.Observability.Panel
import ArcMiner.Observability.LogRateLimiter
import ArcMiner.Stratum.SearchCalls
