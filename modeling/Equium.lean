import Equium.Schemes.Run
import Equium.Schemes.Order
import Equium.Schemes.ByKey
import Equium.Schemes.Text
import Equium.Schemes.Groups
import Equium.Schemes.Radix
import Equium.Core.Challenge
import Equium.Program.Round
import Equium.Program.Runs
import Equium.Program.Emission
import Equium.Program.Token
import Equium.Program.Vault
import Equium.Program.Admin
import Equium.Program.Retarget
import Equium.Program.EmptyRounds
import Equium.Program.Failures
import Equium.Program.History
import Equium.Program.Difficulty
import Equium.Program.Progress
import Equium.Miner.Race
import Equium.Miner.Deadlock
import Equium.Miner.Desktop
import Equium.Miner.Landing
import Equium.Miner.Session
import Equium.Miner.Watchdog
import Equium.Miner.Paths
import Equium.Solver.TryNonce
import Equium.Solver.RowOrder
import Equium.Gpu.Refinement
import Equium.Website.Dispatch
import Equium.Explorer.Recovery
import Equium.Explorer.LogLine
import Equium.Explorer.OnChain
import Equium.Explorer.Leaderboard
import Equium.Explorer.Dashboard
import Equium.Website.Quota
import Equium.Solver.Totality
import Equium.Miner.Packers
import Equium.Miner.SolveBlock
import Equium.Website.Transparency
import Equium.Website.Lifecycle
import Equium.Gpu.LeafRefinement
import Equium.Gpu.PortRefinement
import Equium.Explorer.LastSeen
import Equium.Explorer.Hashrate
import Equium.Miner.Keystore
import Equium.Miner.Wallet
import Equium.Website.LeavesQueue
import Equium.Website.Submissions
import Equium.Website.WalletContext
import Equium.Website.FullGpu
import Equium.WebMiner.Landing
