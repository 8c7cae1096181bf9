import Ortoa.Bytes
import Ortoa.Run
import Ortoa.Latest
import Ortoa.Chain
import Ortoa.Linearize
import Ortoa.Terms
import Ortoa.Loop
import Ortoa.ThreadLocal
import Ortoa.Tiling
import Ortoa.Product
import Ortoa.FileSystem
import Ortoa.Progress
import Ortoa.WorkQueue
import Ortoa.Writes
import Ortoa.Lbl.Constants
import Ortoa.Lbl.Slot
import Ortoa.Lbl.Libsodium
import Ortoa.Lbl.ClientHelper
import Ortoa.Lbl.Entries
import Ortoa.Lbl.Parallel
import Ortoa.Lbl.ThreadPool
import Ortoa.Lbl.ThreadPoolOrder
import Ortoa.Lbl.ThreadPoolProgress
import Ortoa.Lbl.ThreadPoolDestructor
import Ortoa.Lbl.ThreadPoolResults
import Ortoa.Lbl.PooledBuilders
import Ortoa.Lbl.Server
import Ortoa.Lbl.ServerBounds
import Ortoa.Lbl.Client
import Ortoa.Lbl.CommandLine
import Ortoa.Lbl.Generations
import Ortoa.Lbl.Knowledge
import Ortoa.Lbl.Hiding
import Ortoa.Lbl.Proxy
import Ortoa.Lbl.ProxyAlone
import Ortoa.Lbl.ProxyLocks
import Ortoa.Lbl.ProxyProgress
import Ortoa.Lbl.RandomLoad
import Ortoa.Lbl.ProxyChain
import Ortoa.Lbl.ProxyLinear
import Ortoa.Lbl.ProxyCreate
import Ortoa.Lbl.ProxyBuilders
import Ortoa.Lbl.ProxyKeys
import Ortoa.Lbl.Restart
import Ortoa.Lbl.RestartAgrees
import Ortoa.Cbc
import Ortoa.Tee.Engine
import Ortoa.Tee.Host
import Ortoa.Tee.Requests
import Ortoa.Tee.RequestsLinear
import Ortoa.Tee.Workload
import Ortoa.Tee.WorkloadRuns
import Ortoa.Text
import Ortoa.Csv
import Ortoa.Rounding
import Ortoa.FloatText
import Ortoa.Tee.Hiding
import Ortoa.Tee.Lifetime
import Ortoa.Tee.ClientUtils
import Ortoa.Tee.SharedQueue
import Ortoa.Tee.ClientRun
import Ortoa.Tee.Sizes
import Ortoa.Tee.Generator
import Ortoa.Tee.RandomMode
import Ortoa.Bench.Parameter
import Ortoa.Bench.Stats
import Ortoa.Bench.Experiment
import Ortoa.Bench.Combine
import Ortoa.Bench.Flags
