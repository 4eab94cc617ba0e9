import Gate.Spec.Ledger
import Gate.Spec.Mem
import Gate.Spec.Config
import Gate.Spec.Runtime
import Gate.Spec.File
import Gate.Spec.Compile
import Gate.Spec.Validate
import Gate.Spec.Checks
import Gate.Sanity.Compile
import Gate.Spec.Region
import Gate.Spec.Decide
import Gate.Spec.Hub
import Gate.Lib.Run
import Gate.Lib.Threads
import Gate.Spec.Lease
import Gate.Spec.Edges
import Gate.Sanity.Ledger
import Gate.Spec.Tokens
import Gate.Proofs.LeaseLogic
import Gate.Proofs.LeasePrograms
import Gate.Proofs.LeaseSteps
import Gate.Lib.Accounts
import Gate.Sanity.Quota
import Gate.Proofs.LeaseSafety
import Gate.Spec.Clocks
import Gate.Proofs.TokenLife
import Gate.Proofs.TokenAge
import Gate.Lib.Gcra
import Gate.Proofs.BucketBound
import Gate.Proofs.OrgBudget
import Gate.Sanity.Regions
import Gate.Proofs.Transfers
import Gate.Lib.Serial
import Gate.Spec.KeyAdmin
import Gate.Proofs.KeyAdmin
import Gate.Sanity.Validate
import Gate.Sanity.Compile
import Gate.Proofs.RoundTrip
import Gate.Proofs.Loads
import Gate.Sanity.Resolve
import Gate.Proofs.ValidSpecs
import Gate.Proofs.Agreement
import Gate.Proofs.KeyPattern
import Gate.Lib.Alone
import Gate.Spec.LocalRun
import Gate.Proofs.LocalRefunds
import Gate.Lib.Fields
import Gate.Proofs.QuotaKeys
import Gate.Proofs.TierCache
import Gate.Proofs.HubAgreement
import Gate.Spec.Calls
import Gate.Proofs.GrantBounds
import Gate.Proofs.RetryHints
import Gate.Proofs.NestedGrants
import Gate.Spec.Migration
import Gate.Proofs.Migration
import Gate.Spec.LocalPool
import Gate.Proofs.LocalPool
import Gate.Lib.Blocks
import Gate.Proofs.LeaseBlocks
import Gate.Proofs.EdgeGuard
import Gate.Proofs.DebtBound
import Gate.Proofs.Descriptors
import Gate.Proofs.RegionSplit
import Gate.Proofs.Batch
import Gate.Proofs.Dedupe
import Gate.Proofs.Endgame
import Gate.Proofs.HubTiers
import Gate.Proofs.Rls
import Gate.Proofs.Redis
import Gate.Proofs.Settle
import Gate.Proofs.SettleOnce
import Gate.Proofs.Watch
import Gate.Spec.Denials
import Gate.Proofs.Denials
import Gate.Spec.TtlCache
import Gate.Proofs.TtlCache
import Gate.Proofs.Batcher
import Gate.Lib.Groups
import Gate.Spec.Events
import Gate.Spec.Snapshot
import Gate.Proofs.Snapshot
import Gate.Proofs.Overview
import Gate.Proofs.Retry
import Gate.Spec.Rolls
import Gate.Proofs.Rolls
import Gate.Lib.Edits
import Gate.Proofs.CacheTemplate
import Gate.Proofs.Concurrency
import Gate.Proofs.ConfigDiff
import Gate.Proofs.ResponseCache
import Gate.Proofs.Suggest
import Gate.Proofs.Percentiles
import Gate.Proofs.RedisCounter
