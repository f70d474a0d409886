import PlanSched.CheckedRun
import PlanSched.CText
import PlanSched.StepProfile
import PlanSched.OrderedMap
import PlanSched.CursorWalk
import PlanSched.LinkedSegment
import PlanSched.MoveToFront
import PlanSched.DataTypes
import PlanSched.LimitsConfig
import PlanSched.Limits
import PlanSched.LimitsIndex
import PlanSched.DynamicResource
import PlanSched.RunChecks
import PlanSched.RunPlan
import PlanSched.SlotExclusivity
import PlanSched.GapShape
import PlanSched.Replanning
import PlanSched.LimitsAgree
import PlanSched.ClusterUpdate
import PlanSched.ClusterCapacity
import PlanSched.KnownJobs
import PlanSched.JobIdentity
import PlanSched.Rollback
import PlanSched.NodeAssignment
import PlanSched.Configuration
import PlanSched.Reload
import PlanSched.DedTime
import PlanSched.FirstGap
import PlanSched.GapCounts
import PlanSched.SlotLayout
import PlanSched.ChunkChoice
import PlanSched.Acceptance
import PlanSched.LimitAccounts
import PlanSched.GapCapacity
import PlanSched.EarliestStart
import PlanSched.NodeSearch
import PlanSched.PlacementArrays
import PlanSched.ChosenCpus
import PlanSched.ListOperations
import PlanSched.Snapshot
import PlanSched.SiblingTree
import PlanSched.Fairshare
import PlanSched.GapSoundness
import PlanSched.IdleTime
import PlanSched.PinnedNodes
import PlanSched.ReadyChunks
import PlanSched.ReadyNodes
import PlanSched.ShortStarts
import PlanSched.EarliestPlacement
import PlanSched.AvailWindows
import PlanSched.ShortestRun
import PlanSched.FirstFit
import PlanSched.GapChoice
import PlanSched.Resource
import PlanSched.PreferredOrder
import PlanSched.RandomMoves
import PlanSched.FirstFree
import PlanSched.NodespecCheck
import PlanSched.NodeSelection
import PlanSched.CheckTraces
import PlanSched.FairshareCost
import PlanSched.ScratchChoice
import PlanSched.TextSearch
import PlanSched.BootAlternatives
import PlanSched.DecodeTime
import PlanSched.WalltimeLimits
import PlanSched.ClusterSuitable
import PlanSched.RunLengths
import PlanSched.NodespecText
import PlanSched.ComposedNodespec
import PlanSched.NegativeProperties
import PlanSched.NodespecBuffers
import PlanSched.KeyedRecords
import PlanSched.PlanEvaluation
import PlanSched.EvaluationDivisors
import PlanSched.DecayRuns
import PlanSched.LazyCache
import PlanSched.RunCounts
import PlanSched.TempUsage
import PlanSched.Shares
import PlanSched.GroupNames
import PlanSched.UsageFile
import PlanSched.ConfigLines
import PlanSched.LimitLines
import PlanSched.KeyLines
import PlanSched.WeakOrders
import PlanSched.JobSort
import PlanSched.PlannerOrders
import PlanSched.PrimeHours
import PlanSched.Holidays
import PlanSched.CpuJobs
import PlanSched.TextWords
import PlanSched.ImageProperties
import PlanSched.GroupUsers
import PlanSched.ClusterAttributes
import PlanSched.DenseNumbering
import PlanSched.PropRegistry
import PlanSched.LeastIndex
import PlanSched.EarliestSlot
import PlanSched.RunningCounter
import PlanSched.SlotTable
import PlanSched.TailSums
import PlanSched.InitialTable
import PlanSched.Bisection
import PlanSched.AccountSearch
import PlanSched.ResourceAmounts
import PlanSched.StartedJobs
import PlanSched.WithinLimits
import PlanSched.UsageMeter
import PlanSched.PublishedRuns
