import Lsf.Lib.Run
import Lsf.Lib.Maps
import Lsf.Lib.PriorityQueue
import Lsf.Core.Entry
import Lsf.Core.F64
import Lsf.Cov.Bitmap
import Lsf.Engine.Corpus
import Lsf.Engine.DynamicCorpus
import Lsf.Engine.Tiers
import Lsf.Engine.Located
import Lsf.Engine.Refinement
import Lsf.Engine.RepInvariant
import Lsf.Engine.ShardedDiskCache
import Lsf.Engine.Demotion
import Lsf.Cov.Ipc
import Lsf.Engine.TokenCycle
import Lsf.Ffi.Tokens
import Lsf.Feedback.Mab
import Lsf.Feedback.Decay
import Lsf.Feedback.Score
import Lsf.Feedback.Inflation
import Lsf.Core.Draws
import Lsf.Feedback.Bandits
import Lsf.Lib.Rounding
import Lsf.Lib.Roulette
import Lsf.Engine.BlockSum
import Lsf.Engine.Schedule
import Lsf.Lib.Buckets
import Lsf.Engine.ProbabilisticMab
import Lsf.Engine.Slots
import Lsf.Cov.Scored
import Lsf.Engine.Minimizer
import Lsf.Engine.Engine
import Lsf.Engine.Session
import Lsf.Engine.Commit
import Lsf.Engine.MabScheduler
import Lsf.Engine.Wheel
import Lsf.Engine.Exact
import Lsf.Engine.Batching
import Lsf.Engine.Removal
import Lsf.Engine.Drained
import Lsf.Engine.SqlSaver
import Lsf.Hooks.Guards
import Lsf.Tester.Signature
import Lsf.Tester.Oracle
import Lsf.Lib.Program
import Lsf.Lib.Visit
import Lsf.Mutate.Json
import Lsf.Mutate.Child
import Lsf.Mutate.Splice
import Lsf.Mutate.Values
import Lsf.Mutate.Tree
import Lsf.Mutate.Strategy
import Lsf.Mutate.Honesty
import Lsf.Engine.Owned
import Lsf.Mutate.Telling
import Lsf.Mutate.Credit
import Lsf.Engine.Outline
import Lsf.Engine.Generations
import Lsf.Engine.Coverage
import Lsf.Engine.Restart
import Lsf.Cov.Earliest
import Lsf.Engine.BadPasses
import Lsf.Engine.Diversity
import Lsf.Engine.Capacity
import Lsf.Engine.Protected
import Lsf.Engine.Alignment
import Lsf.Engine.OneBatch
import Lsf.Engine.Energy
import Lsf.Mutate.Applied
import Lsf.Engine.BinaryBlob
import Lsf.Engine.Cleared
import Lsf.Lib.StreamReader
import Lsf.Tester.Worker
import Lsf.Tester.Exec
import Lsf.Mutate.Parts
import Lsf.Mutate.Shuffling
import Lsf.Mutate.Hoisting
import Lsf.Engine.ItemOrder
import Lsf.Mutate.Shapes
import Lsf.Mutate.Blocks
import Lsf.Mutate.Donors
import Lsf.Mutate.Expansion
import Lsf.Mutate.TableNames
import Lsf.Tester.Keywords
import Lsf.Tester.Literals
import Lsf.Lib.WorkQueue
import Lsf.Tester.EventLoop
import Lsf.Tester.Pipeline
import Lsf.Tester.Shutdown
import Lsf.Tester.Evaluation
import Lsf.Lib.Supply
import Lsf.Mutate.Returning
import Lsf.Mutate.Breeding
import Lsf.Mutate.Rulesets
import Lsf.Tester.Sharing
import Lsf.Tester.WorkerSession
import Lsf.Tester.Workers
import Lsf.Mutate.Lineage
import Lsf.Engine.Sourcing
import Lsf.Engine.Pedigree
import Lsf.Tester.Campaign
import Lsf.Tester.Starvation
import Lsf.Lib.Lockstep
import Lsf.Engine.Parametric
import Lsf.Engine.Interchange
import Lsf.Engine.TaskSession
import Lsf.Tester.Testbed
