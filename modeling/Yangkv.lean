import Yangkv.Lib.Arc
import Yangkv.Lib.Assertion
import Yangkv.Lib.Atomic
import Yangkv.Lib.Bytes
import Yangkv.Lib.Decimal
import Yangkv.Lib.Fuel
import Yangkv.Lib.Generations
import Yangkv.Lib.Grammar
import Yangkv.Lib.LastWrite
import Yangkv.Lib.Lex
import Yangkv.Lib.LinkedRing
import Yangkv.Lib.Machine
import Yangkv.Lib.OrderedSet
import Yangkv.Lib.Pieces
import Yangkv.Lib.PrefixCode
import Yangkv.Lib.Progress
import Yangkv.Lib.Refinement
import Yangkv.Lib.Ring
import Yangkv.Lib.Slices
import Yangkv.Lib.Varint
import Yangkv.Proof.AnyFilter
import Yangkv.Proof.AnyTable
import Yangkv.Proof.AppendMoves
import Yangkv.Proof.ApplyEdit
import Yangkv.Proof.Archive
import Yangkv.Proof.Block
import Yangkv.Proof.BloomFilter
import Yangkv.Proof.BuilderApply
import Yangkv.Proof.BuilderSave
import Yangkv.Proof.Callers
import Yangkv.Proof.Codec
import Yangkv.Proof.Compaction
import Yangkv.Proof.Crash
import Yangkv.Proof.Database
import Yangkv.Proof.EditBytes
import Yangkv.Proof.EditGrammar
import Yangkv.Proof.FailedCompaction
import Yangkv.Proof.FilterBlock
import Yangkv.Proof.Format
import Yangkv.Proof.Freeze
import Yangkv.Proof.History
import Yangkv.Proof.Ids
import Yangkv.Proof.Layers
import Yangkv.Proof.Lifetime
import Yangkv.Proof.Linear
import Yangkv.Proof.LogFile
import Yangkv.Proof.LogHistory
import Yangkv.Proof.Merge
import Yangkv.Proof.MergeLookup
import Yangkv.Proof.NoDeadlock
import Yangkv.Proof.Overshoot
import Yangkv.Proof.PrefixCode
import Yangkv.Proof.PresentKey
import Yangkv.Proof.ReadYourWrites
import Yangkv.Proof.Reader
import Yangkv.Proof.Recovery
import Yangkv.Proof.Restarts
import Yangkv.Proof.Room
import Yangkv.Proof.Search
import Yangkv.Proof.SearchList
import Yangkv.Proof.SharedQueue
import Yangkv.Proof.Shutdown
import Yangkv.Proof.Sleepers
import Yangkv.Proof.Start
import Yangkv.Proof.Startable
import Yangkv.Proof.Steps
import Yangkv.Proof.StickyErrors
import Yangkv.Proof.Stream
import Yangkv.Proof.StreamErrors
import Yangkv.Proof.Table
import Yangkv.Proof.TableFiles
import Yangkv.Proof.TableLookup
import Yangkv.Proof.ThinAir
import Yangkv.Proof.TornLog
import Yangkv.Proof.VersionCounts
import Yangkv.Proof.VersionEdit
import Yangkv.Proof.VersionList
import Yangkv.Proof.Wakeup
import Yangkv.Proof.Wal
import Yangkv.Proof.WriteOrder
import Yangkv.Spec.Block
import Yangkv.Spec.BloomFilter
import Yangkv.Spec.Builder
import Yangkv.Spec.Callers
import Yangkv.Spec.Compacter
import Yangkv.Spec.Config
import Yangkv.Spec.Database
import Yangkv.Spec.DbFormat
import Yangkv.Spec.Env
import Yangkv.Spec.FilterBlock
import Yangkv.Spec.Freeze
import Yangkv.Spec.History
import Yangkv.Spec.Lifetime
import Yangkv.Spec.Log
import Yangkv.Spec.MessageQueue
import Yangkv.Spec.SharedQueue
import Yangkv.Spec.SkipList
import Yangkv.Spec.Store
import Yangkv.Spec.Table
import Yangkv.Spec.Threads
import Yangkv.Spec.Version
import Yangkv.Spec.VersionBuilder
import Yangkv.Spec.VersionEdit
import Yangkv.Spec.VersionList
