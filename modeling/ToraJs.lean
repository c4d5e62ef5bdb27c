import ToraJs.Lib.RoundNearest
import ToraJs.Interval.Transfer
import ToraJs.Interval.Machine
import ToraJs.Interval.Soundness
import ToraJs.Lib.FirstArrival
import ToraJs.Regex.Program
import ToraJs.Regex.Utf8
import ToraJs.Regex.ClassExpand
import ToraJs.Regex.Backtrack
import ToraJs.Regex.Explore
import ToraJs.Regex.PikeExplore
import ToraJs.Regex.BacktrackExplore
import ToraJs.Regex.WindowCaptures
import ToraJs.Regex.Dfa.Closure
import ToraJs.Regex.Dfa.Intern
import ToraJs.Regex.Dfa.Build
import ToraJs.Regex.Dfa.Search
import ToraJs.Regex.Dfa.Lazy
import ToraJs.Regex.Dfa.Automaton
import ToraJs.Regex.Dfa.TableWalk
import ToraJs.Regex.Dfa.Subset
import ToraJs.Regex.Dfa.PoolSpec
import ToraJs.Regex.Dfa.EagerSpec
import ToraJs.Regex.Dfa.LazySpec
import ToraJs.Lib.OpenAddressing
import ToraJs.Lib.Binary64
import ToraJs.BigInt.Layout
import ToraJs.BigInt.Magnitude
import ToraJs.BigInt.Multiply
import ToraJs.BigInt.Divide
import ToraJs.BigInt.Arith
import ToraJs.BigInt.Bitwise
import ToraJs.BigInt.Shift
import ToraJs.Collections.Key
import ToraJs.Lib.OrderedDict
import ToraJs.Lib.DictHistory
import ToraJs.Collections.Table
import ToraJs.Collections.Probe
import ToraJs.Collections.Invariant
import ToraJs.Collections.Operations
import ToraJs.Collections.Dictionary
import ToraJs.Collections.Iterate
import ToraJs.Lib.Decimal
import ToraJs.Lib.StableSort
import ToraJs.Lib.ExchangeNetwork
import ToraJs.Arr.SortSlots
import ToraJs.Arr.SortNum
import ToraJs.Date.Civil
import ToraJs.Date.Format
import ToraJs.Date.Parse
import ToraJs.Date.RoundTrip
import ToraJs.Lib.ClassOrder
import ToraJs.Str.Normalize
import ToraJs.Str.NormalForm
import ToraJs.Str.Compose
import ToraJs.Str.Uax15
import ToraJs.Regex.Dfa.Reach
import ToraJs.Regex.Dfa.Longest
import ToraJs.Regex.Dfa.BuildEnds
import ToraJs.Regex.Dfa.LongestPrefix
import ToraJs.Regex.Dfa.Simulation
import ToraJs.BigInt.AsIntN
import ToraJs.Lib.Ieee754
import ToraJs.Rewrite.Rules
import ToraJs.Rewrite.Soundness
import ToraJs.Codegen.A64
import ToraJs.Codegen.Constant
import ToraJs.Lib.ParallelCopy
import ToraJs.Codegen.Operand
import ToraJs.Codegen.CallArgs
import ToraJs.Lib.DepthFirst
import ToraJs.Dominator.Cfg
import ToraJs.Lib.TreeNumbering
import ToraJs.Dominator.Idoms
import ToraJs.Dominator.Tree
import ToraJs.Dominator.Renumber
import ToraJs.Lib.RangeList
import ToraJs.Regalloc.Ir
import ToraJs.Regalloc.BlockLiveness
import ToraJs.Regalloc.Liveness
import ToraJs.Regalloc.LiveRanges
import ToraJs.Regalloc.Exec
import ToraJs.Regalloc.Coalesce
import ToraJs.Regalloc.LazyRanges
import ToraJs.Lib.ClockChange
import ToraJs.Date.LocalTime
import ToraJs.Date.Elements
import ToraJs.Date.Legal
import ToraJs.Cycle.RootBuffer
import ToraJs.Cycle.BufferInvariant
import ToraJs.Lib.Simulation
import ToraJs.Egraph.Ir
import ToraJs.Egraph.Exec
import ToraJs.Egraph.Loops
import ToraJs.Egraph.LoopRotate
import ToraJs.Egraph.RotateSound
import ToraJs.Egraph.CtpopIdiom
import ToraJs.Egraph.CtpopMatch
import ToraJs.Lib.BitCount
import ToraJs.Egraph.CtpopSound
import ToraJs.Json.ParseInt
import ToraJs.Str.ReplaceSubst
import ToraJs.Str.TemplateReading
import ToraJs.Str.ReplaceExact
import ToraJs.Link.Patch
import ToraJs.Link.Resolve
import ToraJs.Link.ResolveExact
import ToraJs.Lib.CongruentPlacement
import ToraJs.Link.CutTwice
import ToraJs.Link.RowPlan
import ToraJs.Lib.Unicode
import ToraJs.Wtf8.Buf
import ToraJs.Wtf8.Sequence
import ToraJs.Wtf8.Canonical
import ToraJs.Wtf8.Pushes
import ToraJs.Str.Uri
import ToraJs.Str.UriDecode
import ToraJs.Str.UriExact
import ToraJs.Json.Quote
import ToraJs.Json.QuoteExact
import ToraJs.Json.StringExact
import ToraJs.Lib.NumericText
import ToraJs.Str.ToNumber
import ToraJs.Str.ToNumberExact
import ToraJs.Codegen.BitmaskImm
import ToraJs.Promise.FanIn
import ToraJs.Promise.Unhandled
import ToraJs.Dynobj.Redefine
import ToraJs.Lib.LittleEndian
import ToraJs.Link.ChainedFixups
import ToraJs.Link.ChainedFixupsExact
import ToraJs.Lib.Worklist
import ToraJs.Link.Reach
import ToraJs.Link.ReachEdges
import ToraJs.Link.ReachExact
import ToraJs.Lib.BigEndian
import ToraJs.Date.ZoneFile
import ToraJs.Date.ZoneFileExact
import ToraJs.Regex.OffsetMap
import ToraJs.Lib.BinarySearch
import ToraJs.Regex.CpRangeSet
import ToraJs.Lib.BinarySearch
import ToraJs.Regex.CpRangeSet
import ToraJs.Microtask.Ring
import ToraJs.Microtask.Drain
import ToraJs.Egraph.ScopeMap
import ToraJs.Lib.ParentForest
import ToraJs.Egraph.Classes
import ToraJs.Lib.FloatBits
import ToraJs.Egraph.Rules
import ToraJs.Lib.TreeWalk
import ToraJs.Egraph.Optimize
import ToraJs.Egraph.Elaborate
import ToraJs.Egraph.Available
import ToraJs.Egraph.Canonical
import ToraJs.Egraph.OptimizeSound
import ToraJs.Egraph.HoistSound
import ToraJs.Egraph.Elaborated
import ToraJs.Egraph.PassDefined
