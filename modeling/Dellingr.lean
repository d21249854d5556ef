import Dellingr.Lib.Binary64
import Dellingr.Lib.IndexMap
import Dellingr.Vm.Val
import Dellingr.Lib.Checked
import Dellingr.Vm.Table
import Dellingr.Lib.AssocList
import Dellingr.Vm.Table.Slots
import Dellingr.Vm.Table.Contents
import Dellingr.Vm.Table.Window
import Dellingr.Vm.Table.Hash
import Dellingr.Vm.Table.Flat
import Dellingr.Vm.Table.Refinement
import Dellingr.Lib.Shift
import Dellingr.Vm.Table.Sequence
import Dellingr.Vm.Table.Traversal
import Dellingr.Vm.Table.Index
import Dellingr.Vm.Table.Snapshot
import Dellingr.Vm.Table.Operation
import Dellingr.Vm.Table.Model
import Dellingr.Vm.Table.Bisimulation
import Dellingr.Vm.Table.Walk
import Dellingr.Compiler.Bytecode
import Dellingr.Compiler.Verify
import Dellingr.Lib.Effect
import Dellingr.Compiler.Verified
import Dellingr.Vm.Machine
import Dellingr.Vm.Call
import Dellingr.Vm.Dispatch
import Dellingr.Vm.Invariant
import Dellingr.Vm.Upvalues
import Dellingr.Vm.CallSound
import Dellingr.Vm.Activation
import Dellingr.Vm.Step
import Dellingr.Vm.Soundness
import Dellingr.CostModel
import Dellingr.CostMeter
import Dellingr.Vm.Metamethod
import Dellingr.Vm.MetamethodSound
import Dellingr.Vm.Metering
import Dellingr.Lib.Stamp
import Dellingr.Vm.Table.Token
import Dellingr.Vm.Table.Shape
import Dellingr.Vm.Table.TokenSound
import Dellingr.Lib.Codec
import Dellingr.Vm.SaveState.Codec
import Dellingr.Vm.SaveState.RoundTrip
import Dellingr.Patterns.Compile
import Dellingr.Patterns.Match
import Dellingr.LuaStd.Gmatch
import Dellingr.Vm.Table.Field
import Dellingr.Vm.Table.FieldSlot
import Dellingr.LuaStd.GmatchSound
import Dellingr.Compiler.CacheSlots
import Dellingr.Vm.UpvaluePool
import Dellingr.Vm.Safepoint
import Dellingr.Vm.Balance
import Dellingr.Vm.Reachable
import Dellingr.Vm.OpenUpvalues
import Dellingr.Vm.GlobalEnv
import Dellingr.Vm.GlobalEnvSound
import Dellingr.Vm.RestrictedEnv
import Dellingr.Lib.SlotMap
import Dellingr.Lib.Tracing
import Dellingr.Vm.Collector
import Dellingr.Vm.Marking
import Dellingr.Vm.ChunkTree
import Dellingr.Vm.Collection
import Dellingr.Vm.CollectorSound
import Dellingr.Vm.RuntimeIdentity
import Dellingr.Vm.Table.Growth
import Dellingr.Vm.Table.Constructor
import Dellingr.Lib.Acyclic
import Dellingr.Vm.SaveState.NestedGraph
import Dellingr.Vm.SaveState.Materialize
import Dellingr.Vm.SaveState.PointerIds
import Dellingr.Lib.HandlerChain
import Dellingr.Lib.HashTable
import Dellingr.Vm.Interning
import Dellingr.Lib.Generations
import Dellingr.Vm.Anchor
import Dellingr.Vm.Table.Cursor
import Dellingr.Lib.Binary64Bits
import Dellingr.Lib.Digits
import Dellingr.Numeral
import Dellingr.Compiler.Lexer
import Dellingr.LuaStd.StringFormat
import Dellingr.LuaStd.QuoteString
import Dellingr.LuaStd.QuoteNumber
import Dellingr.Patterns.Reference
import Dellingr.Lib.Relational
import Dellingr.Patterns.ByteClasses
import Dellingr.Patterns.Reading
import Dellingr.Patterns.Backtracking
import Dellingr.Patterns.ReferenceSound
import Dellingr.Patterns.ReferenceSearch
import Dellingr.Vm.PatternCache
import Dellingr.LuaStd.Find
import Dellingr.Patterns.Plain
import Dellingr.LuaStd.FindPaths
import Dellingr.LuaStd.HexFloat
import Dellingr.LuaStd.Replacement
import Dellingr.LuaStd.Gsub
import Dellingr.Patterns.ReferenceLoop
import Dellingr.LuaStd.GsubPaths
import Dellingr.LuaStd.GsubReference
import Dellingr.LuaStd.GmatchMatches
import Dellingr.HexNumeral
import Dellingr.Compiler.Folding
import Dellingr.Lib.HeapOrder
import Dellingr.Vm.Table.Access
import Dellingr.Vm.TableSort
import Dellingr.Vm.TableSortPaths
import Dellingr.Lib.Binary64Int
import Dellingr.LuaStd.TableLib
import Dellingr.Lib.SlotShift
import Dellingr.Vm.Table.ShiftLoop
import Dellingr.LuaStd.TableShift
import Dellingr.LuaStd.TableMove
import Dellingr.Lib.RejectionSampling
import Dellingr.Vm.Rng
import Dellingr.Vm.RecycledPatterns
import Dellingr.Lib.Printf
import Dellingr.LuaStd.Directive
import Dellingr.LuaStd.FormatInteger
import Dellingr.LuaStd.Format
import Dellingr.Lib.RoundToOdd
import Dellingr.Crmath.SoftFma
import Dellingr.Lib.Word
import Dellingr.Lib.WideFloat
import Dellingr.Crmath.Dint
import Dellingr.Crmath.Qint
import Dellingr.Crmath.Products
import Dellingr.Crmath.Sums
import Dellingr.Compiler.Finalize
import Dellingr.Vm.Table.Rebuild
import Dellingr.LuaStd.GmatchSave
import Dellingr.Compiler.LexerLines
