import Arth.Vm.Ops

/-!
# Programs

A program is its string table, its code, the async dispatch table and the debug
entries.
-/

namespace Arth

/-- Where a function starts in the code, and where it comes from in the source. -/
structure DebugEntry where
  offset : UInt32
  functionName : String
  sourceFile : Option String
  line : UInt32
  deriving DecidableEq

structure Program where
  strings : List String
  code : List Op
  asyncDispatch : List (Int64 × UInt32)
  debugEntries : List DebugEntry
  deriving DecidableEq

end Arth
