import Arth.Vm.Program

/-!
# `link_programs`

Libraries are appended to the main program: strings and code one after another, every
library instruction with its string indices and code offsets shifted.

* `remapOp` — the shift of one instruction.
* `linkLibrary` — what one library adds; `linkPrograms` — all of them.
-/

namespace Arth

/-- An exported function: qualified name, offset in the library, number of parameters. -/
structure ExportEntry where
  name : String
  offset : UInt32
  arity : UInt8
  deriving DecidableEq

/-- A library; its exports are listed in the order the export map yields them. -/
structure Library where
  program : Program
  exports : List ExportEntry
  id : String
  deriving DecidableEq

/-- The symbols of a linked program, with their offsets in it. -/
abbrev SymbolTable := List (String × UInt32)

/-- `HashMap::insert`: the offset of a name that is there already is replaced. -/
def SymbolTable.insert (t : SymbolTable) (name : String) (offset : UInt32) : SymbolTable :=
  if t.any (·.1 == name) then t.map fun e => if e.1 == name then (name, offset) else e
  else t ++ [(name, offset)]

structure LinkedProgram where
  program : Program
  symbolTable : SymbolTable
  deriving DecidableEq

/-- The string indices and the code offsets of an instruction, shifted. -/
def remapOp (stringBase codeBase : UInt32) : Op → Op
  | .print ix => .print (ix + stringBase)
  | .printStrVal ix => .printStrVal (ix + stringBase)
  | .printRaw ix => .printRaw (ix + stringBase)
  | .printRawStrVal ix => .printRawStrVal (ix + stringBase)
  | .pushStr ix => .pushStr (ix + stringBase)
  | .sharedGetByName ix => .sharedGetByName (ix + stringBase)
  | .panic ix => .panic (ix + stringBase)
  | .callSymbol ix => .callSymbol (ix + stringBase)
  | .externCall sym argc floatMask retKind =>
    .externCall (sym + stringBase) argc floatMask retKind
  | .jump tgt => .jump (tgt + codeBase)
  | .jumpIfFalse tgt => .jumpIfFalse (tgt + codeBase)
  | .call tgt => .call (tgt + codeBase)
  | .setUnwindHandler tgt => .setUnwindHandler (tgt + codeBase)
  | .taskRunBody tgt => .taskRunBody (tgt + codeBase)
  | .rcDecWithDeinit tgt => .rcDecWithDeinit (tgt + codeBase)
  | .closureNew funcId captures => .closureNew (funcId + codeBase) captures
  | op => op

def DebugEntry.shift (codeBase : UInt32) (e : DebugEntry) : DebugEntry :=
  { e with offset := e.offset + codeBase }

/-- One turn of the loop over the libraries. -/
def linkLibrary (l : LinkedProgram) (lib : Library) : LinkedProgram :=
  let stringBase := UInt32.ofNat l.program.strings.length
  let codeBase := UInt32.ofNat l.program.code.length
  { program :=
      { strings := l.program.strings ++ lib.program.strings
        code := l.program.code ++ lib.program.code.map (remapOp stringBase codeBase)
        asyncDispatch := l.program.asyncDispatch ++
          lib.program.asyncDispatch.map fun e => (e.1, e.2 + codeBase)
        debugEntries := l.program.debugEntries ++
          lib.program.debugEntries.map (DebugEntry.shift codeBase) }
    symbolTable := lib.exports.foldl (fun t e => t.insert e.name (e.offset + codeBase))
      l.symbolTable }

def linkPrograms (main : Program) (libraries : List Library) : LinkedProgram :=
  if libraries = [] then ⟨main, []⟩
  else
    let l := libraries.foldl linkLibrary ⟨main, []⟩
    -- the debug entries are sorted by offset, entries of one offset in their order
    { l with program := { l.program with
        debugEntries := l.program.debugEntries.mergeSort fun a b => a.offset ≤ b.offset } }

/-- `get_async_body_offset`: the first entry of the id. -/
def Program.getAsyncBodyOffset (p : Program) (fnId : Int64) : Option UInt32 :=
  (p.asyncDispatch.find? (·.1 == fnId)).map (·.2)

end Arth
