import Arth.Vm.Ops

/-!
# The intermediate representation

Functions are lists of blocks; a block is a list of instructions and a terminator. Values
and blocks are numbered, and a block is named by its position in the function.
-/

namespace Arth.Ir

/-- A block, by its index in the function. -/
abbrev Block := Nat

/-- An SSA value, by its number; the parameters of a function are `0 .. n - 1`. -/
abbrev Value := Nat

inductive Ty where
  | i64 | f64 | i1 | ptr | void
  | struct (name : String)
  | enum (name : String)
  | optional (ty : Ty)
  | string
  deriving DecidableEq

inductive BinOp where
  | add | sub | mul | div | mod | shl | shr | and | or | xor
  deriving DecidableEq

inductive CmpPred where
  | eq | ne | lt | le | gt | ge
  deriving DecidableEq

inductive InstKind where
  | constI64 (n : Int64)
  | constF64 (x : F64)
  | constStr (ix : Nat)
  | copy (v : Value)
  | binary (op : BinOp) (a b : Value)
  | cmp (pred : CmpPred) (a b : Value)
  | strEq (a b : Value)
  | strConcat (a b : Value)
  | alloca
  | load (p : Value)
  | store (p v : Value)
  | structAlloc (typeName : String)
  | structFieldGet (ptr : Value) (typeName fieldName : String) (fieldIndex : Nat)
  | structFieldSet (ptr : Value) (typeName fieldName : String) (fieldIndex : Nat) (value : Value)
  | enumAlloc (typeName : String)
  | enumGetTag (ptr : Value) (typeName : String)
  | enumSetTag (ptr : Value) (typeName : String) (tag : Int32)
  | enumGetPayload (ptr : Value) (typeName : String) (payloadIndex : Nat)
  | enumSetPayload (ptr : Value) (typeName : String) (payloadIndex : Nat) (value : Value)
  | call (name : String) (args : List Value) (ret : Ty)
  | externCall (name : String) (args : List Value) (params : List Ty) (ret : Ty)
  | makeClosure (func : String) (captures : List Value)
  | closureCall (closure : Value) (args : List Value) (ret : Ty)
  | landingPad (catchTypes : List String) (isCatchAll : Bool)
  | setUnwindHandler (target : Block)
  | clearUnwindHandler
  | phi (ops : List (Block × Value))
  | drop (value : Value) (tyName : String)
  | condDrop (value flag : Value) (tyName : String)
  | fieldDrop (value : Value) (fieldName tyName : String)
  | rcAlloc (initialValue : Value)
  | rcInc (handle : Value)
  | rcDec (handle : Value) (tyName : Option String)
  | rcLoad (handle : Value)
  | rcStore (handle value : Value)
  | rcGetCount (handle : Value)
  | regionEnter (regionId : UInt32)
  | regionExit (regionId : UInt32) (deinitCalls : List (Value × String))
  | getTypeName (v : Value)
  | asyncFrameAlloc (frameName : String) (frameSize : Nat)
  | asyncFrameFree (framePtr : Value)
  | asyncFrameGetState (framePtr : Value)
  | asyncFrameSetState (framePtr : Value) (stateId : Nat)
  | asyncFrameLoad (framePtr : Value) (fieldOffset : Nat) (ty : Ty)
  | asyncFrameStore (framePtr : Value) (fieldOffset : Nat) (value : Value)
  | asyncCheckCancelled (taskHandle : Value)
  | asyncYield (awaitedTask : Value)
  | awaitPoint (awaitedTask : Value) (liveBorrows : List Value)
  | providerNew (name : String) (values : List (String × Value))
  | providerFieldGet (obj : Value) (provider field : String)
  | providerFieldSet (obj : Value) (provider field : String) (value : Value)

structure Inst where
  result : Value
  kind : InstKind

inductive PollResult where
  | ready | pending | error | cancelled | panicked
  deriving DecidableEq

inductive Terminator where
  | ret (v : Option Value)
  | br (b : Block)
  | condBr (cond : Value) (thenBb elseBb : Block)
  | switch (scrut : Value) (default : Block) (cases : List (Int64 × Block))
  | unreachable
  | throw (exc : Option Value)
  | panic (msg : Option Value)
  | invoke (callee : String) (args : List Value) (ret : Ty) (result : Option Value)
      (normal unwind : Block)
  | pollReturn (result : PollResult) (value : Option Value)

structure BlockData where
  name : String
  insts : List Inst
  term : Terminator

structure Func where
  name : String
  params : List Ty
  ret : Ty
  blocks : List BlockData
  sourceFile : Option String

structure ProviderField where
  name : String
  isShared : Bool
  deriving DecidableEq

structure Provider where
  name : String
  fields : List ProviderField
  deriving DecidableEq

end Arth.Ir
