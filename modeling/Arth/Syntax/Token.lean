import Arth.Vm.Ops

/-!
# Tokens

`lexer/tokens.rs`. Of the span of a token only its ends matter, for literals with a suffix.
-/

namespace Arth.Syntax

inductive TokenKind where
  | kwPackage | kwModule | kwPublic | kwImport | kwInternal | kwPrivate | kwExport | kwStruct
  | kwInterface | kwEnum | kwSealed | kwProvider | kwShared | kwType | kwExtends | kwStatic
  | kwFinal | kwVoid | kwAsync | kwAwait | kwThrows | kwVar | kwFn | kwUnsafe | kwExtern
  | kwImplements | kwAs | kwTrue | kwFalse | kwIf | kwElse | kwWhile | kwFor | kwSwitch
  | kwCase | kwDefault | kwTry | kwCatch | kwFinally | kwBreak | kwContinue | kwReturn
  | kwThrow | kwPanic
  | ident (name : String)
  | dot | dotDot | colon | question | questionDot | semicolon | lParen | rParen | lBrace
  | rBrace | lBracket | rBracket | comma | plus | minus | star | slash | percent | lt | gt
  | le | ge | shl | shr | arrow | ampersand | pipe | caret | plusEq | minusEq | starEq
  | slashEq | percentEq | shlEq | shrEq | andEq | orEq | xorEq | eq | eqEq | andAnd | orOr
  | bang | bangEq
  | number (n : Int64)
  | float (x : F64)
  | charLit (c : Char)
  | stringLit (s : String)
  | docLine (s : String)
  | docBlock (s : String)
  | atSign | eof
  | unknown (c : Char)
  deriving DecidableEq

structure Token where
  kind : TokenKind
  start : Nat
  stop : Nat
  deriving DecidableEq

end Arth.Syntax
