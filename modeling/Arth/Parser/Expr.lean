import Arth.Syntax.Ast
import Arth.Syntax.Token
import Mathlib

/-!
# The expression parser

`parser/expr.rs` and the type names of `parser/types.rs`. The position in the token list is
the list of the tokens left; a function that fails still moves on, so it gives back the
tokens left in either case. The functions take fuel, and `none` is a run without an end.

* `parseUnary` — prefix operators; `parsePostfix` — calls, members, indices and struct
  literals; `parsePrecedence` — binary operators and the conditional.
* The parser of blocks, which only a function literal uses, is the parameter `parseBlock`.
-/

namespace Arth.Parser

open Ast (Expr NamePath BinOp UnOp Param Block)
open Syntax (Token TokenKind)

abbrev Tokens := List Token

/-- What a function of the parser found, if anything, and the tokens left. -/
abbrev Found (α : Type) := Option α × Tokens

def kindAt (ts : Tokens) : Option TokenKind := ts.head?.map (·.kind)

/-- Skip a token of this kind if it is next. -/
def skip (k : TokenKind) (ts : Tokens) : Tokens := if kindAt ts = some k then ts.tail else ts

/-- The rest of a dotted name; a dot without a name behind it is skipped. -/
def namePathLoop : Tokens → List String × Tokens
  | ⟨.dot, _, _⟩ :: ⟨.ident s, _, _⟩ :: ts => (s :: (namePathLoop ts).1, (namePathLoop ts).2)
  | ⟨.dot, _, _⟩ :: ts => ([], ts)
  | ts => ([], ts)

def parseNamePathParts : Tokens → Option (List String) × Tokens
  | ⟨.ident s, _, _⟩ :: ts => (some (s :: (namePathLoop ts).1), (namePathLoop ts).2)
  | ts => (none, ts)

/-- `>` or `>>` ends type arguments; it may be missing. -/
def skipClose (ts : Tokens) : Tokens :=
  match kindAt ts with
  | some .gt | some .shr => ts.tail
  | _ => ts

mutual

def parseTypeName : Nat → Tokens → Option (Found NamePath)
  | 0, _ => none
  | n + 1, ts =>
    match parseNamePathParts ts with
    | (none, ts) => some (none, ts)
    | (some path, ts) =>
      if kindAt ts = some .lt then do
        let (args, ts) ← parseTypeArgs n ts
        return (some (NamePath.mk path args), ts)
      else some (some (.mk path []), ts)

def parseTypeArgs : Nat → Tokens → Option (List NamePath × Tokens)
  | 0, _ => none
  | n + 1, ts => do
    let (first, ts) ← parseTypeName n ts.tail
    let (args, ts) ← typeArgsLoop n first.toList ts
    return (args, skipClose ts)

def typeArgsLoop : Nat → List NamePath → Tokens → Option (List NamePath × Tokens)
  | 0, _, _ => none
  | n + 1, args, ts =>
    if kindAt ts = some .comma then do
      match ← parseTypeName n ts.tail with
      | (some arg, ts) => typeArgsLoop n (args ++ [arg]) ts
      | (none, ts) => return (args, ts)
    else some (args, ts)

end

/-- `s.parse::<u16>()` succeeds. -/
def parsesU16 (s : String) : Bool :=
  let digits := if s.startsWith "+" then (s.drop 1).toString else s
  digits ≠ "" && digits.all Char.isDigit && digits.toNat! < 2 ^ 16

def isNumericSuffixName (name : String) : Bool :=
  let base := name.toLower
  base ∈ ["int", "short", "long", "i8", "i16", "i32", "i64", "i128"] ||
    (base.startsWith "int" && parsesU16 (base.drop 3).toString) ||
    base ∈ ["u8", "u16", "u32", "u64", "u128"] ||
    (base.startsWith "uint" && parsesU16 (base.drop 4).toString) ||
    base ∈ ["float", "double", "f32", "f64", "float32", "float64"]

def precedence : TokenKind → Option Nat
  | .question => some 0
  | .orOr => some 1
  | .andAnd => some 2
  | .pipe => some 3
  | .caret => some 4
  | .ampersand => some 5
  | .eqEq | .bangEq => some 6
  | .lt | .le | .gt | .ge => some 7
  | .shl | .shr => some 8
  | .plus | .minus => some 9
  | .star | .slash | .percent => some 10
  | _ => none

def binOp : TokenKind → Option BinOp
  | .plus => some .add
  | .minus => some .sub
  | .star => some .mul
  | .slash => some .div
  | .percent => some .mod
  | .shl => some .shl
  | .shr => some .shr
  | .lt => some .lt
  | .le => some .le
  | .gt => some .gt
  | .ge => some .ge
  | .eqEq => some .eq
  | .bangEq => some .ne
  | .andAnd => some .and
  | .orOr => some .or
  | .ampersand => some .bitAnd
  | .pipe => some .bitOr
  | .caret => some .bitXor
  | _ => none

def canStartUnary : TokenKind → Bool
  | .number _ | .float _ | .stringLit _ | .charLit _ | .kwTrue | .kwFalse | .ident _ | .lParen
  | .lBracket | .lBrace | .kwFn | .kwAwait | .bang | .minus => true
  | _ => false

/-- `MAX_NESTING_DEPTH`. -/
def maxNestingDepth : Nat := 256

/-- The suffix of a numeric literal, which follows it without a gap. -/
def literalSuffix (t : Token) (e : Expr) : Tokens → Expr × Tokens
  | ⟨.ident name, start, stop⟩ :: ts =>
    if start = t.stop ∧ isNumericSuffixName name then (Expr.cast (NamePath.mk [name] []) e, ts)
    else (e, ⟨.ident name, start, stop⟩ :: ts)
  | ts => (e, ts)

/-- The type of a cast whose parenthesis is open: a type name, the closing parenthesis and
the start of an operand follow. -/
def castType (n : Nat) (ts : Tokens) : Option (Found NamePath) := do
  match ← parseTypeName n ts with
  | (some ty, ts') =>
    if kindAt ts' = some .rParen ∧ ((kindAt ts'.tail).any canStartUnary) then
      return (some ty, ts'.tail)
    else return (none, ts)
  | (none, _) => return (none, ts)

/-- The callee named in `.then(...)`. -/
def memberChain (first : String) (rest : List String) : Expr :=
  rest.foldl .member (.ident first)

variable (parseBlock : Nat → Nat → Tokens → Option (Found Block))

/-- The parameters of a function literal. -/
def parseParams : Nat → List Param → Tokens → Option (List Param × Tokens)
  | 0, _, _ => none
  | n + 1, params, ts =>
    if kindAt ts = some .rParen then some (params, ts.tail)
    else do
      match ← parseTypeName n ts with
      | (none, ts) => return (params, ts)
      | (some ty, ⟨.ident name, _, _⟩ :: ts) =>
        let params := params ++ [⟨name, ty⟩]
        if kindAt ts = some .comma then parseParams n params ts.tail
        else if kindAt ts = some .rParen then return (params, ts.tail)
        else parseParams n params ts
      | (some _, ts) => return (params, ts)

mutual

def parseExpr : Nat → Nat → Tokens → Option (Found Expr)
  | 0, _, _ => none
  | n + 1, depth, ts =>
    if maxNestingDepth ≤ depth then some (none, ts) else parsePrecedence n (depth + 1) 0 ts
termination_by structural n => n

def parsePrecedence : Nat → Nat → Nat → Tokens → Option (Found Expr)
  | 0, _, _, _ => none
  | n + 1, depth, minPrec, ts => do
    match ← parseUnary n depth ts with
    | (none, ts) => return (none, ts)
    | (some lhs, ts) =>
      let (lhs, ts) ← parsePostfix n depth lhs ts
      precedenceLoop n depth minPrec lhs ts
termination_by structural n => n

/-- The loop over the operators that bind at least as tight as `minPrec`. -/
def precedenceLoop : Nat → Nat → Nat → Expr → Tokens → Option (Found Expr)
  | 0, _, _, _, _ => none
  | n + 1, depth, minPrec, lhs, ts =>
    match (kindAt ts).bind precedence with
    | none => some (some lhs, ts)
    | some prec =>
      if prec < minPrec then some (some lhs, ts)
      else
        match (kindAt ts).bind binOp with
        | none => do
          match ← parsePrecedence n depth prec ts.tail with
          | (none, ts) => return (none, ts)
          | (some thenExpr, ts) =>
            match ← parsePrecedence n depth prec (skip .colon ts) with
            | (none, ts) => return (none, ts)
            | (some elseExpr, ts) =>
              precedenceLoop n depth minPrec (.ternary lhs thenExpr elseExpr) ts
        | some op => do
          match ← parsePrecedence n depth (prec + 1) ts.tail with
          | (none, ts) => return (none, ts)
          | (some rhs, ts) => precedenceLoop n depth minPrec (.binary lhs op rhs) ts
termination_by structural n => n

def parseUnary : Nat → Nat → Tokens → Option (Found Expr)
  | 0, _, _ => none
  | n + 1, depth, ts =>
    match kindAt ts with
    | some .kwAwait => do
      match ← parseUnary n depth ts.tail with
      | (none, ts) => return (none, ts)
      | (some base, ts) =>
        let (e, ts) ← parsePostfix n depth base ts
        return (some (.await e), ts)
    | some .bang => do
      let (e, ts) ← parseUnary n depth ts.tail
      return (e.map (.unary .not), ts)
    | some .minus => do
      let (e, ts) ← parseUnary n depth ts.tail
      return (e.map (.unary .neg), ts)
    | _ => parsePrimary n depth ts
termination_by structural n => n

def parsePrimary : Nat → Nat → Tokens → Option (Found Expr)
  | 0, _, _ => none
  | n + 1, depth, ts =>
    match ts with
    | [] => some (none, [])
    | t :: rest =>
      match t.kind with
      | .kwFn =>
        if kindAt rest = some .lParen then do
          let (params, ts) ← parseParams n [] rest.tail
          let (body, ts) ← parseBlock n depth ts
          return (body.map (.fnLiteral params), ts)
        else some (none, rest)
      | .number k => some (some (literalSuffix t (.int k) rest).1, (literalSuffix t (.int k) rest).2)
      | .float x =>
        some (some (literalSuffix t (.float x) rest).1, (literalSuffix t (.float x) rest).2)
      | .stringLit s => some (some (.str s), rest)
      | .charLit c => some (some (.char c), rest)
      | .kwTrue => some (some (.bool true), rest)
      | .kwFalse => some (some (.bool false), rest)
      | .ident name => some (some (.ident name), rest)
      | .lBracket => do
        let (items, ts) ← parseItems n depth [] rest
        return (some (.listLit items), ts)
      | .lBrace => do
        if ← isMap n depth rest then
          let (pairs, spread, ts) ← parsePairs n depth [] none rest
          return (some (.mapLit pairs spread), ts)
        else return (none, ts)
      | .lParen => do
        match ← castType n rest with
        | (some ty, ts) =>
          let (operand, ts) ← parseUnary n depth ts
          return (operand.map (.cast ty), ts)
        | (none, _) =>
          match ← parseExpr n depth rest with
          | (none, ts) => return (none, ts)
          | (some e, ts) => return (some e, skip .rParen ts)
      | _ => some (none, ts)
termination_by structural n => n

/-- The items of a list literal. -/
def parseItems : Nat → Nat → List Expr → Tokens → Option (List Expr × Tokens)
  | 0, _, _, _ => none
  | n + 1, depth, items, ts =>
    if kindAt ts = some .rBracket then some (items, ts.tail)
    else do
      match ← parseExpr n depth ts with
      | (none, ts) => return (items, ts)
      | (some e, ts) =>
        if kindAt ts = some .comma then parseItems n depth (items ++ [e]) ts.tail
        else return (items ++ [e], skip .rBracket ts)
termination_by structural n => n

/-- Whether a brace opens a map literal. -/
def isMap : Nat → Nat → Tokens → Option Bool
  | 0, _, _ => none
  | n + 1, depth, ts =>
    match kindAt ts with
    | some .rBrace => some true
    | some .dotDot => some true
    | _ => do
      match ← parseExpr n depth ts with
      | (none, _) => return false
      | (some _, ts) => return kindAt ts = some .colon
termination_by structural n => n

/-- The entries of a map literal. -/
def parsePairs : Nat → Nat → List (Expr × Expr) → Option Expr → Tokens →
    Option (List (Expr × Expr) × Option Expr × Tokens)
  | 0, _, _, _, _ => none
  | n + 1, depth, pairs, spread, ts =>
    if kindAt ts = some .rBrace then some (pairs, spread, ts.tail)
    else if kindAt ts = some .dotDot then do
      match ← parseExpr n depth ts.tail with
      | (none, ts) => return (pairs, spread, ts)
      | (some e, ts) =>
        if kindAt ts = some .comma then parsePairs n depth pairs (some e) ts.tail
        else return (pairs, some e, skip .rBrace ts)
    else do
      match ← parseExpr n depth ts with
      | (none, ts) => return (pairs, spread, ts)
      | (some key, ts) =>
        if kindAt ts = some .colon then
          match ← parseExpr n depth ts.tail with
          | (none, ts) => return (pairs, spread, ts)
          | (some value, ts) =>
            if kindAt ts = some .comma then
              parsePairs n depth (pairs ++ [(key, value)]) spread ts.tail
            else return (pairs ++ [(key, value)], spread, skip .rBrace ts)
        else return (pairs, spread, ts)
termination_by structural n => n

/-- The arguments of a call, after its parenthesis. -/
def parseArgs : Nat → Nat → List Expr → Tokens → Option (List Expr × Tokens)
  | 0, _, _, _ => none
  | n + 1, depth, args, ts =>
    if kindAt ts = some .rParen then some (args, ts.tail)
    else do
      let (e, ts) ← parseExpr n depth ts
      if kindAt ts = some .comma then parseArgs n depth (args ++ e.toList) ts.tail
      else return (args ++ e.toList, skip .rParen ts)
termination_by structural n => n

def parsePostfix : Nat → Nat → Expr → Tokens → Option (Expr × Tokens)
  | 0, _, _, _ => none
  | n + 1, depth, lhs, ts =>
    match kindAt ts with
    | some .lParen => do
      let (args, ts) ← parseArgs n depth [] ts.tail
      parsePostfix n depth (.call lhs args) ts
    | some .dot =>
      match kindAt ts.tail with
      | some (.ident name) =>
        if name = "then" then
          parseThen n depth lhs ts.tail.tail
        else parsePostfix n depth (.member lhs name) ts.tail.tail
      | _ => some (lhs, ts.tail)
    | some .questionDot =>
      match kindAt ts.tail with
      | some (.ident name) => parsePostfix n depth (.optionalMember lhs name) ts.tail.tail
      | _ => some (lhs, ts.tail)
    | some .lBracket => do
      match ← parseExpr n depth ts.tail with
      | (none, ts) => return (lhs, ts)
      | (some idx, ts) => parsePostfix n depth (.index lhs idx) (skip .rBracket ts)
    | some .lBrace =>
      match lhs with
      | .ident _ | .member _ _ => do
        let (fields, spread, ts) ← parseFields n depth [] none ts.tail
        parsePostfix n depth (.structLit lhs fields spread) ts
      | _ => some (lhs, ts)
    | _ => some (lhs, ts)
termination_by structural n => n

/-- The sugar `lhs.then(callee(args))` for `callee(lhs, args)`, after the name `then`; without
a parenthesis the member is dropped. -/
def parseThen : Nat → Nat → Expr → Tokens → Option (Expr × Tokens)
  | 0, _, _, _ => none
  | n + 1, depth, lhs, ts =>
    if kindAt ts = some .lParen then do
      match parseNamePathParts ts.tail with
      | (callee, ts) =>
        let (extra, ts) ←
          if kindAt ts = some .lParen then parseArgs n depth [] ts.tail else some ([], ts)
        let ts := skip .rParen ts
        match callee with
        | some (first :: rest) =>
          parsePostfix n depth (.call (memberChain first rest) (lhs :: extra)) ts
        | _ => return (lhs, ts)
    else parsePostfix n depth lhs ts
termination_by structural n => n

/-- The fields of a struct literal. At the end of the tokens the loop goes on for ever. -/
def parseFields : Nat → Nat → List (String × Expr) → Option Expr → Tokens →
    Option (List (String × Expr) × Option Expr × Tokens)
  | 0, _, _, _, _ => none
  | n + 1, depth, fields, spread, ts =>
    match kindAt ts with
    | some .rBrace => some (fields, spread, ts.tail)
    | some .dotDot => do
      match ← parseExpr n depth ts.tail with
      | (none, ts) => parseFields n depth fields spread (skip .comma ts)
      | (some e, ts) => parseFields n depth fields (some e) (skip .comma ts)
    | some (.ident name) => do
      let ts := ts.tail
      let ts :=
        if kindAt ts = some .colon ∨ kindAt ts = some (.unknown ':') then ts.tail else ts
      let (value, ts) ← parseExpr n depth ts
      let fields := fields ++ value.toList.map (name, ·)
      let ts := skip .comma ts
      if kindAt ts = some .rBrace then return (fields, spread, ts.tail)
      else parseFields n depth fields spread ts
    | _ => parseFields n depth fields spread ts.tail
termination_by structural n => n

end

end Arth.Parser
