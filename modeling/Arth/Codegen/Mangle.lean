import Arth.Lib.PrefixCode
import Arth.Ir.Syntax

/-!
# Symbol names

A function is linked under a symbol `_A`, the segments of its module path, `M` and its type if
it is a method, `F` and its name, its parameter types, `R` and its return type unless that is
void, `E`. A name stands behind its length; what is no letter and no digit in it is an
underscore. `demangle` reads a symbol back. A parser here returns what it leaves of the text
also when it fails, since its caller may go on from there.
-/

namespace Arth.Mangle

open Arth.Ir PrefixCode

/-- The characters of a name or of a symbol. -/
abbrev Text := List Char

/-! ## Names in a source text -/

def isIdentStart (c : Char) : Bool := c.isAlpha || c == '_'

def isIdentContinue (c : Char) : Bool := c.isAlphanum || c == '_'

/-- The words the lexer does not read as identifiers. -/
def keywords : List Text :=
  ["package", "module", "public", "import", "internal", "private", "export", "struct",
    "interface", "enum", "sealed", "provider", "shared", "type", "extends", "implements", "as",
    "static", "final", "void", "async", "fn", "await", "unsafe", "extern", "throws", "var", "true",
    "false", "if", "else", "while", "for", "switch", "case", "default", "try", "catch", "finally",
    "break", "continue", "return", "throw", "panic"].map String.toList

/-- What the lexer reads as one identifier. -/
structure IsIdentifier (w : Text) : Prop where
  start : ∃ c ∈ w.head?, isIdentStart c = true
  continue_ : ∀ c ∈ w, isIdentContinue c = true
  notKeyword : w ∉ keywords

instance (w : Text) : Decidable (IsIdentifier w) :=
  decidable_of_iff (w.head?.any isIdentStart = true ∧ w.all isIdentContinue = true ∧ w ∉ keywords)
    ⟨fun ⟨h₁, h₂, h₃⟩ => ⟨by simpa [Option.any_eq_true] using h₁, by simpa using h₂, h₃⟩,
      fun ⟨h₁, h₂, h₃⟩ => ⟨by simpa [Option.any_eq_true] using h₁, by simpa using h₂, h₃⟩⟩

/-- Identifiers with dots between them. -/
def IsPath (w : Text) : Prop := ∀ i ∈ w.splitOn '.', IsIdentifier i

instance (w : Text) : Decidable (IsPath w) := by
  unfold IsPath
  infer_instance

section
variable (U : Char → Bool)

/-- `char::is_alphanumeric`; `U` is its answer for the characters outside ASCII. -/
def isAlphanumeric (c : Char) : Bool := if c.toNat < 128 then c.isAlphanum else U c

def sanitize (name : Text) : Text :=
  name.map fun c => if isAlphanumeric U c then c else '_'

/-- The bytes of a text in UTF-8. -/
def byteLen (w : Text) : Nat := (w.map Char.utf8Size).sum

def encodeIdentifier (name : Text) : Text :=
  let safeName := sanitize U name
  Nat.toDigits 10 (byteLen safeName) ++ safeName

def encodeType : Ty → Text
  | .i64 => ['i']
  | .f64 => ['d']
  | .i1 => ['b']
  | .ptr => ['p']
  | .void => ['v']
  | .string => ['s']
  | .struct name => 'S' :: encodeIdentifier U name.toList
  | .enum name => 'E' :: encodeIdentifier U name.toList
  | .optional inner => 'O' :: encodeType inner

/-- The segments of a module path; the empty path has none. -/
def segments (modulePath : Text) : List Text :=
  if modulePath = [] then [] else modulePath.splitOn '.'

def encodeModule (modulePath : Text) : Text :=
  (segments modulePath).flatMap (encodeIdentifier U)

def encodeReturn (ret : Ty) : Text := if ret = .void then [] else 'R' :: encodeType U ret

def mangleFunction (modulePath functionName : Text) (params : List Ty) (ret : Ty) : Text :=
  ['_', 'A'] ++ encodeModule U modulePath ++ 'F' :: encodeIdentifier U functionName ++
    params.flatMap (encodeType U) ++ encodeReturn U ret ++ ['E']

def mangleMethod (modulePath typeName methodName : Text) (params : List Ty) (ret : Ty) : Text :=
  ['_', 'A'] ++ encodeModule U modulePath ++ 'M' :: encodeIdentifier U typeName ++
    'F' :: encodeIdentifier U methodName ++
    params.flatMap (encodeType U) ++ encodeReturn U ret ++ ['E']

end

/-- `parse_identifier`, with what is left of the text. A length that no `usize` holds is
refused, and so is one that runs over the end. -/
def parseIdentifier (cs : Text) : Option Text × Text :=
  let digits := cs.takeWhile Char.isDigit
  let rest := cs.dropWhile Char.isDigit
  if digits = [] then (none, rest)
  else
    let len := Nat.ofDigitChars 10 digits 0
    if 2 ^ 64 ≤ len then (none, rest)
    else if len ≤ rest.length then (some (rest.take len), rest.drop len)
    else (none, [])

/-- `parse_type`, with what is left of the text. -/
def parseType : Text → Option Text × Text
  | [] => (none, [])
  | 'i' :: cs => (some "Int".toList, cs)
  | 'd' :: cs => (some "Float".toList, cs)
  | 'b' :: cs => (some "Bool".toList, cs)
  | 'p' :: cs => (some "Ptr".toList, cs)
  | 'v' :: cs => (some "void".toList, cs)
  | 's' :: cs => (some "String".toList, cs)
  | 'S' :: cs => parseIdentifier cs
  | 'E' :: cs => parseIdentifier cs
  | 'O' :: cs =>
    let (inner, rest) := parseType cs
    (inner.map fun t => "Optional<".toList ++ t ++ ['>'], rest)
  | _ :: cs => (none, cs)

/-- The segments up to the first marker. Every round reads a digit, so `fuel` at the length of
the text is never used up. -/
def parseModule : Nat → Text → Option (List Text × Text)
  | 0, cs => some ([], cs)
  | _ + 1, [] => some ([], [])
  | fuel + 1, c :: cs =>
    if c = 'F' ∨ c = 'M' ∨ c = 'T' then some ([], c :: cs)
    else if c.isDigit then
      match parseIdentifier (c :: cs) with
      | (some ident, rest) => (parseModule fuel rest).map fun (is, rest) => (ident :: is, rest)
      | (none, _) => none
    else none

/-- The parameter types up to `R`, or up to what is no type. Every round reads a character. -/
def parseParams : Nat → Text → List Text × Text
  | 0, cs => ([], cs)
  | _ + 1, [] => ([], [])
  | fuel + 1, c :: cs =>
    if c = 'R' then ([], c :: cs)
    else
      match parseType (c :: cs) with
      | (some ty, rest) =>
        let (tys, rest) := parseParams fuel rest
        (ty :: tys, rest)
      | (none, rest) => ([], rest)

/-- The return type behind `R`; nothing there is void. -/
def parseReturn : Text → Text
  | 'R' :: cs => (parseType cs).1.getD "void".toList
  | _ => "void".toList

structure DemangledSymbol where
  modulePath : List Text
  typeName : Option Text
  functionName : Text
  params : List Text
  returnType : Text
  deriving DecidableEq

/-- The type of a method behind `M`; no marker is no type. -/
def parseOwner : Text → Option (Option Text × Text)
  | 'M' :: cs =>
    match parseIdentifier cs with
    | (some ident, rest) => some (some ident, rest)
    | (none, _) => none
  | cs => some (none, cs)

/-- What follows the type: `F`, the name, the parameters and the return type. -/
def parseCallable (modulePath : List Text) (typeName : Option Text) : Text →
    Option DemangledSymbol
  | 'F' :: cs =>
    match parseIdentifier cs with
    | (some functionName, rest) =>
      let (params, rest) := parseParams rest.length rest
      some ⟨modulePath, typeName, functionName, params, parseReturn rest⟩
    | (none, _) => none
  | _ => none

def demangle (symbol : Text) : Option DemangledSymbol :=
  if symbol.take 2 = ['_', 'A'] ∧ symbol.getLast? = some 'E' then do
    let chars := (symbol.drop 2).dropLast
    let (modulePath, rest) ← parseModule chars.length chars
    let (typeName, rest) ← parseOwner rest
    parseCallable modulePath typeName rest
  else none

end Arth.Mangle
