import Arth.Vm.Ops

/-!
# JSON texts and values

A text is the list of its characters; a slice of the source is a suffix here.

* `jsonStringify` — what `json_stringify_jsonval` prints.
* `parseJson` — the recursive descent parser: a value and the text after it. The first argument
  bounds the depth of its calls.
* `FloatText` — how `f64` is printed, and which number a numeral is read as.
-/

namespace Arth.Json

abbrev Text := List Char

inductive JsonVal where
  | null
  | bool (b : Bool)
  | number (x : F64)
  | string (s : Text)
  | array (items : List JsonVal)
  | object (members : List (Text × JsonVal))

/-- `f64::to_string` and `str::parse::<f64>` of what is a numeral. -/
structure FloatText where
  display : F64 → Text
  value : Text → F64

def isFinite (x : F64) : Bool := (x.bits >>> 52) &&& 0x7FF != 0x7FF

def nullText : Text := ['n', 'u', 'l', 'l']

def trueText : Text := ['t', 'r', 'u', 'e']

def falseText : Text := ['f', 'a', 'l', 's', 'e']

/-- `char::is_control` -/
def isControl (c : Char) : Bool := c.toNat < 0x20 || (0x7F ≤ c.toNat && c.toNat < 0xA0)

def hexDigit (n : Nat) : Char := ("0123456789abcdef".toList.getD (n % 16) '0')

/-- `{:04x}` of a number of at most four digits. -/
def hex4 (n : Nat) : Text :=
  [hexDigit (n / 4096), hexDigit (n / 256), hexDigit (n / 16), hexDigit n]

def escapeChar (c : Char) : Text :=
  if c = '"' then ['\\', '"']
  else if c = '\\' then ['\\', '\\']
  else if c = '\n' then ['\\', 'n']
  else if c = '\r' then ['\\', 'r']
  else if c = '\t' then ['\\', 't']
  else if isControl c then '\\' :: 'u' :: hex4 c.toNat
  else [c]

def jsonEscapeString (s : Text) : Text := '"' :: s.flatMap escapeChar ++ ['"']

mutual

def jsonStringify (F : FloatText) : JsonVal → Text
  | .null => nullText
  | .bool b => if b then trueText else falseText
  | .number x => if isFinite x then F.display x else nullText
  | .string s => jsonEscapeString s
  | .array items => '[' :: stringifyItems F items ++ [']']
  | .object members => '\x7b' :: stringifyMembers F members ++ ['\x7d']

/-- The parts, joined by commas. -/
def stringifyItems (F : FloatText) : List JsonVal → Text
  | [] => []
  | [v] => jsonStringify F v
  | v :: w :: vs => jsonStringify F v ++ ',' :: stringifyItems F (w :: vs)

def stringifyMembers (F : FloatText) : List (Text × JsonVal) → Text
  | [] => []
  | [(k, v)] => jsonEscapeString k ++ ':' :: jsonStringify F v
  | (k, v) :: m :: ms =>
    jsonEscapeString k ++ ':' :: jsonStringify F v ++ ',' :: stringifyMembers F (m :: ms)

end

/-- `char::is_whitespace` -/
def isWhitespace (c : Char) : Bool :=
  (0x09 ≤ c.toNat && c.toNat ≤ 0x0D) || c.toNat == 0x20 || c.toNat == 0x85 || c.toNat == 0xA0 ||
    c.toNat == 0x1680 || (0x2000 ≤ c.toNat && c.toNat ≤ 0x200A) || c.toNat == 0x2028 ||
    c.toNat == 0x2029 || c.toNat == 0x202F || c.toNat == 0x205F || c.toNat == 0x3000

def trimStart (s : Text) : Text := s.dropWhile isWhitespace

def trim (s : Text) : Text := (trimStart (trimStart s).reverse).reverse

def hexValue (c : Char) : Option Nat :=
  if '0' ≤ c ∧ c ≤ '9' then some (c.toNat - 48)
  else if 'a' ≤ c ∧ c ≤ 'f' then some (c.toNat - 87)
  else if 'A' ≤ c ∧ c ≤ 'F' then some (c.toNat - 55)
  else none

def hexDigits (acc : Nat) : Text → Option Nat
  | [] => some acc
  | c :: s => (hexValue c).bind fun d => hexDigits (acc * 16 + d) s

/-- `u32::from_str_radix(_, 16)` of four characters; a leading plus is allowed. -/
def fromStrRadix16 : Text → Option Nat
  | [] => none
  | ['+'] => none
  | ['-'] => none
  | '+' :: s => hexDigits 0 s
  | s => hexDigits 0 s

/-- `char::from_u32` -/
def charFromU32 (n : Nat) : Option Char := if n.isValidChar then some (Char.ofNat n) else none

/-- What `\u` and four characters add to the string. -/
def unicodeEscape (hex : Text) : Text :=
  match fromStrRadix16 hex with
  | some code => (charFromU32 code).toList
  | none => []

def unescape (e : Char) : Char :=
  if e = 'n' then '\n'
  else if e = 'r' then '\r'
  else if e = 't' then '\t'
  else if e = 'b' then '\x08'
  else if e = 'f' then '\x0c'
  else e

/-- The characters after an opening quote, up to the closing one. -/
def parseChars : Text → Text → Option (Text × Text)
  | [], _ => none
  | c :: s, result =>
    if c = '"' then some (result, s)
    else if c = '\\' then
      match s with
      | [] => none
      | e :: s =>
        if e = 'u' then
          match s with
          | a :: b :: d :: f :: s => parseChars s (result ++ unicodeEscape [a, b, d, f])
          | _ => none
        else parseChars s (result ++ [unescape e])
    else parseChars s (result ++ [c])

def parseJsonString : Text → Option (Text × Text)
  | [] => none
  | c :: s => if c = '"' then parseChars s [] else none

/-! ## Numbers -/

def isDigit (c : Char) : Bool := '0' ≤ c && c ≤ '9'

/-- A numeral by its parts; the parts after a point and after an `e` may be missing. -/
structure Numeral where
  neg : Bool
  int : Text
  frac : Option Text
  exp : Option (Char × Option Char × Text)

def fracText : Option Text → Text
  | some ds => '.' :: ds
  | none => []

def expText : Option (Char × Option Char × Text) → Text
  | some (e, sign, ds) => e :: (sign.toList ++ ds)
  | none => []

def Numeral.text (n : Numeral) : Text :=
  (if n.neg then ['-'] else []) ++ (n.int ++ (fracText n.frac ++ expText n.exp))

def scanFrac (s : Text) : Option Text × Text :=
  match s with
  | [] => (none, [])
  | c :: t => if c = '.' then (some (t.takeWhile isDigit), t.dropWhile isDigit) else (none, s)

def scanSign (s : Text) : Option Char × Text :=
  match s with
  | [] => (none, [])
  | c :: t => if c = '+' ∨ c = '-' then (some c, t) else (none, s)

def scanExp (s : Text) : Option (Char × Option Char × Text) × Text :=
  match s with
  | [] => (none, [])
  | c :: t =>
    if c = 'e' ∨ c = 'E' then
      let sign := scanSign t
      (some (c, sign.1, sign.2.takeWhile isDigit), sign.2.dropWhile isDigit)
    else (none, s)

def scanNeg (s : Text) : Bool × Text :=
  match s with
  | [] => (false, [])
  | c :: t => if c = '-' then (true, t) else (false, s)

/-- The longest piece of text that looks like a numeral, and the rest. -/
def scanNumber (s : Text) : Numeral × Text :=
  let neg := scanNeg s
  let frac := scanFrac (neg.2.dropWhile isDigit)
  let exp := scanExp frac.2
  (⟨neg.1, neg.2.takeWhile isDigit, frac.1, exp.1⟩, exp.2)

/-- What `parse::<f64>` accepts: a digit before or after the point, and one in an exponent. -/
def Numeral.isFloat (n : Numeral) : Bool :=
  (n.int != [] || n.frac.any (· != [])) && n.exp.all (fun e => e.2.2 != [])

def parseJsonNumber (F : FloatText) (s : Text) : Option (JsonVal × Text) :=
  let scan := scanNumber s
  if scan.1.text = [] then none
  else if scan.1.isFloat then some (.number (F.value scan.1.text), scan.2)
  else none

mutual

def parseJson (F : FloatText) : Nat → Text → Option (JsonVal × Text)
  | 0, _ => none
  | n + 1, s =>
    match trimStart s with
    | [] => none
    | c :: r =>
      if nullText.isPrefixOf (c :: r) then some (.null, (c :: r).drop 4)
      else if trueText.isPrefixOf (c :: r) then some (.bool true, (c :: r).drop 4)
      else if falseText.isPrefixOf (c :: r) then some (.bool false, (c :: r).drop 5)
      else if c = '"' then (parseJsonString (c :: r)).map fun p => (.string p.1, p.2)
      else if c = '[' then
        match trimStart r with
        | [] => none
        | d :: t => if d = ']' then some (.array [], t) else parseItems F n (d :: t) []
      else if c = '\x7b' then
        match trimStart r with
        | [] => none
        | d :: t => if d = '\x7d' then some (.object [], t) else parseMembers F n (d :: t) []
      else if c = '-' ∨ isDigit c = true then parseJsonNumber F (c :: r)
      else none

/-- The loop of `parse_json_array`. -/
def parseItems (F : FloatText) : Nat → Text → List JsonVal → Option (JsonVal × Text)
  | 0, _, _ => none
  | n + 1, s, items =>
    match parseJson F n s with
    | none => none
    | some (v, rest) =>
      match trimStart rest with
      | [] => none
      | c :: r =>
        if c = ']' then some (.array (items ++ [v]), r)
        else if c = ',' then parseItems F n (trimStart r) (items ++ [v])
        else none

/-- The loop of `parse_json_object`. -/
def parseMembers (F : FloatText) :
    Nat → Text → List (Text × JsonVal) → Option (JsonVal × Text)
  | 0, _, _ => none
  | n + 1, s, items =>
    match parseJsonString s with
    | none => none
    | some (k, rest) =>
      match trimStart rest with
      | [] => none
      | c :: r =>
        if c = ':' then
          match parseJson F n (trimStart r) with
          | none => none
          | some (v, rest) =>
            match trimStart rest with
            | [] => none
            | c :: r =>
              if c = '\x7d' then some (.object (items ++ [(k, v)]), r)
              else if c = ',' then parseMembers F n (trimStart r) (items ++ [(k, v)])
              else none
        else none

end

/-- `parse_json`, with more depth than any text uses. -/
def parse (F : FloatText) (s : Text) : Option (JsonVal × Text) := parseJson F (2 * s.length) s

end Arth.Json
