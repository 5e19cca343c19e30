import Arth.Syntax.Token
import Mathlib

/-!
# The lexer

`lexer/core.rs` and `lexer/control.rs`. The lexer reads the bytes of the text, each as the
character of its number (`b as char`); the input is the bytes left. Lexing errors, which
`lex_all` drops, are left out. `f64::from_str` is the parameter `parseF64`.

* `lexKind_ident` — an identifier token is an identifier and no keyword.
-/

namespace Arth.Syntax

open List Option

/-- The bytes of a text, each `as char`. -/
def bytesOf (s : String) : List Char :=
  s.toList.flatMap fun c => (String.utf8EncodeChar c).map fun b => Char.ofNat b.toNat

def isAsciiDigit (c : Char) : Bool := '0' ≤ c && c ≤ '9'

def isIdentStart (c : Char) : Bool := 'a' ≤ c && c ≤ 'z' || 'A' ≤ c && c ≤ 'Z' || c == '_'

def isIdentContinue (c : Char) : Bool := isIdentStart c || isAsciiDigit c

def isBlank (c : Char) : Bool := c == ' ' || c == '\n' || c == '\r' || c == '\t'

/-- The bytes after the next line break. -/
def afterLine (bs : List Char) : List Char := (bs.dropWhile (· ≠ '\n')).tail

/-- The bytes after a block comment whose start was read `depth` times more often than its
end; one that does not end leaves the last byte. -/
def afterBlock : Nat → List Char → List Char
  | depth, a :: b :: bs =>
    if a = '/' ∧ b = '*' then afterBlock (depth + 1) bs
    else if a = '*' ∧ b = '/' then if depth = 1 then bs else afterBlock (depth - 1) bs
    else afterBlock depth (b :: bs)
  | _, bs => bs

/-- `skip_ws_and_comments`; doc comments stay. -/
def skipTrivia : Nat → List Char → List Char
  | 0, bs => bs
  | n + 1, bs =>
    match bs.dropWhile isBlank with
    | '/' :: '/' :: rest =>
      if rest.head? = some '/' then '/' :: '/' :: rest else skipTrivia n (afterLine rest)
    | '/' :: '*' :: rest =>
      if rest.head? = some '*' then '/' :: '*' :: rest else skipTrivia n (afterBlock 1 rest)
    | bs => bs

/-! ## Literals -/

def digitOf (c : Char) : Nat :=
  if isAsciiDigit c then c.toNat - '0'.toNat
  else if 'a' ≤ c ∧ c ≤ 'f' then c.toNat - 'a'.toNat + 10 else c.toNat - 'A'.toNat + 10

def isHexDigit (c : Char) : Bool := isAsciiDigit c || 'a' ≤ c && c ≤ 'f' || 'A' ≤ c && c ≤ 'F'

def digitsValue (base : Nat) (ds : List Char) : Nat := ds.foldl (fun n c => base * n + digitOf c) 0

/-- `i64::from_str_radix` on digits, or 0. -/
def i64OfDigits (base : Nat) (ds : List Char) : Int64 :=
  let n := digitsValue base (ds.filter (· ≠ '_'))
  if n < 2 ^ 63 then .ofNat n else 0

/-- Hexadecimal `from_str_radix` of an escape, which takes a sign. -/
def hexCode (cs : List Char) : Option Nat :=
  let ds := if cs.head? = some '+' then cs.tail else cs
  if ds ≠ [] ∧ ds.all isHexDigit then some (digitsValue 16 ds) else none

def digitOrUnderscore (c : Char) : Bool := c == '_' || isAsciiDigit c

/-- The fraction of a number, if a digit follows the dot. -/
def fraction (bs : List Char) : List Char × List Char :=
  match bs with
  | '.' :: d :: rest =>
    if isAsciiDigit d then
      ('.' :: (d :: rest).takeWhile digitOrUnderscore, (d :: rest).dropWhile digitOrUnderscore)
    else ([], bs)
  | _ => ([], bs)

/-- The exponent of a number, if a digit follows its letter and sign. -/
def exponent (bs : List Char) : List Char × List Char :=
  match bs with
  | e :: rest =>
    if e = 'e' ∨ e = 'E' then
      let sign := rest.takeWhile (fun c => c == '+' || c == '-') |>.take 1
      let digits := rest.drop sign.length
      if digits.head?.any isAsciiDigit then
        (e :: (sign ++ digits.takeWhile digitOrUnderscore), digits.dropWhile digitOrUnderscore)
      else ([], bs)
    else ([], bs)
  | [] => ([], bs)

def lexDecimal (parseF64 : String → F64) (c : Char) (bs : List Char) : TokenKind × List Char :=
  let whole := c :: bs.takeWhile digitOrUnderscore
  let (frac, rest) := fraction (bs.dropWhile digitOrUnderscore)
  let (exp, rest) := exponent rest
  if frac ++ exp ≠ [] then
    (.float (parseF64 (.ofList ((whole ++ frac ++ exp).filter (· ≠ '_')))), rest)
  else (.number (i64OfDigits 10 whole), rest)

def lexNumber (parseF64 : String → F64) (c : Char) (bs : List Char) : TokenKind × List Char :=
  let radix (base : Nat) (isDigit : Char → Bool) (rest : List Char) : TokenKind × List Char :=
    (.number (i64OfDigits base (rest.takeWhile isDigit)), rest.dropWhile isDigit)
  match c, bs with
  | '0', 'x' :: rest => radix 16 (fun c => c == '_' || isHexDigit c) rest
  | '0', 'X' :: rest => radix 16 (fun c => c == '_' || isHexDigit c) rest
  | '0', 'b' :: rest => radix 2 (fun c => c == '_' || c == '0' || c == '1') rest
  | '0', 'B' :: rest => radix 2 (fun c => c == '_' || c == '0' || c == '1') rest
  | c, bs => lexDecimal parseF64 c bs

/-- What a backslash and the byte after it stand for. -/
inductive Escape where
  | char (c : Char)
  | badCode
  | unknown (c : Char)

/-- `char::from_u32`. -/
def charOfCode (n : Nat) : Option Char := if n.isValidChar then some (.ofNat n) else none

/-- A code of `n` hexadecimal digits, fewer at the end of the text. -/
def escapeCode (n : Nat) (bs : List Char) : Escape × List Char :=
  (((hexCode (bs.take n)).bind charOfCode).elim .badCode .char, bs.drop n)

def lexEscape (c : Char) (bs : List Char) : Escape × List Char :=
  match c with
  | '\\' => (.char '\\', bs)
  | '"' => (.char '"', bs)
  | '\'' => (.char '\'', bs)
  | 'n' => (.char '\n', bs)
  | 'r' => (.char '\r', bs)
  | 't' => (.char '\t', bs)
  | '0' => (.char '\x00', bs)
  | 'x' => escapeCode 2 bs
  | 'u' => escapeCode 4 bs
  | 'U' => escapeCode 8 bs
  | c => (.unknown c, bs)

/-- What an escape adds to a string. -/
def Escape.inString : Escape → List Char
  | .char c => [c]
  | _ => []

def Escape.inChar : Escape → Char
  | .char c => c
  | .badCode => '\x00'
  | .unknown c => c

/-- The characters of a string literal up to its end; `none` if it does not end. -/
def stringLoop : Nat → List Char → Option (List Char) × List Char
  | 0, bs => (none, bs)
  | _, [] => (none, [])
  | _, '"' :: bs => (some [], bs)
  | _, ['\\'] => (none, [])
  | n + 1, '\\' :: c :: bs =>
    let (e, bs) := lexEscape c bs
    let (s, rest) := stringLoop n bs
    (s.map (e.inString ++ ·), rest)
  | n + 1, c :: bs =>
    let (s, rest) := stringLoop n bs
    (s.map (c :: ·), rest)

/-- The characters of a triple-quoted string up to its end. -/
def rawLoop : List Char → Option (List Char) × List Char
  | '"' :: '"' :: '"' :: bs => (some [], bs)
  | c :: bs => ((rawLoop bs).1.map (c :: ·), (rawLoop bs).2)
  | [] => (none, [])

def stringToken : Option (List Char) × List Char → TokenKind × List Char
  | (some s, rest) => (.stringLit (.ofList s), rest)
  | (none, rest) => (.unknown '"', rest)

def lexString : List Char → TokenKind × List Char
  | '"' :: '"' :: bs => stringToken (rawLoop bs)
  | bs => stringToken (stringLoop bs.length bs)

def lexChar (bs : List Char) : TokenKind × List Char :=
  let (c, rest) : Char × List Char :=
    match bs with
    | '\\' :: c :: bs => ((lexEscape c bs).1.inChar, (lexEscape c bs).2)
    | ['\\'] => ('\x00', [])
    | c :: bs => (c, bs)
    | [] => ('\x00', [])
  if rest.head? = some '\'' then (.charLit c, rest.tail) else (.unknown '\'', rest)

/-- The keywords, those of `control.rs` last. -/
def keywords : List (String × TokenKind) :=
  [("package", .kwPackage), ("module", .kwModule), ("public", .kwPublic), ("import", .kwImport),
    ("internal", .kwInternal), ("private", .kwPrivate), ("export", .kwExport),
    ("struct", .kwStruct), ("interface", .kwInterface), ("enum", .kwEnum),
    ("sealed", .kwSealed), ("provider", .kwProvider), ("shared", .kwShared), ("type", .kwType),
    ("extends", .kwExtends), ("implements", .kwImplements), ("as", .kwAs),
    ("static", .kwStatic), ("final", .kwFinal), ("void", .kwVoid), ("async", .kwAsync),
    ("fn", .kwFn), ("await", .kwAwait), ("unsafe", .kwUnsafe), ("extern", .kwExtern),
    ("throws", .kwThrows), ("var", .kwVar), ("true", .kwTrue), ("false", .kwFalse),
    ("if", .kwIf), ("else", .kwElse), ("while", .kwWhile), ("for", .kwFor),
    ("switch", .kwSwitch), ("case", .kwCase), ("default", .kwDefault), ("try", .kwTry),
    ("catch", .kwCatch), ("finally", .kwFinally), ("break", .kwBreak),
    ("continue", .kwContinue), ("return", .kwReturn), ("throw", .kwThrow), ("panic", .kwPanic)]

def wordKind (s : String) : TokenKind := (keywords.lookup s).getD (.ident s)

/-- What the lexer reads as one identifier. -/
def isIdentifier (s : String) : Bool :=
  match s.toList with
  | [] => false
  | c :: cs => isIdentStart c && cs.all isIdentContinue && (keywords.lookup s).isNone

def lexWord (c : Char) (bs : List Char) : TokenKind × List Char :=
  (wordKind (.ofList (c :: bs.takeWhile isIdentContinue)), bs.dropWhile isIdentContinue)

/-- A token of one byte, or of two if the next byte is `d`. -/
def orWith (d : Char) (two one : TokenKind) (bs : List Char) : TokenKind × List Char :=
  if bs.head? = some d then (two, bs.tail) else (one, bs)

/-- The text of a doc block up to its end; one that does not end leaves the last byte. -/
def docBlockLoop : List Char → List Char × List Char
  | a :: b :: bs =>
    if a = '*' ∧ b = '/' then ([], bs)
    else (a :: (docBlockLoop (b :: bs)).1, (docBlockLoop (b :: bs)).2)
  | bs => ([], bs)

/-- After a slash; `none` is a comment, behind which the next token is sought. -/
def lexSlash : List Char → Option TokenKind × List Char
  | '=' :: bs => (some .slashEq, bs)
  | '/' :: '/' :: bs =>
    (some (.docLine (.ofList (bs.takeWhile (· ≠ '\n')))), bs.dropWhile (· ≠ '\n'))
  | '*' :: '*' :: bs => (some (.docBlock (.ofList (docBlockLoop bs).1)), (docBlockLoop bs).2)
  | '/' :: bs => (none, afterLine bs)
  | '*' :: bs => (none, afterBlock 1 bs)
  | bs => (some .slash, bs)

/-- The tokens of one, two or three bytes that begin with `c`. -/
def lexPunct (c : Char) (bs : List Char) : Option (TokenKind × List Char) :=
  match c with
  | '+' => some (orWith '=' .plusEq .plus bs)
  | '-' => some (if bs.head? = some '>' then (.arrow, bs.tail) else orWith '=' .minusEq .minus bs)
  | '*' => some (orWith '=' .starEq .star bs)
  | '<' => some (
    if bs.head? = some '=' then (.le, bs.tail)
    else if bs.head? = some '<' then orWith '=' .shlEq .shl bs.tail else (.lt, bs))
  | '>' => some (
    if bs.head? = some '=' then (.ge, bs.tail)
    else if bs.head? = some '>' then orWith '=' .shrEq .shr bs.tail else (.gt, bs))
  | '=' => some (orWith '=' .eqEq .eq bs)
  | '&' => some (
    if bs.head? = some '&' then (.andAnd, bs.tail) else orWith '=' .andEq .ampersand bs)
  | '|' => some (if bs.head? = some '|' then (.orOr, bs.tail) else orWith '=' .orEq .pipe bs)
  | '^' => some (orWith '=' .xorEq .caret bs)
  | '!' => some (orWith '=' .bangEq .bang bs)
  | '%' => some (orWith '=' .percentEq .percent bs)
  | ':' => some (.colon, bs)
  | '?' => some (orWith '.' .questionDot .question bs)
  | '(' => some (.lParen, bs)
  | ')' => some (.rParen, bs)
  | '\x7b' => some (.lBrace, bs)
  | '\x7d' => some (.rBrace, bs)
  | '[' => some (.lBracket, bs)
  | ']' => some (.rBracket, bs)
  | ',' => some (.comma, bs)
  | '@' => some (.atSign, bs)
  | '.' => some (orWith '.' .dotDot .dot bs)
  | ';' => some (.semicolon, bs)
  | _ => none

/-- `next_token` behind blanks and comments. -/
def lexKind (parseF64 : String → F64) : List Char → Option TokenKind × List Char
  | [] => (some .eof, [])
  | c :: bs =>
    if c = '/' then lexSlash bs
    else
      let (k, rest) :=
        match lexPunct c bs with
        | some r => r
        | none =>
          if isAsciiDigit c then lexNumber parseF64 c bs
          else if c = '"' then lexString bs
          else if c = '\'' then lexChar bs
          else if isIdentStart c then lexWord c bs
          else (.unknown c, bs)
      (some k, rest)

/-- The tokens of the bytes left of a text of `len` bytes, the end of the text included. -/
def lexFrom (parseF64 : String → F64) (len : Nat) : Nat → List Char → List Token
  | 0, _ => []
  | n + 1, bs =>
    let here := skipTrivia (bs.length + 1) bs
    match lexKind parseF64 here with
    | (none, rest) => lexFrom parseF64 len n rest
    | (some .eof, rest) => [⟨.eof, len - here.length, len - rest.length⟩]
    | (some k, rest) =>
      ⟨k, len - here.length, len - rest.length⟩ :: lexFrom parseF64 len n rest

/-- `lex_all`. -/
def lexAll (parseF64 : String → F64) (s : String) : List Token :=
  lexFrom parseF64 (bytesOf s).length ((bytesOf s).length + 1) (bytesOf s)

/-- Not an identifier token. -/
def TokenKind.other : TokenKind → Bool
  | .ident _ => false
  | _ => true

variable {s : String} {k : TokenKind}

theorem keywords_other (h : keywords.lookup s = some k) : k.other := by
  have hall : keywords.all (fun e => e.2.other) = true := by decide
  obtain ⟨l₁, l₂, hl, -⟩ := lookup_eq_some_iff.1 h
  exact all_eq_true.1 hall (s, k) (by rw [hl]; simp)

theorem wordKind_ident {w s : String} (h : wordKind w = .ident s) :
    w = s ∧ keywords.lookup s = none := by
  rw [wordKind] at h
  cases hl : keywords.lookup w with
  | none =>
    rw [hl] at h
    cases h
    exact ⟨rfl, hl⟩
  | some k =>
    rw [hl] at h
    obtain rfl : k = .ident s := h
    exact nomatch keywords_other hl

variable {bs rest : List Char} {c : Char} {bs : List Char}

theorem lexWord_ident (hc : isIdentStart c)
    (h : lexWord c bs = (.ident s, rest)) : isIdentifier s := by
  obtain ⟨hw, hl⟩ := wordKind_ident (congrArg Prod.fst h)
  rw [← hw] at hl ⊢
  rw [isIdentifier, String.toList_ofList]
  simp only [Bool.and_eq_true, List.all_eq_true, isNone_iff_eq_none]
  exact ⟨⟨hc, fun d hd => mem_takeWhile_imp hd⟩, hl⟩

theorem orWith_other {d : Char} {two one : TokenKind} (htwo : two.other)
    (hone : one.other) : (orWith d two one bs).1.other := by
  unfold orWith
  split
  · exact htwo
  · exact hone

theorem lexPunct_other {r : TokenKind × List Char} (h : lexPunct c bs = some r) : r.1.other := by
  unfold lexPunct at h
  split at h <;> cases h
  all_goals first
    | rfl
    | exact orWith_other rfl rfl
    | (split_ifs <;> first | rfl | exact orWith_other rfl rfl)

theorem lexDecimal_other (parseF64 : String → F64) (c : Char) (bs : List Char) :
    (lexDecimal parseF64 c bs).1.other := by
  unfold lexDecimal
  dsimp only
  split_ifs <;> rfl

theorem lexNumber_other (parseF64 : String → F64) (c : Char) (bs : List Char) :
    (lexNumber parseF64 c bs).1.other := by
  unfold lexNumber
  split <;> first | rfl | exact lexDecimal_other _ _ _

theorem stringToken_other (r : Option (List Char) × List Char) : (stringToken r).1.other := by
  obtain ⟨_ | s, rest⟩ := r <;> rfl

theorem lexString_other (bs : List Char) : (lexString bs).1.other := by
  unfold lexString
  split <;> exact stringToken_other _

theorem lexChar_other (bs : List Char) : (lexChar bs).1.other := by
  unfold lexChar
  dsimp only
  split_ifs <;> rfl

theorem lexSlash_other (h : lexSlash bs = (some k, rest)) : k.other := by
  unfold lexSlash at h
  split at h <;> first
    | (obtain rfl := some.inj (congrArg Prod.fst h); rfl)
    | exact nomatch congrArg Prod.fst h

theorem lexKind_ident {parseF64 : String → F64}
    (h : lexKind parseF64 bs = (some (.ident s), rest)) : isIdentifier s := by
  have hno : ∀ {k : TokenKind}, k.other → k ≠ .ident s := by
    rintro _ hk rfl
    cases hk
  cases bs with
  | nil => exact nomatch congrArg Prod.fst h
  | cons c bs =>
    rw [lexKind] at h
    -- only the rule for words makes an identifier
    by_cases hslash : c = '/'
    · rw [if_pos hslash] at h
      exact absurd rfl (hno (lexSlash_other h))
    · rw [if_neg hslash] at h
      obtain ⟨hk, -⟩ := Prod.mk.inj h
      have hk := some.inj hk
      cases hp : lexPunct c bs with
      | some r =>
        rw [hp] at hk
        exact absurd hk (hno (lexPunct_other hp))
      | none =>
        rw [hp] at hk
        split_ifs at hk with hdigit hquote htick hstart
        · exact absurd hk (hno (lexNumber_other _ _ _))
        · exact absurd hk (hno (lexString_other _))
        · exact absurd hk (hno (lexChar_other _))
        · exact lexWord_ident hstart (Prod.ext hk rfl)

theorem lexFrom_ident (parseF64 : String → F64) (len n : Nat) (bs : List Char) :
    ∀ tok ∈ lexFrom parseF64 len n bs, ∀ s, tok.kind = .ident s → isIdentifier s := by
  -- on the fuel; a listed token is the end of the input or comes from `lexKind`
  induction n generalizing bs with
  | zero => exact nofun
  | succ n ih =>
    rw [lexFrom]
    split
    · exact ih _
    · intro tok htok s hs
      rw [mem_singleton.1 htok] at hs
      cases hs
    · rename_i k rest _ heq
      intro tok htok s hs
      rcases mem_cons.1 htok with rfl | htok
      · obtain rfl : k = .ident s := hs
        exact lexKind_ident heq
      · exact ih _ tok htok s hs

/-! ## Reading a text piece by piece -/

theorem bytesOf_append (s t : String) : bytesOf (s ++ t) = bytesOf s ++ bytesOf t := by
  simp [bytesOf, String.toList_append]

theorem isIdentContinue_ascii (h : isIdentContinue c) : c.val ≤ 127 := by
  simp only [isIdentContinue, isIdentStart, isAsciiDigit, Bool.or_eq_true, Bool.and_eq_true,
    decide_eq_true_eq, beq_iff_eq] at h
  rcases h with ((⟨-, h⟩ | ⟨-, h⟩) | rfl) | ⟨-, h⟩
  · exact UInt32.le_trans h (by decide)
  · exact UInt32.le_trans h (by decide)
  · decide
  · exact UInt32.le_trans h (by decide)

theorem bytesOf_ascii (h : ∀ c ∈ s.toList, c.val ≤ 127) : bytesOf s = s.toList := by
  have hone : ∀ cs : List Char, (∀ c ∈ cs, c.val ≤ 127) →
      cs.flatMap (fun c => (String.utf8EncodeChar c).map fun b => Char.ofNat b.toNat) = cs := by
    intro cs
    induction cs with
    | nil => intro _; rfl
    | cons c cs ih =>
      intro h
      obtain ⟨hc, hcs⟩ := forall_mem_cons.1 h
      have hnat : c.val.toNat ≤ 127 := hc
      rw [flatMap_cons, ih hcs, String.utf8EncodeChar_eq_singleton (Char.utf8Size_eq_one_iff.2 hc)]
      -- the one byte of an ASCII character has its value
      have hbyte : c.toUInt8.toNat = c.toNat := by
        exact Nat.mod_eq_of_lt (by omega)
      simp [hbyte]
  exact hone _ h

theorem isIdentifier_cons (h : isIdentifier s) :
    ∃ c cs, s.toList = c :: cs ∧ isIdentStart c ∧ (∀ d ∈ cs, isIdentContinue d) ∧
      keywords.lookup s = none := by
  rw [isIdentifier] at h
  split at h
  · cases h
  · rename_i c cs heq
    simp only [Bool.and_eq_true, List.all_eq_true, isNone_iff_eq_none] at h
    exact ⟨c, cs, heq, h.1.1, h.1.2, h.2⟩

theorem bytesOf_name (h : isIdentifier s) : bytesOf s = s.toList := by
  obtain ⟨c, cs, heq, hc, hcs, -⟩ := isIdentifier_cons h
  refine bytesOf_ascii ?_
  rw [heq]
  refine forall_mem_cons.2 ⟨isIdentContinue_ascii ?_, fun d hd =>
    isIdentContinue_ascii (hcs d hd)⟩
  rw [isIdentContinue, hc, Bool.true_or]

theorem not_digit_of_start (h : isIdentStart c) : isAsciiDigit c = false := by
  by_contra hd
  rw [Bool.not_eq_false, isAsciiDigit, Bool.and_eq_true, decide_eq_true_eq, decide_eq_true_eq] at hd
  simp only [isIdentStart, Bool.or_eq_true, Bool.and_eq_true, decide_eq_true_eq, beq_iff_eq] at h
  rcases h with (⟨h, -⟩ | ⟨h, -⟩) | rfl
  · exact absurd (h.trans hd.2) (by decide)
  · exact absurd (h.trans hd.2) (by decide)
  · exact absurd hd.2 (by decide)

theorem lexKind_name {F : String → F64} (h : isIdentifier s) {rest : List Char}
    (hrest : ∀ c ∈ rest.head?, isIdentContinue c = false) :
    lexKind F (bytesOf s ++ rest) = (some (.ident s), rest) := by
  rw [bytesOf_name h]
  obtain ⟨c, cs, heq, hc, hcs, hl⟩ := isIdentifier_cons h
  -- the first character begins no other rule, so the word is read up to `rest`
  have hpunct : lexPunct c (cs ++ rest) = none := by
    unfold lexPunct
    split <;> first | rfl | cases hc
  have hne : ∀ d, isIdentStart d = false → c ≠ d := by
    rintro d hd rfl
    rw [hc] at hd
    cases hd
  have hdigit := not_digit_of_start hc
  have htake : (cs ++ rest).takeWhile isIdentContinue = cs := by
    rw [takeWhile_append_of_pos hcs]
    cases rest with
    | nil => simp
    | cons d rest => simp [hrest d rfl]
  have hdrop : (cs ++ rest).dropWhile isIdentContinue = rest := by
    rw [dropWhile_append_of_pos hcs]
    cases rest with
    | nil => rfl
    | cons d rest => simp [hrest d rfl]
  rw [heq, cons_append, lexKind, if_neg (hne '/' (by decide)), hpunct]
  simp only [hdigit, Bool.false_eq_true, if_false, if_neg (hne '"' (by decide)),
    if_neg (hne '\'' (by decide)), hc, if_true, lexWord, htake, hdrop]
  rw [← heq, String.ofList_toList, wordKind, hl]
  rfl

end Arth.Syntax
