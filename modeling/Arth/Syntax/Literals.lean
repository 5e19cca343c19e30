import Arth.Syntax.Comments

/-!
# What literals mean

The lexer reads bytes, a literal spells characters. The two agree on ASCII literals whose codes are
digits only and on integers that fit.

* `Decodes.body` — what a spelled string is to the lexer's loop.
* `stringLit_iff`, `rawLit_iff`, `charLit_iff`, `number_iff` — when a token of each kind means what
  it spells.
* `literals_iff` — all literals of a text.
-/

namespace Arth.Syntax

open List

variable {F : String → F64} {len : Nat} {w v u t r : List Char} {c : Char} {k : TokenKind}

/-! ## Errors -/

structure LexError where
  message : String
  start : Nat
  stop : Nat
  deriving DecidableEq

/-- The errors of an escape in front of `bs`; an unknown letter is one in a string only. -/
def escapeErrors (len : Nat) (c : Char) (bs : List Char) : List LexError :=
  let pos := len - (lexEscape c bs).2.length
  match (lexEscape c bs).1 with
  | .char _ => []
  | .badCode =>
    if c = 'x' then
      [⟨"invalid hex escape", pos - (String.ofList (bs.take 2)).utf8ByteSize, pos⟩]
    else [⟨"invalid Unicode escape", pos - escapeLength c, pos⟩]
  | .unknown c => [⟨"invalid escape: \\" ++ String.singleton c, pos - 2, pos⟩]

/-- The errors of a string literal that starts at `start`, from the bytes left on. -/
def stringErrors (len start : Nat) : Nat → List Char → List LexError
  | n + 1, c :: bs =>
    if c = '"' then []
    else if c = '\\' then
      match bs with
      | [] => [⟨"unterminated string literal", start, len⟩]
      | d :: bs => escapeErrors len d bs ++ stringErrors len start n (lexEscape d bs).2
    else stringErrors len start n bs
  | _, _ => [⟨"unterminated string literal", start, len⟩]

def charEscapeErrors (len : Nat) : List Char → List LexError
  | '\\' :: c :: bs =>
    match (lexEscape c bs).1 with
    | .unknown _ => []
    | _ => escapeErrors len c bs
  | _ => []

def charErrors (len start : Nat) (bs : List Char) : List LexError :=
  let rest := (charBody bs).2
  charEscapeErrors len bs ++
    if rest.head? = some '\'' then []
    else [⟨"unterminated char literal", start, len - rest.length⟩]

/-- The errors that `next_token` reports with the token that starts the bytes left. -/
def tokenErrors (len : Nat) (bs : List Char) : List LexError :=
  let start := len - bs.length
  match bs with
  | '"' :: '"' :: '"' :: bs =>
    if (rawLoop bs).1 = none then [⟨"unterminated triple-quoted string literal", start, len⟩]
    else []
  | '"' :: bs => stringErrors len start bs.length bs
  | '\'' :: bs => charErrors len start bs
  | _ => []

/-- What stands behind a backslash, and the character it stands for. -/
inductive Escaped : List Char → Char → Prop where
  | backslash : Escaped ['\\'] '\\'
  | quote : Escaped ['"'] '"'
  | tick : Escaped ['\''] '\''
  | newline : Escaped ['n'] '\n'
  | return : Escaped ['r'] '\r'
  | tab : Escaped ['t'] '\t'
  | zero : Escaped ['0'] '\x00'
  | code {c : Char} {ds : List Char} : c ∈ ['x', 'u', 'U'] → ds.length = escapeLength c → (∀ d ∈ ds, isHexDigit d) →
      (digitsValue 16 ds).isValidChar → Escaped (c :: ds) (.ofNat (digitsValue 16 ds))

/-- The characters between the quotes of a string literal, and those of its value. -/
inductive Decodes : List Char → List Char → Prop where
  | nil : Decodes [] []
  | char {c : Char} {w v : List Char} : c ≠ '"' → c ≠ '\\' → Decodes w v → Decodes (c :: w) (c :: v)
  | escape {e : List Char} {c : Char} {w v : List Char} : Escaped e c → Decodes w v → Decodes ('\\' :: (e ++ w)) (c :: v)

/-- The integer that digits with separators write in a base. -/
inductive Numeral : List Char → Nat → Prop where
  | decimal {d ds} : isAsciiDigit d → (∀ c ∈ ds, digitOrUnderscore c) →
      Numeral (d :: ds) (digitsValue 10 ((d :: ds).filter (· ≠ '_')))
  | hex {p ds} : p ∈ ['x', 'X'] → (∀ c ∈ ds, c = '_' ∨ isHexDigit c) → (∃ c ∈ ds, c ≠ '_') →
      Numeral ('0' :: p :: ds) (digitsValue 16 (ds.filter (· ≠ '_')))
  | binary {p ds} : p ∈ ['b', 'B'] → (∀ c ∈ ds, c ∈ ['_', '0', '1']) → (∃ c ∈ ds, c ≠ '_') →
      Numeral ('0' :: p :: ds) (digitsValue 2 (ds.filter (· ≠ '_')))

/-- What the characters of a literal denote. -/
inductive Denotes : List Char → TokenKind → Prop where
  | string {w v : List Char} : Decodes w v → Denotes ('"' :: (w ++ ['"'])) (.stringLit (.ofList v))
  | raw {w : List Char} : Raw w →
      Denotes ('"' :: '"' :: '"' :: (w ++ ['"', '"', '"'])) (.stringLit (.ofList w))
  | char {c : Char} : c ≠ '\\' → Denotes ['\'', c, '\''] (.charLit c)
  | escape {e : List Char} {c : Char} : Escaped e c → Denotes ('\'' :: '\\' :: (e ++ ['\''])) (.charLit c)
  | number {ds n} : Numeral ds n → n < 2 ^ 63 → Denotes ds (.number (.ofNat n))

def TokenKind.isLiteral : TokenKind → Bool
  | .stringLit _ | .charLit _ | .number _ => true
  | _ => false

/-- A token means what the characters of its span spell. -/
def Faithful (bs : List Char) (tok : Token) : Prop :=
  ∃ u : String, bytesOf u = slice bs tok.start tok.stop ∧ Denotes u.toList tok.kind

/-- Each literal without an error means what it spells. -/
def LiteralsMean (F : String → F64) (s : String) : Prop :=
  ∀ tok ∈ lexAll F s, tok.kind.isLiteral →
    tokenErrors (bytesOf s).length ((bytesOf s).drop tok.start) = [] → Faithful (bytesOf s) tok

def Ascii (bs : List Char) : Prop := ∀ c ∈ bs, c.toNat < 128

/-- The escapes between the quotes of a string are those the lexer takes. -/
inductive Accepted : List Char → Prop where
  | nil : Accepted []
  | char {c : Char} {w : List Char} : c ≠ '"' → c ≠ '\\' → Accepted w → Accepted (c :: w)
  | escape {c d : Char} {a w : List Char} : a.length = escapeLength c → (lexEscape c a).1 = .char d → Accepted w →
      Accepted ('\\' :: c :: (a ++ w))

/-- The bytes of a literal that spell a value which the lexer finds, or an error. -/
inductive Plain : List Char → Prop where
  | string {w : List Char} : w.head? ≠ some '"' → (Accepted w → Ascii w ∧ ∃ v, Decodes w v) →
      Plain ('"' :: (w ++ ['"']))
  | raw {w : List Char} : Ascii w → Plain ('"' :: '"' :: '"' :: (w ++ ['"', '"', '"']))
  | char {c : Char} : c ≠ '\\' → c.toNat < 128 → Plain ['\'', c, '\'']
  | badCode {c : Char} {a : List Char} : (lexEscape c a).1 matches .badCode → Plain ('\'' :: '\\' :: c :: (a ++ ['\'']))
  | escape {e : List Char} {c : Char} : Escaped e c → Plain ('\'' :: '\\' :: (e ++ ['\'']))
  | number {ds n} : Numeral ds n → n < 2 ^ 63 → Plain ds

/-- Every literal of the text is plain. -/
def LiteralsPlain (F : String → F64) (s : String) : Prop :=
  ∀ tok ∈ lexAll F s, tok.kind.isLiteral → Plain (slice (bytesOf s) tok.start tok.stop)

/-- The bytes of characters, each `as char`. -/
def utf8 (cs : List Char) : List Char :=
  cs.flatMap fun c => (String.utf8EncodeChar c).map fun b => Char.ofNat b.toNat

theorem bytesOf_eq (s : String) : bytesOf s = utf8 s.toList := rfl

theorem utf8_cons (c : Char) (cs : List Char) : utf8 (c :: cs) = utf8 [c] ++ utf8 cs := by
  simp [utf8]

theorem utf8_cons_ascii (hc : c.toNat < 128) (cs : List Char) : utf8 (c :: cs) = c :: utf8 cs := by
  have hone : c.utf8Size = 1 := Char.utf8Size_eq_one_iff.2 (Nat.le_of_lt_succ hc)
  have hbyte : Char.ofNat c.val.toUInt8.toNat = c := by
    rw [UInt32.toNat_toUInt8]
    have hlt : c.val.toNat < 2 ^ 8 := hc.trans (by decide)
    rw [Nat.mod_eq_of_lt hlt]
    exact Char.ofNat_toNat c
  rw [utf8, flatMap_cons, String.utf8EncodeChar_eq_singleton hone, map_singleton, hbyte]
  rfl

theorem utf8_append (cs ds : List Char) : utf8 (cs ++ ds) = utf8 cs ++ utf8 ds := by
  simp [utf8]

theorem utf8_ascii (h : Ascii w) : utf8 w = w := by
  induction w with
  | nil => rfl
  | cons c w ih =>
    obtain ⟨hc, hw⟩ := forall_mem_cons.1 h
    rw [utf8_cons_ascii hc, ih hw]

theorem ofNat_toNat_byte (b : UInt8) : (Char.ofNat b.toNat).toNat = b.toNat := by
  have := b.toNat_lt
  rw [Char.toNat_ofNat, if_pos (.inl (by omega))]

theorem byte_or {a b : UInt8} (h : 128 ≤ b.toNat) : 128 ≤ (Char.ofNat (a ||| b).toNat).toNat := by
  rw [ofNat_toNat_byte, UInt8.toNat_or]
  exact h.trans Nat.right_le_or

theorem utf8_high (h : 128 ≤ c.toNat) :
    ∃ b b' bs, utf8 [c] = b :: b' :: bs ∧ ∀ d ∈ utf8 [c], 128 ≤ d.toNat := by
  have hsize := c.utf8Size_le_four
  have hpos := c.utf8Size_pos
  have hone : c.utf8Size ≠ 1 := by
    intro hone
    have hle := Char.utf8Size_eq_one_iff.1 hone
    have hle : c.toNat ≤ 127 := hle
    omega
  obtain htwo | hthree | hfour : c.utf8Size = 2 ∨ c.utf8Size = 3 ∨ c.utf8Size = 4 := by omega
  · have henc := String.utf8EncodeChar_eq_cons_cons htwo
    refine ⟨_, _, [], by rw [utf8, flatMap_singleton, henc]; rfl, ?_⟩
    simp only [utf8, flatMap_singleton, henc, map_cons, map_nil, forall_mem_cons]
    exact ⟨byte_or (by decide), byte_or (by decide), fun _ hd => absurd hd not_mem_nil⟩
  · have henc := String.utf8EncodeChar_eq_cons_cons_cons hthree
    refine ⟨_, _, _, by rw [utf8, flatMap_singleton, henc]; rfl, ?_⟩
    simp only [utf8, flatMap_singleton, henc, map_cons, map_nil, forall_mem_cons]
    exact ⟨byte_or (by decide), byte_or (by decide), byte_or (by decide),
      fun _ hd => absurd hd not_mem_nil⟩
  · have henc := String.utf8EncodeChar_eq_cons_cons_cons_cons hfour
    refine ⟨_, _, _, by rw [utf8, flatMap_singleton, henc]; rfl, ?_⟩
    simp only [utf8, flatMap_singleton, henc, map_cons, map_nil, forall_mem_cons]
    exact ⟨byte_or (by decide), byte_or (by decide), byte_or (by decide), byte_or (by decide),
      fun _ hd => absurd hd not_mem_nil⟩

theorem eq_of_utf8_ascii (h : Ascii (utf8 u)) : utf8 u = u := by
  refine utf8_ascii fun c hc => ?_
  by_contra hhigh
  obtain ⟨b, b', bs, heq, hall⟩ := utf8_high (le_of_not_gt hhigh)
  have hb := hall b (by rw [heq]; exact mem_cons_self)
  have hmem : b ∈ utf8 u := by
    obtain ⟨x, y, rfl⟩ := append_of_mem hc
    rw [utf8_append, utf8_cons, heq]
    simp
  have := h b hmem
  omega

theorem length_utf8 (u : List Char) :
    u.length ≤ (utf8 u).length ∧ (u.length = (utf8 u).length → Ascii u) := by
  induction u with
  | nil => exact ⟨Nat.zero_le _, fun _ _ hd => absurd hd not_mem_nil⟩
  | cons c u ih =>
    rw [utf8_cons, length_append, length_cons]
    by_cases hc : c.toNat < 128
    · have hone : utf8 [c] = [c] := utf8_ascii fun d hd => mem_singleton.1 hd ▸ hc
      rw [hone, length_singleton]
      refine ⟨by omega, fun h => forall_mem_cons.2 ⟨hc, ih.2 (by omega)⟩⟩
    · obtain ⟨b, b', bs, heq, -⟩ := utf8_high (le_of_not_gt hc)
      rw [heq, length_cons, length_cons]
      refine ⟨by omega, fun h => ?_⟩
      omega

/-! ## Strings -/

variable {d : Char} {e ds x y : List Char}

theorem isHexDigit_ascii (h : isHexDigit d) : d.toNat < 128 := by
  simp only [isHexDigit, isAsciiDigit, Bool.or_eq_true, Bool.and_eq_true, decide_eq_true_eq] at h
  have hle : ∀ e : Char, d ≤ e → e.toNat < 128 → d.toNat < 128 := fun e hde he =>
    Nat.lt_of_le_of_lt hde he
  rcases h with (h | h) | h
  · exact hle '9' h.2 (by decide)
  · exact hle 'f' h.2 (by decide)
  · exact hle 'F' h.2 (by decide)

theorem Escaped.ascii (h : Escaped e c) : Ascii e := by
  cases h with
  | code hc _ hds _ =>
    refine forall_mem_cons.2 ⟨?_, fun d hd => isHexDigit_ascii (hds d hd)⟩
    simp only [mem_cons, not_mem_nil, or_false] at hc
    rcases hc with rfl | rfl | rfl <;> decide
  | _ => simp [Ascii]

theorem escapeCode_digits (hne : ds ≠ []) (hds : ∀ d ∈ ds, isHexDigit d)
    (hvalid : (digitsValue 16 ds).isValidChar) :
    (escapeCode ds.length ds).1 = .char (.ofNat (digitsValue 16 ds)) := by
  obtain ⟨d, ds, rfl⟩ := exists_cons_of_ne_nil hne
  have hplus : (d :: ds).head? ≠ some '+' := by
    intro h
    have hd := hds d mem_cons_self
    rw [Option.some.inj h] at hd
    cases hd
  have hcode : hexCode (d :: ds) = some (digitsValue 16 (d :: ds)) := by
    rw [hexCode]
    simp only [if_neg hplus]
    exact if_pos ⟨hne, all_eq_true.2 hds⟩
  rw [escapeCode, take_length, hcode]
  simp only [Option.bind_some, charOfCode, if_pos hvalid, Option.elim_some]

theorem Escaped.lexEscape_eq (h : Escaped e c) :
    ∃ d a, e = d :: a ∧ a.length = escapeLength d ∧ (lexEscape d a).1 = .char c := by
  cases h with
  | @code d ds hd hlen hds hvalid =>
    refine ⟨d, ds, rfl, hlen, ?_⟩
    have hne : ds ≠ [] := by
      rintro rfl
      simp only [mem_cons, not_mem_nil, or_false] at hd
      rcases hd with rfl | rfl | rfl <;> cases hlen
    have hcode := escapeCode_digits hne hds hvalid
    rw [hlen] at hcode
    simp only [mem_cons, not_mem_nil, or_false] at hd
    rcases hd with rfl | rfl | rfl <;> exact hcode
  | _ => exact ⟨_, [], rfl, rfl, rfl⟩

theorem Body.high (hy : ∀ d ∈ y, 128 ≤ d.toNat) (h : Body w x) : Body (y ++ w) (y ++ x) := by
  induction y with
  | nil => exact h
  | cons d y ih =>
    obtain ⟨hd, hy⟩ := forall_mem_cons.1 hy
    have hne : ∀ e : Char, e.toNat < 128 → d ≠ e := by
      rintro e he rfl
      omega
    exact .char (hne '"' (by decide)) (hne '\\' (by decide)) (ih hy)

theorem Decodes.body (h : Decodes w v) :
    ∃ x, Body (utf8 w) x ∧ v.length ≤ x.length ∧ (v.length = x.length → Ascii w) ∧
      (Ascii w → x = v) := by
  induction h with
  | nil => exact ⟨[], .nil, le_rfl, fun _ _ hd => absurd hd not_mem_nil, fun _ => rfl⟩
  | @char c w v hquote hslash _ ih =>
    obtain ⟨x, hx, hle, hlen, hascii⟩ := ih
    rw [utf8_cons]
    by_cases hc : c.toNat < 128
    · have hone : utf8 [c] = [c] := utf8_ascii fun d hd => mem_singleton.1 hd ▸ hc
      rw [hone]
      refine ⟨c :: x, .char hquote hslash hx, Nat.succ_le_succ hle, fun h => ?_, fun h => ?_⟩
      · exact forall_mem_cons.2 ⟨hc, hlen (Nat.succ.inj h)⟩
      · rw [hascii (forall_mem_cons.1 h).2]
    · obtain ⟨b, b', bs, heq, hall⟩ := utf8_high (le_of_not_gt hc)
      have htwo : 2 ≤ (utf8 [c]).length := by
        rw [heq]
        simp
      refine ⟨utf8 [c] ++ x, hx.high hall, ?_, fun h => ?_, fun h => ?_⟩
      · rw [length_append, length_cons]
        omega
      · rw [length_append, length_cons] at h
        omega
      · exact absurd (forall_mem_cons.1 h).1 hc
  | @escape e c w v he _ ih =>
    obtain ⟨x, hx, hle, hlen, hascii⟩ := ih
    have heascii := he.ascii
    obtain ⟨d, a, rfl, ha, hchar⟩ := he.lexEscape_eq
    have hutf8 : utf8 ('\\' :: (d :: a ++ w)) = '\\' :: d :: (a ++ utf8 w) := by
      rw [utf8_cons, utf8_append, utf8_ascii heascii]
      rfl
    have hbody := Body.escape ha hx
    rw [hchar] at hbody
    rw [hutf8]
    refine ⟨_, hbody, Nat.succ_le_succ hle, fun h => ?_, fun h => ?_⟩
    · refine forall_mem_cons.2 ⟨by decide, fun f hf => ?_⟩
      rcases mem_append.1 hf with hf | hf
      · exact heascii f hf
      · exact hlen (Nat.succ.inj h) f hf
    · have htail : Ascii w := fun f hf => h f (by simp [hf])
      rw [hascii htail]
      rfl

theorem Body.unique (hx : Body w x) (hy : Body w y) : x = y := by
  have hx := hx.stringLoop_eq (n := w.length + 1) (Nat.lt_succ_self _) []
  have hy := hy.stringLoop_eq (n := w.length + 1) (Nat.lt_succ_self _) []
  rw [hx] at hy
  exact Option.some.inj (congrArg Prod.fst hy)

theorem stringErrors_cons (start n : Nat) (c : Char) (bs : List Char) :
    stringErrors len start (n + 1) (c :: bs) = if c = '"' then [] else if c = '\\' then
        match bs with
        | [] => [⟨"unterminated string literal", start, len⟩]
        | d :: bs => escapeErrors len d bs ++ stringErrors len start n (lexEscape d bs).2
      else stringErrors len start n bs := rfl

variable {bs : List Char}

theorem escapeErrors_eq_nil : escapeErrors len c bs = [] ↔ ∃ d, (lexEscape c bs).1 = .char d := by
  unfold escapeErrors
  split
  · rename_i d heq
    exact ⟨fun _ => ⟨d, heq⟩, fun _ => rfl⟩
  · rename_i heq
    refine ⟨fun h => ?_, fun ⟨d, hd⟩ => ?_⟩
    · split_ifs at h
    · rw [heq] at hd
      cases hd
  · rename_i heq
    refine ⟨nofun, fun ⟨d, hd⟩ => ?_⟩
    rw [heq] at hd
    cases hd

theorem stringErrors_eq_nil {start n : Nat} (hbody : Body w v) (hn : w.length < n) :
    stringErrors len start n (w ++ '"' :: r) = [] ↔ Accepted w := by
  induction hbody generalizing n with
  | nil =>
    obtain ⟨n, rfl⟩ := Nat.exists_eq_succ_of_ne_zero (Nat.ne_zero_of_lt hn)
    exact ⟨fun _ => .nil, fun _ => rfl⟩
  | @char c w v hquote hslash _ ih =>
    obtain ⟨n, rfl⟩ := Nat.exists_eq_succ_of_ne_zero (Nat.ne_zero_of_lt hn)
    rw [cons_append, stringErrors_cons, if_neg hquote, if_neg hslash,
      ih (Nat.lt_of_succ_lt_succ hn)]
    refine ⟨.char hquote hslash, fun h => ?_⟩
    cases h with
    | char _ _ h => exact h
    | escape => exact absurd rfl hslash
  | @escape c a w v ha _ ih =>
    obtain ⟨n, rfl⟩ := Nat.exists_eq_succ_of_ne_zero (Nat.ne_zero_of_lt hn)
    simp only [length_cons, length_append] at hn
    simp only [cons_append, append_assoc]
    rw [stringErrors_cons, if_neg (by decide), if_pos rfl]
    simp only [append_eq_nil_iff]
    rw [escapeErrors_eq_nil, lexEscape_append ha, ih (by omega)]
    constructor
    · rintro ⟨⟨d, hd⟩, h⟩
      exact .escape ha hd h
    · intro h
      generalize hw : '\\' :: c :: (a ++ w) = y at h
      cases h with
      | nil => cases hw
      | char _ hslash => exact absurd (cons.inj hw).1.symm hslash
      | @escape _ d a' w' ha' hd h =>
        obtain ⟨-, htail⟩ := cons.inj hw
        obtain ⟨rfl, happend⟩ := cons.inj htail
        obtain ⟨rfl, rfl⟩ := append_inj happend (ha.trans ha'.symm)
        exact ⟨⟨d, hd⟩, h⟩

theorem stringLit_iff (hbody : Body w v) (hquote : w.head? ≠ some '"') :
    (Accepted w → ∃ u, utf8 u = '"' :: (w ++ ['"']) ∧ Denotes u (.stringLit (.ofList v))) ↔
      (Accepted w → Ascii w ∧ ∃ v, Decodes w v) := by
  refine forall_congr' fun _ => ⟨?_, ?_⟩
  · rintro ⟨u, hu, hdenotes⟩
    generalize hk : TokenKind.stringLit (.ofList v) = k at hdenotes
    cases hdenotes with
    | @string w' v' hdecodes =>
      obtain rfl : v = v' := String.ofList_injective (TokenKind.stringLit.inj hk)
      have hw : utf8 w' = w := by
        rw [utf8_cons, utf8_append] at hu
        exact append_cancel_right (cons.inj hu).2
      obtain ⟨x, hx, -, hlen, -⟩ := hdecodes.body
      rw [hw] at hx
      have hascii := hlen (congrArg length (hbody.unique hx))
      rw [utf8_ascii hascii] at hw
      subst hw
      exact ⟨hascii, v, hdecodes⟩
    | @raw w' hraw =>
      -- the triple quotes would begin the body with a quote
      exfalso
      have htail := (cons.inj hu).2
      cases w with
      | nil => cases htail
      | cons d w => exact hquote (congrArg some (cons.inj htail).1.symm)
    | char | escape | number => cases hk
  · rintro ⟨hascii, v', hdecodes⟩
    have hwhole : Ascii ('"' :: (w ++ ['"'])) := by
      refine forall_mem_cons.2 ⟨by decide, fun d hd => ?_⟩
      rcases mem_append.1 hd with hd | hd
      · exact hascii d hd
      · rw [mem_singleton.1 hd]
        decide
    obtain ⟨x, hx, -, -, hxv⟩ := hdecodes.body
    rw [utf8_ascii hascii] at hx
    obtain rfl : v = v' := (hbody.unique hx).trans (hxv hascii)
    exact ⟨_, utf8_ascii hwhole, .string hdecodes⟩

theorem rawLit_iff (hraw : Raw v) : (∃ u, utf8 u = '"' :: '"' :: '"' :: (v ++ ['"', '"', '"']) ∧
      Denotes u (.stringLit (.ofList v))) ↔ Ascii v := by
  constructor
  · rintro ⟨u, hu, hdenotes⟩
    generalize hk : TokenKind.stringLit (.ofList v) = k at hdenotes
    cases hdenotes with
    | @string w v' hdecodes =>
      -- a body has no quote in front
      exfalso
      rw [utf8_cons_ascii (by decide), utf8_append] at hu
      have htail := (cons.inj hu).2
      obtain ⟨x, hx, -⟩ := hdecodes.body
      cases hw : utf8 w with
      | nil =>
        rw [hw] at htail
        cases htail
      | cons d w' =>
        rw [hw] at htail hx
        exact hx.not_quote (congrArg some (cons.inj htail).1)
    | @raw w hraw =>
      obtain rfl : v = w := String.ofList_injective (TokenKind.stringLit.inj hk)
      simp only [utf8_cons_ascii (c := '"') (by decide), utf8_append] at hu
      have hv : utf8 v = v :=
        append_cancel_right (cons.inj (cons.inj (cons.inj hu).2).2).2
      exact (length_utf8 v).2 (congrArg length hv.symm)
    | char | escape | number => cases hk
  · intro hascii
    refine ⟨_, utf8_ascii fun d hd => ?_, .raw hraw⟩
    simp only [mem_cons, mem_append, not_mem_nil, or_false] at hd
    rcases hd with rfl | rfl | rfl | hd | rfl | rfl | rfl
    iterate 3 decide
    · exact hascii d hd
    iterate 3 decide

theorem lexChar_charLit (h : lexChar (t ++ r) = (.charLit c, r)) : (c ≠ '\\' ∧ t = [c, '\'']) ∨
      ∃ d a, a.length = escapeLength d ∧ t = '\\' :: d :: (a ++ ['\'']) ∧
        c = (lexEscape d a).1.inChar := by
  rw [lexChar_eq] at h
  by_cases hquote : (charBody (t ++ r)).2.head? = some '\''
  swap
  · rw [if_neg hquote] at h
    cases h
  rw [if_pos hquote] at h
  obtain ⟨hc, hrest⟩ := Prod.mk.inj h
  cases hc
  obtain ⟨x, hx⟩ := head?_eq_some_iff.1 hquote
  rw [hx, tail_cons] at hrest
  subst hrest
  generalize hbs : t ++ x = bs at hx ⊢
  unfold charBody at hx ⊢
  split at hx
  · rename_i d bs
    rw [lexEscape_rest] at hx
    have hlen : escapeLength d ≤ bs.length := by
      have hpos := congrArg length hx
      rw [length_drop, length_cons] at hpos
      omega
    have hsplit : bs = bs.take (escapeLength d) ++ '\'' :: x := by
      rw [← hx, take_append_drop]
    have ha : (bs.take (escapeLength d)).length = escapeLength d := by
      rw [length_take]
      omega
    refine .inr ⟨d, bs.take (escapeLength d), ha, ?_, ?_⟩
    · refine (append_left_inj x).1 ?_
      rw [hbs]
      nth_rewrite 1 [hsplit]
      simp
    · have hescape := congrArg Prod.fst (lexEscape_append ha ('\'' :: x))
      rw [← hsplit] at hescape
      rw [hescape]
  · cases hx
  · rename_i d bs hno hnil
    subst hx
    refine .inl ⟨?_, (append_left_inj x).1 (hbs.trans rfl)⟩
    rintro rfl
    exact hno _ _ rfl rfl
  · cases hx

theorem charErrors_char {start : Nat} (hslash : c ≠ '\\') :
    charErrors len start (c :: '\'' :: r) = [] := by
  have hescape : charEscapeErrors len (c :: '\'' :: r) = [] := by
    unfold charEscapeErrors
    split
    · rename_i heq
      exact absurd (cons.inj heq).1 hslash
    · rfl
  rw [charErrors, hescape, charBody_char hslash]
  rfl

variable {a : List Char} {base : Nat}

theorem charErrors_escape {start : Nat} (ha : a.length = escapeLength c) :
    charErrors len start ('\\' :: c :: (a ++ '\'' :: r)) = [] ↔
      ¬ (lexEscape c a).1 matches .badCode := by
  have hbody : (charBody ('\\' :: c :: (a ++ '\'' :: r))).2 = '\'' :: r := by
    rw [charBody, lexEscape_append ha]
  rw [charErrors, hbody]
  simp only [head?_cons, if_true, append_nil]
  rw [charEscapeErrors, lexEscape_append ha]
  have herrors := @escapeErrors_eq_nil len c (a ++ '\'' :: r)
  rw [lexEscape_append ha] at herrors
  cases hescape : (lexEscape c a).1 with
  | char d =>
    rw [herrors, hescape]
    exact ⟨fun _ => Bool.false_ne_true, fun _ => ⟨d, rfl⟩⟩
  | badCode =>
    rw [herrors, hescape]
    refine ⟨?_, absurd rfl⟩
    rintro ⟨_, h⟩
    cases h
  | unknown d => exact ⟨fun _ => Bool.false_ne_true, fun _ => rfl⟩

theorem charLit_iff (hslash : c ≠ '\\') :
    (∃ u, utf8 u = ['\'', c, '\''] ∧ Denotes u (.charLit c)) ↔ c.toNat < 128 := by
  constructor
  · rintro ⟨u, hu, hdenotes⟩
    generalize hk : TokenKind.charLit c = k at hdenotes
    cases hdenotes with
    | char _ =>
      cases hk
      rw [utf8_cons_ascii (by decide), utf8_cons] at hu
      have hone : utf8 [c] = [c] := (append_left_inj ['\'']).1 (cons.inj hu).2
      exact (length_utf8 [c]).2 (congrArg length hone.symm) c mem_cons_self
    | escape _ =>
      exact absurd (cons.inj (cons.inj hu).2).1.symm hslash
    | string | raw | number => cases hk
  · intro hc
    refine ⟨_, utf8_ascii fun d hd => ?_, .char hslash⟩
    simp only [mem_cons, not_mem_nil, or_false] at hd
    rcases hd with rfl | rfl | rfl
    · decide
    · exact hc
    · decide

theorem charEscape_iff : (∃ u, utf8 u = '\'' :: '\\' :: d :: (a ++ ['\'']) ∧
      Denotes u (.charLit (lexEscape d a).1.inChar)) ↔ ∃ c, Escaped (d :: a) c := by
  constructor
  · rintro ⟨u, hu, hdenotes⟩
    generalize hk : TokenKind.charLit _ = k at hdenotes
    cases hdenotes with
    | @char c hslash =>
      -- no other character begins with the byte of a backslash
      exfalso
      rw [utf8_cons_ascii (by decide), utf8_cons] at hu
      have htail := (cons.inj hu).2
      by_cases hc : c.toNat < 128
      · rw [utf8_cons_ascii hc] at htail
        exact hslash (cons.inj htail).1
      · obtain ⟨b, b', bs, heq, hall⟩ := utf8_high (le_of_not_gt hc)
        have hb := hall b (by rw [heq]; exact mem_cons_self)
        rw [heq] at htail
        obtain rfl := (cons.inj htail).1
        revert hb
        decide
    | @escape e c he =>
      simp only [utf8_cons_ascii (c := '\'') (by decide), utf8_cons_ascii (c := '\\') (by decide),
        utf8_append, utf8_ascii he.ascii] at hu
      have htail : e ++ ['\''] = (d :: a) ++ ['\''] := (cons.inj (cons.inj hu).2).2
      obtain rfl := append_cancel_right htail
      exact ⟨c, he⟩
    | string | raw | number => cases hk
  · rintro ⟨c, he⟩
    obtain ⟨d', a', heq, -, hchar⟩ := he.lexEscape_eq
    cases heq
    have hascii : Ascii ('\'' :: '\\' :: (d :: a ++ ['\''])) := by
      intro b hb
      simp only [mem_cons, mem_append, not_mem_nil, or_false] at hb
      rcases hb with rfl | rfl | hb | rfl
      · decide
      · decide
      · exact he.ascii b (mem_cons.2 hb)
      · decide
    rw [hchar]
    exact ⟨_, utf8_ascii hascii, .escape he⟩

/-! ## Numbers -/

theorem i64OfDigits_eq (h : digitsValue base (ds.filter (· ≠ '_')) < 2 ^ 63) :
    i64OfDigits base ds = .ofNat (digitsValue base (ds.filter (· ≠ '_'))) := if_pos h

variable {n : Int64}

theorem radixNumber_number {q : Char → Bool} {p : Char}
    (hp : (t ++ r).head? = some p) (h : radixNumber base q (t ++ r).tail = (.number n, r)) :
    ∃ ds, t = p :: ds ∧ (∀ d ∈ ds, q d) ∧ n = i64OfDigits base ds := by
  obtain ⟨x, hx⟩ := head?_eq_some_iff.1 hp
  rw [hx, tail_cons] at h
  obtain ⟨hn, hrest⟩ := Prod.mk.inj h
  refine ⟨x.takeWhile q, ?_, fun d hd => mem_takeWhile_imp hd, (TokenKind.number.inj hn).symm⟩
  refine (append_left_inj r).1 ?_
  nth_rewrite 2 [← hrest]
  rw [hx, cons_append, takeWhile_append_dropWhile]

theorem lexDecimal_number (h : lexDecimal F c (t ++ r) = (.number n, r)) :
    (∀ d ∈ t, digitOrUnderscore d) ∧ n = i64OfDigits 10 (c :: t) := by
  have hfraction := fraction_marked.split ((t ++ r).dropWhile digitOrUnderscore)
  unfold lexDecimal at h
  generalize fraction ((t ++ r).dropWhile digitOrUnderscore) = f at h hfraction
  have hexponent := exponent_marked.split f.2
  dsimp only at h
  split_ifs at h with hfloat
  · cases (Prod.mk.inj h).1
  · obtain ⟨hn, hrest⟩ := Prod.mk.inj h
    obtain ⟨hf, he⟩ := append_eq_nil_iff.1 (not_not.1 hfloat)
    rw [he, nil_append, hrest] at hexponent
    rw [hf, nil_append, ← hexponent] at hfraction
    have htake := Munch.takeWhile_eq hfraction.symm
    rw [htake] at hn
    exact ⟨(Munch.dropWhile_eq_iff.1 hfraction.symm).1, (TokenKind.number.inj hn).symm⟩

theorem lexNumber_number (h : lexNumber F c (t ++ r) = (.number n, r)) :
    (∃ p ds, p ∈ ['x', 'X'] ∧ c = '0' ∧ t = p :: ds ∧ (∀ d ∈ ds, d = '_' ∨ isHexDigit d) ∧
      n = i64OfDigits 16 ds) ∨
    (∃ p ds, p ∈ ['b', 'B'] ∧ c = '0' ∧ t = p :: ds ∧ (∀ d ∈ ds, d ∈ ['_', '0', '1']) ∧
      n = i64OfDigits 2 ds) ∨ (∀ d ∈ t, digitOrUnderscore d) ∧ n = i64OfDigits 10 (c :: t) := by
  rw [lexNumber_eq] at h
  split_ifs at h with hc hx hX hb hB
  · obtain ⟨ds, rfl, hds, rfl⟩ := radixNumber_number hx h
    exact .inl ⟨'x', ds, by simp, hc, rfl, fun d hd => by simpa using hds d hd, rfl⟩
  · obtain ⟨ds, rfl, hds, rfl⟩ := radixNumber_number hX h
    exact .inl ⟨'X', ds, by simp, hc, rfl, fun d hd => by simpa using hds d hd, rfl⟩
  · obtain ⟨ds, rfl, hds, rfl⟩ := radixNumber_number hb h
    exact .inr (.inl ⟨'b', ds, by simp, hc, rfl, fun d hd => by simpa [or_assoc] using hds d hd, rfl⟩)
  · obtain ⟨ds, rfl, hds, rfl⟩ := radixNumber_number hB h
    exact .inr (.inl ⟨'B', ds, by simp, hc, rfl, fun d hd => by simpa [or_assoc] using hds d hd, rfl⟩)
  · exact .inr (.inr (lexDecimal_number h))
  · exact .inr (.inr (lexDecimal_number h))

theorem digitOrUnderscore_hex (h : digitOrUnderscore d) : d = '_' ∨ isHexDigit d := by
  simp only [digitOrUnderscore, Bool.or_eq_true, beq_iff_eq] at h
  exact h.imp_right fun h => by rw [isHexDigit, h, Bool.true_or, Bool.true_or]

theorem hexOrUnderscore_ascii (h : d = '_' ∨ isHexDigit d) : d.toNat < 128 := by
  rcases h with rfl | h
  · decide
  · exact isHexDigit_ascii h

theorem number_iff (hc : isAsciiDigit c) (h : lexNumber F c (t ++ r) = (.number n, r)) :
    (∃ u, utf8 u = c :: t ∧ Denotes u (.number n)) ↔ ∃ m < 2 ^ 63, Numeral (c :: t) m := by
  have hforms := lexNumber_number h
  have hascii : Ascii (c :: t) := by
    have hfirst : c.toNat < 128 := hexOrUnderscore_ascii (digitOrUnderscore_hex
      (digitOrUnderscore_of_digit hc))
    refine forall_mem_cons.2 ⟨hfirst, ?_⟩
    rcases hforms with ⟨p, ds, hp, -, rfl, hds, -⟩ | ⟨p, ds, hp, -, rfl, hds, -⟩ | ⟨hds, -⟩
    · simp only [mem_cons, not_mem_nil, or_false] at hp
      refine forall_mem_cons.2 ⟨?_, fun d hd => hexOrUnderscore_ascii (hds d hd)⟩
      rcases hp with rfl | rfl <;> decide
    · simp only [mem_cons, not_mem_nil, or_false] at hp hds
      refine forall_mem_cons.2 ⟨?_, fun d hd => ?_⟩
      · rcases hp with rfl | rfl <;> decide
      · rcases hds d hd with rfl | rfl | rfl <;> decide
    · exact fun d hd => hexOrUnderscore_ascii (digitOrUnderscore_hex (hds d hd))
  constructor
  · rintro ⟨u, hu, hdenotes⟩
    obtain rfl : u = c :: t := by
      rw [← hu]
      exact (eq_of_utf8_ascii (hu ▸ hascii)).symm
    generalize hk : TokenKind.number n = k at hdenotes
    cases hdenotes with
    | number hnumeral hfits => exact ⟨_, hfits, hnumeral⟩
    | string | raw | char | escape => cases hk
  · rintro ⟨m, hfits, hnumeral⟩
    refine ⟨_, utf8_ascii hascii, ?_⟩
    suffices hn : n = .ofNat m by
      rw [hn]
      exact .number hnumeral hfits
    -- the letter of the base is no digit, and tells the bases apart
    have hhex : ∀ p ∈ ['x', 'X'], digitOrUnderscore p = false ∧ p ∉ ['b', 'B'] := by simp; decide
    have hbin : ∀ p ∈ ['b', 'B'], digitOrUnderscore p = false := by simp; decide
    generalize hy : c :: t = y at hnumeral
    rcases hforms with ⟨p, ds, hp, -, rfl, -, rfl⟩ | ⟨p, ds, hp, -, rfl, -, rfl⟩ | ⟨hds, rfl⟩
    · cases hnumeral with
      | decimal _ hds =>
        cases hy
        have hdigit := hds p mem_cons_self
        rw [(hhex p hp).1] at hdigit
        cases hdigit
      | hex _ _ _ =>
        cases hy
        exact i64OfDigits_eq hfits
      | binary hp' _ _ =>
        cases hy
        exact absurd hp' (hhex p hp).2
    · cases hnumeral with
      | decimal _ hds =>
        cases hy
        have hdigit := hds p mem_cons_self
        rw [hbin p hp] at hdigit
        cases hdigit
      | hex hp' _ _ =>
        cases hy
        exact absurd hp (hhex p hp').2
      | binary _ _ _ =>
        cases hy
        exact i64OfDigits_eq hfits
    · cases hnumeral with
      | decimal _ _ =>
        cases hy
        exact i64OfDigits_eq hfits
      | hex hp _ _ =>
        cases hy
        have hdigit := hds _ mem_cons_self
        rw [(hhex _ hp).1] at hdigit
        cases hdigit
      | binary hp _ _ =>
        cases hy
        have hdigit := hds _ mem_cons_self
        rw [hbin _ hp] at hdigit
        cases hdigit

/-! ## Texts -/

theorem Numeral.digit {n : Nat} (h : Numeral w n) : ∃ c ∈ w.head?, isAsciiDigit c := by
  cases h with
  | decimal hd _ => exact ⟨_, rfl, hd⟩
  | hex | binary => exact ⟨'0', rfl, by decide⟩

theorem plain_string (hquote : w.head? ≠ some '"') :
    Plain ('"' :: (w ++ ['"'])) ↔ (Accepted w → Ascii w ∧ ∃ v, Decodes w v) := by
  refine ⟨fun h => ?_, .string hquote⟩
  generalize hy : '"' :: (w ++ ['"']) = y at h
  cases h with
  | @string w' _ h =>
    obtain rfl := append_cancel_right (cons.inj hy).2
    exact h
  | raw _ =>
    have htail := (cons.inj hy).2
    cases w with
    | nil => cases htail
    | cons d w => exact absurd (congrArg some (cons.inj htail).1) hquote
  | char | badCode | escape => cases hy
  | number hn _ =>
    obtain ⟨c, hc, hdigit⟩ := hn.digit
    rw [← hy] at hc
    cases hc
    cases hdigit

theorem plain_raw : Plain ('"' :: '"' :: '"' :: (w ++ ['"', '"', '"'])) ↔ Ascii w := by
  refine ⟨fun h => ?_, .raw⟩
  generalize hy : '"' :: '"' :: '"' :: (w ++ ['"', '"', '"']) = y at h
  cases h with
  | @string w' hquote h =>
    have htail := (cons.inj hy).2
    cases w' with
    | nil => cases htail
    | cons d w' => exact absurd (congrArg some (cons.inj htail).1.symm) hquote
  | @raw w' h =>
    obtain rfl : w = w' := by simpa using hy
    exact h
  | char | badCode | escape => cases hy
  | number hn _ =>
    obtain ⟨c, hc, hdigit⟩ := hn.digit
    rw [← hy] at hc
    cases hc
    cases hdigit

theorem plain_char (hslash : c ≠ '\\') : Plain ['\'', c, '\''] ↔ c.toNat < 128 := by
  refine ⟨fun h => ?_, .char hslash⟩
  generalize hy : ['\'', c, '\''] = y at h
  cases h with
  | string | raw => cases hy
  | char _ hc =>
    cases hy
    exact hc
  | badCode | escape => exact absurd (cons.inj (cons.inj hy).2).1 hslash
  | number hn _ =>
    obtain ⟨c, hc, hdigit⟩ := hn.digit
    rw [← hy] at hc
    cases hc
    cases hdigit

theorem plain_escape : Plain ('\'' :: '\\' :: c :: (a ++ ['\''])) ↔
      (lexEscape c a).1 matches .badCode ∨ ∃ d, Escaped (c :: a) d := by
  refine ⟨fun h => ?_, fun h => h.elim .badCode fun ⟨d, hd⟩ => .escape hd⟩
  generalize hy : '\'' :: '\\' :: c :: (a ++ ['\'']) = y at h
  cases h with
  | string | raw => cases hy
  | char hslash _ => exact absurd (cons.inj (cons.inj hy).2).1.symm hslash
  | @badCode c' a' h =>
    have htail := (cons.inj (cons.inj hy).2).2
    obtain ⟨rfl, happend⟩ := cons.inj htail
    obtain rfl := append_cancel_right happend
    exact .inl h
  | @escape e d h =>
    have htail : (c :: a) ++ ['\''] = e ++ ['\''] := (cons.inj (cons.inj hy).2).2
    obtain rfl := append_cancel_right htail
    exact .inr ⟨d, h⟩
  | number hn _ =>
    obtain ⟨c, hc, hdigit⟩ := hn.digit
    rw [← hy] at hc
    cases hc
    cases hdigit

theorem plain_number (hc : isAsciiDigit c) : Plain (c :: t) ↔ ∃ m < 2 ^ 63, Numeral (c :: t) m := by
  refine ⟨fun h => ?_, fun ⟨m, hm, h⟩ => .number h hm⟩
  generalize hy : c :: t = y at h
  have hne : ∀ d, isAsciiDigit d = false → c ≠ d := by
    rintro d hd rfl
    rw [hc] at hd
    cases hd
  cases h with
  | string | raw => exact absurd (cons.inj hy).1 (hne '"' (by decide))
  | char | badCode | escape => exact absurd (cons.inj hy).1 (hne '\'' (by decide))
  | number hn hfits => exact ⟨_, hfits, hn⟩

theorem lexKind_literal (h : lexKind F (c :: t ++ r) = (some k, r)) (hk : k.isLiteral) :
    isAsciiDigit c ∧ lexNumber F c (t ++ r) = (k, r) ∨ c = '"' ∧ lexString (t ++ r) = (k, r) ∨
      c = '\'' ∧ lexChar (t ++ r) = (k, r) := by
  have hfixed : ∀ {k : TokenKind}, k.isFixed → ¬ k.isLiteral := by
    intro k hfixed hk
    unfold TokenKind.isLiteral at hk
    split at hk
    iterate 3 cases hfixed
    cases hk
  rw [cons_append, lexKind] at h
  by_cases hslash : c = '/'
  · rw [if_pos hslash] at h
    have hkind := congrArg Prod.fst h
    unfold lexSlash at hkind
    split at hkind <;> first
      | (obtain rfl := Option.some.inj hkind; cases hk)
      | cases hkind
  · rw [if_neg hslash] at h
    obtain ⟨hkind, hrest⟩ := Prod.mk.inj h
    have hkind := Option.some.inj hkind
    cases hp : lexPunct c (t ++ r) with
    | some p =>
      rw [hp] at hkind
      exact absurd (hkind ▸ hk) (hfixed (lexPunct_fixed hp))
    | none =>
      rw [hp] at hkind hrest
      split_ifs at hkind hrest with hdigit hquote htick hstart
      · exact .inl ⟨hdigit, Prod.ext hkind hrest⟩
      · exact .inr (.inl ⟨hquote, Prod.ext hkind hrest⟩)
      · exact .inr (.inr ⟨htick, Prod.ext hkind hrest⟩)
      · rcases wordKind_fixed (.ofList (c :: (t ++ r).takeWhile isIdentContinue)) with hword | hword
        · rw [show wordKind _ = k from hkind] at hword
          exact absurd hk (hfixed hword)
        · rw [show wordKind _ = k from hkind] at hword
          rw [hword] at hk
          cases hk
      · rw [← hkind] at hk
        cases hk

theorem lexNumber_kind (F : String → F64) (c : Char) (bs : List Char) :
    (∃ n, (lexNumber F c bs).1 = .number n) ∨ ∃ x, (lexNumber F c bs).1 = .float x := by
  rw [lexNumber_eq]
  unfold radixNumber lexDecimal
  dsimp only
  split_ifs <;> first
    | exact .inl ⟨_, rfl⟩
    | exact .inr ⟨_, rfl⟩

theorem tokenErrors_other (hquote : c ≠ '"') (htick : c ≠ '\'') :
    tokenErrors len (c :: bs) = [] := by
  unfold tokenErrors
  split
  · rename_i heq
    exact absurd (cons.inj heq).1 hquote
  · rename_i heq
    exact absurd (cons.inj heq).1 hquote
  · rename_i heq
    exact absurd (cons.inj heq).1 htick
  · rfl

theorem tokenErrors_string (h : ¬ ['"', '"'] <+: bs) : tokenErrors len ('"' :: bs) =
      stringErrors len (len - ('"' :: bs).length) bs.length bs := by
  unfold tokenErrors
  split
  · rename_i bs heq
    obtain rfl := (cons.inj heq).2
    exact absurd ⟨bs, rfl⟩ h
  · rename_i heq
    obtain rfl := (cons.inj heq).2
    rfl
  · rename_i heq
    cases heq
  · rename_i hno _
    exact absurd rfl (hno bs)

theorem literal_iff (hne : t ≠ []) (hlex : lexKind F (t ++ r) = (some k, r)) (hk : k.isLiteral) :
    (tokenErrors len (t ++ r) = [] → ∃ u, utf8 u = t ∧ Denotes u k) ↔ Plain t := by
  obtain ⟨c, t, rfl⟩ := exists_cons_of_ne_nil hne
  rcases lexKind_literal hlex hk with ⟨hdigit, h⟩ | ⟨rfl, h⟩ | ⟨rfl, h⟩
  · have hne : ∀ d, isAsciiDigit d = false → c ≠ d := by
      rintro d hd rfl
      rw [hdigit] at hd
      cases hd
    have hnone := @tokenErrors_other len c (t ++ r) (hne '"' (by decide)) (hne '\'' (by decide))
    obtain ⟨n, rfl⟩ : ∃ n, k = .number n := by
      have hkind := lexNumber_kind F c (t ++ r)
      rw [h] at hkind
      rcases hkind with hn | ⟨x, hx⟩
      · exact hn
      · rw [show k = .float x from hx] at hk
        cases hk
    rw [plain_number hdigit, ← number_iff hdigit h]
    exact ⟨fun hmeans => hmeans hnone, fun hmeans _ => hmeans⟩
  · have hkind : k ≠ .unknown '"' := by
      rintro rfl
      cases hk
    rcases lexString_forms h hkind with ⟨v, hv, rfl, rfl⟩ | ⟨w, v, hw, rfl, hplain, rfl⟩
    · have hloop : rawLoop (v ++ '"' :: '"' :: '"' :: r) = (some v, r) := rawLoop_iff.2 ⟨hv, rfl⟩
      have hnone : tokenErrors len ('"' :: '"' :: '"' :: (v ++ ['"', '"', '"']) ++ r) = [] := by
        simp only [cons_append, append_assoc, nil_append]
        rw [tokenErrors, hloop]
        rfl
      rw [plain_raw, ← rawLit_iff hv]
      exact ⟨fun hmeans => hmeans hnone, fun hmeans _ => hmeans⟩
    · have herrors : tokenErrors len ('"' :: (w ++ ['"']) ++ r) = [] ↔ Accepted w := by
        rw [cons_append, tokenErrors_string hplain, append_assoc]
        exact stringErrors_eq_nil hw (by simp)
      rw [plain_string hw.not_quote, ← stringLit_iff hw hw.not_quote, herrors]
  · obtain ⟨c, rfl⟩ : ∃ c, k = .charLit c := by
      rw [lexChar_eq] at h
      split_ifs at h
      · exact ⟨_, (Prod.mk.inj h).1.symm⟩
      · rw [← (Prod.mk.inj h).1] at hk
        cases hk
    rcases lexChar_charLit h with ⟨hslash, rfl⟩ | ⟨d, a, ha, rfl, rfl⟩
    · have hnone : tokenErrors len (['\'', c, '\''] ++ r) = [] := charErrors_char hslash
      rw [plain_char hslash, ← charLit_iff hslash]
      exact ⟨fun hmeans => hmeans hnone, fun hmeans _ => hmeans⟩
    · have hnone : tokenErrors len ('\'' :: '\\' :: d :: (a ++ ['\'']) ++ r) = [] ↔
          ¬ (lexEscape d a).1 matches .badCode := by
        simp only [cons_append, append_assoc, nil_append]
        exact charErrors_escape ha
      rw [plain_escape, ← charEscape_iff, hnone]
      exact or_iff_not_imp_left.symm

theorem Lexes.mem {bs rest : List Char} {toks : List Token} {pos : Nat}
    (h : Lexes F bs.length rest toks) (hpos : pos ≤ bs.length) (hrest : bs.drop pos = rest) :
    ∀ tok ∈ toks, tok.kind = .eof ∨ ∃ text rest, text ≠ [] ∧
      lexKind F (text ++ rest) = (some tok.kind, rest) ∧
      slice bs tok.start tok.stop = text ∧ bs.drop tok.start = text ++ rest := by
  induction h generalizing pos with
  | eof =>
    intro tok htok
    rw [mem_singleton.1 htok]
    exact .inl rfl
  | @token bytes text rest kind toks hskip hkind hne _ ih =>
    obtain ⟨g, hg, -, -⟩ := skip_split bytes
    rw [hskip] at hg
    obtain ⟨hstart, hstop, -, hdrop, hslice, hafter, hle⟩ := offsets hpos (hrest.trans hg)
    rw [hstart, hstop]
    refine forall_mem_cons.2 ⟨.inr ⟨text, rest, hne, hkind, hslice, hdrop⟩, ih hle hafter⟩

theorem literals_iff (F : String → F64) (s : String) : LiteralsMean F s ↔ LiteralsPlain F s := by
  have hmem := (lexAll_lexes F s).mem (Nat.zero_le _) List.drop_zero
  refine forall₂_congr fun tok htok => forall_congr' fun hliteral => ?_
  obtain heof | ⟨text, rest, hne, hkind, hslice, hdrop⟩ := hmem tok htok
  · rw [heof] at hliteral
    cases hliteral
  · rw [hslice, hdrop, ← literal_iff hne hkind hliteral]
    refine forall_congr' fun _ => ?_
    rw [Faithful, hslice]
    constructor
    · rintro ⟨u, hu, hdenotes⟩
      exact ⟨u.toList, hu, hdenotes⟩
    · rintro ⟨u, hu, hdenotes⟩
      refine ⟨.ofList u, ?_, ?_⟩
      · rw [bytesOf_eq, String.toList_ofList, hu]
      · rwa [String.toList_ofList]

theorem accented_string : ¬ LiteralsMean (fun _ => ⟨0⟩) "\"é\"" := by
  intro h
  have hmem : (⟨.stringLit (.ofList ['Ã', '©']), 0, 4⟩ : Token) ∈ lexAll (fun _ => ⟨0⟩) "\"é\"" := by
    decide +kernel
  obtain ⟨u, hu, hdenotes⟩ := h _ hmem rfl (by decide +kernel)
  have hbody : Body ['Ã', '©'] ['Ã', '©'] :=
    .char (by decide) (by decide) (.char (by decide) (by decide) .nil)
  have haccepted : Accepted ['Ã', '©'] :=
    .char (by decide) (by decide) (.char (by decide) (by decide) .nil)
  have hspelled : utf8 u.toList = '"' :: (['Ã', '©'] ++ ['"']) := hu.trans (by decide +kernel)
  have hascii := ((stringLit_iff hbody (by decide)).1 fun _ => ⟨u.toList, hspelled, hdenotes⟩)
    haccepted
  exact absurd (hascii.1 'Ã' List.mem_cons_self) (by decide)

end Arth.Syntax
