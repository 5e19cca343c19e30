import Arth.Vm.JsonRoundtrip

/-!
# The JSON parser against RFC 8259

* `rfc` — the dialect of the standard: its whitespace, numerals and escapes, with a surrogate pair
  read as the one character it stands for.
* `parseWhole` — the parser on a whole text, with nothing but whitespace around the value.
* `readsExactly_iff` — the parser is right on a text exactly if the text is not one of those that only the
  parser's own dialect `reads` has, and has no escaped surrogate pair.
-/

namespace Arth.Json

open List Option

/-! ## The standard -/

/-- Space, tab, line feed, carriage return. -/
def rfcWs (c : Char) : Bool := c == ' ' || c == '\t' || c == '\n' || c == '\r'

/-- No leading zero, and a digit after a point and in an exponent. -/
def RfcNum (n : Numeral) : Prop :=
  n.Wf ∧ (n.int = ['0'] ∨ ∃ d ds, n.int = d :: ds ∧ d ≠ '0') ∧
    (∀ ds, n.frac = some ds → ds ≠ []) ∧ ∀ e sign ds, n.exp = some (e, sign, ds) → ds ≠ []

/-- A character, or a code unit given by its number. -/
inductive Piece where
  | char (c : Char)
  | code (n : ℕ)

def rfcEscape (e : Char) : Option Char :=
  if e = '"' then some '"'
  else if e = '\\' then some '\\'
  else if e = '/' then some '/'
  else if e = 'b' then some '\x08'
  else if e = 'f' then some '\x0c'
  else if e = 'n' then some '\n'
  else if e = 'r' then some '\r'
  else if e = 't' then some '\t'
  else none

/-- The body of a string of the standard, and its pieces. -/
inductive RfcBody : Text → List Piece → Prop
  | nil : RfcBody [] []
  | plain {c : Char} {b : Text} {ps : List Piece} : c ≠ '"' → c ≠ '\\' → 0x20 ≤ c.toNat →
      RfcBody b ps → RfcBody (c :: b) (.char c :: ps)
  | escape {e d : Char} {b : Text} {ps : List Piece} : rfcEscape e = some d → RfcBody b ps →
      RfcBody ('\\' :: e :: b) (.char d :: ps)
  | unicode {a b' c d : Char} {n : ℕ} {b : Text} {ps : List Piece} :
      hexDigits 0 [a, b', c, d] = some n → RfcBody b ps →
      RfcBody ('\\' :: 'u' :: a :: b' :: c :: d :: b) (.code n :: ps)

def isHigh (n : ℕ) : Bool := 0xD800 ≤ n && n < 0xDC00

def isLow (n : ℕ) : Bool := 0xDC00 ≤ n && n < 0xE000

/-- The character a surrogate pair denotes. -/
def pairChar (h l : ℕ) : Char := Char.ofNat (0x10000 + (h - 0xD800) * 0x400 + (l - 0xDC00))

/-- The string the pieces denote. A surrogate that is not in a pair denotes no character. -/
def decode : List Piece → Text
  | [] => []
  | .char c :: ps => c :: decode ps
  | .code n :: [] => (charFromU32 n).toList
  | .code n :: .char c :: ps => (charFromU32 n).toList ++ (c :: decode ps)
  | .code h :: .code l :: ps =>
    if isHigh h && isLow l then pairChar h l :: decode ps
    else (charFromU32 h).toList ++ decode (.code l :: ps)

/-- A surrogate pair is among the pieces. -/
def hasPair : List Piece → Bool
  | [] => false
  | .char _ :: ps => hasPair ps
  | .code _ :: [] => false
  | .code _ :: .char _ :: ps => hasPair ps
  | .code h :: .code l :: ps => (isHigh h && isLow l) || hasPair (.code l :: ps)

def rfc : Dialect where
  ws := rfcWs
  num := RfcNum
  body b u := ∃ ps, RfcBody b ps ∧ decode ps = u

/-- The standard without escaped surrogate pairs. -/
def unpaired : Dialect where
  ws := rfcWs
  num := RfcNum
  body b u := ∃ ps, RfcBody b ps ∧ hasPair ps = false ∧ decode ps = u

/-- A text of the dialect with whitespace around it, and its value. -/
def IsText (D : Dialect) (F : FloatText) (s : Text) (v : JsonVal) : Prop :=
  ∃ w t w', s = w ++ t ∧ D.Ws w ∧ D.Ws w' ∧ Gram D F t (.value v) w'

/-- The value `json_parse_and_store` stores. -/
def parseWhole (F : FloatText) (s : Text) : Option JsonVal :=
  match parse F (trim s) with
  | some (v, rest) => if trim rest = [] then some v else none
  | none => none

variable {F : FloatText}

theorem ws_of_trim {s : Text} (h : trim s = []) : ∀ c ∈ s, isWhitespace c = true := by
  obtain ⟨w, hw, hs⟩ := exists_ws s
  obtain ⟨w', hw', hrest⟩ := exists_ws (trimStart s).reverse
  have hnil : trimStart (trimStart s).reverse = [] := reverse_eq_nil_iff.1 h
  rw [hnil, append_nil] at hrest
  intro c hc
  rw [hs] at hc
  rcases mem_append.1 hc with hc | hc
  · exact hw c hc
  · refine hw' c ?_
    rw [← hrest]
    exact mem_reverse.2 hc

theorem exists_trim (s : Text) : ∃ w w', (∀ c ∈ w, isWhitespace c = true) ∧
    (∀ c ∈ w', isWhitespace c = true) ∧ s = w ++ (trim s ++ w') := by
  obtain ⟨w, hw, hs⟩ := exists_ws s
  obtain ⟨w', hw', hrest⟩ := exists_ws (trimStart s).reverse
  refine ⟨w, w'.reverse, hw, fun c hc => hw' c (mem_reverse.1 hc), ?_⟩
  have hback := congrArg List.reverse hrest
  rw [reverse_reverse, reverse_append] at hback
  have htrim : trimStart s = trim s ++ w'.reverse := hback
  rw [← htrim]
  exact hs

theorem trim_nil : trim [] = [] := rfl

/-- **The parser accepts the texts of its dialect.** -/
theorem parseWhole_iff (s : Text) (v : JsonVal) : parseWhole F s = some v ↔ IsText reads F s v := by
  unfold parseWhole
  constructor
  · intro h
    split at h
    · rename_i x rest hparse
      split_ifs at h with hrest
      cases h
      obtain ⟨t, c, ht, -, hframe⟩ := (parse_sound hparse).frame
      obtain ⟨w, w', hw, hw', hs⟩ := exists_trim s
      obtain ⟨w₁, hw₁, htrim⟩ := exists_ws (trim s)
      refine ⟨w ++ w₁, t ++ c :: (rest ++ w'), rest ++ w', ?_, ?_, ?_, hframe (rest ++ w')⟩
      · rw [hs, htrim, ht]
        simp
      · exact fun d hd => (mem_append.1 hd).elim (hw d) (hw₁ d)
      · exact fun d hd => (mem_append.1 hd).elim (ws_of_trim hrest d) (hw' d)
    · cases h
  · rintro ⟨w, t, w', rfl, hw, hw', hgram⟩
    obtain ⟨c, u, hopen, hc⟩ := hgram.opens
    obtain ⟨t₀, d, ht, hd, hframe⟩ := hgram.frame
    have hstart : trimStart (w ++ t) = t := by
      rw [hopen]
      exact trimStart_append hw hc.facts.1 u
    have htrim : trim (w ++ t) = t₀ ++ [d] := by
      have hreverse : t.reverse = w'.reverse ++ d :: t₀.reverse := by
        rw [ht, reverse_append, reverse_cons, append_assoc]
        rfl
      unfold trim
      rw [hstart, hreverse, trimStart_append (fun x hx => hw' x (mem_reverse.1 hx)) hd,
        reverse_cons, reverse_reverse]
    rw [htrim, parse_complete (hframe []) (Free.nil inNumeral)]
    simp only [trim_nil, if_true]

/-! ## From the standard to the parser -/

variable {s r : Text} {o : Out}

theorem Gram.mono {D D' : Dialect} (hws : ∀ c, D.ws c = true → D'.ws c = true)
    (hnum : ∀ n, D.num n → D'.num n) (hbody : ∀ b u, D.body b u → D'.body b u)
    (h : Gram D F s o r) : Gram D' F s o r := by
  have hWs {w : Text} (hw : D.Ws w) : D'.Ws w := fun c hc => hws c (hw c hc)
  induction h with
  | nullLit => exact .nullLit
  | trueLit => exact .trueLit
  | falseLit => exact .falseLit
  | number hn => exact .number (hnum _ hn)
  | string hb => exact .string (hbody _ _ hb)
  | arrayNil hw => exact .arrayNil (hWs hw)
  | array _ ih => exact .array ih
  | objectNil hw => exact .objectNil (hWs hw)
  | object _ ih => exact .object ih
  | last hw hw' _ ih => exact .last (hWs hw) (hWs hw') ih
  | item hw hw' _ _ ih ihs => exact .item (hWs hw) (hWs hw') ih ihs
  | lastMember hw hb hw₁ hw₂ hw₃ _ ih =>
    exact .lastMember (hWs hw) (hbody _ _ hb) (hWs hw₁) (hWs hw₂) (hWs hw₃) ih
  | member hw hb hw₁ hw₂ hw₃ _ _ ih ihs =>
    exact .member (hWs hw) (hbody _ _ hb) (hWs hw₁) (hWs hw₂) (hWs hw₃) ih ihs

theorem isWhitespace_of_rfc (c : Char) (h : rfcWs c = true) : isWhitespace c = true := by
  unfold rfcWs at h
  simp only [Bool.or_eq_true, beq_iff_eq] at h
  rcases h with ((rfl | rfl) | rfl) | rfl
  all_goals decide

theorem readNum_of_rfc (n : Numeral) (h : RfcNum n) : ReadNum n := by
  obtain ⟨hwf, hint, -, hexp⟩ := h
  have hne : n.int ≠ [] := by
    rcases hint with hint | ⟨d, ds, hint, -⟩
    · rw [hint]
      exact cons_ne_nil _ _
    · rw [hint]
      exact cons_ne_nil d ds
  refine ⟨hwf, ?_, .inr hne⟩
  unfold Numeral.isFloat
  cases hcase : n.exp with
  | none => simp [hne]
  | some q =>
    obtain ⟨e, sign, ds⟩ := q
    simp [hne, hexp e sign ds hcase]

/-- What the parser makes of the pieces. -/
def naive (ps : List Piece) : Text := ps.flatMap fun
  | .char c => [c]
  | .code n => (charFromU32 n).toList

theorem unescape_of_rfc {e d : Char} (h : rfcEscape e = some d) : e ≠ 'u' ∧ unescape e = d := by
  unfold rfcEscape at h
  split_ifs at h with he he he he he he he he
  all_goals
    cases h
    rw [he]
    decide

variable {n : ℕ} {ps : List Piece} {b : Text}

theorem unicodeEscape_of_hex {a b c d : Char} (h : hexDigits 0 [a, b, c, d] = some n) :
    unicodeEscape [a, b, c, d] = (charFromU32 n).toList := by
  have ha : a ≠ '+' := by
    rintro rfl
    cases h
  have hradix : fromStrRadix16 [a, b, c, d] = some n := by
    rw [← h]
    unfold fromStrRadix16
    split <;> simp_all
  unfold unicodeEscape
  rw [hradix]

theorem readBody_of_rfc (h : RfcBody b ps) : ReadBody b (naive ps) := by
  induction h with
  | nil => exact .nil
  | plain hquote hslash _ _ ih => exact .plain hquote hslash ih
  | escape he _ ih =>
    obtain ⟨hu, hd⟩ := unescape_of_rfc he
    have hbody := ReadBody.escape hu ih
    rwa [hd] at hbody
  | @unicode a b' c d n b ps hn _ ih =>
    have hbody : ReadBody ('\\' :: 'u' :: a :: b' :: c :: d :: b)
      (unicodeEscape [a, b', c, d] ++ naive ps) := .unicode ih
    rwa [unicodeEscape_of_hex hn] at hbody

/-! ## Surrogate pairs -/

theorem charFromU32_surrogate (hlow : 0xD800 ≤ n) (hhigh : n < 0xE000) : charFromU32 n = none := by
  have hbound : ¬ n.isValidChar := by
    omega
  unfold charFromU32
  rw [if_neg hbound]

theorem naive_pair {h l : ℕ} (hpair : (isHigh h && isLow l) = true) (ps : List Piece) :
    naive (.code h :: .code l :: ps) = naive ps := by
  simp only [isHigh, isLow, Bool.and_eq_true, decide_eq_true_eq] at hpair
  show (charFromU32 h).toList ++ ((charFromU32 l).toList ++ naive ps) = naive ps
  rw [charFromU32_surrogate (by omega) (by omega), charFromU32_surrogate (by omega) (by omega)]
  rfl

theorem length_naive_le (ps : List Piece) : (naive ps).length ≤ (decode ps).length := by
  induction ps using decode.induct with
  | case1 => exact le_rfl
  | case2 c ps ih => exact Nat.succ_le_succ ih
  | case3 n =>
    show ((charFromU32 n).toList ++ []).length ≤ _
    rw [append_nil]
    exact le_rfl
  | case4 n c ps ih =>
    show ((charFromU32 n).toList ++ c :: naive ps).length ≤
      ((charFromU32 n).toList ++ c :: decode ps).length
    simp only [length_append, length_cons]
    omega
  | case5 h l ps hpair ih =>
    rw [naive_pair hpair]
    unfold decode
    rw [if_pos hpair, length_cons]
    omega
  | case6 h l ps hpair ih =>
    unfold decode
    rw [if_neg hpair]
    show ((charFromU32 h).toList ++ naive (.code l :: ps)).length ≤ _
    simp only [length_append]
    omega

theorem decode_of_unpaired (ps : List Piece) (h : hasPair ps = false) : decode ps = naive ps := by
  induction ps using decode.induct with
  | case1 => rfl
  | case2 c ps ih => exact congrArg (c :: ·) (ih h)
  | case3 n => exact (append_nil _).symm
  | case4 n c ps ih =>
    show (charFromU32 n).toList ++ c :: decode ps = (charFromU32 n).toList ++ c :: naive ps
    rw [ih h]
  | case5 k l ps hpair ih =>
    unfold hasPair at h
    rw [hpair] at h
    cases h
  | case6 k l ps hpair ih =>
    unfold decode
    rw [if_neg hpair, ih (Bool.or_eq_false_iff.1 h).2]
    rfl

theorem length_naive_lt (ps : List Piece) (h : hasPair ps = true) :
    (naive ps).length < (decode ps).length := by
  induction ps using decode.induct with
  | case1 | case3 => cases h
  | case2 c ps ih => exact Nat.succ_lt_succ (ih h)
  | case4 n c ps ih =>
    have hlt := ih h
    show ((charFromU32 n).toList ++ c :: naive ps).length <
      ((charFromU32 n).toList ++ c :: decode ps).length
    simp only [length_append, length_cons]
    omega
  | case5 k l ps hpair ih =>
    have hle := length_naive_le ps
    rw [naive_pair hpair]
    unfold decode
    rw [if_pos hpair, length_cons]
    omega
  | case6 k l ps hpair ih =>
    have hlt := ih ((Bool.or_eq_true_iff.1 h).resolve_left hpair)
    unfold decode
    rw [if_neg hpair]
    show ((charFromU32 k).toList ++ naive (.code l :: ps)).length < _
    simp only [length_append]
    omega

theorem unpaired_of_rfc (h : RfcBody b ps)
    (hread : decode ps = naive ps) : unpaired.body b (naive ps) := by
  refine ⟨ps, h, ?_, hread⟩
  by_contra hpair
  have hlt := length_naive_lt ps (by simpa using hpair)
  rw [hread] at hlt
  omega

/-- The parser reads something of the same kind, and the same only without surrogate pairs. -/
def Shadow (F : FloatText) (s : Text) : Out → Text → Prop
  | .value v, r => ∃ v', Gram reads F s (.value v') r ∧
      (v = v' → Gram unpaired F s (.value v) r)
  | .items vs, r => ∃ vs', Gram reads F s (.items vs') r ∧
      (vs = vs' → Gram unpaired F s (.items vs) r)
  | .members ms, r => ∃ ms', Gram reads F s (.members ms') r ∧
      (ms = ms' → Gram unpaired F s (.members ms) r)

theorem reads_ws {w : Text} (h : rfc.Ws w) : reads.Ws w :=
  fun c hc => isWhitespace_of_rfc c (h c hc)

theorem Gram.shadow (h : Gram rfc F s o r) : Shadow F s o r := by
  induction h with
  | nullLit => exact ⟨_, .nullLit, fun _ => .nullLit⟩
  | trueLit => exact ⟨_, .trueLit, fun _ => .trueLit⟩
  | falseLit => exact ⟨_, .falseLit, fun _ => .falseLit⟩
  | number hn => exact ⟨_, .number (readNum_of_rfc _ hn), fun _ => .number hn⟩
  | string hb =>
    obtain ⟨ps, hps, rfl⟩ := hb
    refine ⟨_, .string (readBody_of_rfc hps), fun heq => ?_⟩
    have hread := JsonVal.string.inj heq
    rw [hread]
    exact .string (unpaired_of_rfc hps hread)
  | arrayNil hw => exact ⟨_, .arrayNil (reads_ws hw), fun _ => .arrayNil hw⟩
  | array _ ih =>
    obtain ⟨vs', hread, hsame⟩ := ih
    exact ⟨_, .array hread, fun heq => .array (hsame (JsonVal.array.inj heq))⟩
  | objectNil hw => exact ⟨_, .objectNil (reads_ws hw), fun _ => .objectNil hw⟩
  | object _ ih =>
    obtain ⟨ms', hread, hsame⟩ := ih
    exact ⟨_, .object hread, fun heq => .object (hsame (JsonVal.object.inj heq))⟩
  | last hw hw' _ ih =>
    obtain ⟨v', hread, hsame⟩ := ih
    exact ⟨_, .last (reads_ws hw) (reads_ws hw') hread,
      fun heq => .last hw hw' (hsame (cons.inj heq).1)⟩
  | item hw hw' _ _ ih ihs =>
    obtain ⟨v', hread, hsame⟩ := ih
    obtain ⟨vs', hreads, hsames⟩ := ihs
    exact ⟨_, .item (reads_ws hw) (reads_ws hw') hread hreads,
      fun heq => .item hw hw' (hsame (cons.inj heq).1) (hsames (cons.inj heq).2)⟩
  | lastMember hw hb hw₁ hw₂ hw₃ _ ih =>
    obtain ⟨ps, hps, rfl⟩ := hb
    obtain ⟨v', hread, hsame⟩ := ih
    refine ⟨_, .lastMember (reads_ws hw) (readBody_of_rfc hps) (reads_ws hw₁) (reads_ws hw₂)
      (reads_ws hw₃) hread, fun heq => ?_⟩
    obtain ⟨hkey, hval⟩ := Prod.mk.inj (cons.inj heq).1
    rw [hkey]
    exact .lastMember hw (unpaired_of_rfc hps hkey) hw₁ hw₂ hw₃ (hsame hval)
  | member hw hb hw₁ hw₂ hw₃ _ _ ih ihs =>
    obtain ⟨ps, hps, rfl⟩ := hb
    obtain ⟨v', hread, hsame⟩ := ih
    obtain ⟨ms', hreads, hsames⟩ := ihs
    refine ⟨_, .member (reads_ws hw) (readBody_of_rfc hps) (reads_ws hw₁) (reads_ws hw₂)
      (reads_ws hw₃) hread hreads, fun heq => ?_⟩
    obtain ⟨hhead, htail⟩ := cons.inj heq
    obtain ⟨hkey, hval⟩ := Prod.mk.inj hhead
    rw [hkey]
    exact .member hw (unpaired_of_rfc hps hkey) hw₁ hw₂ hw₃ (hsame hval) (hsames htail)

theorem rfc_of_unpaired (h : Gram unpaired F s o r) : Gram rfc F s o r := by
  have hbody : ∀ b u, unpaired.body b u → rfc.body b u := by
    rintro b u ⟨ps, hps, -, heq⟩
    exact ⟨ps, hps, heq⟩
  have hws : ∀ c, unpaired.ws c = true → rfc.ws c = true := fun _ hc => hc
  exact h.mono hws (fun _ hn => hn) hbody

theorem reads_of_unpaired (h : Gram unpaired F s o r) : Gram reads F s o r := by
  refine h.mono isWhitespace_of_rfc readNum_of_rfc ?_
  rintro _ _ ⟨ps, hps, hpair, rfl⟩
  rw [decode_of_unpaired ps hpair]
  exact readBody_of_rfc hps

/-- The text is accepted exactly if it is a JSON text, and then as one it stands for. -/
def ReadsExactly (F : FloatText) (s : Text) : Prop :=
  ((∃ v, parseWhole F s = some v) ↔ ∃ v, IsText rfc F s v) ∧
    ∀ v, parseWhole F s = some v → IsText rfc F s v

/-- **Exactly the texts read as the standard has them**: those the parser's own dialect does not
have, and those of the standard without an escaped surrogate pair. -/
theorem readsExactly_iff (F : FloatText) (s : Text) :
    ReadsExactly F s ↔ ((∃ v, IsText reads F s v) → ∃ v, IsText unpaired F s v) := by
  constructor
  · rintro ⟨-, hsound⟩ ⟨v, hreads⟩
    have hparse := (parseWhole_iff s v).2 hreads
    obtain ⟨w, t, w', hs, hw, hw', hgram⟩ := hsound v hparse
    obtain ⟨v', hread, hsame⟩ := hgram.shadow
    -- The parser's value is also what the parser makes of this reading of the text.
    have hparse' := (parseWhole_iff s v').2 ⟨w, t, w', hs, reads_ws hw, reads_ws hw', hread⟩
    rw [hparse] at hparse'
    exact ⟨v, w, t, w', hs, hw, hw', hsame (some.inj hparse')⟩
  · intro hcond
    have hsound : ∀ v, parseWhole F s = some v → IsText rfc F s v := by
      intro v hparse
      obtain ⟨v₀, w, t, w', hs, hw, hw', hgram⟩ := hcond ⟨v, (parseWhole_iff s v).1 hparse⟩
      have hread : IsText reads F s v₀ :=
        ⟨w, t, w', hs, reads_ws hw, reads_ws hw', reads_of_unpaired hgram⟩
      have hparse₀ := (parseWhole_iff s v₀).2 hread
      rw [hparse] at hparse₀
      obtain rfl := some.inj hparse₀
      exact ⟨w, t, w', hs, hw, hw', rfc_of_unpaired hgram⟩
    refine ⟨⟨fun ⟨v, hparse⟩ => ⟨v, hsound v hparse⟩, ?_⟩, hsound⟩
    rintro ⟨v, w, t, w', hs, hw, hw', hgram⟩
    obtain ⟨v', hread, -⟩ := hgram.shadow
    exact ⟨v', (parseWhole_iff s v').2 ⟨w, t, w', hs, reads_ws hw, reads_ws hw', hread⟩⟩

theorem not_isText_leadingZero (v : JsonVal) : ¬ IsText rfc F ['0', '1'] v := by
  rintro ⟨w, t, w', hs, hw, hw', hgram⟩
  have hnil : w = [] := by
    cases w with
    | nil => rfl
    | cons c w =>
      have hc := hw c mem_cons_self
      rw [← (cons.inj hs).1] at hc
      cases hc
  subst hnil
  have hs : t = ['0', '1'] := hs.symm
  generalize hout : Out.value v = o at hgram
  cases hgram with
  | @number n _ hn =>
    have hfree : Free inNumeral w' := by
      intro c hc
      cases w' with
      | nil => cases hc
      | cons d w' =>
        obtain rfl := some.inj hc
        exact not_inNumeral_of_ws (isWhitespace_of_rfc d (hw' d mem_cons_self))
    have hscan := scanNumber_append hn.1 hfree
    rw [hs] at hscan
    have hint : n.int = ['0', '1'] := by
      have heq := congrArg (fun p => p.1.int) hscan
      exact heq.symm
    rcases hn.2.1 with hzero | ⟨d, ds, hcons, hd⟩
    · rw [hint] at hzero
      cases hzero
    · rw [hint] at hcons
      exact hd (cons.inj hcons).1.symm
  | nullLit | trueLit | falseLit | string | arrayNil | array | objectNil | object => cases hs
  | last | item | lastMember | member => cases hout

theorem leadingZero_not_exact : ¬ ∀ (F : FloatText) (s : Text), ReadsExactly F s := by
  intro h
  have hws : reads.Ws [] := fun c hc => absurd hc not_mem_nil
  let n : Numeral := ⟨false, ['0', '1'], none, none⟩
  have hwf : n.Wf := by
    refine ⟨?_, ?_, ?_⟩
    · intro c hc
      rcases List.mem_cons.1 hc with rfl | hc
      · rfl
      · rw [List.mem_singleton.1 hc]
        rfl
    · intro ds hds
      cases hds
    · intro e sign ds hexp
      cases hexp
  have hnum : ReadNum n := ⟨hwf, rfl, Or.inr (cons_ne_nil _ _)⟩
  have hgram : Gram reads oneNumber (n.text ++ []) (.value (.number (oneNumber.value n.text))) [] :=
    .number hnum
  have hparse : parseWhole oneNumber ['0', '1'] = some (.number oneAndAHalf) :=
    (parseWhole_iff _ _).2 ⟨[], ['0', '1'], [], rfl, hws, hws, hgram⟩
  exact not_isText_leadingZero _ ((h oneNumber ['0', '1']).2 _ hparse)

end Arth.Json
