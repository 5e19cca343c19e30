import Arth.Vm.JsonText

/-!
# The language the JSON parser accepts

* `Gram` — the grammar of JSON texts over a `Dialect`: the whitespace, the numerals and the bodies
  of strings. `Gram D F s o r` says that `s` is a text for `o` followed by `r`.
* `reads` — the dialect of the parser.
* `parseJson_complete`, `parseJson_sound` — the parser accepts exactly that language.
-/

namespace Arth.Json

open List Option

structure Dialect where
  ws : Char → Bool
  num : Numeral → Prop
  body : Text → Text → Prop

/-- What a text stands for: a value, or the inside of an array or object that is not empty, with
its closing bracket. -/
inductive Out where
  | value (v : JsonVal)
  | items (vs : List JsonVal)
  | members (ms : List (Text × JsonVal))

def Dialect.Ws (D : Dialect) (w : Text) : Prop := ∀ c ∈ w, D.ws c = true

inductive Gram (D : Dialect) (F : FloatText) : Text → Out → Text → Prop
  | nullLit {r : Text} : Gram D F (nullText ++ r) (.value .null) r
  | trueLit {r : Text} : Gram D F (trueText ++ r) (.value (.bool true)) r
  | falseLit {r : Text} : Gram D F (falseText ++ r) (.value (.bool false)) r
  | number {n : Numeral} {r : Text} : D.num n →
      Gram D F (n.text ++ r) (.value (.number (F.value n.text))) r
  | string {b u r : Text} : D.body b u → Gram D F ('"' :: (b ++ '"' :: r)) (.value (.string u)) r
  | arrayNil {w r : Text} : D.Ws w → Gram D F ('[' :: (w ++ ']' :: r)) (.value (.array [])) r
  | array {s r : Text} {vs : List JsonVal} : Gram D F s (.items vs) r →
      Gram D F ('[' :: s) (.value (.array vs)) r
  | objectNil {w r : Text} : D.Ws w →
      Gram D F ('\x7b' :: (w ++ '\x7d' :: r)) (.value (.object [])) r
  | object {s r : Text} {ms : List (Text × JsonVal)} : Gram D F s (.members ms) r →
      Gram D F ('\x7b' :: s) (.value (.object ms)) r
  | last {w s w' r : Text} {v : JsonVal} : D.Ws w → D.Ws w' →
      Gram D F s (.value v) (w' ++ ']' :: r) → Gram D F (w ++ s) (.items [v]) r
  | item {w s w' s' r : Text} {v : JsonVal} {vs : List JsonVal} : D.Ws w → D.Ws w' →
      Gram D F s (.value v) (w' ++ ',' :: s') → Gram D F s' (.items vs) r →
      Gram D F (w ++ s) (.items (v :: vs)) r
  | lastMember {w b k w₁ w₂ s w₃ r : Text} {v : JsonVal} : D.Ws w → D.body b k → D.Ws w₁ →
      D.Ws w₂ → D.Ws w₃ → Gram D F s (.value v) (w₃ ++ '\x7d' :: r) →
      Gram D F (w ++ '"' :: (b ++ '"' :: (w₁ ++ ':' :: (w₂ ++ s)))) (.members [(k, v)]) r
  | member {w b k w₁ w₂ s w₃ s' r : Text} {v : JsonVal} {ms : List (Text × JsonVal)} : D.Ws w →
      D.body b k → D.Ws w₁ → D.Ws w₂ → D.Ws w₃ → Gram D F s (.value v) (w₃ ++ ',' :: s') →
      Gram D F s' (.members ms) r →
      Gram D F (w ++ '"' :: (b ++ '"' :: (w₁ ++ ':' :: (w₂ ++ s)))) (.members ((k, v) :: ms)) r

/-- The body of a string as the parser takes it: any character may follow a backslash, and any four
characters may follow `\u`; they add what they denote, or nothing. -/
inductive ReadBody : Text → Text → Prop
  | nil : ReadBody [] []
  | plain {c : Char} {b u : Text} : c ≠ '"' → c ≠ '\\' → ReadBody b u → ReadBody (c :: b) (c :: u)
  | escape {e : Char} {b u : Text} : e ≠ 'u' → ReadBody b u →
      ReadBody ('\\' :: e :: b) (unescape e :: u)
  | unicode {a b' c d : Char} {b u : Text} : ReadBody b u →
      ReadBody ('\\' :: 'u' :: a :: b' :: c :: d :: b) (unicodeEscape [a, b', c, d] ++ u)

/-- The numerals the parser takes: they start with a minus or a digit, and `f64` can be read from
them. -/
def ReadNum (n : Numeral) : Prop := n.Wf ∧ n.isFloat = true ∧ (n.neg = true ∨ n.int ≠ [])

def reads : Dialect where
  ws := isWhitespace
  num := ReadNum
  body := ReadBody

variable {F : FloatText}

/-! ## Whitespace -/

variable {c : Char} {w s r b u : Text} {n : Numeral} {v : JsonVal}

theorem not_inNumeral_of_ws (h : isWhitespace c = true) : inNumeral c = false := by
  by_contra hc
  have hc : inNumeral c = true := by simpa using hc
  unfold inNumeral isDigit at hc
  unfold isWhitespace at h
  simp only [Bool.or_eq_true, Bool.and_eq_true, decide_eq_true_eq, beq_iff_eq, Char.le_def] at h hc
  have hzero : (48 : ℕ) = '0'.toNat := rfl
  have hnine : (57 : ℕ) = '9'.toNat := rfl
  rcases hc with ((((⟨h₁, h₂⟩ | rfl) | rfl) | rfl) | rfl) | rfl
  · have h₁ : '0'.toNat ≤ c.toNat := h₁
    have h₂ : c.toNat ≤ '9'.toNat := h₂
    omega
  all_goals revert h; decide

theorem free_ws (hw : ∀ c ∈ w, isWhitespace c = true) {d : Char}
    (hd : inNumeral d = false) (r : Text) : Free inNumeral (w ++ d :: r) := by
  cases w with
  | nil => exact (free_cons _ _ _).2 hd
  | cons c w => exact (free_cons _ _ _).2 (not_inNumeral_of_ws (hw c mem_cons_self))

theorem trimStart_append (hw : ∀ c ∈ w, isWhitespace c = true)
    (hc : isWhitespace c = false) (t : Text) : trimStart (w ++ c :: t) = c :: t := by
  unfold trimStart
  rw [dropWhile_append_of_pos hw, dropWhile_cons_of_neg (by simpa using hc)]

theorem trimStart_cons (hc : isWhitespace c = false) (t : Text) : trimStart (c :: t) = c :: t :=
  trimStart_append (w := []) (fun _ h => absurd h not_mem_nil) hc t

theorem exists_ws (s : Text) : ∃ w, (∀ c ∈ w, isWhitespace c = true) ∧ s = w ++ trimStart s :=
  ⟨s.takeWhile isWhitespace, fun _ hc => mem_takeWhile_imp hc, (takeWhile_append_dropWhile).symm⟩

/-- The first character of a value. -/
def Opens (c : Char) : Prop :=
  c = 'n' ∨ c = 't' ∨ c = 'f' ∨ c = '"' ∨ c = '[' ∨ c = '\x7b' ∨ c = '-' ∨ isDigit c = true

theorem Opens.facts (h : Opens c) : isWhitespace c = false ∧ c ≠ ']' ∧ c ≠ '\x7d' := by
  rcases h with rfl | rfl | rfl | rfl | rfl | rfl | rfl | h
  case inr.inr.inr.inr.inr.inr.inr =>
    refine ⟨?_, ?_, ?_⟩
    · by_contra hws
      have := not_inNumeral_of_ws (by simpa using hws)
      rw [digit_inNumeral c h] at this
      cases this
    all_goals
      rintro rfl
      cases h
  all_goals decide

theorem numeral_opens (hn : ReadNum n) (r : Text) :
    ∃ c t, n.text ++ r = c :: t ∧ (c = '-' ∨ isDigit c = true) := by
  obtain ⟨hwf, -, hstart⟩ := hn
  unfold Numeral.text
  cases hneg : n.neg with
  | true => exact ⟨'-', _, rfl, .inl rfl⟩
  | false =>
    rw [hneg] at hstart
    cases hint : n.int with
    | nil => exact absurd hint (hstart.resolve_left (by decide))
    | cons d ds =>
      exact ⟨d, _, rfl, .inr (hwf.int d (by rw [hint]; exact mem_cons_self))⟩

theorem Gram.opens (h : Gram reads F s (.value v) r) : ∃ c t, s = c :: t ∧ Opens c := by
  cases h with
  | nullLit => exact ⟨_, _, rfl, .inl rfl⟩
  | trueLit => exact ⟨_, _, rfl, .inr (.inl rfl)⟩
  | falseLit => exact ⟨_, _, rfl, .inr (.inr (.inl rfl))⟩
  | number hn =>
    obtain ⟨c, t, heq, hc⟩ := numeral_opens hn r
    refine ⟨c, t, heq, ?_⟩
    tauto
  | string | arrayNil | array | objectNil | object => exact ⟨_, _, rfl, by unfold Opens; tauto⟩

/-! ## Strings and numbers -/

theorem parseChars_complete (h : ReadBody b u) (r acc : Text) :
    parseChars (b ++ '"' :: r) acc = some (acc ++ u, r) := by
  induction h generalizing acc with
  | nil =>
    rw [append_nil]
    exact parseChars_quote r acc
  | @plain c b u hquote hslash _ ih =>
    have hstep := parseChars_plain hquote hslash (b ++ '"' :: r) acc
    rw [cons_append, hstep, ih, append_assoc]
    rfl
  | @escape e b u he _ ih =>
    have hstep := parseChars_escaped he (b ++ '"' :: r) acc
    rw [cons_append, cons_append, hstep, ih, append_assoc]
    rfl
  | @unicode a b' c d b u _ ih =>
    have hstep := parseChars_unicode a b' c d (b ++ '"' :: r) acc
    simp only [cons_append]
    rw [hstep, ih, append_assoc]

theorem parseChars_sound (s acc : Text) (h : parseChars s acc = some (u, r)) :
    ∃ b u', s = b ++ '"' :: r ∧ u = acc ++ u' ∧ ReadBody b u' := by
  induction hlen : s.length using Nat.strong_induction_on generalizing s acc with
  | _ k ih =>
    cases s with
    | nil =>
      cases h
    | cons c s =>
      rw [length_cons] at hlen
      by_cases hquote : c = '"'
      · subst hquote
        rw [parseChars_quote] at h
        obtain ⟨rfl, rfl⟩ := Prod.mk.inj (some.inj h)
        exact ⟨[], [], rfl, (append_nil acc).symm, .nil⟩
      by_cases hslash : c = '\\'
      · subst hslash
        cases s with
        | nil =>
          cases h
        | cons e s =>
          rw [length_cons] at hlen
          by_cases he : e = 'u'
          · subst he
            rcases s with _ | ⟨a, _ | ⟨b', _ | ⟨d, _ | ⟨f, s⟩⟩⟩⟩
            case cons.cons.cons.cons =>
              simp only [length_cons] at hlen
              obtain ⟨b, u', rfl, rfl, hb⟩ := ih s.length (by omega) s _ h rfl
              exact ⟨_, _, rfl, (append_assoc ..), hb.unicode⟩
            -- Fewer than four characters are left.
            all_goals cases h
          · rw [parseChars_escaped he] at h
            obtain ⟨b, u', rfl, rfl, hb⟩ := ih s.length (by omega) s _ h rfl
            exact ⟨'\\' :: e :: b, unescape e :: u', rfl, by simp, hb.escape he⟩
      · rw [parseChars_plain hquote hslash] at h
        obtain ⟨b, u', rfl, rfl, hb⟩ := ih s.length (by omega) s _ h rfl
        exact ⟨c :: b, c :: u', rfl, by simp, hb.plain hquote hslash⟩

theorem parseJsonString_complete (h : ReadBody b u) (r : Text) :
    parseJsonString ('"' :: (b ++ '"' :: r)) = some (u, r) :=
  parseChars_complete h r []

theorem parseJsonString_sound (h : parseJsonString s = some (u, r)) :
    ∃ b, s = '"' :: (b ++ '"' :: r) ∧ ReadBody b u := by
  cases s with
  | nil => cases h
  | cons c s =>
    have h : (if c = '"' then parseChars s [] else none) = some (u, r) := h
    split_ifs at h with hc
    obtain ⟨b, u', rfl, rfl, hb⟩ := parseChars_sound s [] h
    exact ⟨b, by rw [hc], hb⟩

theorem parseJsonNumber_complete (hn : ReadNum n) (hr : Free inNumeral r) :
    parseJsonNumber F (n.text ++ r) = some (.number (F.value n.text), r) := by
  obtain ⟨c, t, hopens, -⟩ := numeral_opens hn []
  have hne : n.text ≠ [] := by
    rw [append_nil] at hopens
    rw [hopens]
    exact cons_ne_nil c t
  unfold parseJsonNumber
  simp only [scanNumber_append hn.1 hr, if_neg hne, if_pos hn.2.1]

theorem scanFrac_sound (s : Text) : fracText (scanFrac s).1 ++ (scanFrac s).2 = s ∧
      ∀ ds, (scanFrac s).1 = some ds → ∀ c ∈ ds, isDigit c = true := by
  cases s with
  | nil => exact ⟨rfl, nofun⟩
  | cons c t =>
    unfold scanFrac
    by_cases hc : c = '.'
    · simp only [if_pos hc]
      refine ⟨?_, ?_⟩
      · show '.' :: (t.takeWhile isDigit ++ t.dropWhile isDigit) = _
        rw [takeWhile_append_dropWhile, hc]
      · intro ds hds d hd
        rw [← some.inj hds] at hd
        exact mem_takeWhile_imp hd
    · simp only [if_neg hc]
      exact ⟨rfl, nofun⟩

theorem scanSign_sound (s : Text) : (scanSign s).1.toList ++ (scanSign s).2 = s ∧
      ∀ c, (scanSign s).1 = some c → c = '+' ∨ c = '-' := by
  cases s with
  | nil => exact ⟨rfl, nofun⟩
  | cons c t =>
    unfold scanSign
    by_cases hc : c = '+' ∨ c = '-'
    · simp only [if_pos hc]
      exact ⟨rfl, fun d hd => some.inj hd ▸ hc⟩
    · simp only [if_neg hc]
      exact ⟨rfl, nofun⟩

theorem scanExp_sound (s : Text) : expText (scanExp s).1 ++ (scanExp s).2 = s ∧
      ∀ e sign ds, (scanExp s).1 = some (e, sign, ds) → (e = 'e' ∨ e = 'E') ∧
        (∀ c, sign = some c → c = '+' ∨ c = '-') ∧ ∀ c ∈ ds, isDigit c = true := by
  cases s with
  | nil => exact ⟨rfl, nofun⟩
  | cons c t =>
    unfold scanExp
    by_cases hc : c = 'e' ∨ c = 'E'
    · simp only [if_pos hc]
      obtain ⟨htext, hsign⟩ := scanSign_sound t
      refine ⟨?_, ?_⟩
      · show c :: ((scanSign t).1.toList ++ (scanSign t).2.takeWhile isDigit ++
          (scanSign t).2.dropWhile isDigit) = _
        rw [append_assoc, takeWhile_append_dropWhile, htext]
      · rintro e sign ds hds
        obtain ⟨rfl, hrest⟩ := Prod.mk.inj (some.inj hds)
        cases hrest
        exact ⟨hc, hsign, fun d hd => mem_takeWhile_imp hd⟩
    · simp only [if_neg hc]
      exact ⟨rfl, nofun⟩

theorem scanNumber_sound (s : Text) :
    (scanNumber s).1.text ++ (scanNumber s).2 = s ∧ (scanNumber s).1.Wf := by
  have hneg : (if (scanNeg s).1 then ['-'] else []) ++ (scanNeg s).2 = s := by
    cases s with
    | nil => rfl
    | cons c t =>
      unfold scanNeg
      by_cases hc : c = '-' <;> simp [hc]
  obtain ⟨hfrac, hfracDigits⟩ := scanFrac_sound ((scanNeg s).2.dropWhile isDigit)
  obtain ⟨hexp, hexpDigits⟩ := scanExp_sound (scanFrac ((scanNeg s).2.dropWhile isDigit)).2
  refine ⟨?_, ⟨fun c hc => mem_takeWhile_imp hc, hfracDigits, hexpDigits⟩⟩
  unfold scanNumber Numeral.text
  simp only [append_assoc]
  rw [hexp, hfrac, takeWhile_append_dropWhile]
  exact hneg

theorem parseJsonNumber_sound {t : Text} (hc : c = '-' ∨ isDigit c = true)
    (h : parseJsonNumber F (c :: t) = some (v, r)) :
    ∃ n, c :: t = n.text ++ r ∧ ReadNum n ∧ v = .number (F.value n.text) := by
  obtain ⟨htext, hwf⟩ := scanNumber_sound (c :: t)
  simp only [parseJsonNumber] at h
  split_ifs at h with hempty hfloat
  cases some.inj h
  refine ⟨_, htext.symm, ⟨hwf, hfloat, ?_⟩, rfl⟩
  rcases hc with rfl | hc
  · exact .inl rfl
  · refine .inr ?_
    have hminus : c ≠ '-' := by
      rintro rfl
      cases hc
    have hint : (scanNumber (c :: t)).1.int = (c :: t).takeWhile isDigit := by
      unfold scanNumber scanNeg
      simp only [if_neg hminus]
    rw [hint, takeWhile_cons_of_pos hc]
    exact cons_ne_nil _ _

end Arth.Json
