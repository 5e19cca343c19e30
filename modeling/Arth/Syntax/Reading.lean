import Arth.Lib.Munch
import Arth.Syntax.Lexer

/-!
# What the lexer takes

Between two tokens stand blanks and comments. Every token takes at least one byte, so the tokens
and what lies between them make up the text.

* `lexKind_suffix` — what is left behind a token is the end of the input.
* `skip_split` — what is skipped in front of a token is trivia, or runs to the end of the text.
* `lexAll_lexes` — the tokens of a text, one by one.
-/

namespace Arth.Syntax

open Munch List Option

variable {F : String → F64} {bs text rest : List Char} {k : Option TokenKind}

/-! ## Scanners -/

/-- A blank, or the start of a comment. -/
def Gap (c : Char) : Prop := isBlank c ∨ c = '/'

instance : DecidablePred Gap := fun _ => inferInstanceAs (Decidable (_ ∨ _))

theorem gap_not {p : Char → Bool} (hblank : [' ', '\n', '\r', '\t', '/'].any p = false) :
    ∀ c, Gap c → p c = false := by
  intro c hc
  refine Bool.eq_false_iff.2 (any_eq_false.1 hblank c ?_)
  rcases hc with hc | rfl
  · simp only [isBlank, Bool.or_eq_true, beq_iff_eq] at hc
    simp only [mem_cons]
    tauto
  · decide

variable {d : Char}

theorem orWith_scanner (two one : TokenKind) (hd : ¬ Gap d) : Scanner Gap (orWith d two one) :=
  .ahead hd (.stay two) (.stay one)

variable {c : Char} {f : List Char → List Char × List Char}

theorem lexPunct_scanner {r : TokenKind × List Char} (h : lexPunct c bs = some r) :
    ∃ f, Scanner Gap f ∧ f bs = r ∧ ∀ bs, lexPunct c bs = some (f bs) := by
  unfold lexPunct at h
  split at h <;> cases h
  all_goals refine ⟨_, ?_, rfl, fun _ => rfl⟩
  all_goals first
    | exact .stay _
    | exact orWith_scanner _ _ (by decide)
    | exact .ahead (by decide) (.stay _) (orWith_scanner _ _ (by decide))
    | exact .ahead (by decide) (.stay _)
        (.ahead (by decide) (orWith_scanner _ _ (by decide)) (.stay _))

/-- Takes one of the marks and the digits behind it, if there are any. -/
structure Marked (mark : List Char → Prop) (f : List Char → List Char × List Char) : Prop where
  digits : ∀ {m d ds}, mark m → isAsciiDigit d →
    f (m ++ d :: ds) =
      (m ++ (d :: ds).takeWhile digitOrUnderscore, (d :: ds).dropWhile digitOrUnderscore)
  none : ∀ {bs}, (∀ m d ds, mark m → isAsciiDigit d → bs ≠ m ++ d :: ds) → f bs = ([], bs)

theorem digitOrUnderscore_of_digit (hd : isAsciiDigit d) : digitOrUnderscore d := by
  rw [digitOrUnderscore, hd, Bool.or_true]

theorem Marked.scanner {mark : List Char → Prop}
    (hf : Marked mark f) (hmark : ∀ m, mark m → ∀ c ∈ m, ¬ Gap c) : Scanner Gap f where
  suffix bs := by
    by_cases h : ∃ m d ds, mark m ∧ isAsciiDigit d ∧ bs = m ++ d :: ds
    · obtain ⟨m, d, ds, hm, hd, rfl⟩ := h
      rw [hf.digits hm hd]
      exact (dropWhile_suffix _).trans (suffix_append _ _)
    · push Not at h
      rw [hf.none h]
  steady {t r r' b} hu heq := by
    by_cases h : ∃ m d ds, mark m ∧ isAsciiDigit d ∧ t ++ r = m ++ d :: ds
    · obtain ⟨m, d, ds, hm, hd, htr⟩ := h
      rw [htr, hf.digits hm hd] at heq
      obtain ⟨rfl, hrest⟩ := Prod.mk.inj heq
      -- the digit behind the mark was taken as well
      have htake : (d :: ds).takeWhile digitOrUnderscore = d :: ds.takeWhile digitOrUnderscore :=
        takeWhile_cons_of_pos (digitOrUnderscore_of_digit hd)
      set w := ds.takeWhile digitOrUnderscore with hw
      have hds : d :: ds = (d :: w) ++ r := by
        rw [← htake, ← hrest, takeWhile_append_dropWhile]
      obtain rfl : t = m ++ d :: w := by
        refine (append_left_inj r).1 ?_
        rw [htr, hds, append_assoc]
      rw [hds] at hrest
      have hall := (Scanner.munch (gap_not (p := digitOrUnderscore) (by decide))).steady hu
        (Prod.ext (takeWhile_eq hrest) hrest)
      obtain ⟨htake', hdrop'⟩ := Prod.mk.inj hall
      rw [append_assoc, cons_append, hf.digits hm hd, ← cons_append, htake', hdrop', htake]
    · push Not at h
      rw [hf.none h] at heq
      obtain ⟨rfl, hrest⟩ := Prod.mk.inj heq
      obtain rfl : t = [] := append_left_eq_self.1 hrest
      refine hf.none fun m d ds hm hd heq => ?_
      -- no blank and no comment adds a digit
      have hgap : ∀ c ∈ m ++ [d], ¬ Gap c := by
        intro c hc
        rcases mem_append.1 hc with hc | hc
        · exact hmark m hm c hc
        · obtain rfl := mem_singleton.1 hc
          intro hg
          have := gap_not (p := isAsciiDigit) (by decide) c hg
          rw [hd] at this
          cases this
      obtain ⟨z, hz⟩ := hu.of_append hgap (y := ds) (by simpa using heq)
      exact h m d z hm hd (by simpa using hz)

theorem Marked.split {mark : List Char → Prop}
    (hf : Marked mark f) (bs : List Char) : (f bs).1 ++ (f bs).2 = bs := by
  by_cases h : ∃ m d ds, mark m ∧ isAsciiDigit d ∧ bs = m ++ d :: ds
  · obtain ⟨m, d, ds, hm, hd, rfl⟩ := h
    rw [hf.digits hm hd, append_assoc, takeWhile_append_dropWhile]
  · push Not at h
    rw [hf.none h, nil_append]

theorem fraction_marked : Marked (· = ['.']) fraction where
  digits hm hd := by
    subst hm
    simp [fraction, hd]
  none {bs} h := by
    unfold fraction
    split
    · rename_i d rest
      rw [if_neg fun hd => h _ d rest rfl hd rfl]
    · rfl

theorem exponent_marked :
    Marked (fun m => ∃ e, (e = 'e' ∨ e = 'E') ∧ (m = [e] ∨ m = [e, '+'] ∨ m = [e, '-'])) exponent where
  digits {m d ds} hm hd := by
    have hsign : (d == '+' || d == '-') = false := by
      simp only [Bool.or_eq_false_iff, beq_eq_false_iff_ne]
      constructor <;> rintro rfl <;> cases hd
    obtain ⟨e, he, rfl | rfl | rfl⟩ := hm
    · simp [exponent, he, hd, hsign]
    · simp [exponent, he, hd, hsign]
    · simp [exponent, he, hd, hsign]
  none {bs} h := by
    unfold exponent
    split
    · rename_i e rest
      dsimp only
      split_ifs with he hd
      · -- the mark is the letter with the sign that may follow it
        exfalso
        rcases rest with _ | ⟨c, rest⟩
        · cases hd
        by_cases hc : c = '+' ∨ c = '-'
        · have hsign : (c == '+' || c == '-') = true := by simpa using hc
          rw [takeWhile_cons, if_pos hsign, take_succ_cons, take_zero] at hd
          rcases rest with _ | ⟨d, ds⟩
          · cases hd
          · refine h [e, c] d ds ⟨e, he, .inr ?_⟩ hd rfl
            exact hc.imp (congrArg ([e, ·])) (congrArg ([e, ·]))
        · have hsign : ¬ (c == '+' || c == '-') = true := by simpa using hc
          rw [takeWhile_cons, if_neg hsign] at hd
          exact h [e] c rest ⟨e, he, .inl rfl⟩ hd rfl
      · rfl
      · rfl
    · rfl

/-- What a number is that is written without a base. -/
def decimalKind (F : String → F64) (whole frac exp : List Char) : TokenKind :=
  if frac ++ exp ≠ [] then .float (F (.ofList ((whole ++ frac ++ exp).filter (· ≠ '_'))))
  else .number (i64OfDigits 10 whole)

theorem lexDecimal_scanner (F : String → F64) (c : Char) : Scanner Gap (lexDecimal F c) := by
  have hdigits : Scanner Gap fun bs : List Char =>
      (bs.takeWhile digitOrUnderscore, bs.dropWhile digitOrUnderscore) :=
    .munch (gap_not (p := digitOrUnderscore) (by decide))
  have hfraction : Scanner Gap fraction := by
    refine fraction_marked.scanner ?_
    rintro m rfl
    simp [Gap, isBlank]
  have hexponent : Scanner Gap exponent := by
    refine exponent_marked.scanner ?_
    rintro m ⟨e, rfl | rfl, rfl | rfl | rfl⟩ <;> simp [Gap, isBlank]
  refine (hdigits.seq fun w => hfraction.seq fun f => hexponent.seq fun e =>
    .stay (decimalKind F (c :: w) f e)).congr fun bs => ?_
  unfold lexDecimal decimalKind
  dsimp only
  split_ifs <;> rfl

/-- The digits behind the letter of a base. -/
def radixNumber (base : Nat) (isDigit : Char → Bool) (bs : List Char) : TokenKind × List Char :=
  (.number (i64OfDigits base (bs.takeWhile isDigit)), bs.dropWhile isDigit)

theorem lexNumber_eq (F : String → F64) (c : Char) (bs : List Char) : lexNumber F c bs =
      if c = '0' then
        if bs.head? = some 'x' then radixNumber 16 (fun c => c == '_' || isHexDigit c) bs.tail
        else if bs.head? = some 'X' then
          radixNumber 16 (fun c => c == '_' || isHexDigit c) bs.tail
        else if bs.head? = some 'b' then
          radixNumber 2 (fun c => c == '_' || c == '0' || c == '1') bs.tail
        else if bs.head? = some 'B' then
          radixNumber 2 (fun c => c == '_' || c == '0' || c == '1') bs.tail
        else lexDecimal F c bs else lexDecimal F c bs := by
  unfold lexNumber
  split
  iterate 4 rfl
  rename_i hx hX hb hB
  have hhead : ∀ {d : Char}, (∀ rest, c = '0' → bs = d :: rest → False) →
      c = '0' → bs.head? ≠ some d := by
    intro d hd hc h
    obtain ⟨rest, rfl⟩ := head?_eq_some_iff.1 h
    exact hd rest hc rfl
  split_ifs with hzero h h h h
  · exact absurd h (hhead hx hzero)
  · exact absurd h (hhead hX hzero)
  · exact absurd h (hhead hb hzero)
  · exact absurd h (hhead hB hzero)
  · rfl
  · rfl

theorem lexNumber_scanner (F : String → F64) (c : Char) : Scanner Gap (lexNumber F c) := by
  have hradix : ∀ base p, [' ', '\n', '\r', '\t', '/'].any p = false →
      Scanner Gap (radixNumber base p) := fun base p hp =>
    ((Scanner.munch (gap_not hp)).seq fun ds =>
      .stay (TokenKind.number (i64OfDigits base ds))).congr fun _ => rfl
  have hhex := hradix 16 (fun c => c == '_' || isHexDigit c) (by decide)
  have hbin := hradix 2 (fun c => c == '_' || c == '0' || c == '1') (by decide)
  have hdecimal := lexDecimal_scanner F c
  by_cases hc : c = '0'
  · refine (Scanner.ahead (d := 'x') (by decide) hhex (.ahead (d := 'X') (by decide) hhex
      (.ahead (d := 'b') (by decide) hbin (.ahead (d := 'B') (by decide) hbin
      hdecimal)))).congr fun bs => ?_
    rw [lexNumber_eq, if_pos hc]
  · refine hdecimal.congr fun bs => ?_
    rw [lexNumber_eq, if_neg hc]

theorem lexWord_scanner (c : Char) : Scanner Gap (lexWord c) :=
  ((Scanner.munch (gap_not (p := isIdentContinue) (by decide))).seq fun w =>
    .stay (wordKind (.ofList (c :: w)))).congr fun _ => rfl

/-! ## What is left is the end of the input -/

/-- How many digits an escape takes. -/
def escapeLength (c : Char) : Nat :=
  if c = 'x' then 2 else if c = 'u' then 4 else if c = 'U' then 8 else 0

theorem lexEscape_rest (c : Char) (bs : List Char) :
    (lexEscape c bs).2 = bs.drop (escapeLength c) := by
  unfold lexEscape escapeLength
  split <;> simp_all [escapeCode]

theorem stringLoop_nil (n : Nat) : stringLoop n [] = (none, []) := by cases n <;> rfl

theorem stringLoop_succ (n : Nat) (c : Char) (bs : List Char) : stringLoop (n + 1) (c :: bs) =
      if c = '"' then (some [], bs)
      else if c = '\\' then
        match bs with
        | [] => (none, [])
        | d :: bs =>
          ((stringLoop n (lexEscape d bs).2).1.map ((lexEscape d bs).1.inString ++ ·),
            (stringLoop n (lexEscape d bs).2).2)
      else ((stringLoop n bs).1.map (c :: ·), (stringLoop n bs).2) := by
  by_cases hquote : c = '"'
  · subst hquote
    rfl
  · rw [if_neg hquote]
    split_ifs with hslash
    · subst hslash
      cases bs <;> rfl
    · exact stringLoop.eq_6 n c bs hquote (fun h _ => hslash h) fun _ _ h _ => hslash h

theorem stringLoop_suffix (n : Nat) (bs : List Char) : (stringLoop n bs).2 <:+ bs := by
  induction n generalizing bs with
  | zero => exact suffix_rfl
  | succ n ih =>
    cases bs with
    | nil => exact suffix_rfl
    | cons c bs =>
      rw [stringLoop_succ]
      split_ifs
      · exact suffix_cons _ _
      · cases bs with
        | nil => exact nil_suffix
        | cons d bs =>
          have hescape : (lexEscape d bs).2 <:+ bs := by
            rw [lexEscape_rest]
            exact drop_suffix _ _
          exact (ih _).trans (hescape.trans ((suffix_cons _ _).trans (suffix_cons _ _)))
      · exact (ih _).trans (suffix_cons _ _)

theorem rawLoop_suffix (bs : List Char) : (rawLoop bs).2 <:+ bs := by
  induction bs using rawLoop.induct with
  | case1 bs => exact ⟨['"', '"', '"'], rfl⟩
  | case2 c bs hno ih =>
    rw [rawLoop]
    · exact ih.trans (suffix_cons _ _)
    · exact hno
  | case3 => exact suffix_rfl

theorem stringToken_rest (r : Option (List Char) × List Char) : (stringToken r).2 = r.2 := by
  obtain ⟨_ | s, rest⟩ := r <;> rfl

theorem lexString_suffix (bs : List Char) : (lexString bs).2 <:+ bs := by
  unfold lexString
  split
  · rename_i bs
    rw [stringToken_rest]
    exact (rawLoop_suffix bs).trans ⟨['"', '"'], rfl⟩
  · rw [stringToken_rest]
    exact stringLoop_suffix _ _

/-- What a character literal stands for, and what is left to be the closing quote. -/
def charBody : List Char → Char × List Char
  | '\\' :: c :: bs => ((lexEscape c bs).1.inChar, (lexEscape c bs).2)
  | ['\\'] => ('\x00', [])
  | c :: bs => (c, bs)
  | [] => ('\x00', [])

theorem lexChar_eq (bs : List Char) : lexChar bs =
      if (charBody bs).2.head? = some '\'' then (.charLit (charBody bs).1, (charBody bs).2.tail)
      else (.unknown '\'', (charBody bs).2) := by
  rfl

theorem charBody_suffix (bs : List Char) : (charBody bs).2 <:+ bs := by
  unfold charBody
  split
  · rename_i d bs
    rw [lexEscape_rest]
    exact (drop_suffix _ _).trans ⟨['\\', d], rfl⟩
  · exact nil_suffix
  · exact suffix_cons _ _
  · exact suffix_rfl

theorem lexChar_suffix (bs : List Char) : (lexChar bs).2 <:+ bs := by
  rw [lexChar_eq]
  split_ifs
  · exact (tail_suffix _).trans (charBody_suffix bs)
  · exact charBody_suffix bs

theorem docBlockLoop_suffix (bs : List Char) : (docBlockLoop bs).2 <:+ bs := by
  induction bs using docBlockLoop.induct with
  | case1 a b bs h =>
    rw [docBlockLoop, if_pos h]
    exact ⟨[a, b], rfl⟩
  | case2 a b bs h ih =>
    rw [docBlockLoop, if_neg h]
    exact ih.trans (suffix_cons _ _)
  | case3 bs h =>
    rw [docBlockLoop.eq_2 bs h]

theorem afterBlock_suffix (depth : Nat) (bs : List Char) : afterBlock depth bs <:+ bs := by
  induction depth, bs using afterBlock.induct with
  | case1 depth a b bs h ih =>
    rw [afterBlock, if_pos h]
    exact ih.trans ⟨[a, b], rfl⟩
  | case2 a b bs hopen h =>
    rw [afterBlock, if_neg hopen, if_pos h, if_pos rfl]
    exact ⟨[a, b], rfl⟩
  | case3 depth a b bs hopen h hdepth ih =>
    rw [afterBlock, if_neg hopen, if_pos h, if_neg hdepth]
    exact ih.trans ⟨[a, b], rfl⟩
  | case4 depth a b bs hopen h ih =>
    rw [afterBlock, if_neg hopen, if_neg h]
    exact ih.trans (suffix_cons _ _)
  | case5 depth bs h =>
    rw [afterBlock.eq_2 depth bs h]

theorem afterLine_suffix (bs : List Char) : afterLine bs <:+ bs :=
  (tail_suffix _).trans (dropWhile_suffix _)

theorem lexSlash_suffix (bs : List Char) : (lexSlash bs).2 <:+ bs := by
  unfold lexSlash
  split
  · exact suffix_cons _ _
  · exact (dropWhile_suffix _).trans ⟨['/', '/'], rfl⟩
  · exact (docBlockLoop_suffix _).trans ⟨['*', '*'], rfl⟩
  · exact (afterLine_suffix _).trans (suffix_cons _ _)
  · exact (afterBlock_suffix _ _).trans (suffix_cons _ _)
  · exact suffix_rfl

theorem lexKind_suffix (F : String → F64) (c : Char) (bs : List Char) :
    (lexKind F (c :: bs)).2 <:+ bs := by
  rw [lexKind]
  by_cases hslash : c = '/'
  · rw [if_pos hslash]
    exact lexSlash_suffix bs
  · rw [if_neg hslash]
    cases hp : lexPunct c bs with
    | some r =>
      obtain ⟨f, hf, rfl, -⟩ := lexPunct_scanner hp
      exact hf.suffix bs
    | none =>
      split_ifs
      · exact (lexNumber_scanner F c).suffix bs
      · exact lexString_suffix bs
      · exact lexChar_suffix bs
      · exact (lexWord_scanner c).suffix bs
      · exact suffix_rfl

theorem lexKind_split (h : lexKind F bs = (k, rest)) :
    ∃ text, bs = text ++ rest ∧ (bs ≠ [] → text ≠ []) := by
  cases bs with
  | nil =>
    obtain rfl : [] = rest := congrArg Prod.snd h
    exact ⟨[], rfl, absurd rfl⟩
  | cons c bs =>
    obtain ⟨t, ht⟩ : rest <:+ bs := by
      have hsuffix := lexKind_suffix F c bs
      rwa [h] at hsuffix
    exact ⟨c :: t, by rw [← ht, cons_append], fun _ => cons_ne_nil _ _⟩

/-- The rest of a block comment opened `d` times, up to its last end. -/
inductive Closes : Nat → List Char → Prop where
  | done : Closes 0 []
  | start {d w} : Closes (d + 2) w → Closes (d + 1) ('/' :: '*' :: w)
  | stop {d w} : Closes d w → Closes (d + 1) ('*' :: '/' :: w)
  | char {d c w} : ¬ (c = '/' ∧ w.head? = some '*') → ¬ (c = '*' ∧ w.head? = some '/') →
      Closes (d + 1) w → Closes (d + 1) (c :: w)

/-- A complete comment that is no documentation. -/
inductive Comment : List Char → Prop where
  | line {w} : '\n' ∉ w → w.head? ≠ some '/' → Comment ('/' :: '/' :: (w ++ ['\n']))
  | block {w} : w.head? ≠ some '*' → Closes 1 w → Comment ('/' :: '*' :: w)

/-- Blanks and complete comments. -/
inductive Trivia : List Char → Prop where
  | nil : Trivia []
  | blank {c w} : isBlank c → Trivia w → Trivia (c :: w)
  | comment {u w} : Comment u → Trivia w → Trivia (u ++ w)

/-- What may stand in front of `rest`: trivia, or a comment that the text does not end. -/
inductive Between : List Char → List Char → Prop where
  | trivia {g rest} : Trivia g → Between g rest
  | openLine {g w} : Trivia g → '\n' ∉ w → w.head? ≠ some '/' →
      Between (g ++ '/' :: '/' :: w) []
  | openBlock {g w rest} : Trivia g → (w ++ rest).head? ≠ some '*' →
      (∀ u v, w ++ rest = u ++ v → ¬ Closes 1 u) → rest.length ≤ 1 →
      Between (g ++ '/' :: '*' :: w) rest

theorem Trivia.append {g w : List Char} (hg : Trivia g) (hw : Trivia w) : Trivia (g ++ w) := by
  induction hg with
  | nil => exact hw
  | blank hc _ ih => exact .blank hc ih
  | comment hu _ ih =>
    rw [append_assoc]
    exact .comment hu ih

theorem Trivia.between {g w rest : List Char} (hg : Trivia g) (hw : Between w rest) :
    Between (g ++ w) rest := by
  cases hw with
  | trivia hw => exact .trivia (hg.append hw)
  | openLine hw hline hdoc =>
    rw [← append_assoc]
    exact .openLine (hg.append hw) hline hdoc
  | openBlock hw hdoc hopen hlen =>
    rw [← append_assoc]
    exact .openBlock (hg.append hw) hdoc hopen hlen

variable {w : List Char}

theorem Closes.eq_nil {d : Nat} (h : Closes d w) (hd : d = 0) : w = [] := by
  cases h <;> first | rfl | cases hd

theorem Closes.afterBlock_append {d : Nat} (h : Closes d w) (hd : d ≠ 0)
    (rest : List Char) : afterBlock d (w ++ rest) = rest := by
  induction h with
  | done => exact absurd rfl hd
  | start _ ih =>
    exact ih (Nat.succ_ne_zero _)
  | @stop d w hw ih =>
    rw [cons_append, cons_append, afterBlock, if_neg (by decide), if_pos ⟨rfl, rfl⟩]
    by_cases hone : d + 1 = 1
    · obtain rfl : d = 0 := by omega
      rw [if_pos rfl, hw.eq_nil rfl]
      rfl
    · rw [if_neg hone]
      exact ih (by omega)
  | @char d c w hstart hstop hw ih =>
    obtain ⟨e, w, rfl⟩ : ∃ e w', w = e :: w' := by
      cases w with
      | nil => cases hw
      | cons e w => exact ⟨e, w, rfl⟩
    rw [cons_append, cons_append, afterBlock, if_neg (by simpa using hstart),
      if_neg (by simpa using hstop)]
    exact ih hd

theorem afterBlock_split (d : Nat) (bs : List Char) (hd : d ≠ 0) :
    ∃ w, bs = w ++ afterBlock d bs ∧ (Closes d w ∨ (afterBlock d bs).length ≤ 1) := by
  obtain ⟨d, rfl⟩ := Nat.exists_eq_succ_of_ne_zero hd
  clear hd
  generalize hlen : bs.length = n
  -- every step takes a byte at least
  induction n using Nat.strong_induction_on generalizing d bs with
  | _ n ih =>
    match bs with
    | [] => exact ⟨[], rfl, .inr (Nat.zero_le _)⟩
    | [c] => exact ⟨[], rfl, .inr (Nat.le_refl 1)⟩
    | a :: b :: bs =>
      simp only [length_cons] at hlen
      rw [afterBlock]
      by_cases hstart : a = '/' ∧ b = '*'
      · obtain ⟨w, hw, hclose⟩ := ih bs.length (by omega) bs (d + 1) rfl
        rw [if_pos hstart]
        obtain ⟨rfl, rfl⟩ := hstart
        exact ⟨'/' :: '*' :: w, by rw [cons_append, cons_append, ← hw], hclose.imp_left .start⟩
      · rw [if_neg hstart]
        by_cases hstop : a = '*' ∧ b = '/'
        · rw [if_pos hstop]
          obtain ⟨rfl, rfl⟩ := hstop
          obtain _ | d := d
          · exact ⟨['*', '/'], rfl, .inl (.stop .done)⟩
          · obtain ⟨w, hw, hclose⟩ := ih bs.length (by omega) bs d rfl
            rw [if_neg (by omega)]
            exact ⟨'*' :: '/' :: w, by rw [cons_append, cons_append, Nat.succ_sub_one, ← hw],
              hclose.imp_left .stop⟩
        · rw [if_neg hstop]
          obtain ⟨w, hw, hclose⟩ := ih (b :: bs).length (by simp only [length_cons]; omega) _ d rfl
          refine ⟨a :: w, by rw [cons_append, ← hw], ?_⟩
          rcases hclose with hclose | hlen
          · obtain ⟨w, rfl⟩ : ∃ w', w = b :: w' := by
              cases w with
              | nil => cases hclose
              | cons e w =>
                obtain rfl : b = e := (cons.inj hw).1
                exact ⟨w, rfl⟩
            exact .inl (.char (by simpa using hstart) (by simpa using hstop) hclose)
          · exact .inr hlen

/-! ## Skipping -/

/-- Neither blank nor the start of a comment. -/
def AtToken (bs : List Char) : Prop :=
  (∀ c ∈ bs.head?, isBlank c = false) ∧ (∀ r, bs = '/' :: '/' :: r → r.head? = some '/') ∧
    ∀ r, bs = '/' :: '*' :: r → r.head? = some '*'

theorem start_cases (bs : List Char) :
    (∃ c r, bs = c :: r ∧ isBlank c) ∨ (∃ r, bs = '/' :: '/' :: r ∧ r.head? ≠ some '/') ∨
      (∃ r, bs = '/' :: '*' :: r ∧ r.head? ≠ some '*') ∨ AtToken bs := by
  by_cases hblank : ∃ c r, bs = c :: r ∧ isBlank c
  · exact .inl hblank
  by_cases hline : ∃ r, bs = '/' :: '/' :: r ∧ r.head? ≠ some '/'
  · exact .inr (.inl hline)
  by_cases hblock : ∃ r, bs = '/' :: '*' :: r ∧ r.head? ≠ some '*'
  · exact .inr (.inr (.inl hblock))
  · push Not at hblank hline hblock
    refine .inr (.inr (.inr ⟨fun c hc => ?_, hline, hblock⟩))
    cases bs with
    | nil => cases hc
    | cons d bs =>
      obtain rfl := some.inj hc
      exact Bool.eq_false_iff.2 (hblank d bs rfl)

theorem skipTrivia_blank (n : Nat) (hc : isBlank c) (bs : List Char) :
    skipTrivia (n + 1) (c :: bs) = skipTrivia (n + 1) bs := by
  rw [skipTrivia, dropWhile_cons_of_pos hc, skipTrivia]

variable {r : List Char}

theorem skipTrivia_line (n : Nat) (hr : r.head? ≠ some '/') :
    skipTrivia (n + 1) ('/' :: '/' :: r) = skipTrivia n (afterLine r) := by
  exact if_neg hr

theorem skipTrivia_block (n : Nat) (hr : r.head? ≠ some '*') :
    skipTrivia (n + 1) ('/' :: '*' :: r) = skipTrivia n (afterBlock 1 r) := by
  exact if_neg hr

theorem skipTrivia_token (n : Nat) (h : AtToken bs) : skipTrivia n bs = bs := by
  cases n with
  | zero => rfl
  | succ n =>
    have hdrop : bs.dropWhile isBlank = bs := by
      cases bs with
      | nil => rfl
      | cons c bs => exact dropWhile_cons_of_neg (by simp [h.1 c rfl])
    rw [skipTrivia, hdrop]
    split
    · exact if_pos (h.2.1 _ rfl)
    · exact if_pos (h.2.2 _ rfl)
    · rfl

theorem skipTrivia_fuel {n m : Nat} (hn : bs.length < n) (hm : bs.length < m) :
    skipTrivia n bs = skipTrivia m bs := by
  generalize hlen : bs.length = l
  induction l using Nat.strong_induction_on generalizing bs n m with
  | _ l ih =>
    obtain ⟨n, rfl⟩ := Nat.exists_eq_succ_of_ne_zero (Nat.ne_zero_of_lt hn)
    obtain ⟨m, rfl⟩ := Nat.exists_eq_succ_of_ne_zero (Nat.ne_zero_of_lt hm)
    rcases start_cases bs with ⟨c, r, rfl, hc⟩ | ⟨r, rfl, hr⟩ | ⟨r, rfl, hr⟩ | h
    · simp only [length_cons] at hn hm hlen
      rw [skipTrivia_blank n hc, skipTrivia_blank m hc]
      exact ih r.length (by omega) (by omega) (by omega) rfl
    · have hle := (afterLine_suffix r).length_le
      simp only [length_cons] at hn hm hlen
      rw [skipTrivia_line n hr, skipTrivia_line m hr]
      exact ih _ (by omega) (by omega) (by omega) rfl
    · have hle := (afterBlock_suffix 1 r).length_le
      simp only [length_cons] at hn hm hlen
      rw [skipTrivia_block n hr, skipTrivia_block m hr]
      exact ih _ (by omega) (by omega) (by omega) rfl
    · rw [skipTrivia_token _ h, skipTrivia_token _ h]

/-- What `next_token` skips first. -/
def skip (bs : List Char) : List Char := skipTrivia (bs.length + 1) bs

theorem skip_blank (hc : isBlank c) (bs : List Char) : skip (c :: bs) = skip bs := by
  rw [skip, skipTrivia_blank _ hc]
  exact skipTrivia_fuel (by simp) (by simp)

theorem skip_line (hr : r.head? ≠ some '/') : skip ('/' :: '/' :: r) = skip (afterLine r) := by
  have hle := (afterLine_suffix r).length_le
  rw [skip, skipTrivia_line _ hr]
  exact skipTrivia_fuel (by simp only [length_cons]; omega) (Nat.lt_succ_self _)

theorem skip_block (hr : r.head? ≠ some '*') : skip ('/' :: '*' :: r) = skip (afterBlock 1 r) := by
  have hle := (afterBlock_suffix 1 r).length_le
  rw [skip, skipTrivia_block _ hr]
  exact skipTrivia_fuel (by simp only [length_cons]; omega) (Nat.lt_succ_self _)

theorem skip_token (h : AtToken bs) : skip bs = bs := skipTrivia_token _ h

theorem afterLine_append (hw : '\n' ∉ w) (bs : List Char) : afterLine (w ++ '\n' :: bs) = bs := by
  rw [afterLine, dropWhile_append_of_pos fun c hc => by
    simpa using ne_of_mem_of_not_mem hc hw]
  rfl

theorem Trivia.skip_append (h : Trivia w) (bs : List Char) : skip (w ++ bs) = skip bs := by
  induction h with
  | nil => rfl
  | blank hc _ ih => rw [cons_append, skip_blank hc, ih]
  | @comment u w hu _ ih =>
    rw [append_assoc, ← ih]
    cases hu with
    | @line v hv hdoc =>
      have hhead : (v ++ '\n' :: (w ++ bs)).head? ≠ some '/' := by
        cases v with
        | nil => simp
        | cons c v => exact hdoc
      simp only [cons_append, append_assoc, nil_append]
      rw [skip_line hhead, afterLine_append hv]
    | @block v hdoc hv =>
      have hhead : (v ++ (w ++ bs)).head? ≠ some '*' := by
        cases v with
        | nil => cases hv
        | cons c v => exact hdoc
      simp only [cons_append]
      rw [skip_block hhead, hv.afterBlock_append Nat.one_ne_zero]

theorem skip_split (bs : List Char) :
    ∃ g, bs = g ++ skip bs ∧ Between g (skip bs) ∧ AtToken (skip bs) := by
  generalize hlen : bs.length = n
  induction n using Nat.strong_induction_on generalizing bs with
  | _ n ih =>
    rcases start_cases bs with ⟨c, r, rfl, hc⟩ | ⟨r, rfl, hr⟩ | ⟨r, rfl, hr⟩ | h
    · obtain ⟨g, hg, hbetween, hat⟩ := ih r.length (by simp [← hlen]) r rfl
      rw [skip_blank hc]
      refine ⟨c :: g, by rw [cons_append, ← hg], ?_, hat⟩
      exact (Trivia.blank hc .nil).between hbetween
    · rw [skip_line hr]
      by_cases hend : '\n' ∈ r
      · obtain ⟨w, r, rfl, hw⟩ := eq_append_cons_of_mem hend
        simp only [length_append, length_cons] at hlen
        obtain ⟨g, hg, hbetween, hat⟩ := ih r.length (by omega) r rfl
        have hdoc : w.head? ≠ some '/' := by
          cases w with
          | nil => exact nofun
          | cons c w => exact hr
        rw [afterLine_append hw]
        have hcomment := Trivia.comment (.line hw hdoc) .nil
        refine ⟨_, ?_, hcomment.between hbetween, hat⟩
        nth_rewrite 1 [hg]
        simp
      · have hafter : afterLine r = [] := by
          rw [afterLine, dropWhile_eq_nil_iff.2 fun c hc => by
            simpa using ne_of_mem_of_not_mem hc hend]
          rfl
        rw [hafter]
        exact ⟨'/' :: '/' :: r, by simp [skip, skipTrivia], .openLine .nil hend hr,
          by simp [skip, skipTrivia, AtToken]⟩
    · simp only [length_cons] at hlen
      rw [skip_block hr]
      have hle := (afterBlock_suffix 1 r).length_le
      obtain ⟨g, hg, hbetween, hat⟩ := ih (afterBlock 1 r).length (by omega) _ rfl
      by_cases hclose : ∃ w v, r = w ++ v ∧ Closes 1 w
      · obtain ⟨w, v, rfl, hw⟩ := hclose
        rw [hw.afterBlock_append Nat.one_ne_zero] at hg hbetween hat ⊢
        have hdoc : w.head? ≠ some '*' := by
          cases w with
          | nil => cases hw
          | cons c w => exact hr
        have hcomment := Trivia.comment (.block hdoc hw) .nil
        refine ⟨_, ?_, hcomment.between hbetween, hat⟩
        nth_rewrite 1 [hg]
        simp
      · -- the comment runs to the end of the text
        push Not at hclose
        obtain ⟨w, hw, hone⟩ := afterBlock_split 1 r Nat.one_ne_zero
        have hone : (afterBlock 1 r).length ≤ 1 := hone.resolve_left (hclose w _ hw)
        have hr' : r = (w ++ g) ++ skip (afterBlock 1 r) := by rw [append_assoc, ← hg, ← hw]
        have hlen' := congrArg length hg
        rw [length_append] at hlen'
        refine ⟨'/' :: '*' :: (w ++ g), by rw [cons_append, cons_append, ← hr'], ?_, hat⟩
        refine .openBlock (g := []) .nil ?_ ?_ (by omega)
        · rwa [← hr']
        · rwa [← hr']
    · rw [skip_token h]
      exact ⟨[], rfl, .trivia .nil, h⟩

/-! ## The tokens of a text -/

/-- The keywords, operators and other kinds that carry nothing. -/
def TokenKind.isFixed : TokenKind → Bool
  | .ident _ | .number _ | .float _ | .charLit _ | .stringLit _ | .docLine _ | .docBlock _ | .eof
  | .unknown _ => false
  | _ => true

theorem wordKind_fixed (w : String) : (wordKind w).isFixed ∨ wordKind w = .ident w := by
  rw [wordKind]
  cases hl : keywords.lookup w with
  | none => exact .inr rfl
  | some k =>
    have hall : keywords.all (fun e => e.2.isFixed) = true := by decide
    obtain ⟨l₁, l₂, hl, -⟩ := lookup_eq_some_iff.1 hl
    exact .inl (all_eq_true.1 hall (w, k) (by rw [hl]; simp))

theorem orWith_fixed {two one : TokenKind} (htwo : two.isFixed) (hone : one.isFixed) :
    (orWith d two one bs).1.isFixed := by
  unfold orWith
  split
  · exact htwo
  · exact hone

theorem lexPunct_fixed {r : TokenKind × List Char} (h : lexPunct c bs = some r) : r.1.isFixed := by
  unfold lexPunct at h
  split at h <;> cases h
  all_goals first
    | rfl
    | exact orWith_fixed rfl rfl
    | (split_ifs <;> first | rfl | exact orWith_fixed rfl rfl)

theorem lexNumber_ne_eof (F : String → F64) (c : Char) (bs : List Char) :
    (lexNumber F c bs).1 ≠ .eof := by
  unfold lexNumber lexDecimal
  dsimp only
  split
  iterate 4 exact nofun
  split_ifs <;> exact nofun

theorem stringToken_ne_eof (r : Option (List Char) × List Char) : (stringToken r).1 ≠ .eof := by
  obtain ⟨_ | s, rest⟩ := r <;> exact nofun

theorem lexString_ne_eof (bs : List Char) : (lexString bs).1 ≠ .eof := by
  unfold lexString
  split <;> exact stringToken_ne_eof _

theorem lexChar_ne_eof (bs : List Char) : (lexChar bs).1 ≠ .eof := by
  rw [lexChar_eq]
  split_ifs <;> exact nofun

theorem lexSlash_ne_eof (bs : List Char) : (lexSlash bs).1 ≠ some .eof := by
  unfold lexSlash
  split <;> exact nofun

theorem lexKind_ne_eof (F : String → F64) (c : Char) (bs : List Char) :
    (lexKind F (c :: bs)).1 ≠ some .eof := by
  rw [lexKind]
  by_cases hslash : c = '/'
  · rw [if_pos hslash]
    exact lexSlash_ne_eof bs
  · rw [if_neg hslash]
    intro h
    have h := some.inj h
    cases hp : lexPunct c bs with
    | some r =>
      rw [hp] at h
      have hfixed := lexPunct_fixed hp
      rw [h] at hfixed
      cases hfixed
    | none =>
      rw [hp] at h
      split_ifs at h
      · exact lexNumber_ne_eof F c bs h
      · exact lexString_ne_eof bs h
      · exact lexChar_ne_eof bs h
      · rcases wordKind_fixed (.ofList (c :: bs.takeWhile isIdentContinue)) with hfixed | hident
        · rw [show wordKind _ = .eof from h] at hfixed
          cases hfixed
        · cases h.symm.trans hident

theorem lexKind_at_token (F : String → F64) (h : AtToken bs) :
    ∃ k rest, lexKind F bs = (some k, rest) := by
  cases bs with
  | nil => exact ⟨_, _, rfl⟩
  | cons c bs =>
    rw [lexKind]
    by_cases hslash : c = '/'
    · subst hslash
      rw [if_pos rfl]
      unfold lexSlash
      split
      iterate 3 exact ⟨_, _, rfl⟩
      · rename_i r hno
        have hdoc := h.2.1 r rfl
        cases r with
        | nil => cases hdoc
        | cons d r =>
          cases hdoc
          exact absurd rfl (hno r)
      · rename_i r hno
        have hdoc := h.2.2 r rfl
        cases r with
        | nil => cases hdoc
        | cons d r =>
          cases hdoc
          exact absurd rfl (hno r)
      · exact ⟨_, _, rfl⟩
    · rw [if_neg hslash]
      exact ⟨_, _, rfl⟩

/-- `toks` are the tokens of the bytes left of a text of `len` bytes. -/
inductive Lexes (F : String → F64) (len : Nat) : List Char → List Token → Prop where
  | eof {bs : List Char} : skip bs = [] → Lexes F len bs [⟨.eof, len, len⟩]
  | token {bs text rest : List Char} {kind toks} : skip bs = text ++ rest →
      lexKind F (text ++ rest) = (some kind, rest) → text ≠ [] → Lexes F len rest toks →
      Lexes F len bs (⟨kind, len - (text ++ rest).length, len - rest.length⟩ :: toks)

theorem lexFrom_lexes (F : String → F64) (len n : Nat) (h : bs.length < n) :
    Lexes F len bs (lexFrom F len n bs) := by
  -- on the fuel, one for each byte and the end
  induction n generalizing bs with
  | zero => cases h
  | succ n ih =>
    obtain ⟨g, hg, -, hat⟩ := skip_split bs
    obtain ⟨k, rest, hk⟩ := lexKind_at_token F hat
    simp only [lexFrom]
    rw [show skipTrivia (bs.length + 1) bs = skip bs from rfl]
    cases hs : skip bs with
    | nil => exact .eof hs
    | cons c here =>
      rw [hs] at hk
      have hne : k ≠ .eof := by
        rintro rfl
        exact lexKind_ne_eof F c here (congrArg Prod.fst hk)
      obtain ⟨text, htext, hpos⟩ := lexKind_split hk
      have hpos := hpos (cons_ne_nil _ _)
      have hlen : rest.length < n := by
        have hbs := congrArg length hg
        have hhere := congrArg length htext
        have := length_pos_of_ne_nil hpos
        rw [hs] at hbs
        simp only [length_append] at hbs hhere
        omega
      rw [hk]
      rw [htext] at hs hk ⊢
      have hrest := ih hlen
      split
      · rename_i heq
        cases heq
      · rename_i heq
        cases heq
        exact absurd rfl hne
      · rename_i heq
        cases heq
        exact .token hs hk hpos hrest

theorem lexAll_lexes (F : String → F64) (s : String) :
    Lexes F (bytesOf s).length (bytesOf s) (lexAll F s) :=
  lexFrom_lexes F _ _ (Nat.lt_succ_self _)

theorem Lexes.unique {len : Nat} {toks toks' : List Token} (h : Lexes F len bs toks)
    (h' : Lexes F len bs toks') : toks = toks' := by
  induction h generalizing toks' with
  | eof hskip =>
    cases h' with
    | eof => rfl
    | token hskip' _ hne =>
      rw [hskip] at hskip'
      exact absurd (append_eq_nil_iff.1 hskip'.symm).1 hne
  | token hskip hkind hne _ ih =>
    cases h' with
    | eof hskip' =>
      rw [hskip] at hskip'
      exact absurd (append_eq_nil_iff.1 hskip').1 hne
    | token hskip' hkind' _ h' =>
      have hsame := hskip.symm.trans hskip'
      rw [hsame] at hkind
      obtain ⟨hk, rfl⟩ := Prod.mk.inj (hkind.symm.trans hkind')
      cases hk
      rw [hsame, ih h']

end Arth.Syntax
