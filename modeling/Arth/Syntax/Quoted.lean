import Arth.Syntax.Reading

/-!
# Between quotes

What the loops of the literals read up to the end of the literal does not depend on what follows.

* `stringLoop_iff` — what a string literal adds byte by byte and escape by escape.
* `rawLoop_iff` — a triple-quoted string ends at the first three quotes.
* `charBody_split`, `docBlockLoop_append` — character literals and doc blocks.
-/

namespace Arth.Syntax

open List Option

variable {bs w v rest : List Char} {n : Nat} {a : List Char} {k : TokenKind}

theorem escapeCode_append (ha : a.length = n) (w : List Char) :
    escapeCode n (a ++ w) = ((escapeCode n a).1, w) := by
  subst ha
  rw [escapeCode, escapeCode, take_left, drop_left, take_length]

theorem lexEscape_append {c : Char} (ha : a.length = escapeLength c)
    (w : List Char) : lexEscape c (a ++ w) = ((lexEscape c a).1, w) := by
  have hrest := lexEscape_rest c (a ++ w)
  rw [← ha, drop_left] at hrest
  refine Prod.ext ?_ hrest
  unfold lexEscape
  split
  iterate 7 rfl
  iterate 3 exact congrArg Prod.fst (escapeCode_append ha w)
  rfl

/-! ## Strings -/

/-- The bytes of a string literal up to the closing quote, and what they add to its value. -/
inductive Body : List Char → List Char → Prop where
  | nil : Body [] []
  | char {c w v} : c ≠ '"' → c ≠ '\\' → Body w v → Body (c :: w) (c :: v)
  | escape {c a w v} : a.length = escapeLength c → Body w v →
      Body ('\\' :: c :: (a ++ w)) ((lexEscape c a).1.inString ++ v)

theorem Body.stringLoop_eq (h : Body w v) (hn : w.length < n) (rest : List Char) :
    stringLoop n (w ++ '"' :: rest) = (some v, rest) := by
  obtain ⟨n, rfl⟩ := Nat.exists_eq_succ_of_ne_zero (Nat.ne_zero_of_lt hn)
  induction h generalizing n with
  | nil => rfl
  | @char c w v hquote hslash _ ih =>
    simp only [length_cons] at hn
    obtain ⟨n, rfl⟩ := Nat.exists_eq_succ_of_ne_zero (show n ≠ 0 by omega)
    rw [cons_append, stringLoop_succ, if_neg hquote, if_neg hslash, ih n (by omega)]
    rfl
  | @escape c a w v ha _ ih =>
    simp only [length_cons, length_append] at hn
    obtain ⟨n, rfl⟩ := Nat.exists_eq_succ_of_ne_zero (show n ≠ 0 by omega)
    rw [cons_append, stringLoop_succ, if_neg (by decide), if_pos rfl]
    simp only [cons_append, append_assoc]
    rw [lexEscape_append ha, ih n (by omega)]
    rfl

theorem stringLoop_body (hn : bs.length ≤ n) (h : stringLoop n bs = (some v, rest)) :
    ∃ w, Body w v ∧ bs = w ++ '"' :: rest := by
  -- on the fuel, one for each byte
  induction n generalizing bs v with
  | zero => cases h
  | succ n ih =>
    cases bs with
    | nil => cases h
    | cons c bs =>
      simp only [length_cons] at hn
      rw [stringLoop_succ] at h
      split_ifs at h with hquote hslash
      · cases h
        exact ⟨[], .nil, by rw [hquote, nil_append]⟩
      · cases bs with
        | nil => cases h
        | cons d bs =>
          obtain ⟨hmap, hrest⟩ := Prod.mk.inj h
          obtain ⟨v, hv, rfl⟩ := map_eq_some_iff.1 hmap
          rw [lexEscape_rest] at hv hrest
          simp only [length_cons] at hn
          obtain ⟨w, hw, hbs⟩ := ih (by rw [length_drop]; omega) (Prod.ext hv hrest)
          -- something is left, so the escape has all its digits
          have hlen : escapeLength d ≤ bs.length := by
            have hpos := congrArg length hbs
            rw [length_drop, length_append, length_cons] at hpos
            omega
          have ha : (bs.take (escapeLength d)).length = escapeLength d := by
            rw [length_take]
            omega
          have hsplit : bs = bs.take (escapeLength d) ++ bs.drop (escapeLength d) :=
            (take_append_drop _ _).symm
          refine ⟨'\\' :: d :: (bs.take (escapeLength d) ++ w), ?_, ?_⟩
          · have hescape := lexEscape_append ha (bs.drop (escapeLength d))
            rw [← hsplit] at hescape
            rw [hescape]
            exact .escape ha hw
          · rw [hslash, cons_append, cons_append, append_assoc, ← hbs, ← hsplit]
      · obtain ⟨hmap, hrest⟩ := Prod.mk.inj h
        obtain ⟨v, hv, rfl⟩ := map_eq_some_iff.1 hmap
        obtain ⟨w, hw, rfl⟩ := ih (by omega) (Prod.ext hv hrest)
        exact ⟨c :: w, .char hquote hslash hw, rfl⟩

theorem stringLoop_iff :
    stringLoop bs.length bs = (some v, rest) ↔ ∃ w, Body w v ∧ bs = w ++ '"' :: rest := by
  constructor
  · exact stringLoop_body le_rfl
  · rintro ⟨w, hw, rfl⟩
    exact hw.stringLoop_eq (by simp only [length_append, length_cons]; omega) rest

/-- The bytes hold no three quotes, not even with the first two of the end. -/
def Raw (w : List Char) : Prop := ¬ ['"', '"', '"'] <:+: w ++ ['"', '"']

theorem Raw.of_cons {c : Char} (h : Raw (c :: v)) : Raw v :=
  fun hv => h (infix_cons hv)

theorem starts_iff {c : Char} : ['"', '"', '"'] <+: c :: (v ++ '"' :: '"' :: '"' :: rest) ↔
      ['"', '"', '"'] <+: c :: (v ++ ['"', '"']) := by
  have hstarts : c :: (v ++ ['"', '"']) <+: c :: (v ++ '"' :: '"' :: '"' :: rest) :=
    ⟨'"' :: rest, by simp⟩
  refine ⟨fun h => prefix_of_prefix_length_le h hstarts ?_, fun h => h.trans hstarts⟩
  simp

theorem rawLoop_cons {c : Char} (h : ¬ ['"', '"', '"'] <+: c :: bs) :
    rawLoop (c :: bs) = ((rawLoop bs).1.map (c :: ·), (rawLoop bs).2) := by
  refine rawLoop.eq_2 c bs ?_
  rintro rest rfl rfl
  exact h ⟨rest, rfl⟩

theorem rawLoop_iff :
    rawLoop bs = (some v, rest) ↔ Raw v ∧ bs = v ++ '"' :: '"' :: '"' :: rest := by
  constructor
  · intro h
    induction bs using rawLoop.induct generalizing v with
    | case1 bs =>
      cases h
      exact ⟨by unfold Raw; decide, rfl⟩
    | case2 c bs hno ih =>
      rw [rawLoop.eq_2 c bs hno] at h
      obtain ⟨hmap, hrest⟩ := Prod.mk.inj h
      obtain ⟨v, hv, rfl⟩ := map_eq_some_iff.1 hmap
      obtain ⟨hraw, rfl⟩ := ih (Prod.ext hv hrest)
      refine ⟨fun hinfix => ?_, rfl⟩
      rcases List.infix_cons_iff.1 hinfix with hstarts | hinfix
      · obtain ⟨x, hx⟩ := (@starts_iff _ rest _).2 hstarts
        obtain ⟨rfl, htail⟩ := cons.inj hx
        exact hno x rfl htail.symm
      · exact hraw hinfix
    | case3 => cases h
  · rintro ⟨hraw, rfl⟩
    induction v with
    | nil => rfl
    | cons c v ih =>
      have hno : ¬ ['"', '"', '"'] <+: c :: (v ++ '"' :: '"' :: '"' :: rest) := fun h =>
        hraw (starts_iff.1 h).isInfix
      rw [cons_append, rawLoop_cons hno, ih hraw.of_cons]
      rfl

theorem stringToken_inv {p : Option (List Char) × List Char} (h : stringToken p = (k, rest))
    (hk : k ≠ .unknown '"') : ∃ v, p = (some v, rest) ∧ k = .stringLit (.ofList v) := by
  obtain ⟨_ | v, l⟩ := p
  · cases h
    exact absurd rfl hk
  · cases h
    exact ⟨v, rfl, rfl⟩

theorem lexString_plain (h : ¬ ['"', '"'] <+: bs) :
    lexString bs = stringToken (stringLoop bs.length bs) := by
  unfold lexString
  split
  · rename_i bs
    exact absurd ⟨bs, rfl⟩ h
  · rfl

theorem Body.not_quote (h : Body w v) : w.head? ≠ some '"' := by
  cases h with
  | nil => exact nofun
  | char hquote => exact fun h => hquote (some.inj h)
  | escape => exact fun h => absurd (some.inj h) (by decide)

theorem lexString_forms {t : List Char} (h : lexString (t ++ rest) = (k, rest))
    (hk : k ≠ .unknown '"') :
    (∃ v, Raw v ∧ t = '"' :: '"' :: (v ++ ['"', '"', '"']) ∧ k = .stringLit (.ofList v)) ∨
      ∃ w v, Body w v ∧ t = w ++ ['"'] ∧ ¬ ['"', '"'] <+: t ++ rest ∧
        k = .stringLit (.ofList v) := by
  by_cases hraw : ['"', '"'] <+: t ++ rest
  · obtain ⟨bs, hbs⟩ := hraw
    rw [← hbs] at h
    obtain ⟨v, hloop, rfl⟩ := stringToken_inv h hk
    obtain ⟨hv, rfl⟩ := rawLoop_iff.1 hloop
    refine .inl ⟨v, hv, (append_left_inj rest).1 ?_, rfl⟩
    rw [← hbs]
    simp
  · rw [lexString_plain hraw] at h
    obtain ⟨v, hloop, rfl⟩ := stringToken_inv h hk
    obtain ⟨w, hw, hbs⟩ := stringLoop_iff.1 hloop
    refine .inr ⟨w, v, hw, (append_left_inj rest).1 ?_, hraw, rfl⟩
    rw [hbs]
    simp

theorem charBody_char {c : Char} (hslash : c ≠ '\\') (bs : List Char) :
    charBody (c :: bs) = (c, bs) := by
  unfold charBody
  split
  · rename_i heq
    exact absurd (cons.inj heq).1 hslash
  · rename_i heq
    exact absurd (cons.inj heq).1 hslash
  · rename_i heq
    cases heq
    rfl
  · rename_i heq
    cases heq

theorem charBody_split (h : (charBody bs).2 = rest) (hrest : rest ≠ []) :
    ∃ t, bs = t ++ rest ∧ t ≠ [] ∧ ∀ rest', charBody (t ++ rest') = ((charBody bs).1, rest') := by
  generalize hc : (charBody bs).1 = c
  replace h : charBody bs = (c, rest) := Prod.ext hc h
  unfold charBody at h
  split at h
  · rename_i d bs
    obtain ⟨rfl, hdrop⟩ := Prod.mk.inj h
    rw [lexEscape_rest] at hdrop
    have hlen : escapeLength d ≤ bs.length := by
      have hpos := length_pos_of_ne_nil hrest
      rw [← hdrop, length_drop] at hpos
      omega
    have ha : (bs.take (escapeLength d)).length = escapeLength d := by
      rw [length_take]
      omega
    have hsplit : bs = bs.take (escapeLength d) ++ rest := by
      rw [← hdrop, take_append_drop]
    refine ⟨'\\' :: d :: bs.take (escapeLength d), ?_, cons_ne_nil _ _, fun rest' => ?_⟩
    · rw [cons_append, cons_append, ← hsplit]
    · have hescape : (lexEscape d bs).1 = (lexEscape d (bs.take (escapeLength d))).1 := by
        nth_rewrite 1 [hsplit]
        rw [lexEscape_append ha]
      rw [hescape, cons_append, cons_append, charBody, lexEscape_append ha]
  · cases h
    exact absurd rfl hrest
  · rename_i d bs hno hnil
    cases h
    have hslash : c ≠ '\\' := by
      rintro rfl
      cases rest with
      | nil => exact hrest rfl
      | cons d rest => exact hno d rest rfl rfl
    exact ⟨[c], rfl, cons_ne_nil _ _, charBody_char hslash⟩
  · cases h
    exact absurd rfl hrest

theorem docBlockLoop_append {s : List Char} (h : docBlockLoop (w ++ rest) = (s, rest))
    (hend : ['*', '/'] <:+ w) (rest' : List Char) : docBlockLoop (w ++ rest') = (s, rest') := by
  induction w generalizing s with
  | nil => exact absurd hend (by decide)
  | cons a w ih =>
    obtain ⟨b, w, rfl⟩ : ∃ b w', w = b :: w' := by
      cases w with
      | nil => exact absurd hend.length_le (by simp)
      | cons b w => exact ⟨b, w, rfl⟩
    rw [cons_append, cons_append, docBlockLoop] at h ⊢
    split_ifs at h ⊢ with hstop
    · obtain ⟨rfl, hrest⟩ := Prod.mk.inj h
      obtain rfl : w = [] := append_left_eq_self.1 hrest
      rfl
    · obtain ⟨rfl, hrest⟩ := Prod.mk.inj h
      have hend' : ['*', '/'] <:+ b :: w := by
        rcases suffix_cons_iff.1 hend with heq | hend
        · cases heq
          exact absurd ⟨rfl, rfl⟩ hstop
        · exact hend
      have hloop := ih (Prod.ext rfl hrest) hend'
      rw [cons_append] at hloop
      rw [hloop]
      rfl

end Arth.Syntax
