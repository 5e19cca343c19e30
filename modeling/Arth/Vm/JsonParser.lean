import Arth.Vm.JsonGrammar

/-!
# The JSON parser and its grammar

`parseJson_complete` and `parseJson_sound`: the parser gives a value and a rest exactly when the
grammar `Gram reads` does and what follows the value cannot be part of a numeral.
-/

namespace Arth.Json

open List Option

variable {F : FloatText}

/-- What `parse_json` does with a text that starts with this character. -/
def parseHead (F : FloatText) (n : ℕ) (c : Char) (r : Text) : Option (JsonVal × Text) :=
  if nullText.isPrefixOf (c :: r) then some (.null, (c :: r).drop 4)
  else if trueText.isPrefixOf (c :: r) then some (.bool true, (c :: r).drop 4)
  else if falseText.isPrefixOf (c :: r) then some (.bool false, (c :: r).drop 5)
  else if c = '"' then (parseJsonString (c :: r)).map fun p => (.string p.1, p.2)
  else if c = '[' then
    match trimStart r with
    | [] => none
    | d :: t => if d = ']' then some (.array [], t) else parseItems F n (d :: t) []
  else if c = '\x7b' then
    match trimStart r with
    | [] => none
    | d :: t => if d = '\x7d' then some (.object [], t) else parseMembers F n (d :: t) []
  else if c = '-' ∨ isDigit c = true then parseJsonNumber F (c :: r)
  else none

variable {c : Char} {s r t w rest k : Text} {r : Text}

theorem parseJson_succ (n : ℕ) (hs : trimStart s = c :: r) :
    parseJson F (n + 1) s = parseHead F n c r := by
  rw [parseJson.eq_def]
  simp only [hs]
  rfl

theorem parseJson_nil (n : ℕ) (hs : trimStart s = []) : parseJson F (n + 1) s = none := by
  rw [parseJson.eq_def]
  simp only [hs]

variable {n : ℕ} {d : Char}

theorem parseHead_array (n : ℕ) (hr : trimStart r = d :: t) :
    parseHead F n '[' r = if d = ']' then some (.array [], t) else parseItems F n (d :: t) [] := by
  simp [parseHead, nullText, trueText, falseText, hr]

theorem parseHead_object (n : ℕ) (hr : trimStart r = d :: t) : parseHead F n '\x7b' r =
      if d = '\x7d' then some (.object [], t) else parseMembers F n (d :: t) [] := by
  simp [parseHead, nullText, trueText, falseText, hr]

theorem parseHead_string (n : ℕ) (r : Text) :
    parseHead F n '"' r = (parseJsonString ('"' :: r)).map fun p => (.string p.1, p.2) := by
  simp [parseHead, nullText, trueText, falseText]

theorem parseHead_number (n : ℕ) (hc : c = '-' ∨ isDigit c = true) (r : Text) :
    parseHead F n c r = parseJsonNumber F (c :: r) := by
  have hne : ∀ d, d ≠ '-' → isDigit d = false → d ≠ c := by
    rintro d hminus hdigit rfl
    rcases hc with hc | hc
    · exact hminus hc
    · rw [hdigit] at hc
      cases hc
  simp [parseHead, nullText, trueText, falseText, hc, hne 'n' (by decide) (by decide),
    hne 't' (by decide) (by decide), hne 'f' (by decide) (by decide),
    (hne '"' (by decide) (by decide)).symm, (hne '[' (by decide) (by decide)).symm,
    (hne '\x7b' (by decide) (by decide)).symm]

/-- The parser takes the text for this output, with enough depth. -/
def Taken (F : FloatText) (s : Text) : Out → Text → Prop
  | .value v, r => Free inNumeral r → ∀ n, 2 * s.length ≤ n → parseJson F n s = some (v, r)
  | .items vs, r => ∀ n items, 2 * s.length + 1 ≤ n →
      parseItems F n (trimStart s) items = some (.array (items ++ vs), r) ∧
      ∃ d t, trimStart s = d :: t ∧ d ≠ ']'
  | .members ms, r => ∀ n items, 2 * s.length + 1 ≤ n →
      parseMembers F n (trimStart s) items = some (.object (items ++ ms), r) ∧
      ∃ d t, trimStart s = d :: t ∧ d ≠ '\x7d'

theorem parseJson_trimStart (n : ℕ) (s : Text) : parseJson F n (trimStart s) = parseJson F n s := by
  cases n with
  | zero =>
    rw [parseJson.eq_def, parseJson.eq_def]
  | succ n =>
    have hidem : trimStart (trimStart s) = trimStart s := by
      cases hs : trimStart s with
      | nil => rfl
      | cons c r =>
        have hc : isWhitespace c = false := by
          have := head?_dropWhile_not isWhitespace s
          unfold trimStart at hs
          rw [hs] at this
          simpa using this
        exact trimStart_cons hc r
    cases hs : trimStart s with
    | nil => rw [parseJson_nil n hs, parseJson_nil n (by rw [← hs, hidem, hs])]
    | cons c r => rw [parseJson_succ n hs, parseJson_succ n (by rw [← hs, hidem, hs])]

theorem Numeral.Wf.inNumeral {n : Numeral} (hn : n.Wf) : ∀ c ∈ n.text, inNumeral c = true := by
  intro c hc
  unfold Numeral.text at hc
  simp only [mem_append] at hc
  rcases hc with hc | hc | hc | hc
  · cases hneg : n.neg with
    | false => simp [hneg] at hc
    | true =>
      simp only [hneg, if_true, mem_singleton] at hc
      rw [hc]
      decide
  · exact digit_inNumeral c (hn.int c hc)
  · cases hfrac : n.frac with
    | none => simp [hfrac, fracText] at hc
    | some ds =>
      rw [hfrac] at hc
      rcases mem_cons.1 hc with rfl | hc
      · decide
      · exact digit_inNumeral c (hn.frac ds hfrac c hc)
  · cases hexp : n.exp with
    | none => simp [hexp, expText] at hc
    | some q =>
      obtain ⟨e, sign, ds⟩ := q
      obtain ⟨he, hsign, hds⟩ := hn.exp e sign ds hexp
      rw [hexp] at hc
      rcases mem_cons.1 hc with rfl | hc
      · rcases he with rfl | rfl
        · decide
        · decide
      rcases mem_append.1 hc with hc | hc
      · rcases hsign c (mem_toList.1 hc) with rfl | rfl
        · decide
        · decide
      · exact digit_inNumeral c (hds c hc)

variable {s r : Text} {o : Out}

theorem Gram.frame (h : Gram reads F s o r) :
    ∃ t c, s = t ++ c :: r ∧ isWhitespace c = false ∧ ∀ r', Gram reads F (t ++ c :: r') o r' := by
  induction h with
  | nullLit => exact ⟨['n', 'u', 'l'], 'l', rfl, by decide, fun _ => .nullLit⟩
  | trueLit => exact ⟨['t', 'r', 'u'], 'e', rfl, by decide, fun _ => .trueLit⟩
  | falseLit => exact ⟨['f', 'a', 'l', 's'], 'e', rfl, by decide, fun _ => .falseLit⟩
  | @number n r hn =>
    obtain ⟨d, t', heq, -⟩ := numeral_opens hn []
    have hne : n.text ≠ [] := by
      rw [append_nil] at heq
      rw [heq]
      exact cons_ne_nil d t'
    have hsplit := dropLast_append_getLast hne
    have happend : ∀ r', n.text ++ r' = n.text.dropLast ++ n.text.getLast hne :: r' := by
      intro r'
      conv_lhs => rw [← hsplit]
      rw [append_assoc]
      rfl
    refine ⟨_, _, happend r, ?_, fun r' => ?_⟩
    · by_contra hws
      have hin := hn.1.inNumeral _ (getLast_mem hne)
      rw [not_inNumeral_of_ws (by simpa using hws)] at hin
      cases hin
    · rw [← happend r']
      exact .number hn
  | @string b u r hb => exact ⟨'"' :: b, '"', rfl, by decide, fun _ => .string hb⟩
  | @arrayNil w r hw => exact ⟨'[' :: w, ']', rfl, by decide, fun _ => .arrayNil hw⟩
  | array _ ih =>
    obtain ⟨t, c, rfl, hc, ht⟩ := ih
    exact ⟨'[' :: t, c, rfl, hc, fun r' => .array (ht r')⟩
  | @objectNil w r hw => exact ⟨'\x7b' :: w, '\x7d', rfl, by decide, fun _ => .objectNil hw⟩
  | object _ ih =>
    obtain ⟨t, c, rfl, hc, ht⟩ := ih
    exact ⟨'\x7b' :: t, c, rfl, hc, fun r' => .object (ht r')⟩
  | @last w s w' r v hw hw' _ ih =>
    obtain ⟨t, c, rfl, -, ht⟩ := ih
    refine ⟨w ++ (t ++ c :: w'), ']', by simp, by decide, fun r' => ?_⟩
    have := Gram.last hw hw' (ht (w' ++ ']' :: r'))
    simpa using this
  | @item w s w' s' r v vs hw hw' _ _ ih ihs =>
    obtain ⟨t, c, rfl, -, ht⟩ := ih
    obtain ⟨t', c', rfl, hc', ht'⟩ := ihs
    refine ⟨w ++ (t ++ c :: (w' ++ ',' :: t')), c', by simp, hc', fun r' => ?_⟩
    have := Gram.item hw hw' (ht (w' ++ ',' :: (t' ++ c' :: r'))) (ht' r')
    simpa using this
  | @lastMember w b k w₁ w₂ s w₃ r v hw hb hw₁ hw₂ hw₃ _ ih =>
    obtain ⟨t, c, rfl, -, ht⟩ := ih
    refine ⟨w ++ '"' :: (b ++ '"' :: (w₁ ++ ':' :: (w₂ ++ (t ++ c :: w₃)))), '\x7d', by simp,
      by decide, fun r' => ?_⟩
    have := Gram.lastMember hw hb hw₁ hw₂ hw₃ (ht (w₃ ++ '\x7d' :: r'))
    simpa using this
  | @member w b k w₁ w₂ s w₃ s' r v ms hw hb hw₁ hw₂ hw₃ _ _ ih ihs =>
    obtain ⟨t, c, rfl, -, ht⟩ := ih
    obtain ⟨t', c', rfl, hc', ht'⟩ := ihs
    refine ⟨w ++ '"' :: (b ++ '"' :: (w₁ ++ ':' :: (w₂ ++ (t ++ c :: (w₃ ++ ',' :: t'))))), c',
      by simp, hc', fun r' => ?_⟩
    have := Gram.member hw hb hw₁ hw₂ hw₃ (ht (w₃ ++ ',' :: (t' ++ c' :: r'))) (ht' r')
    simpa using this

theorem Gram.length_lt (h : Gram reads F s o r) : r.length < s.length := by
  obtain ⟨t, c, rfl, -⟩ := h.frame
  rw [length_append, length_cons]
  omega

theorem Gram.skipItems {vs : List JsonVal} (h : Gram reads F s (.items vs) r)
    (hw : ∀ c ∈ w, isWhitespace c = true) : Gram reads F (w ++ s) (.items vs) r := by
  have happend {w' : Text} (hw' : reads.Ws w') : reads.Ws (w ++ w') := fun c hc =>
    (mem_append.1 hc).elim (hw c) (hw' c)
  cases h with
  | last hw₁ hw₂ hv =>
    rw [← append_assoc]
    exact .last (happend hw₁) hw₂ hv
  | item hw₁ hw₂ hv hvs =>
    rw [← append_assoc]
    exact .item (happend hw₁) hw₂ hv hvs

theorem Gram.skipMembers {ms : List (Text × JsonVal)}
    (h : Gram reads F s (.members ms) r) (hw : ∀ c ∈ w, isWhitespace c = true) :
    Gram reads F (w ++ s) (.members ms) r := by
  have happend {w' : Text} (hw' : reads.Ws w') : reads.Ws (w ++ w') := fun c hc =>
    (mem_append.1 hc).elim (hw c) (hw' c)
  cases h with
  | lastMember hw₁ hb hw₂ hw₃ hw₄ hv =>
    rw [← append_assoc]
    exact .lastMember (happend hw₁) hb hw₂ hw₃ hw₄ hv
  | member hw₁ hb hw₂ hw₃ hw₄ hv hvs =>
    rw [← append_assoc]
    exact .member (happend hw₁) hb hw₂ hw₃ hw₄ hv hvs

/-! ## Completeness -/

variable {v : JsonVal}

theorem parseItems_succ (hv : parseJson F n s = some (v, rest)) (hrest : trimStart rest = c :: r)
    (items : List JsonVal) : parseItems F (n + 1) s items =
      if c = ']' then some (.array (items ++ [v]), r)
      else if c = ',' then parseItems F n (trimStart r) (items ++ [v]) else none := by
  rw [parseItems.eq_def]
  simp only [hv, hrest]

theorem parseMembers_succ {rest' r' : Text}
    (hk : parseJsonString s = some (k, rest)) (hrest : trimStart rest = ':' :: r)
    (hv : parseJson F n (trimStart r) = some (v, rest')) (hrest' : trimStart rest' = c :: r')
    (items : List (Text × JsonVal)) : parseMembers F (n + 1) s items =
      if c = '\x7d' then some (.object (items ++ [(k, v)]), r')
      else if c = ',' then parseMembers F n (trimStart r') (items ++ [(k, v)]) else none := by
  rw [parseMembers.eq_def]
  simp only [hk, hrest, if_pos, hv, hrest']

theorem member_value {b w₁ w₂ : Text} {rest : Text}
    (hw : ∀ c ∈ w, isWhitespace c = true) (hb : ReadBody b k)
    (hw₁ : ∀ c ∈ w₁, isWhitespace c = true)
    (hv : parseJson F n (trimStart (w₂ ++ s)) = some (v, rest))
    (hrest : trimStart rest = c :: r) (items : List (Text × JsonVal)) :
    trimStart (w ++ '"' :: (b ++ '"' :: (w₁ ++ ':' :: (w₂ ++ s)))) =
        '"' :: (b ++ '"' :: (w₁ ++ ':' :: (w₂ ++ s))) ∧
      parseMembers F (n + 1) (trimStart (w ++ '"' :: (b ++ '"' :: (w₁ ++ ':' :: (w₂ ++ s)))))
        items = if c = '\x7d' then some (.object (items ++ [(k, v)]), r)
      else if c = ',' then parseMembers F n (trimStart r) (items ++ [(k, v)]) else none := by
  have htrim := trimStart_append hw (show isWhitespace '"' = false by decide)
    (b ++ '"' :: (w₁ ++ ':' :: (w₂ ++ s)))
  refine ⟨htrim, ?_⟩
  rw [htrim]
  exact parseMembers_succ (parseJsonString_complete hb _)
    (trimStart_append hw₁ (by decide) (w₂ ++ s)) hv hrest items

theorem taken_cons (hc : isWhitespace c = false)
    (h : ∀ n, 2 * t.length < n → parseHead F n c t = some (v, r)) :
    Taken F (c :: t) (.value v) r := by
  rintro - (_ | n) hn
  · rw [length_cons] at hn
    omega
  · rw [length_cons] at hn
    rw [parseJson_succ n (trimStart_cons hc t)]
    exact h n (by omega)

theorem Gram.trim (h : Gram reads F s (.value v) r)
    (hw : ∀ c ∈ w, isWhitespace c = true) : trimStart (w ++ s) = s := by
  obtain ⟨c, t, rfl, hopens⟩ := h.opens
  exact trimStart_append hw hopens.facts.1 t

/-- **Completeness.** -/
theorem Gram.taken (h : Gram reads F s o r) : Taken F s o r := by
  -- On the derivation; the fuel is larger than what is left to read, so it never is zero
  -- where the parser recurses.
  induction h with
  | nullLit | trueLit | falseLit => exact taken_cons (by decide) fun n _ => rfl
  | @number m r hm =>
    intro hr
    -- A numeral is told from the other values by its first character.
    obtain ⟨c, t, heq, hc⟩ := numeral_opens hm r
    have hopens : Opens c := by
      tauto
    have hparse := parseJsonNumber_complete (F := F) hm hr
    rw [heq] at hparse ⊢
    exact taken_cons hopens.facts.1 (fun n _ => by rw [parseHead_number n hc, hparse]) hr
  | @string b u r hb =>
    refine taken_cons (by decide) fun n _ => ?_
    rw [parseHead_string, parseJsonString_complete hb]
    rfl
  | @arrayNil w r hw =>
    refine taken_cons (by decide) fun n _ => ?_
    rw [parseHead_array n (trimStart_append hw (by decide) r), if_pos rfl]
  | @array s r vs _ ih =>
    refine taken_cons (by decide) fun n hn => ?_
    obtain ⟨hparse, d, t, htrim, hd⟩ := ih n [] hn
    rw [parseHead_array n htrim, if_neg hd, ← htrim]
    exact hparse
  | @objectNil w r hw =>
    refine taken_cons (by decide) fun n _ => ?_
    rw [parseHead_object n (trimStart_append hw (by decide) r), if_pos rfl]
  | @object s r ms _ ih =>
    refine taken_cons (by decide) fun n hn => ?_
    obtain ⟨hparse, d, t, htrim, hd⟩ := ih n [] hn
    rw [parseHead_object n htrim, if_neg hd, ← htrim]
    exact hparse
  -- The last item closes the array, every other goes round the loop once more.
  | @last w s w' r v hw hw' hs ih =>
    intro n items hn
    rw [length_append] at hn
    obtain ⟨c, t, heq, hopens⟩ := hs.opens
    have htrim := hs.trim hw
    refine ⟨?_, c, t, by rw [htrim, heq], hopens.facts.2.1⟩
    obtain _ | n := n
    · omega
    · have hvalue := ih (free_ws hw' (by decide) r) n (by omega)
      rw [htrim, parseItems_succ hvalue (trimStart_append hw' (by decide) r), if_pos rfl]
  | @item w s w' s' r v vs hw hw' hs _ ih ihs =>
    intro n items hn
    rw [length_append] at hn
    obtain ⟨c, t, heq, hopens⟩ := hs.opens
    have htrim := hs.trim hw
    have hshort := hs.length_lt
    simp only [length_append, length_cons] at hshort
    refine ⟨?_, c, t, by rw [htrim, heq], hopens.facts.2.1⟩
    obtain _ | n := n
    · omega
    · have hvalue := ih (free_ws hw' (by decide) s') n (by omega)
      obtain ⟨hrest, -⟩ := ihs n (items ++ [v]) (by omega)
      rw [htrim, parseItems_succ hvalue (trimStart_append hw' (by decide) s'),
        if_neg (by decide), if_pos rfl, hrest, append_assoc]
      rfl
  -- The same for the members, each behind its key and colon.
  | @lastMember w b k w₁ w₂ s w₃ r v hw hb hw₁ hw₂ hw₃ hs ih =>
    intro n items hn
    simp only [length_append, length_cons] at hn
    have htrim := hs.trim hw₂
    obtain _ | n := n
    · omega
    · have hvalue := ih (free_ws hw₃ (by decide) r) n (by omega)
      rw [← htrim] at hvalue
      obtain ⟨hstart, hparse⟩ := member_value hw hb hw₁ hvalue
        (trimStart_append hw₃ (show isWhitespace '\x7d' = false by decide) r) items
      exact ⟨hparse, _, _, hstart, by decide⟩
  | @member w b k w₁ w₂ s w₃ s' r v ms hw hb hw₁ hw₂ hw₃ hs _ ih ihs =>
    intro n items hn
    simp only [length_append, length_cons] at hn
    have htrim := hs.trim hw₂
    have hshort := hs.length_lt
    simp only [length_append, length_cons] at hshort
    obtain _ | n := n
    · omega
    · have hvalue := ih (free_ws hw₃ (by decide) s') n (by omega)
      rw [← htrim] at hvalue
      obtain ⟨hrest, -⟩ := ihs n (items ++ [(k, v)]) (by omega)
      obtain ⟨hstart, hparse⟩ := member_value hw hb hw₁ hvalue
        (trimStart_append hw₃ (show isWhitespace ',' = false by decide) s') items
      refine ⟨?_, _, _, hstart, by decide⟩
      rw [hparse, if_neg (by decide), if_pos rfl, hrest, append_assoc]
      rfl

/-- **The parser takes every text of the grammar** when what follows cannot be part of a numeral. -/
theorem parse_complete (h : Gram reads F s (.value v) r)
    (hr : Free inNumeral r) : parse F s = some (v, r) :=
  h.taken hr _ (le_refl _)

/-! ## Soundness -/

theorem exists_of_isPrefixOf {p : Text} (h : p.isPrefixOf s = true) : s = p ++ s.drop p.length := by
  obtain ⟨t, rfl⟩ := isPrefixOf_iff_prefix.1 h
  rw [drop_left]

theorem parseHead_sound (hitems : ∀ s items v r, parseItems F n s items = some (v, r) →
      ∃ vs, v = .array (items ++ vs) ∧ Gram reads F s (.items vs) r)
    (hmembers : ∀ s items v r, parseMembers F n s items = some (v, r) →
      ∃ ms, v = .object (items ++ ms) ∧ Gram reads F s (.members ms) r)
    (h : parseHead F n c t = some (v, r)) : Gram reads F (c :: t) (.value v) r := by
  unfold parseHead at h
  obtain ⟨w, hw, ht⟩ := exists_ws t
  -- The tests in the order of `parse_json`: the three words, then the first character.
  split_ifs at h with hnull htrue hfalse hquote hbracket hbrace hnumber
  · cases some.inj h
    rw [exists_of_isPrefixOf hnull]
    exact .nullLit
  · cases some.inj h
    rw [exists_of_isPrefixOf htrue]
    exact .trueLit
  · cases some.inj h
    rw [exists_of_isPrefixOf hfalse]
    exact .falseLit
  · obtain ⟨⟨u, r'⟩, hread, heq⟩ := map_eq_some_iff.1 h
    cases heq
    obtain ⟨b, htext, hb⟩ := parseJsonString_sound hread
    rw [htext]
    exact .string hb
  · subst hbracket
    split at h
    · cases h
    · rename_i d u htrim
      rw [htrim] at ht
      split_ifs at h with hclose
      · cases some.inj h
        rw [ht, hclose]
        exact .arrayNil hw
      · obtain ⟨vs, rfl, hvs⟩ := hitems _ _ _ _ h
        rw [ht]
        exact .array (hvs.skipItems hw)
  · subst hbrace
    split at h
    · cases h
    · rename_i d u htrim
      rw [htrim] at ht
      split_ifs at h with hclose
      · cases some.inj h
        rw [ht, hclose]
        exact .objectNil hw
      · obtain ⟨ms, rfl, hms⟩ := hmembers _ _ _ _ h
        rw [ht]
        exact .object (hms.skipMembers hw)
  · obtain ⟨m, htext, hm, rfl⟩ := parseJsonNumber_sound hnumber h
    rw [htext]
    exact .number hm

theorem parseMembers_sound
    (hvalue : ∀ s v r, parseJson F n s = some (v, r) → Gram reads F (trimStart s) (.value v) r)
    (hmembers : ∀ s items v r, parseMembers F n s items = some (v, r) →
      ∃ ms, v = .object (items ++ ms) ∧ Gram reads F s (.members ms) r)
    {items : List (Text × JsonVal)} (h : parseMembers F (n + 1) s items = some (v, r)) :
    ∃ ms, v = .object (items ++ ms) ∧ Gram reads F s (.members ms) r := by
  have hnil : reads.Ws [] := fun c hc => absurd hc not_mem_nil
  rw [parseMembers.eq_def] at h
  dsimp only at h
  -- Each character that the loop asks for is there, or the loop has failed.
  split at h
  · cases h
  rename_i k rest hk
  obtain ⟨b, rfl, hb⟩ := parseJsonString_sound hk
  obtain ⟨w₁, hw₁, hrest⟩ := exists_ws rest
  split at h
  · cases h
  rename_i c t htrim
  rw [htrim] at hrest
  split_ifs at h with hcolon
  obtain ⟨w₂, hw₂, ht⟩ := exists_ws t
  split at h
  · cases h
  rename_i x rest' hv
  have hgram := hvalue _ x rest' ((parseJson_trimStart n t).symm.trans hv)
  obtain ⟨w₃, hw₃, hrest'⟩ := exists_ws rest'
  split at h
  · cases h
  rename_i d u htrim'
  rw [htrim'] at hrest'
  rw [hrest'] at hgram
  rw [hrest, hcolon, ht]
  split_ifs at h with hclose hcomma
  · cases some.inj h
    exact ⟨[(k, x)], rfl, .lastMember hnil hb hw₁ hw₂ hw₃ (hclose ▸ hgram)⟩
  · obtain ⟨ms, rfl, hms⟩ := hmembers _ _ _ _ h
    -- The blanks before the next key are skipped here, and the grammar has them there.
    obtain ⟨w₄, hw₄, hu⟩ := exists_ws u
    refine ⟨(k, x) :: ms, by rw [append_assoc]; rfl, ?_⟩
    have hskip := hms.skipMembers hw₄
    rw [← hu] at hskip
    exact .member hnil hb hw₁ hw₂ hw₃ (hcomma ▸ hgram) hskip

theorem parseItems_sound
    (hvalue : ∀ s v r, parseJson F n s = some (v, r) → Gram reads F (trimStart s) (.value v) r)
    (hitems : ∀ s items v r, parseItems F n s items = some (v, r) →
      ∃ vs, v = .array (items ++ vs) ∧ Gram reads F s (.items vs) r)
    {items : List JsonVal} (h : parseItems F (n + 1) s items = some (v, r)) :
    ∃ vs, v = .array (items ++ vs) ∧ Gram reads F s (.items vs) r := by
  rw [parseItems.eq_def] at h
  dsimp only at h
  split at h
  · cases h
  rename_i x rest hv
  obtain ⟨w, hw, hs⟩ := exists_ws s
  obtain ⟨w', hw', hrest⟩ := exists_ws rest
  have hgram := hvalue s x rest hv
  split at h
  · cases h
  rename_i c t htrim
  rw [hrest, htrim] at hgram
  rw [hs]
  split_ifs at h with hclose hcomma
  · cases some.inj h
    exact ⟨[x], rfl, .last hw hw' (hclose ▸ hgram)⟩
  · obtain ⟨vs, rfl, hvs⟩ := hitems _ _ _ _ h
    obtain ⟨w₂, hw₂, ht⟩ := exists_ws t
    refine ⟨x :: vs, by rw [append_assoc]; rfl, ?_⟩
    have hskip := hvs.skipItems hw₂
    rw [← ht] at hskip
    exact .item hw hw' (hcomma ▸ hgram) hskip

theorem parse_sound_aux (n : ℕ) :
    (∀ s v r, parseJson F n s = some (v, r) → Gram reads F (trimStart s) (.value v) r) ∧
    (∀ s items v r, parseItems F n s items = some (v, r) →
      ∃ vs, v = .array (items ++ vs) ∧ Gram reads F s (.items vs) r) ∧
    (∀ s items v r, parseMembers F n s items = some (v, r) →
      ∃ ms, v = .object (items ++ ms) ∧ Gram reads F s (.members ms) r) := by
  induction n with
  | zero =>
    refine ⟨fun s v r h => ?_, fun s items v r h => ?_, fun s items v r h => ?_⟩
    · cases h
    · cases h
    · cases h
  | succ n ih =>
    obtain ⟨ihv, ihi, ihm⟩ := ih
    refine ⟨fun s v r h => ?_, fun s items v r h => parseItems_sound ihv ihi h,
      fun s items v r h => parseMembers_sound ihv ihm h⟩
    cases hs : trimStart s with
    | nil =>
      rw [parseJson_nil n hs] at h
      cases h
    | cons c t =>
      rw [parseJson_succ n hs] at h
      exact parseHead_sound ihi ihm h

/-- **The parser takes nothing else.** -/
theorem parse_sound (h : parse F s = some (v, r)) : Gram reads F (trimStart s) (.value v) r :=
  (parse_sound_aux _).1 s v r h

end Arth.Json
