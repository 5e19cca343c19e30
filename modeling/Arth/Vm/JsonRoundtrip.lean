import Arth.Vm.JsonParser

/-!
# What is printed as JSON is read back

`parse_stringify`: the parser takes the whole text that is printed for a value and gives the value.
How numbers are printed and read is the parameter `FloatText`; `FloatText.Prints` is what is used
of it.
-/

namespace Arth.Json

open List

/-- The number is printed as digits, perhaps with a sign and a fraction, and is the number that is
read from them. -/
def FloatText.Prints (F : FloatText) (x : F64) : Prop :=
  (∃ n : Numeral, F.display x = n.text ∧ n.Wf ∧ n.int ≠ [] ∧ n.exp = none) ∧
    F.value (F.display x) = x

mutual

/-- The numbers in a value. -/
def JsonVal.numbers : JsonVal → List F64
  | .number x => [x]
  | .array items => numbersOfItems items
  | .object members => numbersOfMembers members
  | _ => []

def numbersOfItems : List JsonVal → List F64
  | [] => []
  | v :: vs => v.numbers ++ numbersOfItems vs

def numbersOfMembers : List (Text × JsonVal) → List F64
  | [] => []
  | (_, v) :: ms => v.numbers ++ numbersOfMembers ms

end

variable {F : FloatText}

theorem readBody_escape (s : Text) : ReadBody (s.flatMap escapeChar) s := by
  have h := parseChars_escape s [] []
  obtain ⟨b, u, heq, hs, hb⟩ := parseChars_sound _ _ h
  rw [nil_append] at hs
  rw [append_cancel_right heq, hs]
  exact hb

theorem readNum_of_prints {n : Numeral} (hwf : n.Wf) (hint : n.int ≠ []) (hexp : n.exp = none) :
    ReadNum n := by
  refine ⟨hwf, ?_, .inr hint⟩
  unfold Numeral.isFloat
  rw [hexp]
  simp [hint]

theorem gram_string (s r : Text) :
    Gram reads F (jsonEscapeString s ++ r) (.value (.string s)) r := by
  have hgram : Gram reads F ('"' :: (s.flatMap escapeChar ++ '"' :: r)) (.value (.string s)) r :=
    .string (readBody_escape s)
  simpa [jsonEscapeString] using hgram

theorem noWs : reads.Ws [] := fun _ hc => absurd hc not_mem_nil

mutual

/-- **What is printed is in the grammar**, for the value it is printed for. -/
theorem gram_stringify : ∀ (v : JsonVal)
    (_ : ∀ x ∈ v.numbers, isFinite x = true ∧ F.Prints x) (r : Text),
    Gram reads F (jsonStringify F v ++ r) (.value v) r
  | .null, _, r => .nullLit
  | .bool b, _, r => by
    cases b with
    | true => exact .trueLit
    | false => exact .falseLit
  | .number x, h, r => by
    obtain ⟨hfinite, ⟨n, htext, hwf, hint, hexp⟩, hvalue⟩ :=
      h x (by rw [JsonVal.numbers]; exact mem_singleton_self x)
    have hgram : Gram reads F (n.text ++ r) (.value (.number (F.value n.text))) r :=
      .number (readNum_of_prints hwf hint hexp)
    rw [jsonStringify, if_pos hfinite, htext]
    rw [htext] at hvalue
    rwa [hvalue] at hgram
  | .string s, _, r => by
    rw [jsonStringify]
    exact gram_string s r
  | .array vs, h, r => by
    rw [jsonStringify]
    by_cases hvs : vs = []
    · rw [hvs]
      exact .arrayNil noWs
    · have hitems := gram_stringifyItems vs hvs (by rwa [JsonVal.numbers] at h) r
      have hgram := Gram.array hitems
      simpa using hgram
  | .object ms, h, r => by
    rw [jsonStringify]
    by_cases hms : ms = []
    · rw [hms]
      exact .objectNil noWs
    · have hmembers := gram_stringifyMembers ms hms (by rwa [JsonVal.numbers] at h) r
      have hgram := Gram.object hmembers
      simpa using hgram

theorem gram_stringifyItems : ∀ (vs : List JsonVal) (_ : vs ≠ [])
    (_ : ∀ x ∈ numbersOfItems vs, isFinite x = true ∧ F.Prints x) (r : Text),
    Gram reads F (stringifyItems F vs ++ ']' :: r) (.items vs) r
  | [], hne, _, _ => absurd rfl hne
  | [v], _, h, r => by
    have hv := gram_stringify v (fun x hx => h x (mem_append_left _ hx)) (']' :: r)
    have hgram := Gram.last noWs noWs hv
    rw [stringifyItems]
    exact hgram
  | v :: w :: vs, _, h, r => by
    have hv := gram_stringify v (fun x hx => h x (mem_append_left _ hx))
      (',' :: (stringifyItems F (w :: vs) ++ ']' :: r))
    have hvs := gram_stringifyItems (w :: vs) (cons_ne_nil w vs)
      (fun x hx => h x (mem_append_right _ hx)) r
    have hgram := Gram.item noWs noWs hv hvs
    rw [stringifyItems]
    simpa using hgram

theorem gram_stringifyMembers : ∀ (ms : List (Text × JsonVal)) (_ : ms ≠ [])
    (_ : ∀ x ∈ numbersOfMembers ms, isFinite x = true ∧ F.Prints x) (r : Text),
    Gram reads F (stringifyMembers F ms ++ '\x7d' :: r) (.members ms) r
  | [], hne, _, _ => absurd rfl hne
  | [(k, v)], _, h, r => by
    have hv := gram_stringify v (fun x hx => h x (mem_append_left _ hx)) ('\x7d' :: r)
    have hgram := Gram.lastMember noWs (readBody_escape k) noWs noWs noWs hv
    rw [stringifyMembers]
    simpa [jsonEscapeString] using hgram
  | (k, v) :: m :: ms, _, h, r => by
    have hv := gram_stringify v (fun x hx => h x (mem_append_left _ hx))
      (',' :: (stringifyMembers F (m :: ms) ++ '\x7d' :: r))
    have hms := gram_stringifyMembers (m :: ms) (cons_ne_nil m ms)
      (fun x hx => h x (mem_append_right _ hx)) r
    have hgram := Gram.member noWs (readBody_escape k) noWs noWs noWs hv hms
    rw [stringifyMembers]
    simpa [jsonEscapeString] using hgram

end

/-- **JSON round trip.** A value whose numbers are finite is read back from what is printed for it,
and nothing is left over. -/
theorem parse_stringify (F : FloatText) (v : JsonVal) (hfinite : ∀ x ∈ v.numbers, isFinite x = true)
    (hprints : ∀ x ∈ v.numbers, F.Prints x) : parse F (jsonStringify F v) = some (v, []) := by
  have hgram := gram_stringify v (fun x hx => ⟨hfinite x hx, hprints x hx⟩) []
  rw [append_nil] at hgram
  exact parse_complete hgram (Free.nil inNumeral)

/-- 1.5 -/
def oneAndAHalf : F64 := ⟨0x3FF8000000000000⟩

/-- A table of one number. -/
def oneNumber : FloatText := ⟨fun _ => ['1', '.', '5'], fun _ => oneAndAHalf⟩

def sampleValue : JsonVal := .object
  [(['a', '"'], .array [.number oneAndAHalf, .string ['\n', '\x01', 'é'], .bool false]),
    ([], .null)]

theorem parse_stringify_sample :
    parse oneNumber (jsonStringify oneNumber sampleValue) = some (sampleValue, []) := by
  have hnumbers : ∀ x ∈ sampleValue.numbers, x = oneAndAHalf := by
    intro x hx
    simpa [sampleValue, JsonVal.numbers, numbersOfItems, numbersOfMembers] using hx
  have hdigit (d : Char) (hd : isDigit d = true) : ∀ c ∈ [d], isDigit c = true := by
    intro c hc
    rwa [List.mem_singleton.1 hc]
  have hprints : oneNumber.Prints oneAndAHalf := by
    refine ⟨⟨⟨false, ['1'], some ['5'], none⟩, rfl, ⟨hdigit '1' (by decide), ?_, ?_⟩,
      cons_ne_nil _ _, rfl⟩, rfl⟩
    · intro ds hds
      rw [← Option.some.inj hds]
      exact hdigit '5' (by decide)
    · intro e sign ds hexp
      cases hexp
  refine parse_stringify oneNumber sampleValue (fun x hx => ?_) (fun x hx => ?_)
  · rw [hnumbers x hx]
    decide
  · rw [hnumbers x hx]
    exact hprints

end Arth.Json
