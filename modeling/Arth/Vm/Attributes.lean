import Arth.Lib.Occurrences

/-!
# Scanning the attributes of a template

`template.inc.rs`: the scanners that stand for regular expressions. Texts are lists of
characters; `none` is a panic, which a slice raises whose ends are not in order or not at a
character.

* `findAllDataBindAttrs`, `removeDataAttrs` — the scanners.
* `dataBindAttrs`, `strip` — the attributes there are, and a text without its `data-*`
  attributes.
* `findAll_iff` — the first scanner is right just where it finds nothing.
* `scanners` — both, the second on texts that are `Plain`.
-/

namespace Arth.Template

open List Option

open Occurrences (firstAt occursAt)

/-- What lies before the first `c` and what lies after it: `find` and the two slices. -/
def cutAt (c : Char) : List Char → Option (List Char × List Char)
  | [] => none
  | d :: s => if d = c then some ([], s) else (cutAt c s).map fun cut => (d :: cut.1, cut.2)

variable {s rest t attrs html : List Char} {c : Char}

theorem cutAt_eq_some {before after : List Char} :
    cutAt c s = some (before, after) ↔ s = before ++ c :: after ∧ c ∉ before := by
  induction s generalizing before with
  | nil => simp [cutAt]
  | cons d s ih =>
    rw [cutAt]
    split_ifs with hd
    · subst hd
      constructor
      · intro h
        obtain ⟨rfl, rfl⟩ := Prod.ext_iff.1 (some.inj h)
        exact ⟨rfl, nofun⟩
      · rintro ⟨heq, hfree⟩
        cases before with
        | nil =>
          obtain ⟨-, rfl⟩ := cons.inj heq
          rfl
        | cons e before =>
          obtain ⟨rfl, -⟩ := cons.inj heq
          exact absurd mem_cons_self hfree
    · constructor
      · intro h
        obtain ⟨⟨before', after'⟩, hcut, heq⟩ := map_eq_some_iff.1 h
        obtain ⟨rfl, rfl⟩ := Prod.ext_iff.1 heq
        obtain ⟨rfl, hfree⟩ := ih.1 hcut
        refine ⟨rfl, fun hmem => ?_⟩
        rcases mem_cons.1 hmem with rfl | hmem
        · exact hd rfl
        · exact hfree hmem
      · rintro ⟨heq, hfree⟩
        cases before with
        | nil => exact absurd (cons.inj heq).1 hd
        | cons e before =>
          cases heq
          have hcut := ih.2 ⟨rfl, fun hmem => hfree (mem_cons_of_mem _ hmem)⟩
          rw [hcut]
          rfl

variable {s : List Char}

theorem cutAt_eq_none : cutAt c s = none ↔ c ∉ s := by
  induction s with
  | nil => simp [cutAt]
  | cons d s ih =>
    rw [cutAt, mem_cons, not_or]
    split_ifs with hd
    · exact iff_of_false nofun fun h => h.1 hd.symm
    · rw [map_eq_none_iff, ih]
      exact ⟨fun h => ⟨fun heq => hd heq.symm, h⟩, And.right⟩

theorem length_of_cutAt {before after : List Char}
    (h : cutAt c s = some (before, after)) : after.length < s.length := by
  obtain ⟨rfl, -⟩ := cutAt_eq_some.1 h
  simp only [length_append, length_cons]
  omega

/-! ## Bound attributes -/

def dataBind : List Char := "data-bind-".toList

/-- An ASCII letter, a digit or an underscore. -/
def isWord (c : Char) : Bool := c.isAlphanum || c = '_'

structure Attr where
  name : List Char
  expr : List Char
  full : List Char
  deriving DecidableEq

/-- What one turn of the loop makes of an occurrence of `data-bind-`. -/
inductive Turn where
  | panics
  | skips
  | finds (a : Attr) (rest : List Char)

/-- The turn on the text from the occurrence on. -/
def turn (remaining : List Char) : Turn :=
  match cutAt '=' remaining with
  | none => .skips
  | some (before, afterEq) =>
    -- `&remaining[11..eq_pos]`
    match before.drop dataBind.length with
    | [] => .panics
    | c :: name =>
      if c.utf8Size ≠ 1 then .panics
      else if name.all isWord then
        match afterEq with
        | '"' :: value =>
          match cutAt '"' value with
          | some (expr, rest) => .finds ⟨name, expr, before ++ '=' :: '"' :: (expr ++ ['"'])⟩ rest
          | none => .skips
        | _ => .skips
      else .skips

variable {a : Attr}

theorem length_of_finds {remaining : List Char} (h : turn remaining = .finds a rest) :
    rest.length < remaining.length := by
  unfold turn at h
  split at h
  · cases h
  · rename_i before afterEq hcut
    have hlt := length_of_cutAt hcut
    split at h
    · cases h
    · split at h
      · cases h
      · split at h
        · split at h
          · split at h
            · rename_i value expr rest' hcut'
              have hlt' := length_of_cutAt hcut'
              obtain ⟨-, rfl⟩ := Turn.finds.inj h
              simp only [length_cons] at hlt
              omega
            · cases h
          · cases h
        · cases h

def findAllDataBindAttrs (attrs : List Char) : Option (List Attr) :=
  match _hpos : firstAt dataBind attrs with
  | none => some []
  | some pos =>
    match hturn : turn (attrs.drop pos) with
    | .panics => none
    | .skips => findAllDataBindAttrs (attrs.drop (pos + 1))
    | .finds a rest => (findAllDataBindAttrs rest).map (a :: ·)
termination_by attrs.length
decreasing_by
  · have := Occurrences.firstAt_le _hpos
    have : dataBind.length = 10 := rfl
    simp only [length_drop]
    omega
  · have := length_of_finds hturn
    simp only [length_drop] at this
    omega

/-- The attribute at the front of a text, if `data-bind-NAME="EXPR"` stands there. -/
def attrAt (s : List Char) : Option Attr :=
  if dataBind <+: s then
    let name := (s.drop dataBind.length).takeWhile isWord
    match (s.drop dataBind.length).dropWhile isWord with
    | '=' :: '"' :: value =>
      match cutAt '"' value with
      | some (expr, _) =>
        if name = [] then none
        else some ⟨name, expr, dataBind ++ name ++ '=' :: '"' :: (expr ++ ['"'])⟩
      | none => none
    | _ => none
  else none

/-- The bound attributes of a text, in order. -/
def dataBindAttrs : List Char → List Attr
  | [] => []
  | c :: cs =>
    match attrAt (c :: cs) with
    | some a => a :: dataBindAttrs (cs.drop (a.full.length - 1))
    | none => dataBindAttrs cs
termination_by s => s.length
decreasing_by
  all_goals simp only [length_cons, length_drop]; omega

/-- The text behind a `data-bind-` on which the scanner panics or cuts the first character off
a name. -/
def Slips (s : List Char) : Prop :=
  ∃ before after, cutAt '=' s = some (before, after) ∧
    match before with
    | [] => True
    | c :: name => c.utf8Size ≠ 1 ∨
      (∀ x ∈ name, isWord x) ∧ ∃ value, after = '"' :: value ∧ '"' ∈ value

/-- No `data-bind-` is followed by such a text. -/
def Harmless (attrs : List Char) : Prop :=
  ∀ k, occursAt dataBind attrs k → ¬ Slips (attrs.drop (k + dataBind.length))

theorem not_mem_dataBind : '=' ∉ dataBind := by decide

theorem cutAt_dataBind (s : List Char) : cutAt '=' (dataBind ++ s) =
    (cutAt '=' s).map fun cut => (dataBind ++ cut.1, cut.2) := by
  cases hcut : cutAt '=' s with
  | none =>
    have hfree := cutAt_eq_none.1 hcut
    refine cutAt_eq_none.2 fun hmem => ?_
    rcases mem_append.1 hmem with hmem | hmem
    · exact not_mem_dataBind hmem
    · exact hfree hmem
  | some cut =>
    obtain ⟨rfl, hfree⟩ := cutAt_eq_some.1 hcut
    refine cutAt_eq_some.2 ⟨by simp, fun hmem => ?_⟩
    rcases mem_append.1 hmem with hmem | hmem
    · exact not_mem_dataBind hmem
    · exact hfree hmem

theorem turn_skips_iff (s : List Char) : turn (dataBind ++ s) = .skips ↔ ¬ Slips s := by
  unfold turn Slips
  rw [cutAt_dataBind]
  cases hcut : cutAt '=' s with
  | none => simp
  | some cut =>
    obtain ⟨before, after⟩ := cut
    cases before with
    | nil => simp
    | cons c name =>
      by_cases hsize : c.utf8Size = 1
      · by_cases hname : name.all isWord = true
        · have hword : ∀ x ∈ name, isWord x := by simpa using hname
          cases after with
          | nil => simp [hsize, hname]
          | cons q value =>
            by_cases hq : q = '"'
            · subst hq
              cases hvalue : cutAt '"' value with
              | none =>
                have hfree := cutAt_eq_none.1 hvalue
                simpa [hsize, hname, hvalue] using fun _ => hfree
              | some cut =>
                have hmem : '"' ∈ value := by
                  by_contra hfree
                  rw [cutAt_eq_none.2 hfree] at hvalue
                  cases hvalue
                simpa [hsize, hname, hvalue] using ⟨hword, hmem⟩
            · simp [hsize, hname, hq]
        · have hword : ¬ ∀ x ∈ name, isWord x := by simpa using hname
          simp [hsize, hname, hword]
      · simp [hsize]

/-- The text of an attribute. -/
def Attr.text (a : Attr) : List Char := dataBind ++ a.name ++ '=' :: '"' :: (a.expr ++ ['"'])

theorem attrAt_eq_some (h : attrAt s = some a) :
    ∃ rest, s = a.text ++ rest ∧ a.full = a.text ∧ a.name ≠ [] ∧ (∀ c ∈ a.name, isWord c) ∧
      '"' ∉ a.expr := by
  unfold attrAt at h
  split_ifs at h with hfront
  obtain ⟨s, rfl⟩ := hfront
  have hdrop : (dataBind ++ s).drop dataBind.length = s := drop_left
  rw [hdrop] at h
  dsimp only at h
  split at h
  · rename_i value hvalue
    split at h
    · rename_i expr rest hcut
      split_ifs at h with hname
      cases h
      obtain ⟨rfl, hexpr⟩ := cutAt_eq_some.1 hcut
      refine ⟨rest, ?_, rfl, hname, fun c hc => mem_takeWhile_imp hc, hexpr⟩
      calc dataBind ++ s = dataBind ++ (s.takeWhile isWord ++ s.dropWhile isWord) := by
            rw [takeWhile_append_dropWhile]
        _ = _ := by simp [hvalue, Attr.text]
    · cases h
  · cases h

theorem slips_of_attrAt (h : attrAt (dataBind ++ s) = some a) : Slips s := by
  obtain ⟨rest, htext, -, hname, hword, -⟩ := attrAt_eq_some h
  have heq : s = a.name ++ '=' :: '"' :: (a.expr ++ '"' :: rest) := by
    have hcancel : dataBind ++ s =
        dataBind ++ (a.name ++ '=' :: '"' :: (a.expr ++ '"' :: rest)) := by
      rw [htext, Attr.text]
      simp
    exact append_cancel_left hcancel
  have hfree : '=' ∉ a.name := fun hmem => absurd (hword _ hmem) (by decide)
  refine ⟨a.name, _, cutAt_eq_some.2 ⟨heq, hfree⟩, ?_⟩
  cases hcase : a.name with
  | nil => trivial
  | cons c name =>
    refine .inr ⟨fun x hx => hword x ?_, _, rfl, by simp⟩
    rw [hcase]
    exact mem_cons_of_mem _ hx

theorem dataBindAttrs_eq_nil (h : ∀ k, attrAt (s.drop k) = none) : dataBindAttrs s = [] := by
  induction s with
  | nil => rw [dataBindAttrs]
  | cons c cs ih =>
    have hhere : attrAt (c :: cs) = none := h 0
    rw [dataBindAttrs, hhere]
    exact ih fun k => h (k + 1)

theorem full_of_mem : ∀ a ∈ dataBindAttrs s, a.full = a.text := by
  induction s using dataBindAttrs.induct with
  | case1 =>
    rw [dataBindAttrs]
    exact nofun
  | case2 c cs a hat ih =>
    rw [dataBindAttrs, hat]
    refine forall_mem_cons.2 ⟨?_, ih⟩
    obtain ⟨-, -, hfull, -⟩ := attrAt_eq_some hat
    exact hfull
  | case3 c cs hat ih =>
    rw [dataBindAttrs, hat]
    exact ih

theorem full_of_finds {remaining : List Char} (h : turn remaining = .finds a rest) :
    a.full ≠ a.text := by
  have hlength : a.full.length = a.text.length + 1 := by
    unfold turn at h
    split at h
    · cases h
    · rename_i before afterEq hcut
      split at h
      · cases h
      · rename_i c name hdrop
        have hbefore : before.length = dataBind.length + name.length + 1 := by
          have hlen := congrArg length hdrop
          simp only [length_drop, length_cons] at hlen
          omega
        split at h
        · cases h
        · split at h
          · split at h
            · split at h
              · obtain ⟨rfl, -⟩ := Turn.finds.inj h
                simp only [Attr.text, length_append, length_cons]
                omega
              · cases h
            · cases h
          · cases h
  intro heq
  rw [heq] at hlength
  omega

theorem occursAt_drop {j k : Nat} : occursAt t (s.drop j) k ↔ occursAt t s (j + k) := by
  rw [occursAt, occursAt, drop_drop]

theorem exists_of_occursAt {k : Nat} (h : occursAt t s k) :
    s.drop k = t ++ s.drop (k + t.length) := by
  rw [Occurrences.occursAt_iff] at h
  conv_lhs => rw [← take_append_drop t.length (s.drop k), h, drop_drop]

theorem findAll_of_harmless (h : Harmless attrs) : findAllDataBindAttrs attrs = some [] := by
  have hskips : ∀ attrs pos, Harmless attrs → firstAt dataBind attrs = some pos →
      turn (attrs.drop pos) = .skips := by
    intro attrs pos h hpos
    have hat := (Occurrences.firstAt_eq_some_iff.1 hpos).2.1
    rw [exists_of_occursAt hat]
    exact (turn_skips_iff _).2 (h pos hat)
  fun_induction findAllDataBindAttrs attrs with
  | case1 => rfl
  | case2 attrs pos hpos hturn | case4 attrs pos hpos _ _ hturn =>
    cases hturn.symm.trans (hskips attrs pos h hpos)
  | case3 attrs pos hpos hturn ih =>
    refine ih fun k hk => ?_
    rw [drop_drop, ← add_assoc]
    exact h _ (occursAt_drop.1 hk)

theorem findAll_of_slips {found : List Attr} (h : ¬ Harmless attrs)
    (hfound : findAllDataBindAttrs attrs = some found) : ∃ a ∈ found, a.full ≠ a.text := by
  have hslip : ∀ attrs, ¬ Harmless attrs → ∃ k, occursAt dataBind attrs k ∧
      Slips (attrs.drop (k + dataBind.length)) := fun attrs h => by simpa [Harmless] using h
  fun_induction findAllDataBindAttrs attrs generalizing found with
  | case1 attrs hnone =>
    obtain ⟨k, hk, -⟩ := hslip attrs h
    rw [Occurrences.firstAt_eq_none_iff] at hnone
    refine absurd ⟨attrs.take k, attrs.drop (k + dataBind.length), ?_⟩ hnone
    rw [append_assoc, ← exists_of_occursAt hk, take_append_drop]
  | case2 => cases hfound
  | case3 attrs pos hpos hskips ih =>
    obtain ⟨k, hk, hslips⟩ := hslip attrs h
    obtain ⟨-, hat, hfirst⟩ := Occurrences.firstAt_eq_some_iff.1 hpos
    rw [exists_of_occursAt hat] at hskips
    have hstays := (turn_skips_iff _).1 hskips
    -- the slip lies further on
    have hlt : pos < k := by
      rcases Nat.lt_trichotomy pos k with hlt | rfl | hlt
      · exact hlt
      · exact absurd hslips hstays
      · exact absurd hk (hfirst k hlt)
    have hadd : pos + 1 + (k - (pos + 1)) = k := by omega
    refine ih (fun hharmless => hharmless (k - (pos + 1)) (occursAt_drop.2 (by rwa [hadd])) ?_) hfound
    rw [drop_drop, ← add_assoc, hadd]
    exact hslips
  | case4 attrs pos hpos a rest hfinds =>
    obtain ⟨found, -, rfl⟩ := map_eq_some_iff.1 hfound
    exact ⟨a, mem_cons_self, full_of_finds hfinds⟩

/-- **The first scanner.** It returns the bound attributes of a text if and only if the text is
harmless, and then there are none. -/
theorem findAll_iff (attrs : List Char) :
    findAllDataBindAttrs attrs = some (dataBindAttrs attrs) ↔ Harmless attrs := by
  constructor
  · intro h
    by_contra hslips
    obtain ⟨a, ha, hfull⟩ := findAll_of_slips hslips h
    exact hfull (full_of_mem a ha)
  · intro h
    rw [findAll_of_harmless h, dataBindAttrs_eq_nil]
    intro k
    cases hat : attrAt (attrs.drop k) with
    | none => rfl
    | some a =>
      obtain ⟨rest, htext, -⟩ := attrAt_eq_some hat
      have hk : occursAt dataBind attrs k := by
        rw [occursAt, htext, Attr.text]
        simp
      rw [exists_of_occursAt hk] at hat
      exact absurd (slips_of_attrAt hat) (h k hk)

/-! ## Template attributes -/

/-- `u8::is_ascii_whitespace`. -/
def isSpace (c : Char) : Bool :=
  c = ' ' || c = '\t' || c = '\n' || c = '\x0c' || c = '\r'

def dataPrefix : List Char := "data-".toList

/-- `i + 5 <= bytes.len() && &result[i..i + 5] == "data-"` on the text from `i` on. -/
def startsData (rest : List Char) : Option Bool :=
  if String.utf8Len rest < 5 then some false
  else if (List.range 6).any fun n => String.utf8Len (rest.take n) = 5 then
    some (dataPrefix.isPrefixOf rest)
  else none

/-- What follows the value that the scanner takes for that of an attribute: the quoted text
behind the next `=`, if quoted text stands there. -/
def afterValue (rest : List Char) : Option (List Char) :=
  match cutAt '=' rest with
  | some (_, '"' :: value) => (cutAt '"' value).map (·.2)
  | _ => none

/-- `push(bytes[i] as char)` for the bytes of a character. -/
def pushBytes (c : Char) : List Char := (String.utf8EncodeChar c).map fun b => Char.ofNat b.toNat

theorem length_of_afterValue {after : List Char} (h : afterValue rest = some after) :
    after.length < rest.length := by
  unfold afterValue at h
  split at h
  · rename_i before value hcut
    obtain ⟨⟨expr, after'⟩, hcut', rfl⟩ := map_eq_some_iff.1 h
    have hlt := length_of_cutAt hcut
    have hlt' := length_of_cutAt hcut'
    simp only [length_cons] at hlt
    exact hlt'.trans (by omega)
  · cases h

theorem length_dropWhile_lt {p : Char → Bool} {cs : List Char} (h : p c = true) :
    ((c :: cs).dropWhile p).length < (c :: cs).length := by
  have hle := (dropWhile_suffix p (l := cs)).length_le
  rw [dropWhile_cons_of_pos h, length_cons]
  omega

/-- What follows the attribute that the scanner sees at the text, if it sees one. -/
def site (rest : List Char) : Option (Option (List Char)) :=
  (startsData rest).map fun starts => if starts then afterValue rest else none

theorem length_of_site {after : List Char} (h : site rest = some (some after)) :
    after.length < rest.length := by
  obtain ⟨starts, -, heq⟩ := map_eq_some_iff.1 h
  split_ifs at heq
  exact length_of_afterValue heq

/-- One pass of `removeDataAttrs`: did it remove anything, and the text it built. -/
def pass : List Char → Option (Bool × List Char)
  | [] => some (false, [])
  | c :: cs =>
    if _hspace : isSpace c then
      match _hsite : site ((c :: cs).dropWhile isSpace) with
      | none => none
      | some (some after) => (pass after).map fun r => (true, r.2)
      | some none => (pass ((c :: cs).dropWhile isSpace)).map fun r =>
        (r.1, (c :: cs).takeWhile isSpace ++ r.2)
    else (pass cs).map fun r => (r.1, pushBytes c ++ r.2)
termination_by s => s.length
decreasing_by
  · exact (length_of_site _hsite).trans (length_dropWhile_lt _hspace)
  · exact length_dropWhile_lt _hspace
  · simp

section Pass

variable {c : Char} {cs after : List Char}

theorem pass_panics (hspace : isSpace c) (hsite : site ((c :: cs).dropWhile isSpace) = none) :
    pass (c :: cs) = none := by
  rw [pass, dif_pos hspace, hsite]

theorem pass_removes (hspace : isSpace c)
    (hsite : site ((c :: cs).dropWhile isSpace) = some (some after)) :
    pass (c :: cs) = (pass after).map fun r => (true, r.2) := by
  rw [pass, dif_pos hspace, hsite]

theorem pass_keeps (hspace : isSpace c) (hsite : site ((c :: cs).dropWhile isSpace) = some none) :
    pass (c :: cs) = (pass ((c :: cs).dropWhile isSpace)).map fun r =>
      (r.1, (c :: cs).takeWhile isSpace ++ r.2) := by
  rw [pass, dif_pos hspace, hsite]

theorem pass_char (hspace : ¬ isSpace c) :
    pass (c :: cs) = (pass cs).map fun r => (r.1, pushBytes c ++ r.2) := by
  rw [pass, dif_neg hspace]

end Pass

theorem pushBytes_ascii (h : c.toNat < 128) : pushBytes c = [c] := by
  unfold pushBytes String.utf8EncodeChar
  have hv : c.val.toNat ≤ 127 := by
    have : c.val.toNat = c.toNat := rfl
    omega
  rw [if_pos hv]
  have hbyte : (UInt8.ofNat c.val.toNat).toNat = c.toNat := Nat.mod_eq_of_lt (by omega)
  rw [map_singleton, hbyte, Char.ofNat_toNat]

theorem not_ascii_of_mem_pushBytes {d : Char} (h : 128 ≤ c.toNat) (hd : d ∈ pushBytes c) :
    128 ≤ d.toNat := by
  obtain ⟨b, hb, rfl⟩ := mem_map.1 hd
  have hbyte : 128 ≤ b.toNat := by
    have hv : ¬ c.val.toNat ≤ 0x7f := by
      have : c.val.toNat = c.toNat := rfl
      omega
    unfold String.utf8EncodeChar at hb
    dsimp only at hb
    have hofNat (n : Nat) (hn : n < 256) : (UInt8.ofNat n).toNat = n := Nat.mod_eq_of_lt hn
    split_ifs at hb
    all_goals
      simp only [mem_cons, not_mem_nil, or_false] at hb
      rcases hb with rfl | rfl | rfl | rfl <;> rw [hofNat _ (by omega)] <;> omega
  have hsmall : b.toNat < 256 := b.toNat_lt
  have hvalid : (Char.ofNat b.toNat).toNat = b.toNat := by
    rw [Char.toNat_ofNat, if_pos (.inl (by omega))]
  omega

theorem count_pushBytes (c : Char) : (pushBytes c).count '"' = [c].count '"' := by
  by_cases h : c.toNat < 128
  · rw [pushBytes_ascii h]
  · have hc : c ≠ '"' := by
      rintro rfl
      exact h (by decide)
    have hfree : '"' ∉ pushBytes c := by
      intro hmem
      have := not_ascii_of_mem_pushBytes (by omega) hmem
      exact absurd this (by decide)
    rw [count_eq_zero_of_not_mem hfree, count_singleton, if_neg (by simpa using hc)]

theorem count_of_afterValue {after : List Char} (h : afterValue rest = some after) :
    after.count '"' + 2 ≤ rest.count '"' := by
  unfold afterValue at h
  split at h
  · rename_i before value hcut
    obtain ⟨⟨expr, after'⟩, hcut', rfl⟩ := map_eq_some_iff.1 h
    obtain ⟨rfl, -⟩ := cutAt_eq_some.1 hcut
    obtain ⟨rfl, -⟩ := cutAt_eq_some.1 hcut'
    simp
    omega
  · cases h

theorem count_space (s : List Char) : (s.takeWhile isSpace).count '"' = 0 := by
  refine count_eq_zero_of_not_mem fun hmem => ?_
  exact absurd (mem_takeWhile_imp hmem) (by decide)

theorem count_dropWhile (s : List Char) : (s.dropWhile isSpace).count '"' = s.count '"' := by
  conv_rhs => rw [← takeWhile_append_dropWhile (p := isSpace) (l := s), count_append,
    count_space, zero_add]

theorem count_of_site {after : List Char} (h : site rest = some (some after)) :
    after.count '"' + 2 ≤ rest.count '"' := by
  obtain ⟨starts, -, heq⟩ := map_eq_some_iff.1 h
  split_ifs at heq
  exact count_of_afterValue heq

theorem count_of_pass {r : List Char} {b : Bool} (h : pass s = some (b, r)) :
    r.count '"' + (if b then 2 else 0) ≤ s.count '"' := by
  induction s using pass.induct generalizing b r with
  | case1 =>
    rw [pass] at h
    obtain ⟨rfl, rfl⟩ := Prod.ext_iff.1 (some.inj h)
    simp
  | case2 c cs hspace hsite =>
    rw [pass_panics hspace hsite] at h
    cases h
  | case3 c cs hspace after hsite ih =>
    rw [pass_removes hspace hsite] at h
    obtain ⟨⟨b', r'⟩, hpass, heq⟩ := map_eq_some_iff.1 h
    obtain ⟨rfl, rfl⟩ := Prod.ext_iff.1 heq
    have hle := ih hpass
    have hvalue := count_of_site hsite
    rw [count_dropWhile] at hvalue
    rw [if_pos rfl]
    dsimp only
    omega
  | case4 c cs hspace hsite ih =>
    rw [pass_keeps hspace hsite] at h
    obtain ⟨⟨b', r'⟩, hpass, heq⟩ := map_eq_some_iff.1 h
    obtain ⟨rfl, rfl⟩ := Prod.ext_iff.1 heq
    have hle := ih hpass
    rw [count_dropWhile] at hle
    rw [count_append, count_space, zero_add]
    exact hle
  | case5 c cs hspace ih =>
    rw [pass_char hspace] at h
    obtain ⟨⟨b', r'⟩, hpass, heq⟩ := map_eq_some_iff.1 h
    obtain ⟨rfl, rfl⟩ := Prod.ext_iff.1 heq
    have hle := ih hpass
    have hcons : (c :: cs).count '"' = [c].count '"' + cs.count '"' := by
      rw [← count_append]
      rfl
    rw [count_append, count_pushBytes, hcons]
    dsimp only
    omega

/-- Passes until one removes nothing. -/
def removeDataAttrs (html : List Char) : Option (List Char) :=
  match _hpass : pass html with
  | none => none
  | some (false, _) => some html
  | some (true, r) => removeDataAttrs r
termination_by html.count '"'
decreasing_by
  have hle := count_of_pass _hpass
  rw [if_pos rfl] at hle
  omega

variable {html r : List Char} {mode : Mode}

theorem removeDataAttrs_of_settled (h : pass html = some (false, r)) :
    removeDataAttrs html = some html := by
  rw [removeDataAttrs, h]

theorem removeDataAttrs_of_removes (h : pass html = some (true, r)) :
    removeDataAttrs html = removeDataAttrs r := by
  rw [removeDataAttrs, h]

theorem removeDataAttrs_idem (h : removeDataAttrs html = some r) : removeDataAttrs r = some r := by
  induction html using removeDataAttrs.induct with
  | case1 html hpass =>
    rw [removeDataAttrs, hpass] at h
    cases h
  | case2 html r' hpass =>
    rw [removeDataAttrs_of_settled hpass] at h
    cases h
    exact removeDataAttrs_of_settled hpass
  | case3 html r' hpass ih =>
    rw [removeDataAttrs_of_removes hpass] at h
    exact ih h

/-! ## The attributes of a text -/

/-- Where a character stands: between tags, in a comment, in a start tag, or there in a value
between quotes `q`. -/
inductive Mode where
  | text
  | comment
  | tag
  | quoted (q : Char)
  deriving DecidableEq

/-- The place behind the character `c` when `cs` follows. -/
def Mode.next (mode : Mode) (c : Char) (cs : List Char) : Mode :=
  match mode with
  | .text =>
    if c ≠ '<' then .text
    else if "!--".toList <+: cs then .comment
    else if cs.head?.any (·.isAlpha) then .tag
    else .text
  | .comment => if "-->".toList <+: c :: cs then .text else .comment
  | .tag => if c = '>' then .text else if c = '"' ∨ c = '\'' then .quoted c else .tag
  | .quoted q => if c = q then .tag else .quoted q

def isNameChar (c : Char) : Bool :=
  !isSpace c && c ≠ '"' && c ≠ '\'' && c ≠ '>' && c ≠ '/' && c ≠ '='

/-- What follows the `data-*` attribute with a quoted value at the front of a text. -/
def dataAttr (s : List Char) : Option (List Char) :=
  if dataPrefix <+: s then
    match (s.dropWhile isNameChar).dropWhile isSpace with
    | '=' :: value =>
      match value.dropWhile isSpace with
      | q :: value => if q = '"' ∨ q = '\'' then (cutAt q value).map (·.2) else none
      | [] => none
    | _ => none
  else none

theorem length_of_dataAttr {after : List Char} (h : dataAttr s = some after) :
    after.length < s.length := by
  unfold dataAttr at h
  split_ifs at h
  split at h
  · rename_i value hvalue
    have hle := ((dropWhile_suffix isSpace).trans (dropWhile_suffix isNameChar (l := s))).length_le
    rw [hvalue, length_cons] at hle
    split at h
    · rename_i q value' hvalue'
      have hle' := (dropWhile_suffix isSpace (l := value)).length_le
      rw [hvalue', length_cons] at hle'
      split_ifs at h
      obtain ⟨⟨before, after'⟩, hcut, rfl⟩ := map_eq_some_iff.1 h
      exact (length_of_cutAt hcut).trans (by omega)
    · cases h
  · cases h

/-- What follows the attribute behind whitespace. -/
def attrIn (mode : Mode) (rest : List Char) : Option (List Char) :=
  if mode = .tag then dataAttr rest else none

theorem length_of_attrIn {after : List Char} (h : attrIn mode rest = some after) :
    after.length < rest.length := by
  unfold attrIn at h
  split_ifs at h
  exact length_of_dataAttr h

/-- A text without its `data-*` attributes with quoted values and the whitespace before each. -/
def strip (mode : Mode) : List Char → List Char
  | [] => []
  | c :: cs =>
    if _hspace : isSpace c then
      match _hattr : attrIn mode ((c :: cs).dropWhile isSpace) with
      | some after => strip mode after
      | none => (c :: cs).takeWhile isSpace ++ strip mode ((c :: cs).dropWhile isSpace)
    else c :: strip (mode.next c cs) cs
termination_by s => s.length
decreasing_by
  · exact (length_of_attrIn _hattr).trans (length_dropWhile_lt _hspace)
  · exact length_dropWhile_lt _hspace
  · simp

/-- Wherever there is whitespace, the scanner sees the attribute there is. -/
def regular (mode : Mode) : List Char → Bool
  | [] => true
  | c :: cs =>
    if _hspace : isSpace c then
      site ((c :: cs).dropWhile isSpace) = some (attrIn mode ((c :: cs).dropWhile isSpace)) &&
        match _hattr : attrIn mode ((c :: cs).dropWhile isSpace) with
        | some after => regular mode after
        | none => regular mode ((c :: cs).dropWhile isSpace)
    else regular (mode.next c cs) cs
termination_by s => s.length
decreasing_by
  · exact (length_of_attrIn _hattr).trans (length_dropWhile_lt _hspace)
  · exact length_dropWhile_lt _hspace
  · simp

section Strip

variable {mode : Mode} {c : Char} {cs after : List Char}

theorem strip_removes (hspace : isSpace c)
    (hattr : attrIn mode ((c :: cs).dropWhile isSpace) = some after) :
    strip mode (c :: cs) = strip mode after := by
  rw [strip, dif_pos hspace, hattr]

theorem strip_keeps (hspace : isSpace c)
    (hattr : attrIn mode ((c :: cs).dropWhile isSpace) = none) : strip mode (c :: cs) =
      (c :: cs).takeWhile isSpace ++ strip mode ((c :: cs).dropWhile isSpace) := by
  rw [strip, dif_pos hspace, hattr]

theorem regular_removes (hspace : isSpace c)
    (hattr : attrIn mode ((c :: cs).dropWhile isSpace) = some after) (h : regular mode (c :: cs)) :
    site ((c :: cs).dropWhile isSpace) = some (some after) ∧ regular mode after := by
  rwa [regular, dif_pos hspace, Bool.and_eq_true, decide_eq_true_eq, hattr] at h

theorem regular_keeps (hspace : isSpace c)
    (hattr : attrIn mode ((c :: cs).dropWhile isSpace) = none) (h : regular mode (c :: cs)) :
    site ((c :: cs).dropWhile isSpace) = some none ∧
      regular mode ((c :: cs).dropWhile isSpace) := by
  rwa [regular, dif_pos hspace, Bool.and_eq_true, decide_eq_true_eq, hattr] at h

end Strip

theorem flatMap_pushBytes (h : ∀ c ∈ s, c.toNat < 128) : s.flatMap pushBytes = s := by
  induction s with
  | nil => rfl
  | cons c s ih =>
    obtain ⟨hc, hs⟩ := forall_mem_cons.1 h
    rw [flatMap_cons, pushBytes_ascii hc, ih hs]
    rfl

theorem ascii_of_isSpace (h : isSpace c) : c.toNat < 128 := by
  simp only [isSpace, Bool.or_eq_true, decide_eq_true_eq] at h
  rcases h with (((rfl | rfl) | rfl) | rfl) | rfl <;> decide

/-- **One pass** over a regular text removes its attributes and rewrites what stays byte by
byte. -/
theorem pass_of_regular (h : regular mode s) :
    ∃ b, pass s = some (b, (strip mode s).flatMap pushBytes) ∧
      (strip mode s).length ≤ s.length ∧ (b = false → strip mode s = s) ∧
        (b = true → (strip mode s).length < s.length) := by
  induction mode, s using strip.induct with
  | case1 mode =>
    refine ⟨false, ?_, ?_⟩
    · rw [pass, strip]
      rfl
    · rw [strip]
      exact ⟨le_rfl, fun _ => rfl, nofun⟩
  | case2 mode c cs hspace after hattr ih =>
    obtain ⟨hsite, hrest⟩ := regular_removes hspace hattr h
    obtain ⟨b, hpass, hle, -, -⟩ := ih hrest
    have hlt := (length_of_attrIn hattr).trans (length_dropWhile_lt hspace)
    rw [pass_removes hspace hsite, strip_removes hspace hattr, hpass]
    exact ⟨true, rfl, by omega, nofun, fun _ => by omega⟩
  | case3 mode c cs hspace hattr ih =>
    obtain ⟨hsite, hrest⟩ := regular_keeps hspace hattr h
    obtain ⟨b, hpass, hle, hsame, hless⟩ := ih hrest
    have hall : ∀ d ∈ (c :: cs).takeWhile isSpace, d.toNat < 128 :=
      fun d hd => ascii_of_isSpace (mem_takeWhile_imp hd)
    have hsplit := takeWhile_append_dropWhile (p := isSpace) (l := c :: cs)
    have hlength := congrArg length hsplit
    rw [length_append] at hlength
    rw [pass_keeps hspace hsite, strip_keeps hspace hattr, hpass, length_append]
    refine ⟨b, ?_, by omega, fun hb => ?_, fun hb => ?_⟩
    · rw [flatMap_append, flatMap_pushBytes hall]
      rfl
    · rw [hsame hb, hsplit]
    · have := hless hb
      omega
  | case4 mode c cs hspace ih =>
    rw [regular, dif_neg hspace] at h
    obtain ⟨b, hpass, hle, hsame, hless⟩ := ih h
    rw [pass_char hspace, strip, dif_neg hspace, hpass, length_cons, length_cons]
    refine ⟨b, rfl, by omega, fun hb => by rw [hsame hb], fun hb => ?_⟩
    have := hless hb
    omega

/-- A text without the defects of the scanner. -/
structure Plain (html : List Char) : Prop where
  /-- The scanner sees every attribute and nothing else. -/
  regular : regular .text html
  /-- What stays when something is removed is ASCII. -/
  ascii : strip .text html ≠ html → ∀ c ∈ strip .text html, c.toNat < 128
  /-- What stays forms no new attribute, and nothing that the scanner takes for one. -/
  settled : strip .text (strip .text html) = strip .text html
  stays : Template.regular .text (strip .text html)

theorem removeDataAttrs_of_settled_strip (h : regular .text html)
    (hsettled : strip .text html = html) : removeDataAttrs html = some html := by
  obtain ⟨b, hpass, -, -, hless⟩ := pass_of_regular h
  cases b with
  | false => exact removeDataAttrs_of_settled hpass
  | true =>
    have hlt := hless rfl
    rw [hsettled] at hlt
    exact absurd hlt (lt_irrefl _)

theorem removeDataAttrs_of_plain (h : Plain html) :
    removeDataAttrs html = some (strip .text html) := by
  by_cases hsame : strip .text html = html
  · rw [removeDataAttrs_of_settled_strip h.regular hsame, hsame]
  · obtain ⟨b, hpass, -, heq, -⟩ := pass_of_regular h.regular
    cases b with
    | false => exact absurd (heq rfl) hsame
    | true =>
      rw [flatMap_pushBytes (h.ascii hsame)] at hpass
      rw [removeDataAttrs_of_removes hpass]
      exact removeDataAttrs_of_settled_strip h.stays h.settled

/-- **The scanners.** The first one is right just on harmless texts; the second one removes the
attributes of a plain text, and removing again changes nothing. -/
theorem scanners (attrs html : List Char) :
    (findAllDataBindAttrs attrs = some (dataBindAttrs attrs) ↔ Harmless attrs) ∧
      (Plain html → removeDataAttrs html = some (strip .text html)) ∧
      ∀ r, removeDataAttrs html = some r → removeDataAttrs r = some r :=
  ⟨findAll_iff attrs, removeDataAttrs_of_plain, fun _ => removeDataAttrs_idem⟩

theorem scanners_sample :
    removeDataAttrs "<a data-b=\"c\">d</a>".toList = some "<a>d</a>".toList := by
  have hstrip : strip .text "<a data-b=\"c\">d</a>".toList = "<a>d</a>".toList := by decide +kernel
  have hplain : Plain "<a data-b=\"c\">d</a>".toList := by
    refine ⟨by decide +kernel, ?_, ?_, ?_⟩
    · rw [hstrip]
      exact fun _ => by simp
    · decide +kernel
    · decide +kernel
  have hremoved := (scanners [] "<a data-b=\"c\">d</a>".toList).2.1 hplain
  rw [hremoved, hstrip]

theorem href_loses_initial : let attrs := " data-bind-href=\"url\"".toList
    let full := "data-bind-href=\"url\"".toList
    findAllDataBindAttrs attrs = some [⟨"ref".toList, "url".toList, full⟩] ∧
      dataBindAttrs attrs = [⟨"href".toList, "url".toList, full⟩] ∧
      ¬ ∀ attrs html : List Char, findAllDataBindAttrs attrs = some (dataBindAttrs attrs) ∧
        removeDataAttrs html = some (strip .text html) ∧
        ∀ r, removeDataAttrs html = some r → removeDataAttrs r = some r := by
  intro attrs full
  have hfound : findAllDataBindAttrs attrs = some [⟨"ref".toList, "url".toList, full⟩] := by
    decide +kernel
  have hattrs : dataBindAttrs attrs = [⟨"href".toList, "url".toList, full⟩] := by decide +kernel
  refine ⟨hfound, hattrs, fun h => ?_⟩
  have heq := (h attrs []).1
  rw [hfound, hattrs] at heq
  cases heq

-- a slice that ends inside of `é`, and `é` pushed byte by byte
example : removeDataAttrs "<p>un caffé</p>".toList = none := by decide +kernel

example : removeDataAttrs "<p data-x=\"1\">é</p>".toList = some "<p>Ã©</p>".toList := by
  decide +kernel

end Arth.Template
