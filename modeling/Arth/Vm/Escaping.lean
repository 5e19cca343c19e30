import Arth.Lib.Occurrences
import Arth.Lib.PrefixCode

/-!
# Escaping text for HTML

`template_escape_html` and `template_unescape_html` of `template.inc.rs`, on lists of
characters.

* `escapeHtml`, `unescapeHtml` — the two functions.
* `replaceAll_encode` — one replacement of the chain, on a text in which some characters are
  still written as entities.
* `unescape_escape` — the chain without its first replacement, on the text itself.
* `unescape_escape_iff` — the texts that come back unchanged.
-/

namespace Arth.Template

open List

open Occurrences (replaceAll)

/-- `&name;` -/
def entity (name : List Char) : List Char := '&' :: (name ++ [';'])

def amp : List Char := ['a', 'm', 'p']

def lt : List Char := ['l', 't']

def gt : List Char := ['g', 't']

def quot : List Char := ['q', 'u', 'o', 't']

def x27 : List Char := ['#', 'x', '2', '7']

def n39 : List Char := ['#', '3', '9']

/-- A character with its entity if the table has one. -/
def encode (table : List (Char × List Char)) (c : Char) : List Char :=
  match table.lookup c with
  | some name => entity name
  | none => [c]

/-- The arms of `template_escape_html` but that of `&`. -/
def marks : List (Char × List Char) := [('<', lt), ('>', gt), ('"', quot), ('\'', x27)]

def escapeHtml (text : List Char) : List Char := text.flatMap (encode (('&', amp) :: marks))

def unescapeHtml (text : List Char) : List Char :=
  let text := replaceAll (entity amp) ['&'] text
  let text := replaceAll (entity lt) ['<'] text
  let text := replaceAll (entity gt) ['>'] text
  let text := replaceAll (entity quot) ['"'] text
  let text := replaceAll (entity x27) ['\''] text
  replaceAll (entity n39) ['\''] text

/-! ## One replacement -/

section Replace

variable {table : List (Char × List Char)} {c : Char} {name name' s t u : List Char} {p : List Char}
    {d : Char}

theorem entity_ne_nil : entity name ≠ [] := cons_ne_nil _ _

theorem eq_of_entity_starts (h : ';' ∉ name) (h' : ';' ∉ name')
    (hstarts : entity name <+: entity name' ++ t) : name = name' := by
  have htail : name ++ [';'] <+: name' ++ ';' :: t := by
    have := (cons_prefix_cons.1 hstarts).2
    simpa using this
  induction name generalizing name' with
  | nil =>
    cases name' with
    | nil => rfl
    | cons d name' =>
      obtain ⟨heq, -⟩ := cons_prefix_cons.1 htail
      exact absurd (heq ▸ mem_cons_self) h'
  | cons d name ih =>
    cases name' with
    | nil =>
      obtain ⟨heq, -⟩ := cons_prefix_cons.1 htail
      exact absurd (heq ▸ mem_cons_self) h
    | cons d' name' =>
      obtain ⟨rfl, hrest⟩ := cons_prefix_cons.1 htail
      have hname : ';' ∉ name := fun hmem => h (mem_cons_of_mem _ hmem)
      have hname' : ';' ∉ name' := fun hmem => h' (mem_cons_of_mem _ hmem)
      have hstarts' : entity name <+: entity name' ++ t := by
        refine cons_prefix_cons.2 ⟨rfl, ?_⟩
        simpa using hrest
      rw [ih hname hname' hstarts' hrest]

theorem prefix_flatMap_encode (hp : ∀ c ∈ p, table.lookup c = none ∧ c ≠ '&') :
    p <+: s.flatMap (encode table) ↔ p <+: s := by
  induction p generalizing s with
  | nil => simp
  | cons c p ih =>
    obtain ⟨⟨hc, hamp⟩, hp⟩ := forall_mem_cons.1 hp
    cases s with
    | nil => simp
    | cons d s =>
      rw [flatMap_cons]
      cases hd : table.lookup d with
      | none =>
        rw [encode, hd, singleton_append, cons_prefix_cons, cons_prefix_cons, ih hp]
      | some name =>
        rw [encode, hd]
        refine iff_of_false (fun h => hamp (cons_prefix_cons.1 h).1) fun h => ?_
        obtain rfl := (cons_prefix_cons.1 h).1
        exact nomatch hc.symm.trans hd

theorem mem_of_lookup (h : table.lookup c = some name) : (c, name) ∈ table := by
  obtain ⟨before, after, rfl, -⟩ := lookup_eq_some_iff.1 h
  simp

theorem lookup_cons_ne (h : d ≠ c) : ((c, name) :: table).lookup d = table.lookup d := by
  rw [lookup_cons, beq_false_of_ne h]

theorem flatMap_encode_of_free (hp : ∀ c ∈ p, table.lookup c = none) :
    p.flatMap (encode table) = p := by
  induction p with
  | nil => rfl
  | cons c p ih =>
    obtain ⟨hc, hp⟩ := forall_mem_cons.1 hp
    rw [flatMap_cons, encode, hc, ih hp]
    rfl

/-- What can stand in an entity. -/
def IsName (name : List Char) : Prop := ';' ∉ name ∧ '&' ∉ name

theorem replaceAll_entity_ne (h : IsName name) (h' : IsName name') (hne : name ≠ name') :
    replaceAll (entity name) u (entity name' ++ t) =
      entity name' ++ replaceAll (entity name) u t := by
  refine Occurrences.replaceAll_append_of_not_starts entity_ne_nil ?_
  intro q r heq hr hstarts
  cases q with
  | nil =>
    rw [nil_append] at heq
    rw [← heq] at hstarts
    exact hne (eq_of_entity_starts h.1 h'.1 hstarts)
  | cons x q =>
    obtain ⟨-, htail⟩ := cons.inj heq
    cases r with
    | nil => exact hr rfl
    | cons y r =>
      -- the ampersand is only in front
      obtain ⟨rfl, -⟩ := cons_prefix_cons.1 hstarts
      have hmem : '&' ∈ name' ++ [';'] := by
        rw [htail]
        simp
      rcases mem_append.1 hmem with hmem | hmem
      · exact h'.2 hmem
      · exact absurd hmem (by decide)

theorem replaceAll_cons_ne (hd : d ≠ '&') :
    replaceAll (entity name) u (d :: s) = d :: replaceAll (entity name) u s := by
  refine Occurrences.replaceAll_cons_of_not_starts entity_ne_nil fun h => ?_
  exact hd (cons_prefix_cons.1 h).1.symm

/-- What one replacement needs: the names that are left are other names, and those characters
that make up the name stand for themselves. -/
structure Next (c : Char) (name : List Char) (table : List (Char × List Char)) : Prop where
  isName : IsName name
  other : ∀ mark ∈ table, IsName mark.2 ∧ name ≠ mark.2
  fresh : c ≠ '&' ∧ table.lookup c = none
  amp : table.lookup '&' = none
  plain : ∀ d ∈ name ++ [';'], d ≠ c ∧ table.lookup d = none

/-- **One replacement.** On a text in which `c` is still encoded, it gives what it gives on the
text itself, with `c` no longer encoded. -/
theorem replaceAll_encode (h : Next c name table) (s : List Char) :
    replaceAll (entity name) [c] (s.flatMap (encode ((c, name) :: table))) =
      (replaceAll (entity name) [c] s).flatMap (encode table) := by
  have hplain : ∀ d ∈ name ++ [';'], ((c, name) :: table).lookup d = none ∧ d ≠ '&' := by
    intro d hd
    obtain ⟨hne, hlookup⟩ := h.plain d hd
    refine ⟨?_, ?_⟩
    · rw [lookup_cons_ne hne]
      exact hlookup
    · rintro rfl
      rcases mem_append.1 hd with hd | hd
      · exact h.isName.2 hd
      · exact absurd hd (by decide)
  induction hn : s.length using Nat.strong_induction_on generalizing s with
  | _ n ih =>
    cases s with
    | nil =>
      rw [flatMap_nil, Occurrences.replaceAll_nil entity_ne_nil, flatMap_nil]
    | cons d s =>
      have hrest := ih s.length (by simp at hn; omega) s rfl
      rw [flatMap_cons]
      by_cases hd : d = c
      · subst hd
        have hhere : encode ((d, name) :: table) d = entity name := by
          rw [encode, lookup_cons_self]
        have hthere : encode table d = [d] := by rw [encode, h.fresh.2]
        rw [hhere, Occurrences.replaceAll_append_self entity_ne_nil, hrest,
          replaceAll_cons_ne h.fresh.1, flatMap_cons, hthere]
      · have hskip : ((c, name) :: table).lookup d = table.lookup d := lookup_cons_ne hd
        cases hlookup : table.lookup d with
        | some name' =>
          obtain ⟨hname', hne⟩ := h.other (d, name') (mem_of_lookup hlookup)
          have hamp : d ≠ '&' := by
            rintro rfl
            exact nomatch h.amp.symm.trans hlookup
          have hhere : encode ((c, name) :: table) d = entity name' := by
            rw [encode, hskip, hlookup]
          have hthere : encode table d = entity name' := by rw [encode, hlookup]
          rw [hhere, replaceAll_entity_ne h.isName hname' hne, hrest, replaceAll_cons_ne hamp,
            flatMap_cons, hthere]
        | none =>
          have hhere : encode ((c, name) :: table) d = [d] := by rw [encode, hskip, hlookup]
          have hthere : encode table d = [d] := by rw [encode, hlookup]
          rw [hhere, singleton_append]
          by_cases hstarts : entity name <+: d :: s
          · -- the text itself has the entity here
            obtain ⟨s', hs'⟩ := hstarts
            obtain ⟨hhead, htail⟩ := cons.inj hs'
            obtain rfl : d = '&' := hhead.symm
            obtain rfl : s = (name ++ [';']) ++ s' := htail.symm
            have hfree : ∀ x ∈ name ++ [';'], ((c, name) :: table).lookup x = none :=
              fun x hx => (hplain x hx).1
            have hrest' := ih s'.length (by simp at hn; omega) s' rfl
            have hfront : '&' :: ((name ++ [';']) ++ s').flatMap (encode ((c, name) :: table)) =
                entity name ++ s'.flatMap (encode ((c, name) :: table)) := by
              rw [flatMap_append, flatMap_encode_of_free hfree]
              rfl
            have hback : '&' :: ((name ++ [';']) ++ s') = entity name ++ s' := rfl
            have hc : encode table c = [c] := by rw [encode, h.fresh.2]
            rw [hfront, hback, Occurrences.replaceAll_append_self entity_ne_nil,
              Occurrences.replaceAll_append_self entity_ne_nil, hrest', flatMap_append,
              flatMap_singleton, hc]
          · have hstarts' : ¬ entity name <+: d :: s.flatMap (encode ((c, name) :: table)) := by
              rintro hp
              obtain ⟨rfl, htail⟩ := cons_prefix_cons.1 hp
              rw [prefix_flatMap_encode hplain] at htail
              exact hstarts (cons_prefix_cons.2 ⟨rfl, htail⟩)
            rw [Occurrences.replaceAll_cons_of_not_starts entity_ne_nil hstarts',
              Occurrences.replaceAll_cons_of_not_starts entity_ne_nil hstarts, hrest,
              flatMap_cons, hthere]
            rfl

theorem replaceAll_amp {s : List Char} (h : IsName name)
    (hother : ∀ mark ∈ table, IsName mark.2 ∧ name ≠ mark.2) (hamp : table.lookup '&' = none) :
    replaceAll (entity name) ['&'] (s.flatMap (encode (('&', name) :: table))) =
      s.flatMap (encode table) := by
  induction s with
  | nil => rw [flatMap_nil, Occurrences.replaceAll_nil entity_ne_nil, flatMap_nil]
  | cons d s ih =>
    rw [flatMap_cons, flatMap_cons]
    by_cases hd : d = '&'
    · subst hd
      have hhere : encode (('&', name) :: table) '&' = entity name := by
        rw [encode, lookup_cons_self]
      rw [hhere, Occurrences.replaceAll_append_self entity_ne_nil, ih, encode, hamp]
    · have hhere : encode (('&', name) :: table) d = encode table d := by
        rw [encode, encode, lookup_cons_ne hd]
      rw [hhere, encode]
      cases hlookup : table.lookup d with
      | some name' =>
        obtain ⟨hname', hne⟩ := hother (d, name') (mem_of_lookup hlookup)
        exact (replaceAll_entity_ne h hname' hne).trans (congrArg _ ih)
      | none => exact (replaceAll_cons_ne hd).trans (congrArg _ ih)

end Replace

/-! ## The chain -/

/-- The replacements but the first one. -/
def chain : List (Char × List Char) := marks ++ [('\'', n39)]

def replaceChain (chain : List (Char × List Char)) (text : List Char) : List Char :=
  chain.foldl (fun text mark => replaceAll (entity mark.2) [mark.1] text) text

instance {name : List Char} : Decidable (IsName name) :=
  inferInstanceAs (Decidable (_ ∧ _))

theorem next_lt : Next '<' lt [('>', gt), ('"', quot), ('\'', x27)] :=
  ⟨by decide, by decide, by decide, by decide, by simp [lt]⟩

theorem next_gt : Next '>' gt [('"', quot), ('\'', x27)] :=
  ⟨by decide, by decide, by decide, by decide, by simp [gt]⟩

theorem next_quot : Next '"' quot [('\'', x27)] :=
  ⟨by decide, by decide, by decide, by decide, by simp [quot]⟩

theorem next_x27 : Next '\'' x27 [] :=
  ⟨by decide, by decide, by decide, by decide, by simp [x27]⟩

/-- **Unescaping what was escaped** does to a text what the replacements other than the first
one do to it. -/
theorem unescape_escape (s : List Char) : unescapeHtml (escapeHtml s) = replaceChain chain s := by
  have hamp : replaceAll (entity amp) ['&'] (escapeHtml s) = s.flatMap (encode marks) :=
    replaceAll_amp (by decide) (by decide) (by decide)
  have hnil (t : List Char) : t.flatMap (encode []) = t :=
    flatMap_encode_of_free fun _ _ => rfl
  simp only [unescapeHtml]
  rw [hamp, marks, replaceAll_encode next_lt, replaceAll_encode next_gt,
    replaceAll_encode next_quot, replaceAll_encode next_x27, hnil]
  rfl

theorem replaceChain_eq_self_iff (chain : List (Char × List Char)) (s : List Char) :
    (replaceChain chain s).length ≤ s.length ∧
      (replaceChain chain s = s ↔ ∀ mark ∈ chain, ¬ entity mark.2 <:+: s) := by
  induction chain generalizing s with
  | nil => exact ⟨le_rfl, iff_of_true rfl nofun⟩
  | cons mark chain ih =>
    have hshort : [mark.1].length < (entity mark.2).length := by
      simp [entity]
    have hfold : replaceChain (mark :: chain) s =
        replaceChain chain (replaceAll (entity mark.2) [mark.1] s) := rfl
    obtain ⟨hle, hlt⟩ := Occurrences.length_replaceAll hshort s
    have hrest := (ih (replaceAll (entity mark.2) [mark.1] s)).1
    rw [hfold, forall_mem_cons]
    refine ⟨hrest.trans hle, ?_⟩
    by_cases hocc : entity mark.2 <:+: s
    · have hless := hlt hocc
      refine iff_of_false (fun heq => ?_) fun h => h.1 hocc
      have hlen := congrArg length heq
      omega
    · have hsame := (Occurrences.replaceAll_eq_self_iff hshort).2 hocc
      rw [hsame, (ih s).2]
      exact ⟨fun h => ⟨hocc, h⟩, And.right⟩

/-- Nothing in the text reads like an entity of `<`, `>`, a quote or an apostrophe. -/
def EntityFree (s : List Char) : Prop :=
  ∀ name ∈ [lt, gt, quot, x27, n39], ¬ entity name <:+: s

theorem unescape_escape_iff (s : List Char) : unescapeHtml (escapeHtml s) = s ↔ EntityFree s := by
  rw [unescape_escape, (replaceChain_eq_self_iff chain s).2]
  simp only [EntityFree, chain, marks, cons_append, nil_append, forall_mem_cons]
  simp

/-- No character of markup, and an ampersand only at the start of an entity. -/
structure Inert (s : List Char) : Prop where
  free : ∀ c ∈ ['<', '>', '"', '\''], c ∉ s
  amp : ∀ before after, s = before ++ '&' :: after →
    ∃ name ∈ [amp, lt, gt, quot, x27], entity name <+: '&' :: after

theorem encode_cases (d : Char) : (∃ name, (d, name) ∈ ('&', amp) :: marks ∧
      encode (('&', amp) :: marks) d = entity name) ∨
      encode (('&', amp) :: marks) d = [d] ∧ ∀ mark ∈ ('&', amp) :: marks, d ≠ mark.1 := by
  unfold encode
  cases h : (('&', amp) :: marks).lookup d with
  | some name => exact .inl ⟨name, mem_of_lookup h, rfl⟩
  | none =>
    refine .inr ⟨rfl, fun mark hmark => ?_⟩
    simpa using lookup_eq_none_iff.1 h mark hmark

theorem marks_spec : ∀ mark ∈ ('&', amp) :: marks, IsName mark.2 ∧
    ∀ c ∈ ['<', '>', '"', '\''], c ∉ entity mark.2 := by
  simp [marks, IsName, amp, lt, gt, quot, x27, entity]

theorem inert_escapeHtml (s : List Char) : Inert (escapeHtml s) := by
  refine ⟨fun c hc hmem => ?_, ?_⟩
  · obtain ⟨d, -, hd⟩ := mem_flatMap.1 hmem
    rcases encode_cases d with ⟨name, hname, heq⟩ | ⟨heq, hfree⟩
    · rw [heq] at hd
      exact (marks_spec _ hname).2 c hc hd
    · rw [heq, mem_singleton] at hd
      subst hd
      have hmark : ∃ mark ∈ ('&', amp) :: marks, c = mark.1 := by
        simp only [mem_cons, not_mem_nil, or_false] at hc
        simpa [marks] using .inr hc
      obtain ⟨mark, hmark, rfl⟩ := hmark
      exact hfree mark hmark rfl
  · induction s with
    | nil =>
      intro before after heq
      exact absurd heq (by simp [escapeHtml])
    | cons d s ih =>
      intro before after heq
      have heq : encode (('&', amp) :: marks) d ++ escapeHtml s = before ++ '&' :: after := by
        rw [← heq]
        rfl
      rcases encode_cases d with ⟨name, hname, henc⟩ | ⟨henc, hfree⟩
      · rw [henc] at heq
        cases before with
        | nil =>
          refine ⟨name, ?_, escapeHtml s, ?_⟩
          · exact mem_map_of_mem (f := Prod.snd) hname
          · rw [heq]
            rfl
        | cons e before =>
          -- the entity has no other ampersand
          obtain ⟨-, htail⟩ := cons.inj heq
          rcases append_eq_append_iff.1 htail with ⟨mid, -, hmid⟩ | ⟨mid, hname', hmid⟩
          · exact ih mid after hmid
          · cases mid with
            | nil => exact ih [] after (by simpa using hmid.symm)
            | cons x mid =>
              obtain ⟨rfl, -⟩ := cons.inj hmid
              have hmem : '&' ∈ name ++ [';'] := by
                rw [hname']
                simp
              rcases mem_append.1 hmem with hmem | hmem
              · exact absurd hmem (marks_spec _ hname).1.2
              · exact absurd hmem (by decide)
      · rw [henc] at heq
        cases before with
        | nil =>
          obtain ⟨rfl, -⟩ := cons.inj heq
          exact absurd rfl (hfree _ mem_cons_self)
        | cons e before => exact ih before after (cons.inj heq).2

theorem prefixFree_encode :
    PrefixCode.PrefixFree (fun _ => True) (encode (('&', amp) :: marks)) := by
  have hsingle {d : Char} {name : List Char} (hd : ∀ mark ∈ ('&', amp) :: marks, d ≠ mark.1) :
      ¬ [d] <+: entity name ∧ ¬ entity name <+: [d] := by
    have hne := hd _ mem_cons_self
    exact ⟨fun h => hne (cons_prefix_cons.1 h).1, fun h => hne (cons_prefix_cons.1 h).1.symm⟩
  intro a b _ _ hstarts
  rcases encode_cases a with ⟨name, hname, heq⟩ | ⟨heq, hfree⟩
  · rcases encode_cases b with ⟨name', hname', heq'⟩ | ⟨heq', hfree'⟩
    · rw [heq, heq'] at hstarts
      have hsame : name = name' := eq_of_entity_starts (t := []) (marks_spec _ hname).1.1
        (marks_spec _ hname').1.1 (by simpa using hstarts)
      rw [heq, heq', hsame]
    · rw [heq, heq'] at hstarts
      exact absurd hstarts (hsingle hfree').2
  · rcases encode_cases b with ⟨name', hname', heq'⟩ | ⟨heq', hfree'⟩
    · rw [heq, heq'] at hstarts
      exact absurd hstarts (hsingle hfree).1
    · rw [heq, heq'] at hstarts
      rw [heq, heq', (cons_prefix_cons.1 hstarts).1]

theorem encode_injective : Function.Injective (encode (('&', amp) :: marks)) := by
  have hmarks : ∀ mark ∈ ('&', amp) :: marks, ∀ mark' ∈ ('&', amp) :: marks,
      mark.2 = mark'.2 → mark.1 = mark'.1 := by
    simp [marks, amp, lt, gt, quot, x27]
  intro a b heq
  rcases encode_cases a with ⟨name, hname, ha⟩ | ⟨ha, hfree⟩
  · rcases encode_cases b with ⟨name', hname', hb⟩ | ⟨hb, hfree'⟩
    · rw [ha, hb] at heq
      have hsame : name = name' := append_cancel_right (cons.inj heq).2
      exact hmarks _ hname _ hname' hsame
    · rw [ha, hb] at heq
      exact absurd (cons.inj heq).1.symm (hfree' _ mem_cons_self)
  · rcases encode_cases b with ⟨name', hname', hb⟩ | ⟨hb, hfree'⟩
    · rw [ha, hb] at heq
      exact absurd (cons.inj heq).1 (hfree _ mem_cons_self)
    · rw [ha, hb] at heq
      exact (cons.inj heq).1

/-- **Escaping is injective.** -/
theorem escapeHtml_injective : Function.Injective escapeHtml := by
  intro s t heq
  have hends : PrefixCode.Ends (fun _ => True) (encode (('&', amp) :: marks)) [] := by
    intro a _ hstarts
    rcases encode_cases a with ⟨name, -, ha⟩ | ⟨ha, -⟩
    · rw [ha] at hstarts
      exact nomatch prefix_nil.1 hstarts
    · rw [ha] at hstarts
      exact nomatch prefix_nil.1 hstarts
  have hmap := (prefixFree_encode.flatMap hends hends (fun _ _ => trivial) (fun _ _ => trivial)
    (congrArg (· ++ []) heq)).1
  exact map_injective_iff.2 encode_injective hmap

end Arth.Template
