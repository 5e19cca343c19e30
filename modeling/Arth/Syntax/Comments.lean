import Arth.Syntax.Quoted

/-!
# Comments between tokens

A blank or a comment put between two tokens leaves the tokens as they are, and what lies outside
of the tokens is blank or comment.

* `lexKind_steady` — a token stays when the text changes behind it from a blank or slash on.
* `Lexes.insert` — so do all the tokens in front of an insertion.
* `comments_transparent` — insertions and spans of a whole text.
-/

namespace Arth.Syntax

open Munch List Option

variable {F : String → F64} {t r r' : List Char} {k : TokenKind} {bs bs' rest ins : List Char}

/-- The blanks and comments that end a token begin so. -/
def Stops : TokenKind → Char → Prop
  | .docLine _, c => c = '\n'
  | .slash, c => isBlank c
  | _, c => Gap c

/-- The token has its end in the text. -/
def Whole (k : TokenKind) (text rest : List Char) : Prop :=
  match k with
  | .docBlock _ => ['*', '/'] <:+ text.drop 3
  | .unknown c => c ≠ '"' ∧ (c = '\'' → rest ≠ [])
  | _ => True

theorem lexString_steady (hu : UpTo Gap r r') (h : lexString (t ++ r) = (k, r))
    (hk : k ≠ .unknown '"') : lexString (t ++ r') = (k, r') := by
  rcases lexString_forms h hk with ⟨v, hv, rfl, rfl⟩ | ⟨w, v, hw, rfl, hplain, rfl⟩
  · have hloop : rawLoop (v ++ '"' :: '"' :: '"' :: r') = (some v, r') := rawLoop_iff.2 ⟨hv, rfl⟩
    simp only [append_assoc, cons_append, nil_append]
    rw [lexString, hloop]
    rfl
  · have hplain' : ¬ ['"', '"'] <+: w ++ ['"'] ++ r' := by
      rintro ⟨x, hx⟩
      cases w with
      | nil =>
        -- a third quote comes neither with a blank nor with a comment
        have hhead : '"' ∈ r'.head? := by
          have htail : '"' :: x = r' := (cons.inj hx).2
          rw [← htail]
          rfl
        rcases hu.head hhead with hgap | hhead
        · exact absurd hgap (by decide)
        · obtain ⟨r, rfl⟩ := List.head?_eq_some_iff.1 hhead
          exact hplain ⟨r, rfl⟩
      | cons c w => exact hw.not_quote (congrArg some (cons.inj hx).1.symm)
    have hloop := stringLoop_iff.2 ⟨w, hw, append_assoc w ['"'] r'⟩
    rw [lexString_plain hplain', hloop]
    rfl

theorem lexChar_steady (hu : UpTo Gap r r') (h : lexChar (t ++ r) = (k, r))
    (hk : k = .unknown '\'' → r ≠ []) : lexChar (t ++ r') = (k, r') := by
  rw [lexChar_eq] at h
  split_ifs at h with hquote
  · obtain ⟨rfl, hrest⟩ := Prod.mk.inj h
    obtain ⟨x, hx⟩ := head?_eq_some_iff.1 hquote
    rw [hx, tail_cons] at hrest
    subst hrest
    obtain ⟨u, hbs, -, hsteady⟩ := charBody_split hx (cons_ne_nil _ _)
    obtain rfl : u ++ ['\''] = t := by
      refine (append_left_inj x).1 ?_
      rw [hbs]
      simp
    rw [lexChar_eq, append_assoc u ['\''] r', hsteady]
    rfl
  · obtain ⟨rfl, hrest⟩ := Prod.mk.inj h
    obtain ⟨u, hbs, -, hsteady⟩ := charBody_split hrest (hk rfl)
    obtain rfl : u = t := append_cancel_right hbs.symm
    have hquote' : r'.head? ≠ some '\'' := by
      intro hhead
      rcases hu.head hhead with hgap | hhead
      · exact absurd hgap (by decide)
      · rw [hrest] at hquote
        exact hquote hhead
    rw [lexChar_eq, hsteady, if_neg hquote']

theorem lexSlash_alone (h : ∀ c ∈ bs.head?, c ≠ '=' ∧ c ≠ '/' ∧ c ≠ '*') :
    lexSlash bs = (some .slash, bs) := by
  unfold lexSlash
  split
  · exact absurd rfl (h _ rfl).1
  · exact absurd rfl (h _ rfl).2.1
  · exact absurd rfl (h _ rfl).2.2
  · exact absurd rfl (h _ rfl).2.1
  · exact absurd rfl (h _ rfl).2.2
  · rfl

theorem lexSlash_steady (h : lexSlash (t ++ r) = (some k, r)) (hwhole : Whole k ('/' :: t) r)
    (hhead : ∀ c ∈ r'.head?, Stops k c ∨ c ∈ r.head?) : lexSlash (t ++ r') = (some k, r') := by
  generalize hbs : t ++ r = bs at h
  unfold lexSlash at h
  split at h
  · cases h
    obtain rfl : t = ['='] := append_cancel_right (hbs.trans rfl)
    rfl
  · rename_i bs
    obtain ⟨hkind, hrest⟩ := Prod.mk.inj h
    cases hkind
    obtain ⟨w, rfl⟩ : ∃ w, bs = w ++ r := ⟨_, (hrest ▸ takeWhile_append_dropWhile).symm⟩
    obtain rfl : t = '/' :: '/' :: w := append_cancel_right hbs
    obtain ⟨hall, hstop⟩ := dropWhile_eq_iff.1 hrest
    have hdrop : (w ++ r').dropWhile (· ≠ '\n') = r' := by
      refine dropWhile_eq_iff.2 ⟨hall, fun c hc => ?_⟩
      rcases hhead c hc with rfl | hc
      · decide
      · exact hstop c hc
    rw [takeWhile_eq hrest, cons_append, cons_append, lexSlash, hdrop, takeWhile_eq hdrop]
  · rename_i bs
    obtain ⟨hkind, hrest⟩ := Prod.mk.inj h
    cases hkind
    obtain ⟨w, hw⟩ : r <:+ bs := hrest ▸ docBlockLoop_suffix bs
    subst hw
    obtain rfl : t = '*' :: '*' :: w := append_cancel_right hbs
    have hloop := docBlockLoop_append (Prod.ext rfl hrest) hwhole r'
    rw [cons_append, cons_append, lexSlash, hloop]
  · cases h
  · cases h
  · rename_i heq hdocLine hdocBlock hline hblock
    cases h
    obtain rfl : t = [] := append_left_eq_self.1 hbs
    refine lexSlash_alone fun c hc => ?_
    rcases hhead c hc with hblank | hc
    · refine ⟨?_, ?_, ?_⟩ <;> rintro rfl <;> cases hblank
    · obtain ⟨x, rfl⟩ := head?_eq_some_iff.1 hc
      refine ⟨?_, ?_, ?_⟩ <;> rintro rfl
      · exact heq x rfl
      · exact hline x rfl
      · exact hblock x rfl

theorem lexPunct_none (c : Char) (h : lexPunct c bs = none) : lexPunct c bs' = none := by
  by_contra hsome
  obtain ⟨p, hp⟩ := ne_none_iff_exists'.1 hsome
  obtain ⟨f, -, -, hf⟩ := lexPunct_scanner hp
  rw [hf bs] at h
  cases h

theorem lexKind_steady (hne : t ≠ []) (h : lexKind F (t ++ r) = (some k, r)) (hwhole : Whole k t r)
    (hu : UpTo Gap r r') (hhead : ∀ c ∈ r'.head?, Stops k c ∨ c ∈ r.head?) :
    lexKind F (t ++ r') = (some k, r') := by
  obtain ⟨c, t, rfl⟩ := exists_cons_of_ne_nil hne
  rw [cons_append, lexKind] at h ⊢
  by_cases hslash : c = '/'
  · subst hslash
    exact lexSlash_steady h hwhole hhead
  · rw [if_neg hslash] at h ⊢
    have hnone : ∀ {c bs}, lexPunct c bs = none → lexPunct c (t ++ r') = none :=
      lexPunct_none _
    cases hp : lexPunct c (t ++ r) with
    | some p =>
      rw [hp] at h
      obtain ⟨f, hf, rfl, hall⟩ := lexPunct_scanner hp
      obtain ⟨hkind, hrest⟩ := Prod.mk.inj h
      have hf' := hf.steady hu (Prod.ext (some.inj hkind) hrest)
      rw [hall]
      exact congrArg (fun p : TokenKind × List Char => (some p.1, p.2)) hf'
    | none =>
      have hsome : ∀ {f : List Char → TokenKind × List Char},
          (some (f (t ++ r)).1, (f (t ++ r)).2) = (some k, r) →
          (f (t ++ r) = (k, r) → f (t ++ r') = (k, r')) →
          (some (f (t ++ r')).1, (f (t ++ r')).2) = (some k, r') := by
        intro f h hf
        obtain ⟨hkind, hrest⟩ := Prod.mk.inj h
        rw [hf (Prod.ext (some.inj hkind) hrest)]
      rw [hp] at h
      rw [hnone hp]
      dsimp only at h ⊢
      split_ifs at h ⊢ with hdigit hquote htick hstart
      · exact hsome h ((lexNumber_scanner F c).steady hu)
      · refine hsome h fun h => lexString_steady hu h ?_
        rintro rfl
        exact hwhole.1 rfl
      · refine hsome h fun h => lexChar_steady hu h ?_
        rintro rfl
        exact hwhole.2 rfl
      · exact hsome h ((lexWord_scanner c).steady hu)
      · exact hsome (f := fun bs => (.unknown c, bs)) h ((Scanner.stay _).steady hu)

def slice (bs : List Char) (i j : Nat) : List Char := (bs.drop i).take (j - i)

/-- The tokens `toks` and what may stand between tokens make up the text from `pos` on. -/
def Tiles (bs : List Char) : Nat → List Token → Prop
  | pos, [] => pos = bs.length
  | pos, tok :: toks =>
    pos ≤ tok.start ∧ Between (slice bs pos tok.start) (bs.drop tok.start) ∧
      (if tok.kind = .eof then tok.start = tok.stop else tok.start < tok.stop) ∧
      tok.stop ≤ bs.length ∧ Tiles bs tok.stop toks

variable {toks : List Token} {pos : Nat} {len len' : Nat}

theorem Tiles.increasing (h : Tiles bs pos toks) :
    (∀ tok ∈ toks, pos ≤ tok.start) ∧ toks.Pairwise fun a b => a.stop ≤ b.start := by
  induction toks generalizing pos with
  | nil => exact ⟨nofun, .nil⟩
  | cons tok toks ih =>
    obtain ⟨hpos, -, hspan, -, htail⟩ := h
    obtain ⟨hall, hpairwise⟩ := ih htail
    have hstop : tok.start ≤ tok.stop := by
      split_ifs at hspan <;> omega
    refine ⟨forall_mem_cons.2 ⟨hpos, fun t ht => ?_⟩, .cons hall hpairwise⟩
    have := hall t ht
    omega

theorem offsets {g text : List Char} (hpos : pos ≤ bs.length)
    (h : bs.drop pos = g ++ (text ++ rest)) : bs.length - (text ++ rest).length = pos + g.length ∧
      bs.length - rest.length = pos + g.length + text.length ∧
      slice bs pos (pos + g.length) = g ∧ bs.drop (pos + g.length) = text ++ rest ∧
      slice bs (pos + g.length) (pos + g.length + text.length) = text ∧
      bs.drop (pos + g.length + text.length) = rest ∧ pos + g.length + text.length ≤ bs.length := by
  have hlen := congrArg length h
  simp only [length_drop, length_append] at hlen
  have hstart : bs.drop (pos + g.length) = text ++ rest := by
    rw [← drop_drop, h, drop_left]
  have hstop : bs.drop (pos + g.length + text.length) = rest := by
    rw [← drop_drop, hstart, drop_left]
  refine ⟨?_, ?_, ?_, hstart, ?_, hstop, ?_⟩
  · simp only [length_append]
    omega
  · omega
  · rw [slice, h, Nat.add_sub_cancel_left, take_left]
  · rw [slice, hstart, Nat.add_sub_cancel_left, take_left]
  · omega

theorem Lexes.tiles
    (h : Lexes F bs.length rest toks) (hpos : pos ≤ bs.length) (hrest : bs.drop pos = rest) :
    Tiles bs pos toks := by
  induction h generalizing pos with
  | @eof rest hskip =>
    obtain ⟨g, hg, hbetween, -⟩ := skip_split rest
    rw [hskip, append_nil] at hg
    rw [hskip] at hbetween
    have hslice : slice bs pos bs.length = g := by
      rw [slice, hrest, ← hg, take_of_length_le]
      rw [← hrest, length_drop]
    have hnil : bs.drop bs.length = [] := drop_length
    exact ⟨hpos, by rwa [hslice, hnil], by rw [if_pos rfl], le_rfl, rfl⟩
  | @token bytes text rest kind toks hskip hkind hne _ ih =>
    obtain ⟨g, hg, hbetween, -⟩ := skip_split bytes
    rw [hskip] at hg hbetween
    obtain ⟨hstart, hstop, hslice, hdrop, -, hafter, hle⟩ := offsets hpos (hrest.trans hg)
    have hpositive := length_pos_of_ne_nil hne
    have hkind : kind ≠ .eof := by
      obtain ⟨c, text, rfl⟩ := exists_cons_of_ne_nil hne
      rintro rfl
      exact lexKind_ne_eof F c _ (congrArg Prod.fst hkind)
    rw [hstart, hstop]
    refine ⟨by dsimp only; omega, ?_, ?_, hle, ih hle hafter⟩
    · rwa [hslice, hdrop]
    · rw [if_neg hkind]
      dsimp only
      omega

/-- A blank or a comment. -/
def Insertion (ins : List Char) : Prop := (∃ c, isBlank c ∧ ins = [c]) ∨ Comment ins

theorem Insertion.trivia (h : Insertion ins) : Trivia ins := by
  rcases h with ⟨c, hc, rfl⟩ | h
  · exact .blank hc .nil
  · rw [← append_nil ins]
    exact .comment h .nil

theorem Insertion.cons (h : Insertion ins) : ∃ g z, ins = g :: z ∧ Gap g := by
  rcases h with ⟨c, hc, rfl⟩ | h
  · exact ⟨c, [], rfl, .inl hc⟩
  · cases h <;> exact ⟨_, _, rfl, .inr rfl⟩

/-- From `pos` to `stop` there are the tokens `toks`, all with their ends, and blanks and complete
comments. -/
def Laid (bs : List Char) : Nat → List Token → Nat → Prop
  | pos, [], stop => pos ≤ stop ∧ Trivia (slice bs pos stop)
  | pos, tok :: toks, stop =>
    Trivia (slice bs pos tok.start) ∧
      Whole tok.kind (slice bs tok.start tok.stop) (bs.drop tok.stop) ∧ Laid bs tok.stop toks stop

/-- The place behind `p` lies between the tokens `before` and `behind`, in no comment. -/
structure Place (F : String → F64) (p q : String) (before behind : List Token) : Prop where
  tokens : lexAll F (p ++ q) = before ++ behind
  behind : behind ≠ []
  laid : Laid (bytesOf (p ++ q)) 0 before (bytesOf p).length

theorem Lexes.resume (h : Lexes F len bs toks) (hskip : skip bs' = skip bs) :
    ∃ toks', Lexes F len' bs' toks' ∧ toks'.map Token.kind = toks.map Token.kind := by
  induction h generalizing bs' with
  | eof hs => exact ⟨_, .eof (hskip.trans hs), rfl⟩
  | token hs hkind hne _ ih =>
    obtain ⟨toks', htoks, hkinds⟩ := ih rfl
    exact ⟨_, .token (hskip.trans hs) hkind hne htoks, congrArg (_ :: ·) hkinds⟩

theorem lexSlash_line (h : t.head? ≠ some '/') : (lexSlash ('/' :: t)).1 = none := by
  unfold lexSlash
  split <;> simp_all

theorem lexSlash_block (h : t.head? ≠ some '*') : (lexSlash ('*' :: t)).1 = none := by
  unfold lexSlash
  split <;> simp_all

theorem atToken_of_lexKind (hblank : ∀ c ∈ t.head?, isBlank c = false)
    (h : lexKind F t = (some k, r)) : AtToken t := by
  refine ⟨hblank, ?_, ?_⟩
  · rintro x rfl
    by_contra hdoc
    have hnone := lexSlash_line hdoc
    rw [lexKind, if_pos rfl] at h
    rw [h] at hnone
    cases hnone
  · rintro x rfl
    by_contra hdoc
    have hnone := lexSlash_block hdoc
    rw [lexKind, if_pos rfl] at h
    rw [h] at hnone
    cases hnone

theorem Lexes.insert {p q : List Char} {pos : Nat} {before behind : List Token}
    (hins : Insertion ins) (hbehind : behind ≠ [])
    (h : Lexes F len rest (before ++ behind)) (hlen : len = (p ++ q).length)
    (hpos : pos ≤ (p ++ q).length) (hrest : (p ++ q).drop pos = rest)
    (hlaid : Laid (p ++ q) pos before p.length)
    (hstops : ∀ tok ∈ before, tok.stop = p.length → ∀ c ∈ ins.head?, Stops tok.kind c) :
    pos ≤ p.length ∧ ∃ toks', Lexes F len' (p.drop pos ++ (ins ++ q)) toks' ∧
      toks'.map Token.kind = (before ++ behind).map Token.kind := by
  subst hlen
  -- on the tokens in front of the insertion
  induction before generalizing rest pos with
  | nil =>
    obtain ⟨hle, htrivia⟩ := hlaid
    have hslice : slice (p ++ q) pos p.length = p.drop pos := by
      rw [slice, drop_append_of_le_length hle, take_left' (length_drop)]
    rw [hslice] at htrivia
    refine ⟨hle, h.resume ?_⟩
    rw [← hrest, drop_append_of_le_length hle, htrivia.skip_append, htrivia.skip_append,
      hins.trivia.skip_append]
  | cons tok before ih =>
    obtain ⟨htrivia, hwhole, hlaid⟩ := hlaid
    rw [cons_append] at h
    generalize htoks : before ++ behind = toks at h
    cases h with
    | eof => exact absurd (append_eq_nil_iff.1 htoks).2 hbehind
    | @token _ text rest' kind _ hskip hkind hne h =>
      subst htoks
      obtain ⟨g, hg, -, hat⟩ := skip_split rest
      rw [hskip] at hg hat
      obtain ⟨hstart, hstop, hslice, hdrop, htext, hafter, hle⟩ := offsets hpos (hrest.trans hg)
      rw [hstart, hslice] at htrivia
      rw [hstart, hstop, htext, hafter] at hwhole
      rw [hstop] at hlaid
      obtain ⟨hle', toks', htoks', hkinds⟩ := ih hle hafter hlaid
        (fun tok htok => hstops tok (mem_cons_of_mem _ htok)) h
      set u := p.drop (pos + g.length + text.length) with hu
      obtain rfl : u ++ q = rest' := by rw [← hafter, drop_append_of_le_length hle']
      have hpos' : pos ≤ p.length := by omega
      have hsplit : p.drop pos = g ++ (text ++ u) := by
        refine (append_left_inj q).1 ?_
        rw [← drop_append_of_le_length hpos', hrest, hg]
        simp only [append_assoc]
      -- the token does not see the insertion
      have hkind' : lexKind F (text ++ (u ++ (ins ++ q))) = (some kind, u ++ (ins ++ q)) := by
        obtain ⟨c, z, hz, hc⟩ := hins.cons
        have hupto : UpTo Gap (u ++ q) (u ++ (ins ++ q)) := hz ▸ .insert hc u q z
        refine lexKind_steady hne hkind hwhole hupto fun d hd => ?_
        cases hcase : u with
        | nil =>
          have hend : pos + g.length + text.length = p.length := by
            have hlen := drop_eq_nil_iff.1 (hu.symm.trans hcase)
            omega
          refine .inl (hstops _ mem_cons_self (hstop.trans hend) d ?_)
          rw [hcase, hz] at hd
          rw [hz]
          exact hd
        | cons e u =>
          rw [hcase] at hd
          exact .inr hd
      refine ⟨hpos', _, @Lexes.token _ _ _ text _ _ _ ?_ hkind' hne htoks',
        congrArg (kind :: ·) hkinds⟩
      rw [hsplit, append_assoc, htrivia.skip_append, append_assoc]
      refine skip_token (atToken_of_lexKind ?_ hkind')
      obtain ⟨c, text, rfl⟩ := exists_cons_of_ne_nil hne
      exact hat.1

theorem kinds_insert {p q ins : String} {before behind : List Token}
    (hplace : Place F p q before behind) (hins : Insertion (bytesOf ins))
    (hstops : ∀ tok ∈ before, tok.stop = (bytesOf p).length →
      ∀ c ∈ (bytesOf ins).head?, Stops tok.kind c) :
    (lexAll F (p ++ ins ++ q)).map Token.kind = (lexAll F (p ++ q)).map Token.kind := by
  have hlexes := lexAll_lexes F (p ++ q)
  have hlaid := hplace.laid
  rw [hplace.tokens, bytesOf_append] at hlexes
  rw [bytesOf_append] at hlaid
  have hinserted := lexAll_lexes F (p ++ ins ++ q)
  obtain ⟨-, toks, htoks, hkinds⟩ := hlexes.insert hins hplace.behind rfl (Nat.zero_le _) rfl
    hlaid hstops
  rw [bytesOf_append, bytesOf_append, append_assoc] at hinserted
  rw [hinserted.unique htoks, hkinds, hplace.tokens]

/-- Insertions between tokens change no kind of a token, and every text consists of its tokens, one
behind the other, and of blanks and comments. -/
theorem comments_transparent (F : String → F64) :
    (∀ p ins q before behind, Place F p q before behind → Insertion (bytesOf ins) →
      (∀ tok ∈ before, tok.stop = (bytesOf p).length →
        ∀ c ∈ (bytesOf ins).head?, Stops tok.kind c) →
      (lexAll F (p ++ ins ++ q)).map Token.kind = (lexAll F (p ++ q)).map Token.kind) ∧
    ∀ s, Tiles (bytesOf s) 0 (lexAll F s) ∧ (lexAll F s).Pairwise fun a b => a.stop ≤ b.start := by
  refine ⟨fun p ins q before behind hplace hins hstops => kinds_insert hplace hins hstops,
    fun s => ?_⟩
  have htiles := (lexAll_lexes F s).tiles (Nat.zero_le _) drop_zero
  exact ⟨htiles, htiles.increasing.2⟩

theorem comment_behind_slash :
    ¬ ∀ (F : String → F64) (p ins q : String) (before behind : List Token),
      Place F p q before behind → Insertion (bytesOf ins) →
      (lexAll F (p ++ ins ++ q)).map Token.kind = (lexAll F (p ++ q)).map Token.kind := by
  intro h
  have hcomment : Insertion (bytesOf "/* x */") :=
    .inr (.block (w := " x */".toList) (by decide) (.char (by decide) (by decide)
      (.char (by decide) (by decide) (.char (by decide) (by decide) (.stop .done)))))
  have hplace : Place (fun _ => ⟨0⟩) "a /" " b" [⟨.ident "a", 0, 1⟩, ⟨.slash, 2, 3⟩]
      [⟨.ident "b", 4, 5⟩, ⟨.eof, 5, 5⟩] :=
    { tokens := by decide +kernel
      behind := cons_ne_nil _ _
      laid := ⟨.nil, trivial, .blank (by decide) .nil, trivial, Nat.le_refl _, .nil⟩ }
  exact absurd (h _ _ _ _ _ _ hplace hcomment) (by decide +kernel)

end Arth.Syntax
