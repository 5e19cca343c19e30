import Arth.Parser.Written

/-!
# The cast lookahead

A parenthesis opens a cast when a type name, the closing parenthesis and the start of an
operand follow.

* `castType_cast` — the type of a written cast is found.
* `castType_paren` — a parenthesised expression is not taken for a cast, unless it is made of
  names, dots and `<` only and the start of an operand follows.
-/

namespace Arth.Parser

open List

open Ast (Expr NamePath BinOp UnOp)
open Syntax (Token TokenKind)
open Filter (atTop)

/-- The tokens have these kinds; where they stand in the text is free. -/
def Spells (ts : Tokens) (ks : List TokenKind) : Prop := ts.map (·.kind) = ks

variable {ts : Tokens}

theorem spells_nil : Spells ts [] ↔ ts = [] := by
  simp [Spells]

variable {ks : List TokenKind} {k : TokenKind}

theorem spells_cons :
    Spells ts (k :: ks) ↔ ∃ start stop ts', ts = ⟨k, start, stop⟩ :: ts' ∧ Spells ts' ks := by
  constructor
  · intro h
    obtain ⟨⟨k', start, stop⟩, ts', rfl, hk, hs⟩ := map_eq_cons_iff.mp h
    obtain rfl : k' = k := hk
    exact ⟨start, stop, ts', rfl, hs⟩
  · rintro ⟨start, stop, ts', rfl, h⟩
    exact congrArg (k :: ·) h

theorem spells_append {ls : List TokenKind} :
    Spells ts (ks ++ ls) ↔ ∃ us vs, ts = us ++ vs ∧ Spells us ks ∧ Spells vs ls := by
  simp only [Spells]
  exact map_eq_append_iff

theorem spells_snoc :
    Spells ts (ks ++ [k]) ↔ ∃ us start stop, ts = us ++ [⟨k, start, stop⟩] ∧ Spells us ks := by
  simp only [spells_append, spells_cons, spells_nil]
  constructor
  · rintro ⟨us, _, rfl, hus, start, stop, _, rfl, rfl⟩
    exact ⟨us, start, stop, rfl, hus⟩
  · rintro ⟨us, start, stop, rfl, hus⟩
    exact ⟨us, _, rfl, hus, start, stop, _, rfl, rfl⟩

@[simp] theorem kindAt_cons (t : Token) (ts : Tokens) : kindAt (t :: ts) = some t.kind := rfl

theorem eventually_succ {p : Nat → Prop} (h : ∀ᶠ n in atTop, p (n + 1)) : ∀ᶠ n in atTop, p n := by
  obtain ⟨N, hN⟩ := Filter.eventually_atTop.mp h
  refine Filter.eventually_atTop.mpr ⟨N + 1, fun n hn => ?_⟩
  have := hN (n - 1) (by omega)
  rwa [Nat.sub_add_cancel (by omega)] at this

/-! ## Type names -/

theorem namePathLoop_stop (h : kindAt ts ≠ some .dot) : namePathLoop ts = ([], ts) := by
  rcases ts with _ | ⟨⟨k, a, b⟩, ts⟩
  · rfl
  · have hk : k ≠ .dot := by simpa using h
    unfold namePathLoop
    split
    · rename_i he
      simp_all
    · rename_i he
      simp_all
    · rfl

variable {rest : Tokens} {ts us vs : Tokens} {a b : Nat}

theorem namePathLoop_dotted (path : List String)
    (hs : Spells ts (dotted path)) (hr : kindAt rest ≠ some .dot) :
    namePathLoop (ts ++ rest) = (path, rest) := by
  induction path generalizing ts with
  | nil =>
    obtain rfl := spells_nil.mp hs
    exact namePathLoop_stop hr
  | cons name path ih =>
    obtain ⟨_, _, us, rfl, hus⟩ := spells_cons.mp hs
    obtain ⟨_, _, vs, rfl, hvs⟩ := spells_cons.mp hus
    simp [namePathLoop, ih hvs]

theorem parseNamePathParts_dotted {path : List String} (hp : path ≠ [])
    (hs : Spells ts (dotted path).tail) (hr : kindAt rest ≠ some .dot) :
    parseNamePathParts (ts ++ rest) = (some path, rest) := by
  obtain ⟨name, path, rfl⟩ := exists_cons_of_ne_nil hp
  obtain ⟨_, _, us, rfl, hus⟩ := spells_cons.mp hs
  have hpath := namePathLoop_dotted path hus hr
  simp [parseNamePathParts, hpath]

theorem kindAt_typeArgs {args : List NamePath}
    (hs : Spells ts (typeArgKinds args)) (hr : kindAt rest = some .gt) :
    kindAt (ts ++ rest) ≠ some .dot ∧ kindAt (ts ++ rest) ≠ some .lt := by
  cases args with
  | nil =>
    obtain rfl := spells_nil.mp hs
    simp [hr]
  | cons arg args =>
    obtain ⟨_, _, us, rfl, -⟩ := spells_cons.mp hs
    simp

mutual

theorem parseTypeName_written : ∀ ty ts rest, named ty → Spells ts (typeKinds ty) →
    kindAt rest ≠ some .dot → kindAt rest ≠ some .lt →
      ∀ᶠ n in atTop, parseTypeName n (ts ++ rest) = some (some ty, rest)
  | .mk path [], ts, rest, hn, hs, hd, hl => by
    have hp : path ≠ [] := by
      simp only [named, allNamed, Bool.and_true, decide_eq_true_eq] at hn
      exact hn
    have hs : Spells ts (dotted path).tail := by simpa [typeKinds] using hs
    refine eventually_succ (Filter.Eventually.of_forall fun n => ?_)
    simp [parseTypeName, parseNamePathParts_dotted hp hs hd, hl]
  | .mk path (first :: args), ts, rest, hn, hs, hd, hl => by
    simp only [named, allNamed, Bool.and_eq_true, decide_eq_true_eq] at hn
    obtain ⟨hp, hf, ha⟩ := hn
    simp only [typeKinds, cons_append, append_assoc, spells_append, spells_cons, spells_nil] at hs
    obtain ⟨us, _, rfl, hus, c, d, _, rfl, fs, _, rfl, hfs, as, _, rfl, has, a, b, _, rfl, rfl⟩ :=
      hs
    have hclose : kindAt (⟨.gt, a, b⟩ :: rest) = some .gt := rfl
    obtain ⟨hd, hl⟩ := kindAt_typeArgs has hclose
    have hfirst := parseTypeName_written first fs _ hf hfs hd hl
    have hargs := typeArgsLoop_written args [first] as _ ha has hclose
    refine eventually_succ (eventually_succ ?_)
    filter_upwards [hfirst, hargs] with n hfirst hargs
    have hpath : parseNamePathParts (us ++ ⟨.lt, c, d⟩ :: (fs ++ (as ++ ⟨.gt, a, b⟩ :: rest))) =
        (some path, ⟨.lt, c, d⟩ :: (fs ++ (as ++ ⟨.gt, a, b⟩ :: rest))) :=
      parseNamePathParts_dotted hp hus (by simp)
    simp [parseTypeName, parseTypeArgs, hpath, hfirst, hargs, skipClose]

theorem typeArgsLoop_written : ∀ args acc ts rest, allNamed args →
    Spells ts (typeArgKinds args) → kindAt rest = some .gt →
      ∀ᶠ n in atTop, typeArgsLoop n acc (ts ++ rest) = some (acc ++ args, rest)
  | [], acc, ts, rest, _, hs, hr => by
    obtain rfl := spells_nil.mp hs
    refine eventually_succ (Filter.Eventually.of_forall fun n => ?_)
    simp [typeArgsLoop, hr]
  | arg :: args, acc, ts, rest, hn, hs, hr => by
    simp only [allNamed, Bool.and_eq_true] at hn
    obtain ⟨hf, ha⟩ := hn
    simp only [typeArgKinds, cons_append, spells_append, spells_cons] at hs
    obtain ⟨_, _, _, rfl, fs, as, rfl, hfs, has⟩ := hs
    obtain ⟨hd, hl⟩ := kindAt_typeArgs has hr
    have harg := parseTypeName_written arg fs _ hf hfs hd hl
    have hargs := typeArgsLoop_written args (acc ++ [arg]) as rest ha has hr
    refine eventually_succ ?_
    filter_upwards [harg, hargs] with n harg hargs
    simp [typeArgsLoop, harg, hargs]

end

theorem castType_cast {ty : NamePath} (hn : named ty)
    (hs : Spells ts (typeKinds ty)) (hr : (kindAt rest).any canStartUnary) :
    ∀ᶠ n in atTop, castType n (ts ++ ⟨.rParen, a, b⟩ :: rest) = some (some ty, rest) := by
  have hty := parseTypeName_written ty ts (⟨.rParen, a, b⟩ :: rest) hn hs (by simp) (by simp)
  filter_upwards [hty] with n hty
  simp [castType, hty, hr]

/-! ## What a type name can be mistaken for -/

def typeKind : TokenKind → Bool
  | .ident _ | .dot | .lt => true
  | _ => false

def opens : TokenKind → Bool
  | .lParen | .lBracket | .lBrace => true
  | _ => false

/-- Up to the first opening bracket there is no closing parenthesis and no comma, and an
operand starts behind each `>` and `>>`. -/
def Flat : List TokenKind → Prop
  | [] => True
  | k :: ks => opens k ∨
    k ≠ .rParen ∧ k ≠ .comma ∧ (k = .gt ∨ k = .shr → ks.head?.any canStartUnary) ∧ Flat ks

theorem kinds_head (w : Written) : ∃ k ks, w.kinds = k :: ks ∧ canStartUnary k := by
  match w with
  | .lit l =>
    refine ⟨_, _, rfl, ?_⟩
    rcases l with _ | _ | _ | _ | (_ | _) <;> rfl
  | .ident _ | .paren _ | .list _ | .map _ | .await _ | .cast .. => exact ⟨_, _, rfl, rfl⟩
  | .unary op _ => exact ⟨_, _, rfl, by cases op <;> rfl⟩
  | .binary l .. | .ternary l .. | .call l _ | .member l _ | .optionalMember l _
  | .index l _ =>
    obtain ⟨k, ks, hk, hc⟩ := kinds_head l
    exact ⟨k, _, by rw [Written.kinds, hk, cons_append], hc⟩

theorem flat_written : ∀ (w : Written) (ks : List TokenKind), Flat ks → Flat (w.kinds ++ ks)
  | .lit l, ks, h => by
    have hk : Flat (l.kind :: ks) := by
      rcases l with _ | _ | _ | _ | (_ | _) <;> simp [Literal.kind, Flat, h]
    simpa [Written.kinds] using hk
  | .ident _, ks, h => by simpa [Written.kinds, Flat] using .inr h
  | .paren _, ks, h | .list _, ks, h | .map _, ks, h | .cast .., ks, h => .inl rfl
  | .await w, ks, h => by
    have hw := flat_written w ks h
    simp [Written.kinds, Flat, hw]
  | .unary op w, ks, h => by
    have hw := flat_written w ks h
    cases op <;> simp [Written.kinds, unOpKind, Flat, hw]
  | .binary l op r, ks, h => by
    have hr := flat_written r ks h
    have hop : Flat (opKind op :: (r.kinds ++ ks)) := by
      obtain ⟨k, ls, hk, hc⟩ := kinds_head r
      have hstart : (r.kinds ++ ks).head?.any canStartUnary := by simpa [hk] using hc
      refine .inr ⟨?_, ?_, fun _ => hstart, hr⟩ <;> cases op <;> simp [opKind]
    simpa [Written.kinds] using flat_written l _ hop
  | .ternary c t e, ks, h => by
    have he := flat_written e ks h
    have ht := flat_written t (.colon :: (e.kinds ++ ks)) (by simp [Flat, he])
    have hc := flat_written c (.question :: (t.kinds ++ .colon :: (e.kinds ++ ks)))
      (by simp [Flat, ht])
    simpa [Written.kinds] using hc
  | .call f args, ks, h => by
    have hf := flat_written f (.lParen :: (args.kinds ++ .rParen :: ks)) (.inl rfl)
    simpa [Written.kinds] using hf
  | .member w name, ks, h | .optionalMember w name, ks, h => by
    have hw := flat_written w (.dot :: .ident name :: ks) (by simp [Flat, h])
    have hq := flat_written w (.questionDot :: .ident name :: ks) (by simp [Flat, h])
    simp [Written.kinds, hw, hq]
  | .index w i, ks, h => by
    have hw := flat_written w (.lBracket :: (i.kinds ++ .rBracket :: ks)) (.inl rfl)
    simpa [Written.kinds] using hw

theorem Flat.tail {ks : List TokenKind} (h : Flat (k :: ks)) (hk : opens k = false) : Flat ks := by
  rcases h with ho | ⟨-, -, -, ht⟩
  · simp [hk] at ho
  · exact ht

/-- Only names, dots and `<` have been passed. -/
def Passed (ts rest left : Tokens) : Prop :=
  ∃ us vs, ts = us ++ vs ∧ (∀ t ∈ us, typeKind t.kind) ∧ Flat (vs.map (·.kind)) ∧
    left = vs ++ rest

theorem Passed.here (h : Flat (ts.map (·.kind))) (rest : Tokens) : Passed ts rest (ts ++ rest) :=
  ⟨[], ts, rfl, by simp, h, rfl⟩

theorem Passed.cons {t : Token} {rest left : Tokens} (ht : typeKind t.kind)
    (h : Passed ts rest left) : Passed (t :: ts) rest left := by
  obtain ⟨us, vs, rfl, hus, hvs, rfl⟩ := h
  exact ⟨t :: us, vs, rfl, by simpa using ⟨ht, hus⟩, hvs, rfl⟩

variable {left : Tokens}

theorem Passed.append (hus : ∀ t ∈ us, typeKind t.kind)
    (h : Passed vs rest left) : Passed (us ++ vs) rest left := by
  obtain ⟨us', vs, rfl, hus', hvs, rfl⟩ := h
  refine ⟨us ++ us', vs, by simp, fun t ht => ?_, hvs, rfl⟩
  exact (mem_append.mp ht).elim (hus t) (hus' t)

theorem namePathLoop_dot (a b : Nat) (h : ∀ name, kindAt ts ≠ some (.ident name)) :
    namePathLoop (⟨.dot, a, b⟩ :: ts) = ([], ts) := by
  rcases ts with _ | ⟨⟨k, c, d⟩, ts⟩
  · rfl
  · have hk : ∀ name, k ≠ .ident name := by simpa using h
    unfold namePathLoop
    split
    · rename_i he
      simp_all
    · rename_i he
      simp_all
    · rename_i he
      simp_all

theorem namePathLoop_passed (hr : kindAt rest = some .rParen) :
    ∀ ts : Tokens, Flat (ts.map (·.kind)) → Passed ts rest (namePathLoop (ts ++ rest)).2
  | [], hf => by
    rw [nil_append, namePathLoop_stop (by simp [hr])]
    exact Passed.here hf rest
  | ⟨k, a, b⟩ :: ts, hf => by
    by_cases hd : k = .dot
    · subst hd
      have hts : Flat (ts.map (·.kind)) := hf.tail rfl
      refine Passed.cons rfl ?_
      by_cases hi : ∃ name, kindAt (ts ++ rest) = some (.ident name)
      · obtain ⟨name, hi⟩ := hi
        rcases ts with _ | ⟨⟨k, c, d⟩, ts⟩
        · simp [hr] at hi
        · obtain rfl : k = .ident name := by simpa using hi
          have ih := namePathLoop_passed hr ts (hts.tail rfl)
          exact Passed.cons rfl (by simpa [namePathLoop] using ih)
      · rw [cons_append, namePathLoop_dot a b fun name h => hi ⟨name, h⟩]
        exact Passed.here hts rest
    · rw [namePathLoop_stop (by simpa using hd)]
      exact Passed.here hf rest

/-- Where the parser of type names stops in a flat text: at the start of an operand, or with
only names, dots and `<` passed. -/
def Stops (ts rest left : Tokens) : Prop :=
  (kindAt left).any canStartUnary ∨ Passed ts rest left

theorem Stops.append (hus : ∀ t ∈ us, typeKind t.kind)
    (h : Stops vs rest left) : Stops (us ++ vs) rest left :=
  h.imp_right (Passed.append hus)

theorem Stops.no_comma (hr : kindAt rest = some .rParen)
    (h : Stops ts rest left) : kindAt left ≠ some .comma := by
  intro hc
  rcases h with h | ⟨us, vs, -, -, hvs, rfl⟩
  · rw [hc] at h
    cases h
  · rcases vs with _ | ⟨v, vs⟩
    · simp [hr] at hc
    · have hv : v.kind = .comma := by simpa using hc
      simp [Flat, hv, opens] at hvs

theorem Stops.skipClose (hr : kindAt rest = some .rParen)
    (h : Stops ts rest left) : Stops ts rest (skipClose left) := by
  by_cases hc : kindAt left = some .gt ∨ kindAt left = some .shr
  · have hskip : Parser.skipClose left = left.tail := by
      rcases hc with hc | hc <;> simp [Parser.skipClose, hc]
    rw [hskip]
    rcases h with h | ⟨us, vs, -, -, hvs, rfl⟩
    · rcases hc with hc | hc <;> rw [hc] at h <;> cases h
    · rcases vs with _ | ⟨v, vs⟩
      · simp [hr] at hc
      · have hv : v.kind = .gt ∨ v.kind = .shr := by simpa using hc
        have hopens : opens v.kind = false := by rcases hv with hv | hv <;> simp [hv, opens]
        rcases hvs with ho | ⟨-, -, hstart, -⟩
        · simp [hopens] at ho
        · left
          have hstart := hstart hv
          rcases vs with _ | ⟨u, vs⟩
          · simp at hstart
          · simpa using hstart
  · have hskip : Parser.skipClose left = left := by
      unfold Parser.skipClose
      split
      · simp_all
      · simp_all
      · rfl
    rwa [hskip]

theorem parseTypeName_none (h : ∀ name, kindAt ts ≠ some (.ident name)) (n : Nat) :
    parseTypeName (n + 1) ts = some (none, ts) := by
  have hparts : parseNamePathParts ts = (none, ts) := by
    rcases ts with _ | ⟨⟨k, a, b⟩, ts⟩
    · rfl
    · unfold parseNamePathParts
      split
      · simp_all
      · rfl
  simp [parseTypeName, hparts]

/-- **Where a type name ends** in a flat text in front of a closing parenthesis. -/
theorem parseTypeName_stops (hr : kindAt rest = some .rParen) (ts : Tokens)
    (hf : Flat (ts.map (·.kind))) :
    ∃ ty left, (∀ᶠ n in atTop, parseTypeName n (ts ++ rest) = some (ty, left)) ∧
      Stops ts rest left := by
  induction hn : ts.length using Nat.strong_induction_on generalizing ts with | _ n ih => ?_
  by_cases hi : ∃ name, kindAt (ts ++ rest) = some (.ident name)
  · obtain ⟨name, hi⟩ := hi
    rcases ts with _ | ⟨⟨k, a, b⟩, ts⟩
    · simp [hr] at hi
    obtain rfl : k = .ident name := by simpa using hi
    obtain ⟨us, vs, rfl, hus, hvs, hleft⟩ := namePathLoop_passed hr ts (hf.tail rfl)
    obtain ⟨path, hparts⟩ : ∃ path, parseNamePathParts (⟨.ident name, a, b⟩ :: (us ++ vs) ++ rest) =
          (some path, vs ++ rest) := by
      rw [← hleft]
      exact ⟨_, rfl⟩
    have hus : ∀ t ∈ (⟨.ident name, a, b⟩ :: us : Tokens), typeKind t.kind := by
      simpa [typeKind] using hus
    by_cases hlt : kindAt (vs ++ rest) = some .lt
    · rcases vs with _ | ⟨⟨k, c, d⟩, ws⟩
      · simp [hr] at hlt
      obtain rfl : k = .lt := by simpa using hlt
      -- a flat text has no comma, so one type argument is read
      have hlen : ws.length < n := by
        rw [← hn]
        simp
        omega
      obtain ⟨ty, left, hty, hstop⟩ := ih ws.length hlen ws (hvs.tail rfl) rfl
      refine ⟨some (.mk path ty.toList), Parser.skipClose left,
        eventually_succ (eventually_succ ?_), ?_⟩
      · have hargs : ∀ᶠ n in atTop, typeArgsLoop n ty.toList left = some (ty.toList, left) :=
          eventually_succ (Filter.Eventually.of_forall fun n => by
            simp [typeArgsLoop, hstop.no_comma hr])
        filter_upwards [hty, hargs] with n hty hargs
        rw [parseTypeName, hparts]
        simp [parseTypeArgs, hty, hargs]
      · have hlt : Stops (⟨.lt, c, d⟩ :: ws) rest (Parser.skipClose left) :=
          (hstop.skipClose hr).imp_right (Passed.cons rfl)
        exact hlt.append hus
    · refine ⟨some (.mk path []), vs ++ rest,
        eventually_succ (Filter.Eventually.of_forall fun n => ?_), ?_⟩
      · rw [parseTypeName, hparts]
        simp [hlt]
      · exact Stops.append hus (.inr (Passed.here hvs rest))
  · refine ⟨none, ts ++ rest, eventually_succ (Filter.Eventually.of_forall fun n => ?_), ?_⟩
    · exact parseTypeName_none (fun name h => hi ⟨name, h⟩) n
    · exact .inr (Passed.here hf rest)

/-- The expression is made of names, dots and `<` only, as a type can be. -/
def Written.TypeText (w : Written) : Prop := ∀ k ∈ w.kinds, typeKind k

/-- **A parenthesised expression is no cast**, unless it can be read as a type and the start of
an operand follows. -/
theorem castType_paren (w : Written) (hs : Spells ts w.kinds)
    (hw : w.TypeText → (kindAt rest).any canStartUnary = false) :
    ∀ᶠ n in atTop, ∃ left, castType n (ts ++ ⟨.rParen, a, b⟩ :: rest) = some (none, left) := by
  have hflat : Flat (ts.map (·.kind)) := by
    have hkinds := flat_written w [] trivial
    rwa [append_nil, ← hs] at hkinds
  obtain ⟨ty, left, hty, hstop⟩ :=
    parseTypeName_stops (kindAt_cons ⟨.rParen, a, b⟩ rest) ts hflat
  have hno : ¬ (kindAt left = some .rParen ∧ (kindAt left.tail).any canStartUnary) := by
    rintro ⟨hclose, hstart⟩
    rcases hstop with h | ⟨us, vs, rfl, hus, hvs, rfl⟩
    · rw [hclose] at h
      cases h
    · rcases vs with _ | ⟨v, vs⟩
      · -- everything has been passed
        have htext : w.TypeText := by
          intro k hk
          rw [← hs] at hk
          obtain ⟨t, ht, rfl⟩ := mem_map.mp hk
          exact hus t (by simpa using ht)
        simp [hw htext] at hstart
      · have hv : v.kind = .rParen := by simpa using hclose
        simp [Flat, hv, opens] at hvs
  filter_upwards [hty] with n hty
  cases ty with
  | none => simp [castType, hty]
  | some ty => simp [castType, hty, hno]

end Arth.Parser
