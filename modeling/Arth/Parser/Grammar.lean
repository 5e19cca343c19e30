import Arth.Parser.Lookahead

/-!
# The expression parser reads the operator grammar

* `Written.Clear` — the forms the parser takes for something else are absent: a prefix
  operator or a cast in front of a postfix form without parentheses, parentheses that can be
  read as a cast, and a member named `then`.
* `Parses` — what the functions of the parser return for a written expression, one lemma for
  each form; `Parses.all` puts them together.
* `parseExpr_written` — `parse_expr` returns the tree that was written.
-/

namespace Arth.Parser

open List

open Ast (Expr NamePath BinOp UnOp Block)
open Syntax (Token TokenKind)
open Filter (atTop Eventually)

/-! ## What the parser takes for something else -/

def Written.isPostfix : Written → Bool
  | .call .. | .member .. | .optionalMember .. | .index .. => true
  | _ => false

mutual

/-- **No form is taken for another one** by the parser, with this kind next. -/
def Written.Clear : Written → Option TokenKind → Prop
  | .lit _, _ | .ident _, _ => True
  | .paren w, next => (w.TypeText → next.any canStartUnary = false) ∧ w.Clear (some .rParen)
  | .list items, _ => items.Clear .rBracket
  | .map entries, _ => entries.Clear
  | .await w, next => w.Clear next
  | .unary _ w, next => w.isPostfix = false ∧ w.Clear next
  | .cast _ w, next => w.isPostfix = false ∧ w.Clear next
  | .binary l op r, next => l.Clear (some (opKind op)) ∧ r.Clear next
  | .ternary c t e, next => c.Clear (some .question) ∧ t.Clear (some .colon) ∧ e.Clear next
  | .call f args, _ => f.Clear (some .lParen) ∧ args.Clear .rParen
  | .member w name, _ => name ≠ "then" ∧ w.Clear (some .dot)
  | .optionalMember w _, _ => w.Clear (some .questionDot)
  | .index w i, _ => w.Clear (some .lBracket) ∧ i.Clear (some .rBracket)

def Items.Clear : Items → TokenKind → Prop
  | .nil, _ => True
  | .cons w rest, close => w.Clear (some (rest.next close)) ∧ rest.Clear close

def Entries.Clear : Entries → Prop
  | .nil => True
  | .pair k v rest => k.Clear (some .colon) ∧ v.Clear (some rest.next) ∧ rest.Clear
  | .spread w rest => w.Clear (some rest.next) ∧ rest.Clear

end

mutual

/-- How deep `parse_expr` is nested in itself for the expression. -/
def Written.nesting : Written → Nat
  | .lit _ | .ident _ => 0
  | .paren w => w.nesting + 1
  | .list items => items.nesting
  | .map entries => entries.nesting
  | .await w | .unary _ w | .cast _ w => w.nesting
  | .binary l _ r => max l.nesting r.nesting
  | .ternary c t e => max c.nesting (max t.nesting e.nesting)
  | .call f args => max f.nesting args.nesting
  | .member w _ | .optionalMember w _ => w.nesting
  | .index w i => max w.nesting (i.nesting + 1)

def Items.nesting : Items → Nat
  | .nil => 0
  | .cons w rest => max (w.nesting + 1) rest.nesting

def Entries.nesting : Entries → Nat
  | .nil => 0
  | .pair k v rest => max (k.nesting + 1) (max (v.nesting + 1) rest.nesting)
  | .spread w rest => max (w.nesting + 1) rest.nesting

end

/-! ## What may follow -/

def isName : TokenKind → Bool
  | .ident _ => true
  | _ => false

def startsPostfix : TokenKind → Bool
  | .lParen | .dot | .questionDot | .lBracket | .lBrace => true
  | _ => false

/-- No operator follows that binds as tight as this level. -/
def Below (level : Nat) (next : Option TokenKind) : Prop :=
  ∀ q, next.bind precedence = some q → q < level

/-- Neither a name, nor a postfix form, nor an operator follows. -/
structure Ends (next : Option TokenKind) : Prop where
  noName : next.any isName = false
  noPostfix : next.any startsPostfix = false
  noOperator : next.bind precedence = none

theorem Ends.below {next : Option TokenKind} (h : Ends next) (level : Nat) : Below level next := by
  intro q hq
  simp [h.noOperator] at hq

@[simp] theorem precedence_opKind (op : BinOp) : precedence (opKind op) = some (opLevel op) := by
  cases op <;> rfl

@[simp] theorem binOp_opKind (op : BinOp) : binOp (opKind op) = some op := by
  cases op <;> rfl

variable (parseBlock : Nat → Nat → Tokens → Option (Found Block))

/-- The tokens of an expression, and what may stand behind them. -/
structure Fits (w : Written) (depth : Nat) (ts rest : Tokens) : Prop where
  spells : Spells ts w.kinds
  clear : w.Clear (kindAt rest)
  nesting : depth + w.nesting ≤ maxNestingDepth
  noName : (kindAt rest).any isName = false

/-- **The parser reads the expression.** `unary`: `parse_unary` reads a part of a chain of
postfix forms, and `parse_postfix` the rest. `prec`: the loop over the operators goes on with
the tree of the expression. -/
structure Parses (w : Written) : Prop where
  unary : 11 ≤ w.level → ∀ depth ts rest, Fits w depth ts rest →
    (w.level = 11 → (kindAt rest).any startsPostfix = false) →
      ∃ e left, (∀ᶠ n in atTop, parseUnary parseBlock n depth (ts ++ rest) = some (some e, left)) ∧
        (∀ r, (∀ᶠ n in atTop, parsePostfix parseBlock n depth w.erase rest = r) →
          ∀ᶠ n in atTop, parsePostfix parseBlock n depth e left = r) ∧
        (w.isPostfix = false → e = w.erase ∧ left = rest)
  prec : ∀ depth p ts rest r, p ≤ w.level → Fits w depth ts rest →
    (kindAt rest).any startsPostfix = false →
    (w.level = 0 → (kindAt rest).bind precedence = none) → Below (w.level + 1) (kindAt rest) →
    (∀ᶠ n in atTop, precedenceLoop parseBlock n depth p w.erase rest = r) →
      ∀ᶠ n in atTop, parsePrecedence parseBlock n depth p (ts ++ rest) = r

variable {parseBlock}

variable {ts : Tokens}

theorem eventually_parsePostfix_stop (depth : Nat) (e : Expr)
    (h : (kindAt ts).any startsPostfix = false) :
    ∀ᶠ n in atTop, parsePostfix parseBlock n depth e ts = some (e, ts) := by
  refine eventually_succ (Eventually.of_forall fun n => ?_)
  rcases ts with _ | ⟨⟨k, a, b⟩, ts⟩
  · rfl
  · have hk : startsPostfix k = false := h
    cases k <;> first | rfl | cases hk

theorem eventually_precedenceLoop_stop (depth p : Nat) (e : Expr) (h : Below p (kindAt ts)) :
    ∀ᶠ n in atTop, precedenceLoop parseBlock n depth p e ts = some (some e, ts) := by
  refine eventually_succ (Eventually.of_forall fun n => ?_)
  rw [precedenceLoop]
  cases hp : (kindAt ts).bind precedence with
  | none => rfl
  | some q => simp [h q hp]

variable {w : Written}

theorem Parses.of_unary (hu : ∀ depth ts rest, Fits w depth ts rest →
      (w.level = 11 → (kindAt rest).any startsPostfix = false) → ∃ e left,
          (∀ᶠ n in atTop, parseUnary parseBlock n depth (ts ++ rest) = some (some e, left)) ∧
          (∀ r, (∀ᶠ n in atTop, parsePostfix parseBlock n depth w.erase rest = r) →
            ∀ᶠ n in atTop, parsePostfix parseBlock n depth e left = r) ∧
          (w.isPostfix = false → e = w.erase ∧ left = rest)) : Parses parseBlock w := by
  refine ⟨fun _ => hu, fun depth p ts rest r hp hf hpost _ _ hloop => ?_⟩
  obtain ⟨e, left, hunary, hchain, -⟩ := hu depth ts rest hf fun _ => hpost
  have hpostfix := hchain _ (eventually_parsePostfix_stop depth w.erase hpost)
  refine eventually_succ ?_
  filter_upwards [hunary, hpostfix, hloop] with n hunary hpostfix hloop
  simp [parsePrecedence, hunary, hpostfix, hloop]

variable {depth : Nat} {rest : Tokens} {n depth a b : Nat} {ty : NamePath}

theorem Parses.expr (h : Parses parseBlock w)
    (hs : Spells ts w.kinds) (hc : w.Clear (kindAt rest)) (he : Ends (kindAt rest))
    (hd : depth + w.nesting < maxNestingDepth) :
    ∀ᶠ n in atTop, parseExpr parseBlock n depth (ts ++ rest) = some (some w.erase, rest) := by
  have hfits : Fits w (depth + 1) ts rest := ⟨hs, hc, by omega, he.noName⟩
  have hprec := h.prec (depth + 1) 0 ts rest _ (Nat.zero_le _) hfits he.noPostfix
    (fun _ => he.noOperator) (he.below _) (eventually_precedenceLoop_stop _ 0 _ (he.below 0))
  refine eventually_succ ?_
  have hdepth : ¬ maxNestingDepth ≤ depth := by omega
  simp [parseExpr, hdepth, hprec]

theorem Parses.of_whole (hu : ∀ depth ts rest, Fits w depth ts rest →
      (w.level = 11 → (kindAt rest).any startsPostfix = false) →
        ∀ᶠ n in atTop, parseUnary parseBlock n depth (ts ++ rest) = some (some w.erase, rest)) :
    Parses parseBlock w :=
  .of_unary fun depth ts rest hf hp =>
    ⟨w.erase, rest, hu depth ts rest hf hp, fun _ h => h, fun _ => ⟨rfl, rfl⟩⟩

theorem Parses.whole (h : Parses parseBlock w) (hl : 11 ≤ w.level)
    (hw : w.isPostfix = false) (hf : Fits w depth ts rest)
    (hp : w.level = 11 → (kindAt rest).any startsPostfix = false) :
    ∀ᶠ n in atTop, parseUnary parseBlock n depth (ts ++ rest) = some (some w.erase, rest) := by
  obtain ⟨e, left, hunary, -, hwhole⟩ := h.unary hl depth ts rest hf hp
  obtain ⟨rfl, rfl⟩ := hwhole hw
  exact hunary

theorem literalSuffix_stop (t : Token) (e : Expr)
    (h : (kindAt ts).any isName = false) : literalSuffix t e ts = (e, ts) := by
  rcases ts with _ | ⟨⟨k, a, b⟩, ts⟩
  · rfl
  · unfold literalSuffix
    split
    · simp_all [isName]
    · rfl

theorem Parses.lit (l : Literal) : Parses parseBlock (.lit l) := by
  refine .of_whole fun depth ts rest hf _ => ?_
  obtain ⟨a, b, us, rfl, hus⟩ := spells_cons.mp hf.spells
  obtain rfl := spells_nil.mp hus
  refine eventually_succ (eventually_succ (Eventually.of_forall fun n => ?_))
  have hsuffix := fun t e => literalSuffix_stop t e hf.noName
  rcases l with k | x | _ | _ | (_ | _)
  case int | float =>
    change some (some (literalSuffix _ _ rest).1, (literalSuffix _ _ rest).2) = _
    rw [hsuffix]
    rfl
  all_goals rfl

theorem Parses.ident (name : String) : Parses parseBlock (.ident name) := by
  refine .of_whole fun depth ts rest hf _ => ?_
  obtain ⟨a, b, us, rfl, hus⟩ := spells_cons.mp hf.spells
  obtain rfl := spells_nil.mp hus
  exact eventually_succ (eventually_succ (Eventually.of_forall fun n => rfl))

/-! ## Parentheses and prefix operators -/

theorem ends_rParen : Ends (some .rParen) := ⟨rfl, rfl, rfl⟩

theorem parseUnary_cast {ts left : Tokens} (hc : castType n ts = some (some ty, left)) :
    parseUnary parseBlock (n + 2) depth (⟨.lParen, a, b⟩ :: ts) =
      (parseUnary parseBlock n depth left).map fun r => (r.1.map (.cast ty), r.2) := by
  change Option.bind (castType n ts) _ = _
  rw [hc]
  cases h : parseUnary parseBlock n depth left <;> simp [h]

theorem parseUnary_paren {ts left left' : Tokens} {e : Option Expr}
    (hc : castType n ts = some (none, left))
    (he : parseExpr parseBlock n depth ts = some (e, left')) :
    parseUnary parseBlock (n + 2) depth (⟨.lParen, a, b⟩ :: ts) =
      some (e, if e.isSome then skip .rParen left' else left') := by
  change Option.bind (castType n ts) _ = _
  rw [hc]
  rw [he]
  cases e <;> rfl

theorem Parses.paren (h : Parses parseBlock w) : Parses parseBlock (.paren w) := by
  refine .of_whole fun depth ts rest hf _ => ?_
  obtain ⟨a, b, us, rfl, hus⟩ := spells_cons.mp hf.spells
  obtain ⟨us, c, d, rfl, hws⟩ := spells_snoc.mp hus
  obtain ⟨htext, hclear⟩ := hf.clear
  have hnesting := hf.nesting
  have hcast := castType_paren w (a := c) (b := d) hws htext
  have hdepth : depth + w.nesting < maxNestingDepth := by
    simp only [Written.nesting] at hnesting
    omega
  have hexpr : ∀ᶠ n in atTop, parseExpr parseBlock n depth (us ++ ⟨.rParen, c, d⟩ :: rest) =
      some (some w.erase, ⟨.rParen, c, d⟩ :: rest) :=
    h.expr hws hclear ends_rParen hdepth
  refine eventually_succ (eventually_succ ?_)
  filter_upwards [hcast, hexpr] with n hcast hexpr
  obtain ⟨left, hcast⟩ := hcast
  have hread := parseUnary_paren (a := a) (b := b) hcast hexpr
  simpa [skip, Written.erase] using hread

theorem Parses.unaryOp (h : Parses parseBlock w) (op : UnOp) (hl : 11 ≤ w.level) :
    Parses parseBlock (.unary op w) := by
  refine .of_whole fun depth ts rest hf hp => ?_
  obtain ⟨a, b, us, rfl, hus⟩ := spells_cons.mp hf.spells
  obtain ⟨hw, hclear⟩ := hf.clear
  have hfits : Fits w depth us rest := ⟨hus, hclear, hf.nesting, hf.noName⟩
  have hwhole := h.whole hl hw hfits fun _ => hp rfl
  refine eventually_succ ?_
  filter_upwards [hwhole] with n hwhole
  cases op <;> simp [parseUnary, unOpKind, hwhole, Written.erase]

theorem Parses.await (h : Parses parseBlock w) (hl : 11 ≤ w.level) :
    Parses parseBlock (.await w) := by
  refine .of_whole fun depth ts rest hf hp => ?_
  obtain ⟨a, b, us, rfl, hus⟩ := spells_cons.mp hf.spells
  have hfits : Fits w depth us rest := ⟨hus, hf.clear, hf.nesting, hf.noName⟩
  obtain ⟨e, left, hunary, hchain, -⟩ := h.unary hl depth us rest hfits fun _ => hp rfl
  have hpostfix := hchain _ (eventually_parsePostfix_stop depth w.erase (hp rfl))
  refine eventually_succ ?_
  filter_upwards [hunary, hpostfix] with n hunary hpostfix
  simp [parseUnary, hunary, hpostfix, Written.erase]

theorem Parses.cast (h : Parses parseBlock w) (hn : named ty)
    (hl : 11 ≤ w.level) : Parses parseBlock (.cast ty w) := by
  refine .of_whole fun depth ts rest hf hp => ?_
  obtain ⟨a, b, us, rfl, hus⟩ := spells_cons.mp hf.spells
  obtain ⟨tys, vs, rfl, htys, hvs⟩ := spells_append.mp hus
  obtain ⟨c, d, ws, rfl, hws⟩ := spells_cons.mp hvs
  obtain ⟨hw, hclear⟩ := hf.clear
  have hfits : Fits w depth ws rest := ⟨hws, hclear, hf.nesting, hf.noName⟩
  have hwhole := h.whole hl hw hfits fun _ => hp rfl
  have hstart : (kindAt (ws ++ rest)).any canStartUnary := by
    obtain ⟨k, ks, hk, hc⟩ := kinds_head w
    rw [hk] at hws
    obtain ⟨_, _, _, rfl, -⟩ := spells_cons.mp hws
    exact hc
  have hcast := castType_cast (a := c) (b := d) hn htys hstart
  refine eventually_succ (eventually_succ ?_)
  filter_upwards [hcast, hwhole] with n hcast hwhole
  have hread := @parseUnary_cast parseBlock _ depth a b _ _ _ hcast
  simpa [hwhole, Written.erase] using hread

/-! ## Lists, arguments and maps -/

theorem kindAt_written (hs : Spells ts w.kinds) {k : TokenKind}
    (hk : canStartUnary k = false) : kindAt (ts ++ rest) ≠ some k := by
  obtain ⟨l, ls, hl, hc⟩ := kinds_head w
  rw [hl] at hs
  obtain ⟨a, b, us, rfl, -⟩ := spells_cons.mp hs
  intro h
  obtain rfl : l = k := by simpa using h
  simp [hk] at hc

variable (parseBlock)

/-- The items of a list are read, and so are the arguments of a call. -/
structure ItemsParse (items : Items) : Prop where
  list : ∀ depth acc ts rest a b, Spells ts items.kinds → items.Clear .rBracket →
    depth + items.nesting ≤ maxNestingDepth →
      ∀ᶠ n in atTop, parseItems parseBlock n depth acc (ts ++ ⟨.rBracket, a, b⟩ :: rest) =
        some (acc ++ items.erase, rest)
  args : ∀ depth acc ts rest a b, Spells ts items.kinds → items.Clear .rParen →
    depth + items.nesting ≤ maxNestingDepth →
      ∀ᶠ n in atTop, parseArgs parseBlock n depth acc (ts ++ ⟨.rParen, a, b⟩ :: rest) =
        some (acc ++ items.erase, rest)

variable {parseBlock} {w v : Written} {e : Expr}

theorem ItemsParse.nil : ItemsParse parseBlock .nil := by
  constructor
  all_goals
    intro depth acc ts rest a b hs _ _
    obtain rfl := spells_nil.mp hs
    refine eventually_succ (Eventually.of_forall fun n => ?_)
    simp [parseItems, parseArgs, Items.erase]

theorem ends_rBracket : Ends (some .rBracket) := ⟨rfl, rfl, rfl⟩

theorem ends_comma : Ends (some .comma) := ⟨rfl, rfl, rfl⟩

/-- A loop over items reads these up to a closing token. -/
def Items.ReadBy (close : TokenKind)
    (loop : Nat → Nat → List Expr → Tokens → Option (List Expr × Tokens)) (items : Items) : Prop :=
  ∀ depth acc ts rest a b, Spells ts items.kinds → items.Clear close →
    depth + items.nesting ≤ maxNestingDepth →
      ∀ᶠ n in atTop, loop n depth acc (ts ++ ⟨close, a, b⟩ :: rest) = some (acc ++ items.erase, rest)

theorem Items.ReadBy.cons {close : TokenKind}
    {loop : Nat → Nat → List Expr → Tokens → Option (List Expr × Tokens)}
    (hends : Ends (some close)) (hstart : canStartUnary close = false)
    (hitem : ∀ n depth acc e ts left, kindAt ts ≠ some close →
      parseExpr parseBlock n depth ts = some (some e, left) → loop (n + 1) depth acc ts =
        if kindAt left = some .comma then loop n depth (acc ++ [e]) left.tail
        else some (acc ++ [e], skip close left))
    (hne : close ≠ .comma) {items : Items} (hw : Parses parseBlock w)
    (hi : items.ReadBy close loop) : (Items.cons w items).ReadBy close loop := by
  intro depth acc ts rest a b hs hc hd
  obtain ⟨us, vs, rfl, hus, hvs⟩ := spells_append.mp hs
  obtain ⟨hcw, hci⟩ := hc
  simp only [Items.nesting] at hd
  rw [append_assoc]
  refine eventually_succ ?_
  cases items with
  | nil =>
    obtain rfl := spells_nil.mp hvs
    have hexpr : ∀ᶠ n in atTop, parseExpr parseBlock n depth (us ++ ⟨close, a, b⟩ :: rest) =
        some (some w.erase, ⟨close, a, b⟩ :: rest) :=
      hw.expr hus hcw hends (by omega)
    filter_upwards [hexpr] with n hexpr
    rw [nil_append, hitem n depth acc _ _ _ (kindAt_written hus hstart) hexpr]
    simp [hne, skip, Items.erase]
  | cons w' items =>
    obtain ⟨c, d, vs, rfl, hws⟩ := spells_cons.mp hvs
    have hrest := hi depth (acc ++ [w.erase]) vs rest a b hws hci (by omega)
    have hexpr : ∀ᶠ n in atTop,
        parseExpr parseBlock n depth (us ++ ⟨.comma, c, d⟩ :: (vs ++ ⟨close, a, b⟩ :: rest)) =
          some (some w.erase, ⟨.comma, c, d⟩ :: (vs ++ ⟨close, a, b⟩ :: rest)) :=
      hw.expr hus hcw ends_comma (by omega)
    filter_upwards [hrest, hexpr] with n hrest hexpr
    rw [cons_append, hitem n depth acc _ _ _ (kindAt_written hus hstart) hexpr]
    simp [hrest, Items.erase]

theorem ItemsParse.cons {items : Items} (hw : Parses parseBlock w)
    (hi : ItemsParse parseBlock items) : ItemsParse parseBlock (.cons w items) where
  list := Items.ReadBy.cons ends_rBracket rfl
    (fun n depth acc e ts left hne he => by simp [parseItems, hne, he]) nofun hw hi.list
  args := Items.ReadBy.cons ends_rParen rfl
    (fun n depth acc e ts left hne he => by simp [parseArgs, hne, he]) nofun hw hi.args

variable (parseBlock) in
/-- The entries of a map are read, and a brace in front of them opens a map. -/
structure EntriesParse (entries : Entries) : Prop where
  isMap : ∀ depth ts rest a b, Spells ts entries.kinds → entries.Clear →
    depth + entries.nesting ≤ maxNestingDepth →
      ∀ᶠ n in atTop, isMap parseBlock n depth (ts ++ ⟨.rBrace, a, b⟩ :: rest) = some true
  pairs : ∀ depth acc spread ts rest a b, Spells ts entries.kinds → entries.Clear →
    depth + entries.nesting ≤ maxNestingDepth →
      ∀ᶠ n in atTop, parsePairs parseBlock n depth acc spread (ts ++ ⟨.rBrace, a, b⟩ :: rest) =
        some (acc ++ entries.pairs, entries.spreadOr spread, rest)

theorem EntriesParse.nil : EntriesParse parseBlock .nil := by
  constructor
  · intro depth ts rest a b hs _ _
    obtain rfl := spells_nil.mp hs
    exact eventually_succ (Eventually.of_forall fun n => rfl)
  · intro depth acc spread ts rest a b hs _ _
    obtain rfl := spells_nil.mp hs
    refine eventually_succ (Eventually.of_forall fun n => ?_)
    simp [parsePairs, Entries.pairs, Entries.spreadOr]

theorem ends_rBrace : Ends (some .rBrace) := ⟨rfl, rfl, rfl⟩

theorem ends_colon : Ends (some .colon) := ⟨rfl, rfl, rfl⟩

theorem EntriesParse.tail {entries : Entries} (h : EntriesParse parseBlock entries) (depth : Nat)
    {ts : Tokens} (rest : Tokens) (a b : Nat) (hs : Spells ts (entries.comma ++ entries.kinds))
    (hc : entries.Clear) (hd : depth + entries.nesting ≤ maxNestingDepth) :
    ∃ left, ts ++ ⟨.rBrace, a, b⟩ :: rest = left ∧ kindAt left = some entries.next ∧
      Ends (kindAt left) ∧ ∀ acc spread, ∀ᶠ n in atTop,
        (if kindAt left = some .comma then parsePairs parseBlock n depth acc spread left.tail
          else some (acc, spread, skip .rBrace left)) =
        some (acc ++ entries.pairs, entries.spreadOr spread, rest) := by
  refine ⟨_, rfl, ?_⟩
  have hcases : entries = .nil ∨ entries.comma = [.comma] ∧ entries.next = .comma := by
    cases entries <;> simp [Entries.comma, Entries.next]
  rcases hcases with rfl | ⟨hcomma, hnext⟩
  · obtain rfl := spells_nil.mp hs
    refine ⟨rfl, ends_rBrace, fun acc spread => Eventually.of_forall fun n => ?_⟩
    simp [skip, Entries.pairs, Entries.spreadOr]
  · rw [hcomma] at hs
    obtain ⟨c, d, us, rfl, hus⟩ := spells_cons.mp hs
    refine ⟨by simp [hnext], ends_comma, fun acc spread => ?_⟩
    simpa using h.pairs depth acc spread us rest a b hus hc hd

theorem EntriesParse.pair {k : Written} {entries : Entries} (hk : Parses parseBlock k)
    (hv : Parses parseBlock v) (he : EntriesParse parseBlock entries) :
    EntriesParse parseBlock (.pair k v entries) := by
  -- the key comes first, in the lookahead as in the loop
  have hkey : ∀ depth ks us c d, Spells ks k.kinds → k.Clear (some .colon) →
      depth + k.nesting < maxNestingDepth →
        ∀ᶠ n in atTop, parseExpr parseBlock n depth (ks ++ ⟨.colon, c, d⟩ :: us) =
          some (some k.erase, ⟨.colon, c, d⟩ :: us) :=
    fun depth ks us c d hks hck hd => hk.expr hks hck ends_colon hd
  constructor
  · intro depth ts rest a b hs hc hd
    obtain ⟨ks, us, rfl, hks, hus⟩ := spells_append.mp hs
    obtain ⟨c, d, us, rfl, -⟩ := spells_cons.mp hus
    simp only [Entries.nesting] at hd
    have hbrace : ∀ rest, kindAt (ks ++ rest) ≠ some .rBrace := fun rest => kindAt_written hks rfl
    have hdots : ∀ rest, kindAt (ks ++ rest) ≠ some .dotDot := fun rest => kindAt_written hks rfl
    refine eventually_succ ?_
    filter_upwards [hkey depth ks (us ++ ⟨.rBrace, a, b⟩ :: rest) c d hks hc.1 (by omega)]
      with n hkey
    unfold Parser.isMap
    split
    · exact absurd ‹_› (by simpa using hbrace _)
    · exact absurd ‹_› (by simpa using hdots _)
    · simp [hkey]
  · intro depth acc spread ts rest a b hs hc hd
    obtain ⟨ks, us, rfl, hks, hus⟩ := spells_append.mp hs
    obtain ⟨c, d, us, rfl, hus'⟩ := spells_cons.mp hus
    obtain ⟨vs, us, rfl, hvs, hes⟩ := spells_append.mp hus'
    obtain ⟨hck, hcv, hce⟩ := hc
    simp only [Entries.nesting] at hd
    have hbrace : ∀ rest, kindAt (ks ++ rest) ≠ some .rBrace := fun rest => kindAt_written hks rfl
    have hdots : ∀ rest, kindAt (ks ++ rest) ≠ some .dotDot := fun rest => kindAt_written hks rfl
    obtain ⟨left, hleft, hnext, hends, htail⟩ := he.tail depth rest a b hes hce (by omega)
    rw [← hnext] at hcv
    have hvalue : ∀ᶠ n in atTop, parseExpr parseBlock n depth (vs ++ left) =
        some (some v.erase, left) :=
      hv.expr hvs hcv hends (by omega)
    refine eventually_succ ?_
    filter_upwards [hkey depth ks (vs ++ left) c d hks hck (by omega), hvalue,
      htail (acc ++ [(k.erase, v.erase)]) spread] with n hkey hvalue htail
    simpa [parsePairs, hbrace, hdots, hleft, hkey, hvalue, Entries.pairs, Entries.spreadOr]
      using htail

theorem EntriesParse.spread {entries : Entries} (hw : Parses parseBlock w)
    (he : EntriesParse parseBlock entries) : EntriesParse parseBlock (.spread w entries) := by
  constructor
  · intro depth ts rest a b hs hc hd
    obtain ⟨c, d, us, rfl, hus⟩ := spells_cons.mp hs
    exact eventually_succ (Eventually.of_forall fun n => rfl)
  · intro depth acc spread ts rest a b hs hc hd
    obtain ⟨c, d, us, rfl, hus⟩ := spells_cons.mp hs
    obtain ⟨ws, us, rfl, hws, hes⟩ := spells_append.mp hus
    obtain ⟨hcw, hce⟩ := hc
    simp only [Entries.nesting] at hd
    obtain ⟨left, hleft, hnext, hends, htail⟩ := he.tail depth rest a b hes hce (by omega)
    rw [← hnext] at hcw
    have hexpr : ∀ᶠ n in atTop, parseExpr parseBlock n depth (ws ++ left) =
        some (some w.erase, left) :=
      hw.expr hws hcw hends (by omega)
    refine eventually_succ ?_
    filter_upwards [hexpr, htail acc (some w.erase)] with n hexpr htail
    simpa [parsePairs, hleft, hexpr, Entries.pairs, Entries.spreadOr] using htail

theorem parseUnary_list {ts left : Tokens} {items : List Expr}
    (hi : parseItems parseBlock n depth [] ts = some (items, left)) :
    parseUnary parseBlock (n + 2) depth (⟨.lBracket, a, b⟩ :: ts) =
      some (some (.listLit items), left) := by
  change Option.bind (parseItems parseBlock n depth [] ts) _ = _
  rw [hi]
  rfl

theorem parseUnary_map {ts left : Tokens} {pairs : List (Expr × Expr)}
    {spread : Option Expr} (hm : isMap parseBlock n depth ts = some true)
    (hp : parsePairs parseBlock n depth [] none ts = some (pairs, spread, left)) :
    parseUnary parseBlock (n + 2) depth (⟨.lBrace, a, b⟩ :: ts) =
      some (some (.mapLit pairs spread), left) := by
  change Option.bind (isMap parseBlock n depth ts) _ = _
  rw [hm]
  rw [hp]
  rfl

theorem Parses.list {items : Items} (h : ItemsParse parseBlock items) :
    Parses parseBlock (.list items) := by
  refine .of_whole fun depth ts rest hf _ => ?_
  obtain ⟨a, b, us, rfl, hus⟩ := spells_cons.mp hf.spells
  obtain ⟨us, c, d, rfl, his⟩ := spells_snoc.mp hus
  have hitems := h.list depth [] us rest c d his hf.clear hf.nesting
  refine eventually_succ (eventually_succ ?_)
  filter_upwards [hitems] with n hitems
  have hread := @parseUnary_list parseBlock _ depth a b _ _ _ hitems
  simpa [Written.erase] using hread

theorem Parses.map {entries : Entries} (h : EntriesParse parseBlock entries) :
    Parses parseBlock (.map entries) := by
  refine .of_whole fun depth ts rest hf _ => ?_
  obtain ⟨a, b, us, rfl, hus⟩ := spells_cons.mp hf.spells
  obtain ⟨us, c, d, rfl, hes⟩ := spells_snoc.mp hus
  have hmap := h.isMap depth us rest c d hes hf.clear hf.nesting
  have hpairs := h.pairs depth [] none us rest c d hes hf.clear hf.nesting
  refine eventually_succ (eventually_succ ?_)
  filter_upwards [hmap, hpairs] with n hmap hpairs
  have hread := @parseUnary_map parseBlock _ depth a b _ _ _ _ hmap hpairs
  simpa [Written.erase] using hread

/-! ## Postfix forms -/

theorem Parses.of_link (hv : Parses parseBlock v) (hl : 12 ≤ v.level) (hpost : w.isPostfix = true)
    (h : ∀ depth ts rest, Fits w depth ts rest → ∃ us left, ts ++ rest = us ++ left ∧
      Fits v depth us left ∧ ∀ r, (∀ᶠ n in atTop, parsePostfix parseBlock n depth w.erase rest = r) →
        ∀ᶠ n in atTop, parsePostfix parseBlock n depth v.erase left = r) : Parses parseBlock w := by
  refine .of_unary fun depth ts rest hf _ => ?_
  obtain ⟨us, left, hts, hfv, hlink⟩ := h depth ts rest hf
  obtain ⟨e, left', hunary, hchain, -⟩ := hv.unary (by omega) depth us left hfv (by omega)
  rw [hts]
  exact ⟨e, left', hunary, fun r hr => hchain r (hlink r hr), by simp [hpost]⟩

theorem parsePostfix_call {ts left : Tokens} {args : List Expr}
    (h : parseArgs parseBlock n depth [] ts = some (args, left)) :
    parsePostfix parseBlock (n + 1) depth e (⟨.lParen, a, b⟩ :: ts) =
      parsePostfix parseBlock n depth (.call e args) left := by
  change Option.bind (parseArgs parseBlock n depth [] ts) _ = _
  rw [h]
  rfl

theorem parsePostfix_member {c d : Nat} {name : String} (h : name ≠ "then") :
    parsePostfix parseBlock (n + 1) depth e (⟨.dot, a, b⟩ :: ⟨.ident name, c, d⟩ :: ts) =
      parsePostfix parseBlock n depth (.member e name) ts :=
  if_neg h

theorem parsePostfix_index {i : Expr} {ts left : Tokens}
    (h : parseExpr parseBlock n depth ts = some (some i, left)) :
    parsePostfix parseBlock (n + 1) depth e (⟨.lBracket, a, b⟩ :: ts) =
      parsePostfix parseBlock n depth (.index e i) (skip .rBracket left) := by
  change Option.bind (parseExpr parseBlock n depth ts) _ = _
  rw [h]
  rfl

theorem Parses.call {f : Written} {args : Items} (hf : Parses parseBlock f)
    (ha : ItemsParse parseBlock args) (hl : 12 ≤ f.level) : Parses parseBlock (.call f args) := by
  refine .of_link hf hl rfl fun depth ts rest hfit => ?_
  obtain ⟨us, vs, rfl, hus, hvs⟩ := spells_append.mp hfit.spells
  obtain ⟨a, b, vs, rfl, hws⟩ := spells_cons.mp hvs
  obtain ⟨as, c, d, rfl, has⟩ := spells_snoc.mp hws
  obtain ⟨hcf, hca⟩ := hfit.clear
  have hd := hfit.nesting
  simp only [Written.nesting] at hd
  have hargs := ha.args depth [] as rest c d has hca (by omega)
  refine ⟨us, _, append_assoc .., ⟨hus, hcf, by omega, rfl⟩, fun r hr => ?_⟩
  refine eventually_succ ?_
  filter_upwards [hargs, hr] with n hargs hr
  have hstep := @parsePostfix_call parseBlock _ depth a b f.erase _ _ _ hargs
  simp only [Written.erase] at hr
  simpa [hr] using hstep

theorem Parses.member (h : Parses parseBlock w) (name : String)
    (hl : 12 ≤ w.level) : Parses parseBlock (.member w name) := by
  refine .of_link h hl rfl fun depth ts rest hfit => ?_
  obtain ⟨us, vs, rfl, hus, hvs⟩ := spells_append.mp hfit.spells
  obtain ⟨a, b, vs, rfl, hws⟩ := spells_cons.mp hvs
  obtain ⟨c, d, none, rfl, hnone⟩ := spells_cons.mp hws
  obtain rfl := spells_nil.mp hnone
  obtain ⟨hname, hcw⟩ := hfit.clear
  refine ⟨us, _, append_assoc .., ⟨hus, hcw, hfit.nesting, rfl⟩, fun r hr => ?_⟩
  refine eventually_succ ?_
  filter_upwards [hr] with n hr
  exact (parsePostfix_member hname).trans hr

theorem Parses.optionalMember (h : Parses parseBlock w) (name : String)
    (hl : 12 ≤ w.level) : Parses parseBlock (.optionalMember w name) := by
  refine .of_link h hl rfl fun depth ts rest hfit => ?_
  obtain ⟨us, vs, rfl, hus, hvs⟩ := spells_append.mp hfit.spells
  obtain ⟨a, b, vs, rfl, hws⟩ := spells_cons.mp hvs
  obtain ⟨c, d, none, rfl, hnone⟩ := spells_cons.mp hws
  obtain rfl := spells_nil.mp hnone
  refine ⟨us, _, append_assoc .., ⟨hus, hfit.clear, hfit.nesting, rfl⟩, fun r hr => ?_⟩
  refine eventually_succ ?_
  exact hr

theorem Parses.index {i : Written} (h : Parses parseBlock w) (hi : Parses parseBlock i)
    (hl : 12 ≤ w.level) : Parses parseBlock (.index w i) := by
  refine .of_link h hl rfl fun depth ts rest hfit => ?_
  obtain ⟨us, vs, rfl, hus, hvs⟩ := spells_append.mp hfit.spells
  obtain ⟨a, b, vs, rfl, hws⟩ := spells_cons.mp hvs
  obtain ⟨is, c, d, rfl, his⟩ := spells_snoc.mp hws
  obtain ⟨hcw, hci⟩ := hfit.clear
  have hd := hfit.nesting
  simp only [Written.nesting] at hd
  have hexpr : ∀ᶠ n in atTop, parseExpr parseBlock n depth (is ++ ⟨.rBracket, c, d⟩ :: rest) =
      some (some i.erase, ⟨.rBracket, c, d⟩ :: rest) :=
    hi.expr his hci ends_rBracket (by omega)
  refine ⟨us, _, append_assoc .., ⟨hus, hcw, by omega, rfl⟩, fun r hr => ?_⟩
  refine eventually_succ ?_
  filter_upwards [hexpr, hr] with n hexpr hr
  have hstep := @parsePostfix_index parseBlock _ depth a b w.erase _ _ _ hexpr
  simp only [Written.erase] at hr
  simpa [hr, skip] using hstep

theorem Parses.binary {l r : Written} {op : BinOp} (hl : Parses parseBlock l)
    (hr : Parses parseBlock r) (hleft : opLevel op ≤ l.level) (hright : opLevel op < r.level) :
    Parses parseBlock (.binary l op r) := by
  have hop := opLevel_le op
  refine ⟨fun h => absurd h (by simp only [Written.level]; omega), ?_⟩
  intro depth p ts rest res hp hf hpost _ hbelow hloop
  simp only [Written.level] at hp hbelow
  obtain ⟨us, vs, rfl, hus, hvs⟩ := spells_append.mp hf.spells
  obtain ⟨a, b, vs, rfl, hws⟩ := spells_cons.mp hvs
  obtain ⟨hcl, hcr⟩ := hf.clear
  have hd := hf.nesting
  simp only [Written.nesting] at hd
  -- the right operand ends where an operator of this level, or a looser one, follows
  have hfr : Fits r depth vs rest := ⟨hws, hcr, by omega, hf.noName⟩
  have hrhs := hr.prec depth (opLevel op + 1) vs rest _ hright hfr hpost (by omega)
    (fun q hq => by have := hbelow q hq; omega)
    (eventually_precedenceLoop_stop depth _ r.erase hbelow)
  have hfl : Fits l depth us (⟨opKind op, a, b⟩ :: (vs ++ rest)) :=
    ⟨hus, hcl, by omega, by cases op <;> rfl⟩
  rw [append_assoc]
  refine hl.prec depth p us _ res (by omega) hfl (by cases op <;> rfl) ?_ ?_ ?_
  · intro h
    have : 0 < opLevel op := by cases op <;> decide
    omega
  · intro q hq
    have hq : opLevel op = q := by simpa using hq
    omega
  · refine eventually_succ ?_
    filter_upwards [hrhs, hloop] with n hrhs hloop
    have hprec : ¬ opLevel op < p := by omega
    simp only [Written.erase] at hloop
    simp [precedenceLoop, hprec, hrhs, hloop]

theorem Parses.ternary {c t e : Written} (hc : Parses parseBlock c) (ht : Parses parseBlock t)
    (he : Parses parseBlock e) (hl : 0 < c.level) : Parses parseBlock (.ternary c t e) := by
  refine ⟨fun h => absurd h (by simp [Written.level]), ?_⟩
  intro depth p ts rest res hp hf hpost hnone _ hloop
  have hnone : (kindAt rest).bind precedence = none := hnone rfl
  obtain rfl : p = 0 := Nat.le_zero.mp hp
  obtain ⟨us, vs, rfl, hus, hvs⟩ := spells_append.mp hf.spells
  obtain ⟨a₁, b₁, vs, rfl, hws⟩ := spells_cons.mp hvs
  obtain ⟨vs, ws, rfl, hts, hxs⟩ := spells_append.mp hws
  obtain ⟨a₂, b₂, ws, rfl, hes⟩ := spells_cons.mp hxs
  obtain ⟨hcc, hct, hce⟩ := hf.clear
  have hd := hf.nesting
  simp only [Written.nesting] at hd
  have hends : Ends (kindAt rest) := ⟨hf.noName, hpost, hnone⟩
  have helse := he.prec depth 0 ws rest _ (Nat.zero_le _) ⟨hes, hce, by omega, hf.noName⟩ hpost
    (fun _ => hnone) (hends.below _)
    (eventually_precedenceLoop_stop depth 0 e.erase (hends.below 0))
  have hthen := ht.prec depth 0 vs (⟨.colon, a₂, b₂⟩ :: (ws ++ rest)) _ (Nat.zero_le _)
    ⟨hts, hct, by omega, rfl⟩ rfl (fun _ => rfl) (ends_colon.below _)
    (eventually_precedenceLoop_stop depth 0 t.erase (ends_colon.below 0))
  rw [append_assoc]
  refine hc.prec depth 0 us _ res (Nat.zero_le _) ⟨hus, hcc, by omega, rfl⟩ rfl (by omega) ?_ ?_
  · intro q hq
    have hq : 0 = q := by simpa [precedence] using hq
    omega
  · refine eventually_succ ?_
    filter_upwards [hthen, helse, hloop] with n hthen helse hloop
    simp only [Written.erase] at hloop
    simp [precedenceLoop, precedence, binOp, skip, hthen, helse, hloop]

/-! ## The whole syntax -/

mutual

theorem Parses.all : ∀ w : Written, w.Grouped → Parses parseBlock w
  | .lit l, _ => .lit l
  | .ident name, _ => .ident name
  | .paren w, h => .paren (Parses.all w h)
  | .list items, h => .list (ItemsParse.all items h)
  | .map entries, h => .map (EntriesParse.all entries h)
  | .await w, h => .await (Parses.all w h.2) h.1
  | .unary op w, h => .unaryOp (Parses.all w h.2) op h.1
  | .cast _ w, h => .cast (Parses.all w h.2.2) h.1 h.2.1
  | .binary l _ r, h => .binary (Parses.all l h.2.2.1) (Parses.all r h.2.2.2) h.1 h.2.1
  | .ternary c t e, h =>
    .ternary (Parses.all c h.2.1) (Parses.all t h.2.2.1) (Parses.all e h.2.2.2) h.1
  | .call f args, h => .call (Parses.all f h.2.1) (ItemsParse.all args h.2.2) h.1
  | .member w name, h => .member (Parses.all w h.2) name h.1
  | .optionalMember w name, h => .optionalMember (Parses.all w h.2) name h.1
  | .index w i, h => .index (Parses.all w h.2.1) (Parses.all i h.2.2) h.1

theorem ItemsParse.all : ∀ items : Items, items.Grouped → ItemsParse parseBlock items
  | .nil, _ => .nil
  | .cons w items, h => .cons (Parses.all w h.1) (ItemsParse.all items h.2)

theorem EntriesParse.all : ∀ entries : Entries, entries.Grouped → EntriesParse parseBlock entries
  | .nil, _ => .nil
  | .pair k v entries, h =>
    .pair (Parses.all k h.1) (Parses.all v h.2.1) (EntriesParse.all entries h.2.2)
  | .spread w entries, h => .spread (Parses.all w h.1) (EntriesParse.all entries h.2)

end

/-- **`parse_expr` reads the operator grammar.** Every expression over the operators has its
minimal writing. A writing with these parentheses, and any redundant ones, is parsed to the tree
it stands for, where none of its forms is taken for another one and `parse_expr` is not nested
deeper than its limit. -/
theorem parseExpr_written (parseBlock : Nat → Nat → Tokens → Option (Found Block)) :
    (∀ e w, write e = some w → w.Grouped ∧ w.erase = e) ∧
    ∀ (w : Written) (depth : Nat) (ts rest : Tokens), w.Grouped → Spells ts w.kinds →
      w.Clear (kindAt rest) → Ends (kindAt rest) → depth + w.nesting < maxNestingDepth →
        ∀ᶠ n in atTop, parseExpr parseBlock n depth (ts ++ rest) = some (some w.erase, rest) :=
  ⟨write_spec, fun w _ _ _ hg hs hc he hd => (Parses.all w hg).expr hs hc he hd⟩

/-- Tokens of these kinds. -/
def spell (ks : List TokenKind) : Tokens := ks.map fun k => ⟨k, 0, 0⟩

theorem spells_spell (ks : List TokenKind) : Spells (spell ks) ks := by
  simp [Spells, spell, Function.comp_def]

/-- No block is parsed. -/
def noBlock : Nat → Nat → Tokens → Option (Found Block) := fun _ _ ts => some (none, ts)

theorem parseExpr_written_conditional : ∀ᶠ n in atTop, parseExpr noBlock n 0
      (spell [.lParen, .ident "a", .minus, .ident "b", .rParen, .star, .kwAwait, .ident "f", .lParen,
        .ident "c", .rParen, .dot, .ident "d", .question, .bang, .ident "x", .colon, .lBracket,
        .lParen, .ident "int", .rParen, .ident "y", .rBracket]) = some (some (.ternary
        (.binary (.binary (.ident "a") .sub (.ident "b")) .mul
          (.await (.member (.call (.ident "f") [.ident "c"]) "d")))
        (.unary .not (.ident "x")) (.listLit [.cast (.mk ["int"] []) (.ident "y")])), []) :=
  (parseExpr_written noBlock).2
    (.ternary
      (.binary (.paren (.binary (.ident "a") .sub (.ident "b"))) .mul
        (.await (.member (.call (.ident "f") (.cons (.ident "c") .nil)) "d")))
      (.unary .not (.ident "x")) (.list (.cons (.cast (.mk ["int"] []) (.ident "y")) .nil)))
    0 (spell _) []
    (by simp [Written.Grouped, Items.Grouped, Written.level, opLevel, named, allNamed])
    (spells_spell _)
    (by simp [Written.Clear, Items.Clear, Written.TypeText, Written.kinds, opKind, typeKind,
      Written.isPostfix])
    ⟨rfl, rfl, rfl⟩ (by decide)

/-- The parser returns the tree of this writing. -/
def ReadBack (w : Written) : Prop :=
  ∀ᶠ n in atTop, parseExpr noBlock n 0 (spell w.kinds) = some (some w.erase, [])

theorem not_readBack {r : Found Expr}
    (h : ∀ n, parseExpr noBlock (n + 8) 0 (spell w.kinds) = some r)
    (hne : r ≠ (some w.erase, [])) : ¬ ReadBack w := by
  intro hw
  obtain ⟨n, hread, hn⟩ := (hw.and (Filter.eventually_ge_atTop 8)).exists
  obtain ⟨m, rfl⟩ := Nat.exists_eq_add_of_le' hn
  rw [h m] at hread
  exact hne (Option.some.inj hread)

def parens : Nat → Written → Written
  | 0, w => w
  | k + 1, w => .paren (parens k w)

theorem grouped_parens (k : Nat) (h : w.Grouped) : (parens k w).Grouped := by
  induction k with
  | zero => exact h
  | succ k ih => exact ih

theorem parseExpr_too_deep (parseBlock : Nat → Nat → Tokens → Option (Found Block)) (w : Written)
    (k depth : Nat) (hs : Spells ts (parens k w).kinds)
    (hr : (kindAt rest).any canStartUnary = false) (hd : maxNestingDepth ≤ depth + k) :
    ∀ᶠ n in atTop, ∃ left, parseExpr parseBlock n depth (ts ++ rest) = some (none, left) := by
  induction k generalizing depth ts rest with
  | zero =>
    have hlimit : maxNestingDepth ≤ depth := hd
    refine eventually_succ (Eventually.of_forall fun n => ?_)
    simp [parseExpr, hlimit]
  | succ k ih =>
    obtain ⟨a, b, us, rfl, hus⟩ := spells_cons.mp hs
    obtain ⟨us, c, d, rfl, hws⟩ := spells_snoc.mp hus
    have hcast := castType_paren (parens k w) (a := c) (b := d) hws fun _ => hr
    have hinner : ∀ᶠ n in atTop, ∃ left,
        parseExpr parseBlock n (depth + 1) (us ++ ⟨.rParen, c, d⟩ :: rest) = some (none, left) :=
      ih (depth + 1) hws rfl (by omega)
    refine eventually_succ (eventually_succ (eventually_succ (eventually_succ ?_)))
    filter_upwards [hcast, hinner] with n hcast hinner
    obtain ⟨left, hcast⟩ := hcast
    obtain ⟨left', hinner⟩ := hinner
    have hunary := @parseUnary_paren parseBlock n (depth + 1) a b _ _ _ _ hcast hinner
    by_cases hlimit : maxNestingDepth ≤ depth
    · simp [parseExpr, hlimit]
    · simp [parseExpr, hlimit, parsePrecedence, hunary]

/-- The parser reads `-x.f` as `(-x).f`, `(x) - y` as a cast of `-y`, and `x.then` as `x`; a
name in 256 parentheses it does not read. -/
theorem prefix_cast_then_misread : ((Written.unary .neg (.member (.ident "x") "f")).Grouped ∧
      ¬ ReadBack (.unary .neg (.member (.ident "x") "f"))) ∧
    ((Written.binary (.paren (.ident "x")) .sub (.ident "y")).Grouped ∧
      ¬ ReadBack (.binary (.paren (.ident "x")) .sub (.ident "y"))) ∧
    ((Written.member (.ident "x") "then").Grouped ∧ ¬ ReadBack (.member (.ident "x") "then")) ∧
    (parens 256 (.ident "x")).Grouped ∧ ¬ ReadBack (parens 256 (.ident "x")) := by
  refine ⟨⟨?_, not_readBack (r := (some (.member (.unary .neg (.ident "x")) "f"), []))
      (fun n => rfl) (by simp [Written.erase])⟩,
    ⟨?_, not_readBack (r := (some (.cast (.mk ["x"] []) (.unary .neg (.ident "y"))), []))
      (fun n => rfl) (by simp [Written.erase])⟩,
    ⟨?_, not_readBack (r := (some (.ident "x"), [])) (fun n => rfl) (by simp [Written.erase])⟩,
    ?_, fun hread => ?_⟩
  · simp [Written.Grouped, Written.level]
  · simp [Written.Grouped, Written.level, opLevel]
  · simp [Written.Grouped, Written.level]
  · exact grouped_parens 256 trivial
  · have hdeep : ∀ᶠ n in atTop, ∃ left,
        parseExpr noBlock n 0 (spell (parens 256 (.ident "x")).kinds ++ []) = some (none, left) :=
      parseExpr_too_deep noBlock (.ident "x") 256 0 (spells_spell _) rfl (by decide)
    obtain ⟨n, hread, left, hdeep⟩ := (hread.and hdeep).exists
    rw [append_nil, hread] at hdeep
    simp at hdeep

end Arth.Parser
