import Arth.Parser.Expr

/-!
# Expressions as they are written

The concrete syntax of the operators: an expression with the parentheses it is written with.

* `Written.kinds`, `Written.erase` — its tokens, and the tree it stands for.
* `Written.Grouped` — there are parentheses wherever the operator table asks for them.
* `write` — an expression with these parentheses and no others.
-/

namespace Arth.Parser

open Option

open Ast (Expr NamePath BinOp UnOp)
open Syntax (TokenKind)

def dotted (path : List String) : List TokenKind :=
  path.flatMap fun name => [.dot, .ident name]

mutual

def typeKinds : NamePath → List TokenKind
  | .mk path args =>
    (dotted path).tail ++
      match args with
      | [] => []
      | first :: rest => .lt :: typeKinds first ++ typeArgKinds rest ++ [.gt]

def typeArgKinds : List NamePath → List TokenKind
  | [] => []
  | arg :: args => .comma :: typeKinds arg ++ typeArgKinds args

end

mutual

/-- Every path of the type has a name. -/
def named : NamePath → Bool
  | .mk path args => path ≠ [] && allNamed args

def allNamed : List NamePath → Bool
  | [] => true
  | arg :: args => named arg && allNamed args

end

/-! ## Expressions -/

inductive Literal where
  | int (n : Int64)
  | float (x : F64)
  | str (s : String)
  | char (c : Char)
  | bool (b : Bool)

def Literal.kind : Literal → TokenKind
  | .int n => .number n
  | .float x => .float x
  | .str s => .stringLit s
  | .char c => .charLit c
  | .bool true => .kwTrue
  | .bool false => .kwFalse

def Literal.erase : Literal → Expr
  | .int n => .int n
  | .float x => .float x
  | .str s => .str s
  | .char c => .char c
  | .bool b => .bool b

mutual

inductive Written where
  | lit (l : Literal)
  | ident (name : String)
  | paren (w : Written)
  | list (items : Items)
  | map (entries : Entries)
  | await (w : Written)
  | unary (op : UnOp) (w : Written)
  | cast (ty : NamePath) (w : Written)
  | binary (left : Written) (op : BinOp) (right : Written)
  | ternary (cond thenW elseW : Written)
  | call (callee : Written) (args : Items)
  | member (obj : Written) (name : String)
  | optionalMember (obj : Written) (name : String)
  | index (obj idx : Written)

/-- Items of a list or a call, between commas. -/
inductive Items where
  | nil
  | cons (w : Written) (rest : Items)

/-- Entries of a map, between commas. -/
inductive Entries where
  | nil
  | pair (key value : Written) (rest : Entries)
  | spread (w : Written) (rest : Entries)

end

def opKind : BinOp → TokenKind
  | .add => .plus
  | .sub => .minus
  | .mul => .star
  | .div => .slash
  | .mod => .percent
  | .shl => .shl
  | .shr => .shr
  | .lt => .lt
  | .le => .le
  | .gt => .gt
  | .ge => .ge
  | .eq => .eqEq
  | .ne => .bangEq
  | .and => .andAnd
  | .or => .orOr
  | .bitAnd => .ampersand
  | .bitOr => .pipe
  | .bitXor => .caret

def unOpKind : UnOp → TokenKind
  | .neg => .minus
  | .not => .bang

/-- The levels of the operator table, from the conditional's 0; prefix operators are at 11 and
postfix forms at 12. -/
def opLevel : BinOp → Nat
  | .or => 1
  | .and => 2
  | .bitOr => 3
  | .bitXor => 4
  | .bitAnd => 5
  | .eq | .ne => 6
  | .lt | .le | .gt | .ge => 7
  | .shl | .shr => 8
  | .add | .sub => 9
  | .mul | .div | .mod => 10

theorem opLevel_le (op : BinOp) : opLevel op ≤ 10 := by
  cases op <;> decide

def Written.level : Written → Nat
  | .ternary .. => 0
  | .binary _ op _ => opLevel op
  | .await _ | .unary .. | .cast .. => 11
  | _ => 12

/-- The kind after an item: a comma, or what closes the list. -/
def Items.next (close : TokenKind) : Items → TokenKind
  | .nil => close
  | .cons .. => .comma

def Items.comma : Items → List TokenKind
  | .nil => []
  | .cons .. => [.comma]

def Entries.next : Entries → TokenKind
  | .nil => .rBrace
  | _ => .comma

def Entries.comma : Entries → List TokenKind
  | .nil => []
  | _ => [.comma]

mutual

def Written.kinds : Written → List TokenKind
  | .lit l => [l.kind]
  | .ident name => [.ident name]
  | .paren w => .lParen :: (w.kinds ++ [.rParen])
  | .list items => .lBracket :: (items.kinds ++ [.rBracket])
  | .map entries => .lBrace :: (entries.kinds ++ [.rBrace])
  | .await w => .kwAwait :: w.kinds
  | .unary op w => unOpKind op :: w.kinds
  | .cast ty w => .lParen :: (typeKinds ty ++ .rParen :: w.kinds)
  | .binary l op r => l.kinds ++ opKind op :: r.kinds
  | .ternary c t e => c.kinds ++ .question :: (t.kinds ++ .colon :: e.kinds)
  | .call f args => f.kinds ++ .lParen :: (args.kinds ++ [.rParen])
  | .member w name => w.kinds ++ [.dot, .ident name]
  | .optionalMember w name => w.kinds ++ [.questionDot, .ident name]
  | .index w i => w.kinds ++ .lBracket :: (i.kinds ++ [.rBracket])

def Items.kinds : Items → List TokenKind
  | .nil => []
  | .cons w rest => w.kinds ++ (rest.comma ++ rest.kinds)

def Entries.kinds : Entries → List TokenKind
  | .nil => []
  | .pair k v rest => k.kinds ++ .colon :: (v.kinds ++ (rest.comma ++ rest.kinds))
  | .spread w rest => .dotDot :: (w.kinds ++ (rest.comma ++ rest.kinds))

end

mutual

/-- The tree: parentheses are gone, and of several spreads the last one counts. -/
def Written.erase : Written → Expr
  | .lit l => l.erase
  | .ident name => .ident name
  | .paren w => w.erase
  | .list items => .listLit items.erase
  | .map entries => .mapLit entries.pairs (entries.spreadOr none)
  | .await w => .await w.erase
  | .unary op w => .unary op w.erase
  | .cast ty w => .cast ty w.erase
  | .binary l op r => .binary l.erase op r.erase
  | .ternary c t e => .ternary c.erase t.erase e.erase
  | .call f args => .call f.erase args.erase
  | .member w name => .member w.erase name
  | .optionalMember w name => .optionalMember w.erase name
  | .index w i => .index w.erase i.erase

def Items.erase : Items → List Expr
  | .nil => []
  | .cons w rest => w.erase :: rest.erase

def Entries.pairs : Entries → List (Expr × Expr)
  | .nil => []
  | .pair k v rest => (k.erase, v.erase) :: rest.pairs
  | .spread _ rest => rest.pairs

def Entries.spreadOr : Entries → Option Expr → Option Expr
  | .nil, e => e
  | .pair _ _ rest, e => rest.spreadOr e
  | .spread w rest, _ => rest.spreadOr (some w.erase)

end

mutual

/-- **Parentheses wherever the table asks for them**: postfix forms bind tighter than prefix
operators and casts, these tighter than binary operators; binary operators associate to the
left and the conditional to the right. -/
def Written.Grouped : Written → Prop
  | .lit _ | .ident _ => True
  | .paren w => w.Grouped
  | .list items => items.Grouped
  | .map entries => entries.Grouped
  | .await w => 11 ≤ w.level ∧ w.Grouped
  | .unary _ w => 11 ≤ w.level ∧ w.Grouped
  | .cast ty w => named ty ∧ 11 ≤ w.level ∧ w.Grouped
  | .binary l op r => opLevel op ≤ l.level ∧ opLevel op < r.level ∧ l.Grouped ∧ r.Grouped
  | .ternary c t e => 0 < c.level ∧ c.Grouped ∧ t.Grouped ∧ e.Grouped
  | .call f args => 12 ≤ f.level ∧ f.Grouped ∧ args.Grouped
  | .member w _ => 12 ≤ w.level ∧ w.Grouped
  | .optionalMember w _ => 12 ≤ w.level ∧ w.Grouped
  | .index w i => 12 ≤ w.level ∧ w.Grouped ∧ i.Grouped

def Items.Grouped : Items → Prop
  | .nil => True
  | .cons w rest => w.Grouped ∧ rest.Grouped

def Entries.Grouped : Entries → Prop
  | .nil => True
  | .pair k v rest => k.Grouped ∧ v.Grouped ∧ rest.Grouped
  | .spread w rest => w.Grouped ∧ rest.Grouped

end

/-! ## The minimal writing of an expression -/

def Written.group (level : Nat) (w : Written) : Written :=
  if level ≤ w.level then w else .paren w

theorem level_group (level : Nat) (hl : level ≤ 12) (w : Written) :
    level ≤ (w.group level).level := by
  unfold Written.group
  split
  · assumption
  · exact hl

theorem grouped_group (level : Nat) {w : Written} (hw : w.Grouped) : (w.group level).Grouped := by
  unfold Written.group
  split
  · exact hw
  · exact hw

@[simp] theorem erase_group (level : Nat) (w : Written) : (w.group level).erase = w.erase := by
  unfold Written.group
  split <;> rfl

mutual

/-- The writing with the fewest parentheses, of an expression over the operators. -/
def write : Expr → Option Written
  | .int n => some (.lit (.int n))
  | .float x => some (.lit (.float x))
  | .str s => some (.lit (.str s))
  | .char c => some (.lit (.char c))
  | .bool b => some (.lit (.bool b))
  | .ident name => some (.ident name)
  | .await e => do return .await ((← write e).group 11)
  | .unary op e => do return .unary op ((← write e).group 11)
  | .cast ty e => do
    if named ty then return .cast ty ((← write e).group 11)
    else none
  | .binary l op r => do
    return .binary ((← write l).group (opLevel op)) op ((← write r).group (opLevel op + 1))
  | .ternary c t e => do return .ternary ((← write c).group 1) (← write t) (← write e)
  | .call f args => do return .call ((← write f).group 12) (← writeItems args)
  | .member e name => do return .member ((← write e).group 12) name
  | .optionalMember e name => do return .optionalMember ((← write e).group 12) name
  | .index e i => do return .index ((← write e).group 12) (← write i)
  | .listLit items => do return .list (← writeItems items)
  | .mapLit pairs none => do return .map (← writePairs pairs)
  | .mapLit pairs (some e) => do return .map (.spread (← write e) (← writePairs pairs))
  | .fnLiteral .. | .structLit .. => none

def writeItems : List Expr → Option Items
  | [] => some .nil
  | e :: es => do return .cons (← write e) (← writeItems es)

def writePairs : List (Expr × Expr) → Option Entries
  | [] => some .nil
  | (k, v) :: rest => do return .pair (← write k) (← write v) (← writePairs rest)

end

mutual

theorem write_spec : ∀ e w, write e = some w → w.Grouped ∧ w.erase = e
  | .int _, w, h | .float _, w, h | .str _, w, h | .char _, w, h | .bool _, w, h
  | .ident _, w, h => by
    simp only [write, Option.some.injEq] at h
    subst h
    exact ⟨trivial, rfl⟩
  | .await e, w, h | .unary _ e, w, h | .member e _, w, h | .optionalMember e _, w, h => by
    simp only [write, pure_def, bind_eq_bind, bind_eq_some_iff,
      Option.some.injEq] at h
    obtain ⟨w, hw, rfl⟩ := h
    obtain ⟨hg, he⟩ := write_spec e w hw
    exact ⟨⟨level_group _ (by omega) w, grouped_group _ hg⟩, by simp [Written.erase, he]⟩
  | .cast ty e, w, h => by
    by_cases ht : named ty
    · simp only [write, ht, if_true, pure_def, bind_eq_bind,
        bind_eq_some_iff, Option.some.injEq] at h
      obtain ⟨w, hw, rfl⟩ := h
      obtain ⟨hg, he⟩ := write_spec e w hw
      exact ⟨⟨ht, level_group _ (by omega) w, grouped_group _ hg⟩, by simp [Written.erase, he]⟩
    · simp [write, ht] at h
  | .binary l op r, w, h => by
    simp only [write, pure_def, bind_eq_bind, bind_eq_some_iff, Option.some.injEq] at h
    obtain ⟨wl, hl, wr, hr, rfl⟩ := h
    obtain ⟨hgl, hel⟩ := write_spec l wl hl
    obtain ⟨hgr, her⟩ := write_spec r wr hr
    have hop : opLevel op ≤ 10 := opLevel_le op
    have hright := level_group (opLevel op + 1) (by omega) wr
    exact ⟨⟨level_group _ (by omega) wl, by omega, grouped_group _ hgl, grouped_group _ hgr⟩,
      by simp [Written.erase, hel, her]⟩
  | .ternary c t e, w, h => by
    simp only [write, pure_def, bind_eq_bind, bind_eq_some_iff, Option.some.injEq] at h
    obtain ⟨wc, hc, wt, ht, we, he, rfl⟩ := h
    obtain ⟨hgc, hec⟩ := write_spec c wc hc
    obtain ⟨hgt, het⟩ := write_spec t wt ht
    obtain ⟨hge, hee⟩ := write_spec e we he
    exact ⟨⟨level_group 1 (by omega) wc, grouped_group _ hgc, hgt, hge⟩,
      by simp [Written.erase, hec, het, hee]⟩
  | .call f args, w, h => by
    simp only [write, pure_def, bind_eq_bind, bind_eq_some_iff, Option.some.injEq] at h
    obtain ⟨wf, hf, items, hi, rfl⟩ := h
    obtain ⟨hg, he⟩ := write_spec f wf hf
    obtain ⟨hgi, hei⟩ := writeItems_spec args items hi
    exact ⟨⟨level_group _ (by omega) wf, grouped_group _ hg, hgi⟩, by simp [Written.erase, he, hei]⟩
  | .index e i, w, h => by
    simp only [write, pure_def, bind_eq_bind, bind_eq_some_iff, Option.some.injEq] at h
    obtain ⟨w, hw, wi, hi, rfl⟩ := h
    obtain ⟨hg, he⟩ := write_spec e w hw
    obtain ⟨hgi, hei⟩ := write_spec i wi hi
    exact ⟨⟨level_group _ (by omega) w, grouped_group _ hg, hgi⟩, by simp [Written.erase, he, hei]⟩
  | .listLit items, w, h => by
    simp only [write, pure_def, bind_eq_bind, bind_eq_some_iff, Option.some.injEq] at h
    obtain ⟨items', hi, rfl⟩ := h
    obtain ⟨hg, he⟩ := writeItems_spec items items' hi
    exact ⟨hg, by simp [Written.erase, he]⟩
  | .mapLit pairs none, w, h => by
    simp only [write, pure_def, bind_eq_bind, bind_eq_some_iff, Option.some.injEq] at h
    obtain ⟨entries, hp, rfl⟩ := h
    obtain ⟨hg, he, hs⟩ := writePairs_spec pairs entries hp
    exact ⟨hg, by simp [Written.erase, he, hs]⟩
  | .mapLit pairs (some e), w, h => by
    simp only [write, pure_def, bind_eq_bind, bind_eq_some_iff, Option.some.injEq] at h
    obtain ⟨w, hw, entries, hp, rfl⟩ := h
    obtain ⟨hgw, hew⟩ := write_spec e w hw
    obtain ⟨hg, he, hs⟩ := writePairs_spec pairs entries hp
    exact ⟨⟨hgw, hg⟩, by simp [Written.erase, Entries.pairs, Entries.spreadOr, he, hs, hew]⟩
  | .fnLiteral .., w, h | .structLit .., w, h => by simp [write] at h

theorem writeItems_spec : ∀ es items, writeItems es = some items → items.Grouped ∧ items.erase = es
  | [], items, h => by
    simp only [writeItems, Option.some.injEq] at h
    subst h
    exact ⟨trivial, rfl⟩
  | e :: es, items, h => by
    simp only [writeItems, pure_def, bind_eq_bind, bind_eq_some_iff,
      Option.some.injEq] at h
    obtain ⟨w, hw, rest, hr, rfl⟩ := h
    obtain ⟨hg, he⟩ := write_spec e w hw
    obtain ⟨hgr, her⟩ := writeItems_spec es rest hr
    exact ⟨⟨hg, hgr⟩, by simp [Items.erase, he, her]⟩

theorem writePairs_spec : ∀ ps entries, writePairs ps = some entries →
    entries.Grouped ∧ entries.pairs = ps ∧ ∀ e, entries.spreadOr e = e
  | [], entries, h => by
    simp only [writePairs, Option.some.injEq] at h
    subst h
    exact ⟨trivial, rfl, fun _ => rfl⟩
  | (k, v) :: ps, entries, h => by
    simp only [writePairs, pure_def, bind_eq_bind, bind_eq_some_iff,
      Option.some.injEq] at h
    obtain ⟨wk, hk, wv, hv, rest, hr, rfl⟩ := h
    obtain ⟨hgk, hek⟩ := write_spec k wk hk
    obtain ⟨hgv, hev⟩ := write_spec v wv hv
    obtain ⟨hgr, her, hs⟩ := writePairs_spec ps rest hr
    exact ⟨⟨hgk, hgv, hgr⟩, by simp [Entries.pairs, hek, hev, her],
      fun e => by simp [Entries.spreadOr, hs]⟩

end

end Arth.Parser
