import Arth.Parser.Lookahead
import Arth.Syntax.Lexer

/-!
# Type names, printed and parsed

`print_name_path` of `fmt/printer.rs` and `parse_type_name` of `parser/types.rs`. Two closing
brackets in a row are one token, which the inner type arguments consume; the outer ones end
without a bracket, unless a comma is next, which they then take for theirs.

* `frontKinds`, `closers` — the tokens of a printed type: all but the brackets at its end,
  and those.
* `parse_front` — a type is read back if no argument before a comma ends with two brackets.
* `aligned_of_parse` — and only then.
-/

namespace Arth.Parser

open List Option

open Ast (NamePath)
open Syntax (Token TokenKind)
open Filter (atTop)

mutual

def printNamePath : NamePath → String
  | .mk path args =>
    ".".intercalate path ++
      match args with
      | [] => ""
      | arg :: args => "<" ++ printNamePath arg ++ printTypeArgs args ++ ">"

def printTypeArgs : List NamePath → String
  | [] => ""
  | arg :: args => ", " ++ printNamePath arg ++ printTypeArgs args

end

/-- So many closing brackets, as the lexer joins them. -/
def closers : Nat → List TokenKind
  | 0 => []
  | 1 => [.gt]
  | m + 2 => .shr :: closers m

mutual

/-- How many closing brackets a type ends with. -/
def closing : NamePath → Nat
  | .mk _ args =>
    match args with
    | [] => 0
    | arg :: args => closingArgs (arg :: args) + 1

def closingArgs : List NamePath → Nat
  | [] => 0
  | [arg] => closing arg
  | _ :: next :: args => closingArgs (next :: args)

end

mutual

/-- The tokens of a type but the closing brackets at its end. -/
def frontKinds : NamePath → List TokenKind
  | .mk path args =>
    (dotted path).tail ++
      match args with
      | [] => []
      | arg :: args => .lt :: frontArgKinds (arg :: args)

def frontArgKinds : List NamePath → List TokenKind
  | [] => []
  | [arg] => frontKinds arg
  | arg :: next :: args =>
    frontKinds arg ++ (closers (closing arg) ++ .comma :: frontArgKinds (next :: args))

end

mutual

/-- No argument that another one follows ends with more than one closing bracket. -/
def aligned : NamePath → Bool
  | .mk _ args => alignedArgs args

def alignedArgs : List NamePath → Bool
  | [] => true
  | [arg] => aligned arg
  | arg :: next :: args => aligned arg && closing arg ≤ 1 && alignedArgs (next :: args)

end

theorem length_closers (m : Nat) : (closers m).length = (m + 1) / 2 := by
  induction m using closers.induct with
  | case1 => rfl
  | case2 => rfl
  | case3 m ih =>
    rw [closers, length_cons, ih]
    omega

variable {k : TokenKind} {m n : Nat}

theorem closers_mem (h : k ∈ closers m) : k = .gt ∨ k = .shr := by
  induction m using closers.induct with
  | case1 => cases h
  | case2 => exact .inl (mem_singleton.1 h)
  | case3 m ih =>
    rcases mem_cons.1 h with rfl | h
    · exact .inr rfl
    · exact ih h

/-! ## More fuel -/

mutual

theorem parseTypeName_succ : ∀ n ts r, parseTypeName n ts = some r →
    parseTypeName (n + 1) ts = some r
  | 0, _, _, h => nomatch h
  | n + 1, ts, r, h => by
    rw [parseTypeName] at h ⊢
    split at h
    · exact h
    · rename_i path ts' _
      split_ifs at h ⊢ with hlt
      · obtain ⟨⟨args, left⟩, hargs, hr⟩ := Option.bind_eq_some_iff.1 h
        exact Option.bind_eq_some_iff.2 ⟨_, parseTypeArgs_succ n ts' _ hargs, hr⟩
      · exact h

theorem parseTypeArgs_succ : ∀ n ts r, parseTypeArgs n ts = some r →
    parseTypeArgs (n + 1) ts = some r
  | 0, _, _, h => nomatch h
  | n + 1, ts, r, h => by
    rw [parseTypeArgs] at h ⊢
    obtain ⟨⟨first, ts₁⟩, hfirst, h⟩ := Option.bind_eq_some_iff.1 h
    obtain ⟨⟨args, ts₂⟩, hloop, h⟩ := Option.bind_eq_some_iff.1 h
    exact Option.bind_eq_some_iff.2 ⟨_, parseTypeName_succ n _ _ hfirst,
      Option.bind_eq_some_iff.2 ⟨_, typeArgsLoop_succ n _ _ _ hloop, h⟩⟩

theorem typeArgsLoop_succ : ∀ n acc ts r, typeArgsLoop n acc ts = some r →
    typeArgsLoop (n + 1) acc ts = some r
  | 0, _, _, _, h => nomatch h
  | n + 1, acc, ts, r, h => by
    rw [typeArgsLoop] at h ⊢
    split_ifs at h ⊢ with hcomma
    · obtain ⟨⟨arg, ts₁⟩, harg, h⟩ := Option.bind_eq_some_iff.1 h
      refine Option.bind_eq_some_iff.2 ⟨_, parseTypeName_succ n _ _ harg, ?_⟩
      cases arg with
      | none => exact h
      | some arg => exact typeArgsLoop_succ n _ _ _ h
    · exact h

end

variable {ts : Tokens} {r : Found NamePath}

theorem parseTypeName_mono (hnm : n ≤ m)
    (h : parseTypeName n ts = some r) : parseTypeName m ts = some r := by
  induction hnm with
  | refl => exact h
  | step _ ih => exact parseTypeName_succ _ _ _ ih

theorem parseTypeName_unique {r' : Found NamePath}
    (hev : ∀ᶠ m in atTop, parseTypeName m ts = some r) (h : parseTypeName n ts = some r') :
    r' = r := by
  obtain ⟨m, hm, hnm⟩ := (hev.and (Filter.eventually_ge_atTop n)).exists
  exact some.inj ((parseTypeName_mono hnm h).symm.trans hm)

/-- What follows a type: the comma before the next argument, or the end of the text. -/
def EndsType (rest : Tokens) : Prop := kindAt rest = some .comma ∨ kindAt rest = some .eof

theorem EndsType.ne {rest : Tokens} (h : EndsType rest) (hc : k ≠ .comma)
    (he : k ≠ .eof) : kindAt rest ≠ some k := by
  rcases h with h | h <;> rw [h] <;> simp [hc.symm, he.symm]

variable {cs rest : Tokens} {m : Nat} {s : String}

theorem kindAt_closers (hcs : Spells cs (closers m)) (d : Nat)
    (hgt : k ≠ .gt) (hshr : k ≠ .shr) (hrest : cs.length ≤ d → kindAt rest ≠ some k) :
    kindAt (cs.drop d ++ rest) ≠ some k := by
  cases hd : cs.drop d with
  | nil =>
    exact hrest (drop_eq_nil_iff.1 hd)
  | cons c cs' =>
    intro hk
    have hmem : c.kind ∈ closers m := by
      rw [← hcs]
      exact mem_map_of_mem (mem_of_mem_drop (hd ▸ mem_cons_self))
    obtain rfl : c.kind = k := by simpa using hk
    rcases closers_mem hmem with h | h
    · exact hgt h
    · exact hshr h

theorem skipClose_closers (hcs : Spells cs (closers m)) (hrest : EndsType rest) (d : Nat) :
    skipClose (cs.drop d ++ rest) = cs.drop (d + 1) ++ rest := by
  cases hd : cs.drop d with
  | nil =>
    have hd' : cs.drop (d + 1) = [] := by
      rw [drop_eq_nil_iff] at hd ⊢
      omega
    rw [hd', nil_append, skipClose]
    rcases hrest with h | h <;> rw [h]
  | cons c cs' =>
    -- what is left of the closers begins with one of them
    have hmem : c.kind ∈ closers m := by
      rw [← hcs]
      exact mem_map_of_mem (mem_of_mem_drop (hd ▸ mem_cons_self))
    have hd' : cs.drop (d + 1) = cs' := by rw [← tail_drop, hd, tail_cons]
    rw [hd', cons_append, skipClose, kindAt_cons]
    rcases closers_mem hmem with h | h <;> rw [h] <;> rfl

mutual

theorem parse_front : ∀ t us cs rest m, named t → aligned t → Spells us (frontKinds t) →
    Spells cs (closers m) → EndsType rest → (cs.length < closing t → kindAt rest ≠ some .comma) →
      ∀ᶠ n in atTop,
        parseTypeName n (us ++ (cs ++ rest)) = some (some t, cs.drop (closing t) ++ rest)
  | .mk path [], us, cs, rest, m, hn, _, hus, hcs, hrest, _ => by
    have hp : path ≠ [] := by
      simp only [named, allNamed, Bool.and_true, decide_eq_true_eq] at hn
      exact hn
    have hus : Spells us (dotted path).tail := by simpa [frontKinds] using hus
    have hdot := kindAt_closers hcs 0 (k := .dot) (by simp) (by simp)
      fun _ => hrest.ne (by simp) (by simp)
    have hlt := kindAt_closers hcs 0 (k := .lt) (by simp) (by simp)
      fun _ => hrest.ne (by simp) (by simp)
    rw [List.drop_zero] at hdot hlt
    refine eventually_succ (Filter.Eventually.of_forall fun n => ?_)
    simp [parseTypeName, parseNamePathParts_dotted hp hus hdot, hlt, closing]
  | .mk path (arg :: args), us, cs, rest, m, hn, ha, hus, hcs, hrest, hcomma => by
    rw [named, Bool.and_eq_true, decide_eq_true_eq] at hn
    obtain ⟨hp, hn⟩ := hn
    rw [aligned] at ha
    simp only [frontKinds, spells_append, spells_cons] at hus
    obtain ⟨us, _, rfl, hus, a, b, vs, rfl, hvs⟩ := hus
    rw [closing] at hcomma ⊢
    -- the arguments leave the closers that are not theirs
    obtain ⟨left, hfirst, hloop⟩ := parse_frontArgs arg args vs cs rest m hn ha hvs hcs hrest
      fun hle => hcomma (Nat.lt_succ_of_le hle)
    have hpath : parseNamePathParts (us ++ ⟨.lt, a, b⟩ :: (vs ++ (cs ++ rest))) =
        (some path, ⟨.lt, a, b⟩ :: (vs ++ (cs ++ rest))) :=
      parseNamePathParts_dotted hp hus (by simp)
    refine eventually_succ (eventually_succ ?_)
    filter_upwards [hfirst, hloop [arg]] with n hfirst hloop
    simp [parseTypeName, parseTypeArgs, hpath, hfirst, hloop, skipClose_closers hcs hrest]
termination_by t => sizeOf t

theorem parse_frontArgs : ∀ arg args us cs rest m, allNamed (arg :: args) →
    alignedArgs (arg :: args) → Spells us (frontArgKinds (arg :: args)) →
    Spells cs (closers m) → EndsType rest →
    (cs.length ≤ closingArgs (arg :: args) → kindAt rest ≠ some .comma) →
      ∃ left, (∀ᶠ n in atTop, parseTypeName n (us ++ (cs ++ rest)) = some (some arg, left)) ∧
        ∀ acc, ∀ᶠ n in atTop, typeArgsLoop n acc left =
          some (acc ++ args, cs.drop (closingArgs (arg :: args)) ++ rest)
  | arg, [], us, cs, rest, m, hn, ha, hus, hcs, hrest, hcomma => by
    simp only [allNamed, Bool.and_true] at hn
    rw [closingArgs] at hcomma ⊢
    have hfirst := parse_front arg us cs rest m hn ha hus hcs hrest fun h => hcomma h.le
    refine ⟨_, hfirst, fun acc => eventually_succ (Filter.Eventually.of_forall fun n => ?_)⟩
    have hstop := kindAt_closers hcs (closing arg) (k := .comma) (by simp) (by simp) hcomma
    rw [typeArgsLoop, if_neg hstop, List.append_nil]
  | arg, next :: args, us, cs, rest, m, hn, ha, hus, hcs, hrest, hcomma => by
    rw [allNamed, Bool.and_eq_true] at hn
    obtain ⟨hn, hns⟩ := hn
    simp only [alignedArgs, Bool.and_eq_true, decide_eq_true_eq] at ha
    obtain ⟨⟨ha, hone⟩, has⟩ := ha
    simp only [frontArgKinds, spells_append, spells_cons] at hus
    obtain ⟨us, _, rfl, hus, ds, _, rfl, hds, a, b, vs, rfl, hvs⟩ := hus
    rw [closingArgs] at hcomma ⊢
    obtain ⟨left, hnext, hloop⟩ :=
      parse_frontArgs next args vs cs rest m hns has hvs hcs hrest hcomma
    have hlen : ds.length = (closing arg + 1) / 2 := by
      rw [← length_closers, ← hds, List.length_map]
    -- with at most one bracket, the argument leaves none and takes none of what follows
    have hfirst := parse_front arg us ds (⟨.comma, a, b⟩ :: (vs ++ (cs ++ rest))) _ hn ha hus hds
      (.inl rfl) fun h => absurd h (by omega)
    rw [List.drop_eq_nil_of_le (by omega), List.nil_append] at hfirst
    refine ⟨_, by simpa using hfirst, fun acc => eventually_succ ?_⟩
    filter_upwards [hnext, hloop (acc ++ [next])] with n hnext hloop
    simp [typeArgsLoop, hnext, hloop]
termination_by arg args => sizeOf (arg :: args)

end

/-! ## Only aligned types are read back -/

theorem typeArgsLoop_extends : ∀ {n acc ts args left}, typeArgsLoop n acc ts = some (args, left) →
    acc <+: args
  | 0, _, _, _, _, h => nomatch h
  | n + 1, acc, ts, args, left, h => by
    rw [typeArgsLoop] at h
    split_ifs at h with hcomma
    · obtain ⟨⟨arg, ts₁⟩, harg, h⟩ := bind_eq_some_iff.1 h
      cases arg with
      | none =>
        cases some.inj h
        exact prefix_rfl
      | some arg => exact (prefix_append _ _).trans (typeArgsLoop_extends h)
    · cases some.inj h
      exact prefix_rfl

theorem parseTypeName_found
    (hs : kindAt ts = some (.ident s)) (h : parseTypeName n ts = some r) : ∃ t, r.1 = some t := by
  cases n with
  | zero => cases h
  | succ n =>
    obtain ⟨⟨k, a, b⟩, ts, rfl⟩ : ∃ tok ts', ts = tok :: ts' := by
      cases ts with
      | nil => cases hs
      | cons tok ts => exact ⟨tok, ts, rfl⟩
    obtain rfl : k = .ident s := by simpa using hs
    rw [parseTypeName] at h
    simp only [parseNamePathParts] at h
    split_ifs at h
    · obtain ⟨x, -, h⟩ := bind_eq_some_iff.1 h
      exact ⟨_, (congrArg Prod.fst (some.inj h)).symm⟩
    · exact ⟨_, (congrArg Prod.fst (some.inj h)).symm⟩

variable {us : Tokens}

theorem kindAt_path {path : List String} (hp : path ≠ [])
    (hus : Spells us (dotted path).tail) (rest : Tokens) :
    ∃ s, kindAt (us ++ rest) = some (.ident s) := by
  obtain ⟨name, path, rfl⟩ := exists_cons_of_ne_nil hp
  obtain ⟨_, _, us, rfl, -⟩ := spells_cons.1 hus
  exact ⟨name, rfl⟩

variable {t : NamePath}

theorem kindAt_front (hn : named t) (hus : Spells us (frontKinds t))
    (rest : Tokens) : ∃ s, kindAt (us ++ rest) = some (.ident s) := by
  obtain ⟨path, args⟩ := t
  rw [named, Bool.and_eq_true, decide_eq_true_eq] at hn
  obtain ⟨ks, hks⟩ : ∃ ks, frontKinds (.mk path args) = (dotted path).tail ++ ks := by
    cases args <;> exact ⟨_, rfl⟩
  rw [hks, spells_append] at hus
  obtain ⟨us, vs, rfl, hus, -⟩ := hus
  rw [append_assoc]
  exact kindAt_path hn.1 hus _

theorem kindAt_frontArgs {arg : NamePath} {args : List NamePath} (hn : allNamed (arg :: args))
    (hus : Spells us (frontArgKinds (arg :: args))) (rest : Tokens) :
    ∃ s, kindAt (us ++ rest) = some (.ident s) := by
  rw [allNamed, Bool.and_eq_true] at hn
  cases args with
  | nil => exact kindAt_front hn.1 hus rest
  | cons next args =>
    rw [frontArgKinds, spells_append] at hus
    obtain ⟨us, vs, rfl, hus, -⟩ := hus
    rw [append_assoc]
    exact kindAt_front hn.1 hus _

/-- Another argument follows. -/
def MoreArgs (rest : Tokens) : Prop :=
  kindAt rest = some .comma ∧ ∃ s, kindAt rest.tail = some (.ident s)

mutual

/-- A type that is read back is aligned, and if another argument follows, its closing brackets
are as many tokens as it has levels to close. -/
theorem aligned_of_parse : ∀ t us cs rest m n left, named t → Spells us (frontKinds t) →
    Spells cs (closers m) → EndsType rest →
    parseTypeName n (us ++ (cs ++ rest)) = some (some t, left) →
      aligned t ∧ (MoreArgs rest → closing t ≤ cs.length)
  | .mk path [], us, cs, rest, m, n, left, _, _, _, _, _ => by simp [aligned, alignedArgs, closing]
  | .mk path (arg :: args), us, cs, rest, m, 0, left, _, _, _, _, h => nomatch h
  | .mk path (arg :: args), us, cs, rest, m, n + 1, left, hn, hus, hcs, hrest, h => by
    rw [named, Bool.and_eq_true, decide_eq_true_eq] at hn
    obtain ⟨hp, hn⟩ := hn
    simp only [frontKinds, spells_append, spells_cons] at hus
    obtain ⟨us, _, rfl, hus, a, b, vs, rfl, hvs⟩ := hus
    have hpath : parseNamePathParts (us ++ ⟨.lt, a, b⟩ :: (vs ++ (cs ++ rest))) =
        (some path, ⟨.lt, a, b⟩ :: (vs ++ (cs ++ rest))) :=
      parseNamePathParts_dotted hp hus (by simp)
    simp only [List.append_assoc, List.cons_append, parseTypeName, hpath, kindAt_cons, if_true]
      at h
    obtain ⟨⟨args', ts₁⟩, hargs, h⟩ := Option.bind_eq_some_iff.1 h
    obtain ⟨heq, rfl⟩ := Prod.mk.inj (Option.some.inj h)
    obtain ⟨-, rfl⟩ := NamePath.mk.inj (Option.some.inj heq)
    cases n with
    | zero => cases hargs
    | succ n =>
      rw [parseTypeArgs] at hargs
      obtain ⟨⟨first, ts₂⟩, hfirst, hargs⟩ := Option.bind_eq_some_iff.1 hargs
      obtain ⟨⟨args', ts₃⟩, hloop, hargs⟩ := Option.bind_eq_some_iff.1 hargs
      obtain ⟨rfl, -⟩ := Prod.mk.inj (Option.some.inj hargs)
      obtain ⟨s, hs⟩ := kindAt_frontArgs hn hvs (cs ++ rest)
      obtain ⟨first', rfl⟩ : ∃ t, first = some t := parseTypeName_found hs hfirst
      obtain rfl : arg = first' := by
        have := typeArgsLoop_extends hloop
        simpa [eq_comm] using this
      rw [aligned, closing]
      exact aligned_of_args arg args vs cs rest m n n [arg] ts₂ ts₃ hn hvs hcs hrest hfirst
        hloop
termination_by t => sizeOf t

theorem aligned_of_args : ∀ arg args us cs rest m n l acc left left', allNamed (arg :: args) →
    Spells us (frontArgKinds (arg :: args)) → Spells cs (closers m) → EndsType rest →
    parseTypeName n (us ++ (cs ++ rest)) = some (some arg, left) →
    typeArgsLoop l acc left = some (acc ++ args, left') →
      alignedArgs (arg :: args) ∧ (MoreArgs rest → closingArgs (arg :: args) + 1 ≤ cs.length)
  | arg, [], us, cs, rest, m, n, l, acc, left, left', hn, hus, hcs, hrest, harg, hloop => by
    simp only [allNamed, Bool.and_true] at hn
    rw [frontArgKinds] at hus
    obtain ⟨ha, hclose⟩ := aligned_of_parse arg us cs rest m n left hn hus hcs hrest harg
    rw [alignedArgs, closingArgs]
    refine ⟨ha, fun hmore => Nat.lt_of_le_of_ne (hclose hmore) fun heq => ?_⟩
    -- without a bracket of its own, the level takes the comma and what is behind it
    have hfront := parse_front arg us cs rest m hn ha hus hcs hrest fun h => absurd h (by omega)
    obtain ⟨-, rfl⟩ := Prod.mk.inj (parseTypeName_unique hfront harg)
    rw [heq, List.drop_length, List.nil_append] at hloop
    cases l with
    | zero => cases hloop
    | succ l =>
      rw [typeArgsLoop, if_pos hmore.1] at hloop
      obtain ⟨⟨next, ts₁⟩, hnext, hloop⟩ := Option.bind_eq_some_iff.1 hloop
      obtain ⟨s, hs⟩ := hmore.2
      obtain ⟨next', rfl⟩ : ∃ t, next = some t := parseTypeName_found hs hnext
      have hle := (typeArgsLoop_extends hloop).length_le
      simp at hle
  | arg, next :: args, us, cs, rest, m, n, l, acc, left, left', hn, hus, hcs, hrest, harg,
      hloop => by
    rw [allNamed, Bool.and_eq_true] at hn
    obtain ⟨hn, hns⟩ := hn
    simp only [frontArgKinds, spells_append, spells_cons] at hus
    obtain ⟨us, _, rfl, hus, ds, _, rfl, hds, a, b, vs, rfl, hvs⟩ := hus
    simp only [List.append_assoc, List.cons_append] at harg
    obtain ⟨s, hs⟩ := kindAt_frontArgs hns hvs (cs ++ rest)
    obtain ⟨ha, hclose⟩ := aligned_of_parse arg us ds (⟨.comma, a, b⟩ :: (vs ++ (cs ++ rest))) _ n
      left hn hus hds (.inl rfl) harg
    have hone := hclose ⟨rfl, s, hs⟩
    have hlen : ds.length = (closing arg + 1) / 2 := by
      rw [← length_closers, ← hds, List.length_map]
    have hfront := parse_front arg us ds (⟨.comma, a, b⟩ :: (vs ++ (cs ++ rest))) _ hn ha hus hds
      (.inl rfl) fun h => absurd h (by omega)
    obtain ⟨-, rfl⟩ := Prod.mk.inj (parseTypeName_unique hfront harg)
    rw [List.drop_eq_nil_of_le (by omega), List.nil_append] at hloop
    cases l with
    | zero => cases hloop
    | succ l =>
      rw [typeArgsLoop, if_pos (by simp)] at hloop
      obtain ⟨⟨found, ts₁⟩, hnext, hloop⟩ := Option.bind_eq_some_iff.1 hloop
      obtain ⟨found, rfl⟩ : ∃ t, found = some t := parseTypeName_found hs hnext
      obtain rfl : next = found := by
        have hpre := typeArgsLoop_extends hloop
        rw [List.prefix_append_right_inj] at hpre
        simpa [eq_comm] using hpre
      have hloop : typeArgsLoop l (acc ++ [next]) ts₁ = some (acc ++ [next] ++ args, left') :=
        hloop.trans (by simp)
      obtain ⟨has, hmore⟩ := aligned_of_args next args vs cs rest m l l _ _ _ hns hvs hcs hrest
        hnext hloop
      rw [alignedArgs, closingArgs]
      exact ⟨by simp [ha, has]; omega, hmore⟩
termination_by arg args => sizeOf (arg :: args)

end

/-! ## What is read consists of names -/

open Syntax (isIdentifier)

mutual

/-- Every path has a name, and every name is one for the lexer. -/
def wellNamed : NamePath → Bool
  | .mk path args => path ≠ [] && path.all isIdentifier && allWellNamed args

def allWellNamed : List NamePath → Bool
  | [] => true
  | arg :: args => wellNamed arg && allWellNamed args

end

mutual

theorem named_of_wellNamed : ∀ t, wellNamed t → named t
  | .mk path args, h => by
    rw [wellNamed, Bool.and_eq_true, Bool.and_eq_true] at h
    rw [named, Bool.and_eq_true]
    exact ⟨h.1.1, allNamed_of_allWellNamed args h.2⟩

theorem allNamed_of_allWellNamed : ∀ ts, allWellNamed ts → allNamed ts
  | [], _ => rfl
  | arg :: args, h => by
    rw [allWellNamed, Bool.and_eq_true] at h
    rw [allNamed, Bool.and_eq_true]
    exact ⟨named_of_wellNamed arg h.1, allNamed_of_allWellNamed args h.2⟩

end

theorem allWellNamed_iff {ts : List NamePath} : allWellNamed ts ↔ ∀ t ∈ ts, wellNamed t := by
  induction ts with
  | nil => simp [allWellNamed]
  | cons t ts ih => simp [allWellNamed, ih]

/-- The identifiers among the tokens are names. -/
def Proper (ts : Tokens) : Prop := ∀ tok ∈ ts, ∀ s, tok.kind = .ident s → isIdentifier s

theorem Proper.suffix {ts left : Tokens} (h : Proper ts) (hl : left <:+ ts) : Proper left :=
  fun tok htok => h tok (hl.subset htok)

theorem namePathLoop_names : ∀ ts, Proper ts →
    (∀ p ∈ (namePathLoop ts).1, isIdentifier p) ∧ (namePathLoop ts).2 <:+ ts := by
  intro ts
  induction ts using namePathLoop.induct with
  | case1 a b s c d ts ih =>
    intro h
    have hts : ts <:+ ⟨.dot, a, b⟩ :: ⟨.ident s, c, d⟩ :: ts := ⟨[_, _], rfl⟩
    obtain ⟨hnames, hleft⟩ := ih (h.suffix hts)
    refine ⟨forall_mem_cons.2 ⟨h ⟨.ident s, c, d⟩ (by simp) s rfl, hnames⟩, hleft.trans hts⟩
  | case2 a b ts hno =>
    intro _
    rw [namePathLoop]
    · exact ⟨by simp, suffix_cons _ _⟩
    · exact hno
  | case3 ts h1 h2 =>
    intro _
    rw [namePathLoop]
    · exact ⟨by simp, suffix_rfl⟩
    · exact h1
    · exact h2

theorem parseNamePathParts_names (h : Proper ts) :
    (∀ path, (parseNamePathParts ts).1 = some path → path ≠ [] ∧ ∀ p ∈ path, isIdentifier p) ∧
      (parseNamePathParts ts).2 <:+ ts := by
  unfold parseNamePathParts
  split
  · rename_i s a b ts'
    have hts : ts' <:+ ⟨.ident s, a, b⟩ :: ts' := suffix_cons _ _
    obtain ⟨hnames, hleft⟩ := namePathLoop_names ts' (h.suffix hts)
    refine ⟨fun path hpath => ?_, hleft.trans hts⟩
    cases hpath
    exact ⟨by simp, forall_mem_cons.2 ⟨h ⟨.ident s, a, b⟩ (by simp) s rfl, hnames⟩⟩
  · exact ⟨nofun, suffix_rfl⟩

theorem skipClose_suffix (ts : Tokens) : skipClose ts <:+ ts := by
  unfold skipClose
  split
  · exact tail_suffix ts
  · exact tail_suffix ts
  · exact suffix_rfl

mutual

theorem parseTypeName_names : ∀ n ts r left, Proper ts → parseTypeName n ts = some (r, left) →
    (∀ t, r = some t → wellNamed t) ∧ left <:+ ts
  | 0, _, _, _, _, h => nomatch h
  | n + 1, ts, r, left, hts, h => by
    obtain ⟨hpath, hsuf⟩ := parseNamePathParts_names hts
    rw [parseTypeName] at h
    split at h
    · rename_i ts' heq
      obtain ⟨rfl, rfl⟩ := Prod.mk.inj (Option.some.inj h)
      rw [heq] at hsuf
      exact ⟨nofun, hsuf⟩
    · rename_i path ts' heq
      rw [heq] at hpath hsuf
      obtain ⟨hne, hnames⟩ := hpath path rfl
      -- with arguments, without them
      split_ifs at h with hlt
      · obtain ⟨⟨args, ts₁⟩, hargs, h⟩ := Option.bind_eq_some_iff.1 h
        obtain ⟨rfl, rfl⟩ := Prod.mk.inj (Option.some.inj h)
        obtain ⟨hall, hleft⟩ := parseTypeArgs_names n ts' args ts₁ (hts.suffix hsuf) hargs
        refine ⟨fun t ht => ?_, hleft.trans hsuf⟩
        obtain rfl := Option.some.inj ht
        simp only [wellNamed, Bool.and_eq_true, decide_eq_true_eq, List.all_eq_true]
        exact ⟨⟨hne, hnames⟩, allWellNamed_iff.2 hall⟩
      · obtain ⟨rfl, rfl⟩ := Prod.mk.inj (Option.some.inj h)
        refine ⟨fun t ht => ?_, hsuf⟩
        obtain rfl := Option.some.inj ht
        simp only [wellNamed, Bool.and_eq_true, decide_eq_true_eq, List.all_eq_true]
        exact ⟨⟨hne, hnames⟩, rfl⟩

theorem parseTypeArgs_names : ∀ n ts args left, Proper ts →
    parseTypeArgs n ts = some (args, left) → (∀ t ∈ args, wellNamed t) ∧ left <:+ ts
  | 0, _, _, _, _, h => nomatch h
  | n + 1, ts, args, left, hts, h => by
    rw [parseTypeArgs] at h
    obtain ⟨⟨first, ts₁⟩, hfirst, h⟩ := Option.bind_eq_some_iff.1 h
    obtain ⟨⟨args', ts₂⟩, hloop, h⟩ := Option.bind_eq_some_iff.1 h
    obtain ⟨rfl, rfl⟩ := Prod.mk.inj (Option.some.inj h)
    have htail := List.tail_suffix ts
    obtain ⟨hn, hs₁⟩ := parseTypeName_names n _ first ts₁ (hts.suffix htail) hfirst
    have hs₁ := hs₁.trans htail
    have hacc : ∀ t ∈ first.toList, wellNamed t := fun t ht => hn t (Option.mem_toList.1 ht)
    obtain ⟨hall, hs₂⟩ := typeArgsLoop_names n _ ts₁ args' ts₂ hacc (hts.suffix hs₁) hloop
    exact ⟨hall, (skipClose_suffix ts₂).trans (hs₂.trans hs₁)⟩

theorem typeArgsLoop_names : ∀ n acc ts args left, (∀ t ∈ acc, wellNamed t) → Proper ts →
    typeArgsLoop n acc ts = some (args, left) → (∀ t ∈ args, wellNamed t) ∧ left <:+ ts
  | 0, _, _, _, _, _, _, h => nomatch h
  | n + 1, acc, ts, args, left, hacc, hts, h => by
    rw [typeArgsLoop] at h
    split_ifs at h with hcomma
    · obtain ⟨⟨arg, ts₁⟩, harg, h⟩ := Option.bind_eq_some_iff.1 h
      have htail := List.tail_suffix ts
      obtain ⟨hn, hs₁⟩ := parseTypeName_names n _ arg ts₁ (hts.suffix htail) harg
      have hs₁ := hs₁.trans htail
      -- an argument that is no name ends the list
      cases arg with
      | none =>
        obtain ⟨rfl, rfl⟩ := Prod.mk.inj (Option.some.inj h)
        exact ⟨hacc, hs₁⟩
      | some arg =>
        have hacc' : ∀ t ∈ acc ++ [arg], wellNamed t := by
          intro t ht
          rcases List.mem_append.1 ht with ht | ht
          · exact hacc t ht
          · exact hn t (congrArg some (List.mem_singleton.1 ht).symm)
        obtain ⟨hall, hs₂⟩ := typeArgsLoop_names n _ ts₁ args left hacc' (hts.suffix hs₁) h
        exact ⟨hall, hs₂.trans hs₁⟩
    · obtain ⟨rfl, rfl⟩ := Prod.mk.inj (Option.some.inj h)
      exact ⟨hacc, List.suffix_rfl⟩

end

/-! ## The tokens of the printed text -/

open Syntax

variable {F : String → F64} {w : Nat} {text mid l : List Char}
  {ks ls : List TokenKind}

/-- Lexing `text` yields tokens of these kinds and goes on at `l`. -/
def Lexes (F : String → F64) (w : Nat) (text : List Char) (ks : List TokenKind)
    (l : List Char) : Prop :=
  ∀ n > text.length, ∃ ts n', l.length < n' ∧ Spells ts ks ∧
    lexFrom F w n text = ts ++ lexFrom F w n' l

theorem Lexes.nil (text : List Char) : Lexes F w text [] text :=
  fun n hn => ⟨[], n, hn, rfl, rfl⟩

theorem Lexes.trans (h : Lexes F w text ks mid) (h' : Lexes F w mid ls l) :
    Lexes F w text (ks ++ ls) l := by
  intro n hn
  obtain ⟨ts, n₁, hn₁, hts, heq⟩ := h n hn
  obtain ⟨us, n₂, hn₂, hus, heq'⟩ := h' n₁ hn₁
  refine ⟨ts ++ us, n₂, hn₂, spells_append.2 ⟨ts, us, rfl, hts, hus⟩, ?_⟩
  rw [heq, heq', append_assoc]

def Blanks (b : List Char) : Prop := ∀ c ∈ b, isBlank c

variable {b : List Char} {c : Char} {bs : List Char}

theorem skipTrivia_blanks (hpre : Blanks b) (hb : isBlank c = false)
    (hc : c ≠ '/') (n : Nat) (bs : List Char) : skipTrivia (n + 1) (b ++ c :: bs) = c :: bs := by
  rw [skipTrivia, dropWhile_append_of_pos hpre, dropWhile_cons, hb]
  split
  · rename_i h
    exact absurd (cons.inj h).1 hc
  · rename_i h
    exact absurd (cons.inj h).1 hc
  · rfl

theorem Lexes.token (hpre : Blanks b) (hb : isBlank c = false)
    (hc : c ≠ '/') (h : lexKind F (c :: bs) = (some k, l)) (hk : k ≠ .eof)
    (hlen : l.length ≤ bs.length) : Lexes F w (b ++ c :: bs) [k] l := by
  intro n hn
  simp only [length_append, length_cons] at hn
  cases n with
  | zero => omega
  | succ n =>
    refine ⟨[⟨k, w - (c :: bs).length, w - l.length⟩], n, by omega, rfl, ?_⟩
    rw [lexFrom, skipTrivia_blanks hpre hb hc, h]
    split
    · rename_i heq
      cases heq
    · rename_i heq
      exact absurd (some.inj (congrArg Prod.fst heq)) hk
    · rename_i heq
      cases heq
      rfl

/-! ### The pieces of a type -/

theorem isIdentStart_spec (h : isIdentStart c) : isBlank c = false ∧ c ≠ '/' := by
  constructor
  · by_contra hb
    simp only [Bool.not_eq_false, isBlank, Bool.or_eq_true, beq_iff_eq] at hb
    rcases hb with ((rfl | rfl) | rfl) | rfl <;> cases h
  · rintro rfl
    cases h

theorem Lexes.name (hpre : Blanks b) (h : isIdentifier s)
    (hl : ∀ c ∈ l.head?, isIdentContinue c = false) :
    Lexes F w (b ++ (bytesOf s ++ l)) [.ident s] l := by
  have hkind := lexKind_name (F := F) h hl
  obtain ⟨c, cs, heq, hc, -, -⟩ := isIdentifier_cons h
  rw [bytesOf_name h, heq] at hkind ⊢
  obtain ⟨hb, hs⟩ := isIdentStart_spec hc
  exact .token hpre hb hs hkind (by simp) (by simp)

theorem Lexes.punct (hb : isBlank c = false) (hc : c ≠ '/')
    (h : lexPunct c l = some (k, l)) (hk : k ≠ .eof) : Lexes F w (c :: l) [k] l := by
  refine .token (b := []) nofun hb hc ?_ hk le_rfl
  rw [lexKind, if_neg hc, h]

theorem orWith_one {d : Char} {two one : TokenKind} (h : bs.head? ≠ some d) :
    orWith d two one bs = (one, bs) := if_neg h

theorem Lexes.closers (m : Nat) (hl : ∀ c ∈ l.head?, c = ',') :
    Lexes F w (replicate m '>' ++ l) (closers m) l := by
  have hne : ∀ d, d ≠ ',' → l.head? ≠ some d := fun d hd h => hd (hl d h)
  induction m using closers.induct with
  | case1 => exact .nil l
  | case2 =>
    refine .punct (by decide) (by decide) ?_ (by simp)
    simp [lexPunct, hne '=' (by decide), hne '>' (by decide)]
  | case3 m ih =>
    -- two `>` in a row are one token
    have htwo : lexKind F ('>' :: '>' :: (replicate m '>' ++ l)) =
        (some .shr, replicate m '>' ++ l) := by
      have hhead : (replicate m '>' ++ l).head? ≠ some '=' := by
        cases m with
        | zero => exact hne '=' (by decide)
        | succ m => simp [replicate_succ]
      rw [lexKind, if_neg (by decide)]
      simp [lexPunct, orWith_one hhead]
    exact .trans (.token (b := []) (by simp [Blanks]) (by decide) (by decide) htwo (by simp) (by simp)) ih

theorem Lexes.dotted (hpre : Blanks b) {p : String} {ps : List String}
    (h : ∀ q ∈ p :: ps, isIdentifier q) (hl : ∀ c ∈ l.head?, isIdentContinue c = false ∧ c ≠ '.') :
    Lexes F w (b ++ (bytesOf p ++ (ps.flatMap (fun q => '.' :: bytesOf q) ++ l)))
      (dotted (p :: ps)).tail l := by
  induction ps generalizing p b with
  | nil => exact .name hpre (h p mem_cons_self) fun c hc => (hl c hc).1
  | cons q ps ih =>
    obtain ⟨hp, hps⟩ := forall_mem_cons.1 h
    -- a dot before a name is no other punctuation
    have hdot : lexPunct '.' (bytesOf q ++ (ps.flatMap (fun q => '.' :: bytesOf q) ++ l)) =
        some (.dot, bytesOf q ++ (ps.flatMap (fun q => '.' :: bytesOf q) ++ l)) := by
      have hq := hps q mem_cons_self
      obtain ⟨c, cs, heq, hc, -, -⟩ := isIdentifier_cons hq
      rw [bytesOf_name hq, heq]
      refine congrArg some (orWith_one ?_)
      rintro ⟨⟩
      cases hc
    have hfirst := Lexes.name (F := F) (w := w) (l := '.' :: (bytesOf q ++
      (ps.flatMap (fun q => '.' :: bytesOf q) ++ l))) hpre hp (by simp; decide)
    have hrest := ih (b := []) nofun hps
    have hsep := Lexes.punct (F := F) (w := w) (c := '.') (by decide) (by decide) hdot (by simp)
    simpa [Parser.dotted] using hfirst.trans (hsep.trans hrest)

theorem bytesOf_path (p : String) (ps : List String) :
    bytesOf (".".intercalate (p :: ps)) = bytesOf p ++ ps.flatMap fun q => '.' :: bytesOf q := by
  induction ps generalizing p with
  | nil => simp
  | cons q ps ih =>
    rw [String.intercalate_cons_cons, bytesOf_append, bytesOf_append, ih]
    have hdot : bytesOf "." = ['.'] := by decide
    simp [hdot]

theorem bytesOf_print (h : wellNamed t) :
    ∃ c cs, bytesOf (printNamePath t) = c :: cs ∧ isIdentStart c := by
  obtain ⟨path, args⟩ := t
  simp only [wellNamed, Bool.and_eq_true, decide_eq_true_eq, List.all_eq_true] at h
  obtain ⟨p, ps, rfl⟩ := exists_cons_of_ne_nil h.1.1
  have hp := h.1.2 p mem_cons_self
  obtain ⟨c, cs, heq, hc, -, -⟩ := isIdentifier_cons hp
  obtain ⟨tail, htail⟩ : ∃ tail, printNamePath (.mk (p :: ps) args) =
      ".".intercalate (p :: ps) ++ tail := by
    cases args <;> exact ⟨_, by rw [printNamePath]⟩
  rw [htail, bytesOf_append, bytesOf_path, bytesOf_name hp, heq]
  exact ⟨c, _, rfl, hc⟩

mutual

theorem lexes_print : ∀ t b m l, wellNamed t → Blanks b → (∀ c ∈ l.head?, c = ',') →
    Lexes F w (b ++ (bytesOf (printNamePath t) ++ (List.replicate m '>' ++ l)))
      (frontKinds t ++ closers (closing t + m)) l
  | .mk path [], b, m, l, h, hpre, hl => by
    simp only [wellNamed, Bool.and_eq_true, decide_eq_true_eq, List.all_eq_true] at h
    obtain ⟨p, ps, rfl⟩ := List.exists_cons_of_ne_nil h.1.1
    -- the name ends before a `>` or a comma
    have hhead : ∀ c ∈ (List.replicate m '>' ++ l).head?,
        isIdentContinue c = false ∧ c ≠ '.' := by
      intro c hc
      cases m with
      | zero =>
        obtain rfl := hl c hc
        decide
      | succ m =>
        obtain rfl : '>' = c := by simpa [List.replicate_succ] using hc
        decide
    have htext : bytesOf (printNamePath (.mk (p :: ps) [])) =
        bytesOf p ++ ps.flatMap fun q => '.' :: bytesOf q := by
      rw [printNamePath, bytesOf_append, bytesOf_path]
      simp [bytesOf]
    rw [htext, List.append_assoc, frontKinds, List.append_nil, closing, Nat.zero_add]
    exact (Lexes.dotted hpre h.1.2 hhead).trans (.closers m hl)
  | .mk path (arg :: args), b, m, l, h, hpre, hl => by
    simp only [wellNamed, Bool.and_eq_true, decide_eq_true_eq, List.all_eq_true] at h
    obtain ⟨⟨hne, hnames⟩, hargs⟩ := h
    obtain ⟨p, ps, rfl⟩ := List.exists_cons_of_ne_nil hne
    have htext : bytesOf (printNamePath (.mk (p :: ps) (arg :: args))) =
        bytesOf p ++ (ps.flatMap (fun q => '.' :: bytesOf q) ++
          '<' :: (bytesOf (printNamePath arg) ++ (bytesOf (printTypeArgs args) ++ ['>']))) := by
      have hlt : bytesOf "<" = ['<'] := by decide
      have hgt : bytesOf ">" = ['>'] := by decide
      simp only [printNamePath, bytesOf_append, bytesOf_path, hlt, hgt, List.append_assoc,
        List.cons_append, List.nil_append]
    have hinner := lexes_printArgs arg args [] (m + 1) l hargs nofun hl
    -- a name begins after the `<`, so it is neither `<<` nor `<=`
    have hlt : lexPunct '<' (bytesOf (printNamePath arg) ++ (bytesOf (printTypeArgs args) ++
        (List.replicate (m + 1) '>' ++ l))) = some (.lt, bytesOf (printNamePath arg) ++
          (bytesOf (printTypeArgs args) ++ (List.replicate (m + 1) '>' ++ l))) := by
      rw [allWellNamed, Bool.and_eq_true] at hargs
      obtain ⟨c, cs, heq, hc⟩ := bytesOf_print hargs.1
      have heqs : c ≠ '=' := by
        rintro rfl
        exact absurd hc (by decide)
      have hlts : c ≠ '<' := by
        rintro rfl
        exact absurd hc (by decide)
      rw [heq]
      simp [lexPunct, heqs, hlts]
    have hpath := Lexes.dotted (F := F) (w := w) (l := '<' :: (bytesOf
      (printNamePath arg) ++ (bytesOf (printTypeArgs args) ++
        (List.replicate (m + 1) '>' ++ l)))) hpre hnames (by simp; decide)
    have hopen := Lexes.punct (F := F) (w := w) (c := '<') (by decide) (by decide)
      hlt (by simp)
    have hall := hpath.trans (hopen.trans hinner)
    rw [htext, frontKinds, closing, Nat.add_assoc, Nat.add_comm 1 m]
    simpa [List.replicate_succ] using hall
termination_by t => sizeOf t

theorem lexes_printArgs : ∀ arg args b m l, allWellNamed (arg :: args) → Blanks b →
    (∀ c ∈ l.head?, c = ',') →
    Lexes F w (b ++ (bytesOf (printNamePath arg) ++ (bytesOf (printTypeArgs args) ++
      (List.replicate m '>' ++ l))))
      (frontArgKinds (arg :: args) ++ closers (closingArgs (arg :: args) + m)) l
  | arg, [], b, m, l, h, hpre, hl => by
    rw [allWellNamed, Bool.and_eq_true] at h
    have hnone : bytesOf (printTypeArgs []) = [] := by rfl
    rw [hnone, List.nil_append, frontArgKinds, closingArgs]
    exact lexes_print arg b m l h.1 hpre hl
  | arg, next :: args, b, m, l, h, hpre, hl => by
    rw [allWellNamed, Bool.and_eq_true] at h
    have hsep : bytesOf (printTypeArgs (next :: args)) =
        ',' :: ' ' :: (bytesOf (printNamePath next) ++ bytesOf (printTypeArgs args)) := by
      have hcomma : bytesOf ", " = [',', ' '] := by decide
      rw [printTypeArgs, bytesOf_append, bytesOf_append, hcomma]
      simp
    -- the text of the first argument is followed by a comma, so its closers are all its own
    have hfirst := lexes_print arg b 0 (',' :: ' ' :: (bytesOf (printNamePath next) ++
      (bytesOf (printTypeArgs args) ++ (List.replicate m '>' ++ l)))) h.1 hpre (by simp)
    have hcomma := Lexes.punct (F := F) (w := w) (c := ',') (k := .comma)
      (l := ' ' :: (bytesOf (printNamePath next) ++ (bytesOf (printTypeArgs args) ++
        (List.replicate m '>' ++ l)))) (by decide) (by decide) rfl (by simp)
    have hrest := lexes_printArgs next args [' '] m l h.2 (by simp [Blanks, isBlank]) hl
    rw [hsep, frontArgKinds, closingArgs]
    simpa using hfirst.trans (hcomma.trans hrest)
termination_by arg args => sizeOf (arg :: args)

end

theorem lexAll_print (h : wellNamed t) :
    ∃ us cs len, Spells us (frontKinds t) ∧ Spells cs (closers (closing t)) ∧
      lexAll F (printNamePath t) = us ++ (cs ++ [⟨.eof, len, len⟩]) := by
  have hlex := lexes_print (F := F) (w := (bytesOf (printNamePath t)).length)
    t [] 0 [] h nofun nofun
  simp only [nil_append, replicate_zero, append_nil, add_zero] at hlex
  obtain ⟨ts, n, hn, hts, heq⟩ := hlex _ (Nat.lt_succ_self _)
  obtain ⟨us, cs, rfl, hus, hcs⟩ := spells_append.1 hts
  obtain ⟨n, rfl⟩ : ∃ l, n = l + 1 := ⟨n - 1, by simp at hn; omega⟩
  refine ⟨us, cs, (bytesOf (printNamePath t)).length, hus, hcs, heq.trans ?_⟩
  rw [append_assoc]
  rfl

/-- The text of a type, lexed and parsed, is the type, and only the end of the text is l. -/
def RoundTrips (F : String → F64) (t : NamePath) : Prop :=
  ∃ len, ∀ᶠ n in atTop, parseTypeName n (lexAll F (printNamePath t)) =
    some (some t, [⟨.eof, len, len⟩])

theorem aligned_of_roundTrips (h : RoundTrips F t) : wellNamed t ∧ aligned t := by
  obtain ⟨len, h⟩ := h
  obtain ⟨n, hn⟩ := h.exists
  have hnamed : wellNamed t := (parseTypeName_names n _ _ _ (lexFrom_ident _ _ _ _) hn).1 t rfl
  obtain ⟨us, cs, len', hus, hcs, heq⟩ := lexAll_print (F := F) hnamed
  rw [heq] at hn
  exact ⟨hnamed, (aligned_of_parse t us cs _ _ n _ (named_of_wellNamed t hnamed) hus hcs
    (.inr rfl) hn).1⟩

theorem roundTrips_of_aligned (hnamed : wellNamed t) (ha : aligned t) : RoundTrips F t := by
  obtain ⟨us, cs, len, hus, hcs, heq⟩ := lexAll_print (F := F) hnamed
  have hparse := parse_front t us cs [⟨.eof, len, len⟩] _ (named_of_wellNamed t hnamed) ha hus hcs
    (.inr rfl) fun _ => by simp
  have hdrop : cs.drop (closing t) = [] := by
    have hlen : cs.length = (closing t + 1) / 2 := by
      rw [← length_closers, ← hcs, length_map]
    exact drop_eq_nil_of_le (by omega)
  rw [hdrop, nil_append] at hparse
  exact ⟨len, by rwa [heq]⟩

/-- **A type name is read back from its text** if and only if its names are identifiers and no
argument before a comma ends with two closing brackets. -/
theorem roundTrips_iff (F : String → F64) (t : NamePath) :
    RoundTrips F t ↔ wellNamed t ∧ aligned t :=
  ⟨aligned_of_roundTrips, fun h => roundTrips_of_aligned h.1 h.2⟩

/-- `A<B<C<D>>, E>` is not read back: the inner arguments take both closing brackets, and the
arguments of `B` then take the comma. -/
theorem nested_lost :
    let t := NamePath.mk ["A"] [.mk ["B"] [.mk ["C"] [.mk ["D"] []]], .mk ["E"] []]
    printNamePath t = "A<B<C<D>>, E>" ∧ ¬ RoundTrips (fun _ => ⟨0⟩) t :=
  ⟨by simp [printNamePath, printTypeArgs], fun h => absurd (aligned_of_roundTrips h).2 (by decide)⟩

end Arth.Parser
