import Arth.Typeck.Patterns

/-!
# What patterns cover

The meaning of patterns, and what one step of the checker's recursion does to it.

* `Kind`, `HasKind` — the types as sets of values. Which enum a type name of a package stands for
  depends on the imports of the file that writes it: it is the parameter `enumOf`.
* `Pattern.Matches`, `Pattern.WellTyped` — patterns of the syntax tree on values; `Pat.Matches`
  and `Pat.Typed` for those of the checker; `matches_astToPat` and `typed_astToPat` between them.
* `Leaves` — some values that a row matches are left by all rows of a matrix.
* `leaves_default`, `leaves_own`, `leaves_listed` — what is left before a step is left after it.
-/

namespace Arth.Patterns

open KeyTable List Option

/-- The types that patterns tell apart. -/
inductive Kind where
  | bool
  | int
  | string
  | enum (pkg enumName : String)
  | other
deriving DecidableEq, Repr

section Meaning

variable (ctx : Ctx) (enumOf : String → Path → Option (String × String))

/-- The type that a name written in `pkg` stands for. -/
def kindOf (pkg : String) (path : Path) : Kind :=
  if path.init = [] ∧ path.last ∈ ["int", "Int"] then .int
  else if path.init = [] ∧ path.last ∈ ["bool", "Bool"] then .bool
  else if path.init = [] ∧ path.last = "String" then .string
  else if path.init = [] ∧ path.last ∈ ["float", "Float", "char", "Char", "void", "Void"] then .other
  else match enumOf pkg path with
    | some (enumPkg, enumName) => .enum enumPkg enumName
    | none => .other

/-- The type of a scrutinee. -/
def kindOfTy (ty : Ty) : Kind :=
  match ty with
  | .bool => .bool
  | .int => .int
  | .string => .string
  | .named path | .generic path => kindOf enumOf (ctx.currentPkg.getD "") path
  | _ => .other

/-- The types of the payloads of a variant. -/
def payloadKinds (pkg enumName variant : String) : List Kind :=
  ((ctx.enumVariants.lookup (pkg, enumName, variant)).getD []).map (kindOf enumOf pkg)

/-- The values of a type. -/
inductive HasKind : Val → Kind → Prop
  | bool (b : Bool) : HasKind (.bool b) .bool
  | int (n : Int64) : HasKind (.int n) .int
  | string (s : String) : HasKind (.string s) .string
  | variant {pkg enumName variant : String} {args : List Val} :
    (pkg, enumName, variant) ∈ ctx.enumVariants →
    List.Forall₂ HasKind args (payloadKinds ctx enumOf pkg enumName variant) →
    HasKind (.variant pkg enumName variant args) (.enum pkg enumName)
  | other (n : ℕ) : HasKind (.other n) .other

namespace Pattern

/-- The values that a pattern of the syntax tree matches. -/
inductive Matches : Pattern → Val → Prop
  | wildcard (v : Val) : Matches .wildcard v
  | binding (name : String) (v : Val) : Matches (.binding name) v
  | bool (b : Bool) : Matches (.literal (.bool b)) (.bool b)
  | int (n : Int64) : Matches (.literal (.int n)) (.int n)
  | str (s : String) : Matches (.literal (.str s)) (.string s)
  | other (v : Val) : Matches (.literal (.other v)) v
  | variant {path : Path} {name pkg enumName : String} {payloads : List Pattern}
      {args : List Val} :
    ctx.patternEnum path name = (pkg, enumName) → List.Forall₂ Matches payloads args →
    Matches (.variant path name payloads) (.variant pkg enumName name args)

/-- The patterns of a type: a variant pattern names a variant of the enum and has a pattern for
each payload. -/
inductive WellTyped : Pattern → Kind → Prop
  | wildcard (k : Kind) : WellTyped .wildcard k
  | binding (name : String) (k : Kind) : WellTyped (.binding name) k
  | bool (b : Bool) : WellTyped (.literal (.bool b)) .bool
  | int (n : Int64) : WellTyped (.literal (.int n)) .int
  | str (s : String) : WellTyped (.literal (.str s)) .string
  | other {v : Val} {k : Kind} : HasKind ctx enumOf v k → WellTyped (.literal (.other v)) k
  | variant {path : Path} {name pkg enumName : String} {payloads : List Pattern} :
    ctx.patternEnum path name = (pkg, enumName) → (pkg, enumName, name) ∈ ctx.enumVariants →
    List.Forall₂ WellTyped payloads (payloadKinds ctx enumOf pkg enumName name) →
    WellTyped (.variant path name payloads) (.enum pkg enumName)

/-- The patterns that the checker reads as they are: no literal becomes a wildcard and no path
is replaced by that of another enum. -/
inductive Plain (scrutineeTy : Ty) : Pattern → Prop
  | wildcard : Plain scrutineeTy .wildcard
  | binding (name : String) : Plain scrutineeTy (.binding name)
  | bool (b : Bool) : Plain scrutineeTy (.literal (.bool b))
  | int (n : Int64) : Plain scrutineeTy (.literal (.int n))
  | str (s : String) : Plain scrutineeTy (.literal (.str s))
  | variant {path : Path} {name : String} {payloads : List Pattern} :
    ctx.patternEnum (normalizePath scrutineeTy path) name = ctx.patternEnum path name →
    (∀ p ∈ payloads, Plain scrutineeTy p) →
    Plain scrutineeTy (.variant path name payloads)

end Pattern

namespace Pat

inductive Matches : Pat → Val → Prop
  | wildcard (v : Val) : Matches .wildcard v
  | bool (b : Bool) : Matches (.bool b) (.bool b)
  | int (n : Int64) : Matches (.int n) (.int n)
  | string (s : String) : Matches (.string s) (.string s)
  | variant {path : Path} {name pkg enumName : String} {fields : List Pat} {args : List Val} :
    ctx.patternEnum path name = (pkg, enumName) → List.Forall₂ Matches fields args →
    Matches (.variant path name fields) (.variant pkg enumName name args)

inductive Typed : Pat → Kind → Prop
  | wildcard (k : Kind) : Typed .wildcard k
  | bool (b : Bool) : Typed (.bool b) .bool
  | int (n : Int64) : Typed (.int n) .int
  | string (s : String) : Typed (.string s) .string
  | variant {path : Path} {name pkg enumName : String} {fields : List Pat} :
    ctx.patternEnum path name = (pkg, enumName) → (pkg, enumName, name) ∈ ctx.enumVariants →
    List.Forall₂ Typed fields (payloadKinds ctx enumOf pkg enumName name) →
    Typed (.variant path name fields) (.enum pkg enumName)

end Pat

/-! ## The conversion -/

theorem forall₂_map_congr {α β γ : Type*} {f : α → β} {R : α → γ → Prop} {S : β → γ → Prop}
    {xs : List α} (h : ∀ x ∈ xs, ∀ z, S (f x) z ↔ R x z) (zs : List γ) :
    Forall₂ S (xs.map f) zs ↔ Forall₂ R xs zs := by
  induction xs generalizing zs with
  | nil => simp
  | cons x xs ih =>
    have htail := ih fun y hmem => h y (mem_cons_of_mem _ hmem)
    cases zs with
    | nil => simp
    | cons z zs => simp [h x mem_cons_self z, htail zs]

attribute [local simp] astToPatWithScrutinee astToPat normalizePatEnumPath

@[simp] theorem astToPatWithScrutinee_wildcard (ty : Ty) :
    astToPatWithScrutinee .wildcard ty = .wildcard := by
  simp [astToPatWithScrutinee, astToPat, normalizePatEnumPath]

@[simp] theorem astToPatWithScrutinee_binding (name : String) (ty : Ty) :
    astToPatWithScrutinee (.binding name) ty = .wildcard := by
  simp [astToPatWithScrutinee, astToPat, normalizePatEnumPath]

@[simp] theorem astToPatWithScrutinee_bool (b : Bool) (ty : Ty) :
    astToPatWithScrutinee (.literal (.bool b)) ty = .bool b := by
  simp [astToPatWithScrutinee, astToPat, normalizePatEnumPath]

@[simp] theorem astToPatWithScrutinee_int (n : Int64) (ty : Ty) :
    astToPatWithScrutinee (.literal (.int n)) ty = .int n := by
  simp [astToPatWithScrutinee, astToPat, normalizePatEnumPath]

@[simp] theorem astToPatWithScrutinee_str (s : String) (ty : Ty) :
    astToPatWithScrutinee (.literal (.str s)) ty = .string s := by
  simp [astToPatWithScrutinee, astToPat, normalizePatEnumPath]

@[simp] theorem astToPatWithScrutinee_variant (path : Path) (name : String)
    (payloads : List Pattern) (ty : Ty) : astToPatWithScrutinee (.variant path name payloads) ty =
      .variant (normalizePath ty path) name (payloads.map (astToPatWithScrutinee · ty)) := by
  simp [astToPatWithScrutinee, astToPat, normalizePatEnumPath, Function.comp_def]

variable {ctx enumOf} {v : Val} {fields : List Pat} {path : Path} {name : String}

@[simp] theorem Pat.matches_variant : (Pat.variant path name fields).Matches ctx v ↔
      ∃ args, v = .variant (ctx.patternEnum path name).1 (ctx.patternEnum path name).2 name args ∧
        Forall₂ (Pat.Matches ctx) fields args := by
  constructor
  · rintro ⟨⟩
    rename_i henum hargs
    exact ⟨_, by rw [henum], hargs⟩
  · rintro ⟨args, rfl, hargs⟩
    exact .variant rfl hargs

@[simp] theorem Pattern.matches_variant {payloads : List Pattern} :
    (Pattern.variant path name payloads).Matches ctx v ↔
      ∃ args, v = .variant (ctx.patternEnum path name).1 (ctx.patternEnum path name).2 name args ∧
        Forall₂ (Pattern.Matches ctx) payloads args := by
  constructor
  · rintro ⟨⟩
    rename_i henum hargs
    exact ⟨_, by rw [henum], hargs⟩
  · rintro ⟨args, rfl, hargs⟩
    exact .variant rfl hargs

variable {ty : Ty} {p : Pattern}

theorem matches_astToPat (hp : p.Plain ctx ty) (v : Val) :
    (astToPatWithScrutinee p ty).Matches ctx v ↔ p.Matches ctx v := by
  induction hp generalizing v with
  | wildcard =>
    rw [astToPatWithScrutinee_wildcard]
    exact ⟨fun _ => .wildcard v, fun _ => .wildcard v⟩
  | binding name =>
    rw [astToPatWithScrutinee_binding]
    exact ⟨fun _ => .binding name v, fun _ => .wildcard v⟩
  | bool b =>
    rw [astToPatWithScrutinee_bool]
    constructor <;> (rintro ⟨⟩; constructor)
  | int n =>
    rw [astToPatWithScrutinee_int]
    constructor <;> (rintro ⟨⟩; constructor)
  | str s =>
    rw [astToPatWithScrutinee_str]
    constructor <;> (rintro ⟨⟩; constructor)
  | variant hpath _ ih =>
    rw [astToPatWithScrutinee_variant, Pat.matches_variant, Pattern.matches_variant, hpath]
    exact exists_congr fun args => and_congr_right fun _ => forall₂_map_congr ih args

theorem typed_astToPat (hp : p.Plain ctx ty) (k : Kind) :
    (astToPatWithScrutinee p ty).Typed ctx enumOf k ↔ p.WellTyped ctx enumOf k := by
  induction hp generalizing k with
  | wildcard =>
    rw [astToPatWithScrutinee_wildcard]
    exact ⟨fun _ => .wildcard k, fun _ => .wildcard k⟩
  | binding name =>
    rw [astToPatWithScrutinee_binding]
    exact ⟨fun _ => .binding name k, fun _ => .wildcard k⟩
  | bool b =>
    rw [astToPatWithScrutinee_bool]
    constructor <;> (rintro ⟨⟩; constructor)
  | int n =>
    rw [astToPatWithScrutinee_int]
    constructor <;> (rintro ⟨⟩; constructor)
  | str s =>
    rw [astToPatWithScrutinee_str]
    constructor <;> (rintro ⟨⟩; constructor)
  | variant hpath _ ih =>
    rw [astToPatWithScrutinee_variant]
    constructor
    · rintro (_ | _ | _ | _ | ⟨henum, hmem, hfields⟩)
      exact .variant (hpath ▸ henum) hmem ((forall₂_map_congr ih _).1 hfields)
    · rintro (_ | _ | _ | _ | _ | _ | ⟨henum, hmem, hpayloads⟩)
      exact .variant (hpath ▸ henum) hmem ((forall₂_map_congr ih _).2 hpayloads)

variable (ctx enumOf) in
/-- The types below a head of a column of type `k`. -/
def fieldKinds (c : Constructor) (k : Kind) : List Kind :=
  match c, k with
  | .variant _ name _, .enum pkg enumName => payloadKinds ctx enumOf pkg enumName name
  | _, _ => []

variable (ctx) in
/-- The value `v` is built by the head `c` from `args`. -/
def Opens (c : Constructor) (v : Val) (args : List Val) : Prop :=
  match c with
  | .wildcard => False
  | .bool b => v = .bool b ∧ args = []
  | .int n => v = .int n ∧ args = []
  | .string s => v = .string s ∧ args = []
  | .variant path name arity =>
    v = .variant (ctx.patternEnum path name).1 (ctx.patternEnum path name).2 name args ∧
      args.length = arity

variable (ctx enumOf) in
/-- The head has as many fields as its column says. -/
def Fits (c : Constructor) (k : Kind) : Prop :=
  c.arity = (fieldKinds ctx enumOf c k).length

variable {c : Constructor} {args : List Val}

theorem Opens.length (h : Opens ctx c v args) : args.length = c.arity := by
  cases c with
  | wildcard => exact h.elim
  | variant path name arity => exact h.2
  | _ => rw [h.2]; rfl

variable {k : Kind}

theorem Opens.hasKinds (h : Opens ctx c v args) (hv : HasKind ctx enumOf v k) :
    Forall₂ (HasKind ctx enumOf) args (fieldKinds ctx enumOf c k) := by
  cases c with
  | wildcard => exact h.elim
  | variant path name arity =>
    obtain ⟨rfl, -⟩ := h
    cases hv with
    | variant hmem hargs => exact hargs
  | _ =>
    obtain ⟨-, rfl⟩ := h
    exact Forall₂.nil

variable {p : Pat}

theorem opens_of_matches (hp : p.isWildcard = false) (h : p.Matches ctx v) :
    ∃ args, Opens ctx p.ctor v args := by
  cases h with
  | wildcard => exact Bool.noConfusion hp
  | variant henum hargs =>
    refine ⟨_, ?_, hargs.length_eq.symm⟩
    rw [henum]
  | _ => exact ⟨[], rfl, rfl⟩

theorem forall₂_replicate_wildcard (args : List Val) :
    Forall₂ (Pat.Matches ctx) (replicate args.length .wildcard) args := by
  induction args with
  | nil => exact Forall₂.nil
  | cons v args ih => exact Forall₂.cons (.wildcard v) ih

/-- **Below a head.** Once the head is known, a pattern matches when its fields do. -/
theorem Opens.matches_iff (h : Opens ctx c v args) (hp : specializePattern p c = some fields) :
    Forall₂ (Pat.Matches ctx) fields args ↔ p.Matches ctx v := by
  unfold specializePattern at hp
  by_cases hw : p.isWildcard = true
  · rw [if_pos hw, some.injEq] at hp
    cases p with
    | wildcard =>
      refine ⟨fun _ => .wildcard v, fun _ => ?_⟩
      rw [← hp, ← h.length]
      exact forall₂_replicate_wildcard args
    | _ => exact Bool.noConfusion hw
  · rw [if_neg hw] at hp
    by_cases heq : constructorsEqual p.ctor c = true
    · rw [if_pos heq, some.injEq] at hp
      subst hp
      cases p with
      | wildcard => exact absurd rfl hw
      | variant path name fields =>
        cases c with
        | variant path' name' arity =>
          simp only [Pat.ctor, constructorsEqual, Bool.and_eq_true, beq_iff_eq] at heq
          obtain ⟨rfl, rfl⟩ := heq
          rw [Pat.matches_variant]
          refine ⟨fun hfields => ⟨args, h.1, hfields⟩, ?_⟩
          rintro ⟨args', hv, hfields⟩
          have hargs : args = args' := by simpa using h.1.symm.trans hv
          exact hargs ▸ hfields
        | _ => exact Bool.noConfusion heq
      | bool b =>
        cases c with
        | bool b' =>
          obtain ⟨rfl, rfl⟩ := h
          obtain rfl : b = b' := by simpa [Pat.ctor, constructorsEqual] using heq
          exact ⟨fun _ => .bool b, fun _ => Forall₂.nil⟩
        | _ => exact Bool.noConfusion heq
      | int n =>
        cases c with
        | int n' =>
          obtain ⟨rfl, rfl⟩ := h
          obtain rfl : n = n' := by simpa [Pat.ctor, constructorsEqual] using heq
          exact ⟨fun _ => .int n, fun _ => Forall₂.nil⟩
        | _ => exact Bool.noConfusion heq
      | string s =>
        cases c with
        | string s' =>
          obtain ⟨rfl, rfl⟩ := h
          obtain rfl : s = s' := by simpa [Pat.ctor, constructorsEqual] using heq
          exact ⟨fun _ => .string s, fun _ => Forall₂.nil⟩
        | _ => exact Bool.noConfusion heq
    · rw [if_neg heq] at hp
      cases hp

theorem fits_own (h : p.Typed ctx enumOf k) : Fits ctx enumOf p.ctor k := by
  cases h with
  | variant henum hmem hfields => exact hfields.length_eq
  | _ => rfl

theorem typed_specializePattern (hc : Fits ctx enumOf c k)
    (ht : p.Typed ctx enumOf k) (hp : specializePattern p c = some fields) :
    Forall₂ (Pat.Typed ctx enumOf) fields (fieldKinds ctx enumOf c k) := by
  unfold specializePattern at hp
  by_cases hw : p.isWildcard = true
  · rw [if_pos hw, some.injEq] at hp
    subst hp
    rw [hc]
    generalize fieldKinds ctx enumOf c k = kinds
    induction kinds with
    | nil => exact Forall₂.nil
    | cons k kinds ih => exact Forall₂.cons (.wildcard k) ih
  · rw [if_neg hw] at hp
    by_cases heq : constructorsEqual p.ctor c = true
    · rw [if_pos heq, some.injEq] at hp
      subst hp
      cases ht with
      | wildcard => exact absurd rfl hw
      | variant henum hmem hfields =>
        cases c with
        | variant path name arity =>
          simp only [Pat.ctor, constructorsEqual, Bool.and_eq_true, beq_iff_eq] at heq
          obtain ⟨rfl, rfl⟩ := heq
          exact hfields
        | _ => exact Bool.noConfusion heq
      | _ =>
        cases c with
        | variant path name arity => exact Bool.noConfusion heq
        | _ => exact Forall₂.nil
    · rw [if_neg heq] at hp
      cases hp

theorem mem_typeConstructors (hty : ty.path? = some path) :
    c ∈ ctx.typeConstructors ty ↔ ∃ name payloads, ctx.enumVariants.lookup
          ((path.split ctx.currentPkg).1, (path.split ctx.currentPkg).2, name) = some payloads ∧
        c = .variant path name payloads.length := by
  have hctors : ctx.typeConstructors ty = ctx.enumVariants.entries.filterMap fun entry =>
      if entry.1.1 = (path.split ctx.currentPkg).1 ∧
          entry.1.2.1 = (path.split ctx.currentPkg).2 then
        some (.variant path entry.1.2.2 entry.2.length)
      else none := by
    cases ty <;> cases hty <;> rfl
  rw [hctors, mem_filterMap]
  constructor
  · rintro ⟨⟨⟨pkg, enumName, name⟩, payloads⟩, hmem, heq⟩
    split at heq
    · rename_i hhead
      obtain ⟨rfl, rfl⟩ := hhead
      cases heq
      exact ⟨name, payloads, (mem_entries_iff _ _ _).1 hmem, rfl⟩
    · cases heq
  · rintro ⟨name, payloads, hlookup, rfl⟩
    exact ⟨⟨_, payloads⟩, (mem_entries_iff _ _ _).2 hlookup, if_pos ⟨rfl, rfl⟩⟩

theorem patternEnum_of_mem
    (h : ((path.split ctx.currentPkg).1, (path.split ctx.currentPkg).2, name) ∈ ctx.enumVariants) :
    ctx.patternEnum path name = path.split ctx.currentPkg := by
  unfold Ctx.patternEnum
  split_ifs with hinit
  · have hsplit : path.split ctx.currentPkg = (ctx.currentPkg.getD "", path.last) := by
      simp [Path.split, hinit]
    rw [hsplit] at h ⊢
    have hsome := AList.lookup_isSome.2 h
    simp [hinit, Ctx.lookupEnumVariant, hsome]
  · rfl

variable {matrix : List (List Pat)} {kinds : List Kind} {r rest : List Pat}

/-- **Listed constructors.** Where a column lists every constructor that the checker knows for its
type, these are the heads of the type. -/
theorem heads_of_listed
    (hne : ctx.typeConstructors ty ≠ []) (hlists : ∀ c ∈ ctx.typeConstructors ty, Lists matrix c)
    (htyped : ∀ r ∈ matrix, Forall₂ (Pat.Typed ctx enumOf) r (k :: kinds)) :
    (∀ c ∈ ctx.typeConstructors ty, Fits ctx enumOf c k) ∧ ∀ v, HasKind ctx enumOf v k →
        ∃ c ∈ ctx.typeConstructors ty, ∃ args, Opens ctx c v args := by
  have hfirst : ∀ c ∈ ctx.typeConstructors ty, ∃ p : Pat, p.Typed ctx enumOf k ∧
      p.isWildcard = false ∧ constructorsEqual c p.ctor = true := by
    intro c hc
    obtain ⟨first, rest, hmem, hw, heq⟩ := hlists c hc
    cases htyped _ hmem with
    | cons hp _ => exact ⟨first, hp, hw, heq⟩
  cases hty : ty.path? with
  | none =>
    have hbool : ty = .bool := by
      cases ty <;> first | rfl | exact absurd rfl hne | cases hty
    subst hbool
    obtain ⟨p, hp, hw, heq⟩ := hfirst (.bool true) (by simp [Ctx.typeConstructors])
    have hk : k = .bool := by
      cases hp <;> first | rfl | exact Bool.noConfusion hw | exact Bool.noConfusion heq
    subst hk
    refine ⟨fun c hc => ?_, fun v hv => ?_⟩
    · have hc : c = .bool true ∨ c = .bool false := by simpa [Ctx.typeConstructors] using hc
      rcases hc with rfl | rfl <;> rfl
    · cases hv with
      | bool b => exact ⟨.bool b, by cases b <;> simp [Ctx.typeConstructors], [], rfl, rfl⟩
  | some path =>
    obtain ⟨c₀, hc₀⟩ := exists_mem_of_ne_nil _ hne
    obtain ⟨name₀, payloads₀, hlookup₀, rfl⟩ := (mem_typeConstructors hty).1 hc₀
    have hmem₀ := AList.lookup_isSome.1 (isSome_of_mem hlookup₀)
    obtain ⟨p, hp, hw, heq⟩ := hfirst _ hc₀
    -- the column is one of the enum whose variants are listed
    have hk : k = .enum (path.split ctx.currentPkg).1 (path.split ctx.currentPkg).2 := by
      cases hp with
      | wildcard => exact Bool.noConfusion hw
      | variant henum _ _ =>
        simp only [Pat.ctor, constructorsEqual, Bool.and_eq_true, beq_iff_eq] at heq
        obtain ⟨rfl, rfl⟩ := heq
        rw [patternEnum_of_mem hmem₀] at henum
        rw [henum]
      | _ => exact Bool.noConfusion heq
    subst hk
    refine ⟨fun c hc => ?_, fun v hv => ?_⟩
    · obtain ⟨name, payloads, hlookup, rfl⟩ := (mem_typeConstructors hty).1 hc
      simp [Fits, Constructor.arity, fieldKinds, payloadKinds, hlookup]
    · cases hv with
      | variant hmem hargs =>
        rename_i name args
        obtain ⟨payloads, hlookup⟩ := isSome_iff_exists.1 (AList.lookup_isSome.2 hmem)
        refine ⟨.variant path name payloads.length,
          (mem_typeConstructors hty).2 ⟨name, payloads, hlookup, rfl⟩, args, ?_, ?_⟩
        · rw [patternEnum_of_mem hmem]
        · simpa [payloadKinds, hlookup] using hargs.length_eq

variable (ctx enumOf) in
/-- Some values that the row matches are matched by no row of the matrix. -/
def Leaves (matrix : List (List Pat)) (row : List Pat) (kinds : List Kind) : Prop :=
  ∃ vs, List.Forall₂ (HasKind ctx enumOf) vs kinds ∧ List.Forall₂ (Pat.Matches ctx) row vs ∧
    ∀ r ∈ matrix, ¬List.Forall₂ (Pat.Matches ctx) r vs

theorem forall₂_append_iff {α β : Type*} {R : α → β → Prop} {as cs : List α} {bs ds : List β}
    (h : as.length = bs.length) :
    Forall₂ R (as ++ cs) (bs ++ ds) ↔ Forall₂ R as bs ∧ Forall₂ R cs ds := by
  induction as generalizing bs with
  | nil =>
    have hbs : bs = [] := by simpa using h.symm
    simp [hbs]
  | cons x as ih =>
    cases bs with
    | nil => cases h
    | cons y bs => simp [ih (by simpa using h), and_assoc]

theorem mem_specialize : r ∈ specialize matrix c ↔ ∃ first rest fields, first :: rest ∈ matrix ∧
      specializePattern first c = some fields ∧ r = fields ++ rest := by
  rw [specialize, mem_filterMap]
  constructor
  · rintro ⟨row, hmem, heq⟩
    cases row with
    | nil => cases heq
    | cons first rest =>
      obtain ⟨fields, hfields, rfl⟩ := map_eq_some_iff.1 heq
      exact ⟨first, rest, fields, hmem, hfields, rfl⟩
  · rintro ⟨first, rest, fields, hmem, hfields, rfl⟩
    exact ⟨first :: rest, hmem, by simp [hfields]⟩

theorem mem_defaultSpecialize : r ∈ defaultSpecialize matrix ↔ Pat.wildcard :: r ∈ matrix := by
  rw [defaultSpecialize, mem_filterMap]
  constructor
  · rintro ⟨row, hmem, heq⟩
    cases row with
    | nil => cases heq
    | cons first rest =>
      cases first with
      | wildcard =>
        cases heq
        exact hmem
      | _ => cases heq
  · intro hmem
    exact ⟨_, hmem, rfl⟩

variable {first : Pat} {rest : List Pat}

theorem leaves_default (h : Leaves ctx enumOf matrix (first :: rest) (k :: kinds)) :
    Leaves ctx enumOf (defaultSpecialize matrix) rest kinds := by
  obtain ⟨vs, hkinds, hrow, hleft⟩ := h
  cases hrow with
  | cons hfirst hrest =>
    cases hkinds with
    | cons hv hvs =>
      refine ⟨_, hvs, hrest, fun r hr hmatch => ?_⟩
      exact hleft _ (mem_defaultSpecialize.1 hr) (Forall₂.cons (.wildcard _) hmatch)

/-- **One head.** What is left with a value of one head in front is left below this head. -/
theorem leaves_specialize {fields : List Pat} {vs args : List Val}
    (htyped : ∀ r ∈ matrix, Forall₂ (Pat.Typed ctx enumOf) r (k :: kinds))
    (hc : Fits ctx enumOf c k) (hopen : Opens ctx c v args) (hv : HasKind ctx enumOf v k)
    (hvs : Forall₂ (HasKind ctx enumOf) vs kinds) (hfirst : first.Matches ctx v)
    (hrest : Forall₂ (Pat.Matches ctx) rest vs)
    (hleft : ∀ r ∈ matrix, ¬Forall₂ (Pat.Matches ctx) r (v :: vs))
    (hspec : specializePattern first c = some fields) :
    Leaves ctx enumOf (specialize matrix c) (specializeRow (first :: rest) c)
      (fieldKinds ctx enumOf c k ++ kinds) := by
  have hargs := hopen.hasKinds hv
  have hrow : specializeRow (first :: rest) c = fields ++ rest := by simp [specializeRow, hspec]
  refine ⟨args ++ vs, (forall₂_append_iff hargs.length_eq).2 ⟨hargs, hvs⟩, ?_, fun r hr hmatch => ?_⟩
  · rw [hrow]
    have hfields := (hopen.matches_iff hspec).2 hfirst
    exact (forall₂_append_iff hfields.length_eq).2 ⟨hfields, hrest⟩
  · obtain ⟨first', rest', fields', hmem, hspec', rfl⟩ := mem_specialize.1 hr
    have hlen : fields'.length = args.length := by
      cases htyped _ hmem with
      | cons hfirst' _ =>
        exact (typed_specializePattern hc hfirst' hspec').length_eq.trans hargs.length_eq.symm
    obtain ⟨hfields', hrest'⟩ := (forall₂_append_iff hlen).1 hmatch
    exact hleft _ hmem (Forall₂.cons ((hopen.matches_iff hspec').1 hfields') hrest')

variable (ctx enumOf) in
/-- The rows of a matrix have the types of its columns. -/
def TypedRows (matrix : List (List Pat)) (kinds : List Kind) : Prop :=
  ∀ r ∈ matrix, List.Forall₂ (Pat.Typed ctx enumOf) r kinds

theorem TypedRows.default (h : TypedRows ctx enumOf matrix (k :: kinds)) :
    TypedRows ctx enumOf (defaultSpecialize matrix) kinds := by
  intro r hr
  cases h _ (mem_defaultSpecialize.1 hr) with
  | cons _ hrest => exact hrest

theorem TypedRows.specialize
    (hc : Fits ctx enumOf c k) (h : TypedRows ctx enumOf matrix (k :: kinds)) :
    TypedRows ctx enumOf (specialize matrix c) (fieldKinds ctx enumOf c k ++ kinds) := by
  intro r hr
  obtain ⟨first, rest, fields, hmem, hspec, rfl⟩ := mem_specialize.1 hr
  cases h _ hmem with
  | cons hfirst hrest =>
    have hfields := typed_specializePattern hc hfirst hspec
    exact (forall₂_append_iff hfields.length_eq).2 ⟨hfields, hrest⟩

theorem typed_specializeRow {fields : List Pat} (hc : Fits ctx enumOf c k)
    (h : Forall₂ (Pat.Typed ctx enumOf) (first :: rest) (k :: kinds))
    (hspec : specializePattern first c = some fields) :
    Forall₂ (Pat.Typed ctx enumOf) (specializeRow (first :: rest) c)
      (fieldKinds ctx enumOf c k ++ kinds) := by
  cases h with
  | cons hfirst hrest =>
    have hfields := typed_specializePattern hc hfirst hspec
    rw [show specializeRow (first :: rest) c = fields ++ rest by simp [specializeRow, hspec]]
    exact (forall₂_append_iff hfields.length_eq).2 ⟨hfields, hrest⟩

theorem specializePattern_wildcard (h : first.isWildcard = true) (c : Constructor) :
    specializePattern first c = some (replicate c.arity .wildcard) :=
  if_pos h

theorem leaves_own (hw : first.isWildcard = false)
    (hmatrix : TypedRows ctx enumOf matrix (k :: kinds)) (hfirst : first.Typed ctx enumOf k)
    (h : Leaves ctx enumOf matrix (first :: rest) (k :: kinds)) :
    Leaves ctx enumOf (specialize matrix first.ctor) (specializeRow (first :: rest) first.ctor)
      (fieldKinds ctx enumOf first.ctor k ++ kinds) := by
  obtain ⟨vs, hkinds, hrow, hleft⟩ := h
  cases hrow with
  | cons hmatch hrest =>
    cases hkinds with
    | cons hv hvs =>
      obtain ⟨args, hopen⟩ := opens_of_matches hw hmatch
      exact leaves_specialize hmatrix (fits_own hfirst) hopen hv hvs hmatch hrest hleft
        (specializePattern_self hw)

theorem leaves_listed (hw : first.isWildcard = true)
    (hne : ctx.typeConstructors ty ≠ []) (hlists : ∀ c ∈ ctx.typeConstructors ty, Lists matrix c)
    (hmatrix : TypedRows ctx enumOf matrix (k :: kinds))
    (h : Leaves ctx enumOf matrix (first :: rest) (k :: kinds)) : ∃ c ∈ ctx.typeConstructors ty,
      Leaves ctx enumOf (specialize matrix c) (specializeRow (first :: rest) c)
        (fieldKinds ctx enumOf c k ++ kinds) := by
  obtain ⟨vs, hkinds, hrow, hleft⟩ := h
  cases hrow with
  | cons hmatch hrest =>
    cases hkinds with
    | cons hv hvs =>
      obtain ⟨hfits, hheads⟩ := heads_of_listed hne hlists hmatrix
      obtain ⟨c, hc, args, hopen⟩ := hheads _ hv
      exact ⟨c, hc, leaves_specialize hmatrix (hfits c hc) hopen hv hvs hmatch hrest hleft
        (specializePattern_wildcard hw c)⟩

end Meaning

end Arth.Patterns
