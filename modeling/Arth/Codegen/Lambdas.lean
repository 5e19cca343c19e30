import Arth.Codegen.Dispatch

/-!
# The functions lambdas are lifted to

* `Body.lower`, `HirFunc.lower` — the lowering of a body, as far as it names lambdas.
* `qualify`, `Project.emitted` — the functions of a project under their qualified names.
* `Body.lower_eq` — the closures and the lifted functions of a body in closed form.
* `names_perm` — the names of the emitted functions, those of the lambdas apart.
* `bound_iff` — when every closure of a project names the function of its lambda.
-/

namespace Arth.Lambdas

open Arth.Codegen List

/-! ## Lowering -/

/-- What a body is lowered to, in order: an instruction that takes a value id, or a lambda
expression with the number of its captures, the number of its parameters and its body. A place
stands for one occurrence of a lambda expression. -/
inductive Body (α : Type) where
  | done
  | emit (rest : Body α)
  | lambda (place : α) (captures params : Nat) (body rest : Body α)

/-- A lowered function: the lambda it is lifted from, if it is, and its `MakeClosure`
instructions, each with the function it names and the lambda expression it is lowered from. -/
structure Func (α : Type) where
  name : String
  origin : Option α
  closures : List (String × α)
  deriving DecidableEq

/-- The lowering state: the next value id, the `MakeClosure` instructions emitted so far and the
functions lifted so far. -/
structure LowerState (α : Type) where
  nextVal : Nat
  closures : List (String × α)
  lambdaFuncs : List (Func α)

def lambdaName (lambdaId : Nat) : String := "__lambda_" ++ toString lambdaId

/-- The state in which a body is lowered: a value id for every parameter, and a slot and a store
for every parameter. -/
def LowerState.entry {α : Type} (argc : Nat) : LowerState α := ⟨argc + 2 * argc, [], []⟩

/-- `lower_block`, and `lower_expr` at a lambda. The lambda's body is lowered in a state of its
own, of which only the instructions are kept. -/
def Body.lower {α : Type} : Body α → LowerState α → LowerState α
  | .done, st => st
  | .emit rest, st => rest.lower { st with nextVal := st.nextVal + 1 }
  | .lambda place captures params body rest, st =>
    let funcName := lambdaName st.nextVal
    let lambdaSt := body.lower (.entry (captures + params))
    rest.lower
      { nextVal := st.nextVal + captures + 1
        closures := st.closures ++ [(funcName, place)]
        lambdaFuncs := st.lambdaFuncs ++ [⟨funcName, some place, lambdaSt.closures⟩] }

/-- A function of a module, with a body. -/
structure HirFunc (α : Type) where
  name : Ident
  isAsync : Bool
  params : Nat
  body : Body α

/-- `lower_hir_func_to_ir_internal`. -/
def HirFunc.lower {α : Type} (f : HirFunc α) : List (Func α) :=
  let st := f.body.lower (.entry f.params)
  if f.isAsync then
    ⟨f.name.text, none, []⟩ :: ⟨f.name.text ++ asyncBodySuffix, none, st.closures⟩ ::
      st.lambdaFuncs
  else ⟨f.name.text, none, st.closures⟩ :: st.lambdaFuncs

/-- The functions lowered from one function get the module's name in front, and so do the
closures that name one of them. -/
def qualify {α : Type} (module : String) (fs : List (Func α)) : List (Func α) :=
  let nameRemap := fs.map fun f => (f.name, module ++ "." ++ f.name)
  fs.map fun f =>
    { f with
      name := module ++ "." ++ f.name
      closures := f.closures.map fun c => ((nameRemap.reverse.lookup c.1).getD c.1, c.2) }

structure HirModule (α : Type) where
  name : Ident
  funcs : List (HirFunc α)

/-- The lambda expressions of a body, those inside lambdas too. -/
def Body.places {α : Type} : Body α → List α
  | .done => []
  | .emit rest => rest.places
  | .lambda place _ _ body rest => place :: (body.places ++ rest.places)

/-- The modules of all files of a project. No two lambda expressions stand at one place. -/
structure Project (α : Type) where
  modules : List (HirModule α)
  distinct : (modules.flatMap fun m => m.funcs.flatMap fun f => f.body.places).Nodup

/-- A function called `main` comes first. -/
def mainFirst {α : Type} (fs : List (Func α)) : List (Func α) :=
  match fs.findIdx? (·.name == "main") with
  | some pos => (fs[pos]?).toList ++ fs.eraseIdx pos
  | none => fs

/-- The functions with the names of their modules, in the order they are lowered. -/
def Project.sources {α : Type} (p : Project α) : List (Ident × HirFunc α) :=
  p.modules.flatMap fun m => m.funcs.map fun f => (m.name, f)

/-- `compile_project_to_program`, up to the code generator. -/
def Project.emitted {α : Type} (p : Project α) : List (Func α) :=
  mainFirst (p.sources.flatMap fun s => qualify s.1.text s.2.lower)

/-- The closure names exactly one function, the one its lambda expression is lowered to. -/
def Binds {α : Type} (fs : List (Func α)) (c : String × α) : Prop :=
  ∃ g, fs.filter (·.name = c.1) = [g] ∧ g.origin = some c.2

/-- **Lambda naming.** Every closure of every emitted function names exactly one function, the
one its lambda expression is lowered to. -/
def Bound {α : Type} (fs : List (Func α)) : Prop := ∀ f ∈ fs, ∀ c ∈ f.closures, Binds fs c

/-- The lambda expressions that stand inside another lambda. -/
def Body.inner {α : Type} : Body α → List α
  | .done => []
  | .emit rest => rest.inner
  | .lambda _ _ _ body rest => body.places ++ rest.inner

/-- The lambda expressions outside all others, each with the number of value ids taken before
it, the first `n` of them by the parameters. -/
def Body.outer {α : Type} : Nat → Body α → List (Nat × α)
  | _, .done => []
  | n, .emit rest => rest.outer (n + 1)
  | n, .lambda place captures _ _ rest => (n, place) :: rest.outer (n + captures + 1)

/-- The outer lambdas of a function. -/
def HirFunc.lambdas {α : Type} (f : HirFunc α) : List (Nat × α) := f.body.outer (3 * f.params)

namespace Project

variable {α : Type} (p : Project α)

/-- The outer lambdas of a project: the module's name and how many value ids come before. -/
def lambdaIds : List (Ident × Nat) :=
  p.sources.flatMap fun s => s.2.lambdas.map fun l => (s.1, l.1)

/-- The functions of a project, each with its module's name. -/
def funcNames : List (Ident × String) := p.sources.map fun s => (s.1, s.2.name.text)

/-- No lambda stands inside another, no two have equally many value ids before them in modules
of one name, and no function of a module has the name of a lambda there. -/
structure Apart : Prop where
  flat : ∀ s ∈ p.sources, s.2.body.inner = []
  ids : p.lambdaIds.Nodup
  names : ∀ l ∈ p.lambdaIds, (l.1, lambdaName l.2) ∉ p.funcNames

end Project

/-! ## A body in closed form -/

section
variable {α : Type}

def closuresOf (ls : List (Nat × α)) : List (String × α) := ls.map fun l => (lambdaName l.1, l.2)

/-- The functions lifted from a body, `n` value ids taken before it. -/
def Body.lifted : Nat → Body α → List (Func α)
  | _, .done => []
  | n, .emit rest => rest.lifted (n + 1)
  | n, .lambda place captures params body rest =>
    ⟨lambdaName n, some place, closuresOf (body.outer (3 * (captures + params)))⟩ ::
      rest.lifted (n + captures + 1)

theorem Body.lower_closures (b : Body α) (st : LowerState α) :
    (b.lower st).closures = st.closures ++ closuresOf (b.outer st.nextVal) := by
  induction b generalizing st with
  | done => simp [Body.lower, Body.outer, closuresOf]
  | emit rest ih => simp [Body.lower, Body.outer, ih]
  | lambda place captures params body rest _ ih => simp [Body.lower, Body.outer, closuresOf, ih]

theorem Body.lower_lambdaFuncs (b : Body α) (st : LowerState α) :
    (b.lower st).lambdaFuncs = st.lambdaFuncs ++ b.lifted st.nextVal := by
  induction b generalizing st with
  | done => simp [Body.lower, Body.lifted]
  | emit rest ih => simp [Body.lower, Body.lifted, ih]
  | lambda place captures params body rest _ ih =>
    have harg : captures + params + 2 * (captures + params) = 3 * (captures + params) := by omega
    simp [Body.lower, Body.lifted, ih, Body.lower_closures, LowerState.entry, harg]

theorem Body.lifted_outer (n : Nat) (b : Body α) : (b.lifted n).map (fun f => (f.name, f.origin)) =
      (b.outer n).map fun l => (lambdaName l.1, some l.2) := by
  induction b generalizing n with
  | done => rfl
  | emit rest ih => exact ih (n + 1)
  | lambda place captures params body rest _ ih => simp [Body.lifted, Body.outer, ih]

theorem Body.places_perm (n : Nat) (b : Body α) :
    ((b.outer n).map (·.2) ++ b.inner).Perm b.places := by
  induction b generalizing n with
  | done => exact Perm.refl _
  | emit rest ih => exact ih (n + 1)
  | lambda place captures params body rest _ ih =>
    have hrest := (ih (n + captures + 1)).append_left body.places
    refine Perm.cons place (Perm.trans ?_ hrest)
    exact perm_append_comm_assoc _ _ _

variable {b : Body α} {n : Nat}

theorem Body.outer_ne_nil (h : b.places ≠ []) : b.outer n ≠ [] := by
  induction b generalizing n with
  | done => exact absurd rfl h
  | emit rest ih => exact ih h
  | lambda => exact cons_ne_nil _ _

theorem Body.exists_inner (n : Nat) (h : b.inner ≠ []) :
    ∃ f ∈ b.lifted n, ∃ c ∈ f.closures, c.2 ∈ b.inner := by
  induction b generalizing n with
  | done => exact absurd rfl h
  | emit rest ih => exact ih (n + 1) h
  | lambda place captures params body rest _ ih =>
    by_cases hb : body.places = []
    · have hr : rest.inner ≠ [] := by simpa [Body.inner, hb] using h
      obtain ⟨f, hf, c, hc, hin⟩ := ih (n + captures + 1) hr
      exact ⟨f, mem_cons_of_mem _ hf, c, hc, mem_append_right _ hin⟩
    · obtain ⟨l, hl⟩ := exists_mem_of_ne_nil _ (Body.outer_ne_nil (n := 3 * (captures + params)) hb)
      have hpl : l.2 ∈ body.places :=
        (Body.places_perm _ body).subset (mem_append_left _ (mem_map_of_mem hl))
      exact ⟨_, mem_cons_self, (lambdaName l.1, l.2), mem_map.2 ⟨l, hl, rfl⟩, mem_append_left _ hpl⟩

theorem Body.lifted_closures (h : b.inner = []) : ∀ f ∈ b.lifted n, f.closures = [] := by
  induction b generalizing n with
  | done => simp [Body.lifted]
  | emit rest ih => exact ih h
  | lambda place captures params body rest _ ih =>
    obtain ⟨hbody, hrest⟩ := append_eq_nil_iff.1 h
    intro f hf
    rcases mem_cons.1 hf with rfl | hf
    · have hperm := Body.places_perm (3 * (captures + params)) body
      have houter : body.outer (3 * (captures + params)) = [] := by
        have := (hbody ▸ hperm).eq_nil
        simpa using (append_eq_nil_iff.1 this).1
      simp [closuresOf, houter]
    · exact ih hrest f hf

/-- The functions of a declaration that are not lifted. -/
def HirFunc.heads (f : HirFunc α) : List (Func α) :=
  if f.isAsync then
    [⟨f.name.text, none, []⟩, ⟨f.name.text ++ asyncBodySuffix, none, closuresOf f.lambdas⟩]
  else [⟨f.name.text, none, closuresOf f.lambdas⟩]

theorem HirFunc.lower_eq (f : HirFunc α) : f.lower = f.heads ++ f.body.lifted (3 * f.params) := by
  have harg : f.params + 2 * f.params = 3 * f.params := by omega
  unfold HirFunc.lower HirFunc.heads HirFunc.lambdas
  simp only [Body.lower_closures, Body.lower_lambdaFuncs, LowerState.entry, harg, nil_append]
  split <;> rfl

theorem HirFunc.exists_head (f : HirFunc α) : ∃ g ∈ f.heads, g.closures = closuresOf f.lambdas := by
  unfold HirFunc.heads
  split
  · exact ⟨_, mem_cons_of_mem _ mem_cons_self, rfl⟩
  · exact ⟨_, mem_cons_self, rfl⟩

variable {f : HirFunc α} {g : Func α}

theorem HirFunc.heads_spec (h : g ∈ f.heads) :
    g.origin = none ∧ ∀ c ∈ g.closures, c ∈ closuresOf f.lambdas := by
  unfold HirFunc.heads at h
  split at h
  · simp only [mem_cons, not_mem_nil, or_false] at h
    rcases h with rfl | rfl
    · simp
    · exact ⟨rfl, fun c hc => hc⟩
  · rw [mem_singleton.1 h]
    exact ⟨rfl, fun c hc => hc⟩

theorem HirFunc.mem_heads_name {name : String} (hd : '$' ∉ name.toList) :
    name ∈ f.heads.map (·.name) ↔ f.name.text = name := by
  have hbody : name ≠ f.name.text ++ asyncBodySuffix := by
    intro h
    apply hd
    rw [h, String.toList_append]
    exact mem_append_right _ (by decide)
  unfold HirFunc.heads
  split <;> simp [hbody, eq_comm]

theorem HirFunc.lambdaName_mem {l : Nat × α} (hl : l ∈ f.lambdas) :
    ∃ g ∈ f.body.lifted (3 * f.params), g.name = lambdaName l.1 ∧ g.origin = some l.2 := by
  have hmem : (lambdaName l.1, some l.2) ∈
      (f.body.lifted (3 * f.params)).map fun g => (g.name, g.origin) := by
    rw [Body.lifted_outer]
    exact mem_map.2 ⟨l, hl, rfl⟩
  obtain ⟨g, hg, he⟩ := mem_map.1 hmem
  exact ⟨g, hg, (Prod.mk.inj he).1, (Prod.mk.inj he).2⟩

theorem Body.lifted_origin (hg : g ∈ b.lifted n) :
    ∃ l ∈ b.outer n, g.name = lambdaName l.1 ∧ g.origin = some l.2 := by
  have hmem : (g.name, g.origin) ∈ (b.outer n).map fun l => (lambdaName l.1, some l.2) := by
    rw [← Body.lifted_outer]
    exact mem_map.2 ⟨g, hg, rfl⟩
  obtain ⟨l, hl, he⟩ := mem_map.1 hmem
  exact ⟨l, hl, (Prod.mk.inj he).1.symm, (Prod.mk.inj he).2.symm⟩

theorem lookup_eq {g : String → String} {l : List (String × String)} (hl : ∀ e ∈ l, e.2 = g e.1)
    (name : String) : l.lookup name = if name ∈ l.map (·.1) then some (g name) else none := by
  induction l with
  | nil => rfl
  | cons e l ih =>
    have htail := ih fun e he => hl e (mem_cons_of_mem _ he)
    obtain ⟨k, v⟩ := e
    have hv : v = g k := hl (k, v) mem_cons_self
    by_cases hk : name = k
    · subst hk
      simp [List.lookup, hv]
    · have hne : (name == k) = false := by simpa using hk
      have hmem : name ∈ ((k, v) :: l).map (·.1) ↔ name ∈ l.map (·.1) := by simp [hk]
      simp only [List.lookup, hne, htail]
      exact (if_congr hmem rfl rfl).symm

/-- A name under its module's. -/
def qualified (module : Ident) (name : String) : String := module.text ++ "." ++ name

theorem mem_qualify {module : Ident} {fs : List (Func α)} :
    g ∈ qualify module.text fs ↔ ∃ f ∈ fs, g = ⟨qualified module f.name, f.origin,
      f.closures.map fun c =>
        (if c.1 ∈ fs.map (·.name) then qualified module c.1 else c.1, c.2)⟩ := by
  have hlook : ∀ name, (((fs.map fun f => (f.name, module.text ++ "." ++ f.name)).reverse.lookup
      name).getD name) = if name ∈ fs.map (·.name) then qualified module name else name := by
    intro name
    rw [lookup_eq (g := qualified module) (by simp [qualified])]
    have hmem : name ∈ ((fs.map fun f => (f.name, module.text ++ "." ++ f.name)).reverse.map
        (·.1)) ↔ name ∈ fs.map (·.name) := by simp
    by_cases hname : name ∈ fs.map (·.name)
    · rw [if_pos (hmem.2 hname), if_pos hname]
      rfl
    · rw [if_neg fun h => hname (hmem.1 h), if_neg hname]
      rfl
  unfold qualify
  simp only [hlook, mem_map]
  constructor
  · rintro ⟨f, hf, rfl⟩
    exact ⟨f, hf, rfl⟩
  · rintro ⟨f, hf, rfl⟩
    exact ⟨f, hf, rfl⟩

theorem qualified_injective {a b : Ident} {x y : String}
    (h : qualified a x = qualified b y) : a = b ∧ x = y := by
  have hx : unqualifiedName (qualified a x) = x := unqualifiedName_qualified a.plain.1
  have hy : unqualifiedName (qualified b y) = y := unqualifiedName_qualified b.plain.1
  have hxy : x = y := by
    rw [← hx, h, hy]
  subst hxy
  have hlist := congrArg String.toList h
  unfold qualified at hlist
  simp only [String.toList_append, append_left_inj] at hlist
  refine ⟨?_, rfl⟩
  have htext : a.text = b.text := String.toList_inj.1 hlist
  cases a
  cases b
  cases htext
  rfl

theorem lambdaName_injective : Function.Injective lambdaName := by
  intro a b h
  have hlist := congrArg String.toList h
  unfold lambdaName at hlist
  rw [String.toList_append, String.toList_append, append_right_inj] at hlist
  have := congrArg (fun ds => Nat.ofDigitChars 10 ds 0) hlist
  simpa using this

end

/-! ## The emitted functions -/

theorem mainFirst_perm {α : Type} (fs : List (Func α)) : (mainFirst fs).Perm fs := by
  unfold mainFirst
  split
  · rename_i pos h
    obtain ⟨hlt, -⟩ := findIdx?_eq_some_iff_getElem.1 h
    rw [getElem?_eq_getElem hlt]
    exact (getElem_cons_eraseIdx_perm hlt)
  · exact Perm.refl _

namespace Project

variable {α : Type} {p : Project α} {g : Func α}

theorem mem_emitted : g ∈ p.emitted ↔ ∃ s ∈ p.sources, g ∈ qualify s.1.text s.2.lower := by
  unfold emitted
  rw [(mainFirst_perm _).mem_iff, mem_flatMap]

def lambdaNames (p : Project α) : List String :=
  p.lambdaIds.map fun l => qualified l.1 (lambdaName l.2)

def headNames (p : Project α) : List String :=
  p.sources.flatMap fun s => s.2.heads.map fun f => qualified s.1 f.name

theorem names_perm : (p.emitted.map (·.name)).Perm (p.headNames ++ p.lambdaNames) := by
  have hone : ∀ s : Ident × HirFunc α, (qualify s.1.text s.2.lower).map (·.name) =
      (s.2.heads.map fun f => qualified s.1 f.name) ++
        s.2.lambdas.map fun l => qualified s.1 (lambdaName l.1) := by
    intro s
    have hlift := congrArg (List.map fun x : String × Option α => qualified s.1 x.1)
      (Body.lifted_outer (3 * s.2.params) s.2.body)
    simp only [map_map] at hlift
    unfold qualify
    rw [HirFunc.lower_eq, map_map, map_append]
    exact congrArg₂ (· ++ ·) rfl hlift
  have hlam : p.lambdaNames =
      p.sources.flatMap fun s => s.2.lambdas.map fun l => qualified s.1 (lambdaName l.1) := by
    unfold lambdaNames lambdaIds
    rw [map_flatMap]
    simp [map_map, Function.comp_def]
  rw [hlam]
  refine ((mainFirst_perm _).map _).trans ?_
  rw [map_flatMap]
  simp only [hone]
  exact (flatMap_append_perm _ _ _).symm

theorem mem_headNames {m : Ident} {n : Nat} :
    qualified m (lambdaName n) ∈ p.headNames ↔ (m, lambdaName n) ∈ p.funcNames := by
  have hd : '$' ∉ (lambdaName n).toList := dollar_lambda n
  unfold headNames funcNames
  simp only [mem_flatMap, mem_map]
  constructor
  · rintro ⟨s, hs, f, hf, he⟩
    obtain ⟨hm, hname⟩ := qualified_injective he
    have hdecl := (HirFunc.mem_heads_name hd).1 (mem_map.2 ⟨f, hf, hname⟩)
    exact ⟨s, hs, by rw [hm, hdecl]⟩
  · rintro ⟨s, hs, he⟩
    obtain ⟨hm, hname⟩ := Prod.mk.inj he
    obtain ⟨f, hf, hfn⟩ := mem_map.1 ((HirFunc.mem_heads_name hd).2 hname)
    exact ⟨s, hs, f, hf, by rw [hm, hfn]⟩

theorem lambdaNames_nodup : p.lambdaNames.Nodup ↔ p.lambdaIds.Nodup := by
  refine nodup_map_iff ?_
  intro a b h
  obtain ⟨hm, hn⟩ := qualified_injective h
  exact Prod.ext hm (lambdaName_injective hn)

theorem places_nodup : ((p.sources.flatMap fun s => s.2.lambdas.map (·.2)) ++
    p.sources.flatMap fun s => s.2.body.inner).Nodup := by
  have hplaces : p.sources.flatMap (fun s => s.2.body.places) =
      p.modules.flatMap fun m => m.funcs.flatMap fun f => f.body.places := by
    unfold sources
    simp [flatMap_assoc, flatMap_map]
  have hperm : (p.sources.flatMap fun s => s.2.lambdas.map (·.2) ++ s.2.body.inner).Perm
      (p.sources.flatMap fun s => s.2.body.places) :=
    Perm.flatMap_left _ fun s _ => Body.places_perm _ _
  exact ((flatMap_append_perm _ _ _).trans hperm).nodup_iff.2 (hplaces ▸ p.distinct)

/-! ## Closures and the functions they name -/

variable {s : Ident × HirFunc α} {l : Nat × α}

theorem exists_own (hs : s ∈ p.sources) (hl : l ∈ s.2.lambdas) :
    ∃ g ∈ p.emitted, g.name = qualified s.1 (lambdaName l.1) ∧ g.origin = some l.2 := by
  obtain ⟨f, hf, hname, horigin⟩ := HirFunc.lambdaName_mem hl
  have hmem : f ∈ s.2.lower := by
    rw [HirFunc.lower_eq]
    exact mem_append_right _ hf
  exact ⟨_, mem_emitted.2 ⟨s, hs, mem_qualify.2 ⟨f, hmem, rfl⟩⟩, by rw [hname], horigin⟩

theorem closure_name (hl : l ∈ s.2.lambdas) : lambdaName l.1 ∈ s.2.lower.map (·.name) := by
  obtain ⟨f, hf, hname, -⟩ := HirFunc.lambdaName_mem hl
  rw [HirFunc.lower_eq, ← hname]
  exact mem_map_of_mem (mem_append_right _ hf)

theorem exists_closure (hs : s ∈ p.sources) (hl : l ∈ s.2.lambdas) :
    ∃ g ∈ p.emitted, (qualified s.1 (lambdaName l.1), l.2) ∈ g.closures := by
  obtain ⟨f, hf, hclosures⟩ := s.2.exists_head
  have hmem : f ∈ s.2.lower := by
    rw [HirFunc.lower_eq]
    exact mem_append_left _ hf
  refine ⟨_, mem_emitted.2 ⟨s, hs, mem_qualify.2 ⟨f, hmem, rfl⟩⟩, ?_⟩
  refine mem_map.2 ⟨(lambdaName l.1, l.2), ?_, by rw [if_pos (closure_name hl)]⟩
  rw [hclosures]
  exact mem_map.2 ⟨l, hl, rfl⟩

theorem closure_cases (hflat : ∀ s ∈ p.sources, s.2.body.inner = [])
    (hg : g ∈ p.emitted) {c : String × α} (hc : c ∈ g.closures) :
    ∃ s ∈ p.sources, ∃ l ∈ s.2.lambdas, c = (qualified s.1 (lambdaName l.1), l.2) := by
  obtain ⟨s, hs, hq⟩ := mem_emitted.1 hg
  obtain ⟨f, hf, rfl⟩ := mem_qualify.1 hq
  obtain ⟨c₀, hc₀, rfl⟩ := mem_map.1 hc
  rw [HirFunc.lower_eq] at hf
  rcases mem_append.1 hf with hf | hf
  · obtain ⟨l, hl, rfl⟩ := mem_map.1 ((HirFunc.heads_spec hf).2 c₀ hc₀)
    exact ⟨s, hs, l, hl, by rw [if_pos (closure_name hl)]⟩
  · rw [Body.lifted_closures (hflat s hs) f hf] at hc₀
    exact absurd hc₀ not_mem_nil

theorem emitted_origin (hg : g ∈ p.emitted) {place : α} (h : g.origin = some place) :
    place ∈ p.sources.flatMap fun s => s.2.lambdas.map (·.2) := by
  obtain ⟨s, hs, hq⟩ := mem_emitted.1 hg
  obtain ⟨f, hf, rfl⟩ := mem_qualify.1 hq
  rw [HirFunc.lower_eq] at hf
  rcases mem_append.1 hf with hf | hf
  · rw [(HirFunc.heads_spec hf).1] at h
    cases h
  · obtain ⟨l, hl, -, horigin⟩ := Body.lifted_origin hf
    rw [horigin] at h
    cases h
    exact mem_flatMap.2 ⟨s, hs, mem_map_of_mem hl⟩

end Project

theorem binds_iff {α : Type} {fs : List (Func α)} {g : Func α} {c : String × α} (hg : g ∈ fs)
    (hname : g.name = c.1) (horigin : g.origin = some c.2) :
    Binds fs c ↔ (fs.map (·.name)).count c.1 = 1 := by
  have hcount : (fs.map (·.name)).count c.1 = (fs.filter (·.name = c.1)).length := by
    rw [count_eq_countP, countP_map, countP_eq_length_filter]
    congr 1
  have hmem : g ∈ fs.filter (·.name = c.1) := mem_filter.2 ⟨hg, by simpa using hname⟩
  rw [hcount]
  constructor
  · rintro ⟨f, hf, -⟩
    rw [hf, length_singleton]
  · intro h
    obtain ⟨f, hf⟩ := length_eq_one_iff.1 h
    rw [hf, mem_singleton] at hmem
    exact ⟨f, hf, hmem ▸ horigin⟩

namespace Project

variable {α : Type} {p : Project α}

theorem flat_of_bound (h : Bound p.emitted) : ∀ s ∈ p.sources, s.2.body.inner = [] := by
  intro s hs
  by_contra hne
  obtain ⟨f, hf, c, hc, hin⟩ := Body.exists_inner (3 * s.2.params) hne
  have hmem : f ∈ s.2.lower := by
    rw [HirFunc.lower_eq]
    exact mem_append_right _ hf
  obtain ⟨g, hg, horigin⟩ := h _ (mem_emitted.2 ⟨s, hs, mem_qualify.2 ⟨f, hmem, rfl⟩⟩) _
    (mem_map_of_mem hc)
  have hgm : g ∈ p.emitted := (mem_filter.1 (hg ▸ mem_singleton_self g)).1
  -- no emitted function is lifted from an inner lambda
  exact (disjoint_of_nodup_append places_nodup) (emitted_origin hgm horigin)
    (mem_flatMap.2 ⟨s, hs, hin⟩)

theorem mem_lambdaIds {l : Ident × Nat} :
    l ∈ p.lambdaIds ↔ ∃ s ∈ p.sources, ∃ l₀ ∈ s.2.lambdas, l = (s.1, l₀.1) := by
  unfold lambdaIds
  simp [mem_flatMap, eq_comm]

theorem apart_of_bound (h : Bound p.emitted) : p.Apart := by
  have hcount : ∀ l ∈ p.lambdaIds,
      (p.headNames ++ p.lambdaNames).count (qualified l.1 (lambdaName l.2)) = 1 := by
    intro l hl
    obtain ⟨s, hs, l₀, hl₀, rfl⟩ := mem_lambdaIds.1 hl
    obtain ⟨f, hf, hclosure⟩ := exists_closure hs hl₀
    obtain ⟨g, hg, hname, horigin⟩ := exists_own hs hl₀
    rw [← names_perm.count_eq]
    exact (binds_iff hg hname horigin).1 (h f hf _ hclosure)
  refine ⟨flat_of_bound h, ?_, ?_⟩
  · rw [← lambdaNames_nodup, nodup_iff_count_le_one]
    intro name
    by_cases hname : name ∈ p.lambdaNames
    · obtain ⟨l, hl, rfl⟩ := mem_map.1 hname
      have := hcount l hl
      rw [count_append] at this
      omega
    · rw [count_eq_zero_of_not_mem hname]
      omega
  · intro l hl hname
    have hone := hcount l hl
    have hhead := count_pos_iff.2 (mem_headNames.2 hname)
    have hlam : 0 < p.lambdaNames.count (qualified l.1 (lambdaName l.2)) :=
      count_pos_iff.2 (mem_map.2 ⟨l, hl, rfl⟩)
    rw [count_append] at hone
    omega

theorem bound_of_apart (h : p.Apart) : Bound p.emitted := by
  intro f hf c hc
  obtain ⟨s, hs, l, hl, rfl⟩ := closure_cases h.flat hf hc
  obtain ⟨g, hg, hname, horigin⟩ := exists_own hs hl
  have hid : (s.1, l.1) ∈ p.lambdaIds := mem_lambdaIds.2 ⟨s, hs, l, hl, rfl⟩
  have hhead : qualified s.1 (lambdaName l.1) ∉ p.headNames := fun hmem =>
    h.names _ hid (mem_headNames.1 hmem)
  have hlam : qualified s.1 (lambdaName l.1) ∈ p.lambdaNames := mem_map.2 ⟨_, hid, rfl⟩
  refine (binds_iff hg hname horigin).2 ?_
  rw [names_perm.count_eq, count_append, count_eq_zero_of_not_mem hhead,
    count_eq_one_of_mem (lambdaNames_nodup.2 h.ids) hlam]

end Project

/-- `fn(Int x) { return x; }` stands first in `f` and in `g`, two functions of `Main`. -/
def twice : Project Nat where
  modules :=
    let main : Ident := ⟨"Main", ⟨'M', ['a', 'i', 'n'], rfl, rfl⟩, by simp [isIdentContinue]⟩
    let f : Ident := ⟨"f", ⟨'f', [], rfl, rfl⟩, by simp [isIdentContinue]⟩
    let g : Ident := ⟨"g", ⟨'g', [], rfl, rfl⟩, by simp [isIdentContinue]⟩
    [⟨main, [⟨f, false, 0, .lambda 0 0 1 (.emit .done) (.emit .done)⟩,
      ⟨g, false, 0, .lambda 1 0 1 (.emit .done) (.emit .done)⟩]⟩]
  distinct := by decide

end Arth.Lambdas
