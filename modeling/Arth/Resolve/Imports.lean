import Arth.Lib.KeyTable

/-!
# The imports of a file

The entries of a table stand in the order in which a loop over the map visits them.

* `resolveImportsForFile` — the names that the clauses bring, and the messages.
* `Traces` — what the loop has done after some clauses, in terms of what each clause `offers`.
* `imports_sound_iff` — a file without a message is read as written, unless one local name is
  given to two symbols of one package.
-/

namespace Arth.Resolve

open KeyTable

inductive SymbolKind
  | module | struct | interface | enum | provider | function | typeAlias

inductive Visibility
  | default | pub | internal | priv

structure SymbolEntry where
  kind : SymbolKind
  vis : Visibility

abbrev PackageSymbols := Table String SymbolEntry

/-- An import clause; `rename` is what stands after `as`. -/
structure Import where
  path : List String
  star : Bool
  rename : Option String
  deriving DecidableEq

/-- import name -> (package, original name, kind) -/
abbrev Brought := Table String (String × String × SymbolKind)

def topPackageSegment (pkg : String) : List Char := pkg.toList.takeWhile (· ≠ '.')

def canImport (vis : Visibility) (fromPkg intoPkg : String) : Bool :=
  match vis with
  | .pub => true
  | .internal => topPackageSegment fromPkg = topPackageSegment intoPkg
  | .priv | .default => fromPkg = intoPkg

/-- A local name, and the symbol that it is to stand for. -/
abbrev Offer := String × String × String × SymbolKind

/-- A visible symbol under a local name: the first import of the name stays. -/
def bring (s : Brought × List String) (o : Offer) : Brought × List String :=
  match s.1.lookup o.1 with
  | some (otherPkg, _, _) =>
    if otherPkg ≠ o.2.1 then
      (s.1, s.2 ++ ["import conflict: '" ++ o.1 ++ "' from '" ++ o.2.1 ++ "' also brought from '" ++
        otherPkg ++ "'"])
    else s
  | none => (s.1.insert o.1 o.2, s.2)

/-- What a clause comes to in turn: a symbol is brought, or a message emitted. -/
def emit (s : Brought × List String) : Offer ⊕ String → Brought × List String
  | .inl o => bring s o
  | .inr m => (s.1, s.2 ++ [m])

section

variable (pkgSyms : Table String PackageSymbols) (filePkg : String)

def starImport (path : List String) : List (Offer ⊕ String) :=
  let targetPkg := ".".intercalate path
  match pkgSyms.lookup targetPkg with
  | some ps =>
    (ps.entries.filter fun e => canImport e.2.vis targetPkg filePkg).map fun e =>
      .inl (e.1, targetPkg, e.1, e.2.kind)
  | none => [.inr ("unknown package '" ++ targetPkg ++ "' in import")]

def namedImport (c : Import) : List (Offer ⊕ String) :=
  match c.path.getLast? with
  | none => []
  | some originalName =>
    let importName := c.rename.getD originalName
    let targetPkg := ".".intercalate c.path.dropLast
    if targetPkg = "" then [.inr ("invalid import '" ++ originalName ++ "': missing package")]
    else
      match pkgSyms.lookup targetPkg with
      | none => [.inr ("unknown package '" ++ targetPkg ++ "' in import")]
      | some ps =>
        match ps.lookup originalName with
        | none => [.inr ("'" ++ originalName ++ "' not found in package '" ++ targetPkg ++ "'")]
        | some sym =>
          if canImport sym.vis targetPkg filePkg then
            [.inl (importName, targetPkg, originalName, sym.kind)]
          else [.inr ("'" ++ originalName ++ "' is not visible for import from '" ++ targetPkg ++ "'")]

def importClause (c : Import) : List (Offer ⊕ String) :=
  if c.star then starImport pkgSyms filePkg c.path else namedImport pkgSyms filePkg c

def resolveImportsForFile (imports : List Import) : Brought × List String :=
  (imports.flatMap (importClause pkgSyms filePkg)).foldl emit (∅, [])

/-! ## What a clause offers -/

/-- A symbol of a package that the file may import. -/
def Importable (e : String × String × SymbolKind) : Prop :=
  ∃ ps sym, pkgSyms.lookup e.1 = some ps ∧ ps.lookup e.2.1 = some sym ∧ sym.kind = e.2.2 ∧
    canImport sym.vis e.1 filePkg

/-- The clause offers a symbol under a local name: a star all that the file may import of its
package, under their own names, and a named clause the symbol that it names. -/
def Offers (c : Import) (o : Offer) : Prop :=
  Importable pkgSyms filePkg o.2 ∧
    if c.star then o.2.1 = ".".intercalate c.path ∧ o.1 = o.2.2.1
    else o.2.1 ≠ "" ∧ o.2.1 = ".".intercalate c.path.dropLast ∧ c.path.getLast? = some o.2.2.1 ∧
      o.1 = c.rename.getD o.2.2.1

/-- What the clause names is there to be imported. -/
def Valid (c : Import) : Prop :=
  if c.star then ∃ ps, pkgSyms.lookup (".".intercalate c.path) = some ps
  else c.path = [] ∨ ∃ o, Offers pkgSyms filePkg c o

variable {pkgSyms filePkg} {c : Import} {o o' : Offer}

theorem offers_unique (h : Offers pkgSyms filePkg c o) (h' : Offers pkgSyms filePkg c o')
    (hname : o.1 = o'.1) : o.2 = o'.2 := by
  obtain ⟨n, p, x, k⟩ := o
  obtain ⟨n', p', x', k'⟩ := o'
  obtain ⟨⟨ps, sym, hps, hsym, rfl, -⟩, hc⟩ := h
  obtain ⟨⟨ps', sym', hps', hsym', rfl, -⟩, hc'⟩ := h'
  have hpx : p = p' ∧ x = x' := by
    cases hs : c.star <;> simp_all
  obtain ⟨rfl, rfl⟩ := hpx
  cases hps.symm.trans hps'
  cases hsym.symm.trans hsym'
  rfl

theorem inl_mem_starImport (hs : c.star = true) :
    .inl o ∈ starImport pkgSyms filePkg c.path ↔ Offers pkgSyms filePkg c o := by
  obtain ⟨n, p, x, k⟩ := o
  simp only [starImport, Offers, Importable, hs, if_true]
  cases hps : pkgSyms.lookup (".".intercalate c.path) with
  | none =>
    refine iff_of_false (by simp) ?_
    rintro ⟨⟨ps, sym, hps', -⟩, rfl, -⟩
    cases hps.symm.trans hps'
  | some ps =>
    simp only [List.mem_map, List.mem_filter, Sum.inl.injEq, Prod.mk.injEq]
    constructor
    · rintro ⟨⟨n, sym⟩, ⟨hmem, hv⟩, rfl, rfl, rfl, rfl⟩
      exact ⟨⟨ps, sym, hps, (mem_entries_iff ps _ sym).1 hmem, rfl, hv⟩, rfl, rfl⟩
    · rintro ⟨⟨ps', sym, hps', hsym, rfl, hv⟩, rfl, rfl⟩
      cases hps.symm.trans hps'
      exact ⟨⟨_, sym⟩, ⟨(mem_entries_iff ps _ sym).2 hsym, hv⟩, rfl, rfl, rfl, rfl⟩

theorem inl_mem_namedImport (hs : c.star = false) :
    .inl o ∈ namedImport pkgSyms filePkg c ↔ Offers pkgSyms filePkg c o := by
  obtain ⟨n, p, x, k⟩ := o
  simp only [namedImport, Offers, Importable, hs, Bool.false_eq_true, if_false]
  generalize ".".intercalate c.path.dropLast = t
  cases c.path.getLast? with
  | none => simp
  | some y =>
    dsimp only
    split_ifs with ht
    · grind
    · cases hps : pkgSyms.lookup t with
      | none => grind
      | some ps =>
        cases hsym : ps.lookup y with
        | none => grind
        | some sym => grind

theorem namedImport_cases (c : Import) : c.path = [] ∧ namedImport pkgSyms filePkg c = [] ∨
    c.path ≠ [] ∧ ∃ e, namedImport pkgSyms filePkg c = [e] := by
  unfold namedImport
  cases hx : c.path.getLast? with
  | none => exact .inl ⟨List.getLast?_eq_none_iff.1 hx, rfl⟩
  | some x =>
    refine .inr ⟨fun h => by simp [h] at hx, ?_⟩
    dsimp only
    split_ifs
    · exact ⟨_, rfl⟩
    · split
      · exact ⟨_, rfl⟩
      · split
        · exact ⟨_, rfl⟩
        · split_ifs <;> exact ⟨_, rfl⟩

theorem inl_mem_importClause :
    .inl o ∈ importClause pkgSyms filePkg c ↔ Offers pkgSyms filePkg c o := by
  rw [importClause]
  split_ifs with hs
  · exact inl_mem_starImport hs
  · exact inl_mem_namedImport (Bool.eq_false_iff.2 hs)

theorem inr_not_mem_importClause :
    (∀ m, .inr m ∉ importClause pkgSyms filePkg c) ↔ Valid pkgSyms filePkg c := by
  rw [importClause, Valid]
  split_ifs with hs
  · cases hps : pkgSyms.lookup (".".intercalate c.path) <;> simp [starImport, hps]
  · simp only [← inl_mem_namedImport (Bool.eq_false_iff.2 hs)]
    rcases @namedImport_cases pkgSyms filePkg c with
      ⟨hne, heq⟩ | ⟨hne, _ | _, heq⟩ <;> simp [heq, hne]

/-- The offers of a name agree about the package. -/
def SamePackage (O : Offer → Prop) : Prop :=
  ∀ o o', O o → O o' → o.1 = o'.1 → o.2.1 = o'.2.1

/-- After the offers `O` of clauses that are valid when `V` holds, the first of them `P`: each name
has one of the symbols offered under it, and there is no message when there is no reason for one. -/
structure Traces (P O : Offer → Prop) (V : Prop) (s : Brought × List String) : Prop where
  kept : ∀ o, P o → s.1.lookup o.1 = some o.2
  bound : ∀ n e, s.1.lookup n = some e → O (n, e)
  heard : ∀ o, O o → ∃ e, s.1.lookup o.1 = some e
  clean : s.2 = [] ↔ V ∧ SamePackage O

variable {P O : Offer → Prop} {V : Prop} {s : Brought × List String} {o : Offer}

theorem Traces.congr {O' : Offer → Prop} {V' : Prop} (h : Traces P O V s) (hO : ∀ o, O o ↔ O' o)
    (hV : V ↔ V') : Traces P O' V' s := by
  obtain rfl : O = O' := funext fun o => propext (hO o)
  obtain rfl : V = V' := propext hV
  exact h

theorem Traces.lookup_of_agree (h : Traces P O V s)
    (hone : ∀ o o', O o → O o' → o.1 = o'.1 → o.2 = o'.2) (ho : O o) :
    s.1.lookup o.1 = some o.2 := by
  obtain ⟨e, he⟩ := h.heard o ho
  rw [he, hone o (o.1, e) ho (h.bound _ _ he) rfl]

theorem bring_of_lookup {e : String × String × SymbolKind} (h : s.1.lookup o.1 = some e) :
    (bring s o).1 = s.1 ∧ ((bring s o).2 = [] ↔ s.2 = [] ∧ e.1 = o.2.1) := by
  rw [bring, h]
  by_cases hp : e.1 = o.2.1 <;> simp [hp]

theorem Traces.bring (h : Traces P O V s) (o : Offer) :
    Traces P (fun x => O x ∨ x = o) V (bring s o) := by
  cases hs : s.1.lookup o.1 with
  | some e =>
    obtain ⟨hmap, hclean⟩ := bring_of_lookup hs
    refine ⟨hmap ▸ h.kept, fun n e' he => .inl (h.bound n e' (hmap ▸ he)), ?_, ?_⟩
    · rintro x (hx | rfl)
      · exact hmap ▸ h.heard x hx
      · exact ⟨e, hmap ▸ hs⟩
    · rw [hclean, h.clean, and_assoc]
      refine and_congr_right fun _ => ⟨?_, fun hall => ⟨?_, ?_⟩⟩
      · -- the symbol that the name has already speaks for all its offers
        rintro ⟨hsame, hp⟩ x y hx hy hname
        have hof : ∀ z, O z ∨ z = o → z.1 = o.1 → z.2.1 = o.2.1 := by
          rintro z (hz | rfl) hzn
          · exact (hsame z (o.1, e) hz (h.bound _ _ hs) hzn).trans hp
          · rfl
        rcases hx with hx | rfl
        · rcases hy with hy | rfl
          · exact hsame x y hx hy hname
          · exact hof x (.inl hx) hname
        · exact (hof y hy hname.symm).symm
      · exact fun x y hx hy => hall x y (.inl hx) (.inl hy)
      · exact hall (o.1, e) o (.inl (h.bound _ _ hs)) (.inr rfl) rfl
  | none =>
    have hnew : ∀ x, O x → x.1 ≠ o.1 := by
      rintro x hx heq
      obtain ⟨e, he⟩ := h.heard x hx
      rw [heq, hs] at he
      cases he
    have hmap : Resolve.bring s o = (s.1.insert o.1 o.2, s.2) := by rw [Resolve.bring, hs]
    rw [hmap]
    refine ⟨fun x hx => ?_, fun n e he => ?_, ?_, ?_⟩
    · rw [lookup_insert_eq, if_neg, h.kept x hx]
      rintro heq
      cases (heq ▸ h.kept x hx).symm.trans hs
    · rw [lookup_insert_eq] at he
      split_ifs at he with hn
      · cases he
        exact .inr (by rw [hn])
      · exact .inl (h.bound n e he)
    · rintro x (hx | rfl)
      · rw [lookup_insert_eq, if_neg (hnew x hx)]
        exact h.heard x hx
      · exact ⟨x.2, AList.lookup_insert _⟩
    · rw [h.clean]
      refine and_congr_right fun _ => ⟨?_, fun hall x y hx hy => hall x y (.inl hx) (.inl hy)⟩
      rintro hsame x y (hx | rfl) (hy | rfl) hname
      · exact hsame x y hx hy hname
      · cases hnew x hx hname
      · cases hnew y hy hname.symm
      · rfl

/-! ## Every list of clauses -/

theorem Traces.foldl (es : List (Offer ⊕ String)) (h : Traces P O V s) :
    Traces P (fun o => O o ∨ .inl o ∈ es) (V ∧ ∀ m, .inr m ∉ es) (es.foldl emit s) := by
  induction es generalizing O V s with
  | nil => exact h.congr (by simp) (by simp)
  | cons e es ih =>
    cases e with
    | inl o => exact (ih (h.bring o)).congr (by simp [or_assoc]) (by simp)
    | inr m =>
      have hm : Traces P O False (emit s (.inr m)) := ⟨h.kept, h.bound, h.heard, by simp [emit]⟩
      exact (ih hm).congr (by simp) (iff_of_false (fun h => h.1) fun h => h.2 m (by simp))

variable (pkgSyms filePkg)

theorem Traces.clauses (imports : List Import) (h : Traces P O V s) :
    Traces P (fun o => O o ∨ ∃ c ∈ imports, Offers pkgSyms filePkg c o)
      (V ∧ ∀ c ∈ imports, Valid pkgSyms filePkg c)
      ((imports.flatMap (importClause pkgSyms filePkg)).foldl emit s) := by
  refine (h.foldl _).congr (fun o => ?_) ?_
  · simp only [List.mem_flatMap, inl_mem_importClause]
  · simp only [List.mem_flatMap, not_exists, not_and, ← inr_not_mem_importClause]
    exact and_congr_right fun _ => ⟨fun h c hc m => h m c hc, fun h m c hc => h c hc m⟩

theorem traces (imports : List Import) :
    Traces (fun _ => False) (fun o => ∃ c ∈ imports, Offers pkgSyms filePkg c o)
      (∀ c ∈ imports, Valid pkgSyms filePkg c) (resolveImportsForFile pkgSyms filePkg imports) := by
  have hstart : Traces (fun _ => False) (fun _ => False) True ((∅ : Brought), []) :=
    ⟨nofun, fun n e he => by simp at he, nofun, by simp [SamePackage]⟩
  exact (hstart.clauses pkgSyms filePkg imports).congr (by simp) (by simp)

/-- The first clause has its way. -/
theorem lookup_of_head (imports : List Import) (ho : Offers pkgSyms filePkg c o) :
    (resolveImportsForFile pkgSyms filePkg (c :: imports)).1.lookup o.1 = some o.2 := by
  have hone := traces pkgSyms filePkg [c]
  have hkept : ∀ x, Offers pkgSyms filePkg c x →
      (resolveImportsForFile pkgSyms filePkg [c]).1.lookup x.1 = some x.2 := by
    refine fun x hx => hone.lookup_of_agree ?_ ⟨c, by simp, hx⟩
    simp only [List.mem_singleton, exists_eq_left]
    exact fun x y hx hy => offers_unique hx hy
  have hall := Traces.clauses pkgSyms filePkg imports { hone with kept := hkept }
  simpa [resolveImportsForFile, List.foldl_append] using hall.kept o ho

/-- Each named clause gives its local name to the symbol that it names. -/
def BoundAsWritten (imports : List Import) (b : Brought) : Prop :=
  ∀ c ∈ imports, c.star = false → c.path ≠ [] →
    ∃ o, Offers pkgSyms filePkg c o ∧ b.lookup o.1 = some o.2

/-- The same names with the same symbols, and the same messages. -/
def SameResult (r r' : Brought × List String) : Prop :=
  (∀ n, r'.1.lookup n = r.1.lookup n) ∧ r'.2 = r.2

/-- What a file without a message is promised: its clauses in any order bind what they name, and
only what the file may see. -/
def ReadAsWritten (imports : List Import) : Prop :=
  (resolveImportsForFile pkgSyms filePkg imports).2 = [] →
    BoundAsWritten pkgSyms filePkg imports (resolveImportsForFile pkgSyms filePkg imports).1 ∧
    (∀ n e, (resolveImportsForFile pkgSyms filePkg imports).1.lookup n = some e →
      Importable pkgSyms filePkg e) ∧
    ∀ imports', imports.Perm imports' → SameResult
      (resolveImportsForFile pkgSyms filePkg imports)
      (resolveImportsForFile pkgSyms filePkg imports')

/-- The clauses are valid and name no two packages under one local name, so that no message is due. -/
def Clean (imports : List Import) : Prop :=
  (∀ c ∈ imports, Valid pkgSyms filePkg c) ∧
    SamePackage fun o => ∃ c ∈ imports, Offers pkgSyms filePkg c o

/-- A file without a message is read as written, unless one local name is given to two symbols of
one package: such clauses are taken for one. -/
theorem imports_sound_iff (imports : List Import) : ReadAsWritten pkgSyms filePkg imports ↔
    (Clean pkgSyms filePkg imports → ∀ o o', (∃ c ∈ imports, Offers pkgSyms filePkg c o) →
      (∃ c ∈ imports, Offers pkgSyms filePkg c o') → o.1 = o'.1 → o.2 = o'.2) := by
  have ht := traces pkgSyms filePkg imports
  rw [ReadAsWritten, ht.clean]
  refine imp_congr_right fun hclean => ⟨?_, fun hone => ⟨?_, ?_, ?_⟩⟩
  · rintro ⟨-, -, hperm⟩ o o' ⟨c, hc, ho⟩ ⟨c', hc', ho'⟩ hname
    have hfirst : ∀ c ∈ imports, ∀ o, Offers pkgSyms filePkg c o →
        (resolveImportsForFile pkgSyms filePkg imports).1.lookup o.1 = some o.2 := by
      intro c hc o ho
      rw [← (hperm _ (List.perm_cons_erase hc)).1, lookup_of_head pkgSyms filePkg _ ho]
    exact Option.some.inj ((hfirst c hc o ho).symm.trans (hname ▸ hfirst c' hc' o' ho'))
  · intro c hc hstar hne
    have hv := hclean.1 c hc
    rw [Valid, if_neg (by simp [hstar])] at hv
    obtain ⟨o, ho⟩ := hv.resolve_left hne
    exact ⟨o, ho, ht.lookup_of_agree hone ⟨c, hc, ho⟩⟩
  · intro n e he
    obtain ⟨c, -, ho⟩ := ht.bound n e he
    exact ho.1
  · intro imports' hperm
    have ht' := (traces pkgSyms filePkg imports').congr
      (fun o => exists_congr fun c => and_congr_left' hperm.mem_iff.symm)
      (forall_congr' fun c => imp_congr_left hperm.mem_iff.symm)
    refine ⟨fun n => Option.ext fun e => ⟨fun he => ?_, fun he => ?_⟩, ?_⟩
    · exact ht.lookup_of_agree hone (ht'.bound n e he)
    · exact ht'.lookup_of_agree hone (ht.bound n e he)
    · rw [ht.clean.2 hclean, ht'.clean.2 hclean]

end

end Arth.Resolve
