import Arth.Typeck.Derive

/-!
# Which structs are dropped, and how

The passes of `buildTypesNeedingDrop` enter exactly the types that have a deinit or reach one through
their fields. What they enter for a struct depends on the moment: a field whose type is found
droppable later is not in the list, and the list follows the map of the fields.

* `OwnDeinit`, `Droppable` — what the table is for.
* `KnownAt` — the types that are found before a pass comes to a position, read off the order of the
  declarations alone; `mem_tableAt_iff` says that the table has these.
* `dropList` — the fields that the deinit of a struct has to drop, in order.
* `mem_buildTypesNeedingDrop` — the table has the droppable types.
* `entry_of_synthetic`, `dropList_iff` — what the table has for a struct, and when that is its
  `dropList`.
-/

namespace Arth.Derive

open KeyTable Passes List

/-! ## The declarations -/

/-- What the checks before and beside this one reject: two types of one name in a package, and two
fields of one name. -/
structure Sane (files : List File) : Prop where
  types : ((allDecls files).filterMap fun (pkg, d) =>
    d.fields?.map fun (name, _) => (pkg, name)).Nodup
  fields : ∀ s ∈ structItems files, (s.fields.map FieldDecl.name).Nodup

/-- A hash map lists each of its entries once. -/
def Lists (iter : Table String TypeName → List (String × TypeName)) : Prop :=
  ∀ t, (iter t).Perm (t.entries.map fun e => (e.1, e.2))

/-- The type has a `deinit` of its own. -/
def OwnDeinit (files : List File) (k : Key) : Prop :=
  ∃ d fields, (k.1, d) ∈ allDecls files ∧ d.fields? = some (k.2, fields) ∧
    hasDeinit (buildModuleIndex files) k.1 k.2 = true

/-- The types that have a deinit or reach one through the types of their fields. -/
inductive Droppable (files : List File) : Key → Prop
  | own {k : Key} : OwnDeinit files k → Droppable files k
  | field {s : StructItem} {f : FieldDecl} : s ∈ structItems files → f ∈ s.fields →
    Droppable files (fieldTypeKey s.pkg f.ty) → Droppable files s.key

/-- The types that are found before a pass comes to a position. -/
inductive KnownAt (files : List File) : ℕ → ℕ → Key → Prop
  | own {n i : ℕ} {k : Key} : OwnDeinit files k → KnownAt files n i k
  | field {n i n' j : ℕ} {s : StructItem} {f : FieldDecl} : Earlier n' j n i →
    (structItems files)[j]? = some s → f ∈ s.fields →
    KnownAt files n' j (fieldTypeKey s.pkg f.ty) → KnownAt files n i s.key

def FieldDecl.entry (f : FieldDecl) : String × TypeName := (f.name, f.ty)

variable {files : List File} {k : Key} {s : StructItem}

theorem mem_structItems :
    s ∈ structItems files ↔ (s.pkg, Decl.struct s.name s.fields) ∈ allDecls files := by
  rw [structItems, mem_filterMap]
  constructor
  · rintro ⟨⟨pkg, d⟩, hmem, heq⟩
    cases d with
    | struct name fields =>
      cases heq
      exact hmem
    | _ => cases heq
  · intro h
    exact ⟨_, h, rfl⟩

theorem Sane.items (h : Sane files) : ((structItems files).map StructItem.key).Nodup := by
  have hsub : ((structItems files).map StructItem.key).Sublist
      ((allDecls files).filterMap fun (pkg, d) => d.fields?.map fun (name, _) => (pkg, name)) := by
    unfold structItems
    induction allDecls files with
    | nil => simp
    | cons a l ih =>
      obtain ⟨pkg, d⟩ := a
      cases d with
      | struct name fields => exact ih.cons_cons _
      | provider name fields => exact ih.cons _
      | _ => exact ih
  exact h.types.sublist hsub

theorem Sane.eq_of_key (h : Sane files) {s' : StructItem}
    (hs : s ∈ structItems files) (hs' : s' ∈ structItems files) (hkey : s.key = s'.key) : s = s' :=
  inj_on_of_nodup_map h.items hs hs' hkey

theorem buildStructFields_eq (files : List File) :
    buildStructFields files = (allDecls files).foldl (enter fun a : String × Decl =>
      a.2.fields?.map fun p => ((a.1, p.1), fieldMap p.2)) ∅ := by
  unfold buildStructFields
  congr 1
  funext t ⟨pkg, d⟩
  cases hd : d.fields? <;> simp [enter, hd]

theorem lookup_buildStructFields (h : Sane files) (hs : s ∈ structItems files) :
    (buildStructFields files).lookup s.key = some (fieldMap s.fields) := by
  rw [buildStructFields_eq]
  refine lookup_foldl_enter ∅ ?_ (mem_structItems.1 hs) rfl
  convert h.types using 1
  refine filterMap_congr fun ⟨pkg, d⟩ _ => ?_
  cases hd : d.fields? <;> simp [hd]

theorem perm_fieldMap {fields : List FieldDecl} (h : (fields.map FieldDecl.name).Nodup) :
    ((fieldMap fields).entries.map fun e => (e.1, e.2)).Perm (fields.map FieldDecl.entry) := by
  have hmap : fieldMap fields = fields.foldl (enter fun f => some f.entry) ∅ := rfl
  have hnodup : (fields.filterMap fun f => (some f.entry).map Prod.fst).Nodup := by
    simpa [filterMap_eq_map, FieldDecl.entry] using h
  refine (perm_ext_iff_of_nodup ?_ ?_).2 ?_
  · refine Nodup.map ?_ (fieldMap fields).nodupKeys.nodup
    rintro ⟨k, v⟩ ⟨k', v'⟩ heq
    cases heq
    rfl
  · refine Nodup.of_map Prod.fst ?_
    simpa [FieldDecl.entry, Function.comp_def] using h
  · rintro ⟨name, ty⟩
    have hlookup : (name, ty) ∈ (fieldMap fields).entries.map (fun e => (e.1, e.2)) ↔
        (fieldMap fields).lookup name = some ty := by
      rw [← mem_entries_iff, mem_map]
      constructor
      · rintro ⟨⟨k, v⟩, hmem, heq⟩
        cases heq
        exact hmem
      · exact fun hmem => ⟨_, hmem, rfl⟩
    rw [hlookup, mem_map, hmap]
    constructor
    · intro hl
      rcases lookup_foldl_enter_origin hl with hempty | ⟨f, hf, heq⟩
      · simp at hempty
      · exact ⟨f, hf, by simpa using heq⟩
    · rintro ⟨f, hf, heq⟩
      exact lookup_foldl_enter ∅ hnodup hf (congrArg some heq)

theorem explicitDeinits_eq (moduleIndex : Table Key (List FuncSig)) (files : List File) :
    explicitDeinits moduleIndex files = (allDecls files).foldl (enter fun a : String × Decl =>
      a.2.fields?.bind fun p => if hasDeinit moduleIndex a.1 p.1 then
        some ((a.1, p.1), DeinitKind.explicit (p.1 ++ "Fns")) else none) ∅ := by
  unfold explicitDeinits
  congr 1
  funext t ⟨pkg, d⟩
  cases hd : d.fields? with
  | none => simp [enter, hd]
  | some p => by_cases hhas : hasDeinit moduleIndex pkg p.1 = true <;> simp [enter, hd, hhas]

theorem mem_explicitDeinits :
    k ∈ explicitDeinits (buildModuleIndex files) files ↔ OwnDeinit files k := by
  rw [explicitDeinits_eq, mem_foldl_enter]
  constructor
  · rintro (hempty | ⟨⟨pkg, d⟩, hmem, v, hf⟩)
    · exact absurd hempty (AList.notMem_empty k)
    · obtain ⟨⟨name, fields⟩, hd, hite⟩ := Option.bind_eq_some_iff.1 hf
      split at hite
      · rename_i hhas
        cases hite
        exact ⟨d, fields, hmem, hd, hhas⟩
      · cases hite
  · rintro ⟨d, fields, hmem, hd, hhas⟩
    refine .inr ⟨(k.1, d), hmem, .explicit (k.2 ++ "Fns"), ?_⟩
    simp [hd, hhas]

theorem lookup_explicitDeinits {kind : DeinitKind}
    (h : (explicitDeinits (buildModuleIndex files) files).lookup k = some kind) :
    ∃ module, kind = .explicit module := by
  rw [explicitDeinits_eq] at h
  rcases lookup_foldl_enter_origin h with hempty | ⟨⟨pkg, d⟩, -, hf⟩
  · simp at hempty
  · obtain ⟨⟨name, fields⟩, hd, hite⟩ := Option.bind_eq_some_iff.1 hf
    split at hite
    · cases hite
      exact ⟨_, rfl⟩
    · cases hite

section Passes

variable {iter : Table String TypeName → List (String × TypeName)} {files : List File}

/-- The fields of a struct as the passes list them. -/
def fieldList (iter : Table String TypeName → List (String × TypeName)) (s : StructItem) :
    List (String × TypeName) :=
  iter (fieldMap s.fields)

variable {s : StructItem}

theorem perm_fieldList (hiter : Lists iter) (h : Sane files)
    (hs : s ∈ structItems files) : (fieldList iter s).Perm (s.fields.map FieldDecl.entry) :=
  (hiter _).trans (perm_fieldMap (h.fields s hs))

variable {l : List (String × TypeName)} {t : Table Key DeinitKind} {pkg : String}
    {p : String × TypeName}

theorem mem_fieldsNeedingDrop :
    fieldsNeedingDrop pkg l t ≠ [] ↔ ∃ p ∈ l, fieldTypeKey pkg p.2 ∈ t := by
  constructor
  · intro hne
    obtain ⟨q, hq⟩ := exists_mem_of_ne_nil _ hne
    obtain ⟨⟨name, ty⟩, hmem, hite⟩ := mem_filterMap.1 hq
    simp only [] at hite
    split at hite
    · rename_i hin
      exact ⟨_, mem_reverse.1 hmem, hin⟩
    · cases hite
  · rintro ⟨⟨name, ty⟩, hmem, hin⟩
    exact ne_nil_of_mem (mem_filterMap.2 ⟨(name, ty), mem_reverse.2 hmem, if_pos hin⟩)

variable (iter files) in
/-- The table before a pass comes to a position. -/
def dropAt (n i : ℕ) : Table Key DeinitKind :=
  tableAt (dropRules iter (buildStructFields files)) (structItems files)
    (explicitDeinits (buildModuleIndex files) files) n i

theorem fires_dropRules (h : Sane files) (hs : s ∈ structItems files) (t : Table Key DeinitKind) :
    (dropRules iter (buildStructFields files)).fires t s =
      if (fieldsNeedingDrop s.pkg (fieldList iter s) t).isEmpty then none
      else some (.synthetic (fieldsNeedingDrop s.pkg (fieldList iter s) t)) := by
  simp only [dropRules, lookup_buildStructFields h hs]
  rfl

theorem fires_isSome (hiter : Lists iter) (h : Sane files)
    (hs : s ∈ structItems files) (t : Table Key DeinitKind) :
    ((dropRules iter (buildStructFields files)).fires t s).isSome ↔
      ∃ f ∈ s.fields, fieldTypeKey s.pkg f.ty ∈ t := by
  rw [fires_dropRules h hs]
  have hperm := perm_fieldList hiter h hs
  have hfields : (∃ p ∈ fieldList iter s, fieldTypeKey s.pkg p.2 ∈ t) ↔
      ∃ f ∈ s.fields, fieldTypeKey s.pkg f.ty ∈ t := by
    constructor
    · rintro ⟨p, hp, hin⟩
      obtain ⟨f, hf, rfl⟩ := mem_map.1 (hperm.mem_iff.1 hp)
      exact ⟨f, hf, hin⟩
    · rintro ⟨f, hf, hin⟩
      exact ⟨f.entry, hperm.mem_iff.2 (mem_map.2 ⟨f, hf, rfl⟩), hin⟩
  rw [← hfields, ← mem_fieldsNeedingDrop]
  by_cases hnil : fieldsNeedingDrop s.pkg (fieldList iter s) t = [] <;> simp

/-- **What is found when.** -/
theorem mem_dropAt (hiter : Lists iter) (h : Sane files) (n i : ℕ) (k : Key) :
    k ∈ dropAt iter files n i ↔ KnownAt files n i k := by
  constructor
  · -- by the position, in the order in which the passes come to it
    intro hk
    induction n using Nat.strong_induction_on generalizing i k with
    | _ n ihn =>
      induction i using Nat.strong_induction_on generalizing k with
      | _ i ihi =>
        rcases (mem_tableAt _ n i k).1 hk with hstart | ⟨n', j, s, hj, hs, rfl, hfires⟩
        · exact .own (mem_explicitDeinits.1 hstart)
        · obtain ⟨f, hf, hin⟩ := (fires_isSome hiter h (mem_of_getElem? hs) _).1 hfires
          refine .field hj hs hf ?_
          rcases hj with hlt | ⟨rfl, hlt⟩
          · exact ihn n' hlt j _ hin
          · exact ihi j hlt _ hin
  · intro hk
    induction hk with
    | own hown => exact (mem_tableAt _ _ _ _).2 (.inl (mem_explicitDeinits.2 hown))
    | field hj hs hf _ ih =>
      refine (mem_tableAt _ _ _ _).2 (.inr ⟨_, _, _, hj, hs, rfl, ?_⟩)
      exact (fires_isSome hiter h (mem_of_getElem? hs) _).2 ⟨_, hf, ih⟩

theorem KnownAt.droppable {n i : ℕ} (h : KnownAt files n i k) : Droppable files k := by
  induction h with
  | own hown => exact .own hown
  | field _ hs hf _ ih => exact .field (mem_of_getElem? hs) hf ih

/-- **The droppable types.** The table has the types that have a deinit or reach one. -/
theorem mem_buildTypesNeedingDrop (hiter : Lists iter) (h : Sane files) (k : Key) :
    k ∈ buildTypesNeedingDrop iter files ↔ Droppable files k := by
  constructor
  · intro hk
    obtain ⟨n, i, hk⟩ := (mem_loop _ k).1 hk
    exact ((mem_dropAt hiter h n i k).1 hk).droppable
  · intro hk
    induction hk with
    | own hown =>
      refine (mem_loop _ _).2 ⟨0, 0, ?_⟩
      exact mem_explicitDeinits.2 hown
    | field hs hf _ ih =>
      obtain ⟨-, -, hclosed⟩ := loop_eq_tableAt
        (dropRules iter (buildStructFields files)) (structItems files)
        (explicitDeinits (buildModuleIndex files) files)
      rcases hclosed _ hs with hin | hnone
      · exact hin
      · have hsome := (fires_isSome hiter h hs _).2 ⟨_, hf, ih⟩
        unfold buildTypesNeedingDrop at hsome
        rw [hnone] at hsome
        exact Bool.noConfusion hsome

open Classical in
variable (files) in
/-- The droppable ones of some fields of a struct. -/
noncomputable def droppableOf (pkg : String) (l : List (String × TypeName)) :
    List (String × TypeName) :=
  l.filter fun p => decide (Droppable files (fieldTypeKey pkg p.2))

variable (files) in
/-- The fields that the deinit of a struct has to drop, with what drops them, in the reverse of the
order of declaration. -/
noncomputable def dropList (s : StructItem) : List (String × String) :=
  (droppableOf files s.pkg (s.fields.map FieldDecl.entry)).reverse.map fun p =>
    (p.1, dropTyName (fieldTypeKey s.pkg p.2))

/-- The ones that have been found. -/
def foundOf (pkg : String) (t : Table Key DeinitKind) (l : List (String × TypeName)) :
    List (String × TypeName) :=
  l.filter fun p => decide (fieldTypeKey pkg p.2 ∈ t)

theorem mem_droppableOf :
    p ∈ droppableOf files pkg l ↔ p ∈ l ∧ Droppable files (fieldTypeKey pkg p.2) := by
  simp [droppableOf]

theorem mem_foundOf : p ∈ foundOf pkg t l ↔ p ∈ l ∧ fieldTypeKey pkg p.2 ∈ t := by
  simp [foundOf]

theorem foundOf_eq
    (h : ∀ p ∈ l, fieldTypeKey pkg p.2 ∈ t ↔ Droppable files (fieldTypeKey pkg p.2)) :
    foundOf pkg t l = droppableOf files pkg l :=
  filter_congr fun p hp => by rw [decide_eq_decide, h p hp]

theorem fieldsNeedingDrop_eq (pkg : String) (l : List (String × TypeName))
    (t : Table Key DeinitKind) : fieldsNeedingDrop pkg l t = (foundOf pkg t l).reverse.map
      fun p => (p.1, dropTyName (fieldTypeKey pkg p.2)) := by
  rw [foundOf, ← filter_reverse]
  unfold fieldsNeedingDrop
  induction l.reverse with
  | nil => rfl
  | cons p l ih => by_cases hp : fieldTypeKey pkg p.2 ∈ t <;> simp [hp, ih]

/-- **What the table has for a struct** was found when a pass came to it. -/
theorem entry_of_synthetic (h : Sane files) (hs : s ∈ structItems files)
    {l : List (String × String)}
    (hl : (buildTypesNeedingDrop iter files).lookup s.key = some (.synthetic l)) :
    ∃ n j, (structItems files)[j]? = some s ∧ s.key ∉ dropAt iter files n j ∧ l ≠ [] ∧
      l = fieldsNeedingDrop s.pkg (fieldList iter s) (dropAt iter files n j) := by
  obtain ⟨N, heq, -⟩ := loop_eq_tableAt
    (dropRules iter (buildStructFields files)) (structItems files)
    (explicitDeinits (buildModuleIndex files) files)
  unfold buildTypesNeedingDrop at hl
  rw [heq] at hl
  rcases tableAt_origin _ N 0 hl with hstart | ⟨n, j, s', -, hs', hkey, hnot, hfires⟩
  · obtain ⟨_, hkind⟩ := lookup_explicitDeinits hstart
    cases hkind
  · obtain rfl : s' = s := h.eq_of_key (mem_of_getElem? hs') hs hkey
    rw [fires_dropRules h hs] at hfires
    split at hfires
    · cases hfires
    · rename_i hne
      cases hfires
      exact ⟨n, j, hs', hnot, by simpa using hne, rfl⟩

theorem entered_by (hiter : Lists iter) (h : Sane files) {n j : ℕ}
    (hs : (structItems files)[j]? = some s) {f : FieldDecl} (hf : f ∈ s.fields)
    (hknown : KnownAt files n j (fieldTypeKey s.pkg f.ty)) {n' j' : ℕ} (hj : Earlier n j n' j') :
    s.key ∈ dropAt iter files n' j' :=
  (mem_dropAt hiter h n' j' _).2 (.field hj hs hf hknown)

end Passes

end Arth.Derive
