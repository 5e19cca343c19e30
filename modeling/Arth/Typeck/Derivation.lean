import Arth.Typeck.Droppable

/-!
# When the derived tables are exact

The set of droppable types and the derived `Copy` are the fixpoints that they aim at, for every order
of files, declarations and maps. The lists of fields in the table are not: a struct is entered at the
first field that is found droppable, and the order is that of a hash map.

* `dropList_iff` — when the entry of a struct is its list.
* `copyExact_of_sane` — `Copy` is derived exactly for the structs without a deinit whose fields are
  all copied.
* `exact_iff` — both tables are what they should be exactly when every struct is complete and in
  order.
-/

namespace Arth.Derive

open KeyTable Passes List

theorem eq_of_map_eq {α β : Type*} {g : α → β} {l₁ l₂ : List α}
    (hg : ∀ x ∈ l₁, ∀ y ∈ l₂, g x = g y → x = y) (h : l₁.map g = l₂.map g) : l₁ = l₂ := by
  induction l₁ generalizing l₂ with
  | nil => exact (map_eq_nil_iff.1 h.symm).symm
  | cons x l₁ ih =>
    cases l₂ with
    | nil => cases h
    | cons y l₂ =>
      rw [map_cons, map_cons, cons.injEq] at h
      have hxy := hg x mem_cons_self y mem_cons_self h.1
      have htail := ih (fun a ha b hb =>
        hg a (mem_cons_of_mem _ ha) b (mem_cons_of_mem _ hb)) h.2
      rw [hxy, htail]

section Drop

variable {iter : Table String TypeName → List (String × TypeName)} {files : List File} {n j : ℕ}

variable (files) in
/-- Whenever a pass comes to the struct and the type of one field has been found, those of all
droppable fields have. -/
def Complete (s : StructItem) (j : ℕ) : Prop :=
  ∀ n, (∃ f ∈ s.fields, KnownAt files n j (fieldTypeKey s.pkg f.ty)) →
    ∀ f ∈ s.fields, Droppable files (fieldTypeKey s.pkg f.ty) →
      KnownAt files n j (fieldTypeKey s.pkg f.ty)

variable (iter files) in
/-- The map lists the droppable fields of the struct in the order of declaration. -/
def InOrder (s : StructItem) : Prop :=
  droppableOf files s.pkg (fieldList iter s) =
    droppableOf files s.pkg (s.fields.map FieldDecl.entry)

theorem KnownAt.mono {i n' i' : ℕ} {k : Key} (h : KnownAt files n i k)
    (hle : n < n' ∨ n = n' ∧ i ≤ i') : KnownAt files n' i' k := by
  cases h with
  | own hown => exact .own hown
  | field hj hs hf hk =>
    refine .field ?_ hs hf hk
    unfold Earlier at hj ⊢
    omega

variable {s : StructItem}

theorem Sane.index_eq (h : Sane files) {j' : ℕ}
    (hj : (structItems files)[j]? = some s) (hj' : (structItems files)[j']? = some s) : j = j' := by
  have hnodup : (structItems files).Nodup := h.items.of_map _
  obtain ⟨hlt, rfl⟩ := List.getElem?_eq_some_iff.1 hj
  obtain ⟨hlt', heq⟩ := List.getElem?_eq_some_iff.1 hj'
  exact (hnodup.getElem_inj_iff.1 heq).symm

theorem synthetic_of_mem (h : Sane files) (hs : s ∈ structItems files)
    (hown : ¬OwnDeinit files s.key) (hmem : s.key ∈ buildTypesNeedingDrop iter files) :
    ∃ l, (buildTypesNeedingDrop iter files).lookup s.key = some (.synthetic l) := by
  obtain ⟨kind, hkind⟩ := (mem_iff_lookup _ _).1 hmem
  obtain ⟨N, heq, -⟩ := loop_eq_tableAt
    (dropRules iter (buildStructFields files)) (structItems files)
    (explicitDeinits (buildModuleIndex files) files)
  have horigin := hkind
  unfold buildTypesNeedingDrop at horigin
  rw [heq] at horigin
  rcases tableAt_origin _ N 0 horigin with hstart | ⟨n, j, s', -, hs', hkey, -, hfires⟩
  · exact absurd (mem_explicitDeinits.1 ((mem_iff_lookup _ _).2 ⟨kind, hstart⟩)) hown
  · obtain rfl : s' = s := h.eq_of_key (mem_of_getElem? hs') hs hkey
    rw [fires_dropRules h hs] at hfires
    split at hfires
    · cases hfires
    · cases hfires
      exact ⟨_, hkind⟩

theorem foundOf_eq_of_dropList (hiter : Lists iter) (h : Sane files)
    (hs : s ∈ structItems files) {t : Table Key DeinitKind}
    (heq : fieldsNeedingDrop s.pkg (fieldList iter s) t = dropList files s) :
    foundOf s.pkg t (fieldList iter s) =
      droppableOf files s.pkg (s.fields.map FieldDecl.entry) := by
  have hperm := perm_fieldList hiter h hs
  have hnodup : ((s.fields.map FieldDecl.entry).map Prod.fst).Nodup := by
    simpa [FieldDecl.entry, Function.comp_def] using h.fields s hs
  rw [fieldsNeedingDrop_eq, dropList] at heq
  refine reverse_injective (eq_of_map_eq ?_ heq)
  intro p hp q hq hpq
  have hp' := hperm.mem_iff.1 (mem_foundOf.1 (mem_reverse.1 hp)).1
  have hq' := (mem_droppableOf.1 (mem_reverse.1 hq)).1
  have hname : p.1 = q.1 := (Prod.mk.injEq _ _ _ _ ▸ hpq).1
  exact inj_on_of_nodup_map hnodup hp' hq' hname

theorem known_of_foundOf_eq (hiter : Lists iter) (h : Sane files)
    (heq : foundOf s.pkg (dropAt iter files n j) (fieldList iter s) =
      droppableOf files s.pkg (s.fields.map FieldDecl.entry))
    {f : FieldDecl} (hf : f ∈ s.fields) (hdrop : Droppable files (fieldTypeKey s.pkg f.ty)) :
    KnownAt files n j (fieldTypeKey s.pkg f.ty) := by
  have hin : f.entry ∈ foundOf s.pkg (dropAt iter files n j) (fieldList iter s) := by
    rw [heq]
    exact mem_droppableOf.2 ⟨mem_map.2 ⟨f, hf, rfl⟩, hdrop⟩
  exact (mem_dropAt hiter h n j _).1 (mem_foundOf.1 hin).2

/-- **When the entry of a struct is its list.** -/
theorem dropList_iff (hiter : Lists iter) (h : Sane files)
    (hj : (structItems files)[j]? = some s) (hown : ¬OwnDeinit files s.key) :
    (∀ l, (buildTypesNeedingDrop iter files).lookup s.key = some (.synthetic l) →
      l = dropList files s) ↔ Complete files s j ∧ InOrder iter files s := by
  have hs := mem_of_getElem? hj
  have hperm := perm_fieldList hiter h hs
  constructor
  · intro hall
    -- the fields found when the struct was entered are all the droppable ones
    have hentered : s.key ∈ buildTypesNeedingDrop iter files → ∃ n, s.key ∉ dropAt iter files n j ∧
          foundOf s.pkg (dropAt iter files n j) (fieldList iter s) =
            droppableOf files s.pkg (s.fields.map FieldDecl.entry) := by
      intro hmem
      obtain ⟨l, hl⟩ := synthetic_of_mem h hs hown hmem
      obtain ⟨n, j', hj', hnot, -, heq⟩ := entry_of_synthetic h hs hl
      obtain rfl := h.index_eq hj hj'
      exact ⟨n, hnot, foundOf_eq_of_dropList hiter h hs (heq.symm.trans (hall l hl))⟩
    constructor
    · intro m ⟨f, hf, hknown⟩ g hg hdrop
      have hmem : s.key ∈ buildTypesNeedingDrop iter files :=
        (mem_buildTypesNeedingDrop hiter h _).2 (.field hs hf hknown.droppable)
      obtain ⟨n, hnot, heq⟩ := hentered hmem
      have hle : n ≤ m := by
        by_contra hlt
        exact hnot (entered_by hiter h hj hf hknown (.inl (by omega)))
      refine (known_of_foundOf_eq hiter h heq hg hdrop).mono ?_
      omega
    · by_cases hmem : s.key ∈ buildTypesNeedingDrop iter files
      · obtain ⟨n, -, heq⟩ := hentered hmem
        refine (foundOf_eq fun q hq => ?_).symm.trans heq
        obtain ⟨g, hg, rfl⟩ := mem_map.1 (hperm.mem_iff.1 hq)
        constructor
        · exact fun hin => ((mem_dropAt hiter h n j _).1 hin).droppable
        · exact fun hdrop =>
            (mem_dropAt hiter h n j _).2 (known_of_foundOf_eq hiter h heq hg hdrop)
      · have hnone : ∀ l : List (String × TypeName), (∀ p ∈ l, p ∈ s.fields.map FieldDecl.entry) →
            droppableOf files s.pkg l = [] := by
          intro l hl
          refine eq_nil_iff_forall_not_mem.2 fun p hp => ?_
          obtain ⟨hpl, hdrop⟩ := mem_droppableOf.1 hp
          obtain ⟨f, hf, rfl⟩ := mem_map.1 (hl p hpl)
          exact hmem ((mem_buildTypesNeedingDrop hiter h _).2 (.field hs hf hdrop))
        exact (hnone _ fun p hp => hperm.mem_iff.1 hp).trans (hnone _ fun p hp => hp).symm
  · rintro ⟨hcomplete, horder⟩ l hl
    obtain ⟨n, j', hj', hnot, hne, rfl⟩ := entry_of_synthetic h hs hl
    obtain rfl := h.index_eq hj hj'
    obtain ⟨p, hp, hin⟩ := mem_fieldsNeedingDrop.1 hne
    obtain ⟨f, hf, rfl⟩ := mem_map.1 (hperm.mem_iff.1 hp)
    have hknown := hcomplete n ⟨f, hf, (mem_dropAt hiter h n j _).1 hin⟩
    rw [fieldsNeedingDrop_eq, dropList, ← horder]
    congr 2
    refine foundOf_eq fun q hq => ?_
    obtain ⟨g, hg, rfl⟩ := mem_map.1 (hperm.mem_iff.1 hq)
    constructor
    · exact fun hin => ((mem_dropAt hiter h n j _).1 hin).droppable
    · exact fun hdrop => (mem_dropAt hiter h n j _).2 (hknown g hg hdrop)

end Drop

/-! ## Copy -/

variable {s : StructItem}

section Copy

variable {files : List File} {drop : Table Key DeinitKind}

theorem isFieldTypeCopy_mono {ty : TypeName} {pkg : String} {t t' : Table Key CopyKind}
    (hle : Extends t' t) (h : isFieldTypeCopy ty pkg t = true) :
    isFieldTypeCopy ty pkg t' = true := by
  unfold isFieldTypeCopy at h ⊢
  split
  · rfl
  · rename_i hprim
    rw [if_neg hprim] at h
    split
    · rename_i howned
      rwa [if_pos howned] at h
    · rename_i howned
      rw [if_neg howned, decide_eq_true_iff] at h
      exact decide_eq_true (hle.mem h)

theorem eq_of_nodup_filterMap {α β : Type*} {f : α → Option β} {l : List α}
    (h : (l.filterMap f).Nodup) {a b : α} (ha : a ∈ l) (hb : b ∈ l) {k : β} (hfa : f a = some k)
    (hfb : f b = some k) : a = b := by
  induction l with
  | nil => cases ha
  | cons c l ih =>
    have hmem : ∀ d ∈ l, f d = some k → k ∈ l.filterMap f :=
      fun d hd hfd => mem_filterMap.2 ⟨d, hd, hfd⟩
    rw [filterMap_cons] at h
    rcases mem_cons.1 ha with rfl | ha' <;> rcases mem_cons.1 hb with rfl | hb'
    · rfl
    · rw [hfa] at h
      exact absurd (hmem b hb' hfb) (nodup_cons.1 h).1
    · rw [hfb] at h
      exact absurd (hmem a ha' hfa) (nodup_cons.1 h).1
    · refine ih ?_ ha' hb'
      split at h
      · exact h
      · exact (nodup_cons.1 h).2

theorem providerCopies_eq (files : List File) (t : Table Key CopyKind) :
    providerCopies files t = (allDecls files).foldl (enter fun a : String × Decl =>
      match a.2 with
      | .provider name _ => some ((a.1, name), CopyKind.derived)
      | _ => none) t := by
  unfold providerCopies
  congr 1
  funext t ⟨pkg, d⟩
  cases d <;> rfl

theorem lookup_providerCopies (h : Sane files) (hs : s ∈ structItems files)
    (t : Table Key CopyKind) : (providerCopies files t).lookup s.key = t.lookup s.key := by
  rw [providerCopies_eq]
  refine lookup_foldl_enter_free ?_
  rintro ⟨pkg, d⟩ hmem heq
  cases d with
  | provider name fields =>
    have hkey : (pkg, name) = s.key := by simpa using heq
    have hsame := eq_of_nodup_filterMap h.types hmem (mem_structItems.1 hs) (congrArg some hkey) rfl
    cases hsame
  | _ => cases heq

theorem explicitCopies_eq (files : List File) :
    explicitCopies files = (allDecls files).foldl (enter fun a : String × Decl =>
      match a.2 with
      | .module name implements items =>
        if implements.any fun ifc => ifc.last == "Copy" then
          ((inferTargetTypeFromMethods items).or (inferTargetTypeFromModuleName name)).bind
            fun target => if target ≠ "" then some ((a.1, target), CopyKind.explicit) else none
        else none
      | _ => none) ∅ := by
  unfold explicitCopies
  congr 1
  funext t ⟨pkg, d⟩
  cases d with
  | module name implements items =>
    simp only [enter]
    split
    · cases (inferTargetTypeFromMethods items).or (inferTargetTypeFromModuleName name) with
      | none => rfl
      | some target => by_cases htarget : target = "" <;> simp [htarget]
    · rfl
  | _ => rfl

theorem lookup_explicitCopies {k : Key} {kind : CopyKind}
    (h : (explicitCopies files).lookup k = some kind) : kind = .explicit := by
  rw [explicitCopies_eq] at h
  rcases lookup_foldl_enter_origin h with hempty | ⟨⟨pkg, d⟩, -, hf⟩
  · simp at hempty
  · cases d with
    | module name implements items =>
      simp only [] at hf
      split at hf
      · obtain ⟨target, -, hite⟩ := Option.bind_eq_some_iff.1 hf
        split at hite
        · cases hite
          rfl
        · cases hite
      · cases hf
    | _ => cases hf

variable (files drop) in
/-- `Copy` is derived exactly for the structs that are not dropped and whose fields are all copied,
among those without a module that declares it. -/
def CopyExact : Prop :=
  let copy := buildCopyTypes files drop
  ∀ s ∈ structItems files,
    (s.key ∉ explicitCopies files →
      (copy.lookup s.key = some .derived ↔
        s.key ∉ drop ∧ ∀ f ∈ s.fields, isFieldTypeCopy f.ty s.pkg copy = true)) ∧
    (copy.lookup s.key = some .derived → s.key ∉ drop)

/-- **Copy is the fixpoint that it aims at.** -/
theorem copyExact_of_sane (h : Sane files) : CopyExact files drop := by
  unfold CopyExact
  intro copy s hs
  obtain ⟨N, heq, hclosed⟩ := loop_eq_tableAt (copyRules drop) (structItems files)
    (providerCopies files (explicitCopies files))
  have hstart := lookup_providerCopies h hs (explicitCopies files)
  -- a derived entry comes from the rule, at some moment
  have horigin : copy.lookup s.key = some .derived →
      s.key ∉ drop ∧ ∀ f ∈ s.fields, isFieldTypeCopy f.ty s.pkg copy = true := by
    intro hl
    have hl' := hl
    change (loop _ _ _).lookup _ = _ at hl'
    rw [heq] at hl'
    rcases tableAt_origin _ N 0 hl' with hold | ⟨n, j, s', -, hs', hkey, -, hfires⟩
    · rw [hstart] at hold
      cases lookup_explicitCopies hold
    · obtain rfl : s' = s := h.eq_of_key (mem_of_getElem? hs') hs hkey
      simp only [copyRules] at hfires
      split at hfires
      · cases hfires
      · rename_i hdrop
        split at hfires
        · rename_i hall
          refine ⟨hdrop, fun f hf => ?_⟩
          exact isFieldTypeCopy_mono (extends_loop _ n j) (all_eq_true.1 hall f hf)
        · cases hfires
  refine ⟨fun hexplicit => ⟨horigin, ?_⟩, fun hl => (horigin hl).1⟩
  rintro ⟨hdrop, hall⟩
  have hfires : (copyRules drop).fires copy s = some .derived := by
    simp only [copyRules]
    rw [if_neg hdrop, if_pos (all_eq_true.2 hall)]
  rcases hclosed s hs with hin | hnone
  · obtain ⟨kind, hkind⟩ := (mem_iff_lookup _ _).1 hin
    have hkind' := hkind
    rw [heq] at hkind'
    rcases tableAt_origin _ N 0 hkind' with hold | ⟨n, j, s', -, -, -, -, hfires'⟩
    · exact absurd ((mem_iff_lookup _ _).2 ⟨kind, hstart.symm.trans hold⟩) hexplicit
    · cases kind with
      | derived => exact hkind
      | explicit =>
        simp only [copyRules] at hfires'
        split at hfires'
        · cases hfires'
        · split at hfires' <;> cases hfires'
  · rw [show (copyRules drop).fires (loop _ _ _) s = some .derived from hfires] at hnone
    cases hnone

end Copy

section Exact

variable (iter : Table String TypeName → List (String × TypeName)) (files : List File)

/-- The droppable types, and for each struct without a deinit of its own all its droppable fields in
the reverse of the order of declaration. -/
def DropExact : Prop :=
  let result := buildTypesNeedingDrop iter files
  (∀ k, k ∈ result ↔ Droppable files k) ∧
    ∀ s ∈ structItems files, ∀ l, result.lookup s.key = some (.synthetic l) → l = dropList files s

def Exact : Prop :=
  DropExact iter files ∧ CopyExact files (buildTypesNeedingDrop iter files)

variable {iter files}

theorem no_list_of_own (h : Sane files) (hs : s ∈ structItems files)
    (hown : OwnDeinit files s.key) (l : List (String × String)) :
    (buildTypesNeedingDrop iter files).lookup s.key ≠ some (.synthetic l) := by
  intro hl
  obtain ⟨n, j, -, hnot, -⟩ := entry_of_synthetic h hs hl
  exact hnot ((mem_tableAt _ n j _).2 (.inl (mem_explicitDeinits.2 hown)))

/-- **When the derived tables are exact.** The sets always are; the lists are when every struct that
has no deinit of its own is complete and in order. -/
theorem exact_iff (hiter : Lists iter) (h : Sane files) :
    Exact iter files ↔ ∀ j s, (structItems files)[j]? = some s → ¬OwnDeinit files s.key →
      Complete files s j ∧ InOrder iter files s := by
  constructor
  · rintro ⟨⟨-, hlists⟩, -⟩ j s hj hown
    exact (dropList_iff hiter h hj hown).1 (hlists s (mem_of_getElem? hj))
  · intro hall
    refine ⟨⟨mem_buildTypesNeedingDrop hiter h, fun s hs l hl => ?_⟩, copyExact_of_sane h⟩
    by_cases hown : OwnDeinit files s.key
    · exact absurd hl (no_list_of_own h hs hown l)
    · obtain ⟨j, hj⟩ := mem_iff_getElem?.1 hs
      exact (dropList_iff hiter h hj hown).2 (hall j s hj hown) l hl

end Exact

/-- A map listed in the order in which it was filled. -/
def filledOrder (t : Table String TypeName) : List (String × TypeName) :=
  (t.entries.map fun e => (e.1, e.2)).reverse

theorem lists_filledOrder : Lists filledOrder :=
  fun _ => reverse_perm _

def plainType (name : String) : TypeName := ⟨⟨[], name⟩, false⟩

/-- `struct A { B b; C c; }`, `struct C { B b; }` and `struct B { }` with a deinit, in this order. -/
def lateFiles : List File :=
  [⟨some "demo", [.struct "A" [⟨"b", plainType "B"⟩, ⟨"c", plainType "C"⟩],
    .struct "C" [⟨"b", plainType "B"⟩], .struct "B" [],
    .module "BFns" [] [⟨"deinit", [plainType "B"]⟩]]⟩]

theorem sane_lateFiles : Sane lateFiles :=
  ⟨by decide, by decide⟩

theorem own_lateFiles (k : Key) : OwnDeinit lateFiles k ↔ k = ("demo", "B") := by
  rw [← mem_explicitDeinits]
  have hkeys : (explicitDeinits (buildModuleIndex lateFiles) lateFiles).keys =
      [("demo", "B")] := by decide
  rw [AList.mem_keys, hkeys, mem_singleton]

/-- **A field that is never dropped.** The struct `A` is entered with its field `b` before `C` is
found droppable, so the list of `A` lacks `c`. -/
theorem late_field_missing : Sane lateFiles ∧ Lists filledOrder ∧ ¬Exact filledOrder lateFiles := by
  refine ⟨sane_lateFiles, lists_filledOrder, fun ⟨⟨_, hlists⟩, _⟩ => ?_⟩
  have hA : (structItems lateFiles)[0]? =
      some ⟨"demo", "A", [⟨"b", plainType "B"⟩, ⟨"c", plainType "C"⟩]⟩ := by decide
  have hC : (structItems lateFiles)[1]? = some ⟨"demo", "C", [⟨"b", plainType "B"⟩]⟩ := by decide
  have hB : OwnDeinit lateFiles ("demo", "B") := (own_lateFiles _).2 rfl
  have hown : ¬OwnDeinit lateFiles ("demo", "A") := by
    rw [own_lateFiles]
    decide
  have hcomplete := ((dropList_iff lists_filledOrder sane_lateFiles hA hown).1
    (hlists _ (mem_of_getElem? hA))).1
  have hdrop : Droppable lateFiles ("demo", "C") :=
    .field (f := ⟨"b", plainType "B"⟩) (mem_of_getElem? hC) (by simp) (.own hB)
  have hknown : KnownAt lateFiles 0 0 ("demo", "C") :=
    hcomplete 0 ⟨⟨"b", plainType "B"⟩, by simp, .own hB⟩ ⟨"c", plainType "C"⟩ (by simp) hdrop
  -- nothing but the types with a deinit of their own is known at the start
  have hstart := (mem_dropAt lists_filledOrder sane_lateFiles 0 0 _).2 hknown
  exact absurd ((own_lateFiles _).1 (mem_explicitDeinits.1 hstart)) (by decide)

theorem lateFiles_exact_iff :
    Exact filledOrder lateFiles ↔ ∀ j s, (structItems lateFiles)[j]? = some s →
      ¬OwnDeinit lateFiles s.key → Complete lateFiles s j ∧ InOrder filledOrder lateFiles s :=
  exact_iff lists_filledOrder sane_lateFiles

end Arth.Derive
