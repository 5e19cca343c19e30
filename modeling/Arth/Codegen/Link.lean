import Arth.Codegen.Emission

/-!
# What the patches do to an instruction

* `Linked` — how a linked instruction relates to the emitted one.
* `linked_forall₂` — the linked program is the emitted one, instruction by instruction.
* `funcOffset_eq_some` — a name resolves to the entry offset of its last function.
-/

namespace Arth.Codegen

open Ir List Option

variable {ctx : Ctx} {funcs : List Func} {name : String}

theorem strIndex_extends (pool : List String) (s : String) : pool <+: (strIndex pool s).2 := by
  unfold strIndex
  split
  · exact prefix_refl pool
  · exact prefix_append pool [s]

theorem strIndex_getElem? (pool : List String) (s : String)
    (h : (strIndex pool s).2.length < 2 ^ 32) :
    (strIndex pool s).2[(strIndex pool s).1.toNat]? = some s := by
  unfold strIndex at h ⊢
  split
  · rename_i i hi
    simp only [hi] at h
    obtain ⟨hlt, heq, -⟩ := findIdx?_eq_some_iff_getElem.1 hi
    rw [UInt32.toNat_ofNat_of_lt' (by simpa using hlt.trans h), getElem?_eq_getElem hlt]
    simpa using heq
  · rename_i hi
    simp only [hi, length_append, length_singleton] at h
    rw [UInt32.toNat_ofNat_of_lt' (by simp only [UInt32.size]; omega)]
    simp

/-- The operand a patch with a known offset stores. -/
def storeCall (off : Nat) : Op → Op
  | .call _ => .call (UInt32.ofNat off)
  | .taskRunBody _ => .taskRunBody (UInt32.ofNat off)
  | op => op

def storeClosure (off : Nat) : Op → Op
  | .closureNew _ n => .closureNew (UInt32.ofNat off) n
  | op => op

/-- How the call and closure patches change an instruction. -/
structure Linked (offsets : String → Option Nat) (strings : List String) (it it' : Item) :
    Prop where
  patch : it'.patch = it.patch
  goal : it'.goal = it.goal
  site : it'.site = it.site
  height : it'.height = it.height
  effect : it'.effect = it.effect
  mark : it'.mark = it.mark
  call : ∀ name off, it.patch = some (.call name) → offsets name = some off →
    it'.op = storeCall off it.op
  symbol : ∀ name, it.patch = some (.call name) → offsets name = none →
    ∃ ix, it'.op = .callSymbol ix ∧ strings[ix.toNat]? = some name
  closure : ∀ name off, it.patch = some (.closure name) → offsets name = some off →
    it'.op = storeClosure off it.op
  unresolved : ∀ name, it.patch = some (.closure name) → offsets name = none → it'.op = it.op
  other : (∀ name, it.patch ≠ some (.call name)) → (∀ name, it.patch ≠ some (.closure name)) →
    it'.op = it.op

variable {offsets : String → Option Nat} {it it' : Item} {i j : Nat} {f : Func}

theorem patchCall_extends (pool : List String) (it : Item) :
    pool <+: (patchCall offsets pool it).2 := by
  unfold patchCall
  split
  · split
    · split <;> exact prefix_refl pool
    · exact strIndex_extends pool _
  · exact prefix_refl pool

theorem patchCalls_extends (pool : List String) (its : List Item) :
    pool <+: (patchCalls offsets pool its).2 := by
  induction its generalizing pool with
  | nil => exact prefix_refl pool
  | cons it its ih => exact (patchCall_extends pool it).trans (ih _)

theorem patch_linked (pool strings : List String) (it : Item)
    (hpool : (patchCall offsets pool it).2 <+: strings) (hlen : strings.length < 2 ^ 32) :
    Linked offsets strings it (patchClosure offsets (patchCall offsets pool it).1) := by
  obtain ⟨op, patch, goal, site, height, effect, mark⟩ := it
  -- an unknown closure stays as it is, an unknown call becomes one by symbol
  match patch with
  | none | some (.block b) =>
    exact ⟨rfl, rfl, rfl, rfl, rfl, rfl, nofun, nofun, nofun, nofun, fun _ _ => rfl⟩
  | some (.closure name) =>
    cases hoff : offsets name with
    | none =>
      have heq : patchClosure offsets (patchCall offsets pool
          ⟨op, some (.closure name), goal, site, height, effect, mark⟩).1 =
          ⟨op, some (.closure name), goal, site, height, effect, mark⟩ := by
        simp [patchClosure, patchCall, hoff]
      rw [heq]
      refine ⟨rfl, rfl, rfl, rfl, rfl, rfl, nofun, nofun, ?_, fun _ _ _ => rfl, fun _ _ => rfl⟩
      rintro _ off ⟨⟩ h
      rw [hoff] at h
      cases h
    | some off =>
      have heq : patchClosure offsets (patchCall offsets pool
          ⟨op, some (.closure name), goal, site, height, effect, mark⟩).1 =
          ⟨storeClosure off op, some (.closure name), goal, site, height, effect, mark⟩ := by
        simp only [patchClosure, patchCall, hoff]
        cases op <;> rfl
      rw [heq]
      refine ⟨rfl, rfl, rfl, rfl, rfl, rfl, nofun, nofun, ?_, ?_, fun _ h => absurd rfl (h name)⟩
      · rintro _ _ ⟨⟩ h
        rw [hoff] at h
        cases h
        rfl
      · rintro _ ⟨⟩ h
        rw [hoff] at h
        cases h
  | some (.call name) =>
    cases hoff : offsets name with
    | none =>
      have hix := strIndex_getElem? pool name
      simp only [patchCall, hoff] at hpool
      have heq : patchClosure offsets (patchCall offsets pool
          ⟨op, some (.call name), goal, site, height, effect, mark⟩).1 =
          ⟨.callSymbol (strIndex pool name).1, some (.call name), goal, site, height, effect, mark⟩ := by
        simp [patchClosure, patchCall, hoff]
      rw [heq]
      refine ⟨rfl, rfl, rfl, rfl, rfl, rfl, ?_, ?_, nofun, nofun, fun h => absurd rfl (h name)⟩
      · rintro _ _ ⟨⟩ h
        rw [hoff] at h
        cases h
      · rintro _ ⟨⟩ -
        refine ⟨_, rfl, ?_⟩
        have hget := hix (Nat.lt_of_le_of_lt hpool.length_le hlen)
        obtain ⟨hlt, heq⟩ := List.getElem?_eq_some_iff.1 hget
        rw [prefix_iff_getElem?.1 hpool _ hlt, heq]
    | some off =>
      have heq : patchClosure offsets (patchCall offsets pool
          ⟨op, some (.call name), goal, site, height, effect, mark⟩).1 =
          ⟨storeCall off op, some (.call name), goal, site, height, effect, mark⟩ := by
        simp only [patchCall, hoff]
        cases op <;> rfl
      rw [heq]
      refine ⟨rfl, rfl, rfl, rfl, rfl, rfl, ?_, ?_, nofun, nofun, fun h => absurd rfl (h name)⟩
      · rintro _ _ ⟨⟩ h
        rw [hoff] at h
        cases h
        rfl
      · rintro _ ⟨⟩ h
        rw [hoff] at h
        cases h

/-! ## The program -/

theorem patchCalls_forall₂ (strings : List String) (hlen : strings.length < 2 ^ 32)
    (its : List Item) (pool : List String) (hpool : (patchCalls offsets pool its).2 <+: strings) :
    Forall₂ (Linked offsets strings) its
      ((patchCalls offsets pool its).1.map (patchClosure offsets)) := by
  induction its generalizing pool with
  | nil => exact .nil
  | cons it its ih =>
    refine .cons (patch_linked pool strings it ?_ hlen) (ih _ hpool)
    exact (patchCalls_extends _ its).trans hpool

/-- The emitted code of the whole program. -/
def unlinkedItems (ctx : Ctx) (funcs : List Func) : List Item :=
  (unlinked ctx funcs).flatMap (·.items)

/-- The offset a name resolves to. -/
def offsetOf (ctx : Ctx) (funcs : List Func) : String → Option Nat :=
  funcOffset funcs (unlinked ctx funcs)

/-- The code and the string table are small enough for the operands of the instructions. -/
structure Fits (ctx : Ctx) (funcs : List Func) : Prop where
  code : (linked ctx funcs).1.length < 2 ^ 32
  strings : (linked ctx funcs).2.length < 2 ^ 32

theorem linked_forall₂ (hfits : Fits ctx funcs) :
    Forall₂ (Linked (offsetOf ctx funcs) (linked ctx funcs).2) (unlinkedItems ctx funcs)
      (linked ctx funcs).1 :=
  patchCalls_forall₂ _ hfits.strings _ _ (prefix_refl _)

theorem patchCalls_length (pool : List String) (its : List Item) :
    (patchCalls offsets pool its).1.length = its.length := by
  induction its generalizing pool with
  | nil => rfl
  | cons it its ih => simp [patchCalls, ih]

theorem linked_length : (linked ctx funcs).1.length = (unlinkedItems ctx funcs).length := by
  simp only [linked, length_map, patchCalls_length]
  rfl

theorem linked_getElem? (hfits : Fits ctx funcs) :
    (∀ it, (unlinkedItems ctx funcs)[i]? = some it → ∃ it', (linked ctx funcs).1[i]? = some it' ∧
        Linked (offsetOf ctx funcs) (linked ctx funcs).2 it it') ∧
    ∀ it', (linked ctx funcs).1[i]? = some it' → ∃ it, (unlinkedItems ctx funcs)[i]? = some it ∧
        Linked (offsetOf ctx funcs) (linked ctx funcs).2 it it' := by
  have h := linked_forall₂ hfits
  constructor
  · intro it hit
    obtain ⟨hlt, rfl⟩ := List.getElem?_eq_some_iff.1 hit
    have hlt' : i < (linked ctx funcs).1.length := h.length_eq ▸ hlt
    exact ⟨_, getElem?_eq_getElem hlt', h.get hlt hlt'⟩
  · intro it' hit'
    obtain ⟨hlt', rfl⟩ := List.getElem?_eq_some_iff.1 hit'
    have hlt : i < (unlinkedItems ctx funcs).length := h.length_eq ▸ hlt'
    exact ⟨_, getElem?_eq_getElem hlt, h.get hlt hlt'⟩

/-- Function `j` is the last one of its name. -/
structure IsLast (funcs : List Func) (j : Nat) (name : String) : Prop where
  named : ∃ f, funcs[j]? = some f ∧ f.name = name
  last : ∀ i f, j < i → funcs[i]? = some f → f.name ≠ name

theorem IsLast.unique (hi : IsLast funcs i name) (hj : IsLast funcs j name) : i = j := by
  obtain ⟨f, hf, hname⟩ := hi.named
  obtain ⟨f', hf', hname'⟩ := hj.named
  rcases Nat.lt_trichotomy i j with h | h | h
  · exact absurd hname' (hi.last j f' h hf')
  · exact h
  · exact absurd hname (hj.last i f h hf)

theorem unlinked_length (ctx : Ctx) : (unlinked ctx funcs).length = funcs.length := genFuncs_length ..

theorem zip_getElem? (ctx : Ctx) (hj : funcs[j]? = some f) :
    ∃ fc, (funcs.zip (unlinked ctx funcs))[j]? = some (f, fc) := by
  have hlt : j < (unlinked ctx funcs).length := by
    rw [unlinked_length]
    exact (List.getElem?_eq_some_iff.1 hj).1
  exact ⟨_, getElem?_zip_eq_some.2 ⟨hj, getElem?_eq_getElem hlt⟩⟩

theorem offsetOf_ne_none (hj : funcs[j]? = some f) : offsetOf ctx funcs f.name ≠ none := by
  intro h
  obtain ⟨fc, he⟩ := zip_getElem? ctx hj
  rw [offsetOf, funcOffset, map_eq_none_iff, find?_eq_none] at h
  exact h _ (mem_reverse.2 (mem_of_getElem? he)) (by simp)

theorem offsetOf_eq_some {off : Nat} : offsetOf ctx funcs name = some off ↔
      ∃ j, IsLast funcs j name ∧ off = entryOffset ctx funcs j := by
  have key : ∀ off, offsetOf ctx funcs name = some off →
      ∃ j, IsLast funcs j name ∧ off = entryOffset ctx funcs j := by
    intro off h
    obtain ⟨⟨f, fc⟩, hfind, rfl⟩ := map_eq_some_iff.1 h
    obtain ⟨hname, as, bs, hrev, has⟩ := find?_eq_some_iff_append.1 hfind
    have hzip : funcs.zip (unlinked ctx funcs) = bs.reverse ++ (f, fc) :: as.reverse := by
      rw [← reverse_reverse (funcs.zip _), hrev]
      simp
    have hget : ∀ (i : Nat) (e : Func × FuncCode), (funcs.zip (unlinked ctx funcs))[i]? = some e →
        funcs[i]? = some e.1 ∧ (unlinked ctx funcs)[i]? = some e.2 := by
      rintro i ⟨f', fc'⟩ he
      exact getElem?_zip_eq_some.1 he
    obtain ⟨hf, hfc⟩ := hget bs.length (f, fc) (by rw [hzip]; simp)
    refine ⟨bs.length, ⟨⟨f, hf, by simpa using hname⟩, ?_⟩, ?_⟩
    · intro i f' hi hf'
      obtain ⟨fc', he⟩ := zip_getElem? ctx hf'
      rw [hzip, getElem?_append_right (by simpa using hi.le), length_reverse,
        show i - bs.length = (i - bs.length - 1) + 1 by omega, getElem?_cons_succ] at he
      have := has _ (mem_reverse.1 (mem_of_getElem? he))
      simpa using this
    · obtain ⟨pool, hpool⟩ := unlinked_getElem? ctx hf
      rw [hfc] at hpool
      exact congrArg FuncCode.offset (some.inj hpool)
  refine ⟨key off, ?_⟩
  rintro ⟨j, hj, rfl⟩
  obtain ⟨f, hf, hname⟩ := hj.named
  cases h : offsetOf ctx funcs name with
  | some off =>
    obtain ⟨i, hi, rfl⟩ := key off h
    rw [hi.unique hj]
  | none =>
    exact absurd (hname ▸ h) (offsetOf_ne_none hf)

theorem offsetOf_eq_none : offsetOf ctx funcs name = none ↔ ∀ f ∈ funcs, f.name ≠ name := by
  constructor
  · intro h f hf hname
    obtain ⟨j, hj⟩ := mem_iff_getElem?.1 hf
    exact offsetOf_ne_none hj (hname ▸ h)
  · intro h
    cases hoff : offsetOf ctx funcs name with
    | none => rfl
    | some off =>
      obtain ⟨j, ⟨⟨f, hf, hname⟩, -⟩, -⟩ := offsetOf_eq_some.1 hoff
      exact absurd hname (h f (mem_of_getElem? hf))

/-- Function `j` of the program, and the string table its code generation starts with. -/
structure FuncAt (ctx : Ctx) (funcs : List Func) (j : Nat) (f : Func) (pool : List String) :
    Prop where
  func : funcs[j]? = some f
  code : (unlinked ctx funcs)[j]? = some (genFunc ctx j (entryOffset ctx funcs j) pool f)

theorem FuncAt.exists (ctx : Ctx) (hj : funcs[j]? = some f) :
    ∃ pool, FuncAt ctx funcs j f pool := by
  obtain ⟨pool, h⟩ := unlinked_getElem? ctx hj
  exact ⟨pool, hj, h⟩

variable {j : Nat} {f : Func} {pool : List String}

theorem entryOffset_succ (h : FuncAt ctx funcs j f pool) : entryOffset ctx funcs (j + 1) =
      entryOffset ctx funcs j + (genFunc ctx j (entryOffset ctx funcs j) pool f).items.length := by
  rw [entryOffset, take_add_one, h.code, toList_some, flatMap_append,
    length_append, flatMap_singleton]
  rfl

theorem entryOffset_le (ctx : Ctx) (funcs : List Func) (j : Nat) :
    entryOffset ctx funcs j ≤ (unlinkedItems ctx funcs).length := by
  have h : unlinkedItems ctx funcs = ((unlinked ctx funcs).take j).flatMap (·.items) ++
      ((unlinked ctx funcs).drop j).flatMap (·.items) := by
    rw [← flatMap_append, take_append_drop, unlinkedItems]
  rw [h, length_append, entryOffset]
  omega

theorem funcEnd_pos_le (h : FuncAt ctx funcs j f pool) :
    (funcEnd ctx j (entryOffset ctx funcs j) pool f).pos ≤ (unlinkedItems ctx funcs).length := by
  rw [funcEnd_pos, ← entryOffset_succ h]
  exact entryOffset_le ctx funcs (j + 1)

theorem FuncAt.linked (h : FuncAt ctx funcs j f pool) (hfits : Fits ctx funcs)
    (hit : it ∈ (funcEnd ctx j (entryOffset ctx funcs j) pool f).code) :
    ∃ it' ∈ (Codegen.linked ctx funcs).1, Linked (offsetOf ctx funcs) (Codegen.linked ctx funcs).2
      (patchJump (genFunc ctx j (entryOffset ctx funcs j) pool f).blockOffset it) it' := by
  have hmem : patchJump (genFunc ctx j (entryOffset ctx funcs j) pool f).blockOffset it ∈
      unlinkedItems ctx funcs :=
    mem_flatMap.2 ⟨_, mem_of_getElem? h.code, genFunc_items ▸ mem_map_of_mem hit⟩
  obtain ⟨i, hi⟩ := mem_iff_getElem?.1 hmem
  obtain ⟨it', hit', hlinked⟩ := (linked_getElem? hfits).1 _ hi
  exact ⟨it', mem_of_getElem? hit', hlinked⟩

theorem linked_origin (hfits : Fits ctx funcs) (hit' : it' ∈ (linked ctx funcs).1) :
    ∃ j f pool, FuncAt ctx funcs j f pool ∧
      ∃ it ∈ (funcEnd ctx j (entryOffset ctx funcs j) pool f).code,
        Linked (offsetOf ctx funcs) (linked ctx funcs).2
          (patchJump (genFunc ctx j (entryOffset ctx funcs j) pool f).blockOffset it) it' := by
  obtain ⟨i, hi⟩ := mem_iff_getElem?.1 hit'
  obtain ⟨it₁, hit₁, hlinked⟩ := (linked_getElem? hfits).2 _ hi
  obtain ⟨fc, hfc, hmem⟩ := mem_flatMap.1 (mem_of_getElem? hit₁)
  obtain ⟨j, hj⟩ := mem_iff_getElem?.1 hfc
  have hlt : j < funcs.length := by
    rw [← unlinked_length ctx]
    exact (List.getElem?_eq_some_iff.1 hj).1
  obtain ⟨pool, h⟩ := FuncAt.exists ctx (getElem?_eq_getElem hlt)
  cases hj.symm.trans h.code
  obtain ⟨it, hit, rfl⟩ := mem_map.1 hmem
  exact ⟨j, _, pool, h, it, hit, hlinked⟩

end Arth.Codegen
