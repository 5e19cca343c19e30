import Arth.Vm.Heap

/-!
# Handles and their kinds

* `Live` — the handles of each kind; `live_run` — how an operation changes them.
* `HandlesOk` — no handle is of two kinds, and every handle is classified as its kind.
* `handlesOk_iff` — exactly the runs in which that holds throughout.
-/

namespace Arth

open Option

/-- The kinds of cells the heap allocates. -/
inductive HandleKind where
  | list | map | opt | shared | closure | struct | rc | enum | json | file
  deriving DecidableEq

/-- The integer is a live handle of the kind. -/
def Live (m : Heap) : HandleKind → Int64 → Prop
  | .list => m.lists.Live
  | .map => m.maps.Live
  | .opt => m.opts.Live
  | .shared => m.shared.Live
  | .closure => m.closures.Live
  | .struct => m.structs.Live
  | .rc => m.rcs.Live
  | .enum => m.enums.Live
  | .json => m.jsons.Live
  | .file => m.files.Live

/-- The classification of the integer is that of the kind. -/
structure Classified (k : HandleKind) (h : Int64) : Prop where
  list : isListHandle h = true ↔ k = .list
  map : isMapHandle h = true ↔ k = .map
  opt : isOptHandle h = true ↔ k = .opt
  struct : isStructHandle h = true ↔ k = .struct
  json : isJsonHandle h = true ↔ k = .json

/-- No integer is a live handle of two kinds, and every live handle is classified as the
kind that allocated it. -/
structure HandlesOk (m : Heap) : Prop where
  disjoint : ∀ h k k', Live m k h → Live m k' h → k = k'
  classified : ∀ h k, Live m k h → Classified k h

/-- The handle an operation makes live. -/
def HeapOp.made (m : Heap) : HeapOp → Option (HandleKind × Int64)
  | .listNew => some (.list, m.lists.next)
  | .mapNew => some (.map, m.maps.next)
  | .mapKeys _ => some (.list, m.lists.next)
  | .optSome _ => some (.opt, m.opts.next)
  | .optNone => some (.opt, m.opts.next)
  | .sharedNew => some (.shared, m.shared.next)
  | .sharedStoreVal h _ => some (.shared, h)
  | .sharedGetByName name =>
    if (m.namedShared.lookup name).isSome then none else some (.shared, m.shared.next)
  | .closureNew _ => some (.closure, m.closures.next)
  | .structNew _ _ => some (.struct, m.structs.next)
  | .enumNew _ _ _ _ => some (.enum, m.enums.next)
  | .rcAlloc _ => some (.rc, m.rcs.next)
  | .jsonParseAndStore parsed => parsed.map fun _ => (.json, m.jsons.next)
  | .jsonGetField h key => (m.jsonField h key).map fun _ => (.json, m.jsons.next)
  | .jsonGetIndex h idx => (m.jsonElem h idx).map fun _ => (.json, m.jsons.next)
  | .jsonGetFieldAsValue h key =>
    ((m.jsonField h key).filter JsonVal.isNested).map fun _ => (.json, m.jsons.next)
  | .fileOpen opened => if opened then some (.file, m.files.next) else none
  | _ => none

/-- The handle an operation frees. -/
def HeapOp.freed (m : Heap) : HeapOp → Option (HandleKind × Int64)
  | .rcDec h => if (m.rcs.cells h).any (·.count - 1 = 0) then some (.rc, h) else none
  | .fileClose h => some (.file, h)
  | _ => none

variable {m : Heap} {op : HeapOp} {k : HandleKind} {h : Int64} {e : HandleKind × Int64}

theorem live_jsonParseAndStore (parsed : Option JsonVal) : Live (m.jsonParseAndStore parsed) k h ↔
      (parsed.map fun _ => (HandleKind.json, m.jsons.next)) = some (k, h) ∨ Live m k h := by
  cases parsed with
  | none => simp [Heap.jsonParseAndStore]
  | some v =>
    cases k <;> simp [Heap.jsonParseAndStore, Live, HandleStore.live_alloc, eq_comm]

/-- **One operation** adds the handle it makes and removes the one it frees. -/
theorem live_run : Live (op.run m) k h ↔
    op.made m = some (k, h) ∨ Live m k h ∧ op.freed m ≠ some (k, h) := by
  cases op with
  | rcDec h' =>
    simp only [HeapOp.run, Heap.rcDec, HeapOp.made, HeapOp.freed]
    cases hc : m.rcs.cells h' with
    | none => simp
    | some c =>
      by_cases hcount : c.count - 1 = 0
      · cases k <;> simp [hcount, Live, HandleStore.live_erase, eq_comm]
      · have hlive : m.rcs.Live h' := by simp [HandleStore.Live, hc]
        have hinsert : ∀ c', (m.rcs.insert h' c').Live h ↔ m.rcs.Live h := by
          intro c'
          rw [HandleStore.live_insert]
          exact ⟨fun hh => hh.elim (fun heq => heq ▸ hlive) id, .inr⟩
        cases k <;> simp [hcount, Live, hinsert]
  | sharedGetByName name =>
    simp only [HeapOp.run, Heap.sharedGetByName, HeapOp.made, HeapOp.freed]
    cases hn : m.namedShared.lookup name with
    | some i => simp
    | none => cases k <;> simp [Heap.sharedNew, Live, HandleStore.live_alloc, eq_comm]
  | structCopy dest src =>
    simp only [HeapOp.run, Heap.structCopy, HeapOp.made, HeapOp.freed]
    cases m.structs.cells src with
    | none => simp
    | some s => cases k <;> simp [Live, HandleStore.live_modify]
  | fileOpen opened =>
    cases opened <;> cases k <;>
      simp [HeapOp.run, Heap.fileOpen, HeapOp.made, HeapOp.freed, Live, HandleStore.live_alloc,
        eq_comm]
  | fileClose h' =>
    cases k <;> simp [HeapOp.run, Heap.fileClose, HeapOp.made, HeapOp.freed, Live,
      HandleStore.live_erase, eq_comm]
  | jsonParseAndStore parsed =>
    simpa [HeapOp.run, Heap.jsonGetField, Heap.jsonGetIndex, Heap.jsonGetFieldAsValue, HeapOp.made,
      HeapOp.freed] using live_jsonParseAndStore parsed
  | jsonGetField h' key =>
    simpa [HeapOp.run, Heap.jsonGetField, Heap.jsonGetIndex, Heap.jsonGetFieldAsValue, HeapOp.made,
      HeapOp.freed] using live_jsonParseAndStore (m.jsonField h' key)
  | jsonGetIndex h' idx =>
    simpa [HeapOp.run, Heap.jsonGetField, Heap.jsonGetIndex, Heap.jsonGetFieldAsValue, HeapOp.made,
      HeapOp.freed] using live_jsonParseAndStore (m.jsonElem h' idx)
  | jsonGetFieldAsValue h' key =>
    simpa [HeapOp.run, Heap.jsonGetField, Heap.jsonGetIndex, Heap.jsonGetFieldAsValue, HeapOp.made,
      HeapOp.freed] using
      live_jsonParseAndStore ((m.jsonField h' key).filter JsonVal.isNested)
  | sharedStoreVal h' v =>
    cases k <;> simp [HeapOp.run, Heap.sharedStoreVal, HeapOp.made, HeapOp.freed, Live,
      HandleStore.live_insert, eq_comm]
  | listNew | mapKeys | mapNew | optSome | optNone | sharedNew | closureNew | structNew | enumNew
  | rcAlloc =>
    cases k <;> simp [HeapOp.run, HeapOp.made, HeapOp.freed, Live, Heap.listNew, Heap.mapKeys,
      Heap.mapNew, Heap.optSome, Heap.optNone, Heap.sharedNew, Heap.closureNew, Heap.structNew,
      Heap.enumNew, Heap.rcAlloc, HandleStore.live_alloc, eq_comm]
  | listPush | listSet | listRemove | closureCapture | structSet | structSetNamed | enumSetPayload
  | rcInc | rcStoreValue =>
    cases k <;> simp [HeapOp.run, HeapOp.made, HeapOp.freed, Live, Heap.listPush, Heap.listSet,
      Heap.listRemove, Heap.closureCapture, Heap.structSet, Heap.structSetNamed,
      Heap.enumSetPayload, Heap.rcInc, Heap.rcStoreValue, HandleStore.live_modify]

theorem freed_of_made (hmade : op.made m = some e) : op.freed m = none := by
  cases op <;> first
    | rfl
    | cases hmade

/-- The integers without a classification. -/
def Unclaimed (h : Int64) : Prop := h < 50000 ∨ 100000 ≤ h ∧ h < 110000

instance (h : Int64) : Decidable (Unclaimed h) := inferInstanceAs (Decidable (_ ∨ _))

/-- The integers that are classified as the kind. -/
def HandleKind.Owns (h : Int64) : HandleKind → Prop
  | .list => 50000 ≤ h ∧ h < 60000
  | .map => 60000 ≤ h ∧ h < 70000
  | .opt => 70000 ≤ h ∧ h < 90000
  | .struct => 90000 ≤ h ∧ h < 100000
  | .json => 110000 ≤ h
  | _ => Unclaimed h

theorem classified_iff : Classified k h ↔ k.Owns h := by
  have hiff : Classified k h ↔ ((isListHandle h = true ↔ k = .list) ∧
      (isMapHandle h = true ↔ k = .map) ∧ (isOptHandle h = true ↔ k = .opt) ∧
      (isStructHandle h = true ↔ k = .struct) ∧ (isJsonHandle h = true ↔ k = .json)) :=
    ⟨fun hc => ⟨hc.list, hc.map, hc.opt, hc.struct, hc.json⟩,
      fun ⟨h₁, h₂, h₃, h₄, h₅⟩ => ⟨h₁, h₂, h₃, h₄, h₅⟩⟩
  have hlit : (50000 : Int64).toInt = 50000 ∧ (60000 : Int64).toInt = 60000 ∧
      (70000 : Int64).toInt = 70000 ∧ (90000 : Int64).toInt = 90000 ∧
      (100000 : Int64).toInt = 100000 ∧ (110000 : Int64).toInt = 110000 := by decide
  obtain ⟨h₁, h₂, h₃, h₄, h₅, h₆⟩ := hlit
  rw [hiff]
  cases k <;> simp only [isListHandle, isMapHandle, isOptHandle, isStructHandle, isJsonHandle,
      HandleKind.Owns, Unclaimed, Bool.and_eq_true, decide_eq_true_eq, Int64.le_iff_toInt_le,
      Int64.lt_iff_toInt_lt, h₁, h₂, h₃, h₄, h₅, h₆, reduceCtorEq, iff_false, iff_true] <;>
    omega

/-- An operation keeps the handles apart exactly when the handle it makes is classified as
its kind and is not live in another kind. -/
theorem handlesOk_run (hm : HandlesOk m) : HandlesOk (op.run m) ↔
    ∀ k h, op.made m = some (k, h) → k.Owns h ∧ ∀ k', Live m k' h → k' = k := by
  constructor
  · intro hrun k h hmade
    have hlive : Live (op.run m) k h := live_run.2 (.inl hmade)
    refine ⟨classified_iff.1 (hrun.classified h k hlive), fun k' hk' => ?_⟩
    refine hrun.disjoint h k' k (live_run.2 (.inr ⟨hk', ?_⟩)) hlive
    rw [freed_of_made hmade]
    nofun
  · intro hmade
    constructor
    · intro h k k' hk hk'
      rcases live_run.1 hk with hk | ⟨hk, -⟩ <;> rcases live_run.1 hk' with hk' | ⟨hk', -⟩
      · rw [hk] at hk'
        exact congrArg Prod.fst (some.inj hk')
      · exact ((hmade k h hk).2 k' hk').symm
      · exact (hmade k' h hk').2 k hk
      · exact hm.disjoint h k k' hk hk'
    · intro h k hk
      rcases live_run.1 hk with hk | ⟨hk, -⟩
      · exact classified_iff.2 (hmade k h hk).1
      · exact hm.classified h k hk

/-! ## The runs that keep the handles apart -/

/-- The operations that keep the handles apart: no shared cell, closure or reference cell is
made and no file opened; the other counters are within the range of their kind; a store to a
shared cell that was never made goes to an integer that nothing claims. -/
def Safe (m : Heap) : HeapOp → Prop
  | .listNew => m.lists.next < 60000
  | .mapKeys _ => m.lists.next < 60000
  | .mapNew => m.maps.next < 70000
  | .optSome _ => m.opts.next < 90000
  | .optNone => m.opts.next < 90000
  | .structNew _ _ => m.structs.next < 100000
  | .enumNew _ _ _ _ => m.enums.next < 110000 ∧ ¬ m.shared.Live m.enums.next
  | .jsonParseAndStore parsed => parsed.isSome → 110000 ≤ m.jsons.next
  | .jsonGetField h key => (m.jsonField h key).isSome → 110000 ≤ m.jsons.next
  | .jsonGetIndex h idx => (m.jsonElem h idx).isSome → 110000 ≤ m.jsons.next
  | .jsonGetFieldAsValue h key =>
    ((m.jsonField h key).filter JsonVal.isNested).isSome → 110000 ≤ m.jsons.next
  | .sharedStoreVal h _ => m.shared.Live h ∨ Unclaimed h ∧ ¬ m.enums.Live h
  | .sharedGetByName name => (m.namedShared.lookup name).isSome
  | .fileOpen opened => opened = false
  | .sharedNew | .closureNew _ | .rcAlloc _ => False
  | _ => True

/-- The counters of a run of such operations. -/
structure Counters (m : Heap) : Prop where
  lists : 50000 ≤ m.lists.next ∧ m.lists.next ≤ 60000
  maps : 60000 ≤ m.maps.next ∧ m.maps.next ≤ 70000
  opts : 70000 ≤ m.opts.next ∧ m.opts.next ≤ 90000
  structs : 90000 ≤ m.structs.next ∧ m.structs.next ≤ 100000
  enums : 100000 ≤ m.enums.next ∧ m.enums.next ≤ 110000
  shared : m.shared.next = 70000
  closures : m.closures.next = 80000
  rcs : m.rcs.next = 90000
  files : m.files.next = 160000
  unmade : ∀ h, ¬ Live m .closure h ∧ ¬ Live m .rc h ∧ ¬ Live m .file h

/-! The handle of a kind with a classification is live in no other kind. -/

theorem owns_unique {k' : HandleKind} (hk : k.Owns h) (hk' : k'.Owns h) (hne : ¬ Unclaimed h) :
    k' = k := by
  have hclass := classified_iff.2 hk
  have hclass' := classified_iff.2 hk'
  cases k with
  | list => exact hclass'.list.1 (hclass.list.2 rfl)
  | map => exact hclass'.map.1 (hclass.map.2 rfl)
  | opt => exact hclass'.opt.1 (hclass.opt.2 rfl)
  | struct => exact hclass'.struct.1 (hclass.struct.2 rfl)
  | json => exact hclass'.json.1 (hclass.json.2 rfl)
  | _ => exact absurd hk hne

theorem lit_toInt : (50000 : Int64).toInt = 50000 ∧ (60000 : Int64).toInt = 60000 ∧
    (70000 : Int64).toInt = 70000 ∧ (80000 : Int64).toInt = 80000 ∧
    (90000 : Int64).toInt = 90000 ∧ (100000 : Int64).toInt = 100000 ∧
    (110000 : Int64).toInt = 110000 ∧ (160000 : Int64).toInt = 160000 := by decide

theorem succ_range {n lo hi : Int64} (hlo : lo ≤ n) (hn : n < hi) : lo ≤ n + 1 ∧ n + 1 ≤ hi := by
  rw [Int64.lt_iff_toInt_lt] at hn
  rw [Int64.le_iff_toInt_le] at hlo
  have h₁ := Int64.toInt_lt hi
  have h₂ := Int64.le_toInt lo
  have hsucc : (n + 1).toInt = n.toInt + 1 := by
    rw [Int64.toInt_add]
    change Int.bmod (n.toInt + 1) (2 ^ 64) = n.toInt + 1
    rw [Int.bmod_eq_of_le] <;> omega
  rw [Int64.le_iff_toInt_le, Int64.le_iff_toInt_le, hsucc]
  omega

theorem not_unclaimed (hk : k.Owns h)
    (hkind : k = .list ∨ k = .map ∨ k = .opt ∨ k = .struct ∨ k = .json) : ¬ Unclaimed h := by
  obtain ⟨h₁, h₂, h₃, -, h₅, h₆, h₇, -⟩ := lit_toInt
  rcases hkind with rfl | rfl | rfl | rfl | rfl <;>
    simp only [HandleKind.Owns, Unclaimed, Int64.le_iff_toInt_le, Int64.lt_iff_toInt_lt, h₁, h₂,
      h₃, h₅, h₆, h₇] at hk ⊢ <;> omega

theorem made_ok_iff (hm : HandlesOk m)
    (hkind : k = .list ∨ k = .map ∨ k = .opt ∨ k = .struct ∨ k = .json) :
    (k.Owns h ∧ ∀ k', Live m k' h → k' = k) ↔ k.Owns h := by
  refine ⟨fun hk => hk.1, fun hk => ⟨hk, fun k' hk' => ?_⟩⟩
  exact owns_unique hk (classified_iff.1 (hm.classified h k' hk')) (not_unclaimed hk hkind)

theorem live_unclaimed (hm : HandlesOk m) (hc : Counters m) (hh : Unclaimed h)
    (hlive : Live m k h) : k = .shared ∨ k = .enum := by
  have howns := classified_iff.1 (hm.classified h k hlive)
  cases k with
  | shared => exact .inl rfl
  | enum => exact .inr rfl
  | closure => exact absurd hlive (hc.unmade h).1
  | rc => exact absurd hlive (hc.unmade h).2.1
  | file => exact absurd hlive (hc.unmade h).2.2
  | _ => exact absurd hh (not_unclaimed howns (by simp))

theorem forall_made {P : HandleKind → Int64 → Prop}
    (hmade : op.made m = some e) : (∀ k h, op.made m = some (k, h) → P k h) ↔ P e.1 e.2 := by
  rw [hmade]
  constructor
  · intro hP
    exact hP e.1 e.2 rfl
  · rintro hP k h ⟨⟩
    exact hP

theorem safe_iff (hm : HandlesOk m) (hc : Counters m) : Safe m op ↔
    ∀ k h, op.made m = some (k, h) → k.Owns h ∧ ∀ k', Live m k' h → k' = k := by
  -- The three parsing operations make a handle only when there is a value.
  have hjson : ∀ v : Option JsonVal, (v.isSome = true → 110000 ≤ m.jsons.next) ↔
      ∀ k h, (v.map fun _ => (HandleKind.json, m.jsons.next)) = some (k, h) →
        k.Owns h ∧ ∀ k', Live m k' h → k' = k := by
    intro v
    cases v with
    | none => simp
    | some v =>
      have hok := made_ok_iff (h := m.jsons.next) hm (k := .json) (by simp)
      simp only [isSome_some, forall_const, map_some, some.injEq, Prod.mk.injEq]
      constructor
      · rintro hj k h ⟨rfl, rfl⟩
        exact hok.2 hj
      · intro hj
        exact (hj _ _ ⟨rfl, rfl⟩).1
  -- These bases lie inside the ranges of other kinds.
  have hbase : ¬ Unclaimed 70000 ∧ ¬ Unclaimed 80000 ∧ ¬ Unclaimed 90000 ∧
      ¬ Unclaimed 160000 := by decide
  cases op with
  | listNew | mapKeys =>
    rw [forall_made rfl, made_ok_iff hm (by simp)]
    exact (and_iff_right hc.lists.1).symm
  | mapNew =>
    rw [forall_made rfl, made_ok_iff hm (by simp)]
    exact (and_iff_right hc.maps.1).symm
  | optSome | optNone =>
    rw [forall_made rfl, made_ok_iff hm (by simp)]
    exact (and_iff_right hc.opts.1).symm
  | structNew =>
    rw [forall_made rfl, made_ok_iff hm (by simp)]
    exact (and_iff_right hc.structs.1).symm
  | jsonParseAndStore parsed => exact hjson parsed
  | jsonGetField | jsonGetIndex | jsonGetFieldAsValue => exact hjson _
  | enumNew =>
    rw [forall_made rfl]
    constructor
    · rintro ⟨hlt, hshared⟩
      -- Enums and shared cells have no range, so only a live cell could clash.
      have hfree : Unclaimed m.enums.next := .inr ⟨hc.enums.1, hlt⟩
      refine ⟨hfree, fun k' hk' => ?_⟩
      rcases live_unclaimed hm hc hfree hk' with rfl | rfl
      · exact absurd hk' hshared
      · rfl
    · rintro ⟨hfree, hlive⟩
      constructor
      · rcases hfree with hlow | hfree
        · have := hc.enums.1
          rw [Int64.lt_iff_toInt_lt, lit_toInt.1] at hlow
          rw [Int64.le_iff_toInt_le, lit_toInt.2.2.2.2.2.1] at this
          exact absurd (this.trans_lt hlow) (by decide)
        · exact hfree.2
      · intro hshared
        cases hlive .shared hshared
  | sharedStoreVal h' v =>
    rw [forall_made rfl]
    constructor
    · rintro (hlive | ⟨hfree, henum⟩)
      · exact ⟨classified_iff.1 (hm.classified h' .shared hlive),
          fun k' hk' => hm.disjoint h' k' .shared hk' hlive⟩
      · refine ⟨hfree, fun k' hk' => ?_⟩
        rcases live_unclaimed hm hc hfree hk' with rfl | rfl
        · rfl
        · exact absurd hk' henum
    · rintro ⟨hfree, hlive⟩
      refine .inr ⟨hfree, fun henum => ?_⟩
      cases hlive .enum henum
  | sharedGetByName name =>
    simp only [Safe, HeapOp.made]
    by_cases hn : (m.namedShared.lookup name).isSome = true
    · simp [hn]
    · simp only [hn, Bool.false_eq_true, if_false, false_iff, not_forall]
      exact ⟨.shared, m.shared.next, rfl, fun hk => hbase.1 (hc.shared ▸ hk.1)⟩
  | fileOpen opened =>
    cases opened with
    | false => simp [Safe, HeapOp.made]
    | true =>
      simp only [Safe, HeapOp.made, if_true, Bool.true_eq_false, false_iff, not_forall]
      exact ⟨.file, m.files.next, rfl, fun hk => hbase.2.2.2 (hc.files ▸ hk.1)⟩
  | sharedNew =>
    rw [forall_made rfl]
    exact iff_of_false id fun hk => hbase.1 (hc.shared ▸ hk.1)
  | closureNew =>
    rw [forall_made rfl]
    exact iff_of_false id fun hk => hbase.2.1 (hc.closures ▸ hk.1)
  | rcAlloc =>
    rw [forall_made rfl]
    exact iff_of_false id fun hk => hbase.2.2.1 (hc.rcs ▸ hk.1)
  | _ => simp [Safe, HeapOp.made]

theorem unmade_run (hc : Counters m) (hsafe : Safe m op) (h : Int64) :
    ¬ Live (op.run m) .closure h ∧ ¬ Live (op.run m) .rc h ∧ ¬ Live (op.run m) .file h := by
  have hmade : ∀ k h, op.made m = some (k, h) → k ≠ .closure ∧ k ≠ .rc ∧ k ≠ .file := by
    intro k h hk
    cases op with
    | sharedNew | closureNew | rcAlloc => exact hsafe.elim
    | fileOpen opened =>
      obtain rfl : opened = false := hsafe
      cases hk
    | sharedGetByName name =>
      have hname : (m.namedShared.lookup name).isSome = true := hsafe
      simp only [HeapOp.made, if_pos hname, reduceCtorEq] at hk
    | jsonParseAndStore | jsonGetField | jsonGetIndex | jsonGetFieldAsValue =>
      obtain ⟨v, -, ⟨⟩⟩ := map_eq_some_iff.1 hk
      decide
    | _ =>
      cases hk
      try decide
  obtain ⟨hcl, hrc, hf⟩ := hc.unmade h
  refine ⟨fun hl => ?_, fun hl => ?_, fun hl => ?_⟩ <;> rcases live_run.1 hl with hl | ⟨hl, -⟩
  · exact (hmade _ _ hl).1 rfl
  · exact hcl hl
  · exact (hmade _ _ hl).2.1 rfl
  · exact hrc hl
  · exact (hmade _ _ hl).2.2 rfl
  · exact hf hl

theorem counters_jsonParseAndStore {m' : Heap} (parsed : Option JsonVal)
    (hm' : m' = m.jsonParseAndStore parsed) (hc : Counters m)
    (hunmade : ∀ h, ¬ Live m' .closure h ∧ ¬ Live m' .rc h ∧ ¬ Live m' .file h) : Counters m' := by
  subst hm'
  cases parsed with
  | none => exact hc
  | some v => exact { hc with unmade := hunmade }

theorem counters_run (hc : Counters m) (hsafe : Safe m op) : Counters (op.run m) := by
  have hunmade := unmade_run hc hsafe
  cases op with
  | listNew | mapKeys => exact { hc with lists := succ_range hc.lists.1 hsafe, unmade := hunmade }
  | mapNew => exact { hc with maps := succ_range hc.maps.1 hsafe, unmade := hunmade }
  | optSome | optNone => exact { hc with opts := succ_range hc.opts.1 hsafe, unmade := hunmade }
  | structNew typeName n =>
    exact { hc with structs := succ_range hc.structs.1 hsafe, unmade := hunmade }
  | enumNew enumName variantName tag n =>
    exact { hc with enums := succ_range hc.enums.1 hsafe.1, unmade := hunmade }
  | sharedNew | closureNew | rcAlloc => exact hsafe.elim
  | sharedGetByName name =>
    have hrun : HeapOp.run m (.sharedGetByName name) = m := by
      obtain ⟨h, hn⟩ := isSome_iff_exists.1 hsafe
      simp only [HeapOp.run, Heap.sharedGetByName, hn]
    rwa [hrun]
  | jsonParseAndStore parsed => exact counters_jsonParseAndStore parsed rfl hc hunmade
  | jsonGetField | jsonGetIndex | jsonGetFieldAsValue =>
    exact counters_jsonParseAndStore _ rfl hc hunmade
  | fileOpen opened =>
    obtain rfl : opened = false := hsafe
    exact hc
  | rcDec h =>
    have hfields : ∃ rcs, rcs.next = m.rcs.next ∧
        HeapOp.run m (.rcDec h) = { m with rcs := rcs } := by
      simp only [HeapOp.run, Heap.rcDec]
      split
      · split
        · exact ⟨m.rcs.erase h, rfl, rfl⟩
        · exact ⟨m.rcs.insert h _, rfl, rfl⟩
      · exact ⟨m.rcs, rfl, rfl⟩
    obtain ⟨rcs, hnext, hrun⟩ := hfields
    rw [hrun] at hunmade ⊢
    exact { hc with rcs := hnext.trans hc.rcs, unmade := hunmade }
  | structCopy dest src =>
    simp only [HeapOp.run, Heap.structCopy] at hunmade ⊢
    split
    · refine { hc with structs := ?_ }
      rw [HandleStore.next_modify]
      exact hc.structs
    · exact hc
  | _ =>
    refine ⟨?_, ?_, ?_, ?_, ?_, ?_, ?_, ?_, ?_, hunmade⟩ <;>
      simp only [HeapOp.run, Heap.listPush, Heap.listSet, Heap.listRemove, Heap.closureCapture,
        Heap.structSet, Heap.structSetNamed, Heap.enumSetPayload, Heap.rcInc, Heap.rcStoreValue,
        Heap.fileClose, Heap.sharedStoreVal, HandleStore.erase, HandleStore.insert,
        HandleStore.next_modify, hc.lists, hc.maps, hc.opts, hc.structs, hc.enums, hc.shared,
        hc.closures, hc.rcs, hc.files, and_self]

theorem counters_initial : Counters Heap.initial := by
  refine ⟨by decide, by decide, by decide, by decide, by decide, rfl, rfl, rfl, rfl, fun h => ?_⟩
  exact ⟨HandleStore.live_empty _, HandleStore.live_empty _, HandleStore.live_empty _⟩

theorem handlesOk_initial : HandlesOk Heap.initial := by
  have hlive : ∀ k h, ¬ Live Heap.initial k h := by
    intro k h
    cases k <;> exact HandleStore.live_empty _
  exact ⟨fun h k k' hk => absurd hk (hlive k h), fun h k hk => absurd hk (hlive k h)⟩

theorem runAll_append (m : Heap) (ops : List HeapOp) (op : HeapOp) :
    HeapOp.runAll m (ops ++ [op]) = op.run (HeapOp.runAll m ops) := by
  simp [HeapOp.runAll]

/-- **Exactly the safe runs keep the kinds of handles apart.** The handles of a run from the
initial heap are disjoint and classified right in every state if and only if each of its
operations is safe in the state it starts in. -/
theorem handlesOk_iff (ops : List HeapOp) :
    (∀ pre, pre <+: ops → HandlesOk (HeapOp.runAll Heap.initial pre)) ↔
      ∀ pre op, pre ++ [op] <+: ops → Safe (HeapOp.runAll Heap.initial pre) op := by
  suffices hboth : ((∀ pre, pre <+: ops → HandlesOk (HeapOp.runAll Heap.initial pre)) ↔
      ∀ pre op, pre ++ [op] <+: ops → Safe (HeapOp.runAll Heap.initial pre) op) ∧
      ((∀ pre op, pre ++ [op] <+: ops → Safe (HeapOp.runAll Heap.initial pre) op) →
        Counters (HeapOp.runAll Heap.initial ops)) from hboth.1
  induction ops using List.reverseRecOn with
  | nil =>
    refine ⟨⟨fun _ pre op hpre => ?_, fun _ pre hpre => ?_⟩, fun _ => counters_initial⟩
    · simp at hpre
    · obtain rfl := List.prefix_nil.1 hpre
      exact handlesOk_initial
  | append_singleton ops op ih =>
    obtain ⟨ih, ihc⟩ := ih
    have hpre : ∀ pre, pre <+: ops → pre <+: ops ++ [op] :=
      fun pre hp => hp.trans (List.prefix_append ops [op])
    have hsafe_iff : (∀ pre op', pre ++ [op'] <+: ops ++ [op] →
        Safe (HeapOp.runAll Heap.initial pre) op') ↔
        (∀ pre op', pre ++ [op'] <+: ops → Safe (HeapOp.runAll Heap.initial pre) op') ∧
          Safe (HeapOp.runAll Heap.initial ops) op := by
      constructor
      · intro hs
        exact ⟨fun pre op' hp => hs pre op' (hpre _ hp), hs ops op (List.prefix_refl _)⟩
      · rintro ⟨hs, hlast⟩ pre op' hp
        rcases List.prefix_concat_iff.1 hp with heq | hp
        · obtain ⟨rfl, rfl⟩ := List.append_inj' heq rfl |>.imp id fun h => by simpa using h
          exact hlast
        · exact hs pre op' hp
    have hok_iff : (∀ pre, pre <+: ops ++ [op] → HandlesOk (HeapOp.runAll Heap.initial pre)) ↔
        (∀ pre, pre <+: ops → HandlesOk (HeapOp.runAll Heap.initial pre)) ∧
          HandlesOk (op.run (HeapOp.runAll Heap.initial ops)) := by
      rw [← runAll_append]
      constructor
      · intro hs
        exact ⟨fun pre hp => hs pre (hpre _ hp), hs _ (List.prefix_refl _)⟩
      · rintro ⟨hs, hlast⟩ pre hp
        rcases List.prefix_concat_iff.1 hp with rfl | hp
        · exact hlast
        · exact hs pre hp
    rw [hok_iff, hsafe_iff, ih]
    refine ⟨and_congr_right fun hs => ?_, fun hs => ?_⟩
    · have hm := ih.2 hs ops (List.prefix_refl _)
      rw [handlesOk_run hm, safe_iff hm (ihc hs)]
    · rw [runAll_append]
      exact counters_run (ihc hs.1) hs.2

theorem not_handlesOk : ¬ ∀ ops, HandlesOk (HeapOp.runAll Heap.initial ops) := by
  intro h
  have hshared : Live (HeapOp.runAll Heap.initial [.sharedNew, .optNone]) .shared 70000 := rfl
  have hopt : Live (HeapOp.runAll Heap.initial [.sharedNew, .optNone]) .opt 70000 := rfl
  cases (h _).disjoint _ _ _ hshared hopt

end Arth
