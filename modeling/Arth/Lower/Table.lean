import Arth.Lower.Quiet

/-!
# The table of locals

* `Held K L`: the table of the lowering agrees with `L` on the names of `K`.
* The operations on blocks, drops and regions leave the table alone. What changes it is a
  declaration, a clause with a variable, or a pattern.
-/

namespace Arth.Lower

open Builder List
open Ir (Block InstKind Terminator BlockData BinOp)

variable {E α β : Type} {st st' : LowerState E} {K V : List String} {Φ : List (HirBlock E)}
  {L L' : String → Option Ir.Value} {n : Nat}

/-! ## The table -/

/-- The table agrees with `L` on `K`, the pending `finally` blocks are `Φ`, and there are `n`
blocks at least. -/
structure Held (K : List String) (Φ : List (HirBlock E)) (L : String → Option Ir.Value) (n : Nat)
    (st : LowerState E) : Prop where
  locals : ∀ name ∈ K, st.locals name = L name
  finallyScopes : st.finallyScopes = Φ
  length : n ≤ st.blocks.length
  cur : st.cur < st.blocks.length

theorem Held.mono {K' : List String} {n' : Nat} (h : Held K Φ L n st) (hK : K' ⊆ K)
    (hn : n' ≤ n) : Held K' Φ L n' st :=
  ⟨fun name hname => h.locals name (hK hname), h.finallyScopes, hn.trans h.length, h.cur⟩

theorem Held.congr (h : Held K Φ L n st) (hL : ∀ name ∈ K, L name = L' name) : Held K Φ L' n st :=
  ⟨fun name hname => (h.locals name hname).trans (hL name hname), h.finallyScopes, h.length, h.cur⟩

theorem Held.of_eq (h : Held K Φ L n st) (hlocals : st'.locals = st.locals)
    (hfins : st'.finallyScopes = st.finallyScopes)
    (hlen : st'.blocks.length = st.blocks.length) (hcur : st'.cur = st.cur) : Held K Φ L n st' := by
  refine ⟨fun name hname => ?_, hfins.trans h.finallyScopes, ?_, ?_⟩
  · rw [hlocals]
    exact h.locals name hname
  · rw [hlen]
    exact h.length
  · rw [hcur, hlen]
    exact h.cur

theorem held_modify {f : LowerState E → LowerState E} (hlocals : ∀ st, (f st).locals = st.locals)
    (hfins : ∀ st, (f st).finallyScopes = st.finallyScopes)
    (hlen : ∀ st, (f st).blocks.length = st.blocks.length) (hcur : ∀ st, (f st).cur = st.cur) :
    Kept (Held K Φ L n) (modify f : LowerM E Unit) :=
  ⟨Keeps.modify fun st h => h.of_eq (hlocals st) (hfins st) (hlen st) (hcur st)⟩

instance held_emit {kind : InstKind} : Kept (Held K Φ L n) (emit (E := E) kind) := by
  refine ⟨fun st h a st' hr => ?_⟩
  rw [emit_eq] at hr
  cases hr
  exact h.of_eq rfl rfl (List.length_modify ..) rfl

instance held_freshValue : Kept (Held K Φ L n) (freshValue (E := E)) := by
  refine ⟨fun st h a st' hr => ?_⟩
  cases hr
  exact h.of_eq rfl rfl rfl rfl

instance held_setTerm {t : Terminator} : Kept (Held K Φ L n) (setTerm (E := E) t) := by
  apply held_modify
  · exact fun _ => rfl
  · exact fun _ => rfl
  · exact fun _ => List.length_modify ..
  · exact fun _ => rfl

instance held_setTermIfFallthrough {t : Terminator} :
    Kept (Held K Φ L n) (setTermIfFallthrough (E := E) t) := by
  apply Kept.bind
  intro st
  split <;> infer_instance

theorem held_setCur {b : Nat} (hb : b < n) : Kept (Held K Φ L n) (setCur (E := E) b) := by
  refine ⟨fun st h a st' hr => ?_⟩
  cases hr
  exact ⟨h.locals, h.finallyScopes, h.length, hb.trans_le h.length⟩

instance held_internStr {s : String} : Kept (Held K Φ L n) (internStr (E := E) s) := by
  refine ⟨Keeps.get_bind fun st h => ?_⟩
  split
  · exact Keeps.pure st h
  · apply Gives.bind
    apply Gives.set
    exact Gives.pure (h.of_eq rfl rfl rfl rfl)

instance held_isBlockTerminated : Kept (Held K Φ L n) (isBlockTerminated (E := E)) := by
  unfold isBlockTerminated
  infer_instance

theorem Held.append (h : Held K Φ L n st) (block : BlockData) :
    Held K Φ L (st.blocks.length + 1) { st with blocks := st.blocks ++ [block] } where
  locals := h.locals
  finallyScopes := h.finallyScopes
  length := by
    rw [length_append]
    exact le_rfl
  cur := by
    rw [length_append]
    exact Nat.lt_succ_of_lt h.cur

theorem newBlock_gives (base : String) (h : Held K Φ L n st) :
    Gives (newBlock (E := E) base) st fun (idx : Nat) st' => n ≤ idx ∧ Held K Φ L (idx + 1) st' := by
  intro idx st' hr
  cases hr
  exact ⟨h.length, h.append _⟩

theorem held_newBlock {base : String} {f : Nat → LowerM E β}
    (hf : ∀ idx, n ≤ idx → Kept (Held K Φ L (idx + 1)) (f idx)) :
    Kept (Held K Φ L n) (newBlock base >>= f) := by
  refine ⟨fun st h => ?_⟩
  apply Gives.bind
  refine (newBlock_gives base h).imp fun idx st₁ h₁ => ?_
  exact ((hf idx h₁.1).keeps st₁ h₁.2).imp fun _ st' h' =>
    h'.mono (Subset.refl _) (h₁.1.trans (Nat.le_succ _))

theorem setTerm_gives (t : Terminator) (h : Held K Φ L n st) :
    Gives (setTerm t) st fun _ st' => Held K Φ L n st' ∧ curTerm st' = t := by
  intro a st' hr
  refine ⟨held_setTerm.keeps st h a st' hr, ?_⟩
  cases hr
  unfold curTerm
  rw [getElem?_modify_eq, getElem?_eq_getElem h.cur]
  rfl

/-! ## Drops and regions -/

instance held_addDropInfo {info : DropInfo} :
    Kept (Held K Φ L n) (addDropInfo (E := E) info) := by
  apply held_modify <;> exact fun _ => rfl

instance held_emitFieldDrop {val : Ir.Value} {field : String × FieldDropInfo} :
    Kept (Held K Φ L n) (emitFieldDrop (E := E) val field) := by
  unfold emitFieldDrop
  split <;> infer_instance

instance held_emitCondFieldDrop {val flag : Ir.Value} {field : String × FieldDropInfo} :
    Kept (Held K Φ L n) (emitCondFieldDrop (E := E) val flag field) := by
  unfold emitCondFieldDrop
  split
  · apply Kept.bind
    intro st
    refine held_newBlock fun skip hskip => held_newBlock fun drop hdrop => ?_
    refine held_newBlock fun cont hcont => Kept.bind fun _ => ?_
    refine Kept.then (held_setCur (by omega)) fun _ => Kept.bind fun _ => ?_
    refine Kept.then (held_setCur (by omega)) fun _ => Kept.bind fun _ => ?_
    exact Kept.bind fun _ => held_setCur (by omega)
  · infer_instance

instance held_emitDropFor {info : DropInfo} :
    Kept (Held K Φ L n) (emitDropFor (E := E) info) := by
  unfold emitDropFor
  split
  · infer_instance
  · split <;> infer_instance
  · apply Kept.bind
    intro val
    split
    · apply Kept.bind
      intro flag
      split <;> infer_instance
    · split
      · infer_instance
      · split <;> infer_instance

instance held_pushDropScope : Kept (Held K Φ L n) (pushDropScope (E := E)) := by
  apply held_modify <;> exact fun _ => rfl

instance held_popDropScope : Kept (Held K Φ L n) (popDropScope (E := E)) := by
  refine ⟨Keeps.get_bind fun st h => ?_⟩
  split
  · exact Gives.pure h
  · apply Gives.bind
    apply Gives.set
    exact kept_forM.keeps _ (h.of_eq rfl rfl rfl rfl)

instance held_emitDropsToDepth {depth : Nat} :
    Kept (Held K Φ L n) (emitDropsToDepth (E := E) depth) := by
  unfold emitDropsToDepth
  infer_instance

instance held_emitAllDrops : Kept (Held K Φ L n) (emitAllDrops (E := E)) := held_emitDropsToDepth

instance held_enterLoopRegion : Kept (Held K Φ L n) (enterLoopRegion (E := E)) := by
  refine ⟨Keeps.get_bind fun st h => ?_⟩
  apply Gives.bind
  apply Gives.set
  exact kept_bind.keeps _ (h.of_eq rfl rfl rfl rfl)

instance held_exitLoopRegion {expected : Nat} :
    Kept (Held K Φ L n) (exitLoopRegion (E := E) expected) := by
  refine ⟨Keeps.get_bind fun st h => ?_⟩
  split
  · exact Gives.pure h
  · split
    · apply Gives.bind
      apply Gives.set
      exact kept_bind.keeps _ (h.of_eq rfl rfl rfl rfl)
    · exact Gives.set (h.of_eq rfl rfl rfl rfl)

instance held_exitAllLoopRegions : Kept (Held K Φ L n) (exitAllLoopRegions (E := E)) := by
  refine ⟨Keeps.get_bind fun st h => ?_⟩
  apply Gives.bind
  apply Gives.set
  exact kept_forM.keeps _ (h.of_eq rfl rfl rfl rfl)

instance held_registerDrop {name : String} {slot : Ir.Value} {tyName : String} :
    Kept (Held K Φ L n) (registerDrop (E := E) name slot tyName) := by
  have hregister : ∀ id, Kept (Held K Φ L n) (registerRegionVariable (E := E) id slot tyName) :=
    fun id => held_modify (fun _ => rfl) (fun _ => rfl) (fun _ => rfl) fun _ => rfl
  refine ⟨Keeps.get_bind fun st h => ?_⟩
  unfold registerDropWithStrategy
  split
  · exact (hregister _).keeps st h
  · apply Gives.get_bind
    apply Gives.bind
    apply Gives.set
    dsimp only
    split <;> exact kept_bind.keeps _ (h.of_eq rfl rfl rfl rfl)

end Arth.Lower
