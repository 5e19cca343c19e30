import Arth.Lower.Lexical
import Arth.Lower.Table

/-!
# Lowering beside the scopes

* `Alike`: where the table is held, the lowering beside the scopes passes its checks, and
  holds the table.
* Every construct with blocks inside is lowered alike if its blocks are.
-/

namespace Arth.Lower

open Builder List Option Function
open Ir (Block InstKind Terminator BlockData BinOp)

variable {E α β : Type} {st st' : LowerState E} {K V : List String} {Φ : List (HirBlock E)}
  {L L' : String → Option Ir.Value} {n : Nat}

/-! ## Checks that pass -/

/-- `env` is the scope of the names `V`, with the slots that `L` gives them. -/
structure IsScope (L : String → Option Ir.Value) (V : List String) (env : Scope) : Prop where
  names : env.names = V
  slots : ∀ name ∈ V, L name = env.slot name

variable {env : Scope} {x y : Exprs E} {lower lower' : HirBlock E → LowerM E Unit}
    {m m' : LowerM E α}

theorem checkNames_passes (henv : IsScope L V env) {ns : List String}
    (hns : ∀ name ∈ ns, name ∈ V → name ∈ K) (h : Held K Φ L n st) :
    checkNames env ns st = some ((), st) := by
  apply if_pos
  intro name hname hin
  rw [henv.names] at hin
  exact (h.locals name (hns name hname hin)).trans (henv.slots name hin)

theorem checkScope_passes (henv : IsScope L V env) (hV : V ⊆ K) (h : Held K Φ L n st) :
    checkScope env st = some ((), st) :=
  checkNames_passes henv (fun _ _ hin => hV hin) h

/-- Where the table is held, every run of `m` is one of `m'`, which holds it too. -/
abbrev Alike (K : List String) (Φ : List (HirBlock E)) (L : String → Option Ir.Value) (n : Nat)
    (m m' : LowerM E α) : Prop :=
  Tracks (Held K Φ L n) m m' fun _ => Held K Φ L n

/-- The optional block is lowered alike. -/
abbrev OptAlike (K : List String) (Φ : List (HirBlock E)) (L : String → Option Ir.Value)
    (lower lower' : HirBlock E → LowerM E Unit) (blk : Option (HirBlock E)) : Prop :=
  ∀ b, blk = some b → ∀ n, Alike K Φ L n (lower b) (lower' b)

theorem Tracks.setCur {b : Nat} {Q : α → LowerState E → Prop} (hb : b < n)
    (hm : Tracks (Held K Φ L n) m m' Q) :
    Tracks (Held K Φ L n) (setCur b >>= fun _ => m) (setCur b >>= fun _ => m') Q :=
  Tracks.bind (held_setCur hb).tracks fun _ => hm

theorem Alike.start (hst : Held K Φ L n st) (h : Alike K Φ L n m m') :
    Tracks (· = st) m m' fun _ => Held K Φ L n := by
  intro s hs
  exact h s (hs ▸ hst)

theorem Alike.newBlock {base : String} {f f' : Nat → LowerM E β}
    (hf : ∀ idx, n ≤ idx → Alike K Φ L (idx + 1) (f idx) (f' idx)) :
    Alike K Φ L n (newBlock base >>= f) (newBlock base >>= f') := by
  refine Tracks.bind (Tracks.of_gives fun st h => newBlock_gives base h) fun idx => ?_
  refine Tracks.of_start fun st h => ?_
  refine (Alike.start h.2 (hf idx h.1)).imp (fun _ hs => hs) fun _ _ hs => ?_
  exact hs.mono (Subset.refl _) (h.1.trans (Nat.le_succ _))

theorem Alike.get_bind {f f' : LowerState E → LowerM E β}
    (hf : ∀ st, Held K Φ L n st → Alike K Φ L st.blocks.length (f st) (f' st)) :
    Alike K Φ L n (get >>= f) (get >>= f') := by
  intro st h a st' hr
  obtain ⟨hrun, h'⟩ := hf st h st ⟨h.locals, h.finallyScopes, le_rfl, h.cur⟩ a st' hr
  exact ⟨hrun, h'.mono (Subset.refl _) h.length⟩

theorem Alike.unlessTerminated {m m' : LowerM E Unit} (hm : Alike K Φ L n m m') :
    Alike K Φ L n (do if !(← isBlockTerminated) then m) (do if !(← isBlockTerminated) then m') := by
  apply Tracks.keep
  intro t
  exact Tracks.ite (fun _ => hm) fun _ => kept_pure.tracks

/-- The expressions are lowered alike. -/
structure ExprsAlike (K : List String) (Φ : List (HirBlock E)) (L : String → Option Ir.Value)
    (x y : Exprs E) : Prop where
  lowerExpr : ∀ e n, Alike K Φ L n (x.lowerExpr e) (y.lowerExpr e)
  lowerCond : ∀ e n, Alike K Φ L n (x.lowerCond e) (y.lowerCond e)
  lowerEffect : ∀ e n, Alike K Φ L n (x.lowerEffect e) (y.lowerEffect e)
  intConst : y.intConst = x.intConst
  strLit : y.strLit = x.strLit

/-- The lowering of an expression leaves the table alone. -/
structure Exprs.Stays (x : Exprs E) : Prop where
  lowerExpr (e : E) {K Φ L n} : Keeps (Held K Φ L n) (x.lowerExpr e)
  lowerCond (e : E) {K Φ L n} : Keeps (Held K Φ L n) (x.lowerCond e)
  lowerEffect (e : E) {K Φ L n} : Keeps (Held K Φ L n) (x.lowerEffect e)

theorem Exprs.Stays.kept (hx : x.Stays) (e : E) : Kept (Held K Φ L n) (x.lowerExpr e) :=
  ⟨hx.lowerExpr e⟩

theorem Exprs.Stays.scoped (hx : x.Stays) (henv : IsScope L V env) (hV : V ⊆ K) :
    ExprsAlike K Φ L x (x.scoped env) where
  lowerExpr e _ := Tracks.check (fun _ h => checkScope_passes henv hV h) (hx.kept e).tracks
  lowerCond e _ := Tracks.check (fun _ h => checkScope_passes henv hV h)
    (Kept.mk (hx.lowerCond e)).tracks
  lowerEffect e _ := Tracks.check (fun _ h => checkScope_passes henv hV h)
    (Kept.mk (hx.lowerEffect e)).tracks
  intConst := rfl
  strLit := rfl

theorem held_lowerAssign (hx : x.Stays) (name : String) (e : E) :
    Kept (Held K Φ L n) (lowerAssign x name e) := by
  have hexpr : Kept (Held K Φ L n) (x.lowerExpr e) := hx.kept e
  apply Kept.bind
  intro st
  split <;> infer_instance

theorem held_lowerAssignOp (hx : x.Stays) (name : String) (op : BinOp) (e : E) :
    Kept (Held K Φ L n) (lowerAssignOp x name op e) := by
  have hexpr : Kept (Held K Φ L n) (x.lowerExpr e) := hx.kept e
  apply Kept.bind
  intro st
  split <;> infer_instance

theorem lowerIf_alike (hx : ExprsAlike K Φ L x y) (cond : E) {thenBlk : HirBlock E}
    {elseBlk : Option (HirBlock E)} (hthen : ∀ n, Alike K Φ L n (lower thenBlk) (lower' thenBlk))
    (helse : OptAlike K Φ L lower lower' elseBlk) :
    Alike K Φ L n (lowerIf x lower cond thenBlk elseBlk)
      (lowerIf y lower' cond thenBlk elseBlk) := by
  refine Alike.newBlock fun thenB hthenB => ?_
  refine Alike.newBlock fun elseB helseB => ?_
  refine Alike.newBlock fun joinB hjoinB => ?_
  refine Tracks.bind (hx.lowerCond cond _) fun c => ?_
  refine Tracks.keep fun _ => ?_
  refine Tracks.setCur (by omega) ?_
  refine Tracks.bind (hthen _) fun _ => ?_
  refine Tracks.keep fun _ => ?_
  refine Tracks.setCur (by omega) ?_
  have hrest : Alike K Φ L (joinB + 1) (do
      setTermIfFallthrough (E := E) (.br joinB)
      setCur joinB) (do
      setTermIfFallthrough (.br joinB)
      setCur joinB) :=
    (Kept.bind fun _ => held_setCur (by omega)).tracks
  cases elseBlk with
  | none => exact hrest
  | some b => exact Tracks.bind (helse b rfl _) fun _ => hrest

theorem lowerWhile_alike (hx : ExprsAlike K Φ L x y) (cond : E) {body : HirBlock E}
    (hbody : ∀ n, Alike K Φ L n (lower body) (lower' body)) :
    Alike K Φ L n (lowerWhile x lower cond body) (lowerWhile y lower' cond body) := by
  have hpush : ∀ target n, Kept (Held K Φ L n) (pushLoop (E := E) target) := by
    intro target n
    apply held_modify <;> exact fun _ => rfl
  have hpop : ∀ n, Kept (Held K Φ L n) (popLoop (E := E)) := by
    intro n
    apply held_modify <;> exact fun _ => rfl
  refine Alike.newBlock fun header hheader => ?_
  refine Alike.newBlock fun lbody hlbody => ?_
  refine Alike.newBlock fun exit hexit => ?_
  refine Tracks.keep fun _ => ?_
  refine Tracks.setCur (by omega) ?_
  refine Tracks.bind (hx.lowerCond cond _) fun c => ?_
  refine Tracks.keep fun _ => ?_
  refine Tracks.setCur (by omega) ?_
  refine Tracks.keep fun regionId => ?_
  refine Alike.get_bind fun st h => ?_
  have hlen : exit < st.blocks.length := h.length
  refine Tracks.bind (hpush _ _).tracks fun _ => ?_
  refine Tracks.keep fun _ => ?_
  refine Tracks.bind (hbody _) fun _ => ?_
  refine Tracks.keep fun _ => Tracks.keep fun _ => Tracks.keep fun _ => ?_
  refine Tracks.bind (hpop _).tracks fun _ => ?_
  exact (held_setCur (by omega)).tracks

/-! ## Switches -/

variable {default : Option (HirBlock E)} {join : Nat} {b : HirBlock E}

theorem lowerCase_alike (hb : ∀ n, Alike K Φ L n (lower b) (lower' b))
    (name : String) (join : Block) :
    Alike K Φ L n (lowerCase lower name join b) (lowerCase lower' name join b) := by
  refine Alike.newBlock fun idx _ => ?_
  refine Tracks.setCur (Nat.lt_succ_self idx) ?_
  refine Tracks.bind (hb _) fun _ => ?_
  refine Tracks.keep fun t => ?_
  cases t with
  | true => exact kept_pure.tracks
  | false => exact (Kept.bind fun _ => kept_pure).tracks

theorem lowerStringCase_alike (hb : ∀ n, Alike K Φ L n (lower b) (lower' b))
    (name : String) (join : Block) :
    Alike K Φ L n (lowerStringCase lower name join b) (lowerStringCase lower' name join b) := by
  refine Alike.newBlock fun idx _ => ?_
  refine Tracks.setCur (Nat.lt_succ_self idx) ?_
  refine Tracks.bind (hb _) fun _ => ?_
  exact (Kept.bind fun _ => kept_pure).tracks

theorem lowerIntCases_alike (hx : ExprsAlike K Φ L x y) (join : Block)
    (cases : List (E × HirBlock E))
    (hcases : ∀ b ∈ (cases.filter fun c => (x.intConst c.1).isSome).map (·.2),
      ∀ n, Alike K Φ L n (lower b) (lower' b)) :
    Alike K Φ L n (lowerIntCases x lower join cases) (lowerIntCases y lower' join cases) := by
  induction cases with
  | nil => exact kept_pure.tracks
  | cons c cases ih =>
    obtain ⟨e, b⟩ := c
    unfold lowerIntCases
    rw [hx.intConst]
    cases hn : x.intConst e with
    | none =>
      apply ih
      simpa [hn] using hcases
    | some i =>
      simp only [hn, isSome_some, filter_cons_of_pos, map_cons, forall_mem_cons] at hcases
      refine Tracks.bind (lowerCase_alike hcases.1 _ join) fun idx => ?_
      exact Tracks.bind (ih hcases.2) fun rest => kept_pure.tracks

theorem lowerIntSwitch_alike (hx : ExprsAlike K Φ L x y) (e : E) (cases : List (E × HirBlock E))
    (hcases : ∀ b ∈ (cases.filter fun c => (x.intConst c.1).isSome).map (·.2),
      ∀ n, Alike K Φ L n (lower b) (lower' b)) (hdefault : OptAlike K Φ L lower lower' default)
    (hjoin : join < n) : Alike K Φ L n (lowerIntSwitch x lower e cases default join)
      (lowerIntSwitch y lower' e cases default join) := by
  refine Alike.get_bind fun st h => ?_
  have hm : n ≤ st.blocks.length := h.length
  refine Tracks.bind (lowerIntCases_alike hx join cases hcases) fun caseBlocks => ?_
  have hrest : ∀ defB, Alike K Φ L st.blocks.length (do
      setCur st.cur
      let sv ← x.lowerExpr e
      setTerm (.switch sv defB caseBlocks)
      setCur join) (do
      setCur st.cur
      let sv ← y.lowerExpr e
      setTerm (.switch sv defB caseBlocks)
      setCur join) := by
    intro defB
    refine Tracks.setCur h.cur ?_
    refine Tracks.bind (hx.lowerExpr e _) fun sv => ?_
    exact (Kept.bind fun _ => held_setCur (by omega)).tracks
  cases default with
  | none => exact hrest join
  | some b => exact Tracks.bind (lowerCase_alike (hdefault b rfl) _ join) hrest

theorem lowerStringCases_alike (hx : ExprsAlike K Φ L x y) (join : Block)
    (cases : List (E × HirBlock E))
    (hcases : ∀ b ∈ (cases.filter fun c => (x.strLit c.1).isSome).map (·.2),
      ∀ n, Alike K Φ L n (lower b) (lower' b)) : Alike K Φ L n (lowerStringCases x lower join cases)
      (lowerStringCases y lower' join cases) := by
  induction cases with
  | nil => exact kept_pure.tracks
  | cons c cases ih =>
    obtain ⟨e, b⟩ := c
    unfold lowerStringCases
    rw [hx.strLit]
    cases hs : x.strLit e with
    | none =>
      apply ih
      simpa [hs] using hcases
    | some text =>
      simp only [hs, isSome_some, filter_cons_of_pos, map_cons, forall_mem_cons] at hcases
      refine Tracks.bind (lowerStringCase_alike hcases.1 _ join) fun idx => ?_
      exact Tracks.bind (ih hcases.2) fun rest => kept_pure.tracks

theorem held_emitStringChecks (scrut : Ir.Value) (defB : Block) (checks : List (String × Block)) :
    Kept (Held K Φ L n) (emitStringChecks (E := E) scrut defB checks) := by
  induction checks generalizing n with
  | nil => exact kept_pure
  | cons c rest ih =>
    refine Kept.bind fun ix => Kept.bind fun sv => Kept.bind fun cmp => ?_
    cases rest with
    | nil => exact held_setTerm
    | cons c' rest =>
      refine held_newBlock fun next hnext => Kept.bind fun _ => ?_
      exact Kept.then (held_setCur (Nat.lt_succ_self next)) fun _ => ih

theorem lowerStringSwitch_alike (hx : ExprsAlike K Φ L x y) (e : E) (cases : List (E × HirBlock E))
    (hcases : ∀ b ∈ (cases.filter fun c => (x.strLit c.1).isSome).map (·.2),
      ∀ n, Alike K Φ L n (lower b) (lower' b)) (hdefault : OptAlike K Φ L lower lower' default)
    (hjoin : join < n) : Alike K Φ L n (lowerStringSwitch x lower e cases default join)
      (lowerStringSwitch y lower' e cases default join) := by
  refine Alike.get_bind fun st h => ?_
  have hm : n ≤ st.blocks.length := h.length
  refine Tracks.bind (lowerStringCases_alike hx join cases hcases) fun caseBlocks => ?_
  have hrest : ∀ defB, Alike K Φ L st.blocks.length (do
      setCur st.cur
      let scrut ← x.lowerExpr e
      emitStringChecks scrut defB caseBlocks
      if cases.isEmpty then setTerm (.br defB)
      setCur join) (do
      setCur st.cur
      let scrut ← y.lowerExpr e
      emitStringChecks scrut defB caseBlocks
      if cases.isEmpty then setTerm (.br defB)
      setCur join) := by
    intro defB
    have hend : Kept (Held K Φ L st.blocks.length) (setCur (E := E) join) := held_setCur (by omega)
    refine Tracks.setCur h.cur ?_
    refine Tracks.bind (hx.lowerExpr e _) fun scrut => ?_
    refine Tracks.bind (held_emitStringChecks scrut defB caseBlocks).tracks fun _ => ?_
    refine Tracks.ite (fun _ => ?_) fun _ => hend.tracks
    exact (Kept.bind fun _ => hend).tracks
  cases default with
  | none => exact hrest join
  | some b => exact Tracks.bind (lowerStringCase_alike (hdefault b rfl) _ join) hrest

/-! ## Patterns -/

theorem slot_declare (env : Scope) (names : List String) (name : String) :
    (env.declare names st).slot name = if name ∈ names then st.locals name else env.slot name := by
  induction names with
  | nil => rfl
  | cons n names ih =>
    unfold Scope.declare Scope.slot at ih ⊢
    rw [map_cons, cons_append, lookup_cons]
    by_cases h : name = n
    · subst h
      simp
    · have hne : (name == n) = false := beq_false_of_ne h
      rw [hne]
      simpa [h] using ih

theorem names_declare (env : Scope) (names : List String) :
    (env.declare names st).names = names ++ env.names := by
  unfold Scope.declare Scope.names
  rw [map_append, List.map_map]
  exact congrArg (· ++ _) (map_id _)

theorem slot_eq_none {name : String} (h : name ∉ env.names) : env.slot name = none := by
  have hlookup : env.lookup name = none := by
    rw [lookup_eq_none_iff]
    intro p hp
    apply bne_iff_ne.2
    rintro rfl
    exact h (mem_map_of_mem hp)
  unfold Scope.slot
  rw [hlookup]
  rfl

theorem IsScope.declare (henv : IsScope L V env) {names : List String}
    (hL : ∀ name ∈ V, name ∉ names → st.locals name = L name) :
    IsScope st.locals (names ++ V) (env.declare names st) where
  names := by rw [names_declare, henv.names]
  slots name hname := by
    rw [slot_declare]
    split_ifs with hnot
    · rfl
    · have hV := (mem_append.1 hname).resolve_left hnot
      exact (hL name hV hnot).trans (henv.slots name hV)

theorem IsScope.congr (henv : IsScope L V env) (hL : ∀ name ∈ V, L' name = L name) :
    IsScope L' V env :=
  ⟨henv.names, fun name hname => (hL name hname).trans (henv.slots name hname)⟩

theorem predeclare_gives {name : String} (hname : name ∉ K) (h : Held K Φ L n st) :
    Gives (predeclare (E := E) name) st fun _ st' =>
      Held K Φ L n st' ∧ (st'.locals name).isSome ∧
        ∀ other, (st.locals other).isSome → (st'.locals other).isSome := by
  apply Gives.get_bind
  by_cases hnone : (st.locals name).isNone = true
  · simp only [hnone, if_true]
    intro a st' hr
    obtain ⟨slot, st₁, hslot, hset⟩ := bind_inv hr
    have h₁ := held_emit.keeps st h slot st₁ hslot
    cases hslot
    cases hset
    refine ⟨⟨?_, h₁.finallyScopes, h₁.length, h₁.cur⟩, ?_, ?_⟩
    · intro other hother
      have hne : other ≠ name := fun heq => hname (heq ▸ hother)
      exact (update_of_ne hne ..).trans (h.locals other hother)
    · change (update st.locals name (some st.nextVal) name).isSome = true
      rw [update_self]
      rfl
    · intro other hother
      change (update st.locals name (some st.nextVal) other).isSome = true
      by_cases hne : other = name
      · subst hne
        rw [update_self]
        rfl
      · rw [update_of_ne hne]
        exact hother
  · have hsome : (st.locals name).isSome = true := by
      rw [isSome_iff_ne_none]
      simpa using hnone
    simp only [hnone]
    exact Gives.pure ⟨h, hsome, fun _ hother => hother⟩

/-- What the declarations of patterns leave: the names of `ns` have slots, and those that had
one still have. -/
def Slotted (K : List String) (Φ : List (HirBlock E)) (L : String → Option Ir.Value) (n : Nat)
    (ns : List String) (st st' : LowerState E) : Prop :=
  Held K Φ L n st' ∧ (∀ name ∈ ns, (st'.locals name).isSome) ∧
    ∀ name, (st.locals name).isSome → (st'.locals name).isSome

theorem Slotted.append {ns ns' : List String} {st₁ : LowerState E}
    (h : Slotted K Φ L n ns st st₁) (h' : Slotted K Φ L n ns' st₁ st') :
    Slotted K Φ L n (ns ++ ns') st st' := by
  refine ⟨h'.1, ?_, fun name hname => h'.2.2 name (h.2.2 name hname)⟩
  intro name hname
  rcases mem_append.1 hname with hname | hname
  · exact h'.2.2 name (h.2.1 name hname)
  · exact h'.2.1 name hname

theorem lowerPayloads_gives (i : Nat) (ps : List HirPattern)
    (hps : ∀ name ∈ patternNames (.variant "" "" ps), name ∉ K) (h : Held K Φ L n st) :
    Gives (lowerPayloads (E := E) i ps) st fun _ st' =>
      Slotted K Φ L n (patternNames (.variant "" "" ps)) st st' := by
  induction ps generalizing i st with
  | nil => exact Gives.pure ⟨h, by simp [patternNames], fun _ hname => hname⟩
  | cons p ps ih =>
    cases p with
    | binding name =>
      have hname : name ∉ K := hps name (by simp [patternNames])
      have hps' : ∀ name ∈ patternNames (.variant "" "" ps), name ∉ K := by
        intro other hother
        apply hps
        simp only [patternNames, filterMap_cons, mem_cons] at hother ⊢
        exact .inr hother
      apply Gives.bind
      refine (predeclare_gives hname h).imp fun _ st₁ h₁ => ?_
      apply Gives.bind
      refine (ih (i + 1) hps' h₁.1).imp fun rest st₂ h₂ => ?_
      apply Gives.pure
      have hone : Slotted K Φ L n [name] st st₁ := by
        refine ⟨h₁.1, ?_, h₁.2.2⟩
        intro other hother
        rw [mem_singleton.1 hother]
        exact h₁.2.1
      exact hone.append h₂
    | wildcard | literal | variant => exact ih (i + 1) hps h

theorem lowerPatterns_gives (cases : List (HirPattern × HirBlock E))
    (hcases : ∀ name ∈ switchNames cases, name ∉ K) (h : Held K Φ L n st) :
    Gives (lowerPatterns cases) st fun patterns st' =>
      patterns.map (·.2) = (cases.filter fun c => !c.1.isLiteral).map (·.2) ∧
        Slotted K Φ L n (switchNames cases) st st' := by
  induction cases generalizing st with
  | nil => exact Gives.pure ⟨rfl, h, by simp [switchNames], fun _ hname => hname⟩
  | cons c cases ih =>
    obtain ⟨p, b⟩ := c
    have hfst : ∀ name ∈ patternNames p, name ∉ K := by
      intro name hname
      exact hcases name (mem_flatMap.2 ⟨_, mem_cons_self, hname⟩)
    have hrest : ∀ name ∈ switchNames cases, name ∉ K := by
      intro name hname
      obtain ⟨c, hc, hname⟩ := mem_flatMap.1 hname
      exact hcases name (mem_flatMap.2 ⟨c, mem_cons_of_mem _ hc, hname⟩)
    cases p with
    | wildcard =>
      apply Gives.bind
      refine (ih hrest h).imp fun rest st₁ h₁ => Gives.pure ⟨?_, h₁.2⟩
      exact congrArg (b :: ·) h₁.1
    | literal => exact ih hrest h
    | binding name =>
      apply Gives.bind
      refine (predeclare_gives (hfst name (by simp [patternNames])) h).imp fun _ st₁ h₁ => ?_
      apply Gives.bind
      refine (ih hrest h₁.1).imp fun rest st₂ h₂ => Gives.pure ⟨?_, ?_⟩
      · exact congrArg (b :: ·) h₂.1
      · refine Slotted.append ⟨h₁.1, ?_, h₁.2.2⟩ h₂.2
        intro other hother
        rw [mem_singleton.1 hother]
        exact h₁.2.1
    | variant enumName variantName payloads =>
      apply Gives.get_bind
      apply Gives.bind
      refine (lowerPayloads_gives 0 payloads hfst h).imp fun bindings st₁ h₁ => ?_
      apply Gives.bind
      refine (ih hrest h₁.1).imp fun rest st₂ h₂ => Gives.pure ⟨?_, h₁.append h₂.2⟩
      exact congrArg (b :: ·) h₂.1

theorem lowerPatternCases_alike (join : Block) (cases : List (PatternInfo × HirBlock E))
    (hcases : ∀ b ∈ cases.map (·.2), ∀ n, Alike K Φ L n (lower b) (lower' b)) :
    Alike K Φ L n (lowerPatternCases lower join cases) (lowerPatternCases lower' join cases) := by
  induction cases with
  | nil => exact kept_pure.tracks
  | cons c cases ih =>
    rw [map_cons, forall_mem_cons] at hcases
    refine Tracks.bind (lowerCase_alike hcases.1 _ join) fun idx => ?_
    exact Tracks.bind (ih hcases.2) fun rest => kept_pure.tracks

instance held_emitBindings {scrut : Ir.Value} {bindings : List (String × Nat)} :
    Kept (Held K Φ L n) (emitBindings (E := E) scrut bindings) := by
  induction bindings with
  | nil => exact kept_pure
  | cons c bindings ih =>
    unfold emitBindings
    refine Kept.bind fun idx => Kept.bind fun payload => Kept.bind fun st => ?_
    split <;> infer_instance

theorem held_emitTagChecks (scrut tag : Ir.Value) {defB : Block}
    (checks : List (PatternInfo × Block)) :
    Kept (Held K Φ L n) (emitTagChecks (E := E) scrut tag defB checks) := by
  induction checks generalizing n with
  | nil => exact kept_pure
  | cons c rest ih =>
    obtain ⟨info, b⟩ := c
    refine Kept.bind fun expected => Kept.bind fun cmp => ?_
    by_cases hb : info.bindings ≠ []
    · simp only [if_pos hb]
      refine held_newBlock fun setup hsetup => ?_
      split_ifs with hr
      · refine held_newBlock fun next hnext => Kept.bind fun _ => ?_
        refine Kept.then (held_setCur (by omega)) fun _ => Kept.bind fun _ => Kept.bind fun _ => ?_
        exact Kept.then (held_setCur (Nat.lt_succ_self next)) fun _ => ih
      · refine Kept.bind fun next => Kept.bind fun _ => ?_
        exact Kept.then (held_setCur (Nat.lt_succ_self setup)) fun _ => kept_bind
    · simp only [if_neg hb]
      split_ifs with hr
      · refine held_newBlock fun next hnext => Kept.bind fun _ => ?_
        exact Kept.then (held_setCur (Nat.lt_succ_self next)) fun _ => ih
      · exact kept_bind

variable {lowerIn : BlockLowering E}

theorem lowerPatternSwitch_alike (hx : x.Stays) (henv : IsScope L V env) (hV : V ⊆ K) (e : E)
    {cases : List (HirPattern × HirBlock E)} (hnames : ∀ name ∈ switchNames cases, name ∉ K)
    (hcases : ∀ b ∈ (cases.filter fun c => !c.1.isLiteral).map (·.2), ∀ L' inner n,
      (∀ name ∈ K, L' name = L name) → IsScope L' (switchNames cases ++ V) inner →
      Alike (switchNames cases ++ K) Φ L' n (lower b) (lowerIn inner b))
    (hdefault : ∀ b, default = some b → ∀ L' n, (∀ name ∈ K, L' name = L name) →
      Alike (switchNames cases ++ K) Φ L' n (lower b) (lowerIn env b)) (hjoin : join < n) :
    Alike K Φ L n (lowerPatternSwitch x lower e cases default join)
      (lowerPatternSwitchScoped x lowerIn env e cases default join) := by
  refine Alike.get_bind fun st h => ?_
  have hm : n ≤ st.blocks.length := h.length
  have hpatterns : ∀ st₁, Held K Φ L st.blocks.length st₁ →
      Gives (lowerPatterns cases) st₁ fun patterns st₂ =>
        patterns.map (·.2) = (cases.filter fun c => !c.1.isLiteral).map (·.2) ∧
          Held K Φ L st.blocks.length st₂ ∧
          ∀ name ∈ switchNames cases, (st₂.locals name).isSome := by
    intro st₁ h₁
    exact (lowerPatterns_gives cases hnames h₁).imp fun _ _ h₂ => ⟨h₂.1, h₂.2.1, h₂.2.2.1⟩
  refine Tracks.bind (Tracks.of_gives hpatterns) fun patterns => ?_
  refine Tracks.of_start fun st₂ hst₂ => ?_
  obtain ⟨hblocks, h₂, hslots⟩ := hst₂
  -- the table as the patterns leave it
  have hL : ∀ name ∈ K, st₂.locals name = L name := h₂.locals
  have hinner : IsScope st₂.locals (switchNames cases ++ V) (env.declare (switchNames cases) st₂) :=
    henv.declare fun name hname _ => hL name (hV hname)
  have hheld : Held (switchNames cases ++ K) Φ st₂.locals st.blocks.length st₂ :=
    ⟨fun _ _ => rfl, h₂.finallyScopes, h₂.length, h₂.cur⟩
  have hown : ∀ s, s = st₂ → checkOwn env (switchNames cases) s = some ((), s) := by
    rintro s rfl
    apply if_pos
    intro name hname heq
    have hnone : env.slot name = none := by
      apply slot_eq_none
      rw [henv.names]
      exact fun hin => hnames name hname (hV hin)
    have hsome := hslots name hname
    rw [heq, hnone] at hsome
    cases hsome
  refine Tracks.check hown (Tracks.get_right ?_)
  refine Tracks.imp (Alike.start hheld ?_) (fun _ hs => hs) fun _ s hs =>
    (hs.mono (subset_append_right ..) le_rfl).congr hL
  have hbodies : ∀ b ∈ patterns.map (·.2), ∀ n,
      Alike (switchNames cases ++ K) Φ st₂.locals n (lower b)
        (lowerIn (env.declare (switchNames cases) st₂) b) := by
    intro b hb n
    rw [hblocks] at hb
    exact hcases b hb _ _ n hL hinner
  refine Tracks.bind (lowerPatternCases_alike join patterns hbodies) fun caseBlocks => ?_
  have hscope : IsScope st₂.locals V env := henv.congr fun name hname => hL name (hV hname)
  have hrest : ∀ defB, Alike (switchNames cases ++ K) Φ st₂.locals st.blocks.length (do
      setCur st.cur
      let scrut ← x.lowerExpr e
      let tag ← emit (.call "__arth_enum_get_tag" [scrut] .i64)
      emitTagChecks scrut tag defB (caseBlocks.filter fun c => 0 ≤ c.1.tag)
      if caseBlocks.all fun c => c.1.tag < 0 then setTerm (.br defB)
      setCur join) (do
      setCur st.cur
      checkScope (env.declare (switchNames cases) st₂)
      let scrut ← (x.scoped env).lowerExpr e
      let tag ← emit (.call "__arth_enum_get_tag" [scrut] .i64)
      emitTagChecks scrut tag defB (caseBlocks.filter fun c => 0 ≤ c.1.tag)
      if caseBlocks.all fun c => c.1.tag < 0 then setTerm (.br defB)
      setCur join) := by
    intro defB
    have hend : Kept (Held (switchNames cases ++ K) Φ st₂.locals st.blocks.length)
        (setCur (E := E) join) := held_setCur (by omega)
    refine Tracks.setCur h.cur ?_
    have hVin : V ⊆ switchNames cases ++ K := subset_append_of_subset_right _ hV
    have hsub : switchNames cases ++ V ⊆ switchNames cases ++ K :=
      append_subset.2 ⟨subset_append_left .., hVin⟩
    refine Tracks.check (fun s hs => checkScope_passes hinner hsub hs) ?_
    refine Tracks.bind ((hx.scoped hscope hVin).lowerExpr e _) fun scrut => ?_
    refine Tracks.keep fun tag => ?_
    refine Tracks.bind (held_emitTagChecks scrut tag _).tracks fun _ => ?_
    refine Tracks.ite (fun _ => ?_) fun _ => hend.tracks
    exact (Kept.bind fun _ => hend).tracks
  cases default with
  | none => exact hrest _
  | some b => exact Tracks.bind (lowerCase_alike (fun n => hdefault b rfl _ n hL) _ join) hrest

theorem lowerSwitch_alike (hx : x.Stays) (henv : IsScope L V env) (hV : V ⊆ K) (e : E)
    {cases : List (E × HirBlock E)} {patternCases : List (HirPattern × HirBlock E)}
    (hnames : ∀ name ∈ switchNames patternCases, name ∉ K)
    (hcases : ∀ b ∈ switchCases x cases patternCases, ∀ L' inner n, (∀ name ∈ K, L' name = L name) →
      IsScope L' (switchNames patternCases ++ V) inner →
      Alike (switchNames patternCases ++ K) Φ L' n (lower b) (lowerIn inner b))
    (hdefault : ∀ b, default = some b → ∀ L' n, (∀ name ∈ K, L' name = L name) →
      Alike (switchNames patternCases ++ K) Φ L' n (lower b) (lowerIn env b)) :
    Alike K Φ L n (lowerSwitch x lower e cases patternCases default)
      (lowerSwitchScoped x lowerIn env e cases patternCases default) := by
  refine Alike.newBlock fun join hjoin => ?_
  refine Tracks.ite (fun hp => ?_) fun hp => ?_
  · apply lowerPatternSwitch_alike hx henv hV e hnames _ hdefault (Nat.lt_succ_self join)
    rwa [switchCases, if_pos hp] at hcases
  · obtain rfl : patternCases = [] := not_not.1 hp
    rw [switchCases, if_neg hp] at hcases
    have hdefault' : OptAlike K Φ L lower (lowerIn env) default :=
      fun b hb n => hdefault b hb L n fun _ _ => rfl
    refine Tracks.ite (fun hs => ?_) fun hs => ?_
    · rw [if_pos hs] at hcases
      exact lowerStringSwitch_alike (hx.scoped henv hV) e cases
        (fun b hb n => hcases b hb L env n (fun _ _ => rfl) henv) hdefault' (Nat.lt_succ_self join)
    · rw [if_neg hs] at hcases
      exact lowerIntSwitch_alike (hx.scoped henv hV) e cases
        (fun b hb n => hcases b hb L env n (fun _ _ => rfl) henv) hdefault' (Nat.lt_succ_self join)

/-! ## Exceptions -/

variable {finallyBlk : Option (HirBlock E)} {tryBlk : HirBlock E}

instance held_setUnwindTarget {target : Option Block} :
    Kept (Held K Φ L n) (setUnwindTarget (E := E) target) := by
  apply held_modify <;> exact fun _ => rfl

theorem pushFinally_tracks (finallyBlk : Option (HirBlock E)) :
    Tracks (Held K Φ L n) (pushFinally finallyBlk) (pushFinally finallyBlk)
      fun _ => Held K (Φ ++ finallyBlk.toList) L n := by
  apply Tracks.of_gives
  intro st h
  cases finallyBlk with
  | none =>
    apply Gives.pure
    rw [toList_none, append_nil]
    exact h
  | some fin =>
    apply Gives.modify
    exact ⟨h.locals, congrArg (· ++ [fin]) h.finallyScopes, h.length, h.cur⟩

theorem popFinally_tracks (finallyBlk : Option (HirBlock E)) :
    Tracks (Held K (Φ ++ finallyBlk.toList) L n) (popFinally finallyBlk) (popFinally finallyBlk)
      fun _ => Held K Φ L n := by
  apply Tracks.of_gives
  intro st h
  cases finallyBlk with
  | none =>
    rw [toList_none, append_nil] at h
    exact Gives.pure h
  | some fin =>
    apply Gives.modify
    refine ⟨h.locals, ?_, h.length, h.cur⟩
    rw [h.finallyScopes]
    exact dropLast_concat

theorem lowerTryBody_tracks (joinBlock pad : Block)
    (htry : ∀ n, Alike K (Φ ++ finallyBlk.toList) L n (lower tryBlk) (lower' tryBlk))
    (hfinally : OptAlike K (Φ ++ finallyBlk.toList) L lower lower' finallyBlk) :
    Tracks (Held K Φ L n) (lowerTryBody lower tryBlk finallyBlk joinBlock pad)
      (lowerTryBody lower' tryBlk finallyBlk joinBlock pad)
      fun _ => Held K (Φ ++ finallyBlk.toList) L n := by
  refine Tracks.keep fun _ => ?_
  refine Tracks.bind (pushFinally_tracks finallyBlk) fun _ => ?_
  refine Tracks.of_start fun st h => Alike.start h ?_
  refine Alike.get_bind fun st h => ?_
  refine Tracks.keep fun _ => ?_
  refine Tracks.bind (htry _) fun _ => ?_
  refine Tracks.keep fun _ => ?_
  refine Alike.unlessTerminated ?_
  refine Tracks.keep fun _ => ?_
  cases finallyBlk with
  | none => exact held_setTerm.tracks
  | some fin =>
    refine Alike.newBlock fun normalFinally _ => ?_
    refine Tracks.keep fun _ => ?_
    refine Tracks.setCur (Nat.lt_succ_self normalFinally) ?_
    exact Tracks.bind (hfinally fin rfl _) fun _ => held_setTerm.tracks

theorem leaveCatch_alike (joinBlock : Block) (i : Nat)
    (hfinally : OptAlike K Φ L lower lower' finallyBlk) :
    Alike K Φ L n (leaveCatch lower finallyBlk joinBlock i)
      (leaveCatch lower' finallyBlk joinBlock i) := by
  refine Tracks.keep fun t => ?_
  cases finallyBlk with
  | none =>
    have hleave : Kept (Held K Φ L n) (do
        if !(← isBlockTerminated (E := E)) then setTerm (.br joinBlock)) :=
      kept_bind
    refine Tracks.ite (fun _ => ?_) fun _ => hleave.tracks
    exact Tracks.keep fun _ => hleave.tracks
  | some fin =>
    have hleave : Alike K Φ L n (do
        if !(← isBlockTerminated) then
          let catchFinally ← newBlock ("finally_catch_" ++ toString i)
          setTerm (.br catchFinally)
          setCur catchFinally
          lower fin
          if !(← isBlockTerminated) then setTerm (.br joinBlock)) (do
        if !(← isBlockTerminated) then
          let catchFinally ← newBlock ("finally_catch_" ++ toString i)
          setTerm (.br catchFinally)
          setCur catchFinally
          lower' fin
          if !(← isBlockTerminated) then setTerm (.br joinBlock)) := by
      refine Alike.unlessTerminated (Alike.newBlock fun catchFinally _ => ?_)
      refine Tracks.keep fun _ => ?_
      refine Tracks.setCur (Nat.lt_succ_self catchFinally) ?_
      refine Tracks.bind (hfinally fin rfl _) fun _ => ?_
      exact Alike.unlessTerminated held_setTerm.tracks
    refine Tracks.ite (fun _ => ?_) fun _ => hleave
    exact Tracks.keep fun _ => hleave

theorem held_emitCheck (excTypeName : Ir.Value) {check : Nat} (body next : Block) (c : Catch E)
    (hcheck : check < n) : Kept (Held K Φ L n) (emitCheck excTypeName check body next c) :=
  Kept.then (held_setCur hcheck) fun _ => kept_bind

theorem held_bindCatchVar (excSlot : Ir.Value) (c : Catch E)
    (hvar : ∀ name ∈ c.2.1.toList, name ∉ K) : Kept (Held K Φ L n) (bindCatchVar excSlot c) := by
  obtain ⟨ty, var, b⟩ := c
  cases var with
  | none => exact kept_pure
  | some name =>
    refine Kept.bind fun exc => Kept.bind fun varSlot => Kept.bind fun _ => ?_
    refine Kept.then ⟨Keeps.modify fun st h => ?_⟩ fun _ => kept_pure
    refine ⟨fun other hother => ?_, h.finallyScopes, h.length, h.cur⟩
    have hne : other ≠ name := fun heq => hvar name mem_cons_self (heq ▸ hother)
    exact (update_of_ne hne ..).trans (h.locals other hother)

theorem held_unbindCatchVar (c : Catch E) (hvar : ∀ name ∈ c.2.1.toList, name ∉ K) :
    Kept (Held K Φ L n) (unbindCatchVar c) := by
  obtain ⟨ty, var, b⟩ := c
  cases var with
  | none => exact kept_pure
  | some name =>
    refine ⟨Keeps.modify fun st h => ⟨fun other hother => ?_, h.finallyScopes, h.length, h.cur⟩⟩
    have hne : other ≠ name := fun heq => hvar name mem_cons_self (heq ▸ hother)
    exact (update_of_ne hne ..).trans (h.locals other hother)

/-- What a clause needs of its body: the variable of the clause is in scope there. -/
def BodyAlike (K V : List String) (Φ : List (HirBlock E)) (L : String → Option Ir.Value)
    (lower : HirBlock E → LowerM E Unit) (lowerIn : BlockLowering E) (c : Catch E) : Prop :=
  ∀ L' inner n, (∀ name ∈ K, L' name = L name) → IsScope L' (c.2.1.toList ++ V) inner →
    Tracks (Held (c.2.1.toList ++ K) Φ L' n) (lower c.2.2) (lowerIn inner c.2.2)
      fun _ => Held K Φ L' n

theorem lowerCatch_alike (henv : IsScope L V env) (hV : V ⊆ K) (joinBlock rethrow : Block)
    (excTypeName excSlot : Ir.Value) (i : Nat) {check body : Nat} (next : Block) {c : Catch E}
    (hcheck : check < n) (hbody : body < n) (hvar : ∀ name ∈ c.2.1.toList, name ∉ K)
    (hc : BodyAlike K V Φ L lower lowerIn c)
    (hfinally : OptAlike K Φ L lower (lowerIn env) finallyBlk) : Alike K Φ L n
      (lowerCatch lower finallyBlk joinBlock rethrow excTypeName excSlot i check body next c)
      (lowerCatchScoped lowerIn env finallyBlk joinBlock rethrow excTypeName excSlot i check body
        next c) := by
  refine Tracks.bind (held_emitCheck excTypeName body next c hcheck).tracks fun _ => ?_
  refine Tracks.setCur hbody ?_
  refine Tracks.bind (held_bindCatchVar excSlot c hvar).tracks fun varSlot => ?_
  refine Tracks.of_start fun st h => Tracks.get_right ?_
  have hL : ∀ name ∈ K, st.locals name = L name := h.locals
  have hinner : IsScope st.locals (c.2.1.toList ++ V) (env.declare c.2.1.toList st) :=
    henv.declare fun name hname _ => hL name (hV hname)
  have hheld : Held (c.2.1.toList ++ K) Φ st.locals n st :=
    ⟨fun _ _ => rfl, h.finallyScopes, h.length, h.cur⟩
  have hrest : Tracks (Held K Φ st.locals n) (do
      setUnwindTarget st.unwindTarget
      unbindCatchVar c
      leaveCatch lower finallyBlk joinBlock i
      return (⟨check, body, varSlot⟩ : CatchBlocks)) (do
      setUnwindTarget st.unwindTarget
      unbindCatchVar c
      leaveCatch (lowerIn env) finallyBlk joinBlock i
      return (⟨check, body, varSlot⟩ : CatchBlocks)) fun _ => Held K Φ L n := by
    refine Tracks.imp (P := fun _ => Held K Φ L n) ?_ (fun s hs => hs.congr hL) fun _ _ hs => hs
    refine Tracks.keep fun _ => ?_
    refine Tracks.bind (held_unbindCatchVar c hvar).tracks fun _ => ?_
    exact Tracks.bind (leaveCatch_alike joinBlock i hfinally) fun _ => kept_pure.tracks
  have hbodyRest := Tracks.bind (hc st.locals _ n hL hinner) fun _ => hrest
  refine Tracks.get_bind fun st' hst' => ?_
  obtain rfl : st' = st := hst'
  have hstart : ∀ s, s = st' → Held (c.2.1.toList ++ K) Φ st'.locals n s := by
    rintro s rfl
    exact hheld
  refine Tracks.imp ?_ hstart fun _ _ hs => hs
  refine Tracks.ite (fun _ => ?_) fun _ => hbodyRest
  exact Tracks.keep fun _ => hbodyRest

theorem newCatchBlocks_gives (i : Nat) (cs : List (Catch E)) (h : Held K Φ L n st) :
    Gives (newCatchBlocks i cs) st fun blocks st' =>
      ∃ m, n ≤ m ∧ Held K Φ L m st' ∧ ∀ p ∈ blocks, p.1 < m ∧ p.2 < m := by
  induction cs generalizing i n st with
  | nil => exact Gives.pure ⟨n, Nat.le_refl n, h, by simp⟩
  | cons c cs ih =>
    apply Gives.bind
    refine (newBlock_gives _ h).imp fun check st₁ h₁ => ?_
    apply Gives.bind
    refine (newBlock_gives _ h₁.2).imp fun body st₂ h₂ => ?_
    apply Gives.bind
    refine (ih (i + 1) h₂.2).imp fun rest st₃ h₃ => Gives.pure ?_
    obtain ⟨m, hm, hheld, hrest⟩ := h₃
    refine ⟨m, by omega, hheld, ?_⟩
    rw [forall_mem_cons]
    exact ⟨⟨Nat.lt_trans h₂.1 hm, hm⟩, hrest⟩

theorem lowerCatches_alike (henv : IsScope L V env) (hV : V ⊆ K) (joinBlock rethrow : Block)
    (excTypeName excSlot : Ir.Value) (i : Nat) {blocks : List (Block × Block)}
    {cs : List (Catch E)} (hblocks : ∀ p ∈ blocks, p.1 < n ∧ p.2 < n)
    (hvars : ∀ c ∈ cs, ∀ name ∈ c.2.1.toList, name ∉ K)
    (hcs : ∀ c ∈ cs, BodyAlike K V Φ L lower lowerIn c)
    (hfinally : OptAlike K Φ L lower (lowerIn env) finallyBlk) :
    Alike K Φ L n (lowerCatches lower finallyBlk joinBlock rethrow excTypeName excSlot i blocks cs)
      (lowerCatchesScoped lowerIn env finallyBlk joinBlock rethrow excTypeName excSlot i blocks
        cs) := by
  induction cs generalizing i blocks with
  | nil =>
    cases blocks <;> exact kept_pure.tracks
  | cons c cs ih =>
    cases blocks with
    | nil => exact kept_pure.tracks
    | cons p blocks =>
      rw [forall_mem_cons] at hblocks hvars hcs
      have hclause := lowerCatch_alike henv hV joinBlock rethrow excTypeName excSlot i
        (firstCheck rethrow blocks) hblocks.1.1 hblocks.1.2 hvars.1 hcs.1 hfinally
      refine Tracks.bind hclause fun clause => ?_
      exact Tracks.bind (ih (i + 1) hblocks.2 hvars.2 hcs.2) fun rest => kept_pure.tracks

theorem lowerRethrow_alike {rethrow : Nat} (excSlot : Ir.Value) (hrethrow : rethrow < n)
    (hfinally : OptAlike K Φ L lower lower' finallyBlk) :
    Alike K Φ L n (lowerRethrow lower finallyBlk rethrow excSlot)
      (lowerRethrow lower' finallyBlk rethrow excSlot) := by
  have hblock : Alike K Φ L n (lowerRethrowFinally lower finallyBlk)
      (lowerRethrowFinally lower' finallyBlk) := by
    cases finallyBlk with
    | none => exact kept_pure.tracks
    | some fin =>
      refine Alike.newBlock fun rethrowFinally _ => ?_
      refine Tracks.keep fun _ => ?_
      refine Tracks.setCur (Nat.lt_succ_self rethrowFinally) ?_
      exact hfinally fin rfl _
  refine Tracks.setCur hrethrow ?_
  refine Tracks.bind hblock fun _ => ?_
  refine Kept.tracks kept_bind

theorem lowerTry_alike (henv : IsScope L V env) (hV : V ⊆ K) (catches : List (Catch E))
    (htry : ∀ n, Alike K (Φ ++ finallyBlk.toList) L n (lower tryBlk) (lowerIn env tryBlk))
    (hvars : ∀ c ∈ catches, ∀ name ∈ c.2.1.toList, name ∉ K)
    (hcatches : ∀ c ∈ catches, BodyAlike K V (Φ ++ finallyBlk.toList) L lower lowerIn c)
    (hfinally : OptAlike K (Φ ++ finallyBlk.toList) L lower (lowerIn env) finallyBlk) :
    Alike K Φ L n (lowerTry lower tryBlk catches finallyBlk)
      (lowerTryScoped lowerIn env tryBlk catches finallyBlk) := by
  refine Alike.newBlock fun joinBlock hjoin => ?_
  refine Alike.newBlock fun pad hpad => ?_
  refine Tracks.bind (lowerTryBody_tracks joinBlock pad htry hfinally) fun _ => ?_
  refine Tracks.setCur (Nat.lt_succ_self pad) ?_
  refine Tracks.keep fun exc => Tracks.keep fun excTypeName => Tracks.keep fun excSlot => ?_
  refine Tracks.keep fun _ => ?_
  refine Tracks.bind (Tracks.of_gives fun st h => newBlock_gives _ h) fun (rethrow : ℕ) => ?_
  refine Tracks.of_start fun st h => ?_
  have hblocks : ∀ s, s = st → Gives (newCatchBlocks 0 catches) s fun blocks st' =>
      ∃ m : ℕ, rethrow + 1 ≤ m ∧ Held K (Φ ++ finallyBlk.toList) L m st' ∧
        ∀ p ∈ blocks, p.1 < m ∧ p.2 < m := by
    rintro s rfl
    exact newCatchBlocks_gives 0 catches h.2
  refine Tracks.bind (Tracks.of_gives hblocks) fun blocks => ?_
  refine Tracks.of_start fun st₁ h₁ => ?_
  obtain ⟨m, hm, hheld, hlt⟩ := h₁
  have hn : joinBlock < m ∧ rethrow < m := by omega
  -- from here on both lowerings have the same blocks
  have hrest : Tracks (Held K (Φ ++ finallyBlk.toList) L m) (do
      setTerm (.br (firstCheck rethrow blocks))
      let clauses ←
        lowerCatches lower finallyBlk joinBlock rethrow excTypeName excSlot 0 blocks catches
      let finallyEnd ← lowerRethrow lower finallyBlk rethrow excSlot
      popFinally finallyBlk
      setCur joinBlock
      return (⟨joinBlock, pad, rethrow, excSlot, clauses, finallyEnd⟩ : TryBlocks)) (do
      setTerm (.br (firstCheck rethrow blocks))
      let clauses ← lowerCatchesScoped lowerIn env finallyBlk joinBlock rethrow excTypeName excSlot
        0 blocks catches
      let finallyEnd ← lowerRethrow (lowerIn env) finallyBlk rethrow excSlot
      popFinally finallyBlk
      setCur joinBlock
      return (⟨joinBlock, pad, rethrow, excSlot, clauses, finallyEnd⟩ : TryBlocks))
      fun _ => Held K Φ L m := by
    refine Tracks.keep fun _ => ?_
    refine Tracks.bind (lowerCatches_alike henv hV joinBlock rethrow excTypeName excSlot 0 hlt hvars
      hcatches hfinally) fun clauses => ?_
    refine Tracks.bind (lowerRethrow_alike excSlot hn.2 hfinally) fun finallyEnd => ?_
    refine Tracks.bind (popFinally_tracks finallyBlk) fun _ => ?_
    exact (Kept.then (held_setCur hn.1) fun _ => kept_pure).tracks
  refine Tracks.imp hrest ?_ fun _ s hs => hs.mono (Subset.refl _) (by omega)
  rintro s rfl
  exact hheld

end Arth.Lower
