import Arth.Vm.Osr
import Arth.Vm.Confinement

/-!
# Loops replaced on the stack

* `Interprets` — the interpreter from the header to the first place outside of the loop.
* `SameEnds` — the native loop ends where the interpreted one does, with the same locals. What
  `call_osr` leaves in the locals is what it found there.
* `interp_ops`, `interp_pass` — what the reading of a pass says about the interpreter.
* `osr_iff` — the loops that are preserved: straight ones that end, if at all, with the locals
  they started with.
-/

namespace Arth.Jit

open List Option

open Runs (turns Ends Follows)

variable {W : Type} {env : Env W}

/-- One instruction of the loop; the loop ends outside of it, or with the program. -/
def insTurn (env : Env W) (lp : Loop env.program) (s : State W) : State W ⊕ Option (State W) :=
  match env.program.code[s.ip]? with
  | none => .inr none
  | some op =>
    match exec env op s with
    | .next s' => if lp.Inside s'.ip then .inl s' else .inr (some s')
    | _ => .inr none

def Interprets (env : Env W) (lp : Loop env.program) (s s' : State W) : Prop :=
  Ends (insTurn env lp) s (some s')

/-- The locals of the function that runs. -/
def localsOf (s : State W) (ix : UInt32) : Value := readLocal (s.frames.headD []) ix

/-- At the header, with integers for locals. -/
structure Enters {p : Program} (lp : Loop p) (locals : UInt32 → Int64) (s : State W) : Prop where
  ip : s.ip = lp.header.toNat
  frames : s.frames ≠ []
  locals : ∀ ix, localsOf s ix = .i64 (locals ix)

section Native

variable {p : Program}

/-- The locals in scope, as `try_osr_call` is handed them. -/
def argsOf (lp : Loop p) (locals : UInt32 → Int64) : List Int64 :=
  (entryBlock lp.localCount).locals.map locals

/-- The native loop returns from its jump numbered `n`. -/
def NativeLeaves (run : OsrCode × List Int64) (n : Nat) : Prop :=
  ∃ v, Ends (nativeTurn run.1 run.2) (paramVars run.2) (.returned n v)

end Native

/-- The native loop, called in a state `s` at the header, ends at the place where the interpreted
loop ends, and the locals are then the same. The call leaves those of `s`. -/
def SameEnds (env : Env W) (lp : Loop env.program) (locals : UInt32 → Int64)
    (run : OsrCode × List Int64) : Prop :=
  ∀ s : State W, Enters lp locals s → ∀ t l,
    (∃ s', Interprets env lp s s' ∧ s'.ip = t ∧ localsOf s' = l) ↔
      ∃ n, NativeLeaves run n ∧ lp.target n = some t ∧ localsOf s = l

/-- The loop is preserved. -/
def Preserves (env : Env W) (lp : Loop env.program) (locals : UInt32 → Int64)
    (run : OsrCode × List Int64) : Prop :=
  JumpsRight lp run.1 ∧ SameEnds env lp locals run

section Reading

variable {p : Program}

def readTurn (lp : Loop p) (locals : UInt32 → Slot) : PassReading :=
  readPass lp.header lp.ops ⟨[], [], locals⟩

def ints (locals : UInt32 → Int64) : UInt32 → Slot := fun ix => .int (locals ix)

/-- No operation of the loop is without a result, and none meets operands that the native code
takes for others. -/
def Settled (lp : Loop p) (locals : UInt32 → Int64) : Prop :=
  ∀ q, Ends (readTurn lp) (ints locals) q → q ≠ none

/-- Where the loop ends, every local is what it was at the header. -/
def Kept (lp : Loop p) (locals : UInt32 → Int64) : Prop :=
  ∀ t ls, Ends (readTurn lp) (ints locals) (some (t, ls)) → ∀ ix, (ls ix).value = .i64 (locals ix)

end Reading

section Interpreter

variable {lp : Loop env.program} {s s' : State W} {r : Reading} {junk : List Value}

/-- At the header with the locals of the reading; the operand stack may hold anything. -/
def AtHeader (lp : Loop env.program) (s : State W) (locals : UInt32 → Slot) : Prop :=
  s.ip = lp.header.toNat ∧ ∃ junk, Running s ⟨[], [], locals⟩ (fun _ => True) junk

/-- An end of the interpreted loop against that of the reading. -/
def SameExit : Option (Nat × (UInt32 → Slot)) → Option (State W) → Prop
  | some (t, locals), some s => s.ip = t ∧ ∀ ix, localsOf s ix = (locals ix).value
  | _, _ => False

variable {op : Op}

variable (lp) in
theorem insTurn_next (hget : env.program.code[s.ip]? = some op) (hexec : exec env op s = .next s') :
    insTurn env lp s = if lp.Inside s'.ip then .inl s' else .inr (some s') := by
  unfold insTurn
  rw [hget]
  simp only [hexec]

theorem follows_jump {tgt : UInt32} {st : List Value} (hget : env.program.code[s.ip]? = some op)
    (hexec : exec env op s = .next (State.jump { s with stack := st } tgt.toNat))
    (htgt : tgt = lp.header ∨ ¬ lp.Inside tgt.toNat)
    (hrun : Running s r (fun _ => True) junk) :
    Follows (insTurn env lp) (AtHeader lp) SameExit s (readJump lp.header tgt r.locals) := by
  obtain ⟨f, fs, hf, hread⟩ := hrun.locals
  have hturn := insTurn_next lp hget hexec
  unfold readJump
  by_cases hheader : tgt = lp.header
  · have hin : lp.Inside tgt.toNat := by
      rw [hheader]
      exact ⟨le_rfl, lp.header_le⟩
    rw [if_pos hheader]
    refine ⟨1, State.jump { s with stack := st } tgt.toNat, Nat.one_pos, ?_, ?_, st, ?_⟩
    · rw [turns, hturn, State.jump, if_pos hin]
      rfl
    · rw [hheader]
      rfl
    · exact ⟨rfl, f, fs, hf, hread⟩
  · have hout := htgt.resolve_left hheader
    rw [if_neg hheader]
    refine ⟨some (State.jump { s with stack := st } tgt.toNat), ⟨1, ?_⟩, rfl, fun ix => ?_⟩
    · rw [turns, hturn, State.jump, if_neg hout]
    · rw [← hread ix trivial]
      simp only [localsOf, State.jump, hf, headD_cons]

theorem readPass_cons {header : UInt32} {ops : List Op}
    (h : readPass header (op :: ops) r ≠ .inr none) :
    (∃ tgt, op = .jump tgt) ∨ (∃ tgt, op = .jumpIfFalse tgt) ∨
      ∃ k r', op = k.op ∧ r.step k = .ok r' := by
  by_cases hjump : ∃ tgt, op = .jump tgt
  · exact .inl hjump
  by_cases hbranch : ∃ tgt, op = .jumpIfFalse tgt
  · exact .inr (.inl hbranch)
  push Not at hjump hbranch
  rw [readPass.eq_4 _ _ _ _ hjump hbranch] at h
  split at h
  · rename_i k hk
    split at h
    · rename_i r' hr'
      exact .inr (.inr ⟨k, r', op_of_kindOf hk, hr'⟩)
    · exact absurd rfl h
  · exact absurd rfl h

theorem interp_ops {n : Nat} {ops : List Op} (hstraight : lp.Straight)
    (hops : lp.ops.drop n = ops) (hip : s.ip = lp.header.toNat + n)
    (hrun : Running s r (fun _ => True) junk) (hsettled : readPass lp.header ops r ≠ .inr none) :
    Follows (insTurn env lp) (AtHeader lp) SameExit s (readPass lp.header ops r) := by
  induction ops generalizing n s r junk with
  | nil => exact absurd rfl hsettled
  | cons op ops ih =>
    have hnext : lp.ops.drop (n + 1) = ops := by
      rw [← tail_drop, hops]
      rfl
    have hn : lp.ops[n]? = some op := by
      rw [← head?_drop, hops]
      rfl
    have hget : env.program.code[s.ip]? = some op := by
      rw [hip]
      exact lp.getElem?_ops hn
    have hat := hstraight n op hn
    -- an instruction that goes on in the loop, as its pass does
    have hstep (s₁ : State W) (r₁ : Reading) (junk₁ : List Value)
        (hexec : exec env op s = .next s₁) (hip₁ : s₁.ip = s.ip + 1)
        (hrun₁ : Running s₁ r₁ (fun _ => True) junk₁)
        (hread : readPass lp.header (op :: ops) r = readPass lp.header ops r₁) :
        Follows (insTurn env lp) (AtHeader lp) SameExit s (readPass lp.header (op :: ops) r) := by
      rw [hread] at hsettled ⊢
      have hne : ops ≠ [] := by
        rintro rfl
        exact hsettled rfl
      have hlen := lp.length_ops
      have hdrop := congrArg length hnext
      have hpos := length_pos_iff.2 hne
      rw [length_drop] at hdrop
      have hin : lp.Inside s₁.ip := by
        unfold Loop.Inside
        omega
      have hone : turns (insTurn env lp) 1 s = .inl s₁ := by
        rw [turns, insTurn_next lp hget hexec, if_pos hin]
        rfl
      exact (ih hnext (by omega) hrun₁ hsettled).after hone
    rcases readPass_cons hsettled with ⟨tgt, rfl⟩ | ⟨tgt, rfl⟩ | ⟨k, r', rfl, hr'⟩
    · have hexec : exec env (.jump tgt) s = .next (State.jump { s with stack := s.stack } tgt.toNat) :=
        rfl
      exact follows_jump hget hexec hat hrun
    · obtain ⟨c, m, st, hst, hc, hread⟩ := readPass_branch hsettled
      have hstack : s.stack = .bool c :: (st.map Slot.value ++ (r.below.map Value.i64 ++ junk)) := by
        rw [hrun.stack, hst]
        rfl
      have hexec := @exec_jumpIfFalse _ env s tgt _ _ hstack
      cases c with
      | true =>
        obtain ⟨f, fs, hf, hlocals⟩ := hrun.locals
        exact hstep _ { r with stack := st } junk hexec rfl ⟨rfl, f, fs, hf, hlocals⟩ hread
      | false =>
        rw [hread]
        refine follows_jump hget hexec ?_ hrun
        refine hat.2.imp_right fun hfar hin => ?_
        have hnear := hin.2
        omega
    · obtain ⟨s₁, junk₁, hexec, hstepped⟩ :=
        exec_kind env hrun (fun _ _ => trivial) (fun _ (_ : True) _ => trivial) hr'
      refine hstep s₁ r' junk₁ hexec hstepped.ip hstepped.running ?_
      rw [readPass_kind, hr']

/-- **The interpreted pass** of a straight loop. -/
theorem interp_pass (hstraight : lp.Straight) {locals : UInt32 → Slot} (h : AtHeader lp s locals)
    (hsettled : ∀ q, readTurn lp locals = .inr q → q ≠ none) :
    Follows (insTurn env lp) (AtHeader lp) SameExit s (readTurn lp locals) := by
  obtain ⟨hip, junk, hrun⟩ := h
  exact interp_ops hstraight (n := 0) rfl hip hrun fun hnone => hsettled none hnone rfl

theorem Enters.atHeader {locals : UInt32 → Int64} (h : Enters lp locals s) :
    AtHeader lp s (ints locals) := by
  obtain ⟨f, fs, hf⟩ := exists_cons_of_ne_nil h.frames
  refine ⟨h.ip, s.stack, rfl, f, fs, hf, fun ix _ => ?_⟩
  have hix := h.locals ix
  rwa [localsOf, hf, headD_cons] at hix

end Interpreter

section NativeRuns

variable {p : Program} {lp : Loop p} {c : OsrCode} {locals : UInt32 → Int64}

/-- An end of the native loop against that of the reading. -/
def SamePlace (lp : Loop p) : Option (Nat × (UInt32 → Slot)) → NativeExit → Prop
  | some (t, _), .returned n _ => lp.target n = some t
  | _, _ => False

theorem native_follows (hc : lp.Compiled c) (hright : JumpsRight lp c) {args : List Int64}
    (hargs : args.length = lp.localCount.toNat) {vars : UInt32 → Int64} {ls : UInt32 → Slot}
    (hcarries : Carries lp vars ls) (hsettled : ∀ q, readTurn lp ls = .inr q → q ≠ none) :
    Follows (nativeTurn c args) (Carries lp) (SamePlace lp) vars (readTurn lp ls) := by
  have hpass := native_pass hc hright hargs hcarries
  change (runPass c.body args vars).Reads lp (readTurn lp ls) at hpass
  cases hread : readTurn lp ls with
  | inl ls' =>
    rw [hread] at hpass
    obtain ⟨vars', hrun, hcarries'⟩ := hpass
    refine ⟨1, vars', Nat.one_pos, ?_, hcarries'⟩
    rw [turns, nativeTurn, hrun]
    rfl
  | inr q =>
    cases q with
    | none => exact absurd rfl (hsettled none hread)
    | some e =>
      obtain ⟨t, ls'⟩ := e
      rw [hread] at hpass
      obtain ⟨n, vals, hrun, htarget⟩ := hpass
      refine ⟨.returned n ((c.result.map (vals.getD · 0)).getD 0), ⟨1, ?_⟩, htarget⟩
      rw [turns, nativeTurn, hrun]

theorem length_argsOf (lp : Loop p) (locals : UInt32 → Int64) :
    (argsOf lp locals).length = lp.localCount.toNat := by
  simp [argsOf, entryBlock]

theorem carries_argsOf (lp : Loop p) (locals : UInt32 → Int64) :
    Carries lp (paramVars (argsOf lp locals)) (ints locals) := by
  intro ix hix
  simp only [entryBlock, List.mem_map, mem_range] at hix
  obtain ⟨i, hi, rfl⟩ := hix
  have hlt := lp.localCount.toNat_lt
  have hnat : (UInt32.ofNat i).toNat = i := by
    rw [UInt32.toNat_ofNat', Nat.mod_eq_of_lt (by omega)]
  simp [paramVars, argsOf, entryBlock, hnat, hi, ints, Slot.native]

end NativeRuns

/-! ## Preservation -/

section Preservation

variable {lp : Loop env.program} {c : OsrCode} {locals : UInt32 → Int64} {s : State W}

theorem ends_alike (hc : lp.Compiled c) (hstraight : lp.Straight) (hsettled : Settled lp locals)
    (hs : Enters lp locals s) :
    ((∀ s', ¬ Interprets env lp s s') ∧ (∀ n, ¬ NativeLeaves (c, argsOf lp locals) n) ∧
        ∀ q, ¬ Ends (readTurn lp) (ints locals) q) ∨
      ∃ t ls s' n, Ends (readTurn lp) (ints locals) (some (t, ls)) ∧ Interprets env lp s s' ∧
        s'.ip = t ∧ (∀ ix, localsOf s' ix = (ls ix).value) ∧
        NativeLeaves (c, argsOf lp locals) n ∧ lp.target n = some t := by
  have hinterp := fun (s : State W) ls (h : AtHeader lp s ls) => interp_pass hstraight h
  have hnative := fun vars ls (h : Carries lp vars ls) => native_follows hc
    ((jumpsRight_iff hc).2 hstraight) (length_argsOf lp locals) h
  by_cases hend : ∃ q, Ends (readTurn lp) (ints locals) q
  · obtain ⟨q, hq⟩ := hend
    cases q with
    | none => exact absurd rfl (hsettled none hq)
    | some e =>
      obtain ⟨t, ls⟩ := e
      obtain ⟨o, ho, hexit⟩ := Follows.ends hinterp hs.atHeader hq (hsettled _ hq)
      obtain ⟨x, hx, hplace⟩ := Follows.ends hnative (carries_argsOf lp locals) hq (hsettled _ hq)
      cases o with
      | none => exact hexit.elim
      | some s' =>
        cases x with
        | trap => exact hplace.elim
        | returned n v => exact .inr ⟨t, ls, s', n, hq, ho, hexit.1, hexit.2, ⟨v, hx⟩, hplace⟩
  · refine .inl ⟨fun s' hs' => ?_, fun n hn => ?_, fun q hq => hend ⟨q, hq⟩⟩
    · obtain ⟨q, hq, -⟩ := Follows.ends_back hinterp hs.atHeader hsettled hs'
      exact hend ⟨q, hq⟩
    · obtain ⟨v, hv⟩ := hn
      obtain ⟨q, hq, -⟩ := Follows.ends_back hnative (carries_argsOf lp locals) hsettled hv
      exact hend ⟨q, hq⟩

theorem sameEnds_of_kept (hc : lp.Compiled c) (hstraight : lp.Straight)
    (hsettled : Settled lp locals) (hkept : Kept lp locals) :
    SameEnds env lp locals (c, argsOf lp locals) := by
  intro s hs t l
  rcases ends_alike hc hstraight hsettled hs with ⟨hno, hnone, -⟩ |
    ⟨t', ls, s', n, hread, hinterp, hip, hlocals, hleaves, htarget⟩
  · constructor
    · rintro ⟨s', hs', -⟩
      exact absurd hs' (hno s')
    · rintro ⟨n, hn, -⟩
      exact absurd hn (hnone n)
  · -- the interpreted loop ends with the locals of the header
    have hsame : localsOf s' = localsOf s := by
      funext ix
      rw [hlocals ix, hkept t' ls hread ix, hs.locals ix]
    constructor
    · rintro ⟨s'', hs'', rfl, rfl⟩
      obtain rfl : s' = s'' := some.inj (Ends.unique hinterp hs'')
      exact ⟨n, hleaves, by rw [hip]; exact htarget, hsame.symm⟩
    · rintro ⟨m, ⟨v, hv⟩, hm, rfl⟩
      obtain ⟨w, hw⟩ := hleaves
      obtain ⟨rfl, -⟩ : n = m ∧ w = v := by simpa using Ends.unique hw hv
      have htt : t' = t := some.inj (htarget.symm.trans hm)
      exact ⟨s', hinterp, hip.trans htt, hsame⟩

theorem exists_enters [Inhabited W] (lp : Loop env.program) (locals : UInt32 → Int64) :
    ∃ s : State W, Enters lp locals s := by
  obtain ⟨n, hn⟩ : ∃ n, ∀ ix : UInt32, ix.toNat < n := ⟨UInt32.size, fun ix => ix.toNat_lt⟩
  let f : List (Option Value) := (range n).map fun i => some (.i64 (locals (.ofNat i)))
  refine ⟨{ State.initial default with ip := lp.header.toNat, frames := [f] }, rfl, ?_, fun ix => ?_⟩
  · exact cons_ne_nil _ _
  · simp only [localsOf, headD_cons, readLocal, f, getElem?_map, map_some,
      getElem?_range (hn ix), UInt32.ofNat_toNat, join_some, getD_some]

theorem kept_of_sameEnds [Inhabited W] (hc : lp.Compiled c) (hstraight : lp.Straight)
    (hsettled : Settled lp locals) (hsame : SameEnds env lp locals (c, argsOf lp locals)) :
    Kept lp locals := by
  intro t ls hread ix
  obtain ⟨s, hs⟩ := exists_enters lp locals
  rcases ends_alike hc hstraight hsettled hs with ⟨-, -, hnone⟩ |
    ⟨t', ls', s', n, hread', hinterp, hip, hlocals, -, -⟩
  · exact absurd hread (hnone _)
  · obtain ⟨rfl, rfl⟩ : t = t' ∧ ls = ls' := by simpa using Ends.unique hread hread'
    obtain ⟨-, -, -, hl⟩ := (hsame s hs t (localsOf s')).1 ⟨s', hinterp, hip, rfl⟩
    rw [← hlocals ix, ← hl, hs.locals ix]

theorem callOsr_ok {run : OsrCode × List Int64}
    (h : callOsr lp.localCount c (argsOf lp locals) = .ok run) : run = (c, argsOf lp locals) := by
  unfold callOsr at h
  split at h
  · cases h
  · split at h
    · cases h
      rfl
    · cases h

end Preservation

/-- `while (x < 1) { x = x + 1; }` -/
def raiseCode : List Op :=
  [.localGet 0, .pushI64 1, .ltI64, .jumpIfFalse 9, .localGet 0, .pushI64 1, .addI64, .localSet 0,
    .jump 0, .halt]

def raiseLoop : Loop (exampleEnv none raiseCode).program := ⟨0, 8, 1, by decide, by decide⟩

def raiseNative : OsrCode :=
  ⟨1, [.ins (.useVar 0), .ins (.iconst 1), .ins (.icmp .signedLessThan 1 2), .ins (.uextend 3),
    .branch 3 4 .exitBlock, .ins (.useVar 0), .ins (.iconst 1), .ins (.binary .iadd 5 6),
    .ins (.defVar 0 7), .jump 8 .loopBlock], none⟩

theorem raiseLoop_straight : raiseLoop.Straight := by
  have hright : JumpsRight raiseLoop raiseNative := by
    simp only [JumpsRight, raiseNative, forall_mem_cons]
    exact ⟨trivial, trivial, trivial, trivial, rfl, trivial, trivial, trivial, trivial, rfl, by simp⟩
  exact (jumpsRight_iff (compiled_of_compileOsr rfl)).1 hright

/-- `while (true) { if (x == 1) { x = 2; } }`, without the way out. -/
def innerIf : List Op :=
  [.localGet 0, .pushI64 1, .eqI64, .jumpIfFalse 6, .pushI64 2, .localSet 0, .jump 0]

def innerLoop : Loop (exampleEnv none innerIf).program := ⟨0, 6, 1, by decide, by decide⟩

end Arth.Jit
