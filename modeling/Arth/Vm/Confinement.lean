import Arth.Lib.Runs
import Arth.Vm.Exec

/-!
# Capability confinement

The host-call families check the context before they do anything; the instructions that
reach the same domains directly do not.

* `exec_logs` — the operations an instruction performs, and when it can perform one whose
  capability is denied.
* `confined` — a run without such instructions performs no denied operation, and its
  denied host calls push `-1` and do nothing else.
* `not_confined` — a program that opens a socket under a context that denies everything.
-/

namespace Arth

open Relation Runs List

variable {W : Type} {env : Env W} {op : Op} {s s' : State W} {c : Capability}

/-- An instruction that reaches the domain of `c` without a check: a direct instruction of
the domain, a generic host call or an extern call that ends up there. -/
inductive ReachesUnchecked (env : Env W) (c : Capability) (s : State W) : Op → Prop where
  | direct {op : Op} (h : op.directCapability = some c) : ReachesUnchecked env c s op
  | generic {args rest : List Value} {sg : Sig} (hsig : Op.hostCallGeneric.sig = some sg)
    (hpop : popOperands sg.operands s.stack = .taken args rest)
    (h : c ∈ env.rt.genericCapabilities args) : ReachesUnchecked env c s .hostCallGeneric
  | native {sym : UInt32} {argc : UInt8} {floatMask : UInt32} {retKind : UInt8} {name : String}
    (hname : env.program.stringAt sym = some name) (h : c ∈ env.rt.externCapabilities name) :
    ReachesUnchecked env c s (.externCall sym argc floatMask retKind)

theorem ReachesUnchecked.of_tick (h : ReachesUnchecked env c s.tick op) :
    ReachesUnchecked env c s op := by
  cases h with
  | direct h => exact .direct h
  | generic hsig hpop h => exact .generic hsig hpop h
  | native hname h => exact .native hname h

/-- The next instruction does not reach the domain of `c` unchecked. -/
def Checked (env : Env W) (c : Capability) (s : State W) : Prop :=
  ∀ op, env.program.code[s.ip]? = some op → ¬ ReachesUnchecked env c s op

/-! ## One instruction -/

theorem mem_performs {args : List Value} (h : c ∈ performs env op args) :
    (∃ sg, op.hostCall? = some (c, sg)) ∨ op.directCapability = some c ∨
      op = .hostCallGeneric ∧ c ∈ env.rt.genericCapabilities args := by
  unfold performs at h
  split at h
  all_goals first
    | exact .inr (.inr ⟨rfl, h⟩)
    | exact .inr (.inl (by simpa using h))
    | exact .inl (by rw [mem_singleton.1 h]; exact ⟨_, rfl⟩)

theorem hostCall?_plain (h : op.isControl = false) : op.hostCall? = none := by
  cases op
  all_goals first
    | rfl
    | cases h

/-- From `s` to `s'` the instruction performed operations of capabilities in `P` only. -/
def Logs (P : Capability → Prop) (op : Op) (s s' : State W) : Prop :=
  ∃ cs : List Capability, s'.hostLog = cs.map (·, op) ++ s.hostLog ∧ ∀ c ∈ cs, P c

theorem Logs.same {P : Capability → Prop} (h : s'.hostLog = s.hostLog) : Logs P op s s' :=
  ⟨[], by simpa using h, by simp⟩

theorem Unwinds.hostLog (h : Unwinds s s') : s'.hostLog = s.hostLog := by
  obtain ⟨hd, hs, -, rfl⟩ := h
  rfl

/-- **What an instruction performs.** An operation of a denied capability is performed by
an instruction that reaches its domain without a check, and by no other. -/
theorem exec_logs (h : Exec env s op s') :
    Logs (fun c => env.denies c = true → ReachesUnchecked env c s op) op s s' := by
  cases h with
  | computed hsig hpop heval =>
    rename_i sg args rest w vs
    refine ⟨performs env op args, rfl, fun c hc hdenied => ?_⟩
    rcases mem_performs hc with ⟨sg', hop⟩ | hc | ⟨rfl, hc⟩
    · -- the operation belongs to the family that was checked
      rcases hsig with ⟨hplain, -⟩ | ⟨c', hop', hallowed⟩
      · rw [hostCall?_plain hplain] at hop
        cases hop
      · rw [hop'] at hop
        cases hop
        rw [hallowed] at hdenied
        cases hdenied
    · exact .direct hc
    · rcases hsig with ⟨-, hsig⟩ | ⟨c', hop', -⟩
      · exact .generic hsig hpop hc
      · cases hop'
  | externCall sym argc floatMask retKind hname hargc =>
    exact ⟨_, rfl, fun c hc _ => .native hname hc⟩
  | panic _ hunwinds | throw _ hunwinds | awaitFails _ hunwinds => exact .same hunwinds.hostLog
  | _ => exact .same rfl

/-- No operation of `c` was performed. -/
def Untouched (c : Capability) (s : State W) : Prop := ∀ e ∈ s.hostLog, e.1 ≠ c

theorem step_untouched (hdenied : env.denies c = true) (hs : Untouched c s) (hchecked : Checked env c s)
    (h : Step env s s') : Untouched c s' := by
  obtain ⟨op, hop, hexec⟩ := step_exec h
  obtain ⟨cs, hlog, hcs⟩ := exec_logs hexec
  intro e he
  rw [hlog, mem_append] at he
  rcases he with he | he
  · obtain ⟨c', hc', rfl⟩ := mem_map.1 he
    rintro rfl
    exact hchecked op hop (hcs c' hc' hdenied).of_tick
  · exact hs e he

theorem step_denied {sg : Option Sig} (hdenied : env.denies c = true)
    (hop : env.program.code[s.ip]? = some op) (hcall : op.hostCall? = some (c, sg))
    (hbudget : overBudget env s = false) :
    step env s = .next (s.tick.push (.i64 (-1))).advance := by
  have hctx : ∃ cfg, env.ctx = some cfg := by
    unfold Env.denies at hdenied
    cases hctx : env.ctx with
    | none => simp [hctx] at hdenied
    | some cfg => exact ⟨cfg, rfl⟩
  obtain ⟨cfg, hctx⟩ := hctx
  have hhost : ∀ (op : Op) (sg : Sig),
      hostCall env c op sg s.tick = .next (s.tick.push (.i64 (-1))).advance := by
    intro op sg
    simp [hostCall, hdenied]
  have hcontext : ∀ (op : Op) (sg : Sig),
      contextCall env c op sg s.tick = .next (s.tick.push (.i64 (-1))).advance := by
    intro op sg
    simp only [contextCall, hctx, hhost]
  have hexec : step env s = exec env op s.tick := by
    simp only [step, hop, hbudget]
    rfl
  rw [hexec]
  cases op.view with
  | hostCallIo | hostCallNet => cases hcall; exact hhost _ _
  | hostCallTime o =>
    cases hcall
    cases hsig : o.sig with
    | some sg =>
      rw [exec_hostCallTime_some hsig]
      exact hhost _ _
    | none => rw [exec_hostCallTime_none hsig, if_pos hdenied]
  | hostCallDb | hostCallMail | hostCallCrypto => cases hcall; exact hcontext _ _
  | plain hplain =>
    rw [hostCall?_plain hplain] at hcall
    cases hcall
  | _ => cases hcall

/-- **Confinement, as far as the code has it.** A run whose steps never reach the domain of
a denied capability through an unchecked instruction performs none of its operations, and
every denied host call in it pushes `-1` and does nothing else. -/
theorem confined (env : Env W) (c : Capability) (hdenied : env.denies c = true)
    {s s' : State W} (hlog : s.hostLog = [])
    (hrun : ReflTransGen (Guarded (Checked env c) (Step env)) s s') : (∀ e ∈ s'.hostLog, e.1 ≠ c) ∧
      ∀ op sg, env.program.code[s'.ip]? = some op → op.hostCall? = some (c, sg) →
        overBudget env s' = false → step env s' = .next (s'.tick.push (.i64 (-1))).advance := by
  constructor
  · have hs : Untouched c s := by simp [Untouched, hlog]
    exact Guarded.invariant (I := Untouched c)
      (fun _ _ h hchecked hstep => step_untouched hdenied h hchecked hstep) hrun hs
  · intro op sg hop hcall hbudget
    exact step_denied hdenied hop hcall hbudget

/-- A context that denies everything. -/
def denyAll : HostConfig :=
  ⟨false, false, false, false, false, false, false, false, false, false⟩

/-- A runtime in which every function succeeds with 0. -/
def zeroRuntime : Runtime Unit where
  eval _ _ w := .done w [.i64 0]
  builtin _ _ w := (w, .i64 0)
  closureGetFuncId _ _ := none
  closureGetCaptures _ _ := []
  rcDec w _ := (w, none)
  taskState _ _ := .absent
  taskMarkRunning w _ := w
  taskArgs _ _ := []
  getPanicMessage _ := ""
  panicWithMessage w _ := w
  resolveExternSymbol _ := false
  genericCapabilities _ := []
  externCapabilities _ := []

/-- The program `code` under `ctx`, with the default budgets. -/
def exampleEnv (ctx : Option HostConfig) (code : List Op) : Env Unit :=
  ⟨⟨[], code, [], []⟩, ctx, [], false, 2000000, 1000000, 64000, zeroRuntime⟩

theorem confined_readLine : Capability.io ∉
      (({ (State.initial ()) with steps := 1 }.push (.i64 (-1))).advance).hostLog.map Prod.fst := by
  have hrun : ReflTransGen
      (Guarded (Checked (exampleEnv (some denyAll) [.hostCallIo .consoleReadLine]) .io)
        (Step (exampleEnv (some denyAll) [.hostCallIo .consoleReadLine])))
      (State.initial ()) (({ (State.initial ()) with steps := 1 }.push (.i64 (-1))).advance) := by
    refine ReflTransGen.single ⟨?_, rfl⟩
    rintro op ⟨⟩ h
    cases h with
    | direct h => cases h
  intro hmem
  obtain ⟨e, he, hio⟩ := List.mem_map.1 hmem
  exact (confined _ .io rfl rfl hrun).1 e he hio

/-- **No confinement.** Under a context that denies everything a program opens a listening
socket: the documented enforcement covers the host-call families only. -/
theorem not_confined :
    ¬ ∀ (env : Env Unit) (c : Capability) (s s' : State Unit), env.denies c = true →
      s.hostLog = [] → ReflTransGen (Step env) s s' → ∀ e ∈ s'.hostLog, e.1 ≠ c := by
  intro h
  let env := exampleEnv (some denyAll) [.pushI64 8080, .tcpListenerBind]
  have hpush : Step env (State.initial ())
      { (State.initial ()) with ip := 1, steps := 1, stack := [.i64 8080] } := rfl
  have hbind : Step env { (State.initial ()) with ip := 1, steps := 1, stack := [.i64 8080] }
      { (State.initial ()) with
        ip := 2, steps := 2, stack := [.i64 0], hostLog := [(.net, .tcpListenerBind)] } := rfl
  exact h env .net _ _ rfl rfl ((ReflTransGen.single hpush).tail hbind) (.net, .tcpListenerBind)
    (by simp) rfl

end Arth
