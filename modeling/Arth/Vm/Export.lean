import Arth.Vm.Native
import Arth.Vm.OverCaller

/-!
# Calls from an embedder

`call_export` runs a function of a program with string arguments, as an internal `Op::Call` runs
it on top of a caller's operands.

* `callExport` — the checks of the call and the state its run starts in.
* `RunsAlike` — both calls bind the parameters to the arguments and run the body alike.
* `BindsAlike` — when they do.
-/

namespace Arth

open List

open Jit (readLocal targetLocal callOp_prologue callOp_bare callOp_bare_nil)
open Relation (ReflTransGen)

variable {W : Type} {env : Env W} {c : State W} {offset : UInt32} {args : List String}
  {x : Bool} {n : Nat}

/-- The arguments in the locals from `target` on; what lies beyond the frame is dropped. -/
def placeArgs (frame : List (Option Value)) (target : Nat) : List Value → List (Option Value)
  | [] => frame
  | arg :: args => placeArgs (frame.set target (some arg)) (target + 1) args

/-- The state `run_program_internal` starts an export call in. A function with a prologue gets
the arguments on the stack, pushed in reverse; its first read is looked for all the same, for
the debug output. -/
def exportStart (env : Env W) (offset : UInt32) (args : List Value) (w : W) : Outcome W :=
  let start := { State.initial w with ip := offset.toNat }
  let frame := List.replicate (scanFunctionLocalCount env.program offset) none
  match args with
  | [] => .next start
  | arg :: args =>
    match findFirstLocalGet env.program offset with
    | .loops => .hang
    | _ =>
      if isLocalSet env.program.code[offset.toNat]? then
        .next { start with stack := arg :: args, frames := [frame] }
      else
        .next { start with
          frames := [placeArgs frame (targetLocal env.program offset) (arg :: args)] }

/-- What `call_export` does: it refuses the call, or runs the interpreter and makes `Success` of
a `.returnValue` and `Failed` of a failure. -/
inductive ExportCall (W : Type) where
  | exportNotFound
  | invalidArgument (message : String)
  | runs (o : Outcome W)

/-- `call_export`, up to the first instruction. -/
def callExport (env : Env W) (offset arity : UInt32) (args : List String) (w : W) :
    ExportCall W :=
  if env.program.code.length ≤ offset.toNat then .exportNotFound
  else if args.length ≠ arity.toNat then
    .invalidArgument
      ("expected " ++ toString arity.toNat ++ " arguments, got " ++ toString args.length)
  else .runs (exportStart env offset (args.map .str) w)

/-- The instructions that store `n` parameters, the last one first. -/
def prologue : Nat → List Op
  | 0 => []
  | n + 1 => .localSet (UInt32.ofNat n) :: prologue n

/-- A function of `n` parameters at `offset`, with a prologue or without one. -/
structure Takes (p : Program) (offset : UInt32) (n : Nat) : Prop where
  inCode : offset.toNat < p.code.length
  prologue : isLocalSet p.code[offset.toNat]? = true →
    0 < n ∧ (p.code.drop offset.toNat).take n = prologue n

/-- The instructions run one after the other. -/
def execAll (env : Env W) : List Op → State W → Outcome W
  | [], s => .next s
  | op :: ops, s =>
    match exec env op s with
    | .next s' => execAll env ops s'
    | o => o

/-- The instructions that bind the `n` parameters of the function at `offset`. -/
def binding (p : Program) (offset : UInt32) (n : Nat) : List Op :=
  if isLocalSet p.code[offset.toNat]? then (p.code.drop offset.toNat).take n else []

/-- The local of parameter `i`: without a prologue the parameters follow the first read. -/
def paramLocal (p : Program) (offset : UInt32) (i : Nat) : UInt32 :=
  if isLocalSet p.code[offset.toNat]? then UInt32.ofNat i
  else UInt32.ofNat (targetLocal p offset + i)

/-- From `s`, where the function is entered, its body starts with parameter `i` bound to the
`i`-th argument. -/
def Binds (env : Env W) (offset : UInt32) (args : List Value) (s : State W) : Prop :=
  ∃ s' f fs, execAll env (binding env.program offset args.length) s = .next s' ∧
    s'.frames = f :: fs ∧
      ∀ i (h : i < args.length), readLocal f (paramLocal env.program offset i) = args[i]

/-- What the function finds of its caller at a call in `c`. -/
def State.caller (c : State W) : Caller :=
  ⟨c.stack, c.frames, (c.ip + 1) :: c.retStack, c.handlers, c.steps, c.hostLog⟩

/-- From `s` on its own and with the frames `fs` on top of the caller `b`, as long as the
function takes nothing of the caller's, it does the same turn by turn and ends the same. -/
def EndsAlike (env : Env W) (x : Bool) (b : Caller) (s : State W)
    (fs : List (List (Option Value))) : Prop :=
  ∀ t, OwnRun env b s t → ∃ gs, FramesAlike t.frames gs ∧
    ReflTransGen (Step (env.calledBy x)) (s.over fs b) (t.over gs b) ∧
      (OwnTurn env b t →
        Outcome.Over b (step (env.calledBy true) t) (step (env.calledBy x) (t.over gs b)))

/-- The export call and an internal call in `c`, on a stack that ends in the arguments, both bind
the parameters to the arguments, read the same locals, and run and end alike. -/
def RunsAlike (env : Env W) (x : Bool) (offset arity : UInt32) (args : List String)
    (c : State W) : Prop :=
  ∃ s fs, callExport (env.calledBy true) offset arity args c.world = .runs (.next s) ∧
    exec (env.calledBy x) (.call offset)
      { c with stack := (args.map Value.str).reverse ++ c.stack } =
        .next (s.over fs c.caller) ∧
    Binds (env.calledBy true) offset (args.map .str) s ∧
    FramesAlike s.frames fs ∧ EndsAlike env x c.caller s fs

/-- The arguments and the caller for which the two calls are alike: no exception is pending; a
function with a prologue gets the same arguments in either order, and the search for its first
read ends; one without has no parameter and takes no operand, or one that it reads first. -/
def BindsAlike (p : Program) (offset : UInt32) (args : List String) (c : State W) : Prop :=
  c.exception = 0 ∧
    if isLocalSet p.code[offset.toNat]? then
      args.reverse = args ∧ findFirstLocalGet p offset ≠ .loops
    else
      (args = [] ∧ c.stack = []) ∨
        (args.length = 1 ∧ findFirstLocalGet p offset ≠ .loops ∧
          targetLocal p offset < scanFunctionLocalCount p offset)

/-! ## Binding -/

theorem take_prologue (h : Takes env.program offset n)
    (hset : isLocalSet env.program.code[offset.toNat]? = true) :
    binding env.program offset n = prologue n := by
  rw [binding, if_pos hset, (h.prologue hset).2]

theorem binding_bare {p : Program}
    (hset : isLocalSet p.code[offset.toNat]? = false) : binding p offset n = [] := by
  rw [binding, if_neg (by simp [hset])]

variable {s : State W} {fs : List (List (Option Value))} {f : List (Option Value)}

theorem execAll_prologue (env : Env W) (vs : List Value) (hsize : vs.length ≤ 2 ^ 32)
    (hframes : s.frames = f :: fs)
    {st : List Value} (hstack : s.stack = vs.reverse ++ st) :
    ∃ s' g, execAll env (prologue vs.length) s = .next s' ∧ s'.frames = g :: fs ∧
      (∀ i (h : i < vs.length), readLocal g (UInt32.ofNat i) = vs[i]) ∧
        ∀ i, vs.length ≤ i → i < 2 ^ 32 →
          readLocal g (UInt32.ofNat i) = readLocal f (UInt32.ofNat i) := by
  -- the first instruction takes the last value, and the rest of the prologue keeps its local
  induction vs using List.reverseRecOn generalizing s f with
  | nil => exact ⟨s, f, rfl, hframes, fun i hi => absurd hi (Nat.not_lt_zero i), fun _ _ _ => rfl⟩
  | append_singleton vs v ih =>
    have hlen : (vs ++ [v]).length = vs.length + 1 := by simp
    have hlt : vs.length < 2 ^ 32 := by omega
    have hlast : (UInt32.ofNat vs.length).toNat = vs.length := UInt32.toNat_ofNat_of_lt' hlt
    have hexec : exec env (.localSet (UInt32.ofNat vs.length)) s = .next { s with
          stack := vs.reverse ++ st
          frames := setLocal f (UInt32.ofNat vs.length).toNat v :: fs }.advance := by
      change localSet _ s = _
      simp [localSet, hframes, hstack]
    obtain ⟨s', g, hrun, hg, hbound, hkept⟩ := ih (by omega) (s := { s with
        stack := vs.reverse ++ st
        frames := setLocal f (UInt32.ofNat vs.length).toNat v :: fs }.advance) rfl rfl
    refine ⟨s', g, ?_, hg, ?_, ?_⟩
    · rw [hlen, prologue, execAll, hexec]
      exact hrun
    · intro i hi
      rcases Nat.lt_or_ge i vs.length with h | h
      · rw [getElem_append_left h]
        exact hbound i h
      · obtain rfl : i = vs.length := by omega
        rw [hkept vs.length le_rfl hlt, Jit.readLocal_setLocal, if_pos rfl]
        simp
    · intro i hi hsmall
      have hne : UInt32.ofNat i ≠ UInt32.ofNat vs.length := by
        intro h
        have hnat := congrArg UInt32.toNat h
        rw [UInt32.toNat_ofNat_of_lt' hsmall, hlast] at hnat
        omega
      rw [hkept i (by omega) hsmall, Jit.readLocal_setLocal, if_neg hne]

theorem map_str_palindrome (args : List String) :
    (args.map Value.str).reverse = args.map Value.str ↔ args.reverse = args := by
  have hinj : Function.Injective Value.str := fun _ _ h => by injection h
  rw [← map_reverse]
  exact (map_injective_iff.2 hinj).eq_iff

variable {vs : List Value}

theorem binds_prologue_iff (env : Env W) (h : Takes env.program offset vs.length)
    (hsize : vs.length ≤ 2 ^ 32) (hset : isLocalSet env.program.code[offset.toNat]? = true) (hframes : s.frames = [f]) (hstack : s.stack = vs) :
    Binds env offset vs s ↔ vs.reverse = vs := by
  have hlocal : ∀ i, paramLocal env.program offset i = UInt32.ofNat i := fun i => by
    rw [paramLocal, if_pos hset]
  obtain ⟨s', g, hrun, hg, hbound, -⟩ := execAll_prologue env vs.reverse (by simpa)
    hframes (show s.stack = vs.reverse.reverse ++ [] by simpa using hstack)
  rw [length_reverse] at hrun
  constructor
  · rintro ⟨t, g', fs, ht, hg', hargs⟩
    rw [take_prologue h hset, hrun] at ht
    obtain rfl : s' = t := by injection ht
    obtain ⟨rfl, -⟩ : g = g' ∧ [] = fs := by simpa [hg] using hg'
    refine ext_getElem (by simp) fun i hi hi' => ?_
    rw [← hbound i hi, ← hargs i hi', hlocal]
  · intro hrev
    refine ⟨s', g, [], by rw [take_prologue h hset, hrun], hg, fun i hi => ?_⟩
    rw [hlocal, hbound i (by simpa using hi)]
    exact getElem_of_eq hrev _

variable {a : String}

theorem binds_bare_iff (env : Env W) (hset : isLocalSet env.program.code[offset.toNat]? = false)
    (hframes : s.frames = [(replicate (scanFunctionLocalCount env.program offset) none).set
      (targetLocal env.program offset) (some (.str a))]) : Binds env offset [.str a] s ↔
      targetLocal env.program offset < scanFunctionLocalCount env.program offset := by
  have hsmall : targetLocal env.program offset < 2 ^ 32 := by
    unfold targetLocal
    split
    · exact UInt32.toNat_lt _
    · norm_num
  have hlocal : (paramLocal env.program offset 0).toNat = targetLocal env.program offset := by
    rw [paramLocal, if_neg (by simp [hset]), add_zero, UInt32.toNat_ofNat_of_lt' hsmall]
  have hread := Jit.readLocal_set (scanFunctionLocalCount env.program offset)
    (targetLocal env.program offset) (.str a) (paramLocal env.program offset 0)
  rw [hlocal] at hread
  constructor
  · rintro ⟨s', f, fs, hbind, hf, hargs⟩
    rw [binding_bare hset, execAll] at hbind
    obtain rfl : s = s' := Outcome.next.inj hbind
    obtain ⟨rfl, -⟩ := cons.inj (hframes.symm.trans hf)
    -- a local beyond the frame reads as 0, which is no string
    by_contra hout
    rw [if_neg fun hin => hout hin.2] at hread
    cases hread.symm.trans (hargs 0 Nat.zero_lt_one)
  · intro hin
    rw [if_pos ⟨rfl, hin⟩] at hread
    refine ⟨s, _, [], by rw [binding_bare hset, execAll], hframes, fun i hi => ?_⟩
    obtain rfl : i = 0 := Nat.lt_one_iff.1 hi
    exact hread

variable {w : W} {v : Value}

theorem callExport_runs {arity : UInt32} (h : Takes env.program offset arity.toNat)
    (hargs : args.length = arity.toNat) : callExport (env.calledBy true) offset arity args w =
      .runs (exportStart env offset (args.map .str) w) := by
  have hin : ¬ (env.calledBy true).program.code.length ≤ offset.toNat := not_le.2 h.inCode
  rw [callExport, if_neg hin, if_neg (by simp [hargs])]
  rfl

theorem call_eq : exec (env.calledBy x) (.call offset) s = callOp env offset s := rfl

theorem exportStart_prologue (hset : isLocalSet env.program.code[offset.toNat]? = true) :
    exportStart env offset (v :: vs) w = if findFirstLocalGet env.program offset = .loops then .hang
      else .next { State.initial w with
        ip := offset.toNat
        stack := v :: vs
        frames := [replicate (scanFunctionLocalCount env.program offset) none] } := by
  unfold exportStart
  cases hfind : findFirstLocalGet env.program offset <;> simp [hset]

theorem exportStart_bare (hset : isLocalSet env.program.code[offset.toNat]? = false) :
    exportStart env offset (v :: vs) w = if findFirstLocalGet env.program offset = .loops then .hang
      else .next { State.initial w with
        ip := offset.toNat
        frames := [placeArgs (replicate (scanFunctionLocalCount env.program offset) none)
          (targetLocal env.program offset) (v :: vs)] } := by
  unfold exportStart
  cases hfind : findFirstLocalGet env.program offset <;> simp [hset]

theorem endsAlike {b : Caller}
    (hb : b.retStack ≠ []) (hfs : FramesAlike s.frames fs) (hs : s.Balanced) :
    EndsAlike env x b s fs := by
  intro t hrun
  obtain ⟨ht, gs, hgs, hrun'⟩ := run_over (x := x) hb hfs hs hrun
  exact ⟨gs, hgs, hrun', step_over hgs ht hb⟩

/-! ## The two calls compared -/

section Compared
variable {arity : UInt32}

theorem RunsAlike.bindsAlike_of_prologue (h : Takes env.program offset arity.toNat)
    (hargs : args.length = arity.toNat) (hset : isLocalSet env.program.code[offset.toNat]? = true)
    (hrun : RunsAlike env x offset arity args c) : BindsAlike env.program offset args c := by
  obtain ⟨s, fs, hexport, hcall, hbinds, -, -⟩ := hrun
  have hcount := (h.prologue hset).1
  obtain ⟨a, as, rfl⟩ := exists_cons_of_length_pos (show 0 < args.length by omega)
  rw [callExport_runs h hargs, map_cons, exportStart_prologue hset] at hexport
  rw [call_eq, callOp_prologue hset] at hcall
  have hexc : c.exception = s.exception := (congrArg State.exception (Outcome.next.inj hcall) :)
  split at hexport
  · cases hexport
  · next hfinds =>
    obtain rfl : _ = s := by injection hexport with h; injection h
    have htakes : Takes env.program offset ((a :: as).map Value.str).length := by
      rw [length_map, hargs]
      exact h
    have hsize : ((a :: as).map Value.str).length ≤ 2 ^ 32 := by
      rw [length_map, hargs]
      exact arity.toNat_lt.le
    have hrev := (binds_prologue_iff (env.calledBy true) htakes hsize hset rfl rfl).1 hbinds
    refine ⟨hexc, ?_⟩
    rw [if_pos hset]
    exact ⟨(map_str_palindrome _).1 hrev, hfinds⟩

theorem RunsAlike.bindsAlike_of_nil (hset : isLocalSet env.program.code[offset.toNat]? = false)
    (h : Takes env.program offset arity.toNat) (hargs : ([] : List String).length = arity.toNat)
    (hrun : RunsAlike env x offset arity [] c) : BindsAlike env.program offset [] c := by
  obtain ⟨s, fs, hexport, hcall, -, -, -⟩ := hrun
  rw [callExport_runs h hargs] at hexport
  obtain rfl : _ = s := by injection hexport with h; injection h
  rw [call_eq] at hcall
  cases hstack : c.stack with
  | nil =>
    rw [callOp_bare_nil hset (by simp [hstack])] at hcall
    have hexc : c.exception = 0 := (congrArg State.exception (Outcome.next.inj hcall) :)
    refine ⟨hexc, ?_⟩
    rw [if_neg (by simp [hset])]
    exact .inl ⟨rfl, hstack⟩
  | cons v st =>
    rw [callOp_bare hset (show _ = v :: st by simp [hstack])] at hcall
    split at hcall
    · cases hcall
    · have hst : st = c.stack := (congrArg State.stack (Outcome.next.inj hcall) :)
      have hlen := congrArg length (hst.trans hstack)
      simp at hlen

theorem RunsAlike.bindsAlike_of_cons {as : List String}
    (hset : isLocalSet env.program.code[offset.toNat]? = false)
    (h : Takes env.program offset arity.toNat) (hargs : (a :: as).length = arity.toNat)
    (hrun : RunsAlike env x offset arity (a :: as) c) :
    BindsAlike env.program offset (a :: as) c := by
  obtain ⟨s, fs, hexport, hcall, hbinds, -, -⟩ := hrun
  rw [callExport_runs h hargs, map_cons, exportStart_bare hset] at hexport
  split at hexport
  · cases hexport
  · next hfinds =>
    obtain rfl : _ = s := by injection hexport with h; injection h
    obtain ⟨v, st, hstack⟩ : ∃ v st, ((a :: as).map Value.str).reverse ++ c.stack = v :: st :=
      exists_cons_of_ne_nil (by simp)
    rw [call_eq, callOp_bare hset hstack, if_neg hfinds] at hcall
    have hexc : c.exception = 0 := (congrArg State.exception (Outcome.next.inj hcall) :)
    have hst : st = c.stack := (congrArg State.stack (Outcome.next.inj hcall) :)
    -- the other arguments stay on the caller's operands
    have hlen := congrArg length hstack
    simp only [hst, length_append, length_reverse, length_map, length_cons] at hlen
    obtain rfl : as = [] := eq_nil_of_length_eq_zero (by omega)
    refine ⟨hexc, ?_⟩
    rw [if_neg (by simp [hset])]
    exact .inr ⟨rfl, hfinds, (binds_bare_iff (env.calledBy true) hset rfl).1 hbinds⟩

section

variable (h : Takes env.program offset arity.toNat)
include h

theorem runsAlike_of_prologue (hargs : args.length = arity.toNat)
    (hset : isLocalSet env.program.code[offset.toNat]? = true) (hexc : c.exception = 0)
    (hrev : args.reverse = args) (hfinds : findFirstLocalGet env.program offset ≠ .loops) :
    RunsAlike env x offset arity args c := by
  have hcount := (h.prologue hset).1
  have hvs := (map_str_palindrome args).2 hrev
  have hlen : (args.map Value.str).length = arity.toNat := by rw [length_map, hargs]
  obtain ⟨v, vs, hcons⟩ : ∃ v vs, args.map Value.str = v :: vs :=
    exists_cons_of_length_pos (by omega)
  let s : State W := { State.initial c.world with
    ip := offset.toNat
    stack := args.map Value.str
    frames := [replicate (scanFunctionLocalCount env.program offset) none] }
  refine ⟨s, s.frames, ?_, ?_, ?_, framesAlike_refl _,
    endsAlike (cons_ne_nil _ _) (framesAlike_refl _) (.start rfl rfl rfl)⟩
  · rw [callExport_runs h hargs]
    simp only [s, hcons]
    rw [exportStart_prologue hset, if_neg hfinds]
  · rw [call_eq, callOp_prologue hset, hvs]
    simp [State.enter, State.over, State.caller, State.initial, s, hexc]
  · have htakes : Takes env.program offset (args.map Value.str).length := hlen ▸ h
    have hsize : (args.map Value.str).length ≤ 2 ^ 32 := hlen ▸ arity.toNat_lt.le
    exact (binds_prologue_iff (env.calledBy true) (s := s) htakes hsize hset rfl rfl).2 hvs

theorem runsAlike_of_nil (hargs : ([] : List String).length = arity.toNat)
    (hset : isLocalSet env.program.code[offset.toNat]? = false) (hexc : c.exception = 0)
    (hstack : c.stack = []) : RunsAlike env x offset arity [] c := by
  let s : State W := { State.initial c.world with ip := offset.toNat }
  let frame := replicate (scanFunctionLocalCount env.program offset) (none : Option Value)
  -- the export call starts without locals, the internal one with locals never written
  have hframes : FramesAlike s.frames [frame] :=
    .cons (fun ix => (Jit.readLocal_replicate _ ix).symm) .nil
  refine ⟨s, [frame], ?_, ?_, ?_, hframes, endsAlike (cons_ne_nil _ _) hframes (.start rfl rfl rfl)⟩
  · rw [callExport_runs h hargs]
    rfl
  · rw [call_eq, callOp_bare_nil hset (by simp [hstack])]
    simp [State.enter, State.over, State.caller, State.initial, s, frame, hexc]
  · exact ⟨s, [], [], congrArg (execAll _ · s) (binding_bare hset), rfl,
      fun i hi => absurd hi (Nat.not_lt_zero i)⟩

theorem runsAlike_of_single (hargs : [a].length = arity.toNat)
    (hset : isLocalSet env.program.code[offset.toNat]? = false) (hexc : c.exception = 0)
    (hfinds : findFirstLocalGet env.program offset ≠ .loops)
    (hframe : targetLocal env.program offset < scanFunctionLocalCount env.program offset) :
    RunsAlike env x offset arity [a] c := by
  let s : State W := { State.initial c.world with
    ip := offset.toNat
    frames := [(replicate (scanFunctionLocalCount env.program offset) none).set
      (targetLocal env.program offset) (some (.str a))] }
  refine ⟨s, s.frames, ?_, ?_, (binds_bare_iff (env.calledBy true) hset rfl).2 hframe,
    framesAlike_refl _, endsAlike (cons_ne_nil _ _) (framesAlike_refl _) (.start rfl rfl rfl)⟩
  · rw [callExport_runs h hargs, map_singleton, exportStart_bare hset, if_neg hfinds]
    rfl
  · rw [call_eq, callOp_bare hset (show _ = Value.str a :: c.stack by simp), if_neg hfinds]
    simp [State.enter, State.over, State.caller, State.initial, s, hexc]

end

end Compared

end Arth
