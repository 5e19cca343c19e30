import Arth.Runtime.Actor

/-!
# What a receive reports

* `Report` — what there is to say about a channel to one who wants to receive, and what a
  result says by its documented codes.
* `receives_iff` — exactly when the receives of the runtime report what there is.
-/

namespace Arth.Runtime

open Runs List Option Function

inductive Report where
  | value (v : Int64)
  | empty
  | closed
  | failed
  deriving DecidableEq

/-- What a result means, by the codes that the documentation of the call lists. -/
def Report.read (codes : List (Int64 × Report)) (result : Int64) : Report :=
  (codes.lookup result).getD (.value result)

def recvCodes : List (Int64 × Report) := [(-2, .empty), (-3, .closed)]

def recvBlockingCodes : List (Int64 × Report) := [(-3, .closed)]

def actorRecvCodes : List (Int64 × Report) := [(-2, .empty), (-3, .closed), (-4, .failed)]

def actorRecvBlockingCodes : List (Int64 × Report) := [(-3, .closed), (-4, .failed)]

/-- A receive with these codes reports what there is; without a result it waits, which is
right on an empty open channel only. -/
def Truthful (codes : List (Int64 × Report)) (truth : Report) : Option Int64 → Prop
  | some result => Report.read codes result = truth
  | none => truth = .empty

/-- The next value is none of the codes. -/
def Distinct (codes : List (Int64 × Report)) (next : Option Int64) : Prop :=
  ∀ v ∈ next, ∀ c ∈ codes, c.1 ≠ v

/-- What a channel has to report, by its next value and its flag. -/
def report (next : Option Int64) (closed : Bool) : Report :=
  match next with
  | some v => .value v
  | none => if closed then .closed else .empty

variable {codes : List (Int64 × Report)} {next r : Option Int64} {closed : Bool}

section

variable (hcodes : ∀ c ∈ codes, ∀ v, c.2 ≠ .value v)
include hcodes

theorem read_value_iff (v : Int64) : Report.read codes v = .value v ↔ ∀ c ∈ codes, c.1 ≠ v := by
  unfold Report.read
  induction codes with
  | nil => simp
  | cons c codes ih =>
    rw [lookup_cons]
    by_cases hc : c.1 = v
    · have hbeq : (v == c.1) = true := by simp [hc]
      rw [hbeq]
      constructor
      · exact fun h => absurd h (hcodes c mem_cons_self v)
      · exact fun h => absurd hc (h c mem_cons_self)
    · have hbeq : (v == c.1) = false := by simpa using Ne.symm hc
      rw [hbeq]
      simp only [forall_mem_cons]
      rw [ih fun c' hc' => hcodes c' (mem_cons_of_mem c hc')]
      exact ⟨fun h => ⟨hc, h⟩, fun h => h.2⟩

theorem truthful_iff_distinct (hvalue : ∀ v, next = some v → r = some v)
    (hnone : next = none → Truthful codes (report next closed) r) :
    Truthful codes (report next closed) r ↔ Distinct codes next := by
  cases next with
  | none =>
    refine ⟨fun _ => ?_, fun _ => hnone rfl⟩
    intro v hv
    cases hv
  | some v =>
    rw [hvalue v rfl]
    change Report.read codes v = .value v ↔ _
    rw [read_value_iff hcodes]
    constructor
    · intro h v' hv' c hc
      cases hv'
      exact h c hc
    · exact fun h => h v rfl

theorem truthful_waiting : Truthful codes (report next closed) next ↔
      Distinct codes next ∧ ¬ (next = none ∧ closed = true) := by
  cases next with
  | none =>
    cases closed with
    | true => simp [Truthful, report]
    | false => simp [Truthful, report, Distinct]
  | some v =>
    rw [truthful_iff_distinct hcodes (fun _ hv => hv) (fun h => by cases h)]
    simp

end

/-- The result that a step of a call ends with, or goes on with to wake a sender. -/
def Pc.result : Pc → Option Int64
  | .ready result => some result
  | .wakeSender _ value => some value
  | _ => none

namespace World

variable {T : Type} [DecidableEq T] {w w' : World T} {l : T × Call × Nat} {t : T} {h : Int64}
  {ch : MpmcChannel}

/-- The channel that a step of a thread receives from, and the codes of its call. -/
def receives (w : World T) (l : T × Call × Nat) : Option (Int64 × List (Int64 × Report)) :=
  match (w.threads l.1).pc with
  | .ready _ =>
    match l.2.1 with
    | .recv h | .recvWithTask h _ | .recvAndWake h => some (h, recvCodes)
    | _ => none
  | .blockedRecv h => some (h, recvBlockingCodes)
  | _ => none

/-- The result of the step; none if the thread waits. -/
def answer (w : World T) (l : T × Call × Nat) : Option Int64 :=
  (w.next l).bind fun w' => (w'.threads l.1).pc.result

theorem threads_onChannel {found : MpmcChannel → MpmcChannel × ThreadState}
    {missing : ThreadState} (hch : w.chans h = some ch) :
    (w.onChannel t h found missing).threads t = (found ch).2 := by
  unfold onChannel
  rw [hch]
  exact update_self ..

theorem recvWithTask_result (taskId : UInt64) : (ch.recvWithTask taskId).2 = ch.recv.2 := by
  unfold MpmcChannel.recvWithTask MpmcChannel.recv
  cases ch.tryRecv with
  | some r => rfl
  | none =>
    simp only
    split <;> rfl

theorem recv_first {v : Int64} (h : ch.first = some v) : ch.recv.2 = v := by
  obtain ⟨m, hm, rfl⟩ := map_eq_some_iff.1 h
  obtain ⟨queue, hq⟩ := head?_eq_some_iff.1 hm
  unfold MpmcChannel.recv MpmcChannel.tryRecv
  rw [hq]

theorem first_eq_none : ch.first = none ↔ ch.queue = [] := by
  unfold MpmcChannel.first
  rw [map_eq_none_iff, head?_eq_none_iff]

theorem recv_of_none (h : ch.first = none) : ch.recv.2 = if ch.closed then -3 else -2 := by
  unfold MpmcChannel.recv MpmcChannel.tryRecv
  rw [first_eq_none.1 h]

theorem truthful_recv : Truthful recvCodes (report ch.first ch.closed) (some ch.recv.2) ↔
    Distinct recvCodes ch.first := by
  apply truthful_iff_distinct
  · simp [recvCodes]
  · exact fun v hv => congrArg some (recv_first hv)
  · intro hnone
    rw [recv_of_none hnone, hnone]
    cases ch.closed <;> exact rfl

theorem answer_of_ready {result : Int64} (hpc : (w.threads l.1).pc = .ready result) :
    w.answer l = ((w.start l.1 (w.threads l.1) l.2.1).threads l.1).pc.result := by
  unfold answer next step
  rw [hpc]
  rfl

theorem answer_recv {result : Int64} {h : Int64} (hpc : (w.threads l.1).pc = .ready result)
    (hch : w.chans h = some ch)
    (hcall : l.2.1 = .recv h ∨ (∃ task, l.2.1 = .recvWithTask h task) ∨ l.2.1 = .recvAndWake h) :
    w.answer l = some ch.recv.2 := by
  rw [answer_of_ready hpc]
  rcases hcall with hcall | ⟨task, hcall⟩ | hcall
  · rw [hcall]
    change ((w.onChannel _ h _ _).threads l.1).pc.result = _
    rw [threads_onChannel hch]
    rfl
  · rw [hcall]
    change ((w.onChannel _ h _ _).threads l.1).pc.result = _
    rw [threads_onChannel hch]
    change some (ch.recvWithTask task).2 = _
    rw [recvWithTask_result]
  · rw [hcall]
    change ((w.onChannel _ h _ _).threads l.1).pc.result = _
    rw [threads_onChannel hch]
    split <;> rfl

theorem answer_blockedRecv (hpc : (w.threads l.1).pc = .blockedRecv h)
    (hch : w.chans h = some ch) : w.answer l = ch.first := by
  unfold answer next step
  rw [hpc]
  change ((w.chans h).bind _).bind _ = _
  rw [hch]
  change ((ch.tryRecv).bind _).bind _ = _
  unfold MpmcChannel.tryRecv MpmcChannel.first
  cases hq : ch.queue with
  | nil => rfl
  | cons m queue =>
    change ((w.onChannel _ h _ _).threads l.1).pc.result = _
    rw [threads_onChannel hch]
    rfl

/-- **The receives of one MPMC channel.** -/
theorem truthful_receives (hreceives : w.receives l = some (h, codes)) (hch : w.chans h = some ch) :
    Truthful codes (report ch.first ch.closed) (w.answer l) ↔ Distinct codes ch.first ∧
      (codes = recvBlockingCodes → ¬ (ch.first = none ∧ ch.closed = true)) := by
  unfold receives at hreceives
  have hne : recvCodes ≠ recvBlockingCodes := by decide
  split at hreceives
  · rename_i result hpc
    have hplain : ∀ call, l.2.1 = call → (call = .recv h ∨ (∃ task, call = .recvWithTask h task) ∨
        call = .recvAndWake h) → (Truthful recvCodes (report ch.first ch.closed) (w.answer l) ↔
          Distinct recvCodes ch.first ∧
            (recvCodes = recvBlockingCodes → ¬ (ch.first = none ∧ ch.closed = true))) := by
      rintro call rfl hcall
      rw [answer_recv hpc hch hcall, truthful_recv]
      exact ⟨fun hd => ⟨hd, fun heq => absurd heq hne⟩, fun hd => hd.1⟩
    split at hreceives
    · cases hreceives
      exact hplain _ ‹_› (.inl rfl)
    · cases hreceives
      exact hplain _ ‹_› (.inr (.inl ⟨_, rfl⟩))
    · cases hreceives
      exact hplain _ ‹_› (.inr (.inr rfl))
    · cases hreceives
  · rename_i hpc
    cases hreceives
    rw [answer_blockedRecv hpc hch, truthful_waiting (by simp [recvBlockingCodes])]
    exact ⟨fun hd => ⟨hd.1, fun _ => hd.2⟩, fun hd => ⟨hd.1, hd.2 rfl⟩⟩
  · cases hreceives

/-! ## Selects -/

/-- Inside the first pass of a select. -/
def Selecting (pc : Pc) : Prop :=
  ∃ task index handles allClosed, pc = .probe task index handles allClosed

/-- The channels as the probes of a thread find them in a run, which goes on in between. -/
def found (t : T) : World T → List (T × Call × Nat) → List (Option MpmcChannel)
  | _, [] => []
  | w, l :: ls =>
    let rest := (w.next l).elim [] fun w' => found t w' ls
    if l.1 = t then
      match (w.threads t).pc with
      | .probe _ _ (h :: _) _ => w.chans h :: rest
      | _ => rest
    else rest

/-- What the end of a select says about the channels it found: a message of one of them, or
that all were empty, and whether one of them was open. -/
inductive SelectEnds (states : List (Option MpmcChannel)) (th : ThreadState) : Prop where
  | received (k ch m) (hpc : th.pc = .ready 0) (hfound : states[k]? = some (some ch))
    (hqueue : ch.queue.head? = some m) (hindex : th.selectResultIndex = Int64.ofNat k)
    (hvalue : th.selectResultValue = m.value)
  | allClosed (hpc : th.pc = .ready 2)
    (hdrained : ∀ ch, some ch ∈ states → ch.queue = [] ∧ ch.closed = true)
  | noneReady (hpc : th.pc = .ready 1 ∨ ∃ task, th.pc = .register task)
    (hempty : ∀ ch, some ch ∈ states → ch.queue = [])
    (hopen : ∃ ch, some ch ∈ states ∧ ch.closed = false)

/-- What a thread knows of the channels it has probed. -/
structure Probed (states : List (Option MpmcChannel)) (index : Int64) (allClosed : Bool) :
    Prop where
  index : index = Int64.ofNat states.length
  empty : ∀ ch, some ch ∈ states → ch.queue = []
  closed : allClosed = true ↔ ∀ ch, some ch ∈ states → ch.closed = true

theorem probed_nil : Probed [] 0 true := ⟨rfl, by simp, by simp⟩

variable {states : List (Option MpmcChannel)} {valid : List (Int64 × Int64)} {th : ThreadState}

theorem ofNat_length_succ {o : Option MpmcChannel} :
    Int64.ofNat states.length + 1 = Int64.ofNat (states ++ [o]).length := by
  rw [length_append, length_singleton, Int64.ofNat_add]
  rfl

theorem Probed.missing {index : Int64} {allClosed : Bool}
    (h : Probed states index allClosed) : Probed (states ++ [none]) (index + 1) allClosed where
  index := by
    rw [h.index]
    exact ofNat_length_succ
  empty ch hch := h.empty ch (by simpa using hch)
  closed := by
    rw [h.closed]
    simp

theorem Probed.append {index : Int64} {allClosed : Bool}
    (h : Probed states index allClosed) (hempty : ch.queue = []) :
    Probed (states ++ [some ch]) (index + 1) (allClosed && ch.closed) where
  index := by
    rw [h.index]
    exact ofNat_length_succ
  empty ch' hch' := by
    rcases mem_append.1 hch' with hch' | hch'
    · exact h.empty ch' hch'
    · cases mem_singleton.1 hch'
      exact hempty
  closed := by
    rw [Bool.and_eq_true, h.closed]
    constructor
    · rintro ⟨hall, hclosed⟩ ch' hch'
      rcases mem_append.1 hch' with hch' | hch'
      · exact hall ch' hch'
      · cases mem_singleton.1 hch'
        exact hclosed
    · intro hall
      exact ⟨fun ch' hch' => hall ch' (mem_append_left _ hch'),
        hall ch (mem_append_right _ (mem_singleton_self _))⟩

theorem Probed.allClosed {index : Int64}
    (h : Probed states index true) (hpc : th.pc = .ready 2) : SelectEnds states th :=
  .allClosed hpc fun ch hch => ⟨h.empty ch hch, h.closed.1 rfl ch hch⟩

theorem Probed.noneReady {index : Int64}
    (h : Probed states index false) (hpc : th.pc = .ready 1 ∨ ∃ task, th.pc = .register task) :
    SelectEnds states th := by
  refine .noneReady hpc h.empty ?_
  by_contra hall
  push Not at hall
  have hclosed := h.closed.2 fun ch hch => by simpa using hall ch hch
  cases hclosed

/-- **A select that does not block.** However the steps of other threads fall between its
probes, it ends with what the channels had when it probed them. -/
theorem select_ends {task : Option UInt64} {index : Int64}
    {handles : List Int64} {allClosed : Bool} {ls : List (T × Call × Nat)}
    (hprobed : Probed states index allClosed)
    (hpc : (w.threads t).pc = .probe task index handles allClosed)
    (hrun : run World.next w ls = some w')
    (hduring : ∀ pre, pre <+: ls → pre ≠ ls → ∀ w₁, run World.next w pre = some w₁ →
      Selecting (w₁.threads t).pc) (hend : ¬ Selecting (w'.threads t).pc) :
    SelectEnds (states ++ found t w ls) (w'.threads t) := by
  induction ls generalizing w states index handles allClosed with
  | nil =>
    cases hrun
    exact absurd ⟨_, _, _, _, hpc⟩ hend
  | cons l ls ih =>
    obtain ⟨w₁, hw₁, hrest⟩ := bind_eq_some_iff.1 hrun
    have hlater : ∀ pre, pre <+: ls → pre ≠ ls → ∀ w₂, run World.next w₁ pre = some w₂ →
        Selecting (w₂.threads t).pc := by
      intro pre hpre hne w₂ hw₂
      apply hduring (l :: pre) (cons_prefix_cons.2 ⟨rfl, hpre⟩) (by simpa using hne) w₂
      change (World.next w l).bind _ = some w₂
      rw [hw₁]
      exact hw₂
    -- a probe that ends the select is the last step
    have hlast : ¬ Selecting (w₁.threads t).pc → ls = [] ∧ w₁ = w' := by
      intro hnot
      cases ls with
      | nil =>
        cases hrest
        exact ⟨rfl, rfl⟩
      | cons l' ls =>
        exact absurd (hlater [] nil_prefix (by simp) w₁ rfl) hnot
    by_cases ht : l.1 = t
    · have hnext := hw₁
      unfold World.next step at hnext
      rw [ht, hpc] at hnext
      unfold found
      rw [hw₁, if_pos ht, hpc]
      cases handles with
      | nil =>
        have hthread : ∀ th, w₁ = w.setThread t th → ¬ Selecting th.pc →
            SelectEnds states th → SelectEnds (states ++ found t w₁ ls) (w'.threads t) := by
          rintro th rfl hnot hends
          have hth : (w.setThread t th).threads t = th := update_self ..
          obtain ⟨rfl, rfl⟩ := hlast (by rw [hth]; exact hnot)
          rw [hth]
          change SelectEnds (states ++ []) th
          rw [append_nil]
          exact hends
        cases allClosed with
        | true =>
          cases hnext
          refine hthread _ rfl ?_ (hprobed.allClosed rfl)
          rintro ⟨_, _, _, _, h⟩
          cases h
        | false =>
          cases task with
          | none =>
            cases hnext
            refine hthread _ rfl ?_ (hprobed.noneReady (.inl rfl))
            rintro ⟨_, _, _, _, h⟩
            cases h
          | some taskId =>
            cases hnext
            refine hthread _ rfl ?_ (hprobed.noneReady (.inr ⟨taskId, rfl⟩))
            rintro ⟨_, _, _, _, h⟩
            cases h
      | cons h handles =>
        change SelectEnds (states ++ (w.chans h :: found t w₁ ls)) _
        rw [← singleton_append, ← append_assoc]
        cases hch : w.chans h with
        | none =>
          have hth : w₁.threads t =
              (w.threads t).goto (.probe task (index + 1) handles allClosed) := by
            cases hnext
            unfold onChannel
            rw [hch]
            exact update_self ..
          exact ih hprobed.missing (by rw [hth]; rfl) hrest hlater
        | some ch =>
          cases hrecv : ch.tryRecv with
          | none =>
            have hempty : ch.queue = [] := by
              unfold MpmcChannel.tryRecv at hrecv
              cases hq : ch.queue with
              | nil => rfl
              | cons m queue =>
                rw [hq] at hrecv
                cases hrecv
            have hgo : (w₁.threads t).pc =
                .probe task (index + 1) handles (allClosed && ch.closed) := by
              cases hnext
              rw [threads_onChannel hch, hrecv]
              rfl
            exact ih (hprobed.append hempty) hgo hrest hlater
          | some r =>
            obtain ⟨m, ch'⟩ := r
            have hhead : ch.queue.head? = some m := by
              unfold MpmcChannel.tryRecv at hrecv
              cases hq : ch.queue with
              | nil =>
                rw [hq] at hrecv
                cases hrecv
              | cons m' queue =>
                rw [hq] at hrecv
                cases hrecv
                rfl
            have hth : w₁.threads t = selected (w.threads t) index m := by
              cases hnext
              rw [threads_onChannel hch, hrecv]
            obtain ⟨rfl, rfl⟩ := hlast (by
              rw [hth]
              rintro ⟨_, _, _, _, h⟩
              cases h)
            rw [hth]
            refine .received states.length ch m rfl ?_ hhead hprobed.index rfl
            simp
    · have hsame := step_threads hw₁ (Ne.symm ht)
      unfold found
      rw [hw₁, if_neg ht]
      exact ih hprobed (by rw [hsame, hpc]) hrest hlater

/-- No step of the thread is possible. -/
def Waits (w : World T) (t : T) : Prop := ∀ call pick, w.next (t, call, pick) = none

/-- All channels of a blocking select are closed and drained. -/
def Drained (w : World T) (valid : List (Int64 × Int64)) : Prop :=
  ∀ p ∈ valid, ∀ ch, w.chans p.2 = some ch → ch.queue = [] ∧ ch.closed = true

theorem waits_iff (hpc : (w.threads t).pc = .blockedSelect valid) :
    w.Waits t ↔ ∀ p ∈ valid, ∀ ch, w.chans p.2 = some ch → ch.queue = [] := by
  have hstep : ∀ call pick, w.next (t, call, pick) = (valid[pick]?).bind fun p =>
      (w.chans p.2).bind fun ch => ch.tryRecv.bind fun r =>
        some (w.onChannel t p.2 (fun _ => (r.2, selected (w.threads t) p.1 r.1)) (w.threads t)) := by
    intro call pick
    unfold next step
    rw [hpc]
    rfl
  constructor
  · intro hwaits p hp ch hch
    obtain ⟨pick, hpick⟩ := getElem?_of_mem hp
    have hnone := hwaits .selectClear pick
    rw [hstep, hpick, bind_some, hch, bind_some] at hnone
    unfold MpmcChannel.tryRecv at hnone
    cases hq : ch.queue with
    | nil => rfl
    | cons m queue =>
      rw [hq] at hnone
      cases hnone
  · intro hempty call pick
    rw [hstep]
    cases hpick : valid[pick]? with
    | none => rfl
    | some p =>
      rw [bind_some]
      cases hch : w.chans p.2 with
      | none => rfl
      | some ch =>
        rw [bind_some]
        unfold MpmcChannel.tryRecv
        rw [hempty p (mem_of_getElem? hpick) ch hch]
        rfl

/-- **A blocking select** waits for an open channel unless all are drained. -/
theorem waits_open_iff (hpc : (w.threads t).pc = .blockedSelect valid) :
    (w.Waits t → ∃ p ∈ valid, ∃ ch, w.chans p.2 = some ch ∧ ch.closed = false) ↔
      ¬ w.Drained valid := by
  rw [waits_iff hpc]
  constructor
  · intro h hdrained
    obtain ⟨p, hp, ch, hch, hopen⟩ := h fun p hp ch hch => (hdrained p hp ch hch).1
    rw [(hdrained p hp ch hch).2] at hopen
    cases hopen
  · intro hdrained hempty
    by_contra hnone
    apply hdrained
    intro p hp ch hch
    refine ⟨hempty p hp ch hch, ?_⟩
    by_contra hopen
    exact hnone ⟨p, hp, ch, hch, by simpa using hopen⟩

end World

/-! ## Receives of actors and of one thread -/

def ActorPc.result : ActorPc → Option Int64
  | .ready result => some result
  | _ => none

namespace ActorWorld

variable {T : Type} [DecidableEq T] {w : ActorWorld T} {l : T × ActorCall}

/-- The codes of the receive that a step of a thread makes, and what there is to report. A
blocking receive asks for the state once, before it waits. -/
def receives (w : ActorWorld T) (l : T × ActorCall) : Option (List (Int64 × Report) × Report) :=
  match w.threads l.1 with
  | .ready _ =>
    match l.2 with
    | .recv => some (actorRecvCodes,
        if w.state = .failed then .failed else report w.mailbox.first w.mailbox.closed)
    | .recvBlocking =>
      if w.state = .failed then some (actorRecvBlockingCodes, .failed) else none
    | _ => none
  | .blockedRecv => some (actorRecvBlockingCodes, report w.mailbox.first w.mailbox.closed)
  | _ => none

def answer (w : ActorWorld T) (l : T × ActorCall) : Option Int64 :=
  (w.next l).bind fun w' => (w'.threads l.1).result

/-- The thread is in the wait of a blocking receive. -/
def Blocked (w : ActorWorld T) (t : T) : Prop := w.threads t = .blockedRecv

theorem threads_goto (w : ActorWorld T) (t : T) (pc : ActorPc) : (w.goto t pc).threads t = pc :=
  update_self ..

theorem start_recv_threads (w : ActorWorld T) (t : T) : (w.start t .recv).threads t =
    .ready (if w.state = .failed then -4 else w.mailbox.recv.2) := by
  unfold start
  by_cases hfailed : w.state = .failed
  · simp only [if_pos hfailed]
    exact threads_goto ..
  · simp only [if_neg hfailed]
    exact threads_goto ..

theorem truthful_actorRecv {ch : MpmcChannel} :
    Truthful actorRecvCodes (report ch.first ch.closed) (some ch.recv.2) ↔
      Distinct actorRecvCodes ch.first := by
  apply truthful_iff_distinct
  · simp [actorRecvCodes]
  · exact fun v hv => congrArg some (World.recv_first hv)
  · intro hnone
    rw [World.recv_of_none hnone, hnone]
    cases ch.closed <;> exact rfl

theorem report_ne_failed {next : Option Int64} {closed : Bool} : report next closed ≠ .failed := by
  cases next <;> cases closed <;> simp [report]

/-- **The receives of an actor.** -/
theorem truthful_receives {codes : List (Int64 × Report)} {truth : Report}
    (hreceives : w.receives l = some (codes, truth)) :
    Truthful codes truth (w.answer l) ↔ (truth ≠ .failed → Distinct codes w.mailbox.first) ∧
      (w.Blocked l.1 → ¬ (w.mailbox.first = none ∧ w.mailbox.closed = true)) := by
  unfold receives at hreceives
  unfold answer next Blocked
  cases hpc : w.threads l.1 with
  | ready result =>
    rw [hpc] at hreceives
    have hfree : (ActorPc.ready result = .blockedRecv → ¬ (w.mailbox.first = none ∧
        w.mailbox.closed = true)) := nofun
    change Truthful codes truth (((w.start l.1 l.2).threads l.1).result) ↔ _
    cases hcall : l.2 with
    | recv =>
      rw [hcall] at hreceives
      cases hreceives
      rw [start_recv_threads]
      by_cases hfailed : w.state = .failed
      · rw [if_pos hfailed, if_pos hfailed]
        exact ⟨fun _ => ⟨absurd rfl, hfree⟩, fun _ => rfl⟩
      · rw [if_neg hfailed, if_neg hfailed]
        change Truthful _ _ (some w.mailbox.recv.2) ↔ _
        rw [truthful_actorRecv]
        exact ⟨fun h => ⟨fun _ => h, hfree⟩, fun h => h.1 report_ne_failed⟩
    | recvBlocking =>
      rw [hcall] at hreceives
      by_cases hfailed : w.state = .failed
      · simp only [if_pos hfailed] at hreceives
        cases hreceives
        unfold start
        simp only [if_pos hfailed]
        rw [threads_goto]
        exact ⟨fun _ => ⟨absurd rfl, hfree⟩, fun _ => rfl⟩
      · simp only [if_neg hfailed] at hreceives
        cases hreceives
    | _ =>
      rw [hcall] at hreceives
      cases hreceives
  | blockedRecv =>
    rw [hpc] at hreceives
    cases hreceives
    have hanswer : ((w.resume l.1 .blockedRecv).bind fun w' => (w'.threads l.1).result) =
        w.mailbox.first := by
      change ((w.mailbox.tryRecv).bind _).bind _ = _
      unfold MpmcChannel.tryRecv MpmcChannel.first
      cases hq : w.mailbox.queue with
      | nil => rfl
      | cons m queue =>
        change ((ActorWorld.goto _ l.1 (.ready m.value)).threads l.1).result = _
        rw [threads_goto]
        rfl
    rw [hanswer, truthful_waiting (by simp [actorRecvBlockingCodes])]
    exact ⟨fun h => ⟨fun _ => h.1, fun _ => h.2⟩, fun h => ⟨h.1 report_ne_failed, h.2 rfl⟩⟩
  | _ =>
    rw [hpc] at hreceives
    cases hreceives

end ActorWorld

/-- **The receives of a single-threaded channel.** -/
theorem Channel.truthful_recv {ch : Channel} :
    Truthful recvCodes (report ch.q.head? ch.closed) (some ch.recv.2) ↔
      Distinct recvCodes ch.q.head? := by
  apply truthful_iff_distinct
  · simp [recvCodes]
  · intro v hv
    obtain ⟨q, hq⟩ := head?_eq_some_iff.1 hv
    unfold Channel.recv
    rw [hq]
  · intro hnone
    unfold Channel.recv
    rw [head?_eq_none_iff.1 hnone]
    cases ch.closed <;> exact rfl

variable {T : Type} [DecidableEq T]

/-- **Unambiguous results.** The receives of MPMC channels (plain, with a task, waking and
blocking), of actors and of single-threaded channels report what there is just when the next
value is none of their codes and nobody waits on a closed, drained channel. A blocking select
waits for an open channel just when not all of its channels are drained. A select that does
not block always reports what its probes found. -/
theorem receives_iff :
    (∀ (w : World T) l h codes ch, w.receives l = some (h, codes) → w.chans h = some ch →
      (Truthful codes (report ch.first ch.closed) (w.answer l) ↔ Distinct codes ch.first ∧
        (codes = recvBlockingCodes → ¬ (ch.first = none ∧ ch.closed = true)))) ∧
    (∀ (w : ActorWorld T) l codes truth, w.receives l = some (codes, truth) →
      (Truthful codes truth (w.answer l) ↔ (truth ≠ .failed → Distinct codes w.mailbox.first) ∧
        (w.Blocked l.1 → ¬ (w.mailbox.first = none ∧ w.mailbox.closed = true)))) ∧
    (∀ ch : Channel, Truthful recvCodes (report ch.q.head? ch.closed) (some ch.recv.2) ↔
      Distinct recvCodes ch.q.head?) ∧
    (∀ (w : World T) t valid, (w.threads t).pc = .blockedSelect valid →
      ((w.Waits t → ∃ p ∈ valid, ∃ ch, w.chans p.2 = some ch ∧ ch.closed = false) ↔
        ¬ w.Drained valid)) ∧ (∀ (w w' : World T) t task handles ls,
      (w.threads t).pc = .probe task 0 handles true → run World.next w ls = some w' →
      (∀ pre, pre <+: ls → pre ≠ ls → ∀ w₁, run World.next w pre = some w₁ →
        World.Selecting (w₁.threads t).pc) → ¬ World.Selecting (w'.threads t).pc →
      World.SelectEnds (World.found t w ls) (w'.threads t)) := by
  refine ⟨?_, ?_, ?_, ?_, ?_⟩
  · exact fun w l h codes ch => World.truthful_receives
  · exact fun w l codes truth => ActorWorld.truthful_receives
  · exact fun ch => Channel.truthful_recv
  · exact fun w t valid => World.waits_open_iff
  · exact fun w w' t task handles ls hpc hrun hduring hend =>
      World.select_ends World.probed_nil hpc hrun hduring hend

namespace World

/-- What a receive has to report after a run, and what it answers. -/
def reported (ls : List (Bool × Call × Nat)) (l : Bool × Call × Nat) :
    Option (Report × Option Int64) :=
  (run World.next small ls).bind fun w =>
    (w.receives l).bind fun r => (w.chans r.1).map fun ch =>
      (report ch.first ch.closed, w.answer l)

end World

/-- The message -2 is received as the code of an empty channel, and a blocking receive on a
closed, drained channel gets no result. -/
theorem code_misread :
    (∃ truth answer, World.reported [(false, .send 50000 (-2), 0)] (true, .recv 50000, 0) =
      some (truth, answer) ∧ ¬ Truthful recvCodes truth answer) ∧
    ∃ truth answer, World.reported [(false, .close 50000, 0), (true, .recvBlocking 50000, 0)]
      (true, .recv 50000, 0) = some (truth, answer) ∧
        ¬ Truthful recvBlockingCodes truth answer := by
  constructor
  · refine ⟨.value (-2), some (-2), by decide +kernel, ?_⟩
    intro h
    cases h
  · refine ⟨.closed, none, by decide +kernel, ?_⟩
    intro h
    cases h

end Arth.Runtime
