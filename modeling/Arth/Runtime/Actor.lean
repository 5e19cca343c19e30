import Arth.Runtime.Delivery

/-!
# The lifecycle of an actor

* `ActorWorld` — one actor with its mailbox, and the threads that use it. `ActorWorld.next`
  is one critical section of one thread.
* `Lawful` — what a step of an actor may do.
* `lawful_iff` — exactly the interleavings whose steps are all lawful.
-/

namespace Arth.Runtime

open Runs List Option Function

inductive ActorState where
  | running | stopping | stopped | failed
  deriving DecidableEq

inductive ActorCall where
  | send (value : Int64)
  | sendBlocking (value : Int64)
  | recv
  | recvBlocking
  | close
  | stop
  | markStopped
  | markFailed
  deriving DecidableEq

/-- Where a thread is inside a call. -/
inductive ActorPc where
  | ready (result : Int64)
  /-- `send_blocking` found the actor running. -/
  | mailbox (value : Int64)
  | sendRefused
  | blockedSend (value : Int64)
  /-- `send_blocking` has delivered its message. -/
  | count
  | blockedRecv
  deriving DecidableEq

/-- An actor, which nothing but the calls on it touches. -/
structure ActorWorld (T : Type) where
  state : ActorState
  messageCount : UInt64
  mailbox : MpmcChannel
  threads : T → ActorPc

namespace ActorWorld

variable {T : Type} [DecidableEq T]

/-- `__arth_actor_create` and `__arth_actor_spawn`. -/
def create (capacity : Int64) (threads : T → ActorPc) : ActorWorld T where
  state := .running
  messageCount := 0
  mailbox := .create capacity
  threads := threads

def goto (w : ActorWorld T) (t : T) (pc : ActorPc) : ActorWorld T :=
  { w with threads := Function.update w.threads t pc }

/-- `set_state` with the mailbox closed. -/
def shut (w : ActorWorld T) (state : ActorState) : ActorWorld T :=
  { w with state, mailbox := w.mailbox.close }

/-- The first critical section of a call. -/
def start (w : ActorWorld T) (t : T) : ActorCall → ActorWorld T
  | .send v =>
    if w.state = .failed then w.goto t (.ready 4)
    else if w.state ≠ .running then w.goto t (.ready 2)
    else
      { w with
        mailbox := (w.mailbox.send v).1
        messageCount :=
          if (w.mailbox.send v).2 = 0 then w.messageCount + 1 else w.messageCount }.goto t
        (.ready (w.mailbox.send v).2)
  | .sendBlocking v =>
    if w.state = .failed then w.goto t (.ready 4)
    else if w.state ≠ .running then w.goto t (.ready 2)
    else w.goto t (.mailbox v)
  | .recv =>
    if w.state = .failed then w.goto t (.ready (-4))
    else { w with mailbox := w.mailbox.recv.1 }.goto t (.ready w.mailbox.recv.2)
  | .recvBlocking => w.goto t (if w.state = .failed then .ready (-4) else .blockedRecv)
  | .close => (w.shut .stopping).goto t (.ready 0)
  | .stop => (w.shut .stopping).goto t (.ready 0)
  | .markStopped => { w with state := .stopped }.goto t (.ready 0)
  | .markFailed => (w.shut .failed).goto t (.ready 0)

/-- The next critical section of a call. -/
def resume (w : ActorWorld T) (t : T) : ActorPc → Option (ActorWorld T)
  | .ready _ => none
  | .mailbox v => some (w.goto t (if w.mailbox.closed then .sendRefused else .blockedSend v))
  | .sendRefused => some (w.goto t (.ready 2))
  | .blockedSend v => do
    let ch ← w.mailbox.trySend (w.mailbox.next v)
    some ({ w with mailbox := ch.accepted (w.mailbox.next v) }.goto t .count)
  | .count => some ({ w with messageCount := w.messageCount + 1 }.goto t (.ready 0))
  | .blockedRecv => do
    let (m, mailbox) ← w.mailbox.tryRecv
    some ({ w with mailbox }.goto t (.ready m.value))

def next (w : ActorWorld T) (l : T × ActorCall) : Option (ActorWorld T) :=
  match w.threads l.1 with
  | .ready _ => some (w.start l.1 l.2)
  | pc => w.resume l.1 pc

/-- Some receives of any idle thread get all messages that were accepted. -/
def Drains (w : ActorWorld T) : Prop :=
  ∀ t, (∃ result, w.threads t = .ready result) →
    ∃ n w', run next w (List.replicate n (t, ActorCall.recv)) = some w' ∧
      w'.mailbox.received = w.mailbox.sent

/-- A step that respects the lifecycle. -/
structure Lawful (w w' : ActorWorld T) : Prop where
  stopped : w.state = .stopped → w'.state = .stopped
  failed : w.state = .failed → w'.state = .failed
  running : w'.state = .running → w.state = .running
  accepts : w'.mailbox.sent ≠ w.mailbox.sent → w.state = .running
  drains : w'.state ≠ .failed → w'.Drains
  counts : w'.messageCount = UInt64.ofNat w'.mailbox.sent.length

/-- The calls that set the state come in order, and no blocking send finds room. -/
def Orderly (w : ActorWorld T) (l : T × ActorCall) : Prop :=
  match w.threads l.1 with
  | .ready _ =>
    match l.2 with
    | .close | .stop => w.state = .running ∨ w.state = .stopping
    | .markStopped => w.state ≠ .failed
    | .markFailed => w.state ≠ .stopped
    | _ => True
  | .blockedSend _ => w.mailbox.isFull = true
  | _ => True

/-- Nobody waits at the mailbox, and what was accepted is received or queued. -/
structure Kept (w : ActorWorld T) : Prop where
  line : w.mailbox.received ++ w.mailbox.queue = w.mailbox.sent
  counts : w.messageCount = UInt64.ofNat w.mailbox.sent.length
  idle : ∀ t, w.threads t ≠ .count

variable {w w' : ActorWorld T} {l : T × ActorCall} {t : T} {pc : ActorPc} {m : Message}

theorem Kept.goto (h : w.Kept) (hpc : pc ≠ .count) : (w.goto t pc).Kept where
  line := h.line
  counts := h.counts
  idle t' := by
    change update w.threads t pc t' ≠ .count
    by_cases ht : t' = t
    · rw [ht, update_self]
      exact hpc
    · rw [update_of_ne ht]
      exact h.idle t'

omit [DecidableEq T] in
theorem Kept.of_eq (h : w.Kept) (hreceived : w'.mailbox.received = w.mailbox.received)
    (hqueue : w'.mailbox.queue = w.mailbox.queue) (hsent : w'.mailbox.sent = w.mailbox.sent)
    (hcount : w'.messageCount = w.messageCount) (hthreads : w'.threads = w.threads) : w'.Kept where
  line := by
    rw [hreceived, hqueue, hsent]
    exact h.line
  counts := by
    rw [hcount, hsent]
    exact h.counts
  idle t := by
    rw [hthreads]
    exact h.idle t

theorem ofNat_succ (n : ℕ) : UInt64.ofNat (n + 1) = UInt64.ofNat n + 1 := by
  rw [UInt64.ofNat_add]
  rfl

omit [DecidableEq T] in
theorem Kept.send (h : w.Kept) (v : Int64) : ({ w with
      mailbox := (w.mailbox.send v).1
      messageCount :=
        if (w.mailbox.send v).2 = 0 then w.messageCount + 1 else w.messageCount }).Kept := by
  have hrefused : ∀ code : Int64, code ≠ 0 → w.mailbox.send v = (w.mailbox, code) → ({ w with
        mailbox := (w.mailbox.send v).1
        messageCount :=
          if (w.mailbox.send v).2 = 0 then w.messageCount + 1 else w.messageCount }).Kept := by
    intro code hcode hsend
    rw [hsend, if_neg hcode]
    exact h
  by_cases hclosed : w.mailbox.closed = true
  · apply hrefused 2 (by decide)
    unfold MpmcChannel.send
    rw [if_pos hclosed]
  · cases hfull : w.mailbox.isFull with
    | true =>
      apply hrefused 1 (by decide)
      unfold MpmcChannel.send
      rw [if_neg hclosed, MpmcChannel.trySend_eq_none.2 hfull]
    | false =>
      unfold MpmcChannel.send
      rw [if_neg hclosed, MpmcChannel.trySend_of_room hfull]
      refine ⟨?_, ?_, h.idle⟩
      · change w.mailbox.received ++ (w.mailbox.queue ++ [w.mailbox.next v]) =
          w.mailbox.sent ++ [w.mailbox.next v]
        rw [← append_assoc, h.line]
      · change w.messageCount + 1 = UInt64.ofNat (w.mailbox.sent ++ [w.mailbox.next v]).length
        rw [length_append, length_singleton, ofNat_succ, h.counts]

omit [DecidableEq T] in
theorem Kept.receive (h : w.Kept) {mailbox : MpmcChannel}
    (hrecv : w.mailbox.tryRecv = some (m, mailbox)) : ({ w with mailbox }).Kept := by
  unfold MpmcChannel.tryRecv at hrecv
  cases hqueue : w.mailbox.queue with
  | nil =>
    rw [hqueue] at hrecv
    cases hrecv
  | cons m' queue =>
    rw [hqueue] at hrecv
    cases hrecv
    refine ⟨?_, h.counts, h.idle⟩
    have hline := h.line
    rw [hqueue] at hline
    rw [append_assoc]
    exact hline

theorem tryRecv_sent {ch ch' : MpmcChannel} (h : ch.tryRecv = some (m, ch')) :
    ch'.sent = ch.sent := by
  unfold MpmcChannel.tryRecv at h
  split at h
  · cases h
  · cases h
    rfl

theorem Kept.drains (h : w.Kept) (hstate : w.state ≠ .failed) : w.Drains := by
  intro t hready
  induction hq : w.mailbox.queue generalizing w with
  | nil =>
    have hline := h.line
    rw [hq, append_nil] at hline
    exact ⟨0, w, rfl, hline⟩
  | cons m queue ih =>
    have hrecv : w.mailbox.tryRecv = some (m, { w.mailbox with
        queue := queue, received := w.mailbox.received ++ [m] }) := by
      unfold MpmcChannel.tryRecv
      rw [hq]
    obtain ⟨result, hready⟩ := hready
    have hnext : w.next (t, .recv) = some ({ w with mailbox := { w.mailbox with
        queue := queue, received := w.mailbox.received ++ [m] } }.goto t (.ready m.value)) := by
      unfold next
      rw [hready]
      change some (if w.state = .failed then _ else _) = _
      rw [if_neg hstate]
      unfold MpmcChannel.recv
      rw [hrecv]
    have hne : ActorPc.ready m.value ≠ .count := by simp
    obtain ⟨n, w', hrun, hreceived⟩ := ih ((h.receive hrecv).goto (t := t) hne) hstate
      ⟨m.value, update_self ..⟩ rfl
    refine ⟨n + 1, w', ?_, hreceived⟩
    change (w.next (t, .recv)).bind _ = some w'
    rw [hnext]
    exact hrun

/-! ## Which steps are lawful -/

theorem lawful_iff_state (h : w'.Kept) (hsent : w'.mailbox.sent = w.mailbox.sent) :
    Lawful w w' ↔ (w.state = .stopped → w'.state = .stopped) ∧
      (w.state = .failed → w'.state = .failed) ∧ (w'.state = .running → w.state = .running) := by
  constructor
  · exact fun hl => ⟨hl.stopped, hl.failed, hl.running⟩
  · rintro ⟨hstopped, hfailed, hrunning⟩
    exact ⟨hstopped, hfailed, hrunning, absurd hsent, h.drains, h.counts⟩

theorem lawful_of_same (h : w'.Kept) (hstate : w'.state = w.state)
    (hsent : w'.mailbox.sent = w.mailbox.sent) : Lawful w w' := by
  rw [lawful_iff_state h hsent, hstate]
  exact ⟨id, id, id⟩

section

variable (h : w.Kept)
include h

theorem kept_start (call : ActorCall) : (w.start t call).Kept := by
  unfold start
  have hstay : ∀ result, (w.goto t (.ready result)).Kept := fun _ => h.goto (by simp)
  cases call with
  | send v =>
    simp only
    split
    · exact hstay 4
    · split
      · exact hstay 2
      · exact (h.send v).goto (by simp)
  | sendBlocking v =>
    simp only
    split
    · exact hstay 4
    · split
      · exact hstay 2
      · exact h.goto (by simp)
  | recv =>
    simp only
    split
    · exact hstay (-4)
    · unfold MpmcChannel.recv
      cases hrecv : w.mailbox.tryRecv with
      | none => exact h.goto (by simp)
      | some r => exact (h.receive hrecv).goto (by simp)
  | recvBlocking =>
    apply h.goto
    split <;> simp
  | close | stop =>
    have hshut : (w.shut .stopping).Kept := h.of_eq rfl rfl rfl rfl rfl
    exact hshut.goto (by simp)
  | markStopped =>
    have hset : ({ w with state := .stopped } : ActorWorld T).Kept := h.of_eq rfl rfl rfl rfl rfl
    exact hset.goto (by simp)
  | markFailed =>
    have hshut : (w.shut .failed).Kept := h.of_eq rfl rfl rfl rfl rfl
    exact hshut.goto (by simp)

theorem lawful_send (v : Int64) : Lawful w (w.start t (.send v)) := by
  have hkept := kept_start (t := t) h (.send v)
  unfold start at hkept ⊢
  by_cases hfailed : w.state = .failed
  · simp only [if_pos hfailed] at hkept ⊢
    exact lawful_of_same hkept rfl rfl
  · by_cases hrunning : w.state = .running
    · simp only [if_neg hfailed, if_neg (not_not.2 hrunning)] at hkept ⊢
      exact ⟨id, id, id, fun _ => hrunning, hkept.drains, hkept.counts⟩
    · simp only [if_neg hfailed, if_pos hrunning] at hkept ⊢
      exact lawful_of_same hkept rfl rfl

theorem lawful_sendBlocking (v : Int64) : Lawful w (w.start t (.sendBlocking v)) := by
  have hkept := kept_start (t := t) h (.sendBlocking v)
  apply lawful_of_same hkept
  · unfold start
    simp only
    split_ifs <;> rfl
  · unfold start
    split_ifs <;> rfl

theorem lawful_recv : Lawful w (w.start t .recv) := by
  have hkept := kept_start (t := t) h .recv
  unfold start MpmcChannel.recv at hkept ⊢
  by_cases hfailed : w.state = .failed
  · simp only [if_pos hfailed] at hkept ⊢
    exact lawful_of_same hkept rfl rfl
  · simp only [if_neg hfailed] at hkept ⊢
    cases hrecv : w.mailbox.tryRecv with
    | none =>
      rw [hrecv] at hkept
      exact lawful_of_same hkept rfl rfl
    | some r =>
      rw [hrecv] at hkept
      exact lawful_of_same hkept rfl (tryRecv_sent hrecv)

theorem lawful_close (call : ActorCall) (hcall : call = .close ∨ call = .stop) :
    Lawful w (w.start t call) ↔ w.state = .running ∨ w.state = .stopping := by
  have hkept := kept_start (t := t) h call
  rcases hcall with rfl | rfl
  · rw [lawful_iff_state (w := w) hkept rfl]
    change (_ → ActorState.stopping = _) ∧ (_ → ActorState.stopping = _) ∧
      (ActorState.stopping = _ → _) ↔ _
    cases w.state <;> simp
  · rw [lawful_iff_state (w := w) hkept rfl]
    change (_ → ActorState.stopping = _) ∧ (_ → ActorState.stopping = _) ∧
      (ActorState.stopping = _ → _) ↔ _
    cases w.state <;> simp

theorem lawful_markStopped : Lawful w (w.start t .markStopped) ↔ w.state ≠ .failed := by
  rw [lawful_iff_state (w := w) (kept_start h .markStopped) rfl]
  change (_ → ActorState.stopped = _) ∧ (_ → ActorState.stopped = _) ∧
    (ActorState.stopped = _ → _) ↔ _
  cases w.state <;> simp

theorem lawful_markFailed : Lawful w (w.start t .markFailed) ↔ w.state ≠ .stopped := by
  rw [lawful_iff_state (w := w) (kept_start h .markFailed) rfl]
  change (_ → ActorState.failed = _) ∧ (_ → ActorState.failed = _) ∧ (ActorState.failed = _ → _) ↔ _
  cases w.state <;> simp

theorem kept_next (horderly : w.Orderly l) (hnext : w.next l = some w') : w'.Kept := by
  unfold next at hnext
  unfold Orderly at horderly
  cases hpc : w.threads l.1 with
  | ready result =>
    rw [hpc] at hnext
    cases hnext
    exact kept_start h l.2
  | mailbox v =>
    rw [hpc] at hnext
    cases hnext
    apply h.goto
    split <;> simp
  | sendRefused =>
    rw [hpc] at hnext
    cases hnext
    exact h.goto (by simp)
  | blockedSend v =>
    rw [hpc] at hnext horderly
    obtain ⟨ch, hch, _⟩ := bind_eq_some_iff.1 hnext
    rw [MpmcChannel.trySend_eq_none.2 horderly] at hch
    cases hch
  | count => exact absurd hpc (h.idle l.1)
  | blockedRecv =>
    rw [hpc] at hnext
    obtain ⟨⟨m, mailbox⟩, hrecv, hnext⟩ := bind_eq_some_iff.1 hnext
    cases hnext
    exact (h.receive hrecv).goto (by simp)

end

/-- **One step.** From a state where everything was counted, a step is lawful just when it is
orderly. -/
theorem lawful_next (h : w.Kept) : (∀ w', w.next l = some w' → Lawful w w') ↔ w.Orderly l := by
  constructor
  · intro hlawful
    unfold Orderly
    unfold next at hlawful
    cases hpc : w.threads l.1 with
    | ready result =>
      rw [hpc] at hlawful
      have hone := hlawful _ rfl
      cases hcall : l.2 with
      | close => rw [hcall] at hone; exact (lawful_close h .close (.inl rfl)).1 hone
      | stop => rw [hcall] at hone; exact (lawful_close h .stop (.inr rfl)).1 hone
      | markStopped => rw [hcall] at hone; exact (lawful_markStopped h).1 hone
      | markFailed => rw [hcall] at hone; exact (lawful_markFailed h).1 hone
      | _ => trivial
    | blockedSend v =>
      rw [hpc] at hlawful
      by_contra hroom
      have hroom' : w.mailbox.isFull = false := by simpa using hroom
      -- With room again the message is accepted, and the count is a step behind.
      have hstep : w.resume l.1 (.blockedSend v) = some (({ w with
          mailbox := { w.mailbox with queue := w.mailbox.queue ++ [w.mailbox.next v] }.accepted
            (w.mailbox.next v) } : ActorWorld T).goto l.1 .count) := by
        change (w.mailbox.trySend (w.mailbox.next v)).bind _ = _
        rw [MpmcChannel.trySend_of_room hroom']
        rfl
      have hcounts := (hlawful _ hstep).counts
      change w.messageCount = UInt64.ofNat (w.mailbox.sent ++ [w.mailbox.next v]).length at hcounts
      rw [length_append, length_singleton, ofNat_succ, h.counts] at hcounts
      have hne : ∀ n : UInt64, n ≠ n + 1 := by
        intro n
        simp
      exact hne _ hcounts
    | _ => trivial
  · intro horderly w' hnext
    have hkept := kept_next h horderly hnext
    unfold next at hnext
    unfold Orderly at horderly
    cases hpc : w.threads l.1 with
    | ready result =>
      rw [hpc] at hnext horderly
      cases hnext
      cases hcall : l.2 with
      | send v => exact lawful_send h v
      | sendBlocking v => exact lawful_sendBlocking h v
      | recv => exact lawful_recv h
      | recvBlocking =>
        rw [hcall] at hkept
        exact lawful_of_same hkept rfl rfl
      | close =>
        rw [hcall] at horderly
        exact (lawful_close h .close (.inl rfl)).2 horderly
      | stop =>
        rw [hcall] at horderly
        exact (lawful_close h .stop (.inr rfl)).2 horderly
      | markStopped =>
        rw [hcall] at horderly
        exact (lawful_markStopped h).2 horderly
      | markFailed =>
        rw [hcall] at horderly
        exact (lawful_markFailed h).2 horderly
    | mailbox | sendRefused =>
      rw [hpc] at hnext
      cases hnext
      exact lawful_of_same hkept rfl rfl
    | blockedSend v =>
      rw [hpc] at hnext horderly
      obtain ⟨ch, hch, _⟩ := bind_eq_some_iff.1 hnext
      rw [MpmcChannel.trySend_eq_none.2 horderly] at hch
      cases hch
    -- No thread is ever seen between the mailbox and the count.
    | count => exact absurd hpc (h.idle l.1)
    | blockedRecv =>
      rw [hpc] at hnext
      obtain ⟨⟨m, mailbox⟩, hrecv, hnext⟩ := bind_eq_some_iff.1 hnext
      cases hnext
      exact lawful_of_same hkept rfl (tryRecv_sent hrecv)

omit [DecidableEq T] in
theorem kept_create (capacity : Int64) {threads : T → ActorPc} (h : ∀ t, threads t ≠ .count) :
    (create capacity threads).Kept :=
  ⟨rfl, rfl, h⟩

/-- **The lifecycle.** In an interleaving of any calls of any threads on a new actor all
steps are lawful just when all of them are orderly. -/
theorem lawful_iff (capacity : Int64) {threads : T → ActorPc}
    (h : ∀ t, ∃ result, threads t = .ready result) (ls : List (T × ActorCall)) :
    Along next (fun w l => ∀ w', next w l = some w' → Lawful w w') (create capacity threads) ls ↔
      Along next Orderly (create capacity threads) ls := by
  apply along_iff_along (I := Kept)
  · exact fun _ _ _ hk ho hn => kept_next hk ho hn
  · exact fun _ _ hk => lawful_next hk
  · apply kept_create
    intro t hcount
    obtain ⟨result, hready⟩ := h t
    rw [hready] at hcount
    cases hcount

/-- The actor fails, then somebody asks it to stop. -/
def revived : List (Unit × ActorCall) := [((), .markFailed), ((), .stop)]

theorem revived_unlawful : ¬ Along next (fun w l => ∀ w', next w l = some w' → Lawful w w')
    (create 1 fun _ : Unit => .ready 0) revived := by
  intro h
  have hfailed := (h.2 _ rfl).1 _ rfl
  cases hfailed.failed rfl

theorem lawful_revived : Along next (fun w l => ∀ w', next w l = some w' → Lawful w w')
      (create 1 fun _ : Unit => .ready 0) revived ↔
        Along next Orderly (create 1 fun _ : Unit => .ready 0) revived :=
  lawful_iff 1 (fun _ => ⟨0, rfl⟩) revived

end ActorWorld

end Arth.Runtime
