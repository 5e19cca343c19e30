import Arth.Runtime.Wakeups

/-!
# No stranded waiter

* `Registered` — a suspended task is among the waiting receivers of the channels it waits on.
* `Keeps` — what a step keeps, and its condition, one operation at a time.
* `noneStranded_iff` — exactly the interleavings that strand nobody.
-/

namespace Arth.Runtime

open Runs List Option Function

namespace Scene

variable {T : Type} [DecidableEq T] {s s' : Scene T} {l : Turn T} {h : Int64}
  {ch ch' : MpmcChannel} {task : UInt64} {r : Int64} {w' : World T}

/-- A suspended task is registered where it waits. -/
def Registered (s : Scene T) : Prop := ∀ task h, h ∈ s.waits task →
  ∃ ch, s.world.chans h = some ch ∧ task ∈ ch.waitingReceivers

theorem length_erase_append {α : Type} [DecidableEq α] (x y : α) (xs : List α) :
    xs.length ≤ (xs.erase x ++ [y]).length := by
  rw [length_append, length_singleton]
  exact le_erase_succ ..

variable {t : T} {w : World T}

theorem noneStranded_wakes (hP : s.NoneStranded) (hreg : s.Registered)
    (hw : Changes s.world w' h MpmcChannel.popped) :
    ((s.wakes t h).withWorld w').NoneStranded ↔ ∀ ch task, s.world.chans h = some ch →
      ch.waitingReceivers.head? = some task → h ∈ s.waits task := by
  cases hch : s.world.chans h with
  | none =>
    have hwakes : s.wakes t h = { s with
        due := update s.due h ((s.due h).erase (.waking t)) } := by
      unfold wakes
      rw [hch]
      rfl
    rw [hwakes]
    refine ⟨fun _ ch task h => (by cases h), fun _ => ⟨fun h₁ ch₁ hch₁ => ?_, hP.wasted⟩⟩
    have hold : s.world.chans h₁ = some ch₁ := hw.missing hch ▸ hch₁
    have hne : h₁ ≠ h := by
      rintro rfl
      rw [hch] at hold
      cases hold
    change ch₁.Served _ (update s.due h _ h₁).length _
    rw [update_of_ne hne]
    exact hP.served h₁ ch₁ hold
  | some ch =>
    have hchans := hw.found ch hch
    have hserved := hP.served h ch hch
    cases hwaiting : ch.waitingReceivers with
    | nil =>
      have hpop : ch.popped = ch := by
        unfold MpmcChannel.popped MpmcChannel.popWaitingReceiver
        rw [hwaiting]
        rfl
      have hwakes : s.wakes t h = { s with
          due := update s.due h ((s.due h).erase (.waking t)) } := by
        unfold wakes
        rw [hch, bind_some, hwaiting]
        rfl
      -- Who waits on the channel is registered there, and no one is.
      have hnobody : ¬ s.waitsOn h := by
        rintro ⟨task, hmem⟩
        obtain ⟨ch', hch', hin⟩ := hreg task h hmem
        cases hch.symm.trans hch'
        rw [hwaiting] at hin
        cases hin
      rw [hpop] at hchans
      rw [hwakes]
      constructor
      · intro _ ch' task hch' hhead
        cases hch'
        rw [hwaiting] at hhead
        cases hhead
      · intro _
        rw [noneStranded_iff_one (g := { s with
          due := update s.due h ((s.due h).erase (.waking t)) }) hP hchans rfl
          (fun _ hne => update_of_ne hne ..) (fun _ _ => rfl) rfl]
        exact ⟨fun _ hon => absurd hon hnobody, hserved.senders⟩
    | cons task waiting =>
      have hpop : ch.popped = { ch with waitingReceivers := waiting } := by
        unfold MpmcChannel.popped MpmcChannel.popWaitingReceiver
        rw [hwaiting]
        rfl
      have hwakes : s.wakes t h = { s with
          waits := update s.waits task []
          due := update s.due h ((s.due h).erase (.waking t) ++ [.woken task])
          wasted := if h ∈ s.waits task then s.wasted else s.wasted ++ [task] } := by
        unfold wakes
        rw [hch, bind_some, hwaiting]
        rfl
      -- The head of the list is the task that is woken.
      have hhead : (∀ ch' task', some ch = some ch' → ch'.waitingReceivers.head? = some task' →
          h ∈ s.waits task') ↔ h ∈ s.waits task := by
        constructor
        · intro hall
          apply hall ch task rfl
          rw [hwaiting]
          rfl
        · intro hmem ch' task' hch' hhead'
          cases hch'
          rw [hwaiting] at hhead'
          cases hhead'
          exact hmem
      rw [hpop] at hchans
      rw [hwakes, hhead]
      constructor
      · intro hP'
        have hwasted := hP'.wasted
        change (if h ∈ s.waits task then s.wasted else s.wasted ++ [task]) = [] at hwasted
        -- A task that no longer waits would have been woken for nothing.
        by_contra hnot
        rw [if_neg hnot] at hwasted
        simp at hwasted
      · intro hmem
        rw [if_pos hmem]
        set g : Scene T := { s with
          waits := update s.waits task []
          due := update s.due h ((s.due h).erase (.waking t) ++ [.woken task]) }
        have hwaits : g.waits = update s.waits task [] := rfl
        have hon := waitsOn_awake hwaits
        rw [noneStranded_iff_served (g := g) hchans hP.wasted]
        constructor
        · rw [propext (hon h)]
          change MpmcChannel.Served _ _ (update s.due h _ h).length _
          rw [update_self]
          -- The wake that was due here is replaced by the woken task's visit.
          have hmore : ch.Served (s.OtherWaits task h) _ (s.moving h).length :=
            hserved.weaken OtherWaits.waitsOn
              (length_erase_append (.waking t) (.woken task) (s.due h)) le_rfl
          exact ⟨hmore.receivers, hmore.senders⟩
        · intro h₁ ch₁ hne hch₁
          rw [propext (hon h₁)]
          change ch₁.Served _ (update s.due h _ h₁).length _
          rw [update_of_ne hne]
          exact (hP.served h₁ ch₁ hch₁).weaken OtherWaits.waitsOn le_rfl le_rfl

omit [DecidableEq T] in
theorem noneStranded_registrations {waits : UInt64 → List Int64} (hP : s.NoneStranded)
    (hwaits : ∀ task, waits task ⊆ s.waits task)
    (hchans : ∀ h, (s.world.chans h = none ∧ w'.chans h = none) ∨ ∃ ch waiting,
      s.world.chans h = some ch ∧ w'.chans h = some { ch with waitingReceivers := waiting }) :
    ({ s with waits }.withWorld w').NoneStranded where
  served h ch hch := by
    rcases hchans h with ⟨_, hn⟩ | ⟨ch₁, waiting, hs, hs'⟩
    · cases hn.symm.trans hch
    · cases hs'.symm.trans hch
      have hserved := (hP.served h ch₁ hs).weaken (fun hon : ∃ task, h ∈ waits task =>
        hon.imp fun task hmem => hwaits task hmem) le_rfl le_rfl
      exact ⟨hserved.receivers, hserved.senders⟩
  wasted := hP.wasted

omit [DecidableEq T] in
theorem noneStranded_close (hP : s.NoneStranded) (hw : Changes s.world w' h MpmcChannel.close) :
    (s.withWorld w').NoneStranded := by
  cases hch : s.world.chans h with
  | none => exact noneStranded_same hP (hw.missing hch)
  | some ch =>
    rw [noneStranded_iff_one hP (hw.found ch hch) rfl (fun _ _ => rfl) (fun _ _ => rfl) rfl]
    refine ⟨fun hopen => ?_, (hP.served h ch hch).senders⟩
    cases hopen

/-! ### All steps -/

/-- Where a thread can be inside the operations for an executor. -/
def Within : Pc → Prop
  | .ready _ | .wakeReceiver _ | .wakeSender .. | .probe (some _) .. | .register _ => True
  | _ => False

omit [DecidableEq T] in
theorem Changes.congr {f f' : MpmcChannel → MpmcChannel} (hw : Changes w w' h f)
    (hf : ∀ ch, f ch = f' ch) : Changes w w' h f' where
  found ch hch := by
    rw [← hf]
    exact hw.found ch hch
  missing := hw.missing

variable {f : MpmcChannel → MpmcChannel} {h₁ v : Int64} {task' : UInt64}

omit [DecidableEq T] in
theorem registered_of_changes {g : Scene T} (hreg : s.Registered)
    (hw : Changes s.world w' h f) (hwaits : ∀ task h, h ∈ g.waits task → h ∈ s.waits task)
    (hf : ∀ ch task, s.world.chans h = some ch → h ∈ g.waits task → task ∈ ch.waitingReceivers →
      task ∈ (f ch).waitingReceivers) : (g.withWorld w').Registered := by
  intro task h₁ hmem
  obtain ⟨ch, hch, hin⟩ := hreg task h₁ (hwaits task h₁ hmem)
  change ∃ ch, w'.chans h₁ = some ch ∧ _
  cases hh : s.world.chans h with
  | none =>
    rw [hw.missing hh]
    exact ⟨ch, hch, hin⟩
  | some ch₁ =>
    rw [hw.found ch₁ hh]
    by_cases heq : h₁ = h
    · subst heq
      cases hh.symm.trans hch
      exact ⟨f ch, update_self .., hf ch task hh hmem hin⟩
    · exact ⟨ch, by rw [update_of_ne heq]; exact hch, hin⟩

omit [DecidableEq T] in
theorem registered_same (hreg : s.Registered) (hchans : w'.chans = s.world.chans) :
    (s.withWorld w').Registered := by
  intro task h hmem
  obtain ⟨ch, hch, hin⟩ := hreg task h hmem
  exact ⟨ch, by change w'.chans h = _; rw [hchans, hch], hin⟩

omit [DecidableEq T] in
theorem waits_awake
    (hmem : h₁ ∈ update s.waits task [] task') : h₁ ∈ s.waits task' ∧ task' ≠ task := by
  by_cases heq : task' = task
  · subst heq
    rw [update_self] at hmem
    cases hmem
  · rw [update_of_ne heq] at hmem
    exact ⟨hmem, heq⟩

theorem waits_looks (hmem : h₁ ∈ (s.looks task h).waits task') : h₁ ∈ s.waits task' := by
  unfold looks at hmem
  split at hmem
  · split at hmem
    · exact (waits_awake hmem).1
    · exact (waits_awake hmem).1
  · exact hmem

theorem receivers_send (v : Int64) : (ch.send v).1.waitingReceivers = ch.waitingReceivers := by
  cases hadmits : ch.admits with
  | true => rw [send_of_admits hadmits]
  | false => rw [send_of_not_admits hadmits]

theorem receivers_recv : ch.recv.1.waitingReceivers = ch.waitingReceivers := by
  cases hqueue : ch.queue with
  | nil => rw [recv_of_nil hqueue]
  | cons m queue => rw [recv_of_cons hqueue]

theorem receivers_sendWithTask (v : Int64) :
    (ch.sendWithTask v task).1.waitingReceivers = ch.waitingReceivers := by
  unfold MpmcChannel.sendWithTask MpmcChannel.trySend
  split
  · rfl
  · split
    · split at *
      · cases ‹none = some _›
      · cases ‹some _ = some _›
        rfl
    · rfl

theorem receivers_wakeSender : ch.wakeSender.1.waitingReceivers = ch.waitingReceivers := by
  cases hparked : ch.waitingSenders with
  | nil => rw [MpmcChannel.wakeSender_of_nil hparked]
  | cons sender senders =>
    have hstep := MpmcChannel.wakeSender_step hparked
    generalize ch.wakeSender.1 = ch' at hstep
    split at hstep
    · cases hstep with
      | lose _ _ => rfl
    · cases hstep with
      | move _ _ => rfl

theorem registered_recvWithTask (hreg : s.Registered)
    (hw : Changes s.world w' h fun ch => (ch.recvWithTask task).1) :
    ((s.looksOrSleeps task h).withWorld w').Registered := by
  by_cases hsleeps : ((s.world.chans h).any fun ch => ch.queue = [] ∧ ch.closed = false) = true
  · unfold looksOrSleeps
    rw [if_pos hsleeps]
    obtain ⟨ch, hch, hempty⟩ := any_eq_true _ _ |>.1 hsleeps
    obtain ⟨hqueue, hopen⟩ := of_decide_eq_true hempty
    have hrecv : (ch.recvWithTask task).1 = ch.addWaitingReceiver task := by
      unfold MpmcChannel.recvWithTask MpmcChannel.tryRecv
      rw [hqueue]
      simp only [hopen]
      rfl
    have hchans := hw.found ch hch
    rw [hrecv] at hchans
    intro task' h₁ hmem
    change h₁ ∈ update s.waits task [h] task' at hmem
    change ∃ ch, w'.chans h₁ = some ch ∧ _
    rw [hchans]
    by_cases htask : task' = task
    · subst htask
      rw [update_self, mem_singleton] at hmem
      subst hmem
      exact ⟨_, update_self .., mem_append_right _ (mem_singleton_self _)⟩
    · rw [update_of_ne htask] at hmem
      obtain ⟨ch₁, hch₁, hin⟩ := hreg task' h₁ hmem
      by_cases hh : h₁ = h
      · subst hh
        cases hch.symm.trans hch₁
        exact ⟨_, update_self .., mem_append_left _ hin⟩
      · exact ⟨ch₁, by rw [update_of_ne hh]; exact hch₁, hin⟩
  · unfold looksOrSleeps
    rw [if_neg hsleeps]
    refine registered_of_changes hreg hw (fun _ _ => waits_looks) fun ch task' _ _ hin => ?_
    unfold MpmcChannel.recvWithTask
    cases hrecv : ch.tryRecv with
    | none =>
      simp only
      split
      · exact hin
      · exact mem_append_left _ hin
    | some r =>
      have hsame : ch.recv.1.waitingReceivers = ch.waitingReceivers := receivers_recv
      unfold MpmcChannel.recv at hsame
      rw [hrecv] at hsame
      rw [hsame]
      exact hin

theorem registered_wakes (hreg : s.Registered) (hw : Changes s.world w' h MpmcChannel.popped) :
    ((s.wakes t h).withWorld w').Registered := by
  cases hpop : (s.world.chans h).bind fun ch => ch.waitingReceivers.head? with
  | none =>
    unfold wakes
    rw [hpop]
    refine registered_of_changes hreg hw (fun _ _ hmem => hmem) fun ch task hch _ hin => ?_
    rw [hch, bind_some, head?_eq_none_iff] at hpop
    rw [hpop] at hin
    cases hin
  | some task =>
    unfold wakes
    rw [hpop]
    refine registered_of_changes hreg hw (fun _ _ hmem => (waits_awake hmem).1)
      fun ch task' hch hmem hin => ?_
    rw [hch, bind_some] at hpop
    obtain ⟨waiting, hwaiting⟩ := head?_eq_some_iff.1 hpop
    rw [hwaiting, mem_cons, or_iff_right (waits_awake hmem).2] at hin
    unfold MpmcChannel.popped MpmcChannel.popWaitingReceiver
    rw [hwaiting]
    exact hin

omit [DecidableEq T] in
theorem mem_iterate {P : MpmcChannel → Prop}
    (hf : ∀ ch, P ch → P (f ch)) (n : Nat) (h : P ch) : P (f^[n] ch) := by
  induction n generalizing ch with
  | zero => exact h
  | succ n ih => exact ih (hf ch h)

variable {th : ThreadState} {handles removed : List Int64} {pc : Pc}

theorem registered_register (hreg : s.Registered) :
    ((s.sleeps task (handles.filter s.isOpen)).withWorld ((s.world.onReceivers handles
      fun ch => if ch.closed then ch else ch.addWaitingReceiver task).setThread t th)).Registered := by
  have hkeeps : ∀ task' (ch : MpmcChannel), task' ∈ ch.waitingReceivers →
      task' ∈ (if ch.closed then ch else ch.addWaitingReceiver task).waitingReceivers := by
    intro task' ch hin
    split
    · exact hin
    · exact mem_append_left _ hin
  intro task' h hmem
  change h ∈ update s.waits task _ task' at hmem
  change ∃ ch, (s.world.onReceivers _ _).chans h = some ch ∧ _
  rw [World.chans_onReceivers]
  by_cases htask : task' = task
  · subst htask
    rw [update_self, mem_filter] at hmem
    obtain ⟨hin, hopen⟩ := hmem
    obtain ⟨ch, hch, hopen⟩ := any_eq_true _ _ |>.1 hopen
    obtain ⟨n, hn⟩ := Nat.exists_eq_succ_of_ne_zero (count_pos_iff.2 hin).ne'
    rw [hch, hn]
    refine ⟨_, rfl, ?_⟩
    rw [Function.iterate_succ_apply]
    apply mem_iterate (P := fun ch => task' ∈ ch.waitingReceivers) (hkeeps task')
    rw [if_neg (by simpa using hopen)]
    exact mem_append_right _ (mem_singleton_self _)
  · rw [update_of_ne htask] at hmem
    obtain ⟨ch, hch, hin⟩ := hreg task' h hmem
    rw [hch]
    exact ⟨_, rfl, mem_iterate (P := fun ch => task' ∈ ch.waitingReceivers) (hkeeps task') _ hin⟩

theorem registered_deregister (hreg : s.Registered) : ({ s with
      waits := update s.waits task ((s.waits task).filter (· ∉ removed)) }.withWorld
      ((s.world.onReceivers removed (·.removeWaitingReceiver task)).setThread t th)).Registered := by
  intro task' h hmem
  change h ∈ update s.waits task _ task' at hmem
  change ∃ ch, (s.world.onReceivers _ _).chans h = some ch ∧ _
  rw [World.chans_onReceivers]
  by_cases htask : task' = task
  · subst htask
    rw [update_self, mem_filter] at hmem
    obtain ⟨hmem, hnot⟩ := hmem
    obtain ⟨ch, hch, hin⟩ := hreg task' h hmem
    rw [hch, count_eq_zero.2 (by simpa using hnot)]
    exact ⟨ch, rfl, hin⟩
  · rw [update_of_ne htask] at hmem
    obtain ⟨ch, hch, hin⟩ := hreg task' h hmem
    rw [hch]
    refine ⟨_, rfl, mem_iterate (P := fun ch => task' ∈ ch.waitingReceivers) ?_ _ hin⟩
    intro ch hin
    exact mem_filter.2 ⟨hin, by simpa using htask⟩

theorem within_setThread (h : Within th.pc) : Within ((w.setThread t th).threads t).pc := by
  have hth : (w.setThread t th).threads t = th := update_self ..
  rw [hth]
  exact h

theorem within_onChannel {found : MpmcChannel → MpmcChannel × ThreadState}
    {missing : ThreadState} (hfound : ∀ ch, Within (found ch).2.pc) (hmissing : Within missing.pc) :
    Within ((w.onChannel t h found missing).threads t).pc := by
  unfold World.onChannel
  split
  · exact within_setThread (hfound _)
  · exact within_setThread hmissing

theorem within_start {call : Call}
    (hcall : call.Integrated) : Within ((w.start t th call).threads t).pc := by
  cases call with
  | sendAndWake | recvAndWake =>
    refine within_onChannel (fun ch => ?_) trivial
    split <;> trivial
  | sendWithTask | recvWithTask | close => exact within_onChannel (fun ch => trivial) trivial
  | selectRecvWithTask task =>
    refine within_setThread ?_
    split <;> trivial
  | selectDeregister | selectClear | selectAdd | selectGetReadyIndex | selectGetValue
  | getWokenSender | getWokenReceiver => exact within_setThread trivial
  | _ => cases hcall

theorem within_resume (hpc : Within pc)
    (hresume : w.resume t th 0 pc = some w') : Within (w'.threads t).pc := by
  cases pc with
  | ready r => cases hresume
  | wakeReceiver | wakeSender =>
    cases hresume
    refine within_onChannel (fun ch => ?_) trivial
    split <;> trivial
  | probe task index handles allClosed =>
    cases task with
    | none => cases hpc
    | some task =>
      cases handles with
      | nil =>
        cases hresume
        refine within_setThread ?_
        split <;> trivial
      | cons h handles =>
        cases hresume
        refine within_onChannel (fun ch => ?_) trivial
        split <;> trivial
  | register task =>
    cases hresume
    exact within_setThread trivial
  | _ => cases hpc

theorem next_within (hwithin : ∀ t, Within (s.world.threads t).pc) (hnext : s.next l = some s') :
    ∀ t, Within (s'.world.threads t).pc := by
  obtain ⟨w', hstep, rfl⟩ := map_eq_some_iff.1 hnext
  intro t
  change Within (w'.threads t).pc
  by_cases ht : t = l.thread
  · subst ht
    have hpc := hwithin l.thread
    unfold World.step at hstep
    split at hstep
    · cases hstep
      exact within_start l.integrated
    · exact within_resume hpc hstep
  · rw [World.step_threads hstep ht]
    exact hwithin t

/-! ### One step -/

/-- What a step keeps, and what it has to meet so that nobody is stranded. -/
structure Keeps (s g : Scene T) (w' : World T) (cond : Prop) : Prop where
  registered : s.Registered → (g.withWorld w').Registered
  noneStranded : s.Registered → s.NoneStranded → ((g.withWorld w').NoneStranded ↔ cond)

omit [DecidableEq T] in
theorem Keeps.same (hchans : w'.chans = s.world.chans) : Keeps s s w' True where
  registered hreg := registered_same hreg hchans
  noneStranded _ hP := iff_true_intro (noneStranded_same hP hchans)

omit [DecidableEq T] in
theorem receivers_onReceivers
    (hf : ∀ ch, ∃ l, f ch = { ch with waitingReceivers := l }) (h : Int64) :
    (w.chans h = none ∧ (w.onReceivers handles f).chans h = none) ∨ ∃ ch waiting,
      w.chans h = some ch ∧
        (w.onReceivers handles f).chans h = some { ch with waitingReceivers := waiting } := by
  rw [World.chans_onReceivers]
  cases hch : w.chans h with
  | none => exact .inl ⟨rfl, rfl⟩
  | some ch =>
    obtain ⟨waiting, hwaiting⟩ := World.iterate_receivers hf (handles.count h) ch
    exact .inr ⟨ch, waiting, rfl, by rw [map_some, hwaiting]⟩

theorem keeps_recvAndWake (hw : Changes s.world w' h fun ch => ch.recv.1) : Keeps s
      (if (s.world.chans h).any fun ch => ch.first.any gotValue then (s.looks task h).goesToMove t h
      else s.looks task h) w' (∀ ch, s.world.chans h = some ch → ch.queue ≠ [] →
        s.WokenFor task h ∧ (ch.first.any gotValue = false → s.SpareMove h ch)) where
  registered hreg := by
    refine registered_of_changes hreg hw ?_ fun ch task' _ _ hin => ?_
    · intro task' h₁ hmem
      split at hmem
      · exact waits_looks hmem
      · exact waits_looks hmem
    · rw [receivers_recv]
      exact hin
  noneStranded _ hP := noneStranded_recvAndWake hP hw

omit [DecidableEq T] in
theorem keeps_sendAndWake (hw : Changes s.world w' h fun ch => (ch.send v).1) :
    Keeps s (if (s.world.chans h).any (·.admits) then s.goesToWake t h else s) w' True where
  registered hreg := by
    refine registered_of_changes hreg hw ?_ fun ch task _ _ hin => ?_
    · intro task h₁ hmem
      split at hmem <;> exact hmem
    · rw [receivers_send]
      exact hin
  noneStranded _ hP := iff_true_intro (noneStranded_sendAndWake hP hw)

omit [DecidableEq T] in
theorem keeps_sendWithTask (hw : Changes s.world w' h fun ch => (ch.sendWithTask v task).1) :
    Keeps s s w' (∀ ch, s.world.chans h = some ch → ch.admits = true →
      s.SpareWakeup (s.waitsOn h) h ch) where
  registered hreg := by
    refine registered_of_changes hreg hw (fun _ _ hmem => hmem) fun ch task _ _ hin => ?_
    rw [receivers_sendWithTask]
    exact hin
  noneStranded _ hP := noneStranded_sendWithTask hP hw

omit [DecidableEq T] in
theorem keeps_close (hw : Changes s.world w' h MpmcChannel.close) : Keeps s s w' True where
  registered hreg :=
    registered_of_changes hreg hw (fun _ _ hmem => hmem) fun _ _ _ _ hin => hin
  noneStranded _ hP := iff_true_intro (noneStranded_close hP hw)

theorem keeps_deregister : Keeps s { s with
      waits := update s.waits task ((s.waits task).filter (· ∉ removed)) }
      ((s.world.onReceivers removed (·.removeWaitingReceiver task)).setThread t th) True where
  registered hreg := registered_deregister hreg
  noneStranded _ hP := by
    refine iff_true_intro (noneStranded_registrations hP (fun task' => ?_)
      (receivers_onReceivers fun ch => ⟨_, rfl⟩))
    by_cases htask : task' = task
    · subst htask
      rw [update_self]
      exact fun _ hmem => mem_of_mem_filter hmem
    · rw [update_of_ne htask]
      exact Subset.refl _

theorem keeps_moves (hw : Changes s.world w' h fun ch => ch.wakeSender.1) :
    Keeps s (s.moves t h) w' (∀ ch, s.world.chans h = some ch → ch.waitingSenders ≠ [] →
      ch.isFull = false → s.SpareWakeup (s.waitsOn h) h ch) where
  registered hreg := by
    refine registered_of_changes hreg hw (fun _ _ hmem => hmem) fun ch task _ _ hin => ?_
    rw [receivers_wakeSender]
    exact hin
  noneStranded _ hP := noneStranded_moves hP hw

theorem keeps_probe (hw : Changes s.world w' h fun ch => ch.recv.1) :
    Keeps s (s.looks task h) w' (∀ ch, s.world.chans h = some ch → ch.queue ≠ [] →
      s.WokenFor task h ∧ s.SpareMove h ch) where
  registered hreg := by
    refine registered_of_changes hreg hw (fun _ _ => waits_looks) fun ch task' _ _ hin => ?_
    rw [receivers_recv]
    exact hin
  noneStranded _ hP := noneStranded_probe hP hw

theorem keeps_recvWithTask (hw : Changes s.world w' h fun ch => (ch.recvWithTask task).1) :
    Keeps s (s.looksOrSleeps task h) w' (∀ ch, s.world.chans h = some ch →
      (ch.queue ≠ [] ∨ ch.closed = false → s.WokenFor task h) ∧
        (ch.queue ≠ [] → s.SpareMove h ch)) where
  registered hreg := registered_recvWithTask hreg hw
  noneStranded _ hP := noneStranded_recvWithTask hP hw

theorem keeps_wakes (hw : Changes s.world w' h MpmcChannel.popped) :
    Keeps s (s.wakes t h) w' (∀ ch task, s.world.chans h = some ch →
      ch.waitingReceivers.head? = some task → h ∈ s.waits task) where
  registered hreg := registered_wakes hreg hw
  noneStranded hreg hP := noneStranded_wakes hP hreg hw

theorem keeps_start (hpc : (s.world.threads l.thread).pc = .ready r) :
    Keeps s (s.tasks l) (s.world.start l.thread (s.world.threads l.thread) l.call)
      (s.Careful l) := by
  obtain ⟨t, task₀, call, hcall⟩ := l
  unfold tasks Careful
  rw [hpc]
  cases call with
  | sendAndWake h v => exact keeps_sendAndWake (changes_onChannel ..)
  | recvAndWake h => exact keeps_recvAndWake (changes_onChannel ..)
  | sendWithTask h v task => exact keeps_sendWithTask (changes_onChannel ..)
  | recvWithTask h task => exact keeps_recvWithTask (changes_onChannel ..)
  | close h => exact keeps_close (changes_onChannel ..)
  | selectDeregister task except => exact keeps_deregister
  | selectRecvWithTask | selectClear | selectAdd | selectGetReadyIndex | selectGetValue
  | getWokenSender | getWokenReceiver => exact Keeps.same rfl
  | _ => cases hcall

theorem keeps_resume (hpc : (s.world.threads l.thread).pc = pc) (hwithin : Within pc)
    (hresume : s.world.resume l.thread (s.world.threads l.thread) 0 pc = some w') :
    Keeps s (s.tasks l) w' (s.Careful l) := by
  unfold tasks Careful
  rw [hpc]
  cases pc with
  | ready r => cases hresume
  | wakeReceiver h =>
    cases hresume
    refine keeps_wakes ((changes_onChannel ..).congr fun ch => ?_)
    unfold MpmcChannel.popped
    cases ch.popWaitingReceiver <;> rfl
  | wakeSender h v =>
    cases hresume
    exact keeps_moves (changes_onChannel ..)
  | probe task index handles allClosed =>
    cases task with
    | none => cases hwithin
    | some task =>
      cases handles with
      | nil =>
        cases hresume
        exact Keeps.same rfl
      | cons h handles =>
        cases hresume
        refine keeps_probe ((changes_onChannel ..).congr fun ch => ?_)
        unfold MpmcChannel.recv
        cases ch.tryRecv <;> rfl
  | register task =>
    cases hresume
    refine ⟨registered_register, fun _ hP => noneStranded_register hP ?_⟩
    refine receivers_onReceivers fun ch => ?_
    split
    · exact ⟨ch.waitingReceivers, rfl⟩
    · exact ⟨_, rfl⟩
  | _ => cases hwithin

/-- What every step keeps. -/
structure Inv (s : Scene T) : Prop where
  within : ∀ t, Within (s.world.threads t).pc
  registered : s.Registered

theorem next_keeps (hinv : s.Inv) (hnext : s.next l = some s') :
    s'.Registered ∧ (s.NoneStranded → (s'.NoneStranded ↔ s.Careful l)) := by
  obtain ⟨w', hstep, rfl⟩ := map_eq_some_iff.1 hnext
  have hkeeps : Keeps s (s.tasks l) w' (s.Careful l) := by
    have hpc := hinv.within l.thread
    unfold World.step at hstep
    split at hstep
    · cases hstep
      exact keeps_start ‹_›
    · exact keeps_resume rfl hpc hstep
  exact ⟨hkeeps.registered hinv.registered, hkeeps.noneStranded hinv.registered⟩

theorem Inv.next (hinv : s.Inv) (hnext : s.next l = some s') : s'.Inv :=
  ⟨next_within hinv.within hnext, (next_keeps hinv hnext).1⟩

theorem careful_of_stuck (hnone : s.next l = none) : s.Careful l := by
  have hstep := map_eq_none_iff.1 hnone
  unfold World.step at hstep
  unfold Careful
  cases h : (s.world.threads l.thread).pc with
  | probe task index handles allClosed =>
    rw [h] at hstep
    cases handles with
    | nil | cons => cases hstep
  | blockedSend | blockedRecv | blockedSelect => trivial
  | _ =>
    rw [h] at hstep
    cases hstep

end Scene

/-- The tasks of a world when it starts: all of them run. -/
def World.scene {T : Type} (w : World T) : Scene T where
  world := w
  waits _ := []
  due _ := []
  moving _ := []
  wasted := []

namespace Scene

variable {T : Type} [DecidableEq T] {w : World T}

omit [DecidableEq T] in
theorem inv_scene (hw : w.Fresh) : w.scene.Inv where
  within t := by
    obtain ⟨r, hr⟩ := hw.threads t
    change Within (w.threads t).pc
    rw [hr]
    trivial
  registered task h hmem := by cases hmem

omit [DecidableEq T] in
theorem noneStranded_scene (hw : w.Fresh) : w.scene.NoneStranded where
  served h ch hch := by
    obtain ⟨capacity, rfl⟩ := hw.chans h ch hch
    refine ⟨fun _ _ => le_rfl, absurd rfl⟩
  wasted := rfl

/-- **No stranded waiter.** An interleaving of the operations for an executor strands nobody
just when all of its steps are careful. -/
theorem noneStranded_iff (hw : w.Fresh) (ls : List (Turn T)) :
    Always next NoneStranded w.scene ls ↔ Along next Careful w.scene ls :=
  always_iff_along (fun _ _ _ hinv hnext => hinv.next hnext)
    (fun _ _ _ hinv hP hnext => (next_keeps hinv hnext).2 hP)
    (fun _ _ => careful_of_stuck) (inv_scene hw) (noneStranded_scene hw)

/-- The task 2 is suspended on the empty channel, and the task 1 sends without waking it. -/
def unwoken : List (Turn Bool) :=
  [⟨false, 2, .recvWithTask 50000 2, trivial⟩, ⟨true, 1, .sendWithTask 50000 7 1, trivial⟩]

theorem unwoken_strands : ¬ Always next NoneStranded World.small.scene unwoken := by
  intro h
  have hrun : ((run next World.small.scene unwoken).bind fun s => (s.world.chans 50000).map fun ch =>
      (ch.closed, ch.queue.length, (s.due 50000).length, s.waits 2)) =
        some (false, 1, 0, [50000]) := by decide +kernel
  obtain ⟨s, hs, hch⟩ := Option.bind_eq_some_iff.1 hrun
  obtain ⟨ch, hch, heq⟩ := Option.map_eq_some_iff.1 hch
  simp only [Prod.mk.injEq] at heq
  obtain ⟨hopen, hlength, hdue, hwaits⟩ := heq
  have hle := ((h.last hs).served 50000 ch hch).receivers hopen
    ⟨2, by rw [hwaits]; exact List.mem_singleton_self _⟩
  omega

theorem noneStranded_small : Always next NoneStranded World.small.scene unwoken ↔
      Along next Careful World.small.scene unwoken :=
  noneStranded_iff World.fresh_small unwoken

end Scene

end Arth.Runtime
