import Arth.Runtime.Delivery

/-!
# Messages keep their order

* `InOrder` — the received messages, the queue and the parked values, one after the other,
  are in the order in which their sends took effect.
* `inOrder_iff` — exactly the interleavings in which that holds throughout.
-/

namespace Arth.Runtime

open Runs List

namespace MpmcChannel

/-- The messages of the channel in the order in which receives get them. -/
def line (ch : MpmcChannel) : List Message :=
  ch.received ++ ch.queue ++ ch.waitingSenders.map (·.2)

/-- Messages were received, and will be, in the order in which their sends took effect. -/
def InOrder (ch : MpmcChannel) : Prop := ch.line.Pairwise fun m m' => m.id < m'.id

/-- The numbers of all messages in the line have been given out. -/
def Bounded (ch : MpmcChannel) : Prop := ∀ m ∈ ch.line, m.id < ch.sent.length

variable {ch ch' : MpmcChannel} {a : ChanAct}

theorem bounded_step (h : ch.Bounded) (hstep : ChanStep a ch ch') : ch'.Bounded := by
  intro m hm
  have hold := h m
  unfold line at hm hold
  cases hstep with
  | accept value _ =>
    simp only [mem_append, mem_singleton, length_append, length_singleton] at hm hold ⊢
    rcases hm with (hm | hm | rfl) | hm
    · exact Nat.lt_succ_of_lt (hold (.inl (.inl hm)))
    · exact Nat.lt_succ_of_lt (hold (.inl (.inr hm)))
    · exact Nat.lt_succ_self _
    · exact Nat.lt_succ_of_lt (hold (.inr hm))
  | park taskId value _ =>
    simp only [map_append, map_cons, map_nil, mem_append, mem_singleton,
      length_append, length_singleton] at hm hold ⊢
    rcases hm with hm | hm | rfl
    · exact Nat.lt_succ_of_lt (hold (.inl hm))
    · exact Nat.lt_succ_of_lt (hold (.inr hm))
    · exact Nat.lt_succ_self _
  | receive hqueue =>
    rw [hqueue] at hold
    simp only [mem_append, mem_cons] at hm hold
    apply hold
    tauto
  | move hwaiting | lose hwaiting | hand hwaiting =>
    rw [hwaiting] at hold
    simp only [map_cons, mem_append, mem_cons] at hm hold
    apply hold
    tauto
  | close | receivers => exact hold hm

theorem inOrder_append (hbound : ch.Bounded) (h : ch.InOrder) (value : Int64) :
    (ch.line ++ [ch.next value]).Pairwise fun m m' => m.id < m'.id := by
  apply pairwise_append.2 ⟨h, pairwise_singleton _ _, ?_⟩
  intro m hm m' hm'
  rw [mem_singleton.1 hm']
  exact hbound m hm

theorem inOrder_step (hbound : ch.Bounded) (h : ch.InOrder) (hstep : ChanStep a ch ch')
    (ha : ∀ value, a = .accept value → ch.waitingSenders = []) : ch'.InOrder := by
  have hold := h
  unfold InOrder line at h ⊢
  cases hstep with
  | accept value _ =>
    have hnil := ha value rfl
    have happend := inOrder_append hbound hold value
    unfold line at happend
    rw [hnil] at happend ⊢
    rw [map_nil, append_nil] at happend ⊢
    rw [← append_assoc]
    exact happend
  | park taskId value _ =>
    have happend := inOrder_append hbound hold value
    rw [map_append, ← append_assoc]
    exact happend
  | receive hqueue =>
    rw [hqueue] at h
    simpa using h
  | move hwaiting _ =>
    rw [hwaiting] at h
    simpa using h
  | lose hwaiting | hand hwaiting =>
    rw [hwaiting] at h
    refine List.Pairwise.sublist ?_ h
    exact Sublist.append_left (sublist_cons_self _ _) _
  | close | receivers => exact h

theorem not_inOrder_of_accept (hbound : ch.Bounded) {value : Int64}
    (hstep : ChanStep (.accept value) ch ch') (hparked : ch.waitingSenders ≠ []) :
    ¬ ch'.InOrder := by
  intro h
  cases hstep with
  | accept _ _ =>
    obtain ⟨w, hw⟩ := exists_mem_of_ne_nil _ hparked
    have hmem : w.2 ∈ ch.waitingSenders.map (·.2) := mem_map_of_mem hw
    have hlt := hbound w.2 (mem_append_right _ hmem)
    have hrel := (pairwise_append.1 h).2.2 (ch.next value) (by simp) w.2 hmem
    change ch.sent.length < w.2.id at hrel
    omega

end MpmcChannel

namespace World

variable {T : Type} [DecidableEq T] {w w' : World T} {l : T × Call × Nat} {h : Int64}
  {ch : MpmcChannel}

/-- The send of a thread puts no message in the queue: it is full or, unless the thread was
admitted before, closed. -/
def Refused (w : World T) (t : T) (ch : MpmcChannel) : Prop :=
  ch.isFull = true ∨ ch.closed = true ∧ ∃ result, (w.threads t).pc = .ready result

/-- A send that comes to a channel with parked values is refused. -/
def QueuesUp (w : World T) (l : T × Call × Nat) : Prop :=
  ∀ h ch, w.sendsTo l.1 l.2.1 = some h → w.chans h = some ch → ch.waitingSenders ≠ [] →
    w.Refused l.1 ch

omit [DecidableEq T] in
theorem not_refused (hrefused : ¬ w.Refused l.1 ch) :
    ch.isFull = false ∧ ((∃ result, (w.threads l.1).pc = .ready result) → ch.closed = false) := by
  obtain ⟨hfull, hclosed⟩ := not_or.1 hrefused
  refine ⟨by simpa using hfull, ?_⟩
  intro hready
  by_contra h
  exact hclosed ⟨by simpa using h, hready⟩

theorem chans_onChannel {t : T} {found : MpmcChannel → MpmcChannel × ThreadState}
    {missing : ThreadState} (hch : w.chans h = some ch) :
    (w.onChannel t h found missing).chans h = some (found ch).1 := by
  unfold onChannel
  rw [hch]
  exact Function.update_self ..

theorem accept_of_not_refused (hsends : w.sendsTo l.1 l.2.1 = some h) (hch : w.chans h = some ch)
    (hrefused : ¬ w.Refused l.1 ch) (hnext : w.next l = some w') :
    ∃ value ch', w'.chans h = some ch' ∧ ChanStep (.accept value) ch ch' := by
  obtain ⟨hroom, hopen⟩ := not_refused hrefused
  unfold next step at hnext
  unfold sendsTo at hsends
  split at hsends
  · rename_i result hpc
    have hclosed := hopen ⟨result, hpc⟩
    rw [hpc] at hnext
    cases hnext
    have hsend : ∀ v, (ch.send v).1 =
        { ch with queue := ch.queue ++ [ch.next v], sent := ch.sent ++ [ch.next v] } := by
      intro v
      unfold MpmcChannel.send
      rw [if_neg (by simp [hclosed]), MpmcChannel.trySend_of_room hroom]
      rfl
    split at hsends
    · rename_i v hcall
      cases hsends
      rw [hcall]
      refine ⟨v, _, chans_onChannel hch, ?_⟩
      rw [hsend]
      exact ChanStep.accept v hroom
    · rename_i v task hcall
      cases hsends
      rw [hcall]
      refine ⟨v, _, chans_onChannel hch, ?_⟩
      unfold MpmcChannel.sendWithTask
      rw [if_neg (by simp [hclosed]), MpmcChannel.trySend_of_room hroom]
      exact ChanStep.accept v hroom
    · rename_i v hcall
      cases hsends
      rw [hcall]
      refine ⟨v, _, chans_onChannel hch, ?_⟩
      rw [hsend]
      exact ChanStep.accept v hroom
    · cases hsends
  · rename_i v hpc
    cases hsends
    rw [hpc] at hnext
    obtain ⟨ch₁, hch₁, hnext⟩ := Option.bind_eq_some_iff.1 hnext
    rw [hch] at hch₁
    cases hch₁
    obtain ⟨ch', hch', hnext⟩ := Option.bind_eq_some_iff.1 hnext
    rw [MpmcChannel.trySend_of_room hroom] at hch'
    cases hch'
    cases hnext
    exact ⟨v, _, chans_onChannel hch, ChanStep.accept v hroom⟩
  · cases hsends

theorem queuesUp_of_stuck (hnext : w.next l = none) : w.QueuesUp l := by
  intro h ch hsends hch _
  unfold next step at hnext
  unfold sendsTo at hsends
  split at hsends
  · rename_i hpc
    rw [hpc] at hnext
    cases hnext
  · rename_i v hpc
    cases hsends
    rw [hpc] at hnext
    by_contra hrefused
    obtain ⟨hroom, _⟩ := not_refused hrefused
    change (w.chans h).bind _ = none at hnext
    rw [hch] at hnext
    change (ch.trySend (ch.next v)).bind _ = none at hnext
    rw [MpmcChannel.trySend_of_room hroom] at hnext
    cases hnext
  · cases hsends

theorem inOrder_next (hbound : w.All MpmcChannel.Bounded) (hall : w.All MpmcChannel.InOrder)
    (hnext : w.next l = some w') : w'.All MpmcChannel.InOrder ↔ w.QueuesUp l := by
  constructor
  · intro hall' h ch hsends hch hparked
    by_contra hrefused
    obtain ⟨value, ch', hch', hstep⟩ := accept_of_not_refused hsends hch hrefused hnext
    exact MpmcChannel.not_inOrder_of_accept (hbound h ch hch) hstep hparked (hall' h ch' hch')
  · intro hqueues h ch' hch'
    obtain ⟨ch, a, hch, hstep, hpermits⟩ := did_of_some (step_did hnext) hch'
    refine MpmcChannel.inOrder_step (hbound h ch hch) (hall h ch hch) hstep ?_
    rintro value rfl
    by_contra hparked
    rcases hqueues h ch hpermits.1 hch hparked with hfull | ⟨hclosed, hready⟩
    · cases hstep with
      | accept _ hroom =>
        rw [hfull] at hroom
        cases hroom
    · rw [hpermits.2 hready ch hch] at hclosed
      cases hclosed

omit [DecidableEq T] in
theorem Fresh.bounded (hw : w.Fresh) : w.All MpmcChannel.Bounded := by
  intro h ch hch
  obtain ⟨capacity, rfl⟩ := hw.chans h ch hch
  intro m hm
  cases hm

omit [DecidableEq T] in
theorem Fresh.inOrder (hw : w.Fresh) : w.All MpmcChannel.InOrder := by
  intro h ch hch
  obtain ⟨capacity, rfl⟩ := hw.chans h ch hch
  exact List.Pairwise.nil

/-- **First in, first out.** An interleaving of any calls by any threads keeps the order of
the messages just when every send that comes to a channel with parked values is refused. -/
theorem inOrder_iff (hw : w.Fresh) (ls : List (T × Call × Nat)) :
    Always next (All MpmcChannel.InOrder) w ls ↔ Along next QueuesUp w ls :=
  always_iff_along (fun _ _ _ => all_next fun _ _ _ => MpmcChannel.bounded_step)
    (fun _ _ _ => inOrder_next) (fun _ _ => queuesUp_of_stuck) hw.bounded hw.inOrder

/-- The message 8 is parked when a plain receive makes room, and the message 9 is received
before it. -/
def newcomer : List (Bool × Call × Nat) :=
  [(false, .send 50000 7, 0), (true, .sendWithTask 50000 8 1, 0), (false, .recv 50000, 0),
    (false, .send 50000 9, 0), (false, .recv 50000, 0)]

theorem newcomer_first : ¬ Always next (All MpmcChannel.InOrder) small newcomer := by
  intro h
  have hrun : ((run next small newcomer).bind fun w => (w.chans 50000).map fun ch =>
      ch.line.map (·.id)) = some [0, 2, 1] := by decide +kernel
  obtain ⟨w, hw, hch⟩ := Option.bind_eq_some_iff.1 hrun
  obtain ⟨ch, hch, hline⟩ := Option.map_eq_some_iff.1 hch
  have horder := List.pairwise_map.2 (h.last hw 50000 ch hch)
  rw [hline] at horder
  revert horder
  decide

theorem inOrder_small :
    Always next (All MpmcChannel.InOrder) small newcomer ↔ Along next QueuesUp small newcomer :=
  inOrder_iff fresh_small newcomer

end World

end Arth.Runtime
