import Arth.Lib.Runs
import Arth.Runtime.Threads

/-!
# Every message is in one place

* `ExactlyOnce` — what the channel took is queued, parked, handed out or received, and in one
  of these places only.
* `exactlyOnce_iff` — exactly the interleavings in which that holds throughout.
* `atMostOnce` — what holds of all interleavings: no message twice, no queue over its capacity.
-/

namespace Arth.Runtime

open Runs List

namespace MpmcChannel

/-- The messages of the channel, wherever they are. -/
def places (ch : MpmcChannel) : List Message :=
  ch.queue ++ ch.waitingSenders.map (·.2) ++ ch.handed ++ ch.received

/-- Every message the channel took is in exactly one place, and there are no others. -/
def ExactlyOnce (ch : MpmcChannel) : Prop :=
  ∀ m, ch.places.count m = if m ∈ ch.sent then 1 else 0

/-- The messages of a channel are numbered in the order of their sends. -/
def Numbered (ch : MpmcChannel) : Prop := ch.sent.map (·.id) = List.range ch.sent.length

variable {ch ch' : MpmcChannel} {a : ChanAct} {m : Message}

theorem Numbered.nodup (h : ch.Numbered) : ch.sent.Nodup := by
  apply Nodup.of_map (·.id)
  rw [h]
  exact nodup_range

theorem exactlyOnce_iff_perm (h : ch.Numbered) : ch.ExactlyOnce ↔ ch.places.Perm ch.sent := by
  rw [perm_iff_count]
  apply forall_congr'
  intro m
  rw [h.nodup.count]

theorem numbered_accepted (h : ch.Numbered) (value : Int64) :
    (ch.sent ++ [ch.next value]).map (·.id) = range (ch.sent ++ [ch.next value]).length := by
  rw [map_append, h, length_append, length_singleton, range_succ]
  rfl

theorem numbered_step (h : ch.Numbered) (hstep : ChanStep a ch ch') : ch'.Numbered := by
  cases hstep with
  | accept value | park _ value => exact numbered_accepted h value
  | _ => exact h

theorem perm_step (hstep : ChanStep a ch ch') (ha : a ≠ .lose) (h : ch.places.Perm ch.sent) :
    ch'.places.Perm ch'.sent := by
  rw [perm_iff_count] at h ⊢
  intro m
  have hm := h m
  unfold places at hm ⊢
  cases hstep with
  | accept value _ =>
    simp only [count_append] at hm ⊢
    omega
  | park taskId value _ =>
    simp only [count_append, map_append, map_cons, map_nil] at hm ⊢
    omega
  | receive hqueue =>
    rw [hqueue] at hm
    simp only [count_append, count_cons, count_nil] at hm ⊢
    omega
  | move hwaiting | hand hwaiting =>
    rw [hwaiting] at hm
    simp only [count_append, map_cons, count_cons, count_nil] at hm ⊢
    omega
  | lose _ _ => exact absurd rfl ha
  | close | receivers => exact hm

theorem not_perm_of_lose (hstep : ChanStep .lose ch ch') (h : ch.places.Perm ch.sent) :
    ¬ ch'.places.Perm ch'.sent := by
  intro h'
  cases hstep with
  | lose hwaiting _ =>
    have hlen := h.length_eq
    have hlen' := h'.length_eq
    unfold places at hlen hlen'
    rw [hwaiting] at hlen
    simp only [length_append, length_map, length_cons] at hlen hlen'
    omega

/-! ## Without conditions -/

/-- The queue keeps to its capacity, and nobody waits to send where there is none. -/
structure Fits (ch : MpmcChannel) : Prop where
  queue : ch.capacity ≠ 0 → ch.queue.length ≤ ch.capacity
  parked : ch.capacity = 0 → ch.waitingSenders = []

theorem count_step (hstep : ChanStep a ch ch') (h : ∀ m, ch.places.count m ≤ ch.sent.count m)
    (m : Message) : ch'.places.count m ≤ ch'.sent.count m := by
  have hm := h m
  unfold places at hm ⊢
  cases hstep with
  | accept | park =>
    simp only [count_append, map_append, map_cons, map_nil] at hm ⊢
    omega
  | receive hfirst | move hfirst | lose hfirst | hand hfirst =>
    rw [hfirst] at hm
    simp only [count_append, map_cons, count_cons, count_nil] at hm ⊢
    omega
  | close | receivers => exact hm

theorem fits_step (hstep : ChanStep a ch ch') (h : ch.Fits) : ch'.Fits := by
  obtain ⟨hqueue, hparked⟩ := h
  cases hstep with
  | accept _ hroom | move _ hroom =>
    have hlt : ch.capacity = 0 ∨ ch.queue.length < ch.capacity := by
      simp only [isFull, decide_eq_false_iff_not] at hroom
      omega
    constructor <;> simp_all <;> omega
  | _ => constructor <;> simp_all [isFull, close] <;> omega

end MpmcChannel

namespace World

variable {T : Type} [DecidableEq T]

/-- A step with its label: the thread, the call it starts if it is between two calls, and
the choice of a blocking select. -/
def next (w : World T) (l : T × Call × Nat) : Option (World T) := w.step l.1 l.2.1 l.2.2

/-- Channels as they are created, and threads between two calls. -/
structure Fresh (w : World T) : Prop where
  chans : ∀ h ch, w.chans h = some ch → ∃ capacity, ch = .create capacity
  threads : ∀ t, ∃ result, (w.threads t).pc = .ready result

/-- The property holds of every channel. -/
def All (P : MpmcChannel → Prop) (w : World T) : Prop := ∀ h ch, w.chans h = some ch → P ch

/-- Where a waking receive finds a parked value, the queue has room for it. -/
def RoomForParked (w : World T) (l : T × Call × Nat) : Prop :=
  ∀ h ch, w.wakesOn l.1 = some h → w.chans h = some ch → ch.waitingSenders ≠ [] →
    ch.isFull = false

variable {w w' : World T} {P : MpmcChannel → Prop} {l : T × Call × Nat} {h : Int64}
  {ch : MpmcChannel}

omit [DecidableEq T] in
theorem did_of_some {Q : Int64 → ChanAct → Prop} (hdid : Did Q w w') {ch' : MpmcChannel}
    (hch' : w'.chans h = some ch') : ∃ ch a, w.chans h = some ch ∧ ChanStep a ch ch' ∧ Q h a := by
  rcases hdid h with ⟨_, hn⟩ | ⟨ch, ch₁, hs, hs', a, hstep, ha⟩
  · rw [hch'] at hn
    cases hn
  · rw [hch'] at hs'
    cases hs'
    exact ⟨ch, a, hs, hstep, ha⟩

theorem all_next (hP : ∀ a ch ch', P ch → ChanStep a ch ch' → P ch') (hall : w.All P)
    (hnext : w.next l = some w') : w'.All P := by
  intro h ch' hch'
  obtain ⟨ch, a, hch, hstep, _⟩ := did_of_some (step_did hnext) hch'
  exact hP a ch ch' (hall h ch hch) hstep

theorem chans_of_wakesOn (hwakes : w.wakesOn l.1 = some h) (hch : w.chans h = some ch)
    (hnext : w.next l = some w') : w'.chans h = some ch.wakeSender.1 := by
  unfold wakesOn at hwakes
  split at hwakes
  · rename_i h' v hpc
    cases hwakes
    unfold next step at hnext
    rw [hpc] at hnext
    cases hnext
    unfold onChannel
    rw [hch]
    exact Function.update_self ..
  · cases hwakes

theorem roomForParked_of_stuck (hnext : w.next l = none) : w.RoomForParked l := by
  intro h ch hwakes hch _
  unfold wakesOn at hwakes
  split at hwakes
  · rename_i hpc
    unfold next step at hnext
    rw [hpc] at hnext
    cases hnext
  · cases hwakes

theorem perm_next (hnumbered : w.All MpmcChannel.Numbered)
    (hall : w.All MpmcChannel.ExactlyOnce) (hnext : w.next l = some w') :
    w'.All MpmcChannel.ExactlyOnce ↔ w.RoomForParked l := by
  have hnumbered' := all_next (fun _ _ _ => MpmcChannel.numbered_step) hnumbered hnext
  constructor
  · intro hall' h ch hwakes hch hparked
    by_contra hfull
    have hch' := chans_of_wakesOn hwakes hch hnext
    cases hws : ch.waitingSenders with
    | nil => exact hparked hws
    | cons ws wss =>
      have hlose := MpmcChannel.wakeSender_step hws
      rw [if_pos (by simpa using hfull)] at hlose
      have hperm := (MpmcChannel.exactlyOnce_iff_perm (hnumbered h ch hch)).1 (hall h ch hch)
      apply MpmcChannel.not_perm_of_lose hlose hperm
      exact (MpmcChannel.exactlyOnce_iff_perm (hnumbered' h _ hch')).1 (hall' h _ hch')
  · intro hroom h ch' hch'
    obtain ⟨ch, a, hch, hstep, hpermits⟩ := did_of_some (step_did hnext) hch'
    have hperm := (MpmcChannel.exactlyOnce_iff_perm (hnumbered h ch hch)).1 (hall h ch hch)
    rw [MpmcChannel.exactlyOnce_iff_perm (hnumbered' h ch' hch')]
    refine MpmcChannel.perm_step hstep ?_ hperm
    rintro rfl
    have hroom' := hroom h ch hpermits hch
    cases hstep with
    | lose hwaiting hfull =>
      rw [hfull] at hroom'
      cases hroom' (by rw [hwaiting]; exact cons_ne_nil _ _)

omit [DecidableEq T] in
theorem Fresh.numbered (hw : w.Fresh) : w.All MpmcChannel.Numbered := by
  intro h ch hch
  obtain ⟨capacity, rfl⟩ := hw.chans h ch hch
  rfl

omit [DecidableEq T] in
theorem Fresh.exactlyOnce (hw : w.Fresh) : w.All MpmcChannel.ExactlyOnce := by
  intro h ch hch
  obtain ⟨capacity, rfl⟩ := hw.chans h ch hch
  intro m
  rfl

/-- **Exactly-once delivery.** An interleaving of any calls by any threads keeps every
message in exactly one place just when every waking receive that finds a parked value finds
room for it in the queue. -/
theorem exactlyOnce_iff (hw : w.Fresh) (ls : List (T × Call × Nat)) :
    Always next (All MpmcChannel.ExactlyOnce) w ls ↔ Along next RoomForParked w ls :=
  always_iff_along (fun _ _ _ => all_next fun _ _ _ => MpmcChannel.numbered_step)
    (fun _ _ _ => perm_next) (fun _ _ => roomForParked_of_stuck) hw.numbered hw.exactlyOnce

/-- **No message is doubled.** In every interleaving every channel has every message in at most one
place, and no others, and holds no more than its capacity. -/
theorem atMostOnce (hw : w.Fresh) (ls : List (T × Call × Nat)) :
    Always next (All fun ch => (∀ m, ch.places.count m ≤ if m ∈ ch.sent then 1 else 0) ∧
      ch.Fits) w ls := by
  let I (w : World T) : Prop := w.All fun ch => ch.Numbered ∧
    (∀ m, ch.places.count m ≤ ch.sent.count m) ∧ ch.Fits
  have hstart : I w := by
    intro h ch hch
    refine ⟨hw.numbered h ch hch, ?_⟩
    obtain ⟨capacity, rfl⟩ := hw.chans h ch hch
    exact ⟨fun m => le_rfl, by simp [MpmcChannel.create], fun _ => rfl⟩
  have hrun : Runs.Always next I w ls := by
    refine Runs.always_of_along (fun w l w' hI _ hnext => ?_) hstart
      (Runs.along_of_forall (fun _ _ => trivial) w)
    exact all_next (fun a ch ch' ⟨hn, hc, hf⟩ hstep => ⟨MpmcChannel.numbered_step hn hstep,
      MpmcChannel.count_step hstep hc, MpmcChannel.fits_step hstep hf⟩) hI hnext
  refine hrun.mono fun w hI h ch hch => ?_
  obtain ⟨hn, hc, hf⟩ := hI h ch hch
  refine ⟨fun m => ?_, hf⟩
  rw [← hn.nodup.count]
  exact hc m

/-- Two threads and a channel for one message. -/
def small : World Bool where
  chans h := if h = 50000 then some (.create 1) else none
  threads _ :=
    { pc := .ready 0
      wokenSender := 0
      wokenReceiver := 0
      waitingSenderValue := 0
      selectChannels := []
      selectResultIndex := -1
      selectResultValue := 0 }

theorem fresh_small : small.Fresh where
  chans h ch hch := by
    by_cases hh : h = 50000
    · exact ⟨1, by simpa [small, hh] using hch.symm⟩
    · simp [small, hh] at hch
  threads _ := ⟨0, rfl⟩

/-- The message 8 is parked; between the two halves of a waking receive the message 9 takes
its place. -/
def overtaken : List (Bool × Call × Nat) :=
  [(false, .send 50000 7, 0), (true, .sendWithTask 50000 8 1, 0), (false, .recvAndWake 50000, 0),
    (true, .send 50000 9, 0), (false, .recv 50000, 0)]

theorem overtaken_loses : ¬ Always next (All MpmcChannel.ExactlyOnce) small overtaken := by
  intro h
  have hrun : ((run next small overtaken).bind fun w => (w.chans 50000).map fun ch =>
      (ch.places.count ⟨1, 8⟩, decide (⟨1, 8⟩ ∈ ch.sent))) = some (0, true) := by decide +kernel
  obtain ⟨w, hw, hch⟩ := Option.bind_eq_some_iff.1 hrun
  obtain ⟨ch, hch, heq⟩ := Option.map_eq_some_iff.1 hch
  obtain ⟨hcount, hsent⟩ := Prod.mk.inj heq
  have hone := h.last hw 50000 ch hch ⟨1, 8⟩
  rw [hcount, if_pos (of_decide_eq_true hsent)] at hone
  cases hone

theorem exactlyOnce_small : Always next (All MpmcChannel.ExactlyOnce) small overtaken ↔
      Along next RoomForParked small overtaken :=
  exactlyOnce_iff fresh_small overtaken

theorem atMostOnce_small : Always next (All fun ch =>
      (∀ m, ch.places.count m ≤ if m ∈ ch.sent then 1 else 0) ∧ ch.Fits) small overtaken :=
  atMostOnce fresh_small overtaken

end World

end Arth.Runtime
