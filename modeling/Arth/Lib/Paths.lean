import Mathlib.Data.List.Basic

/-!
# Paths through structured programs

A piece of a program as the set of its paths: the state before, the events on the way, the
state after, and the exit, which is `none` where the path runs to the end and `some a` where
the piece is left early. The choices of a program are free.

* `skip`, `leave`, `update`, `event`, `failing`, `depending` — single steps.
* `seq`, `alt`, `loop` — sequence, choice, iteration.
* `handle`, `resume` — early exits that a surrounding construct takes; `always` — a piece that
  runs on every exit.
* `Triple` — a piece keeps its promise on every path whose events are all allowed; one rule
  for each combinator.
-/

namespace Arth

open List

/-- Paths over states `S` with events `E` and early exits `A`. -/
abbrev Paths (S E A : Type) := S → List E → S → Option A → Prop

namespace Paths

variable {S E A : Type}

def skip : Paths S E A := fun s es s' o => es = [] ∧ s' = s ∧ o = none

/-- Leave early, without an event. -/
def leave (a : A) : Paths S E A := fun s es s' o => es = [] ∧ s' = s ∧ o = some a

/-- Change the state. -/
def update (f : S → S) : Paths S E A := fun s es s' o => es = [] ∧ s' = f s ∧ o = none

/-- One event. -/
def event (e : E) : Paths S E A := fun s es s' o => es = [e] ∧ s' = s ∧ o = none

/-- One event and then an early exit, for some pair of this set. -/
def failing (r : E → A → Prop) : Paths S E A :=
  fun s es s' o => ∃ e a, r e a ∧ es = [e] ∧ s' = s ∧ o = some a

/-- Go on in a way that depends on the state. -/
def depending (f : S → Paths S E A) : Paths S E A := fun s es s' o => f s s es s' o

def seq (p q : Paths S E A) : Paths S E A := fun s es s' o =>
  (∃ a, o = some a ∧ p s es s' o) ∨
    ∃ es₁ s₁ es₂, p s es₁ s₁ none ∧ q s₁ es₂ s' o ∧ es = es₁ ++ es₂

def alt (p q : Paths S E A) : Paths S E A := fun s es s' o => p s es s' o ∨ q s es s' o

/-- Any number of rounds. -/
inductive loop (p : Paths S E A) : Paths S E A
  | stop (s : S) : loop p s [] s none
  | exit {s s' : S} {es : List E} {a : A} : p s es s' (some a) → loop p s es s' (some a)
  | round {s s₁ s' : S} {es₁ es₂ : List E} {o : Option A} :
    p s es₁ s₁ none → loop p s₁ es₂ s' o → loop p s (es₁ ++ es₂) s' o

/-- Some early exits are taken over by another piece. -/
def handle (p : Paths S E A) (h : A → Option (Paths S E A)) : Paths S E A := fun s es s' o =>
  (p s es s' o ∧ ∀ a, o = some a → h a = none) ∨
    ∃ es₁ s₁ a q es₂, p s es₁ s₁ (some a) ∧ h a = some q ∧ q s₁ es₂ s' o ∧ es = es₁ ++ es₂

/-- Go on with one piece after the end, and with another after an early exit that is taken
over. -/
def resume (p q : Paths S E A) (h : A → Option (Paths S E A)) : Paths S E A := fun s es s' o =>
  (∃ a, o = some a ∧ h a = none ∧ p s es s' o) ∨
    ∃ es₁ s₁ o₁ q' es₂, p s es₁ s₁ o₁ ∧ o₁.elim (some q) h = some q' ∧ q' s₁ es₂ s' o ∧
      es = es₁ ++ es₂

/-- The second piece runs on every exit of the first; an early exit of its own counts. -/
def always (p q : Paths S E A) : Paths S E A := fun s es s' o =>
  ∃ es₁ s₁ o₁ es₂ o₂, p s es₁ s₁ o₁ ∧ q s₁ es₂ s' o₂ ∧ es = es₁ ++ es₂ ∧ o = o₂.or o₁

end Paths

/-! ## Triples -/

variable {S E A : Type}

/-- **A piece of a program keeps a promise**: on a path from a state in `P` all of whose events
are allowed, it ends in `Q`, or is left early with an exit and a state in `R`. -/
def Triple (ok : E → Prop) (P : S → Prop) (p : Paths S E A) (Q : S → Prop)
    (R : A → S → Prop) : Prop :=
  ∀ s es s' o, P s → p s es s' o → (∀ e ∈ es, ok e) → o.elim (Q s') fun a => R a s'

namespace Triple

variable {ok : E → Prop} {P P' Q Q' : S → Prop} {R R' : A → S → Prop} {p q : Paths S E A}
    {h : A → Option (Paths S E A)} {M : A → S → Prop}

theorem weaken (h : Triple ok P p Q R) (hP : ∀ s, P' s → P s) (hQ : ∀ s, Q s → Q' s)
    (hR : ∀ a s, R a s → R' a s) : Triple ok P' p Q' R' := by
  intro s es s' o hs hp hok
  have hend := h s es s' o (hP s hs) hp hok
  cases o with
  | none => exact hQ s' hend
  | some a => exact hR a s' hend

theorem frame {F : Prop} (h : F → Triple ok P p Q R) :
    Triple ok (fun s => P s ∧ F) p (fun s => Q s ∧ F) R := by
  rintro s es s' o ⟨hs, hF⟩ hrun hok
  have hend := h hF s es s' o hs hrun hok
  cases o with
  | none => exact ⟨hend, hF⟩
  | some a => exact hend

theorem skip : Triple ok P (Paths.skip : Paths S E A) P R := by
  rintro s es s' o hs ⟨-, rfl, rfl⟩ -
  exact hs

theorem leave {a : A} (h : ∀ s, P s → R a s) : Triple ok P (Paths.leave a) Q R := by
  rintro s es s' o hs ⟨-, rfl, rfl⟩ -
  exact h _ hs

theorem update {f : S → S} (h : ∀ s, P s → Q (f s)) :
    Triple ok P (Paths.update f : Paths S E A) Q R := by
  rintro s es s' o hs ⟨-, rfl, rfl⟩ -
  exact h s hs

theorem event {e : E} (h : ∀ s, ok e → P s → Q s) :
    Triple ok P (Paths.event e : Paths S E A) Q R := by
  rintro s es s' o hs ⟨rfl, rfl, rfl⟩ hok
  exact h _ (hok e (mem_singleton_self e)) hs

theorem failing {r : E → A → Prop} (h : ∀ e a s, r e a → ok e → P s → R a s) :
    Triple ok P (Paths.failing r) Q R := by
  rintro s es s' o hs ⟨e, a, hr, rfl, rfl, rfl⟩ hok
  exact h e a _ hr (hok e (mem_singleton_self e)) hs

theorem depending {f : S → Paths S E A} (h : ∀ s₀, P s₀ → Triple ok (fun s => s = s₀) (f s₀) Q R) :
    Triple ok P (Paths.depending f) Q R := by
  intro s es s' o hs hrun hok
  exact h s hs s es s' o rfl hrun hok

theorem seq {M : S → Prop} (hp : Triple ok P p M R) (hq : Triple ok M q Q R) :
    Triple ok P (p.seq q) Q R := by
  rintro s es s' o hs (⟨a, rfl, h⟩ | ⟨es₁, s₁, es₂, h₁, h₂, rfl⟩) hok
  · exact hp s es s' (some a) hs h hok
  · have hmid : M s₁ := hp s es₁ s₁ none hs h₁ fun e he => hok e (mem_append_left _ he)
    exact hq s₁ es₂ s' o hmid h₂ fun e he => hok e (mem_append_right _ he)

theorem alt (hp : Triple ok P p Q R) (hq : Triple ok P q Q R) : Triple ok P (p.alt q) Q R := by
  rintro s es s' o hs (h | h) hok
  · exact hp s es s' o hs h hok
  · exact hq s es s' o hs h hok

theorem loop (hp : Triple ok P p P R) : Triple ok P p.loop P R := by
  intro s es s' o hs h hok
  induction h with
  | stop s => exact hs
  | exit h => exact hp _ _ _ _ hs h hok
  | round h _ ih =>
    have hmid := hp _ _ _ _ hs h fun e he => hok e (mem_append_left _ he)
    exact ih hmid fun e he => hok e (mem_append_right _ he)

theorem handle (hp : Triple ok P p Q M) (hnone : ∀ a s, h a = none → M a s → R a s)
    (hsome : ∀ a q, h a = some q → Triple ok (M a) q Q R) : Triple ok P (p.handle h) Q R := by
  rintro s es s' o hs (⟨hrun, hkeep⟩ | ⟨es₁, s₁, a, q, es₂, hrun, hq, hrest, rfl⟩) hok
  · have hend := hp s es s' o hs hrun hok
    cases o with
    | none => exact hend
    | some a => exact hnone a s' (hkeep a rfl) hend
  · have hmid := hp s es₁ s₁ (some a) hs hrun fun e he => hok e (mem_append_left _ he)
    exact hsome a q hq s₁ es₂ s' o hmid hrest fun e he => hok e (mem_append_right _ he)

theorem resume {N : S → Prop}
    (hp : Triple ok P p N M) (hq : Triple ok N q Q R) (hnone : ∀ a s, h a = none → M a s → R a s)
    (hsome : ∀ a q', h a = some q' → Triple ok (M a) q' Q R) : Triple ok P (p.resume q h) Q R := by
  rintro s es s' o hs (⟨a, rfl, ha, hrun⟩ | ⟨es₁, s₁, o₁, q', es₂, hrun, hq', hrest, rfl⟩) hok
  · exact hnone a s' ha (hp s es s' (some a) hs hrun hok)
  · have hmid := hp s es₁ s₁ o₁ hs hrun fun e he => hok e (mem_append_left _ he)
    have hok₂ : ∀ e ∈ es₂, ok e := fun e he => hok e (mem_append_right _ he)
    cases o₁ with
    | none =>
      cases hq'
      exact hq s₁ es₂ s' o hmid hrest hok₂
    | some a => exact hsome a q' hq' s₁ es₂ s' o hmid hrest hok₂

theorem always {M : S → Prop} {N : A → S → Prop} (hp : Triple ok P p M N)
    (hdone : Triple ok M q Q R) (hleft : ∀ a, Triple ok (N a) q (R a) R) :
    Triple ok P (p.always q) Q R := by
  rintro s es s' o hs ⟨es₁, s₁, o₁, es₂, o₂, h₁, h₂, rfl, rfl⟩ hok
  have hmid := hp s es₁ s₁ o₁ hs h₁ fun e he => hok e (mem_append_left _ he)
  have hok₂ : ∀ e ∈ es₂, ok e := fun e he => hok e (mem_append_right _ he)
  cases o₁ with
  | none => simpa using hdone s₁ es₂ s' o₂ hmid h₂ hok₂
  | some a =>
    have hend := hleft a s₁ es₂ s' o₂ hmid h₂ hok₂
    cases o₂ with
    | none => exact hend
    | some b => exact hend

end Triple

end Arth
