import Mathlib

/-!
# Programs over a state that may fail

`Gives m s P` says that whatever `m` returns from the state `s`, the postcondition `P` holds
of it; a failed run has nothing to show.

* `Gives.pure`, `Gives.bind`, `Gives.get_bind`, `Gives.modify` and the others follow the shape
  of a `do` block.
* `run_bind` and its companions compute a run instead.
* `Keeps I m`: `m` preserves the invariant `I`. It is closed under sequencing, branching and
  loops over a list, and `Kept` is the class that finds this out.
* `Tracks P m m' Q`: from a state of `P` every run of `m` is one of `m'` as well, where `m'`
  is `m` with checks in it that may fail.
-/

namespace Builder

universe u

variable {S α β : Type u}

/-- Whatever `m` returns from `s` satisfies the postcondition. -/
def Gives (m : StateT S Option α) (s : S) (P : α → S → Prop) : Prop :=
  ∀ a s', m s = some (a, s') → P a s'

variable {m : StateT S Option α} {f : α → StateT S Option β} {s : S}
  {P P' : α → S → Prop} {Q : β → S → Prop} {a : α} {g : S → S}

/-! ## Postconditions -/

theorem Gives.imp (hm : Gives m s P) (h : ∀ a s', P a s' → P' a s') : Gives m s P' :=
  fun a s' hr => h a s' (hm a s' hr)

theorem Gives.pure (h : P a s) : Gives (pure a : StateT S Option α) s P := by
  intro a' s' hr
  cases hr
  exact h

theorem Gives.fail : Gives (fun _ => none : StateT S Option α) s P := by
  intro a s' hr
  cases hr

theorem bind_inv {r : β × S} (h : (m >>= f) s = some r) :
    ∃ a s', m s = some (a, s') ∧ f a s' = some r := by
  obtain ⟨p, hp, hf⟩ := Option.bind_eq_some_iff.1 h
  exact ⟨p.1, p.2, hp, hf⟩

theorem Gives.bind (h : Gives m s fun a s' => Gives (f a) s' Q) : Gives (m >>= f) s Q := by
  intro b s' hr
  obtain ⟨a, s₁, hm, hf⟩ := bind_inv hr
  exact h a s₁ hm b s' hf

theorem Gives.get_bind {f : S → StateT S Option β} (h : Gives (f s) s Q) :
    Gives (MonadState.get >>= f) s Q := h

theorem Gives.set {s₁ : S} {Q : PUnit → S → Prop} (h : Q ⟨⟩ s₁) :
    Gives (MonadStateOf.set s₁ : StateT S Option PUnit) s Q := by
  intro a s' hr
  cases hr
  exact h

theorem Gives.modify {Q : PUnit → S → Prop} (h : Q ⟨⟩ (g s)) :
    Gives (modify g : StateT S Option PUnit) s Q := by
  intro a s' hr
  cases hr
  exact h

theorem run_get_bind (f : S → StateT S Option β) : (MonadState.get >>= f) s = f s s := rfl

theorem run_set_bind (s₁ : S) (f : PUnit → StateT S Option β) :
    (MonadStateOf.set s₁ >>= f) s = f ⟨⟩ s₁ := rfl

theorem run_bind {s' : S} (h : m s = some (a, s')) : (m >>= f) s = f a s' := by
  change (m s).bind (fun p => f p.1 p.2) = f a s'
  rw [h]
  rfl

/-! ## Invariants -/

variable {I : S → Prop}

/-- `m` preserves `I`. -/
def Keeps (I : S → Prop) (m : StateT S Option α) : Prop := ∀ s, I s → Gives m s fun _ => I

theorem Keeps.pure : Keeps I (pure a : StateT S Option α) := fun _ hs => Gives.pure hs

theorem Keeps.fail : Keeps I (fun _ => none : StateT S Option α) := fun _ _ => Gives.fail

theorem Keeps.bind (hm : Keeps I m) (hf : ∀ a, Keeps I (f a)) : Keeps I (m >>= f) :=
  fun s hs => Gives.bind ((hm s hs).imp fun a s' hs' => hf a s' hs')

theorem Keeps.get_bind {f : S → StateT S Option β}
    (hf : ∀ s, I s → Gives (f s) s fun _ => I) : Keeps I (MonadState.get >>= f) :=
  fun s hs => Gives.get_bind (hf s hs)

theorem Keeps.modify (hg : ∀ s, I s → I (g s)) : Keeps I (modify g : StateT S Option PUnit) :=
  fun s hs => Gives.modify (hg s hs)

theorem Keeps.ite {c : Prop} [Decidable c] {m' : StateT S Option α} (hm : Keeps I m)
    (hm' : Keeps I m') : Keeps I (if c then m else m') := by
  split_ifs with hc
  · exact hm
  · exact hm'

theorem Keeps.forM {A : Type*} {g : A → StateT S Option PUnit} (l : List A)
    (hg : ∀ a ∈ l, Keeps I (g a)) : Keeps I (l.forM g) := by
  induction l with
  | nil => exact Keeps.pure
  | cons a l ih =>
    apply Keeps.bind (hg a List.mem_cons_self)
    intro _
    exact ih fun a' ha' => hg a' (List.mem_cons_of_mem a ha')

/-- `Keeps` as a class: that a program keeps `I` follows from its shape. -/
class Kept (I : S → Prop) (m : StateT S Option α) : Prop where
  keeps : Keeps I m

instance kept_pure {a : α} : Kept I (Pure.pure a : StateT S Option α) := ⟨Keeps.pure⟩

instance kept_get : Kept I (MonadState.get : StateT S Option S) := by
  refine ⟨fun s hs a s' hr => ?_⟩
  cases hr
  exact hs

instance kept_bind [hm : Kept I m] [hf : ∀ a, Kept I (f a)] : Kept I (m >>= f) :=
  ⟨hm.keeps.bind fun a => (hf a).keeps⟩

instance kept_map {g : α → β} [hm : Kept I m] : Kept I (g <$> m) :=
  ⟨hm.keeps.bind fun _ => Keeps.pure⟩

instance kept_ite {c : Prop} [Decidable c] {m' : StateT S Option α} [hm : Kept I m]
    [hm' : Kept I m'] : Kept I (if c then m else m') := ⟨hm.keeps.ite hm'.keeps⟩

instance kept_forM {A : Type*} {g : A → StateT S Option PUnit} {l : List A}
    [hg : ∀ a, Kept I (g a)] : Kept I (l.forM g) := ⟨Keeps.forM l fun a _ => (hg a).keeps⟩

theorem Kept.then (hm : Kept I m) (hf : ∀ a, Kept I (f a)) : Kept I (m >>= f) := kept_bind

theorem Kept.bind [Kept I m] (hf : ∀ a, Kept I (f a)) : Kept I (m >>= f) := kept_bind

variable {m' : StateT S Option α} {f' : α → StateT S Option β} {pre pre' : S → Prop}

/-- From a state of `pre` every run of `m` is one of `m'`, and ends in the postcondition. -/
def Tracks (pre : S → Prop) (m m' : StateT S Option α) (P : α → S → Prop) : Prop :=
  ∀ s, pre s → ∀ a s', m s = some (a, s') → m' s = some (a, s') ∧ P a s'

theorem Tracks.imp (h : Tracks pre m m' P) (hpre : ∀ s, pre' s → pre s)
    (hpost : ∀ a s, P a s → P' a s) : Tracks pre' m m' P' := by
  intro s hs a s' hr
  obtain ⟨hrun, hP⟩ := h s (hpre s hs) a s' hr
  exact ⟨hrun, hpost a s' hP⟩

theorem Kept.tracks (h : Kept I m) : Tracks I m m fun _ => I :=
  fun s hs a s' hr => ⟨hr, h.keeps s hs a s' hr⟩

theorem Tracks.of_gives (h : ∀ s, pre s → Gives m s P) : Tracks pre m m P :=
  fun s hs a s' hr => ⟨hr, h s hs a s' hr⟩

theorem Tracks.of_start (h : ∀ s, pre s → Tracks (· = s) m m' P) : Tracks pre m m' P :=
  fun s hs => h s hs s rfl

theorem Tracks.fail : Tracks pre (fun _ => none : StateT S Option α) m' P := by
  intro s _ a s' hr
  cases hr

theorem Tracks.bind (hm : Tracks pre m m' P) (hf : ∀ a, Tracks (P a) (f a) (f' a) Q) :
    Tracks pre (m >>= f) (m' >>= f') Q := by
  intro s hs b s' hr
  obtain ⟨a, s₁, hm₁, hf₁⟩ := bind_inv hr
  obtain ⟨hrun, hP⟩ := hm s hs a s₁ hm₁
  rw [run_bind hrun]
  exact hf a s₁ hP b s' hf₁

theorem Tracks.keep [hm : Kept I m] (hf : ∀ a, Tracks I (f a) (f' a) Q) :
    Tracks I (m >>= f) (m >>= f') Q := Tracks.bind hm.tracks hf

theorem Tracks.get_bind {f f' : S → StateT S Option β}
    (hf : ∀ s, pre s → Tracks (· = s) (f s) (f' s) Q) :
    Tracks pre (MonadState.get >>= f) (MonadState.get >>= f') Q :=
  fun s hs => hf s hs s rfl

theorem Tracks.get_right {f' : S → StateT S Option α} (h : Tracks (· = s) m (f' s) P) :
    Tracks (· = s) m (MonadState.get >>= f') P := by
  intro s' hs
  subst hs
  exact h s' rfl

theorem Tracks.check {c : StateT S Option PUnit} (hc : ∀ s, pre s → c s = some (⟨⟩, s))
    (h : Tracks pre m m' P) : Tracks pre m (c >>= fun _ => m') P := by
  intro s hs a s' hr
  rw [run_bind (hc s hs)]
  exact h s hs a s' hr

theorem Tracks.ite {c : Prop} [Decidable c] {m₁ m₁' : StateT S Option α}
    (h : c → Tracks pre m m' P) (h₁ : ¬c → Tracks pre m₁ m₁' P) :
    Tracks pre (if c then m else m₁) (if c then m' else m₁') P := by
  by_cases hc : c
  · rw [if_pos hc, if_pos hc]
    exact h hc
  · rw [if_neg hc, if_neg hc]
    exact h₁ hc

end Builder
