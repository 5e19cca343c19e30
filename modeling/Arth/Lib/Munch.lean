import Mathlib

/-!
# Reading as much as fits

A scanner that takes items while they fit looks one item ahead. What it takes stays the same when
the input behind is changed, if the first item changed is one at which it stops.

* `dropWhile_eq_iff` — what a scanner that takes the items with a property leaves.
* `Scanner.munch`, `Scanner.ahead`, `Scanner.seq` — scanners are put together from scanners.
-/

namespace Munch

open List

variable {α β γ : Type*} {sep : α → Prop} {p : α → Bool} {t r r' : List α}

theorem dropWhile_eq_iff :
    (t ++ r).dropWhile p = r ↔ (∀ c ∈ t, p c) ∧ ∀ c ∈ r.head?, p c = false := by
  constructor
  · intro h
    have hall : ∀ c ∈ t, p c := by
      have htake : (t ++ r).takeWhile p = t := by
        refine (append_left_inj r).1 ?_
        nth_rewrite 2 [← h]
        exact takeWhile_append_dropWhile
      rw [← htake]
      exact fun c hc => mem_takeWhile_imp hc
    refine ⟨hall, fun c hc => ?_⟩
    rw [dropWhile_append_of_pos hall] at h
    have hstop := head?_dropWhile_not p r
    rwa [h, hc] at hstop
  · rintro ⟨hall, hhead⟩
    rw [dropWhile_append_of_pos hall]
    cases r with
    | nil => rfl
    | cons c r => simp [hhead c rfl]

theorem takeWhile_eq (h : (t ++ r).dropWhile p = r) : (t ++ r).takeWhile p = t := by
  refine (append_left_inj r).1 ?_
  nth_rewrite 2 [← h]
  exact takeWhile_append_dropWhile

/-- `r'` agrees with `r` up to a separator. -/
inductive UpTo (sep : α → Prop) : List α → List α → Prop where
  | here {r r' : List α} {g : α} : sep g → UpTo sep r (g :: r')
  | cons {r r' : List α} (c : α) : UpTo sep r r' → UpTo sep (c :: r) (c :: r')

theorem UpTo.append (x : List α) (h : UpTo sep r r') : UpTo sep (x ++ r) (x ++ r') := by
  induction x with
  | nil => exact h
  | cons c x ih => exact .cons c ih

theorem UpTo.insert {g : α} (hg : sep g) (x y z : List α) :
    UpTo sep (x ++ y) (x ++ (g :: z ++ y)) :=
  .append x (.here hg)

theorem UpTo.ne_nil (h : UpTo sep r r') : r' ≠ [] := by
  cases h <;> exact nofun

theorem UpTo.head (h : UpTo sep r r') {c : α} (hc : c ∈ r'.head?) : sep c ∨ c ∈ r.head? := by
  cases h with
  | here hg =>
    cases hc
    exact .inl hg
  | cons d _ => exact .inr hc

theorem UpTo.of_append {x y : List α} (h : UpTo sep r r') (hx : ∀ c ∈ x, ¬ sep c)
    (heq : r' = x ++ y) : ∃ z, r = x ++ z := by
  induction x generalizing r r' with
  | nil => exact ⟨r, rfl⟩
  | cons c x ih =>
    obtain ⟨hc, hrest⟩ := forall_mem_cons.1 hx
    cases h with
    | here hg =>
      obtain ⟨rfl, -⟩ := cons.inj heq
      exact absurd hg hc
    | cons d h =>
      obtain ⟨rfl, htail⟩ := cons.inj heq
      obtain ⟨z, rfl⟩ := ih h hrest htail
      exact ⟨z, rfl⟩

/-- A function that takes the front of its input, and takes the same if the rest changes from a
separator on. -/
structure Scanner (sep : α → Prop) (f : List α → β × List α) : Prop where
  suffix : ∀ s, (f s).2 <:+ s
  steady : ∀ {t r r' b}, UpTo sep r r' → f (t ++ r) = (b, r) → f (t ++ r') = (b, r')

namespace Scanner

variable {f g : List α → β × List α}

theorem stay (b : β) : Scanner sep fun s => (b, s) where
  suffix _ := suffix_rfl
  steady {t r r' b'} _ h := by
    obtain ⟨rfl, hrest⟩ := Prod.mk.inj h
    obtain rfl : t = [] := append_left_eq_self.1 hrest
    rfl

theorem munch (hsep : ∀ c, sep c → p c = false) :
    Scanner sep fun s => (s.takeWhile p, s.dropWhile p) where
  suffix _ := dropWhile_suffix p
  steady {t r r' b} hu h := by
    obtain ⟨htake, hdrop⟩ := Prod.mk.inj h
    obtain rfl := (takeWhile_eq hdrop).symm.trans htake
    obtain ⟨hall, hhead⟩ := dropWhile_eq_iff.1 hdrop
    have hdrop' : (t ++ r').dropWhile p = r' := by
      refine dropWhile_eq_iff.2 ⟨hall, fun c hc => ?_⟩
      rcases hu.head hc with hg | hc
      · exact hsep c hg
      · exact hhead c hc
    exact Prod.ext (takeWhile_eq hdrop') hdrop'

theorem ahead [DecidableEq α] {d : α} (hd : ¬ sep d) (hf : Scanner sep f) (hg : Scanner sep g) :
    Scanner sep fun s => if s.head? = some d then f s.tail else g s where
  suffix s := by
    split_ifs
    · exact (hf.suffix _).trans (tail_suffix s)
    · exact hg.suffix s
  steady {t r r' b} hu h := by
    cases t with
    | nil =>
      simp only [nil_append] at h ⊢
      split_ifs at h with hhead
      · -- the item was taken, so less than `r` is left
        obtain ⟨r, rfl⟩ := head?_eq_some_iff.1 hhead
        have hlen := (hf.suffix r).length_le
        rw [tail_cons] at h
        rw [h] at hlen
        simp at hlen
      · have hhead' : r'.head? ≠ some d := fun h => (hu.head h).elim hd hhead
        rw [if_neg hhead']
        exact hg.steady (t := []) hu h
    | cons c t =>
      have hhead : ∀ r, (c :: t ++ r).head? = some c := fun _ => rfl
      rw [hhead] at h ⊢
      split_ifs at h ⊢
      · exact hf.steady hu h
      · exact hg.steady hu h

theorem seq {h : β → List α → γ × List α} (hf : Scanner sep f) (hh : ∀ b, Scanner sep (h b)) :
    Scanner sep fun s => h (f s).1 (f s).2 where
  suffix s := ((hh _).suffix _).trans (hf.suffix s)
  steady {t r r' b} hu heq := by
    obtain ⟨x, hx⟩ := hf.suffix (t ++ r)
    obtain ⟨y, hy⟩ : r <:+ (f (t ++ r)).2 := by
      have hsuffix := (hh (f (t ++ r)).1).suffix (f (t ++ r)).2
      rwa [heq] at hsuffix
    obtain rfl : x ++ y = t := by
      refine (append_left_inj r).1 ?_
      rw [append_assoc, hy, hx]
    have hfirst : f (x ++ (y ++ r)) = ((f (x ++ y ++ r)).1, y ++ r) := by
      rw [← append_assoc, hy]
    have hfirst := hf.steady (hu.append y) hfirst
    rw [← hy] at heq
    have hsecond := (hh _).steady hu heq
    rw [append_assoc x y r', hfirst]
    exact hsecond

theorem congr {h : List α → β × List α} (hf : Scanner sep f) (heq : ∀ s, h s = f s) :
    Scanner sep h := by
  rwa [funext heq]

end Scanner

end Munch
