import Arth.Lib.KeyTable

/-!
# Worklists on a graph

Loops that take nodes from a queue. `visit` and `collect` list what is reached from the nodes they
start with; `kahn` lists the nodes with no unlisted predecessor left until there are no more.

* `mem_visit_iff`, `mem_collect_iff` — `visit` and `collect` list exactly the nodes that are
  reached.
* `kahn_ordered` — in the list of `kahn` every node comes after what it depends on.
* `mem_kahn_of_acyclic`, `acyclic_of_mem_kahn` — the list has all nodes just when no node depends
  on itself.
-/

namespace Worklist

open KeyTable Relation List Function

variable {α : Type*} [DecidableEq α]

/-! ## What is reached -/

/-- What was not seen before joins both the seen nodes and the queue. -/
def push (s : List α × List α) (y : α) : List α × List α :=
  if y ∈ s.1 then s else (s.1 ++ [y], s.2 ++ [y])

/-- The loop: the seen nodes, and those of them still to be followed. -/
def visit (next : α → List α) : Nat → List α × List α → List α
  | 0, s => s.1
  | _ + 1, (seen, []) => seen
  | n + 1, (seen, x :: queue) => visit next n ((next x).foldl push (seen, queue))

theorem foldl_push (l seen queue : List α) :
    ∃ new, l.foldl push (seen, queue) = (seen ++ new, queue ++ new) ∧ new.Nodup ∧
      (∀ y ∈ new, y ∈ l ∧ y ∉ seen) ∧ ∀ y ∈ l, y ∈ seen ++ new := by
  induction l generalizing seen queue with
  | nil => exact ⟨[], by simp⟩
  | cons x l ih =>
    by_cases hx : x ∈ seen
    · obtain ⟨new, heq, hnodup, hnew, hall⟩ := ih seen queue
      refine ⟨new, by simpa [push, hx] using heq, hnodup, ?_, ?_⟩
      · intro y hy
        exact ⟨mem_cons_of_mem x (hnew y hy).1, (hnew y hy).2⟩
      · intro y hy
        rcases mem_cons.1 hy with rfl | hy
        · exact mem_append_left _ hx
        · exact hall y hy
    · obtain ⟨new, heq, hnodup, hnew, hall⟩ := ih (seen ++ [x]) (queue ++ [x])
      refine ⟨x :: new, by simpa [push, hx] using heq, ?_, ?_, ?_⟩
      · refine nodup_cons.2 ⟨fun hmem => ?_, hnodup⟩
        exact (hnew x hmem).2 (by simp)
      · intro y hy
        rcases mem_cons.1 hy with rfl | hy
        · exact ⟨mem_cons_self, hx⟩
        · have hseen := (hnew y hy).2
          exact ⟨mem_cons_of_mem x (hnew y hy).1, fun h => hseen (mem_append_left _ h)⟩
      · intro y hy
        rcases mem_cons.1 hy with rfl | hy
        · simp
        · simpa using hall y hy

variable {x : α} {n : Nat}

section

variable (next : α → List α)
include next

theorem mem_visit_of_mem (n : Nat) (seen queue : List α)
    (hx : x ∈ seen) : x ∈ visit next n (seen, queue) := by
  induction n generalizing seen queue with
  | zero => exact hx
  | succ n ih =>
    cases queue with
    | nil => exact hx
    | cons y queue =>
      obtain ⟨new, heq, -⟩ := foldl_push (next y) seen queue
      rw [visit, heq]
      exact ih _ _ (mem_append_left _ hx)

theorem reached_of_mem_visit (n : Nat) (seen queue : List α)
    (hqueue : ∀ x ∈ queue, x ∈ seen) (hx : x ∈ visit next n (seen, queue)) :
    ∃ s ∈ seen, ReflTransGen (fun a b => b ∈ next a) s x := by
  induction n generalizing seen queue with
  | zero => exact ⟨x, hx, .refl⟩
  | succ n ih =>
    cases queue with
    | nil => exact ⟨x, hx, .refl⟩
    | cons y queue =>
      obtain ⟨new, heq, -, hnew, -⟩ := foldl_push (next y) seen queue
      rw [visit, heq] at hx
      have hqueue' : ∀ z ∈ queue ++ new, z ∈ seen ++ new := by
        intro z hz
        rcases mem_append.1 hz with hz | hz
        · exact mem_append_left _ (hqueue z (mem_cons_of_mem y hz))
        · exact mem_append_right _ hz
      obtain ⟨s, hs, hreach⟩ := ih _ _ hqueue' hx
      rcases mem_append.1 hs with hs | hs
      · exact ⟨s, hs, hreach⟩
      · exact ⟨y, hqueue y mem_cons_self, .head (hnew s hs).1 hreach⟩

theorem visit_nodup (n : Nat) (seen queue : List α) (h : seen.Nodup) :
    (visit next n (seen, queue)).Nodup := by
  induction n generalizing seen queue with
  | zero => exact h
  | succ n ih =>
    cases queue with
    | nil => exact h
    | cons y queue =>
      obtain ⟨new, heq, hnodup, hnew, -⟩ := foldl_push (next y) seen queue
      rw [visit, heq]
      refine ih _ _ (nodup_append.2 ⟨h, hnodup, ?_⟩)
      rintro x hx z hz rfl
      exact (hnew x hz).2 hx

theorem visit_closed (U : List α) (hU : ∀ x, ∀ y ∈ next x, y ∈ U) (n : Nat)
    (seen queue : List α) (hn : queue.length + (U.filter (· ∉ seen)).length ≤ n)
    (hclosed : ∀ x ∈ seen, x ∉ queue → ∀ y ∈ next x, y ∈ seen) :
    ∀ x ∈ visit next n (seen, queue), ∀ y ∈ next x, y ∈ visit next n (seen, queue) := by
  induction n generalizing seen queue with
  | zero =>
    have hqueue : queue = [] := eq_nil_of_length_eq_zero (by omega)
    intro x hx
    exact hclosed x hx (by simp [hqueue])
  | succ n ih =>
    cases queue with
    | nil =>
      intro x hx
      exact hclosed x hx (by simp)
    | cons z queue =>
      obtain ⟨new, heq, hnodup, hnew, hall⟩ := foldl_push (next z) seen queue
      rw [visit, heq]
      apply ih
      · have hlength : new.length + (U.filter (· ∉ seen ++ new)).length ≤
            (U.filter (· ∉ seen)).length := by
          have hsub : new ⊆ (U.filter (· ∉ seen)).filter (· ∈ new) := by
            intro y hy
            have hy' := hnew y hy
            simp [hy, hy'.2, hU z y hy'.1]
          have hle := (hnodup.subperm hsub).length_le
          have hrest : U.filter (· ∉ seen ++ new) = (U.filter (· ∉ seen)).filter (· ∉ new) := by
            rw [filter_filter]
            apply filter_congr
            intro y _
            simp [Bool.and_comm]
          have hsplit := length_eq_length_filter_add (l := U.filter (· ∉ seen)) (· ∈ new)
          rw [hrest]
          simp only [decide_not] at hsplit hle ⊢
          omega
        simp only [length_append, length_cons] at hn ⊢
        omega
      · intro x hx hxq y hy
        rcases mem_append.1 hx with hx | hx
        · by_cases hxz : x = z
          · exact hall y (hxz ▸ hy)
          · have hxqueue : x ∉ z :: queue := by
              intro hmem
              rcases mem_cons.1 hmem with h | h
              · exact hxz h
              · exact hxq (mem_append_left _ h)
            exact mem_append_left _ (hclosed x hx hxqueue y hy)
        · exact absurd (mem_append_right _ hx) hxq

/-- **The loop collects exactly what is reached**, given enough turns. -/
theorem mem_visit_iff (U start : List α) (hU : ∀ x, ∀ y ∈ next x, y ∈ U)
    (hn : start.length + U.length ≤ n) : x ∈ visit next n (start, start) ↔
      ∃ s ∈ start, ReflTransGen (fun a b => b ∈ next a) s x := by
  constructor
  · exact reached_of_mem_visit next n start start fun _ h => h
  · rintro ⟨s, hs, hreach⟩
    have hfilter : (U.filter (· ∉ start)).length ≤ U.length := length_filter_le _ _
    have hclosed := visit_closed next U hU n start start (by omega) fun y hy hny => absurd hy hny
    induction hreach with
    | refl => exact mem_visit_of_mem next n start start hs
    | tail _ hlast ih => exact hclosed _ ih _ hlast

end

/-- The loop that marks a node as seen when it takes it from the queue. -/
def collect (next : α → List α) : Nat → List α × List α → List α
  | 0, s => s.1
  | _ + 1, (seen, []) => seen
  | n + 1, (seen, x :: queue) =>
    if x ∈ seen then collect next n (seen, queue)
    else
      let seen := seen ++ [x]
      collect next n (seen, queue ++ (next x).filter (· ∉ seen))

/-- What the nodes of `U` that were not seen may still push. -/
def pending (next : α → List α) (U seen : List α) : Nat :=
  ((U.filter (· ∉ seen)).map fun x => (next x).length).sum

section

variable (next : α → List α)
include next

theorem pending_take {U seen : List α} (hx : x ∉ seen) (hU : next x ≠ [] → x ∈ U) :
    (next x).length + pending next U (seen ++ [x]) ≤ pending next U seen := by
  have hrest : U.filter (· ∉ seen ++ [x]) = (U.filter (· ∉ seen)).filter (· ≠ x) := by
    rw [filter_filter]
    refine filter_congr fun y _ => ?_
    by_cases hyx : y = x <;> simp [hyx]
  unfold pending
  rw [hrest]
  by_cases hempty : next x = []
  · rw [hempty, length_nil, zero_add]
    exact (filter_sublist.map _).sum_le_sum fun _ _ => Nat.zero_le _
  · have hmem : x ∈ U.filter (· ∉ seen) := mem_filter.2 ⟨hU hempty, by simpa using hx⟩
    obtain ⟨l₁, l₂, hl⟩ := append_of_mem hmem
    rw [hl]
    have hle : ∀ l : List α, ((l.filter (· ≠ x)).map fun x => (next x).length).sum ≤
        (l.map fun x => (next x).length).sum :=
      fun l => (filter_sublist.map _).sum_le_sum fun _ _ => Nat.zero_le _
    have h₁ := hle l₁
    have h₂ := hle l₂
    simp only [filter_append, filter_cons, map_append, sum_append,
      map_cons, sum_cons, ne_eq, not_true_eq_false, decide_false, Bool.false_eq_true,
      if_false] at h₁ h₂ ⊢
    omega

theorem mem_collect_of_mem (n : Nat) (seen queue : List α)
    (hx : x ∈ seen) : x ∈ collect next n (seen, queue) := by
  induction n generalizing seen queue with
  | zero => exact hx
  | succ n ih =>
    cases queue with
    | nil => exact hx
    | cons y queue =>
      rw [collect]
      split
      · exact ih seen queue hx
      · exact ih _ _ (mem_append_left _ hx)

theorem reached_of_mem_collect (n : Nat) (seen queue : List α)
    (hx : x ∈ collect next n (seen, queue)) :
    x ∈ seen ∨ ∃ s ∈ queue, ReflTransGen (fun a b => b ∈ next a) s x := by
  induction n generalizing seen queue with
  | zero => exact .inl hx
  | succ n ih =>
    cases queue with
    | nil => exact .inl hx
    | cons y queue =>
      rw [collect] at hx
      split at hx
      · refine (ih seen queue hx).imp id ?_
        rintro ⟨s, hs, hreach⟩
        exact ⟨s, mem_cons_of_mem y hs, hreach⟩
      · rcases ih _ _ hx with hx | ⟨s, hs, hreach⟩
        · rcases mem_append.1 hx with hx | hx
          · exact .inl hx
          · exact .inr ⟨y, mem_cons_self, by rw [mem_singleton.1 hx]⟩
        · rcases mem_append.1 hs with hs | hs
          · exact .inr ⟨s, mem_cons_of_mem y hs, hreach⟩
          · exact .inr ⟨y, mem_cons_self, .head (mem_of_mem_filter hs) hreach⟩

theorem collect_closed (U : List α) (hU : ∀ x, next x ≠ [] → x ∈ U) (n : Nat)
    (seen queue : List α) (hn : queue.length + pending next U seen ≤ n)
    (hclosed : ∀ x ∈ seen, ∀ y ∈ next x, y ∈ seen ∨ y ∈ queue) :
    (∀ x ∈ queue, x ∈ collect next n (seen, queue)) ∧
      ∀ x ∈ collect next n (seen, queue), ∀ y ∈ next x, y ∈ collect next n (seen, queue) := by
  induction n generalizing seen queue with
  | zero =>
    have hqueue : queue = [] := eq_nil_of_length_eq_zero (by omega)
    subst hqueue
    exact ⟨fun x hx => absurd hx not_mem_nil,
      fun x hx y hy => (hclosed x hx y hy).resolve_right not_mem_nil⟩
  | succ n ih =>
    cases queue with
    | nil =>
      exact ⟨fun x hx => absurd hx not_mem_nil,
        fun x hx y hy => (hclosed x hx y hy).resolve_right not_mem_nil⟩
    | cons z queue =>
      rw [length_cons] at hn
      rw [collect]
      split_ifs with hz
      · obtain ⟨hqueue, hnext⟩ := ih seen queue (by omega) fun x hx y hy => by
          rcases hclosed x hx y hy with h | h
          · exact .inl h
          · rcases mem_cons.1 h with rfl | h
            · exact .inl hz
            · exact .inr h
        refine ⟨fun x hx => ?_, hnext⟩
        rcases mem_cons.1 hx with rfl | hx
        · exact mem_collect_of_mem next n seen queue hz
        · exact hqueue x hx
      · have hpending := pending_take next hz (hU z)
        have hpush : ((next z).filter (· ∉ seen ++ [z])).length ≤ (next z).length :=
          length_filter_le _ _
        obtain ⟨hqueue, hnext⟩ := ih (seen ++ [z]) (queue ++ (next z).filter (· ∉ seen ++ [z]))
          (by rw [length_append]; omega) fun x hx y hy => by
            by_cases hseen : y ∈ seen ++ [z]
            · exact .inl hseen
            · right
              rcases mem_append.1 hx with hx | hx
              · rcases hclosed x hx y hy with h | h
                · exact absurd (mem_append_left _ h) hseen
                · rcases mem_cons.1 h with rfl | h
                  · exact absurd mem_concat_self hseen
                  · exact mem_append_left _ h
              · rw [mem_singleton.1 hx] at hy
                exact mem_append_right _ (mem_filter.2 ⟨hy, by simpa using hseen⟩)
        refine ⟨fun x hx => ?_, hnext⟩
        rcases mem_cons.1 hx with rfl | hx
        · exact mem_collect_of_mem next n _ _ mem_concat_self
        · exact hqueue x (mem_append_left _ hx)

/-- **The loop collects exactly what its queue leads to**, given enough turns. -/
theorem mem_collect_iff (U start : List α) (hU : ∀ x, next x ≠ [] → x ∈ U)
    (hn : start.length + (U.map fun x => (next x).length).sum ≤ n) :
    x ∈ collect next n ([], start) ↔ ∃ s ∈ start, ReflTransGen (fun a b => b ∈ next a) s x := by
  constructor
  · intro hx
    exact (reached_of_mem_collect next n [] start hx).resolve_left not_mem_nil
  · rintro ⟨s, hs, hreach⟩
    have hfuel : start.length + pending next U [] ≤ n := by simpa [pending] using hn
    obtain ⟨hqueue, hnext⟩ := collect_closed next U hU n [] start hfuel
      fun x hx => absurd hx not_mem_nil
    induction hreach with
    | refl => exact hqueue s hs
    | tail _ hedge ih => exact hnext _ ih _ hedge

end

/-! ## The order of dependencies -/

/-- Whatever stands in the list comes after what it depends on. -/
def Ordered (deps : α → List α) (l : List α) : Prop :=
  ∀ l₁ x l₂, l = l₁ ++ x :: l₂ → ∀ d ∈ deps x, d ∈ l₁

def Acyclic (deps : α → List α) : Prop := ∀ x, ¬ TransGen (fun a b => b ∈ deps a) x x

omit [DecidableEq α] in
theorem Acyclic.subset {deps deps' : α → List α} (h : Acyclic deps)
    (hsub : ∀ x, deps' x ⊆ deps x) : Acyclic deps' := by
  have hpath : ∀ {x y}, TransGen (fun a b => b ∈ deps' a) x y →
      TransGen (fun a b => b ∈ deps a) x y := by
    intro x y hxy
    induction hxy with
    | single hd => exact .single (hsub _ hd)
    | tail _ hd ih => exact ih.tail (hsub _ hd)
  exact fun x hx => h x (hpath hx)

/-- A dependency of `y` has been listed; `y` is queued when it was the last one. -/
def relax (s : Table α Nat × List α) (y : α) : Table α Nat × List α :=
  match s.1.lookup y with
  | some n => (s.1.insert y (n - 1), if n - 1 = 0 then s.2 ++ [y] else s.2)
  | none => s

/-- Kahn's loop: the number of unlisted dependencies of each node, the nodes that have none, and
the list so far. -/
def kahn (dependents : α → List α) : Nat → Table α Nat → List α → List α → List α
  | 0, _, _, result => result
  | _ + 1, _, [], result => result
  | n + 1, degree, x :: queue, result =>
    let s := (dependents x).foldl relax (degree, queue)
    kahn dependents n s.1 s.2 (result ++ [x])

variable {l : List α}

theorem foldl_relax (hl : l.Nodup) (degree : Table α Nat) (queue : List α) :
    (∀ y, (l.foldl relax (degree, queue)).1.lookup y =
      (degree.lookup y).map fun n => if y ∈ l then n - 1 else n) ∧
    (l.foldl relax (degree, queue)).2 =
      queue ++ l.filter fun y => (degree.lookup y).any fun n => n - 1 == 0 := by
  induction l generalizing degree queue with
  | nil => simp
  | cons x l ih =>
    obtain ⟨hx, hl⟩ := nodup_cons.1 hl
    rw [foldl_cons]
    cases hdeg : degree.lookup x with
    | none =>
      have hrelax : relax (degree, queue) x = (degree, queue) := by simp [relax, hdeg]
      rw [hrelax]
      obtain ⟨hlookup, hqueue⟩ := ih hl degree queue
      refine ⟨fun y => ?_, by simpa [hdeg] using hqueue⟩
      rw [hlookup]
      by_cases hy : y = x
      · rw [hy, hdeg]
        rfl
      · simp [hy]
    | some n =>
      have hrelax : relax (degree, queue) x =
          (degree.insert x (n - 1), if n - 1 = 0 then queue ++ [x] else queue) := by
        simp [relax, hdeg]
      rw [hrelax]
      obtain ⟨hlookup, hqueue⟩ := ih hl (degree.insert x (n - 1))
        (if n - 1 = 0 then queue ++ [x] else queue)
      constructor
      · intro y
        rw [hlookup, lookup_insert_eq]
        by_cases hy : y = x
        · subst hy
          simp [hx, hdeg]
        · simp [hy]
      · have hfilter : (l.filter fun y => ((degree.insert x (n - 1)).lookup y).any
            fun n => n - 1 == 0) = l.filter fun y => (degree.lookup y).any fun n => n - 1 == 0 := by
          apply filter_congr
          intro y hy
          have hne : y ≠ x := by
            rintro rfl
            exact hx hy
          rw [AList.lookup_insert_ne hne]
        rw [hqueue, hfilter, filter_cons, hdeg]
        by_cases hn : n - 1 = 0 <;> simp [hn]

variable {x : α}

section

variable {nodes : List α} {deps dependents : α → List α} {degree : Table α Nat}
  {queue result : List α}

/-- Of each node, the list of the nodes that depend on it. -/
def Inverts (nodes : List α) (deps dependents : α → List α) : Prop :=
  ∀ x, (dependents x).Nodup ∧ ∀ y, y ∈ dependents x ↔ y ∈ nodes ∧ x ∈ deps y

theorem inverts_filter {order : List α} (horder : order.Perm nodes) (hnodes : nodes.Nodup) :
    Inverts nodes deps fun x => order.filter (x ∈ deps ·) := by
  intro x
  refine ⟨(horder.nodup_iff.2 hnodes).filter _, fun y => ?_⟩
  simp [horder.mem_iff]

/-- Between two turns of the loop. -/
structure Turn (nodes : List α) (deps : α → List α) (degree : Table α Nat)
    (queue result : List α) : Prop where
  degree : ∀ x ∈ nodes, degree.lookup x = some ((deps x).filter (· ∉ result)).length
  nodup : (result ++ queue).Nodup
  free : ∀ x, x ∈ result ++ queue ↔ x ∈ nodes ∧ ∀ d ∈ deps x, d ∈ result
  ordered : Ordered deps result

omit [DecidableEq α] in
theorem Ordered.concat (h : Ordered deps l) (hx : ∀ d ∈ deps x, d ∈ l) :
    Ordered deps (l ++ [x]) := by
  intro l₁ y l₂ heq
  rcases eq_nil_or_concat l₂ with rfl | ⟨l₃, z, rfl⟩
  · obtain ⟨rfl, hyx⟩ := append_inj' heq rfl
    obtain rfl : x = y := by simpa using hyx
    exact hx
  · have heq : l ++ [x] = (l₁ ++ y :: l₃) ++ [z] := by simpa using heq
    obtain ⟨hl, -⟩ := append_inj' heq rfl
    exact h l₁ y l₃ hl

theorem Turn.next (hsucc : Inverts nodes deps dependents) (hdeps : ∀ x, (deps x).Nodup)
    (h : Turn nodes deps degree (x :: queue) result) :
    let s := (dependents x).foldl relax (degree, queue)
    Turn nodes deps s.1 s.2 (result ++ [x]) := by
  obtain ⟨hdnodup, hmem⟩ := hsucc x
  obtain ⟨hlookup, hqueue⟩ := foldl_relax hdnodup degree queue
  have hnotin : x ∉ result := by
    intro hx
    exact (nodup_append.1 h.nodup).2.2 x hx x (by simp) rfl
  have hfreeX : x ∈ nodes ∧ ∀ d ∈ deps x, d ∈ result := (h.free x).1 (by simp)
  -- What `x` was the last unlisted dependency of is what joins the queue.
  have hlast : ∀ y, x ∈ deps y → ((deps y).filter (· ∉ result)).length - 1 =
      ((deps y).filter (· ∉ result ++ [x])).length := by
    intro y hy
    have hfilter : (deps y).filter (· ∉ result ++ [x]) =
        ((deps y).filter (· ∉ result)).erase x := by
      rw [((hdeps y).filter _).erase_eq_filter, filter_filter]
      apply filter_congr
      intro z _
      by_cases hz : z = x <;> simp [hz]
    have hmem : x ∈ (deps y).filter (· ∉ result) := by simp [hy, hnotin]
    rw [hfilter, length_erase_of_mem hmem]
  have hnew : ∀ y, y ∈ (dependents x).filter (fun y => (degree.lookup y).any fun n => n - 1 == 0) ↔
      (y ∈ nodes ∧ x ∈ deps y) ∧ ∀ d ∈ deps y, d ∈ result ++ [x] := by
    intro y
    rw [mem_filter, hmem y]
    refine and_congr_right fun hy => ?_
    rw [h.degree y hy.1, Option.any_some, beq_iff_eq, hlast y hy.2, length_eq_zero_iff,
      filter_eq_nil_iff]
    refine forall₂_congr fun d _ => ?_
    simp [or_iff_not_imp_left]
  refine ⟨?_, ?_, ?_, h.ordered.concat hfreeX.2⟩
  · intro y hy
    rw [hlookup, h.degree y hy, Option.map_some]
    by_cases hxy : x ∈ deps y
    · rw [if_pos ((hmem y).2 ⟨hy, hxy⟩), hlast y hxy]
    · rw [if_neg fun hy' => hxy ((hmem y).1 hy').2]
      refine congrArg (some ∘ length) (filter_congr fun z hz => ?_)
      have hne : z ≠ x := by
        rintro rfl
        exact hxy hz
      simp [hne]
  · rw [hqueue, ← append_assoc, append_assoc result]
    refine nodup_append.2 ⟨h.nodup, hdnodup.filter _, ?_⟩
    rintro y hy z hz rfl
    have hy' := (h.free y).1 hy
    exact hnotin (hy'.2 x ((hnew y).1 hz).1.2)
  · intro y
    rw [hqueue, ← append_assoc, append_assoc result, mem_append, hnew y]
    constructor
    · rintro (hy | hy)
      · have hy' := (h.free y).1 hy
        exact ⟨hy'.1, fun d hd => mem_append_left _ (hy'.2 d hd)⟩
      · exact ⟨hy.1.1, hy.2⟩
    · rintro ⟨hy, hall⟩
      by_cases hxy : x ∈ deps y
      · exact .inr ⟨⟨hy, hxy⟩, hall⟩
      · refine .inl ((h.free y).2 ⟨hy, fun d hd => ?_⟩)
        rcases mem_append.1 (hall d hd) with hd' | hd'
        · exact hd'
        · exact absurd (mem_singleton.1 hd' ▸ hd) hxy

theorem kahn_turn (hsucc : Inverts nodes deps dependents) (hdeps : ∀ x, (deps x).Nodup) (n : Nat)
    (hn : nodes.length ≤ n + result.length) (h : Turn nodes deps degree queue result) :
    ∃ degree', Turn nodes deps degree' [] (kahn dependents n degree queue result) := by
  induction n generalizing degree queue result with
  | zero =>
    have hsub : (result ++ queue).length ≤ nodes.length :=
      (h.nodup.subperm fun x hx => ((h.free x).1 hx).1).length_le
    rw [length_append] at hsub
    have hqueue : queue = [] := eq_nil_of_length_eq_zero (by omega)
    exact ⟨degree, hqueue ▸ h⟩
  | succ n ih =>
    cases queue with
    | nil => exact ⟨degree, h⟩
    | cons x queue =>
      refine ih ?_ (h.next hsucc hdeps)
      rw [length_append, length_singleton]
      omega

/-- The degrees at the start: of each node, the number of its dependencies. -/
def degrees (nodes : List α) (deps : α → List α) : Table α Nat :=
  tabulate nodes fun x => (deps x).length

theorem turn_start {order order' : List α} (horder : order.Perm nodes) (horder' : order'.Perm nodes)
    (hnodes : nodes.Nodup) :
    Turn nodes deps (degrees order deps) (order'.filter fun x => (deps x).length == 0) [] := by
  refine ⟨?_, ?_, ?_, ?_⟩
  · intro x hx
    rw [degrees, lookup_tabulate, if_pos (horder.mem_iff.2 hx)]
    simp
  · simpa using (horder'.nodup_iff.2 hnodes).filter _
  · intro x
    simp [eq_nil_iff_forall_not_mem, horder'.mem_iff]
  · intro l₁ x l₂ heq
    exact absurd heq (by simp)

/-- The list of all nodes that Kahn's loop can order. -/
def kahnOrder (nodes : List α) (deps : α → List α) : List α :=
  kahn (fun x => nodes.filter (x ∈ deps ·)) nodes.length (degrees nodes deps)
    (nodes.filter fun x => (deps x).length == 0) []

section

variable (hnodes : nodes.Nodup) (hnodup : ∀ x, (deps x).Nodup)

include hnodes hnodup

theorem kahn_end : ∃ degree, Turn nodes deps degree [] (kahnOrder nodes deps) :=
  kahn_turn (inverts_filter (.refl _) hnodes) hnodup _ (by simp)
    (turn_start (.refl _) (.refl _) hnodes)

/-- **In Kahn's order every node comes after what it depends on.** -/
theorem kahn_ordered : Ordered deps (kahnOrder nodes deps) := by
  obtain ⟨degree, hturn⟩ := kahn_end hnodes hnodup
  exact hturn.ordered

theorem kahn_nodup : (kahnOrder nodes deps).Nodup := by
  obtain ⟨degree, hturn⟩ := kahn_end hnodes hnodup
  simpa using hturn.nodup

theorem mem_kahn_iff :
    x ∈ kahnOrder nodes deps ↔ x ∈ nodes ∧ ∀ d ∈ deps x, d ∈ kahnOrder nodes deps := by
  obtain ⟨degree, hturn⟩ := kahn_end hnodes hnodup
  simpa using hturn.free x

omit hnodes hnodup in
theorem mem_of_acyclic (hfree : ∀ x, x ∈ l ↔ x ∈ nodes ∧ ∀ d ∈ deps x, d ∈ l)
    (hdeps : ∀ x ∈ nodes, ∀ d ∈ deps x, d ∈ nodes) (hacyclic : Acyclic deps)
    (hx : x ∈ nodes) : x ∈ l := by
  let R : {x // x ∈ nodes} → {x // x ∈ nodes} → Prop :=
    fun b a => TransGen (fun a b => b ∈ deps a) a.1 b.1
  have hirrefl : Std.Irrefl R := ⟨fun a => hacyclic a.1⟩
  have hwf : WellFounded R := Finite.wellFounded_of_trans_of_irrefl R
  have hall : ∀ y : {x // x ∈ nodes}, y.1 ∈ l := by
    intro y
    induction y using hwf.induction with
    | h y ih =>
      refine (hfree y.1).2 ⟨y.2, fun d hd => ?_⟩
      exact ih ⟨d, hdeps y.1 y.2 d hd⟩ (.single hd)
  exact hall ⟨x, hx⟩

theorem mem_kahn_of_acyclic (hdeps : ∀ x ∈ nodes, ∀ d ∈ deps x, d ∈ nodes)
    (hacyclic : Acyclic deps) (hx : x ∈ nodes) : x ∈ kahnOrder nodes deps :=
  mem_of_acyclic (fun _ => mem_kahn_iff hnodes hnodup) hdeps hacyclic hx

theorem acyclic_of_mem_kahn (hx : x ∈ kahnOrder nodes deps) :
    ¬ TransGen (fun a b => b ∈ deps a) x x := by
  intro hcycle
  have hordered := kahn_ordered hnodes hnodup
  -- What is reached from a node of the list stands before its first occurrence.
  have hbefore : ∀ {y z l₁ l₂}, TransGen (fun a b => b ∈ deps a) y z →
      kahnOrder nodes deps = l₁ ++ y :: l₂ → z ∈ l₁ := by
    intro y z l₁ l₂ hyz
    induction hyz with
    | single hd => exact fun heq => hordered l₁ y l₂ heq _ hd
    | tail _ hd ih =>
      intro heq
      obtain ⟨l₃, l₄, hl₁⟩ := append_of_mem (ih heq)
      have heq' := heq
      rw [hl₁, append_assoc, cons_append] at heq'
      have hmem := hordered l₃ _ _ heq' _ hd
      rw [hl₁]
      exact mem_append_left _ hmem
  obtain ⟨l₁, l₂, heq⟩ := append_of_mem hx
  have hnodup' := kahn_nodup hnodes hnodup
  rw [heq] at hnodup'
  have hmem := hbefore hcycle heq
  exact (nodup_append.1 hnodup').2.2 x hmem x (by simp) rfl

end

end

/-! ## Filling a map along an order -/

section

variable {β : Type*} {deps : α → List α} {l : List α} {r : α → Option β}
  {f : α → (α → Option β) → β}

omit [DecidableEq α] in
theorem Ordered.init (h : Ordered deps (l ++ [x])) : Ordered deps l ∧ ∀ d ∈ deps x, d ∈ l := by
  constructor
  · intro l₁ y l₂ heq
    exact h l₁ y (l₂ ++ [x]) (by simp [heq])
  · exact h l x [] rfl

omit [DecidableEq α] in
theorem Ordered.induction {P : α → Prop} (h : Ordered deps l)
    (step : ∀ x ∈ l, (∀ d ∈ deps x, P d) → P x) : ∀ x ∈ l, P x := by
  induction l using List.reverseRecOn with
  | nil => simp
  | append_singleton l x ih =>
    have hl := ih h.init.1 fun y hy => step y (mem_append_left _ hy)
    intro y hy
    rcases mem_append.1 hy with hy | hy
    · exact hl y hy
    · rw [mem_singleton.1 hy]
      exact step x (by simp) fun d hd => hl d (h.init.2 d hd)

/-- The entries of a list, each computed from those before it. -/
def fill (f : α → (α → Option β) → β) (r : α → Option β) (l : List α) : α → Option β :=
  l.foldl (fun r x => Function.update r x (some (f x r))) r

theorem fill_concat (x : α) : fill f r (l ++ [x]) =
    update (fill f r l) x (some (f x (fill f r l))) := by
  unfold fill
  rw [foldl_append]
  rfl

theorem fill_of_not_mem (hx : x ∉ l) : fill f r l x = r x := by
  induction l using List.reverseRecOn with
  | nil => rfl
  | append_singleton l y ih =>
    simp only [mem_append, mem_singleton, not_or] at hx
    rw [fill_concat, update_of_ne hx.2, ih hx.1]

theorem fill_spec (hl : l.Nodup) (hord : Ordered deps l)
    (hf : ∀ x ∈ l, ∀ r r', (∀ d ∈ deps x, r d = r' d) → f x r = f x r') :
    ∀ x ∈ l, fill f r l x = some (f x (fill f r l)) := by
  induction l using List.reverseRecOn with
  | nil => simp
  | append_singleton l y ih =>
    have hy : y ∉ l := fun hmem => (nodup_append.1 hl).2.2 y hmem y (by simp) rfl
    have hdeps := hord.init.2
    have hbefore := hord.init.1
    -- the entry of `y` is used by none of the others
    have hsame : ∀ z ∈ l ++ [y], f z (fill f r l) = f z (fill f r (l ++ [y])) := by
      intro z hz
      refine hf z hz _ _ fun d hd => ?_
      have hdl : d ∈ l := by
        rcases mem_append.1 hz with hz | hz
        · obtain ⟨l₁, l₂, rfl⟩ := append_of_mem hz
          exact mem_append_left _ (hbefore l₁ z l₂ rfl d hd)
        · exact hdeps d (mem_singleton.1 hz ▸ hd)
      have hne : d ≠ y := fun he => hy (he ▸ hdl)
      rw [fill_concat, update_of_ne hne]
    intro x hx
    rcases mem_append.1 hx with hxl | hxy
    · have hne : x ≠ y := fun he => hy (he ▸ hxl)
      rw [← hsame x hx, fill_concat, update_of_ne hne]
      exact ih (nodup_append.1 hl).1 hbefore (fun z hz => hf z (mem_append_left _ hz)) x hxl
    · obtain rfl := mem_singleton.1 hxy
      rw [← hsame x hx, fill_concat, update_self]

end

end Worklist
