import Mathlib.Logic.Function.Basic
import Mathlib.Order.Basic

/-!
# Escape marks and joins

What the lifetime environment keeps about the escape of a local: the mark, the strategy, and the
loop region it was declared in. An environment is built along a path, whose parts are operations
on one local and joins with other paths.

* `Path.env` — the environment at the end of a path.
* `Path.marks` — the locals some part of a path marks as escaping.
* `escaping_of_marks` — no mark is lost where no join loses one.
* `escape_iff` — when a join, and when a mark, keeps what is known.
-/

namespace Arth.EscapeMarks

/-- A region, by its number. -/
abbrev Region := UInt32

inductive EscapeState where
  | noEscape
  | escapesViaReturn
  | escapesViaField
  | escapesViaClosure
  | escapesViaCall
  | escapesViaProvider
  | mayEscape
  deriving DecidableEq

inductive AllocStrategy where
  | stack
  | region (id : Region)
  | refCounted
  | uniqueOwned
  deriving DecidableEq

structure LocalLifetime where
  escapes : EscapeState
  allocStrategy : AllocStrategy
  declaredInLoopRegion : Option Region
  deriving DecidableEq

abbrev Env := String → Option LocalLifetime

/-- The marks a checker sets. -/
inductive Mark where
  | return | closure | field | provider | call
  deriving DecidableEq

/-- A mark that only counts for a local without one. -/
def markFirst (state : EscapeState) (l : LocalLifetime) : LocalLifetime :=
  if l.escapes = .noEscape then { l with escapes := state, allocStrategy := .refCounted } else l

/-- `mark_escape_*`. -/
def Mark.apply : Mark → LocalLifetime → LocalLifetime
  | .return, l => { l with escapes := .escapesViaReturn, allocStrategy := .uniqueOwned }
  | .closure, l => markFirst .escapesViaClosure l
  | .field, l => markFirst .escapesViaField l
  | .provider, l => { l with escapes := .escapesViaProvider, allocStrategy := .refCounted }
  | .call, l => markFirst .escapesViaCall l

/-- `set_stack_alloc`. -/
def setStackAlloc (l : LocalLifetime) : LocalLifetime :=
  if l.escapes = .noEscape then { l with allocStrategy := .stack } else l

/-- `set_region_alloc`. -/
def setRegionAlloc (region : Region) (l : LocalLifetime) : LocalLifetime :=
  { l with allocStrategy := .region region }

/-- `declare_local`, in the innermost loop region if there is one, and `declare_param`. -/
def declared (loopRegion : Option Region) : LocalLifetime where
  escapes := .noEscape
  allocStrategy := .uniqueOwned
  declaredInLoopRegion := loopRegion

inductive Op where
  | declare (loopRegion : Option Region)
  | mark (m : Mark)
  | setStackAlloc
  | setRegionAlloc (region : Region)
  deriving DecidableEq

/-- What an operation leaves under the name it is about. -/
def Op.apply : Op → Option LocalLifetime → Option LocalLifetime
  | .declare loopRegion, _ => some (declared loopRegion)
  | .mark m, l => l.map m.apply
  | .setStackAlloc, l => l.map EscapeMarks.setStackAlloc
  | .setRegionAlloc region, l => l.map (EscapeMarks.setRegionAlloc region)

/-- `join`: what the first environment knows of a local stays. -/
def join (e other : Env) : Env := fun x => (e x).or (other x)

/-- `finalize_allocation_strategies`, for one local. -/
def finalize (l : LocalLifetime) : AllocStrategy :=
  match l.escapes with
  | .noEscape =>
    match l.declaredInLoopRegion with
    | some loopRegion => .region loopRegion
    | none => .stack
  | .escapesViaReturn => .uniqueOwned
  | .escapesViaClosure | .escapesViaField | .escapesViaProvider | .escapesViaCall
  | .mayEscape => .refCounted

/-- The operations along one path; where it meets another path, that one is joined. -/
inductive Path where
  | start
  | step (p : Path) (x : String) (op : Op)
  | join (p other : Path)

def Path.env : Path → Env
  | .start => fun _ => none
  | .step p x op => Function.update p.env x (op.apply (p.env x))
  | .join p other => EscapeMarks.join p.env other.env

/-- The locals that some part of the path has marked since they were declared. -/
def Path.marks : Path → String → Bool
  | .start, _ => false
  | .step p x op, y =>
    if y = x then
      match op with
      | .declare _ => false
      | .mark _ => (p.env x).isSome
      | .setStackAlloc | .setRegionAlloc _ => p.marks y
    else p.marks y
  | .join p other, y => p.marks y || other.marks y

/-- The local has an escape mark. -/
def Escaping (e : Env) (x : String) : Prop := ∃ l, e x = some l ∧ l.escapes ≠ .noEscape

/-- The local is freed with the stack frame or with a loop region. -/
def Released (e : Env) (x : String) : Prop :=
  ∃ l, e x = some l ∧ (finalize l = .stack ∨ ∃ region, finalize l = .region region)

/-- The join loses a mark: the first path knows the local without one, the second marks it. -/
def Loses (e other : Env) (x : String) : Prop :=
  (∃ l, e x = some l ∧ l.escapes = .noEscape) ∧ Escaping other x

/-- No join of the path loses a mark. -/
def Path.Lossless : Path → Prop
  | .start => True
  | .step p _ _ => p.Lossless
  | .join p other => p.Lossless ∧ other.Lossless ∧ ∀ x, ¬ Loses p.env other.env x

/-- How much a mark asks for: nothing, one owner that is handed over, or a count of the owners. -/
def EscapeState.weight : EscapeState → Nat
  | .noEscape => 0
  | .escapesViaReturn => 1
  | .escapesViaField | .escapesViaClosure | .escapesViaCall | .escapesViaProvider
  | .mayEscape => 2

/-! ## What each operation keeps -/

theorem escaping_iff_not_released {l : LocalLifetime} : l.escapes ≠ .noEscape ↔
      ¬ (finalize l = .stack ∨ ∃ region, finalize l = .region region) := by
  obtain ⟨escapes, s, loopRegion⟩ := l
  cases escapes <;> cases loopRegion <;> simp [finalize]

/-- **What escapes is not released**, and nothing else is kept. -/
theorem released_iff {e : Env} {x : String} : Released e x ↔ (e x).isSome ∧ ¬ Escaping e x := by
  constructor
  · rintro ⟨l, hl, hfin⟩
    refine ⟨by simp [hl], fun ⟨l', hl', hescapes⟩ => ?_⟩
    obtain rfl : l = l' := by simpa [hl] using hl'
    exact escaping_iff_not_released.1 hescapes hfin
  · rintro ⟨hsome, hnot⟩
    obtain ⟨l, hl⟩ := Option.isSome_iff_exists.1 hsome
    refine ⟨l, hl, ?_⟩
    by_contra hfin
    exact hnot ⟨l, hl, escaping_iff_not_released.2 hfin⟩

theorem apply_escapes (m : Mark) (l : LocalLifetime) : (m.apply l).escapes ≠ .noEscape := by
  have hfirst : ∀ state ≠ EscapeState.noEscape, (markFirst state l).escapes ≠ .noEscape := by
    intro state hstate
    unfold markFirst
    split
    · exact hstate
    · assumption
  cases m with
  | «return» | provider => simp [Mark.apply]
  | closure | field | call => exact hfirst _ (by decide)

theorem weight_apply (m : Mark) (l : LocalLifetime) :
    l.escapes.weight ≤ (m.apply l).escapes.weight ↔ ¬ (m = .return ∧ 2 ≤ l.escapes.weight) := by
  obtain ⟨escapes, s, loopRegion⟩ := l
  cases m <;> cases escapes <;> simp [Mark.apply, markFirst, EscapeState.weight]

theorem setStackAlloc_escapes (l : LocalLifetime) : (setStackAlloc l).escapes = l.escapes := by
  unfold setStackAlloc
  split <;> rfl

theorem escaping_join (e other : Env) (x : String) :
    Escaping (join e other) x ↔ Escaping e x ∨ (e x = none ∧ Escaping other x) := by
  cases h : e x with
  | none | some => simp [Escaping, join, h]

theorem escaping_join_iff (e other : Env) (x : String) :
    (Escaping e x ∨ Escaping other x → Escaping (join e other) x) ↔ ¬ Loses e other x := by
  rw [escaping_join]
  constructor
  · rintro h ⟨⟨l, hl, hnone⟩, hother⟩
    rcases h (.inr hother) with ⟨l', hl', hescapes⟩ | ⟨hnone', -⟩
    · obtain rfl : l = l' := by simpa [hl] using hl'
      exact hescapes hnone
    · simp [hl] at hnone'
  · rintro h (he | hother)
    · exact .inl he
    · cases hl : e x with
      | none => exact .inr ⟨rfl, hother⟩
      | some l =>
        refine .inl ⟨l, hl, fun hnone => h ⟨⟨l, hl, hnone⟩, hother⟩⟩

/-- **No mark is lost** on a path whose joins lose none. -/
theorem escaping_of_marks {p : Path} (hp : p.Lossless) {y : String} (h : p.marks y = true) :
    Escaping p.env y := by
  induction p generalizing y with
  | start => simp [Path.marks] at h
  | step p x op ih =>
    by_cases hy : y = x
    · subst hy
      cases op with
      | declare loopRegion => simp [Path.marks] at h
      | mark m =>
        obtain ⟨l, hl⟩ := Option.isSome_iff_exists.1 (by simpa [Path.marks] using h)
        exact ⟨m.apply l, by simp [Path.env, Op.apply, hl], apply_escapes m l⟩
      | setStackAlloc =>
        obtain ⟨l, hl, hescapes⟩ := ih hp (by simpa [Path.marks] using h)
        exact ⟨setStackAlloc l, by simp [Path.env, Op.apply, hl], by
          rwa [setStackAlloc_escapes]⟩
      | setRegionAlloc region =>
        obtain ⟨l, hl, hescapes⟩ := ih hp (by simpa [Path.marks] using h)
        exact ⟨setRegionAlloc region l, by simp [Path.env, Op.apply, hl], hescapes⟩
    · obtain ⟨l, hl, hescapes⟩ := ih hp (by simpa [Path.marks, hy] using h)
      exact ⟨l, by simp [Path.env, Function.update_of_ne hy, hl], hescapes⟩
  | join p other ihp ihother =>
    obtain ⟨hp, hother, hloses⟩ := hp
    refine (escaping_join_iff _ _ _).2 (hloses y) ?_
    rcases Bool.or_eq_true _ _ ▸ h with h | h
    · exact .inl (ihp hp h)
    · exact .inr (ihother hother h)

theorem join_comm_iff (e other : Env) : join e other = join other e ↔
      ∀ x l l', e x = some l → other x = some l' → l = l' := by
  constructor
  · intro h x l l' hl hl'
    have hx := congrFun h x
    simpa [join, hl, hl'] using hx
  · intro h
    funext x
    cases hl : e x with
    | none => simp [join, hl]
    | some l =>
      cases hl' : other x with
      | none => simp [join, hl, hl']
      | some l' => simp [join, hl, hl', h x l l' hl hl']

/-- The local `x` is declared, and the second of two branches captures it in a closure. -/
def declaredOnly : Path := .step .start "x" (.declare none)

def captured : Path := .step declaredOnly "x" (.mark .closure)

theorem captured_released :
    Escaping captured.env "x" ∧ Released (Path.join declaredOnly captured).env "x" := by
  constructor
  · exact ⟨⟨.escapesViaClosure, .refCounted, none⟩, by decide, by decide⟩
  · exact ⟨⟨.noEscape, .uniqueOwned, none⟩, by decide, .inl rfl⟩

end Arth.EscapeMarks
