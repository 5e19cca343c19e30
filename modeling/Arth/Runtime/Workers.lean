import Arth.Runtime.Custody

/-!
# Every step of the pool keeps the places

* `Placed.next` — after any step of any thread, every task is in one place again, and what
  has to hold of it there holds.
-/

namespace Arth.Runtime

open List Option Function

namespace Pool

variable {T : Type} [DecidableEq T] {p p' : Pool T} {place : Nat → Place T} {t : T}
  {pc pc₀ : PoolPc} {id : Nat} {k : ConcurrentTask} {stage stage' : Stage} {k' : ConcurrentTask}

omit [DecidableEq T] in
theorem Waits.of_eq {target : Nat} (h : p.Waits id k target)
    (hip : k'.savedIp = k.savedIp) (hon : k'.waitingOn = k.waitingOn) : p.Waits id k' target :=
  ⟨by rw [hip]; exact h.savedIp, by rw [hon]; exact h.waitingOn, h.later, h.exist⟩

omit [DecidableEq T] in
theorem Placed.absent (h : p.Placed place) (hin : (id, .allocated) ∈ (p.threads t).carried) :
    p.tasks id = none := by
  have hat := h.at_carried hin
  cases hk : p.tasks id with
  | none => rfl
  | some k =>
    rw [hk] at hat
    cases hat

omit [DecidableEq T] in
theorem ids_of_carried (hpc : p.threads t = pc₀) (h : pc₀.carried = [(id, stage)]) :
    (p.threads t).ids = [id] := by
  rw [hpc, PoolPc.ids, h]
  rfl

omit [DecidableEq T] in
theorem Placed.only (h : p.Placed place) (hpc : p.threads t = pc₀)
    (hold : pc₀.carried = [(id, stage)]) (hstage : stage ≠ .allocated) :
    ∃ k, p.tasks id = some k ∧ p.At id stage (some k) :=
  h.task (by rw [hpc, hold]; exact mem_singleton_self _) hstage

omit [DecidableEq T] in
theorem Placed.at_only (h : p.Placed place) (hpc : p.threads t = pc₀)
    (hold : pc₀.carried = [(id, stage)]) : p.At id stage (p.tasks id) :=
  h.at_carried (by rw [hpc, hold]; exact mem_singleton_self _)

theorem Placed.look (h : p.Placed place) (hpc : p.threads t = pc₀)
    (hold : pc₀.carried = [(id, stage)]) (hnew : pc.carried = [(id, stage')]) (hstage : p.At id stage' (p.tasks id))
    (hknows : p.Knows pc) : (p.goto t pc).Placed place := by
  refine h.goto ?_ ?_ hknows
  · rw [ids_of_carried hpc hold, PoolPc.ids, hnew]
    rfl
  · intro c hc
    rw [hnew, mem_singleton] at hc
    subst hc
    exact hstage

theorem Placed.idle (h : p.Placed place) (hpc : p.threads t = pc₀) (hold : pc₀.carried = [])
    (hnew : pc.carried = []) (hknows : p.Knows pc) : (p.goto t pc).Placed place := by
  refine h.goto ?_ ?_ hknows
  · rw [hpc, PoolPc.ids, PoolPc.ids, hold, hnew]
  · intro c hc
    rw [hnew] at hc
    cases hc

theorem placed_found (h : p.Placed place) (hpc : p.threads t = .found id) :
    (p.resume t (.found id)).Placed place := by
  obtain ⟨k, hk, hpending⟩ := h.only hpc rfl nofun
  have hstate : k.state = .pending := by
    rcases hpending with hunstarted | ⟨hbegun, _⟩
    · exact hunstarted.state
    · exact hbegun.state
  have hget : p.getState id = some .pending := by
    unfold getState
    rw [hk, map_some, hstate]
  change (p.tryTransition t id _ _ _ _).Placed place
  unfold tryTransition
  rw [if_pos hget]
  refine h.change (ids_of_carried hpc rfl) rfl hk (by rw [hstate]; exact nofun) (fun _ => rfl) ?_
    trivial
  rcases hpending with hunstarted | ⟨hbegun, target, hwaits, hdone⟩
  · exact .inl hunstarted.setState
  · exact .inr ⟨hbegun.setState, target, hwaits.of_eq rfl rfl, hdone⟩

theorem placed_running (h : p.Placed place) (hpc : p.threads t = .running id) :
    (p.resume t (.running id)).Placed place := by
  obtain ⟨k, hk, hrunning⟩ := h.only hpc rfl nofun
  have hip : (p.tasks id).bind (·.savedIp) = k.savedIp := by rw [hk, bind_some]
  change (p.goto t (if ((p.tasks id).bind (·.savedIp)).isSome then _ else _)).Placed place
  rw [hip]
  rcases hrunning with hunstarted | hwoken
  · rw [hunstarted.savedIp, if_neg (by simp)]
    exact h.look hpc rfl rfl (by rw [hk]; exact hunstarted) trivial
  · have hsaved : k.savedIp ≠ none := by
      obtain ⟨_, target, hwaits, _⟩ := hwoken
      exact hwaits.savedIp
    rw [if_pos (isSome_iff_ne_none.2 hsaved)]
    exact h.look hpc rfl rfl (by rw [hk]; exact hwoken) trivial

theorem placed_resuming (h : p.Placed place) (hpc : p.threads t = .resuming id) :
    (p.resume t (.resuming id)).Placed place := by
  obtain ⟨k, hk, hbegun, target, hwaits, hdone⟩ := h.only hpc rfl nofun
  have hon : (p.tasks id).bind (·.waitingOn) = some target := by
    rw [hk, bind_some, hwaits.waitingOn]
  unfold resume
  simp only [hon]
  exact h.look hpc rfl rfl (by rw [hk]; exact ⟨hbegun, hwaits, hdone⟩) trivial

theorem placed_awaiting {target : Nat} (h : p.Placed place)
    (hpc : p.threads t = .awaiting id target) : (p.resume t (.awaiting id target)).Placed place := by
  obtain ⟨k, hk, hbegun, _, k', hk', hwritten⟩ := h.only hpc rfl nofun
  have hget : p.getState target = some .completed := by
    unfold getState
    rw [hk', map_some, hwritten.state]
  unfold resume
  simp only [hget]
  exact h.look hpc rfl rfl (by rw [hk]; exact hbegun) trivial

variable {state : ConcurrentTaskState} {f : ConcurrentTask → ConcurrentTask} {args : List Int64}
    {i : Nat}

theorem begun_same (h : k.Begun state)
    (hstate : k'.state = k.state) (hstarts : k'.starts = k.starts) (hspawns : k'.spawns = k.spawns)
    (hresult : k'.result = k.result) (hresults : k'.results = k.results) : k'.Begun state :=
  ⟨hstate.trans h.state, hstarts.trans h.starts, hspawns.trans_le h.spawns,
    hresult.trans h.result, hresults.trans h.results⟩

theorem placed_begun (h : p.Placed place)
    (hpc : p.threads t = pc₀) (hold : pc₀.carried = [(id, .begun)])
    (hnew : pc.carried = [(id, .begun)]) (hf : ∀ k, (f k).waiters = k.waiters)
    (hbegun : ∀ k : ConcurrentTask, k.Begun .running → (f k).Begun .running)
    (hknows : p.Knows pc) : ((p.modify id f).goto t pc).Placed place := by
  obtain ⟨k, hk, hold'⟩ := h.only hpc hold nofun
  have hnot : k.state ≠ .completed := Eq.trans_ne (ConcurrentTask.Begun.state hold') nofun
  exact h.change (ids_of_carried hpc hold) hnew hk hnot hf (hbegun k hold') hknows

theorem placed_starting (h : p.Placed place) (hpc : p.threads t = .starting id) :
    (p.resume t (.starting id)).Placed place := by
  obtain ⟨k, hk, hunstarted⟩ := h.only hpc rfl nofun
  have hnot : k.state ≠ .completed := Eq.trans_ne (ConcurrentTask.Unstarted.state hunstarted) nofun
  have hbegun : ConcurrentTask.Begun { k with starts := k.starts + 1 } .running :=
    ⟨hunstarted.state, by rw [hunstarted.starts], by rw [hunstarted.spawns]; exact Nat.zero_le _,
      hunstarted.result, hunstarted.results⟩
  have hchange : ∀ pc stage', pc.carried = [(id, stage')] →
      p.At id stage' (some { k with starts := k.starts + 1 }) → p.Knows pc →
      ((p.modify id fun k => { k with starts := k.starts + 1 }).goto t pc).Placed place :=
    fun pc stage' hnew hstage => h.change (ids_of_carried hpc rfl) hnew hk hnot (fun _ => rfl) hstage
  unfold resume
  cases hwork : (p.tasks id).bind fun k => work k.fnId k.args with
  | some result =>
    simp only [hwork]
    exact hchange _ .begun rfl hbegun trivial
  | none =>
    simp only [hwork]
    exact hchange _ .started rfl ⟨hbegun, hunstarted.spawns⟩ trivial

theorem placed_spawning (h : p.Placed place) (hpc : p.threads t = .spawning id) :
    (p.resume t (.spawning id)).Placed (update place p.nextTaskId (.carried t)) := by
  obtain ⟨k, hk, hbegun, hspawns⟩ := h.only hpc rfl nofun
  have hnot : k.state ≠ .completed := Eq.trans_ne hbegun.state nofun
  have hin : id ∈ (p.threads t).ids := by
    rw [ids_of_carried hpc rfl]
    exact mem_singleton_self id
  have hlt : id < p.nextTaskId := lt_next h (by rw [(h.carried t id).1 hin]; exact nofun)
  have hmodify : Grows p (p.modify id fun k => { k with spawns := k.spawns + 1 }) :=
    grows_modify hk hnot
  have hgrows : Grows p (p.resume t (.spawning id)) := ⟨hmodify.exist, hmodify.completed⟩
  refine h.alloc hgrows rfl rfl rfl ?_ (waitersOf_modify fun _ => rfl) ?_ ?_ trivial
  · intro id' hid'
    have hne : id' ≠ id := by
      rintro rfl
      exact hid' hin
    exact tasks_modify_of_ne hne _
  · rw [ids_of_carried hpc rfl]
    rfl
  · intro c hc
    rcases mem_cons.1 hc with rfl | hc
    · have htask : (p.resume t (.spawning id)).tasks id =
          some { k with spawns := k.spawns + 1 } := by
        change (p.modify id _).tasks id = _
        rw [tasks_modify, hk]
        rfl
      rw [htask]
      refine ⟨⟨hbegun.state, hbegun.starts, ?_, hbegun.result, hbegun.results⟩, hlt⟩
      rw [hspawns]
    · cases mem_singleton.1 hc
      have hnone : p.tasks p.nextTaskId = none := by
        have hsuits := h.suits p.nextTaskId
        rwa [h.unborn _ le_rfl] at hsuits
      change (p.modify id _).tasks p.nextTaskId = none
      rw [tasks_modify_of_ne hlt.ne', hnone]

omit [DecidableEq T] in
theorem grows_insert {new : ConcurrentTask} (hnone : p.tasks i = none) :
    Grows p (p.insert i new) where
  exist id hid := by
    by_cases heq : id = i
    · subst heq
      exact absurd hnone hid
    · change update p.tasks i _ id ≠ none
      rwa [update_of_ne heq]
  completed id k hk _ := by
    have hne : id ≠ i := by
      rintro rfl
      rw [hnone] at hk
      cases hk
    change Alike _ (update p.tasks i _ id)
    rw [update_of_ne hne, hk]
    exact alike_refl

omit [DecidableEq T] in
theorem waitersOf_insert {fnId : Int64} (hnone : p.tasks i = none)
    (target : Nat) : (p.insert i (.new fnId args)).waitersOf target = p.waitersOf target := by
  unfold waitersOf
  change (update p.tasks i _ target).elim [] _ = _
  by_cases heq : target = i
  · subst heq
    rw [update_self, hnone]
    rfl
  · rw [update_of_ne heq]

theorem unstarted_new (fnId : Int64) (args : List Int64) :
    (ConcurrentTask.new fnId args).Unstarted .pending := ⟨rfl, rfl, rfl, rfl, rfl, rfl⟩

theorem placed_allocated {fnId : Int64} (h : p.Placed place)
    (hpc : p.threads t = .allocated id fnId args) :
    (p.resume t (.allocated id fnId args)).Placed place := by
  have hold : (p.threads t).carried = [(id, .allocated)] := by rw [hpc]; rfl
  have hnone : p.tasks id = none := h.absent (by rw [hold]; exact mem_singleton_self _)
  have hinsert : Grows p (p.insert id (.new fnId args)) := grows_insert hnone
  have hgrows : Grows p (p.resume t (.allocated id fnId args)) := ⟨hinsert.exist, hinsert.completed⟩
  refine h.keep hgrows rfl (ids_of_carried hpc rfl).symm ?_ rfl rfl (waitersOf_insert hnone) ?_ trivial
  · intro id' hid'
    exact update_of_ne (fun heq => hid' (by rw [heq]; exact mem_singleton_self _)) ..
  · intro c hc
    cases mem_singleton.1 hc
    change Pool.At _ id .pending (update p.tasks id _ id)
    rw [update_self]
    exact .inl (unstarted_new fnId args)

variable {sub : Nat}

theorem placed_inserting (h : p.Placed place)
    (hpc : p.threads t = .inserting id sub) : (p.resume t (.inserting id sub)).Placed place := by
  have hold : (p.threads t).carried = [(id, .spawning sub), (sub, .allocated)] := by rw [hpc]; rfl
  have hnone : p.tasks sub = none :=
    h.absent (by rw [hold]; exact mem_cons_of_mem _ (mem_singleton_self _))
  have hin : (id, Stage.spawning sub) ∈ (p.threads t).carried := by
    rw [hold]
    exact mem_cons_self
  obtain ⟨k, hk, hbegun, hlt⟩ := h.task hin nofun
  have hnew : (p.tasks id).elim (.new 2 [10]) (·.subTask) = k.subTask := by rw [hk]; rfl
  have hinsert : Grows p (p.insert sub k.subTask) := grows_insert hnone
  have hgrows : Grows p ((p.insert sub k.subTask).goto t (.pushing id sub)) :=
    ⟨hinsert.exist, hinsert.completed⟩
  have hids : (PoolPc.pushing id sub).ids = (p.threads t).ids := by rw [hpc]; rfl
  change ((p.insert sub ((p.tasks id).elim _ _)).goto t _).Placed place
  rw [hnew]
  refine h.keep hgrows rfl hids ?_ rfl rfl (waitersOf_insert hnone) ?_ trivial
  · intro id' hid'
    refine update_of_ne (fun heq => hid' ?_) ..
    rw [heq]
    exact mem_cons_of_mem _ (mem_singleton_self _)
  · intro c hc
    rcases mem_cons.1 hc with rfl | hc
    · change Pool.At _ id (.spawned sub) (update p.tasks sub _ id)
      rw [update_of_ne hlt.ne, hk]
      refine ⟨hbegun, hlt, ?_⟩
      change update p.tasks sub _ sub ≠ none
      rw [update_self]
      exact some_ne_none _
    · cases mem_singleton.1 hc
      change Pool.At _ sub .pending (update p.tasks sub _ sub)
      rw [update_self]
      exact .inl (unstarted_new ..)

/-! ## Suspending -/

section

variable (h : p.Placed place)
include h

theorem placed_spawned (hpc : p.threads t = pc₀) (hold : pc₀.carried = [(id, stage)])
    (hnew : pc.carried = [(id, stage')]) (hallocated : stage ≠ .allocated)
    (hrunning : ∀ k, p.At id stage (some k) → k.Begun .running)
    (hf : ∀ k, (f k).waiters = k.waiters)
    (hstage : ∀ k, p.At id stage (some k) → p.At id stage' (some (f k)))
    (hknows : p.Knows pc) : ((p.modify id f).goto t pc).Placed place := by
  obtain ⟨k, hk, hat⟩ := h.only hpc hold hallocated
  have hnot : k.state ≠ .completed := (hrunning k hat).state.trans_ne nofun
  exact h.change (ids_of_carried hpc hold) hnew hk hnot hf (hstage k hat) hknows

theorem placed_savingIp (hpc : p.threads t = .savingIp id sub) :
    (p.resume t (.savingIp id sub)).Placed place := by
  refine placed_spawned h hpc rfl rfl nofun (fun k hat => hat.1) (fun _ => rfl) ?_ trivial
  exact fun k hat =>
    ⟨begun_same hat.1 rfl rfl rfl rfl rfl, hat.2.1, hat.2.2, some_ne_none 0⟩

theorem placed_savingLocals (hpc : p.threads t = .savingLocals id sub) :
    (p.resume t (.savingLocals id sub)).Placed place := by
  refine placed_spawned h hpc rfl rfl nofun (fun k hat => hat.1) (fun _ => rfl) ?_ trivial
  exact fun k hat => ⟨begun_same hat.1 rfl rfl rfl rfl rfl, hat.2⟩

theorem placed_savingTarget (hpc : p.threads t = .savingTarget id sub) :
    (p.resume t (.savingTarget id sub)).Placed place := by
  refine placed_spawned h hpc rfl rfl nofun (fun k hat => hat.1) (fun _ => rfl) ?_ trivial
  exact fun k hat =>
    ⟨begun_same hat.1 rfl rfl rfl rfl rfl, hat.2.2.2, rfl, hat.2.1, hat.2.2.1⟩

theorem placed_checking (hpc : p.threads t = .checking id sub) :
    (p.resume t (.checking id sub)).Placed place := by
  obtain ⟨k, hk, hspawned⟩ := h.only hpc rfl nofun
  change (p.goto t (if p.getState sub = some .completed then _ else _)).Placed place
  split
  · exact h.look hpc rfl rfl (by rw [hk]; exact hspawned.1) trivial
  · exact h.look hpc rfl rfl (by rw [hk]; exact hspawned) trivial

theorem placed_suspending
    (hpc : p.threads t = .suspending id sub) : (p.resume t (.suspending id sub)).Placed place := by
  refine placed_spawned h hpc rfl rfl nofun (fun k hat => hat.1) (fun _ => rfl) ?_ trivial
  exact fun k hat => ⟨hat.1.setState, hat.2.of_eq rfl rfl⟩

end

/-! ## Completing and waking -/

section

variable (h : p.Placed place) {waiters : List Nat}
include h

theorem placed_completing {result : Int64} (hpc : p.threads t = .completing id result) :
    (p.resume t (.completing id result)).Placed place := by
  obtain ⟨k, hk, hbegun⟩ := h.only hpc rfl nofun
  have hnot : k.state ≠ .completed := Eq.trans_ne (ConcurrentTask.Begun.state hbegun) nofun
  refine h.change (ids_of_carried hpc rfl) rfl hk hnot (fun _ => rfl) ?_ trivial
  refine ⟨hbegun.state, hbegun.starts, hbegun.spawns, result, rfl, ?_⟩
  rw [hbegun.results]
  rfl

theorem placed_finishing (hpc : p.threads t = .finishing id) :
    (p.resume t (.finishing id)).Placed place := by
  obtain ⟨k, hk, hwritten⟩ := h.only hpc rfl nofun
  have hnot : k.state ≠ .completed := Eq.trans_ne (ConcurrentTask.Written.state hwritten) nofun
  exact h.change (ids_of_carried hpc rfl) rfl hk hnot (fun _ => rfl) hwritten.setState trivial

theorem placed_waking {waiter : Nat} (hpc : p.threads t = .waking (waiter :: waiters)) :
    p.resume t (.waking (waiter :: waiters)) = p.goto t (.reviving waiter waiters) ∧
      (p.goto t (.reviving waiter waiters)).Placed place := by
  have hin : (waiter, Stage.released) ∈ (p.threads t).carried := by
    rw [hpc]
    exact mem_cons_self
  obtain ⟨k, hk, hreleased⟩ := h.task hin nofun
  have hget : p.getState waiter = some .suspended := by
    unfold getState
    rw [hk, map_some, hreleased.1.state]
  constructor
  · change p.goto t (if p.getState waiter = some .suspended then _ else _) = _
    rw [if_pos hget]
  · refine h.goto ?_ ?_ trivial
    · rw [hpc]
      rfl
    · intro c hc
      have hc' : c ∈ (p.threads t).carried := by
        rw [hpc]
        exact hc
      exact h.at_carried hc'

theorem placed_requeueing (hpc : p.threads t = .requeueing id waiters) :
    (p.resume t (.requeueing id waiters)).Placed (update place id .queued) := by
  have hids : (p.threads t).ids = id :: waiters := by
    rw [hpc, ← ids_waking (id :: waiters)]
    rfl
  have hnodup := h.nodup_ids t
  have hin : (id, Stage.pending) ∈ (p.threads t).carried := by
    rw [hpc]
    exact mem_cons_self
  refine h.push ?_ (h.at_carried hin) ?_ ?_ trivial
  · rw [hids]
    exact mem_cons_self
  · rw [hids] at hnodup ⊢
    rw [ids_waking]
    exact .tail hnodup not_false
  · intro c hc
    have hc' : c ∈ (p.threads t).carried := by
      rw [hpc]
      exact mem_cons_of_mem _ hc
    exact h.at_carried hc'

theorem placed_pushing (hpc : p.threads t = .pushing id sub) :
    (p.resume t (.pushing id sub)).Placed (update place sub .queued) := by
  have hold : (p.threads t).carried = [(id, .spawned sub), (sub, .pending)] := by rw [hpc]; rfl
  have hids : (p.threads t).ids = [id, sub] := by rw [hpc]; rfl
  have hsub : (sub, Stage.pending) ∈ (p.threads t).carried := by
    rw [hold]
    exact mem_cons_of_mem _ (mem_singleton_self _)
  have hid : (id, Stage.spawned sub) ∈ (p.threads t).carried := by
    rw [hold]
    exact mem_cons_self
  obtain ⟨k, hk, hspawned⟩ := h.task hid nofun
  have hlt : id < sub := hspawned.2.1
  refine h.push ?_ (h.at_carried hsub) ?_ ?_ trivial
  · rw [hids]
    exact mem_cons_of_mem _ (mem_singleton_self _)
  · rw [hids]
    change Gains _ [id] sub False
    exact ⟨fun id' hid => by simp [hid], by simp [hlt.ne'], nodup_singleton id⟩
  · intro c hc
    cases mem_singleton.1 hc
    exact h.at_carried hid

theorem placed_submitting (hpc : p.threads t = .submitting id) :
    (p.resume t (.submitting id)).Placed (update place id .queued) := by
  have hold : (p.threads t).carried = [(id, .pending)] := by rw [hpc]; rfl
  have hin : (id, Stage.pending) ∈ (p.threads t).carried := by
    rw [hold]
    exact mem_singleton_self _
  have hids := ids_of_carried hpc rfl
  refine h.push ?_ (h.at_carried hin) ?_ (fun c hc => by cases hc) trivial
  · rw [hids]
    exact mem_singleton_self id
  · rw [hids]
    exact .tail (nodup_singleton id) not_false

end

/-! ## Clients -/

theorem placed_start (h : p.Placed place) {joined : Option (Nat × Option Int64)}
    (hpc : p.threads t = .client joined) (call : PoolCall) :
    ∃ place', (p.start t call).Placed place' := by
  have hids : (p.threads t).ids = [] := by rw [hpc]; rfl
  cases call with
  | spawn fnId args =>
    refine ⟨_, h.alloc (.of_tasks rfl) rfl rfl rfl (fun _ _ => rfl) (fun _ => rfl) ?_ ?_ trivial⟩
    · rw [hids]
      rfl
    · intro c hc
      cases mem_singleton.1 hc
      have hsuits := h.suits p.nextTaskId
      rw [h.unborn _ le_rfl] at hsuits
      change Pool.At _ _ _ (p.tasks p.nextTaskId)
      rw [hsuits]
      rfl
  | join id => exact ⟨place, h.idle hpc rfl rfl trivial⟩
  | shutdown =>
    refine ⟨place, h.keep (.of_tasks rfl) rfl hids.symm (fun _ _ => rfl) rfl rfl (fun _ => rfl)
      (fun c hc => by cases hc) trivial⟩

/-- What holds of every task of the pool. -/
structure Sound (k : ConcurrentTask) : Prop where
  once : k.Unstarted k.state ∨ k.Begun k.state ∨ k.Written k.state
  completed : k.state = .completed → k.Written .completed
  cancelled : k.state ≠ .cancelled

theorem sound_unstarted (h : k.Unstarted state)
    (hcompleted : state ≠ .completed) (hcancelled : state ≠ .cancelled) : Sound k where
  once := .inl (h.state.symm ▸ h)
  completed hstate := absurd (h.state.symm.trans hstate) hcompleted
  cancelled := by
    rw [h.state]
    exact hcancelled

theorem sound_begun (h : k.Begun state)
    (hcompleted : state ≠ .completed) (hcancelled : state ≠ .cancelled) : Sound k where
  once := .inr (.inl (h.state.symm ▸ h))
  completed hstate := absurd (h.state.symm.trans hstate) hcompleted
  cancelled := by
    rw [h.state]
    exact hcancelled

theorem sound_written (h : k.Written state) (hcancelled : state ≠ .cancelled) : Sound k where
  once := .inr (.inr (h.state.symm ▸ h))
  completed hstate := by
    rw [← hstate, h.state]
    exact h
  cancelled := by
    rw [h.state]
    exact hcancelled

omit [DecidableEq T] in
theorem At.sound (h : p.At id stage (some k)) : Sound k := by
  cases stage with
  | allocated | never => cases h
  | pending | running =>
    rcases h with hunstarted | hbegun
    · exact sound_unstarted hunstarted nofun nofun
    · exact sound_begun hbegun.1 nofun nofun
  | unstarted => exact sound_unstarted h nofun nofun
  | begun => exact sound_begun h nofun nofun
  | written | finished => exact sound_written h nofun
  | _ => exact sound_begun h.1 nofun nofun

omit [DecidableEq T] in
theorem Placed.sound (h : p.Placed place) (hk : p.tasks id = some k) : Sound k := by
  have hsuits := h.suits id
  have hat : ∀ stage, p.At id stage (p.tasks id) → Sound k := by
    intro stage hat
    rw [hk] at hat
    exact hat.sound
  cases hplace : place id with
  | unborn =>
    rw [hplace] at hsuits
    cases hk.symm.trans hsuits
  | queued | waiting =>
    rw [hplace] at hsuits
    exact hat _ hsuits
  | carried t =>
    obtain ⟨c, hc, rfl⟩ := mem_map.1 ((h.carried t id).2 hplace)
    exact hat _ (h.at_carried hc)
  | done =>
    rw [hplace] at hsuits
    obtain ⟨k', hk', hwritten⟩ := hsuits
    cases hk.symm.trans hk'
    exact sound_written hwritten nofun

theorem placed_joining (h : p.Placed place) (hpc : p.threads t = .joining id) :
    (p.resume t (.joining id)).Placed place := by
  have hjoined : p.getState id = some .completed → p.Completed id := by
    intro hget
    obtain ⟨k, hk, hstate⟩ := map_eq_some_iff.1 hget
    exact ⟨k, hk, (h.sound hk).completed hstate⟩
  unfold resume
  cases hget : p.getState id with
  | none =>
    simp only [hget]
    exact h.idle hpc rfl rfl trivial
  | some state =>
    cases state with
    | completed =>
      simp only [hget]
      exact h.idle hpc rfl rfl (hjoined hget)
    | _ =>
      simp only [hget]
      exact h.idle hpc rfl rfl trivial

theorem placed_joined (h : p.Placed place) (hpc : p.threads t = .joined id) :
    (p.resume t (.joined id)).Placed place := by
  have hknows := h.knows t
  rw [hpc] at hknows
  obtain ⟨k, hk, hwritten⟩ := hknows
  refine h.idle hpc rfl rfl ⟨k, hk, hwritten, ?_⟩
  rw [hk, bind_some]

theorem placed_resume (h : p.Placed place) (hpc : p.threads t = pc) :
    ∃ place', (p.resume t pc).Placed place' := by
  cases pc with
  | client joined =>
    refine ⟨place, h.idle hpc rfl rfl ?_⟩
    have hknows := h.knows t
    rwa [hpc] at hknows
  | allocated id fnId args => exact ⟨place, placed_allocated h hpc⟩
  | submitting id => exact ⟨_, placed_submitting h hpc⟩
  | joining id => exact ⟨place, placed_joining h hpc⟩
  | joined id => exact ⟨place, placed_joined h hpc⟩
  | looping =>
    refine ⟨place, ?_⟩
    change (p.goto t (if p.shutdown then _ else _)).Placed place
    split
    · exact h.idle hpc rfl rfl trivial
    · exact h.idle hpc rfl rfl trivial
  | stopped => exact ⟨place, h.idle hpc rfl rfl trivial⟩
  | seeking =>
    unfold resume
    cases hinjector : p.injector with
    | nil => exact ⟨place, h.idle hpc rfl rfl trivial⟩
    | cons id injector => exact ⟨_, h.steal (by rw [hpc]; rfl) hinjector⟩
  | found id => exact ⟨place, placed_found h hpc⟩
  | refused | resuspending =>
    obtain ⟨k, _, hnever⟩ := h.only hpc rfl nofun
    cases hnever
  | running id => exact ⟨place, placed_running h hpc⟩
  | resuming id => exact ⟨place, placed_resuming h hpc⟩
  | awaiting id target => exact ⟨place, placed_awaiting h hpc⟩
  | fetching id _ | adding id _ | reading id _ =>
    exact ⟨place, h.look hpc rfl rfl (h.at_only hpc rfl) trivial⟩
  | clearingIp id result | clearingLocals id result | clearingTarget id result =>
    exact ⟨place, placed_begun h hpc rfl rfl (fun _ => rfl)
      (fun k hk => begun_same hk rfl rfl rfl rfl rfl) trivial⟩
  | starting id => exact ⟨place, placed_starting h hpc⟩
  | spawning id => exact ⟨_, placed_spawning h hpc⟩
  | inserting id sub => exact ⟨place, placed_inserting h hpc⟩
  | pushing id sub => exact ⟨_, placed_pushing h hpc⟩
  | checking id sub => exact ⟨place, placed_checking h hpc⟩
  | savingIp id sub => exact ⟨place, placed_savingIp h hpc⟩
  | savingLocals id sub => exact ⟨place, placed_savingLocals h hpc⟩
  | savingTarget id sub => exact ⟨place, placed_savingTarget h hpc⟩
  | suspending id sub => exact ⟨place, placed_suspending h hpc⟩
  | registering id sub => exact ⟨_, h.register hpc⟩
  | completing id result => exact ⟨place, placed_completing h hpc⟩
  | finishing id => exact ⟨place, placed_finishing h hpc⟩
  | taking id => exact ⟨_, h.take hpc⟩
  | waking waiters =>
    cases waiters with
    | nil => exact ⟨place, h.idle hpc rfl rfl trivial⟩
    | cons waiter waiters =>
      obtain ⟨heq, hplaced⟩ := placed_waking h hpc
      exact ⟨place, heq ▸ hplaced⟩
  | reviving waiter waiters => exact ⟨place, h.revive hpc⟩
  | requeueing waiter waiters => exact ⟨_, placed_requeueing h hpc⟩

/-- **Every step keeps the places.** -/
theorem Placed.next {l : T × PoolCall} (h : p.Placed place) (hnext : p.next l = some p') :
    ∃ place', p'.Placed place' := by
  cases hnext
  unfold step
  split
  · exact placed_start h ‹_› l.2
  · exact placed_resume h rfl

omit [DecidableEq T] in
theorem Fresh.placed (h : p.Fresh) : p.Placed fun _ => .unborn := by
  have hcarried : ∀ t, (p.threads t).carried = [] := by
    intro t
    rcases h.threads t with hpc | hpc
    · rw [hpc]
      rfl
    · rw [hpc]
      rfl
  have hids : ∀ t, (p.threads t).ids = [] := by
    intro t
    unfold PoolPc.ids
    rw [hcarried t]
    rfl
  have hwaiters : ∀ target, p.waitersOf target = [] := by
    intro target
    unfold waitersOf
    rw [h.tasks]
    rfl
  refine ⟨fun _ _ => rfl, ?_, ?_, ?_, ?_, ?_, ?_, h.tasks, ?_⟩
  · intro id
    rw [h.injector]
    exact ⟨nofun, nofun⟩
  · rw [h.injector]
    exact nodup_nil
  · intro t id
    rw [hids]
    exact ⟨nofun, nofun⟩
  · intro t
    rw [hids]
    exact nodup_nil
  · intro target id
    rw [hwaiters]
    exact ⟨nofun, nofun⟩
  · intro target
    rw [hwaiters]
    exact nodup_nil
  · intro t
    rcases h.threads t with hpc | hpc
    · rw [hpc]
      trivial
    · rw [hpc]
      trivial

end Pool

end Arth.Runtime
