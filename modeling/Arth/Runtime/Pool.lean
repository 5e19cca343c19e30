import Arth.Lib.Runs

/-!
# The work-stealing pool

* `ConcurrentTask` — a task of the pool; `Pool` — the tasks, the queue and the threads.
* `PoolPc` — where a worker or a client of the pool is.
* `Pool.step` — one thread takes one atomic step: one lock-protected section, one atomic
  operation, or one operation of the queue library. Every interleaving is a sequence of such
  steps.

Nothing pushes to the local queues of the workers, so a worker finds work in the global
queue only. The map of tasks never loses one; a look-up in it is one step with the read that
follows it.
-/

namespace Arth.Runtime

inductive ConcurrentTaskState where
  | pending
  | running
  | completed
  | cancelled
  | suspended
  deriving DecidableEq

/-- A task, known by its number. The code does not keep the last three fields: how often the
body of the task was started, how often it spawned a sub-task, and the results that were
written for it. -/
structure ConcurrentTask where
  fnId : Int64
  args : List Int64
  state : ConcurrentTaskState
  result : Option Int64
  savedIp : Option Nat
  savedLocals : Option (List Int64)
  waiters : List Nat
  waitingOn : Option Nat
  starts : Nat
  spawns : Nat
  results : List Int64
  deriving DecidableEq

namespace ConcurrentTask

def new (fnId : Int64) (args : List Int64) : ConcurrentTask where
  fnId := fnId
  args := args
  state := .pending
  result := none
  savedIp := none
  savedLocals := none
  waiters := []
  waitingOn := none
  starts := 0
  spawns := 0
  results := []

end ConcurrentTask

/-- Work type 1: `sum = (sum + i) * 31` for the numbers below the given one. -/
def computeIterations : Nat → UInt64
  | 0 => 0
  | n + 1 => (computeIterations n + UInt64.ofNat n) * 31

def computeFibonacci : Nat → UInt64
  | 0 => 0
  | 1 => 1
  | n + 2 => computeFibonacci (n + 1) + computeFibonacci n

/-- The result of a body that ends at once; none if it spawns a task and awaits it. -/
def work (fnId : Int64) (args : List Int64) : Option Int64 :=
  if args = [] then some fnId
  else if fnId = 1 then some (computeIterations (args.head?.getD 1000).toUInt64.toNat).toInt64
  else if fnId = 2 then some (computeFibonacci (args.head?.getD 10).toUInt64.toNat).toInt64
  else if fnId = 3 then none
  else some fnId

namespace ConcurrentTask

variable (k : ConcurrentTask)

/-- The sub-task that a spawn-and-await spawns. -/
def subTask : ConcurrentTask := .new (k.args.head?.getD 2) [k.args[1]?.getD 10]

/-- The local of a spawn-and-await. -/
def localAccumulator : Int64 := k.args[2]?.getD 100

end ConcurrentTask

/-! ## Threads -/

/-- Where a thread is. A client is between two calls, with the task it last joined and the
result it got; the other threads of a pool are its workers. -/
inductive PoolPc where
  | client (joined : Option (Nat × Option Int64))
  /-- `spawn` has a number for its task, and then the task in the map. -/
  | allocated (id : Nat) (fnId : Int64) (args : List Int64)
  | submitting (id : Nat)
  /-- The loop of `join`; it found the task completed. -/
  | joining (id : Nat)
  | joined (id : Nat)
  /-- The loop of a worker: is there a shutdown, is there work. -/
  | looping
  | stopped
  | seeking
  /-- In front of the two transitions to running. -/
  | found (id : Nat)
  | refused (id : Nat)
  /-- `execute_concurrent_task`: is there saved state, what does the task wait for, is that
  task complete. -/
  | running (id : Nat)
  | resuming (id : Nat)
  | awaiting (id target : Nat)
  | resuspending (id : Nat)
  /-- It is: its result, the saved locals, and clearing what was saved. -/
  | fetching (id target : Nat)
  | adding (id : Nat) (targetResult : Int64)
  | clearingIp (id : Nat) (result : Int64)
  | clearingLocals (id : Nat) (result : Int64)
  | clearingTarget (id : Nat) (result : Int64)
  /-- The body of the task; a spawn-and-await gets a number for its sub-task, submits it, and
  looks whether it is complete. -/
  | starting (id : Nat)
  | spawning (id : Nat)
  | inserting (id sub : Nat)
  | pushing (id sub : Nat)
  | checking (id sub : Nat)
  | reading (id sub : Nat)
  /-- `suspend`, and registering as a waiter of the sub-task. -/
  | savingIp (id sub : Nat)
  | savingLocals (id sub : Nat)
  | savingTarget (id sub : Nat)
  | suspending (id sub : Nat)
  | registering (id sub : Nat)
  /-- `complete`, then `wake_waiters`. -/
  | completing (id : Nat) (result : Int64)
  | finishing (id : Nat)
  | taking (id : Nat)
  | waking (waiters : List Nat)
  | reviving (waiter : Nat) (waiters : List Nat)
  | requeueing (waiter : Nat) (waiters : List Nat)
  deriving DecidableEq

/-- What a client may call. -/
inductive PoolCall where
  | spawn (fnId : Int64) (args : List Int64)
  | join (id : Nat)
  | shutdown

/-- A pool and its threads. -/
structure Pool (T : Type) where
  injector : List Nat
  tasks : Nat → Option ConcurrentTask
  nextTaskId : Nat
  shutdown : Bool
  threads : T → PoolPc

namespace Pool

variable {T : Type} [DecidableEq T] (p : Pool T) (t : T)

def goto (pc : PoolPc) : Pool T := { p with threads := Function.update p.threads t pc }

def modify (id : Nat) (f : ConcurrentTask → ConcurrentTask) : Pool T :=
  { p with tasks := Function.update p.tasks id ((p.tasks id).map f) }

def insert (id : Nat) (k : ConcurrentTask) : Pool T :=
  { p with tasks := Function.update p.tasks id (some k) }

def push (id : Nat) : Pool T := { p with injector := p.injector ++ [id] }

def setState (id : Nat) (state : ConcurrentTaskState) : Pool T := p.modify id ({ · with state })

def getState (id : Nat) : Option ConcurrentTaskState := (p.tasks id).map (·.state)

def allocTaskId : Pool T := { p with nextTaskId := p.nextTaskId + 1 }

/-- The first step of a call. -/
def start : PoolCall → Pool T
  | .spawn fnId args => p.allocTaskId.goto t (.allocated p.nextTaskId fnId args)
  | .join id => p.goto t (.joining id)
  | .shutdown => { p with shutdown := true }.goto t (.client none)

/-- `try_transition`. -/
def tryTransition (id : Nat) (expected new : ConcurrentTaskState) (yes no : PoolPc) : Pool T :=
  if p.getState id = some expected then (p.setState id new).goto t yes else p.goto t no

/-- The next step of a thread. -/
def resume : PoolPc → Pool T
  | .client joined => p.goto t (.client joined)
  | .allocated id fnId args => (p.insert id (.new fnId args)).goto t (.submitting id)
  | .submitting id => (p.push id).goto t (.client none)
  | .joining id =>
    p.goto t
      (match p.getState id with
      | none | some .cancelled => .client none
      | some .completed => .joined id
      | _ => .joining id)
  | .joined id => p.goto t (.client (some (id, (p.tasks id).bind (·.result))))
  | .looping => p.goto t (if p.shutdown then .stopped else .seeking)
  | .stopped => p.goto t .stopped
  | .seeking =>
    match p.injector with
    | id :: injector => { p with injector }.goto t (.found id)
    | [] => p.goto t .looping
  | .found id => p.tryTransition t id .pending .running (.running id) (.refused id)
  | .refused id => p.tryTransition t id .suspended .running (.running id) .looping
  | .running id =>
    p.goto t (if ((p.tasks id).bind (·.savedIp)).isSome then .resuming id else .starting id)
  | .resuming id =>
    p.goto t
      (match (p.tasks id).bind (·.waitingOn) with
      | some target => .awaiting id target
      | none => .starting id)
  | .awaiting id target =>
    p.goto t
      (match p.getState target with
      | some .completed => .fetching id target
      | none | some .cancelled => .clearingIp id (-1)
      | _ => .resuspending id)
  | .resuspending id => (p.setState id .suspended).goto t .looping
  | .fetching id target => p.goto t (.adding id (((p.tasks target).bind (·.result)).getD (-1)))
  | .adding id targetResult =>
    p.goto t
      (.clearingIp id
        (((((p.tasks id).bind (·.savedLocals)).getD []).head?).getD 0 + targetResult))
  | .clearingIp id result =>
    (p.modify id ({ · with savedIp := none })).goto t (.clearingLocals id result)
  | .clearingLocals id result =>
    (p.modify id ({ · with savedLocals := none })).goto t (.clearingTarget id result)
  | .clearingTarget id result =>
    (p.modify id ({ · with waitingOn := none })).goto t (.completing id result)
  | .starting id =>
    (p.modify id fun k => { k with starts := k.starts + 1 }).goto t
      (match (p.tasks id).bind fun k => work k.fnId k.args with
      | some result => .completing id result
      | none => .spawning id)
  | .spawning id =>
    (p.allocTaskId.modify id fun k => { k with spawns := k.spawns + 1 }).goto t
      (.inserting id p.nextTaskId)
  | .inserting id sub =>
    (p.insert sub ((p.tasks id).elim (.new 2 [10]) (·.subTask))).goto t (.pushing id sub)
  | .pushing id sub => (p.push sub).goto t (.checking id sub)
  | .checking id sub =>
    p.goto t (if p.getState sub = some .completed then .reading id sub else .savingIp id sub)
  | .reading id sub =>
    p.goto t
      (.completing id
        (((p.tasks id).elim 100 (·.localAccumulator)) +
          ((p.tasks sub).bind (·.result)).getD (-1)))
  | .savingIp id sub =>
    (p.modify id ({ · with savedIp := some 0 })).goto t (.savingLocals id sub)
  | .savingLocals id sub =>
    (p.modify id fun k => { k with savedLocals := some [k.localAccumulator] }).goto t
      (.savingTarget id sub)
  | .savingTarget id sub =>
    (p.modify id ({ · with waitingOn := some sub })).goto t (.suspending id sub)
  | .suspending id sub => (p.setState id .suspended).goto t (.registering id sub)
  | .registering id sub =>
    (p.modify sub fun k => { k with waiters := k.waiters ++ [id] }).goto t .looping
  | .completing id result =>
    (p.modify id fun k =>
      { k with result := some result, results := k.results ++ [result] }).goto t (.finishing id)
  | .finishing id => (p.setState id .completed).goto t (.taking id)
  | .taking id =>
    (p.modify id ({ · with waiters := [] })).goto t (.waking ((p.tasks id).elim [] (·.waiters)))
  | .waking [] => p.goto t .looping
  | .waking (waiter :: waiters) =>
    p.goto t
      (if p.getState waiter = some .suspended then .reviving waiter waiters else .waking waiters)
  | .reviving waiter waiters =>
    (p.setState waiter .pending).goto t (.requeueing waiter waiters)
  | .requeueing waiter waiters => (p.push waiter).goto t (.waking waiters)

/-- One step of a thread: of the call it makes if it is a client between two calls. -/
def step (call : PoolCall) : Pool T :=
  match p.threads t with
  | .client _ => p.start t call
  | pc => p.resume t pc

def next (p : Pool T) (l : T × PoolCall) : Option (Pool T) := some (p.step l.1 l.2)

/-- A pool without tasks; its workers are at the start of their loop. -/
structure Fresh (p : Pool T) : Prop where
  injector : p.injector = []
  tasks : ∀ id, p.tasks id = none
  threads : ∀ t, p.threads t = .client none ∨ p.threads t = .looping

end Pool

end Arth.Runtime
