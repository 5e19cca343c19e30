import Arth.Lib.Runs

/-!
# The threaded executor

* `MTTaskInfo` — a task; `Executor` — the tasks, their queues and waiters, and the threads.
* `ExecPc` — where a thread is inside an operation of the executor.
* `Executor.next` — one thread takes one atomic step: one lock-protected section, one atomic
  operation, or one operation of a queue.

A worker that has no task looks for one. While it runs the callback of a task it may call the
operations of the executor like any other thread; it holds the lock of the callback all the
time. The lists of channels and of network operations and the timers only lead to calls of
`wake_task`, which any thread may make at any time.
-/

namespace Arth.Runtime

/-- An `i64`; the numbers that `spawn` gives out start with 1. -/
abbrev Handle := ℤ

inductive MTBlockReason where
  | awaitingTask (target : Handle)
  | awaitingChannelRecv (chan : Handle)
  | awaitingChannelSend (chan : Handle)
  | awaitingTimer (deadline : ℕ)
  | awaitingNetOp (op : Handle)
  deriving DecidableEq

inductive MTTaskState where
  | pending
  | running (threadId : ℕ)
  | completed (result : Int64)
  | cancelled
  | panicked (message : String)
  | blocked (reason : MTBlockReason)
  deriving DecidableEq

namespace MTTaskState

def isCompleted : MTTaskState → Bool
  | completed _ | cancelled | panicked _ => true
  | _ => false

def isBlocked : MTTaskState → Bool
  | blocked _ => true
  | _ => false

end MTTaskState

structure TaskMarkers where
  isSendable : Bool
  isShareable : Bool
  originThread : ℕ
  deriving DecidableEq

/-- A task. The code does not keep the last field: some wake has made the task pending. -/
structure MTTaskInfo where
  fnId : Int64
  args : List Int64
  state : MTTaskState
  markers : TaskMarkers
  parentTask : Option Handle
  spawnFunction : Option String
  woken : Bool
  deriving DecidableEq

def MTTaskInfo.withParent (fnId : Int64) (markers : TaskMarkers) (parentTask : Option Handle)
    (spawnFunction : Option String) : MTTaskInfo where
  fnId := fnId
  args := []
  state := .pending
  markers := markers
  parentTask := parentTask
  spawnFunction := spawnFunction
  woken := false

/-- A task in a queue. -/
structure ScheduledTask where
  handle : Handle
  threadAffine : Bool
  affineThread : ℕ
  deriving DecidableEq

def MTTaskInfo.scheduled (k : MTTaskInfo) (handle : Handle) : ScheduledTask where
  handle := handle
  threadAffine := !k.markers.isSendable
  affineThread := k.markers.originThread

/-- Where a thread is. -/
inductive ExecPc where
  /-- Between two operations; a worker without a task is at the start of its loop. -/
  | idle
  /-- `spawn` has a handle. -/
  | allocated (handle : Handle) (task : MTTaskInfo)
  /-- `start` has found the task pending. -/
  | enqueueing (task : ScheduledTask)
  /-- `block_task` has set the state. -/
  | registering (handle : Handle) (reason : MTBlockReason)
  /-- The task has ended; its waiters are to be taken, then woken one after another. -/
  | taking (handle : Handle)
  | waking (waiters : List Handle)
  | requeueing (task : ScheduledTask) (waiters : List Handle)
  /-- A worker has nothing in its own queue, has found a task, has marked it as running. -/
  | stealing
  | found (handle : Handle)
  | entering (handle : Handle)
  /-- The callback has returned; the task has been seen neither ended nor blocked. -/
  | checking (handle : Handle) (result : Int64)
  | completing (handle : Handle) (result : Int64)
  deriving DecidableEq

inductive ExecCall where
  | registerCallback
  | spawn (fnId : Int64) (markers : TaskMarkers) (spawnFunction : Option String)
  | pushArg (handle : Handle) (arg : Int64)
  | start (handle : Handle)
  | blockTask (handle : Handle) (reason : MTBlockReason)
  | wakeTask (handle : Handle)
  | completeTask (handle : Handle) (result : Int64)
  | cancelTask (handle : Handle)
  | panicTask (handle : Handle) (message : String)
  deriving DecidableEq

/-- What a thread does next: call an operation, return from the callback, or go on. -/
inductive ExecAct where
  | call (c : ExecCall)
  | ret (result : Int64)
  | resume
  deriving DecidableEq

/-- The executor and its threads. `worker` gives the index of a worker, `current` the task
whose callback a thread is in. -/
structure Executor (T : Type) where
  numWorkers : ℕ
  injector : List ScheduledTask
  threadLocalQueues : ℕ → List Handle
  tasks : Handle → Option MTTaskInfo
  taskWaiters : Handle → List Handle
  nextHandle : Handle
  hasCallback : Bool
  callbackLock : Option T
  worker : T → Option ℕ
  current : T → Option Handle
  threads : T → ExecPc

namespace Executor

variable {T : Type} [DecidableEq T] (x : Executor T) (t : T)

/-! ## Primitive changes -/

def goto (pc : ExecPc) : Executor T := { x with threads := Function.update x.threads t pc }

def modify (handle : Handle) (f : MTTaskInfo → MTTaskInfo) : Executor T :=
  { x with tasks := Function.update x.tasks handle ((x.tasks handle).map f) }

def setState (handle : Handle) (state : MTTaskState) : Executor T :=
  x.modify handle ({ · with state })

def state (handle : Handle) : Option MTTaskState := (x.tasks handle).map (·.state)

/-- Tasks that run on one thread only wait in the queue of a worker, the others in the
injector. -/
def push (task : ScheduledTask) : Executor T :=
  if task.threadAffine ∧ 0 < task.affineThread then
    { x with
      threadLocalQueues :=
        let idx := (task.affineThread - 1) % x.numWorkers
        Function.update x.threadLocalQueues idx (x.threadLocalQueues idx ++ [task.handle]) }
  else { x with injector := x.injector ++ [task] }

/-- `wake_task`, up to the queue; `waiters` are the tasks to wake after it. -/
def wake (handle : Handle) (waiters : List Handle) : Executor T :=
  match x.tasks handle with
  | some k =>
    if k.state.isBlocked then
      (x.modify handle fun k => { k with state := .pending, woken := true }).goto t
        (.requeueing (k.scheduled handle) waiters)
    else x.goto t (.waking waiters)
  | none => x.goto t (.waking waiters)

/-- The first step of an operation. -/
def begin : ExecCall → Option (Executor T)
  | .registerCallback =>
    if x.callbackLock = none then some { x with hasCallback := true } else none
  | .spawn fnId markers spawnFunction =>
    some ({ x with nextHandle := x.nextHandle + 1 }.goto t
      (.allocated x.nextHandle (.withParent fnId markers (x.current t) spawnFunction)))
  | .pushArg handle arg =>
    some (if x.state handle = some .pending then
      x.modify handle fun k => { k with args := k.args ++ [arg] } else x)
  | .start handle =>
    some (match x.tasks handle with
      | some k => if k.state = .pending then x.goto t (.enqueueing (k.scheduled handle)) else x
      | none => x)
  | .blockTask handle reason =>
    some ((x.setState handle (.blocked reason)).goto t (.registering handle reason))
  | .wakeTask handle => some (x.wake t handle [])
  | .completeTask handle result =>
    some ((x.setState handle (.completed result)).goto t (.taking handle))
  | .cancelTask handle =>
    some (match x.tasks handle with
      | some k =>
        if k.state.isCompleted then x
        else (x.setState handle .cancelled).goto t (.taking handle)
      | none => x)
  | .panicTask handle message =>
    some ((x.setState handle (.panicked message)).goto t (.taking handle))

/-- The loop of a worker, at its own queue. -/
def seek (idx : ℕ) : Executor T :=
  match x.threadLocalQueues idx with
  | handle :: queue =>
    { x with threadLocalQueues := Function.update x.threadLocalQueues idx queue }.goto t
      (.found handle)
  | [] => x.goto t .stealing

/-- The next step inside an operation. -/
def resume : ExecPc → Option (Executor T)
  | .idle =>
    match x.worker t, x.current t with
    | some idx, none => some (x.seek t idx)
    | _, _ => none
  | .allocated handle task =>
    some ({ x with tasks := Function.update x.tasks handle (some task) }.goto t .idle)
  | .enqueueing task => some ((x.push task).goto t .idle)
  | .registering handle reason =>
    match reason with
    | .awaitingTask target =>
      some ({ x with
        taskWaiters :=
          Function.update x.taskWaiters target (x.taskWaiters target ++ [handle]) }.goto t .idle)
    | _ => some (x.goto t .idle)
  | .taking handle =>
    some ({ x with taskWaiters := Function.update x.taskWaiters handle [] }.goto t
      (.waking (x.taskWaiters handle)))
  | .waking [] => some (x.goto t .idle)
  | .waking (handle :: waiters) => some (x.wake t handle waiters)
  | .requeueing task waiters => some ((x.push task).goto t (.waking waiters))
  | .stealing =>
    match x.injector with
    | task :: injector => some ({ x with injector }.goto t (.found task.handle))
    | [] => some (x.goto t .idle)
  | .found handle =>
    if x.state handle = some .pending then
      some ((x.setState handle (.running ((x.worker t).getD 0 + 1))).goto t (.entering handle))
    else some (x.goto t .idle)
  | .entering handle =>
    -- the lock is taken to look whether there is a callback, and kept while it runs
    if x.callbackLock.isSome then none
    else if x.hasCallback then
      some ({ x with
        callbackLock := some t
        current := Function.update x.current t (some handle) }.goto t .idle)
    else some (x.goto t .idle)
  | .checking handle result =>
    some (match x.state handle with
      | some state =>
        if state.isCompleted || state.isBlocked then x.goto t .idle
        else x.goto t (.completing handle result)
      | none => x.goto t .idle)
  | .completing handle result =>
    some ((x.setState handle (.completed result)).goto t (.taking handle))

/-- The callback of a task returns. -/
def leave (result : Int64) : Option (Executor T) :=
  match x.current t with
  | some handle =>
    some ({ x with
      callbackLock := none
      current := Function.update x.current t none }.goto t (.checking handle result))
  | none => none

/-- One step of a thread. A worker that has no task calls nothing. -/
def next (x : Executor T) (l : T × ExecAct) : Option (Executor T) :=
  match x.threads l.1, l.2 with
  | .idle, .call c =>
    if (x.worker l.1).isSome ∧ x.current l.1 = none then none else x.begin l.1 c
  | .idle, .ret result => x.leave l.1 result
  | pc, .resume => x.resume l.1 pc
  | _, _ => none

/-- No tasks and no callback yet; every thread is between two operations. -/
structure Fresh (x : Executor T) : Prop where
  numWorkers : 0 < x.numWorkers
  injector : x.injector = []
  threadLocalQueues : ∀ idx, x.threadLocalQueues idx = []
  tasks : ∀ handle, x.tasks handle = none
  taskWaiters : ∀ handle, x.taskWaiters handle = []
  nextHandle : x.nextHandle = 1
  callbackLock : x.callbackLock = none
  current : ∀ t, x.current t = none
  threads : ∀ t, x.threads t = .idle

end Executor

end Arth.Runtime
