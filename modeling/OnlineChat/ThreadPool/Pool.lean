import OnlineChat.Lib.CondVar
import OnlineChat.Lib.Exec

/-!
# ThreadPool

`src/threadpool/ThreadPool.cpp` and `inc/threadpool/ThreadPool.hpp` under every schedule. A step
is what a thread does in one critical section of `mtx`, or outside of them the beginning and the
end of a task. So in every state of a run the mutex is free. A task is the `packaged_task` that
`enqueue` makes; running tasks may call `enqueue` themselves.

The template `enqueue` is taken as it is visibly meant. The header has `taskPtr.get_future()` for a
`taskPtr` that is a `shared_ptr`, which compiles in no instance of the template; the model reads
`taskPtr->get_future()`.
-/

namespace OnlineChat.ThreadPool
open Lib

abbrev TaskId := Nat

/-- Where a worker is. -/
inductive Pc
  /-- At the top of the loop, on its way to the mutex. -/
  | start
  /-- In `cv.wait`. -/
  | blocked
  /-- Out of the queue of `cv` again, on its way back to the mutex. -/
  | woken
  /-- It has the task and is about to call it. -/
  | holding (t : TaskId)
  | running (t : TaskId)
  /-- Returned. -/
  | exited
  deriving DecidableEq

/-- Awake and not executing a task. -/
def Pc.awake : Pc → Bool
  | .start | .woken => true
  | _ => false

/-- The task a worker has in hand. -/
def Pc.task : Pc → Option TaskId
  | .holding t | .running t => some t
  | _ => none

/-- Where the thread that destroys the pool is. -/
inductive Dtor
  | idle
  /-- About to join the worker `k`. -/
  | joining (k : Nat)
  | returned
  deriving DecidableEq

inductive Event
  | pushed (t : TaskId)
  | popped (i : Nat) (t : TaskId)
  | called (i : Nat) (t : TaskId)
  | returned (i : Nat) (t : TaskId)
  deriving DecidableEq

structure Pool where
  quit : Bool
  tasks : List TaskId
  workers : List Pc
  dtor : Dtor
  /-- `errif` has ended the process. -/
  dead : Bool
  /-- What the next `make_shared` returns. -/
  nextTask : TaskId
  /-- What happened to the tasks so far. -/
  trace : List Event
  deriving DecidableEq

inductive Act
  /-- `enqueue`, called by an outside thread or from the task the worker `who` runs; `notify_one`
  wakes the worker `wake`. -/
  | enqueue (who wake : Option Nat)
  /-- The worker `i` gets the mutex. -/
  | loop (i : Nat)
  /-- A spurious wake-up. -/
  | spurious (i : Nat)
  /-- The worker `i` calls its task. -/
  | call (i : Nat)
  /-- Its task is over. -/
  | ret (i : Nat)
  /-- The critical section of the destructor. -/
  | quit
  /-- The next turn of the destructor's loop. -/
  | join
  deriving DecidableEq

namespace Pool

/-- The pool with `n` workers, none of which has run yet. -/
def start (n : Nat) : Pool :=
  { quit := false, tasks := [], workers := List.replicate n .start, dtor := .idle, dead := false,
    nextTask := 0, trace := [] }

variable (s : Pool)

def move (i : Nat) (pc : Pc) : Pool := { s with workers := s.workers.set i pc }

def log (e : Event) : Pool := { s with trace := s.trace ++ [e] }

section
variable (i : Nat) (pc : Pc) (e : Event)

@[simp] theorem move_quit : (s.move i pc).quit = s.quit := rfl
@[simp] theorem move_tasks : (s.move i pc).tasks = s.tasks := rfl
@[simp] theorem move_workers : (s.move i pc).workers = s.workers.set i pc := rfl
@[simp] theorem move_dtor : (s.move i pc).dtor = s.dtor := rfl
@[simp] theorem move_nextTask : (s.move i pc).nextTask = s.nextTask := rfl
@[simp] theorem move_trace : (s.move i pc).trace = s.trace := rfl
@[simp] theorem log_quit : (s.log e).quit = s.quit := rfl
@[simp] theorem log_tasks : (s.log e).tasks = s.tasks := rfl
@[simp] theorem log_workers : (s.log e).workers = s.workers := rfl
@[simp] theorem log_dtor : (s.log e).dtor = s.dtor := rfl
@[simp] theorem log_nextTask : (s.log e).nextTask = s.nextTask := rfl
@[simp] theorem log_trace : (s.log e).trace = s.trace ++ [e] := rfl

end

/-- The constructor's bound on the number of threads. `_thread_num` is an `int`, compared with the
`unsigned` that `hardware_concurrency` returns as an `unsigned`. -/
def threadNum (_thread_num hardware_concurrency : BitVec 32) : BitVec 32 :=
  if _thread_num.sle 0#32 || hardware_concurrency.ult _thread_num then hardware_concurrency
  else _thread_num

/-- The constructor. Its loop counts an `int` up to `thread_num`. -/
def new (_thread_num hardware_concurrency : BitVec 32) : Pool :=
  start (threadNum _thread_num hardware_concurrency).toInt.toNat

/-- `make_shared`, `taskPtr->get_future()` and `tasks.emplace`; `workers` is what `notify_one` has
made of the workers. -/
def push (workers : List Pc) : Pool :=
  let t := s.nextTask
  { s with tasks := s.tasks ++ [t], workers, nextTask := t + 1 }.log (.pushed t)

/-- The critical section of `enqueue`. -/
def enqueue (wake : Option Nat) : Option Pool :=
  if s.quit then some { s with dead := true }
  else (notifyOne .blocked .woken s.workers wake).map s.push

/-- `task = tasks.front(); tasks.pop();` -/
def pop (i : Nat) : Option Pool :=
  match s.tasks with
  | [] => none
  | t :: tasks => some (({ s with tasks }.move i (.holding t)).log (.popped i t))

/-- The critical section of the worker loop. -/
def loop (i : Nat) : Option Pool :=
  if !(s.quit || !s.tasks.isEmpty) then some (s.move i .blocked)
  else if s.quit && s.tasks.isEmpty then some (s.move i .exited)
  else s.pop i

/-- The critical section of the destructor. -/
def shutdown : Pool :=
  { s with quit := true, workers := notifyAll .blocked .woken s.workers, dtor := .joining 0 }

/-- The loop `for(auto &t : workers)` of the destructor. -/
def join (k : Nat) : Option Pool :=
  match s.workers[k]? with
  | none => some { s with dtor := .returned }
  | some .exited => some { s with dtor := .joining (k + 1) }
  | some _ => none

/-- Who may call `enqueue`: the pool is still there, and a worker calls it from its task. -/
def CanEnqueue (who : Option Nat) : Prop :=
  s.dtor ≠ .returned ∧ ∀ i ∈ who, s.workers[i]?.any (fun | .running _ => true | _ => false)

instance (who) : Decidable (s.CanEnqueue who) := inferInstanceAs (Decidable (_ ∧ _))

def step : Act → Option Pool
  | .enqueue who wake => if s.CanEnqueue who then s.enqueue wake else none
  | .loop i => if s.workers[i]?.any Pc.awake then s.loop i else none
  | .spurious i => if s.workers[i]? = some .blocked then some (s.move i .woken) else none
  | .call i =>
    match s.workers[i]? with
    | some (.holding t) => some ((s.move i (.running t)).log (.called i t))
    | _ => none
  | .ret i =>
    match s.workers[i]? with
    | some (.running t) => some ((s.move i .start).log (.returned i t))
    | _ => none
  | .quit => if s.dtor = .idle then some s.shutdown else none
  | .join =>
    match s.dtor with
    | .joining k => s.join k
    | _ => none

/-- A step of a process that is still running. -/
def Step (a : Act) (s' : Pool) : Prop := s.dead = false ∧ s.step a = some s'

def step? (a : Act) : Option Pool := if s.dead then none else s.step a

theorem step_of_step? {s s' : Pool} {a : Act} (h : s.step? a = some s') : s.Step a s' := by
  simpa [step?, Step] using h

/-! ## What a step does -/

inductive Trans (s : Pool) : Act → Pool → Prop
  | push {who wake workers} (hq : s.quit = false) (hd : s.dtor ≠ .returned)
      (hn : notifyOne .blocked .woken s.workers wake = some workers) :
      Trans s (.enqueue who wake) (s.push workers)
  | die {who wake} (hq : s.quit = true) : Trans s (.enqueue who wake) { s with dead := true }
  | block {i pc} (hi : s.workers[i]? = some pc) (ha : pc.awake) (hq : s.quit = false)
      (ht : s.tasks = []) : Trans s (.loop i) (s.move i .blocked)
  | exit {i pc} (hi : s.workers[i]? = some pc) (ha : pc.awake) (hq : s.quit = true)
      (ht : s.tasks = []) : Trans s (.loop i) (s.move i .exited)
  | pop {i pc t tasks} (hi : s.workers[i]? = some pc) (ha : pc.awake)
      (ht : s.tasks = t :: tasks) :
      Trans s (.loop i) (({ s with tasks }.move i (.holding t)).log (.popped i t))
  | wake {i} (hi : s.workers[i]? = some .blocked) : Trans s (.spurious i) (s.move i .woken)
  | call {i t} (hi : s.workers[i]? = some (.holding t)) :
      Trans s (.call i) ((s.move i (.running t)).log (.called i t))
  | ret {i t} (hi : s.workers[i]? = some (.running t)) :
      Trans s (.ret i) ((s.move i .start).log (.returned i t))
  | quit (hd : s.dtor = .idle) : Trans s .quit s.shutdown
  | join {k} (hd : s.dtor = .joining k) (hk : s.workers[k]? = some .exited) :
      Trans s .join { s with dtor := .joining (k + 1) }
  | done {k} (hd : s.dtor = .joining k) (hk : s.workers[k]? = none) :
      Trans s .join { s with dtor := .returned }

section
variable {s s' : Pool} {a : Act}

theorem loop_trans {i : Nat} {pc : Pc} (hi : s.workers[i]? = some pc) (ha : pc.awake)
    (h : s.loop i = some s') : Trans s (.loop i) s' := by
  unfold loop at h
  split at h
  next hw =>
    cases h
    have hw : s.quit = false ∧ s.tasks = [] := by simpa using hw
    exact .block hi ha hw.1 hw.2
  split at h
  next hw =>
    cases h
    have hw : s.quit = true ∧ s.tasks = [] := by simpa using hw
    exact .exit hi ha hw.1 hw.2
  · unfold pop at h
    split at h
    · cases h
    · cases h
      exact .pop hi ha ‹_›

theorem Step.trans (h : s.Step a s') : Trans s a s' := by
  obtain ⟨-, h⟩ := h
  cases a with
  | enqueue who wake =>
    simp only [step, Option.ite_none_right_eq_some] at h
    obtain ⟨hc, h⟩ := h
    unfold enqueue at h
    split at h
    · cases h
      exact .die ‹_›
    next hq =>
      obtain ⟨workers, hn, rfl⟩ := Option.map_eq_some_iff.mp h
      exact .push (Bool.eq_false_iff.mpr hq) hc.1 hn
  | loop i =>
    simp only [step, Option.ite_none_right_eq_some, Option.any_eq_true] at h
    obtain ⟨⟨pc, hi, ha⟩, h⟩ := h
    exact loop_trans hi ha h
  | spurious i =>
    simp only [step, Option.ite_none_right_eq_some, Option.some.injEq] at h
    obtain ⟨hi, rfl⟩ := h
    exact .wake hi
  | call i =>
    simp only [step] at h
    split at h <;> cases h
    exact .call ‹_›
  | ret i =>
    simp only [step] at h
    split at h <;> cases h
    exact .ret ‹_›
  | quit =>
    simp only [step, Option.ite_none_right_eq_some, Option.some.injEq] at h
    obtain ⟨hd, rfl⟩ := h
    exact .quit hd
  | join =>
    simp only [step] at h
    split at h
    next hd =>
      unfold join at h
      split at h <;> cases h
      · exact .done hd ‹_›
      · exact .join hd ‹_›
    · cases h

end

end Pool
end OnlineChat.ThreadPool
