import OnlineChat.ThreadPool.Pool

/-!
# The tasks of the pool

What the trace says about one task is always what its `Stage` says, and the stage fits the queue
and the program counters. The order of the queue is the order of the trace.
-/

namespace OnlineChat.ThreadPool
open Lib

def Event.task : Event → TaskId
  | .pushed t | .popped _ t | .called _ t | .returned _ t => t

def Event.worker : Event → Option Nat
  | .pushed _ => none
  | .popped i _ | .called i _ | .returned i _ => some i

def Event.pushed? : Event → Option TaskId
  | .pushed t => some t
  | _ => none

def Event.popped? : Event → Option TaskId
  | .popped _ t => some t
  | _ => none

/-- How far a task has come. -/
inductive Stage
  | unborn
  | queued
  | popped (i : Nat)
  | running (i : Nat)
  | ran (i : Nat)

/-- The whole history of a task at that stage. -/
def Stage.events (t : TaskId) : Stage → List Event
  | .unborn => []
  | .queued => [.pushed t]
  | .popped i => [.pushed t, .popped i t]
  | .running i => [.pushed t, .popped i t, .called i t]
  | .ran i => [.pushed t, .popped i t, .called i t, .returned i t]

/-- The worker that has the task in hand. -/
def Stage.hand (t : TaskId) : Stage → Option (Nat × Pc)
  | .popped i => some (i, .holding t)
  | .running i => some (i, .running t)
  | _ => none

namespace Pool

/-- The tasks in the order in which `enqueue` pushed them. -/
def pushed (s : Pool) : List TaskId := s.trace.filterMap Event.pushed?

/-- The tasks in the order in which they were dequeued. -/
def popped (s : Pool) : List TaskId := s.trace.filterMap Event.popped?

def history (s : Pool) (t : TaskId) : List Event := s.trace.filter (·.task = t)

/-- What the worker `i` has done about the task `t`. -/
def doneBy (s : Pool) (i : Nat) (t : TaskId) : List Event :=
  s.trace.filter fun e => e.worker = some i ∧ e.task = t

/-- The worker `i` has taken `t` from the queue: it is about to run it, it is running it, or it has
run it once. -/
inductive Holds (s : Pool) (i : Nat) (t : TaskId) : Prop
  | toRun (hpc : s.workers[i]? = some (.holding t)) (he : s.doneBy i t = [.popped i t])
  | running (hpc : s.workers[i]? = some (.running t))
      (he : s.doneBy i t = [.popped i t, .called i t])
  | ran (hpc : ∀ pc ∈ s.workers[i]?, pc.task ≠ some t)
      (he : s.doneBy i t = [.popped i t, .called i t, .returned i t])

/-- The task `t` is at the stage `st`. -/
structure At (s : Pool) (t : TaskId) (st : Stage) : Prop where
  history : s.history t = st.events t
  born : t < s.nextTask ↔ st ≠ .unborn
  queue : t ∈ s.tasks ↔ st = .queued
  hand {i : Nat} {pc : Pc} : pc.task = some t →
    (s.workers[i]? = some pc ↔ st.hand t = some (i, pc))

/-- The order and the stages of the tasks, and the state in which workers exit. -/
structure Inv (s : Pool) : Prop where
  fifo : s.pushed = s.popped ++ s.tasks
  nodup : s.tasks.Nodup
  stage : ∃ st, s.At t st
  exited : .exited ∈ s.workers → s.quit = true ∧ s.tasks = []

section
variable {s s' : Pool} {t : TaskId} {st st' : Stage} {i : Nat} {a : Act} {pc b : Pc}

theorem history_log {e : Event} (h : e.task = t) : (s.log e).history t = s.history t ++ [e] := by
  simp [history, h]

theorem history_log_of_ne {e : Event} (h : e.task ≠ t) : (s.log e).history t = s.history t := by
  simp [history, h]

/-- A step about other tasks. -/
theorem At.keep (h : s.At t st) (hh : s'.history t = s.history t)
    (hn : t < s'.nextTask ↔ t < s.nextTask) (hq : t ∈ s'.tasks ↔ t ∈ s.tasks)
    (hw : ∀ (i : Nat) (pc : Pc), pc.task = some t → (s'.workers[i]? = some pc ↔ s.workers[i]? = some pc)) :
    s'.At t st :=
  ⟨hh.trans h.history, hn.trans h.born, hq.trans h.queue,
    fun hpc => (hw _ _ hpc).trans (h.hand hpc)⟩

/-- A worker moves that has not `t` in hand, nor takes it. -/
theorem At.move (h : s.At t st) (hi : s.workers[i]? = some pc) (hpc : pc.task ≠ some t)
    (hb : b.task ≠ some t) : (s.move i b).At t st := by
  refine h.keep rfl .rfl .rfl ?_
  intro j c hc
  apply set_other _ hi
  · rintro rfl
    exact hpc hc
  · rintro rfl
    exact hb hc

/-- An event of another task. -/
theorem At.log {e : Event} (h : s.At t st) (he : e.task ≠ t) : (s.log e).At t st :=
  h.keep (history_log_of_ne he) .rfl .rfl fun _ _ _ => .rfl

/-- The worker that has `t` in hand, or takes it, moves on. -/
theorem At.advance (h : s.At t st) (hi : s.workers[i]? = some pc)
    (hst : ∀ j c, st.hand t = some (j, c) → j = i)
    (hst' : ∀ j c, c.task = some t → (st'.hand t = some (j, c) ↔ j = i ∧ c = b)) :
    ∀ {j c}, c.task = some t → ((s.workers.set i b)[j]? = some c ↔ st'.hand t = some (j, c)) := by
  intro j c hc
  rw [set_eq_some hi, hst' j c hc]
  constructor
  · rintro (hj | ⟨hne, hj⟩)
    · exact hj
    · exact absurd (hst _ _ ((h.hand hc).mp hj)) hne
  · exact .inl

theorem Stage.eq_popped (h : st.hand t = some (i, .holding t)) : st = .popped i := by
  cases st <;> simp_all [Stage.hand]

theorem Stage.eq_running (h : st.hand t = some (i, .running t)) : st = .running i := by
  cases st <;> simp_all [Stage.hand]

theorem notifyOne_hand {wake : Option Nat} {workers : List Pc}
    (hn : notifyOne .blocked .woken s.workers wake = some workers) (hpc : pc.task = some t) :
    workers[i]? = some pc ↔ s.workers[i]? = some pc := by
  apply notifyOne_other _ hn <;> rintro rfl <;> cases hpc

theorem notifyAll_hand (hpc : pc.task = some t) :
    (notifyAll .blocked .woken s.workers)[i]? = some pc ↔ s.workers[i]? = some pc := by
  apply notifyAll_other <;> rintro rfl <;> cases hpc

theorem awake_task (ha : pc.awake) : pc.task = none := by
  cases pc <;> first | rfl | cases ha

/-- A step takes a task to its next stage or leaves it. -/
theorem Trans.stage (h : Trans s a s') (hs : s.At t st) (hnd : s.tasks.Nodup) :
    ∃ st', s'.At t st' := by
  cases h with
  | die | join | done => exact ⟨st, hs.keep rfl .rfl .rfl fun _ _ _ => .rfl⟩
  | quit => exact ⟨st, hs.keep rfl .rfl .rfl fun _ _ => notifyAll_hand⟩
  | block hi ha | exit hi ha | wake hi =>
    refine ⟨st, hs.move hi ?_ nofun⟩
    first | simp [awake_task ha] | nofun
  | push hq hd hn =>
    by_cases ht : t = s.nextTask
    · subst ht
      have hst : st = .unborn := by
        by_contra hne
        exact absurd (hs.born.mpr hne) (Nat.lt_irrefl _)
      subst hst
      refine ⟨.queued, ?_, by simp [Pool.push], by simp [Pool.push], ?_⟩
      · exact (history_log rfl).trans (congrArg (· ++ _) hs.history)
      · intro pc i hpc
        exact (notifyOne_hand hn hpc).trans (hs.hand hpc)
    · refine ⟨st, hs.keep ?_ ?_ ?_ fun _ _ => notifyOne_hand hn⟩
      · exact history_log_of_ne (Ne.symm ht)
      · exact ⟨fun h => Nat.lt_of_le_of_ne (Nat.le_of_lt_succ h) ht, Nat.lt_succ_of_lt⟩
      · simp [Pool.push, ht]
  | @pop i pc u tasks hi ha ht =>
    have hpc := awake_task ha
    by_cases hu : u = t
    · subst hu
      have hst : st = .queued := hs.queue.mp (ht ▸ List.mem_cons_self)
      subst hst
      refine ⟨.popped i, ?_, by simpa using hs.born, ?_, hs.advance hi nofun ?_⟩
      · exact (history_log rfl).trans (congrArg (· ++ _) hs.history)
      · simpa using (List.nodup_cons.mp (ht ▸ hnd)).1
      · simp [Stage.hand, eq_comm]
    · have hs' : ({ s with tasks } : Pool).At t st :=
        hs.keep rfl .rfl (by simp [ht, Ne.symm hu]) fun _ _ _ => .rfl
      exact ⟨st, (hs'.move hi (by simp [hpc]) (by simpa [Pc.task] using hu)).log hu⟩
  | @call i u hi =>
    by_cases hu : u = t
    · subst hu
      have hhand := (hs.hand rfl).mp hi
      cases Stage.eq_popped hhand
      refine ⟨.running i, ?_, by simpa using hs.born, by simpa using hs.queue, hs.advance hi ?_ ?_⟩
      · exact (history_log rfl).trans (congrArg (· ++ _) hs.history)
      · intro j c hj
        cases hj
        rfl
      · simp [Stage.hand, eq_comm]
    · exact ⟨st, (hs.move hi (by simpa [Pc.task] using hu) (by simpa [Pc.task] using hu)).log hu⟩
  | @ret i u hi =>
    by_cases hu : u = t
    · subst hu
      have hhand := (hs.hand rfl).mp hi
      cases Stage.eq_running hhand
      refine ⟨.ran i, ?_, by simpa using hs.born, by simpa using hs.queue, hs.advance hi ?_ ?_⟩
      · exact (history_log rfl).trans (congrArg (· ++ _) hs.history)
      · intro j c hj
        cases hj
        rfl
      · rintro j c hc
        simp only [Stage.hand, reduceCtorEq, false_iff]
        rintro ⟨-, rfl⟩
        cases hc
    · exact ⟨st, (hs.move hi (by simpa [Pc.task] using hu) (by simp [Pc.task])).log hu⟩

/-- Other workers do nothing about a task. -/
theorem doneBy_eq (s : Pool) (i : Nat) (t : TaskId) :
    s.doneBy i t = (s.history t).filter (·.worker = some i) := by
  simp [doneBy, history, List.filter_filter]

theorem mem_pushed : t ∈ s.pushed ↔ .pushed t ∈ s.history t := by
  simp only [pushed, history, List.mem_filterMap, List.mem_filter]
  constructor
  · rintro ⟨e, he, ht⟩
    cases e <;> cases ht
    exact ⟨he, by simp [Event.task]⟩
  · rintro ⟨hi, -⟩
    exact ⟨_, hi, rfl⟩

theorem mem_popped : t ∈ s.popped ↔ ∃ i, .popped i t ∈ s.history t := by
  simp only [popped, history, List.mem_filterMap, List.mem_filter]
  constructor
  · rintro ⟨e, he, ht⟩
    cases e <;> cases ht
    exact ⟨_, he, by simp [Event.task]⟩
  · rintro ⟨i, hi, -⟩
    exact ⟨_, hi, rfl⟩

/-- The exit of a worker needs an empty queue, and then nothing is pushed any more. -/
theorem Trans.exited (h : Trans s a s') (hs : .exited ∈ s.workers → s.quit = true ∧ s.tasks = [])
    (he : .exited ∈ s'.workers) : s'.quit = true ∧ s'.tasks = [] := by
  cases h with
  | die | join | done => exact hs he
  | quit => exact ⟨rfl, (hs ((mem_notifyAll_other Pc.exited (by simp) (by simp)).mp he)).2⟩
  | push hq hd hn =>
    have hquit := (hs ((mem_notifyOne_other .exited hn (by simp) (by simp)).mp he)).1
    rw [hq] at hquit
    cases hquit
  | exit hi ha hq ht => exact ⟨hq, ht⟩
  | block hi ha =>
    apply hs
    refine (mem_set_other .exited hi ?_ (by simp)).mp he
    rintro rfl
    cases ha
  | pop hi ha ht =>
    have htasks := (hs ((mem_set_other .exited hi (by rintro rfl; cases ha) (by simp)).mp he)).2
    rw [ht] at htasks
    cases htasks
  | wake hi | call hi | ret hi => exact hs ((mem_set_other .exited hi (by simp) (by simp)).mp he)

theorem pushed_log (s : Pool) (e : Event) : (s.log e).pushed = s.pushed ++ e.pushed?.toList := by
  simp only [pushed, log_trace, List.filterMap_append]
  cases e <;> rfl

theorem popped_log (s : Pool) (e : Event) : (s.log e).popped = s.popped ++ e.popped?.toList := by
  simp only [popped, log_trace, List.filterMap_append]
  cases e <;> rfl

/-- What is pushed goes to the end of the queue, what is popped comes from its head. -/
theorem Trans.fifo (h : Trans s a s') (hs : s.pushed = s.popped ++ s.tasks) :
    s'.pushed = s'.popped ++ s'.tasks := by
  cases h with
  | die | join | done | quit | block | exit | wake => exact hs
  | push hq hd hn =>
    rw [Pool.push, pushed_log, popped_log]
    exact (congrArg (· ++ [s.nextTask]) hs).trans (by simp [Event.popped?]; rfl)
  | pop hi ha ht =>
    rw [pushed_log, popped_log]
    refine (List.append_nil _).trans (hs.trans ?_)
    rw [ht]
    exact List.append_cons ..
  | call | ret =>
    rw [pushed_log, popped_log]
    exact (List.append_nil _).trans (hs.trans (congrArg (· ++ _) (List.append_nil _).symm))

theorem Inv.trans (hs : s.Inv) (h : Trans s a s') : s'.Inv := by
  refine ⟨h.fifo hs.fifo, ?_, ?_, h.exited hs.exited⟩
  · cases h with
    | die | join | done | quit | block | exit | wake | call | ret => exact hs.nodup
    | push hq hd hn =>
      obtain ⟨st, hst⟩ := @hs.stage s.nextTask
      have hfresh : s.nextTask ∉ s.tasks := by
        intro hm
        refine Nat.lt_irrefl s.nextTask (hst.born.mpr ?_)
        rw [hst.queue.mp hm]
        nofun
      exact (List.perm_append_singleton ..).nodup_iff.mpr (List.nodup_cons.mpr ⟨hfresh, hs.nodup⟩)
    | pop hi ha ht => exact (List.nodup_cons.mp (ht ▸ hs.nodup)).2
  · intro t
    obtain ⟨st, hst⟩ := @hs.stage t
    exact h.stage hst hs.nodup

theorem start_inv (n : Nat) : (start n).Inv := by
  refine ⟨rfl, List.nodup_nil, ⟨.unborn, rfl, ?_, ?_, ?_⟩, ?_⟩
  · simp [start]
  · simp [start]
  · intro i pc hpc
    simp only [start, List.getElem?_replicate, Stage.hand, reduceCtorEq, iff_false]
    intro h
    split at h <;> cases h
    cases hpc
  · intro h
    cases List.eq_of_mem_replicate h

theorem inv {n : Nat} {xs : List (Pool × Act)} (hx : Exec Step (start n) xs s) : s.Inv :=
  hx.invariant (start_inv n) fun hs h => hs.trans h.trans

/-- The stage of a task says which worker holds it. -/
theorem At.holds (h : s.At t st) : s.Holds i t ↔ st = .popped i ∨ st = .running i ∨ st = .ran i := by
  have hpc : ∀ pc ∈ s.workers[i]?, pc.task = some t → st.hand t = some (i, pc) := by
    intro pc hi ht
    exact (h.hand ht).mp hi
  constructor
  · rintro (⟨hi, -⟩ | ⟨hi, -⟩ | ⟨-, he⟩)
    · exact .inl (Stage.eq_popped (hpc _ hi rfl))
    · exact .inr (.inl (Stage.eq_running (hpc _ hi rfl)))
    · have hm : .returned i t ∈ s.doneBy i t := by simp [he]
      rw [doneBy_eq, h.history] at hm
      have hm := List.mem_of_mem_filter hm
      refine .inr (.inr ?_)
      cases st <;> simp_all [Stage.events]
  · have hdone : s.doneBy i t = (st.events t).filter (·.worker = some i) := by
      rw [doneBy_eq, h.history]
    rintro (rfl | rfl | rfl)
    · exact .toRun ((h.hand rfl).mpr rfl) (hdone.trans (by simp [Stage.events, Event.worker]))
    · exact .running ((h.hand rfl).mpr rfl) (hdone.trans (by simp [Stage.events, Event.worker]))
    · refine .ran ?_ (hdone.trans (by simp [Stage.events, Event.worker]))
      intro pc hi ht
      cases hpc pc hi ht

/-- The queue hands out the tasks in the order in which it got them, every task that was dequeued is
with one worker, which runs it once, and no worker leaves a task behind. -/
theorem fifo_once {n : Nat} {xs : List (Pool × Act)} (hx : Exec Step (start n) xs s) :
    s.pushed = s.popped ++ s.tasks ∧ (∀ t ∈ s.popped, ∃! i, s.Holds i t) ∧
    (.exited ∈ s.workers → s.tasks = []) := by
  have hs := inv hx
  refine ⟨hs.fifo, ?_, fun he => (hs.exited he).2⟩
  intro t ht
  obtain ⟨st, hst⟩ := @hs.stage t
  obtain ⟨i, hi⟩ := mem_popped.mp ht
  rw [hst.history] at hi
  have hst' : st = .popped i ∨ st = .running i ∨ st = .ran i := by
    cases st <;> simp_all [Stage.events]
  refine ⟨i, hst.holds.mpr hst', ?_⟩
  intro j hj
  rcases hst' with rfl | rfl | rfl <;> simpa [eq_comm] using hst.holds.mp hj

/-- The second worker overtakes the first, which sleeps; the task that it runs enqueues a third. -/
def overtakeRun : List Act :=
  [.loop 0, .enqueue none (some 0), .loop 1, .enqueue none none, .loop 0, .call 1,
    .enqueue (some 1) none, .ret 1]

theorem fifo_once_two : ∃ s xs, Exec Step (start 2) xs s ∧ xs.map Prod.snd = overtakeRun ∧
    s.popped = [0, 1] ∧
    s.pushed = s.popped ++ s.tasks ∧ (∀ t ∈ s.popped, ∃! i, s.Holds i t) ∧
    (.exited ∈ s.workers → s.tasks = []) := by
  have hrun : (Exec.runs step? (start 2) overtakeRun).any (fun s => s.popped = [0, 1]) := by decide
  obtain ⟨s, hs, hrun⟩ := (Option.any_eq_true ..).mp hrun
  obtain ⟨xs, hx, hacts⟩ := Exec.of_runs step_of_step? hs
  exact ⟨s, xs, hx, hacts, of_decide_eq_true hrun, fifo_once hx⟩

end
end Pool
end OnlineChat.ThreadPool
