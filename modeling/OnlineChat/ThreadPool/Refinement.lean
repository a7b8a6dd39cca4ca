import OnlineChat.Lib.Service
import OnlineChat.ThreadPool.Shutdown

/-!
# The pool as a queue with servers

Seen from outside, the pool with `n` workers is a `Service` with `n` servers: a worker serves the
task it has in hand. The mutex, the condition variable and the destructor leave no trace, and every
history of the service is one of the pool.
-/

namespace OnlineChat.ThreadPool
open Lib

/-- What an event is for the service. That a worker calls its task is not seen. -/
def Event.service? : Event → Option (Service.Event Nat TaskId)
  | .pushed t => some (.submit t)
  | .popped i t => some (.take i t)
  | .called .. => none
  | .returned i t => some (.finish i t)

def Event.returned? : Event → Option TaskId
  | .returned _ t => some t
  | _ => none

/-- The tasks the workers have in hand. -/
def serving (ws : List Pc) (i : Nat) : Option TaskId := ws[i]?.bind Pc.task

namespace Pool

/-- The tasks in the order in which they came to their end. -/
def returned (s : Pool) : List TaskId := s.trace.filterMap Event.returned?

def service (s : Pool) : Service Nat TaskId :=
  ⟨s.tasks, serving s.workers, s.trace.filterMap Event.service?⟩

section
variable {s s' : Pool} {a : Act} {i n : Nat} {pc b : Pc} {t : TaskId} {ws ws' : List Pc}

theorem serving_of (hi : ws[i]? = some pc) : serving ws i = pc.task := by
  rw [serving, hi]
  rfl

theorem serving_set (hi : ws[i]? = some pc) :
    serving (ws.set i b) = Function.update (serving ws) i b.task := by
  have hlt := (List.getElem?_eq_some_iff.mp hi).1
  funext j
  rw [Function.update_apply, serving, List.getElem?_set]
  by_cases hj : i = j
  · subst hj
    simp [hlt]
  · simp [serving, hj, Ne.symm hj]

/-- A worker moves that keeps what it has in hand. -/
theorem serving_same (hi : ws[i]? = some pc) (hb : b.task = pc.task) :
    serving (ws.set i b) = serving ws := by
  rw [serving_set hi, hb, ← serving_of hi, Function.update_eq_self]

theorem serving_notifyOne {wake : Option Nat}
    (hn : notifyOne .blocked .woken ws wake = some ws') : serving ws' = serving ws := by
  obtain ⟨-, rfl⟩ | ⟨i, hi, rfl⟩ := notifyOne_eq_some hn
  · rfl
  · exact serving_same hi rfl

theorem serving_notifyAll : serving (notifyAll .blocked .woken ws) = serving ws := by
  funext j
  rw [serving, serving, notifyAll, List.getElem?_map]
  cases ws[j]? with
  | none => rfl
  | some pc => cases pc <;> rfl

theorem service_log {e : Event} : (s.log e).service =
    ⟨s.service.queue, s.service.serving, s.service.log ++ e.service?.toList⟩ := by
  rw [service, log_trace, List.filterMap_append]
  cases e <;> rfl

theorem service_move (hi : s.workers[i]? = some pc) : (s.move i b).service =
    ⟨s.tasks, Function.update (serving s.workers) i b.task, s.service.log⟩ := by
  rw [service, move_workers, serving_set hi]
  rfl

theorem service_move_same (hi : s.workers[i]? = some pc) (hb : b.task = pc.task) :
    (s.move i b).service = s.service := by
  rw [service, move_workers, serving_same hi hb]
  rfl

theorem service_push {wake : Option Nat}
    (hw : notifyOne .blocked .woken s.workers wake = some ws) : (s.push ws).service =
    ⟨s.tasks ++ [s.nextTask], serving s.workers, s.service.log ++ [.submit s.nextTask]⟩ := by
  rw [push, service_log, service, serving_notifyOne hw]
  rfl

theorem service_pop {tasks : List TaskId} (hi : s.workers[i]? = some pc) :
    (({ s with tasks }.move i (.holding t)).log (.popped i t)).service =
    ⟨tasks, Function.update (serving s.workers) i (some t), s.service.log ++ [.take i t]⟩ := by
  rw [service_log, service_move (s := { s with tasks }) hi]
  rfl

theorem service_call (hi : s.workers[i]? = some (.holding t)) :
    ((s.move i (.running t)).log (.called i t)).service = s.service := by
  rw [service_log, service_move_same (b := .running t) hi rfl]
  exact congrArg (Service.mk _ _) (List.append_nil _)

theorem service_ret (hi : s.workers[i]? = some pc) :
    ((s.move i .start).log (.returned i t)).service =
    ⟨s.tasks, Function.update (serving s.workers) i none, s.service.log ++ [.finish i t]⟩ := by
  rw [service_log, service_move hi]
  rfl

/-- A step of the pool is one of the service, or it is not seen. -/
theorem Trans.service (h : Trans s a s') (hn : s.workers.length = n) :
    s'.service = s.service ∨ ∃ e, Service.Step (Finset.range n) s.service e s'.service := by
  cases h with
  | die | join | done => exact .inl rfl
  | quit =>
    refine .inl ?_
    rw [Pool.service, shutdown, serving_notifyAll]
    rfl
  | block hi ha | exit hi ha => exact .inl (service_move_same hi (awake_task ha).symm)
  | wake hi => exact .inl (service_move_same hi rfl)
  | call hi => exact .inl (service_call hi)
  | push hq hd hw =>
    refine .inr ⟨.submit s.nextTask, ?_⟩
    rw [service_push hw]
    exact .submit _
  | @pop i pc t tasks hi ha ht =>
    refine .inr ⟨.take i t, ?_⟩
    rw [service_pop hi]
    refine .take (Finset.mem_range.mpr (hn ▸ (List.getElem?_eq_some_iff.mp hi).1)) ?_ ht
    exact (serving_of hi).trans (awake_task ha)
  | @ret i t hi =>
    refine .inr ⟨.finish i t, ?_⟩
    rw [service_ret hi]
    exact .finish (serving_of hi)

theorem start_service (n : Nat) : (start n).service = .idle := by
  have hfree : serving (start n).workers = fun _ => none := by
    funext i
    simp only [serving, start, List.getElem?_replicate]
    split <;> rfl
  rw [service, hfree]
  rfl

/-- The pool refines the service. -/
theorem refines {xs : List (Pool × Act)} (hx : Exec Step (start n) xs s) :
    ∃ ys, Exec (Service.Step (Finset.range n)) .idle ys s.service := by
  have hsim : ∃ ys v, Exec (Service.Step (Finset.range n)) .idle ys v ∧
      v = s.service ∧ s.workers.length = n := by
    refine hx.simulate (R := fun s v => v = s.service ∧ s.workers.length = n)
      ⟨(start_service n).symm, List.length_replicate⟩ ?_
    rintro t v a u ⟨rfl, hn⟩ hst
    have hlen := hst.trans.length.trans hn
    rcases hst.trans.service hn with hs | ⟨e, he⟩
    · exact ⟨[], _, .nil, hs.symm, hlen⟩
    · exact ⟨_, _, .single he, rfl, hlen⟩
  obtain ⟨ys, v, hy, rfl, -⟩ := hsim
  exact ⟨ys, hy⟩

/-! ## The converse -/

theorem service_submitted (s : Pool) : s.service.submitted = s.pushed := by
  rw [service, Service.submitted, List.filterMap_filterMap, pushed]
  congr 1
  funext e
  cases e <;> rfl

theorem service_taken (s : Pool) : s.service.taken = s.popped := by
  rw [service, Service.taken, List.filterMap_filterMap, popped]
  congr 1
  funext e
  cases e <;> rfl

theorem service_finished (s : Pool) : s.service.finished = s.returned := by
  rw [service, Service.finished, List.filterMap_filterMap, returned]
  congr 1
  funext e
  cases e <;> rfl

/-- Tasks are numbered as they are accepted. -/
theorem Trans.numbered (h : Trans s a s') (hs : s.pushed = List.range s.nextTask) :
    s'.pushed = List.range s'.nextTask := by
  cases h with
  | die | quit | join | done | block | exit | wake => exact hs
  | push => exact (pushed_log ..).trans ((congrArg (· ++ _) hs).trans List.range_succ.symm)
  | pop | call | ret => exact (pushed_log ..).trans ((List.append_nil _).trans hs)

/-- The pool in operation. -/
structure Live (n : Nat) (s : Pool) : Prop where
  reached : ∃ xs, Exec Step (start n) xs s
  quit : s.quit = false
  dead : s.dead = false

theorem Live.step (hs : s.Live n) (h : s.Step a s') (ha : a ≠ .quit) : s'.Live n := by
  obtain ⟨xs, hx⟩ := hs.reached
  refine ⟨⟨_, hx.snoc h⟩, ?_, ?_⟩
  · cases h.trans with
    | quit => exact absurd rfl ha
    | die | push | block | exit | pop | wake | call | ret | join | done => exact hs.quit
  · cases h.trans with
    | die hq =>
      rw [hs.quit] at hq
      cases hq
    | push | quit | block | exit | pop | wake | call | ret | join | done => exact hs.dead

theorem pushed_eq {xs : List (Pool × Act)} (hx : Exec Step (start n) xs s) :
    s.pushed = List.range s.nextTask :=
  hx.invariant (P := fun s => s.pushed = List.range s.nextTask) rfl fun h hst =>
    hst.trans.numbered h

theorem Live.numbered (hs : s.Live n) : s.nextTask = s.service.submitted.length := by
  obtain ⟨xs, hx⟩ := hs.reached
  rw [service_submitted, pushed_eq hx, List.length_range]

theorem Live.submit (hs : s.Live n) : ∃ a s', a ≠ .quit ∧ s.Step a s' ∧
    s'.service = ⟨s.tasks ++ [s.nextTask], serving s.workers,
      s.service.log ++ [.submit s.nextTask]⟩ := by
  obtain ⟨xs, hx⟩ := hs.reached
  obtain ⟨wake, workers, hw⟩ := exists_notifyOne Pc.blocked .woken s.workers
  have hd : s.dtor = .idle := by
    by_contra hd
    have hq := ((start_sleepOk n).exec hx).quit.mpr hd
    rw [hs.quit] at hq
    cases hq
  refine ⟨.enqueue none wake, s.push workers, by simp, ⟨hs.dead, ?_⟩, service_push hw⟩
  simp [Pool.step, CanEnqueue, hd, enqueue, hs.quit, hw]

theorem Live.pop {tasks : List TaskId} (hs : s.Live n) (hi : s.workers[i]? = some pc)
    (ha : pc.awake) (ht : s.tasks = t :: tasks) :
    s.Step (.loop i) (({ s with tasks }.move i (.holding t)).log (.popped i t)) := by
  refine ⟨hs.dead, ?_⟩
  simp [Pool.step, hi, ha, Pool.loop, hs.quit, ht, Pool.pop]

theorem step_call (hd : s.dead = false) (hi : s.workers[i]? = some (.holding t)) :
    s.Step (.call i) ((s.move i (.running t)).log (.called i t)) :=
  ⟨hd, by simp only [Pool.step, hi]⟩

theorem Live.take {tasks : List TaskId} (hs : s.Live n) (hi : i < n)
    (hfree : serving s.workers i = none) (ht : s.tasks = t :: tasks) :
    ∃ xs s', Exec Step s xs s' ∧ s'.Live n ∧ s'.service =
      ⟨tasks, Function.update (serving s.workers) i (some t), s.service.log ++ [.take i t]⟩ := by
  obtain ⟨xs, hx⟩ := hs.reached
  obtain ⟨pc, hpc⟩ : ∃ pc, s.workers[i]? = some pc :=
    ⟨_, List.getElem?_eq_getElem ((joinOk hx).length.symm ▸ hi)⟩
  cases pc with
  | holding u | running u =>
    rw [serving_of hpc] at hfree
    cases hfree
  | exited =>
    have hq := ((inv hx).exited (List.mem_of_getElem? hpc)).1
    rw [hs.quit] at hq
    cases hq
  | start | woken =>
    have hst := hs.pop hpc rfl ht
    exact ⟨_, _, .single hst, hs.step hst (by simp), service_pop hpc⟩
  | blocked =>
    -- it has to wake up first, with or without a notification
    have hwake : s.Step (.spurious i) (s.move i .woken) := ⟨hs.dead, if_pos hpc⟩
    have hs' := hs.step hwake (by simp)
    have hpc' : (s.move i .woken).workers[i]? = some .woken := (set_eq_some hpc).mpr (.inl ⟨rfl, rfl⟩)
    have hst := hs'.pop hpc' rfl ht
    refine ⟨_, _, (Exec.single hwake).snoc hst, hs'.step hst (by simp), ?_⟩
    rw [service_pop hpc', move_workers, serving_same (b := .woken) hpc rfl]
    rfl

theorem Live.finish (hs : s.Live n) (hi : serving s.workers i = some t) :
    ∃ xs s', Exec Step s xs s' ∧ s'.Live n ∧ s'.service =
      ⟨s.tasks, Function.update (serving s.workers) i none, s.service.log ++ [.finish i t]⟩ := by
  obtain ⟨pc, hpc, htask⟩ := Option.bind_eq_some_iff.mp hi
  cases pc with
  | start | blocked | woken | exited => cases htask
  | running u =>
    cases htask
    have hret : s.Step (.ret i) ((s.move i .start).log (.returned i t)) :=
      ⟨hs.dead, by simp [Pool.step, hpc]⟩
    exact ⟨_, _, .single hret, hs.step hret (by simp), service_ret hpc⟩
  | holding u =>
    cases htask
    have hcall := step_call hs.dead hpc
    have hs' := hs.step hcall (by simp)
    have hpc' : ((s.move i (.running t)).log (.called i t)).workers[i]? = some (.running t) :=
      (set_eq_some hpc).mpr (.inl ⟨rfl, rfl⟩)
    obtain ⟨hq, hserve, hlog⟩ := Service.mk.inj (service_call hpc)
    have hret : Step _ (.ret i) ((((s.move i (.running t)).log (.called i t)).move i .start).log
      (.returned i t)) := ⟨hs'.dead, by simp only [Pool.step, hpc']⟩
    refine ⟨_, _, (Exec.single hcall).snoc hret, hs'.step hret (by simp), ?_⟩
    rw [service_ret hpc', hserve]
    exact congrArg (fun log => (⟨_, _, log ++ _⟩ : Service Nat TaskId)) hlog

/-- The histories of the pool with `n` workers are those of the service with `n` servers that
numbers its jobs. -/
theorem histories {log : List (Service.Event Nat TaskId)} :
    (∃ xs s, Exec Step (start n) xs s ∧ s.service.log = log) ↔
      ∃ ys v, Exec (Service.Step (Finset.range n)) .idle ys v ∧ v.log = log ∧
        v.submitted = List.range v.submitted.length := by
  constructor
  · rintro ⟨xs, s, hx, hlog⟩
    obtain ⟨ys, hy⟩ := refines hx
    refine ⟨ys, s.service, hy, hlog, ?_⟩
    rw [service_submitted, pushed_eq hx, List.length_range]
  · rintro ⟨ys, v, hy, hlog, hv⟩
    have hsim : ∃ xs s, Exec Step (start n) xs s ∧ s.service = v ∧ s.Live n := by
      refine hy.simulate_of (R := fun v (s : Pool) => s.service = v ∧ s.Live n)
        (C := fun v e => ∀ t, e = .submit t → t = v.submitted.length)
        (Service.numbered hy hv) ⟨start_service n, ⟨[], .nil⟩, rfl, rfl⟩ ?_
      rintro v s e w ⟨rfl, hs⟩ hnum hst
      cases hst with
      | submit t =>
        obtain ⟨a, s', ha, hstep, hserv⟩ := hs.submit
        rw [hs.numbered, ← hnum t rfl] at hserv
        exact ⟨_, _, .single hstep, hserv, hs.step hstep ha⟩
      | take hi hfree hq =>
        obtain ⟨xs, s', hx, hs', hserv⟩ := hs.take (Finset.mem_range.mp hi) hfree hq
        exact ⟨xs, s', hx, hserv, hs'⟩
      | finish hi =>
        obtain ⟨xs, s', hx, hs', hserv⟩ := hs.finish hi
        exact ⟨xs, s', hx, hserv, hs'⟩
    obtain ⟨xs, s, hx, rfl, -⟩ := hsim
    exact ⟨xs, s, hx, hlog⟩

/-- When a task is started, fewer of the tasks accepted before it are still unfinished than there
are workers. -/
theorem overtaking {xs : List (Pool × Act)} {l r : List TaskId} (hx : Exec Step (start n) xs s)
    (hp : s.pushed = l ++ t :: r) (ht : t ∈ s.popped) : l.countP (· ∉ s.returned) < n := by
  obtain ⟨ys, hy⟩ := refines hx
  have hnd : s.service.submitted.Nodup := by
    rw [service_submitted, pushed_eq hx]
    exact List.nodup_range
  obtain ⟨-, hb⟩ := Service.bounded hy hnd
  have hlt := hb l t r ((service_submitted s).trans hp) ((service_taken s).symm ▸ ht)
  rw [service_finished, Finset.card_range] at hlt
  exact hlt

/-- The second task is over before the first, and the third is running. -/
def aheadRun : List Act :=
  [.enqueue none none, .enqueue none none, .enqueue none none, .loop 0, .loop 1, .call 1, .ret 1,
    .loop 1]

theorem overtaking_two : ∃ s xs, Exec Step (start 2) xs s ∧ xs.map Prod.snd = aheadRun ∧
    s.returned = [1] ∧ [0, 1].countP (· ∉ s.returned) < 2 := by
  have hrun : (Exec.runs step? (start 2) aheadRun).any (fun s => s.returned = [1] ∧
      s.pushed = [0, 1] ++ 2 :: [] ∧ 2 ∈ s.popped) := by decide
  obtain ⟨s, hs, hrun⟩ := (Option.any_eq_true ..).mp hrun
  obtain ⟨hr, hp, ht⟩ := of_decide_eq_true hrun
  obtain ⟨xs, hx, hacts⟩ := Exec.of_runs step_of_step? hs
  exact ⟨s, xs, hx, hacts, hr, overtaking hx hp ht⟩

end
end Pool
end OnlineChat.ThreadPool
