import OnlineChat.ThreadPool.Shutdown

/-!
# The pool in operation

How many steps the workers have taken is an account: every accepted task is worth three steps,
every start or wake-up of a worker one. As long as the account is not empty some worker can go on,
and when it is empty every accepted task has been executed.
-/

namespace OnlineChat.ThreadPool
open Lib

/-- How many steps a worker takes before it sleeps or leaves, if it gets no further task. -/
def Pc.credit : Pc → Nat
  | .blocked | .exited => 0
  | .start | .woken => 1
  | .running _ => 2
  | .holding _ => 3

/-- A step of a worker. -/
def Act.isWork : Act → Bool
  | .loop _ | .call _ | .ret _ => true
  | _ => false

namespace Pool

def credit (s : Pool) : Nat := 3 * s.tasks.length + (s.workers.map Pc.credit).sum

/-- How many workers a step takes out of the queue of `cv`. -/
def wakes (s : Pool) : Act → Nat
  | .enqueue _ wake => if s.quit then 0 else wake.toList.length
  | .spurious _ => 1
  | .quit => s.workers.countP (· = .blocked)
  | _ => 0

section
variable {s s' : Pool} {a : Act} {i n : Nat} {pc b : Pc} {t : TaskId}

@[simp] theorem credit_log (s : Pool) (e : Event) : (s.log e).credit = s.credit := rfl

theorem credit_of_awake (ha : pc.awake) : pc.credit = 1 := by
  cases pc <;> first | rfl | cases ha

/-- A worker that moves changes the account by what is its own. -/
theorem credit_move (hi : s.workers[i]? = some pc) :
    (s.move i b).credit + pc.credit = s.credit + b.credit := by
  have hsum := sum_map_set Pc.credit (b := b) hi
  simp only [credit, move_tasks, move_workers]
  omega

theorem sum_notifyAll (ts : List Pc) :
    ((notifyAll .blocked .woken ts).map Pc.credit).sum =
      (ts.map Pc.credit).sum + ts.countP (· = .blocked) := by
  induction ts with
  | nil => rfl
  | cons pc ts ih =>
    simp only [notifyAll, List.map_cons, List.sum_cons, List.countP_cons] at ih ⊢
    rw [ih]
    cases pc <;> simp [Pc.credit] <;> omega

theorem sum_notifyOne {ts ts' : List Pc} {wake : Option Nat}
    (h : notifyOne .blocked .woken ts wake = some ts') :
    (ts'.map Pc.credit).sum = (ts.map Pc.credit).sum + wake.toList.length := by
  cases wake with
  | none =>
    simp only [notifyOne, Option.ite_none_left_eq_some, Option.some.injEq] at h
    rw [h.2]
    rfl
  | some i =>
    simp only [notifyOne, Option.ite_none_right_eq_some, Option.some.injEq] at h
    obtain ⟨hi, rfl⟩ := h
    exact sum_map_set Pc.credit (b := .woken) hi

/-- A step of a worker costs one, and no task is accepted. -/
theorem Trans.work (h : Trans s a s') (ha : a.isWork) :
    s'.credit + 1 = s.credit ∧ s'.pushed = s.pushed ∧ s'.dead = s.dead := by
  cases h with
  | push | die | wake | quit | join | done => cases ha
  | block hi hpc | exit hi hpc =>
    refine ⟨?_, rfl, rfl⟩
    rw [← credit_of_awake hpc]
    exact credit_move hi
  | @pop i pc t tasks hi hpc ht =>
    refine ⟨?_, (pushed_log ..).trans (List.append_nil _), rfl⟩
    have hm : _ + _ = _ + 3 := credit_move (s := { s with tasks }) (b := .holding t) hi
    rw [credit_of_awake hpc] at hm
    have hs : s.credit = ({ s with tasks } : Pool).credit + 3 := by
      simp only [credit, ht, List.length_cons]
      omega
    rw [hs]
    exact hm
  | @call i t hi =>
    refine ⟨?_, (pushed_log ..).trans (List.append_nil _), rfl⟩
    have hm : _ + 3 = _ + 2 := credit_move (b := .running t) hi
    rw [credit_log]
    omega
  | @ret i t hi =>
    refine ⟨?_, (pushed_log ..).trans (List.append_nil _), rfl⟩
    have hm : _ + 2 = _ + 1 := credit_move (b := .start) hi
    rw [credit_log]
    omega

/-- The step lemma of the account. -/
theorem Trans.account (h : Trans s a s') :
    s'.credit + 3 * s.pushed.length + a.isWork.toNat =
      s.credit + 3 * s'.pushed.length + s.wakes a := by
  cases hw : a.isWork with
  | true =>
    obtain ⟨hc, hp, -⟩ := h.work hw
    have hz : s.wakes a = 0 := by cases a <;> first | rfl | cases hw
    rw [hp, hz, Bool.toNat_true]
    omega
  | false =>
    cases h with
    | block | exit | pop | call | ret => cases hw
    | join | done => rfl
    | die hq => simp [wakes, hq, credit, pushed]
    | @push who wake workers hq hd hn =>
      have hp : (s.push workers).pushed.length = s.pushed.length + 1 := by
        rw [Pool.push, pushed_log, List.length_append]
        rfl
      have hc : (s.push workers).credit = 3 * (s.tasks ++ [s.nextTask]).length +
        (workers.map Pc.credit).sum := rfl
      rw [List.length_append, List.length_singleton, sum_notifyOne hn] at hc
      rw [hp, hc, credit]
      simp only [wakes, hq, Bool.toNat_false, Bool.false_eq_true, if_false]
      omega
    | quit =>
      have hc : s.shutdown.credit = 3 * s.tasks.length +
        ((notifyAll .blocked .woken s.workers).map Pc.credit).sum := rfl
      have hp : s.shutdown.pushed = s.pushed := rfl
      rw [sum_notifyAll] at hc
      rw [hp, hc, credit]
      simp only [wakes, Bool.toNat_false]
      omega
    | @wake i hi =>
      have hm : (s.move i .woken).credit + 0 = s.credit + 1 := credit_move hi
      have hp : (s.move i .woken).pushed = s.pushed := rfl
      simp only [hp, wakes, Bool.toNat_false]
      omega

/-- The worker steps of a run: three for every accepted task, one for every start and wake-up, less
what is still to be done. -/
theorem account {xs : List (Pool × Act)} (hx : Exec Step (start n) xs s) :
    s.credit + xs.countP (·.2.isWork) =
      n + 3 * s.pushed.length + (xs.map fun x => x.1.wakes x.2).sum := by
  have hb := hx.balance credit (fun s => 3 * s.pushed.length) (fun _ a => a.isWork.toNat) wakes
    fun h => h.trans.account
  have hstart : (start n).credit = n := by
    simp only [start, credit, List.map_replicate, List.sum_replicate_nat]
    exact (Nat.zero_add _).trans (Nat.mul_one n)
  have hcount := Exec.sum_toNat (fun x : Pool × Act => x.2.isWork) xs
  rw [hstart] at hb
  rw [← hcount]
  exact hb

/-- The workers alone: each of their steps costs one, and nothing is accepted. -/
theorem work_run {xs : List (Pool × Act)} (hx : Exec Step s xs s') (hxs : ∀ x ∈ xs, x.2.isWork) :
    s'.credit + xs.length = s.credit ∧ s'.pushed = s.pushed ∧ s'.dead = s.dead := by
  induction hx with
  | nil => exact ⟨rfl, rfl, rfl⟩
  | @snoc xs t a u hx hst ih =>
    obtain ⟨hlen, hpushed, hdead⟩ := ih fun x hx => hxs x (List.mem_append_left _ hx)
    have ha : a.isWork = true := hxs (t, a) (by simp)
    obtain ⟨hc, hp, hd⟩ := hst.trans.work ha
    refine ⟨?_, hp.trans hpushed, hd.trans hdead⟩
    rw [List.length_append, List.length_singleton]
    omega

/-- A worker that is awake or has a task in hand can go on. -/
theorem exists_work (hd : s.dead = false) (hi : s.workers[i]? = some pc) (hpc : pc.credit ≠ 0) :
    ∃ a s', a.isWork ∧ s.Step a s' := by
  cases pc with
  | blocked | exited => exact absurd rfl hpc
  | start | woken =>
    obtain ⟨s', hs'⟩ := s.exists_loop i
    exact ⟨.loop i, s', rfl, hd, by simp [Pool.step, hi, Pc.awake, hs']⟩
  | holding t => exact ⟨.call i, _, rfl, hd, by simp [Pool.step, hi]; rfl⟩
  | running t => exact ⟨.ret i, _, rfl, hd, by simp [Pool.step, hi]; rfl⟩

/-- Where all workers sleep or have left there is nothing to do. -/
theorem SleepOk.idle (h : s.SleepOk) (hs : s.Inv) (hn : 0 < s.workers.length)
    (hfree : ∀ pc ∈ s.workers, pc.credit = 0) : s.tasks = [] := by
  obtain ⟨pc, hpc⟩ := List.exists_mem_of_length_pos hn
  have hz := hfree pc hpc
  cases pc with
  | exited => exact (hs.exited hpc).2
  | blocked =>
    have hlen := (h.wakeup hpc).2
    have hnone : s.workers.countP Pc.awake = 0 := by
      rw [List.countP_eq_zero]
      intro pc hpc ha
      have hone := hfree pc hpc
      rw [credit_of_awake ha] at hone
      cases hone
    exact List.eq_nil_of_length_eq_zero (by omega)
  | start | woken | holding | running => cases hz

/-- A task that is neither in the queue nor in a worker's hands has been executed. -/
theorem Inv.ran (hs : s.Inv) (ht : s.tasks = []) (hfree : ∀ pc ∈ s.workers, pc.task = none)
    (hp : t ∈ s.pushed) : ∃ i, .returned i t ∈ s.trace := by
  obtain ⟨st, hst⟩ := @hs.stage t
  have hm := mem_pushed.mp hp
  have hidle : ∀ j pc, pc.task = some t → st.hand t ≠ some (j, pc) := by
    intro j pc hpc hhand
    have hi := (hst.hand hpc).mpr hhand
    rw [hfree pc (List.mem_of_getElem? hi)] at hpc
    cases hpc
  rw [hst.history] at hm
  cases st with
  | unborn => cases hm
  | queued =>
    have hq := hst.queue.mpr rfl
    rw [ht] at hq
    cases hq
  | popped i => exact absurd rfl (hidle i (.holding t) rfl)
  | running i => exact absurd rfl (hidle i (.running t) rfl)
  | ran i =>
    have hi : .returned i t ∈ s.history t := hst.history ▸ by simp [Stage.events]
    exact ⟨i, List.mem_of_mem_filter hi⟩

/-- In the pool in operation some worker can go on as long as there is credit. -/
theorem works_iff {xs : List (Pool × Act)} (hn : 0 < n) (hx : Exec Step (start n) xs s)
    (hd : s.dead = false) : (∃ a s', a.isWork ∧ s.Step a s') ↔ s.credit ≠ 0 := by
  constructor
  · rintro ⟨a, s', ha, hst⟩ hz
    obtain ⟨hc, -⟩ := hst.trans.work ha
    omega
  · intro hne
    by_contra hno
    have hall : ∀ pc ∈ s.workers, pc.credit = 0 := by
      intro pc hpc
      by_contra hc
      obtain ⟨i, hi⟩ := List.mem_iff_getElem?.mp hpc
      exact hno (exists_work hd hi hc)
    have hlen := (joinOk hx).length
    have hsleep := (start_sleepOk n).exec hx
    refine hne (Nat.add_eq_zero_iff.mpr ⟨?_, ?_⟩)
    · rw [hsleep.idle (inv hx) (hlen.symm ▸ hn) hall]
      rfl
    · apply List.sum_eq_zero_iff_forall_eq_nat.mpr
      intro c hc
      obtain ⟨pc, hpc, rfl⟩ := List.mem_map.mp hc
      exact hall pc hpc

/-- Without credit everything has been done. -/
theorem Inv.all_ran (hs : s.Inv) (hz : s.credit = 0) :
    s.tasks = [] ∧ ∀ t ∈ s.pushed, ∃ i, .returned i t ∈ s.trace := by
  obtain ⟨ht, hw⟩ := Nat.add_eq_zero_iff.mp hz
  have htasks : s.tasks = [] := List.eq_nil_of_length_eq_zero (by omega)
  refine ⟨htasks, fun t htp => hs.ran htasks ?_ htp⟩
  intro pc hpc
  have hc := List.sum_eq_zero_iff_forall_eq_nat.mp hw _ (List.mem_map_of_mem hpc)
  cases pc with
  | blocked | exited => rfl
  | start | woken | holding | running => cases hc

/-- From any state of the pool in operation: the account of the run so far, who can go on, and what
the workers do if they are left alone. They stop after as many steps as there are left, whatever
their order, and then every accepted task has been executed. -/
theorem quiesces {xs : List (Pool × Act)} (hn : 0 < n) (hx : Exec Step (start n) xs s)
    (hd : s.dead = false) :
    s.credit + xs.countP (·.2.isWork) =
      n + 3 * s.pushed.length + (xs.map fun x => x.1.wakes x.2).sum ∧
    ∀ ys s', Exec Step s ys s' → (∀ y ∈ ys, y.2.isWork) →
      s'.credit + ys.length = s.credit ∧ s'.pushed = s.pushed ∧
      ((∃ a s'', a.isWork ∧ s'.Step a s'') ↔ s'.credit ≠ 0) ∧
      (s'.credit = 0 → s'.tasks = [] ∧ ∀ t ∈ s.pushed, ∃ i, .returned i t ∈ s'.trace) := by
  refine ⟨account hx, ?_⟩
  intro ys s' hy hys
  obtain ⟨hcredit, hpushed, hdead⟩ := work_run hy hys
  refine ⟨hcredit, hpushed, works_iff hn (hx.trans hy) (hdead.trans hd), ?_⟩
  rw [← hpushed]
  exact (inv (hx.trans hy)).all_ran

/-- Two workers, one of which has been asleep and is woken for the second of two tasks. -/
def busyRun : List Act :=
  [.loop 0, .enqueue none (some 0), .loop 1, .enqueue none none, .call 1]

theorem quiesces_two : ∃ s xs, Exec Step (start 2) xs s ∧ xs.map Prod.snd = busyRun ∧
    s.credit = 6 ∧ s.credit + xs.countP (·.2.isWork) =
      2 + 3 * s.pushed.length + (xs.map fun x => x.1.wakes x.2).sum ∧
    ∀ ys s', Exec Step s ys s' → (∀ y ∈ ys, y.2.isWork) →
      s'.credit + ys.length = s.credit ∧ s'.pushed = s.pushed ∧
      ((∃ a s'', a.isWork ∧ s'.Step a s'') ↔ s'.credit ≠ 0) ∧
      (s'.credit = 0 → s'.tasks = [] ∧ ∀ t ∈ s.pushed, ∃ i, .returned i t ∈ s'.trace) := by
  have hrun : (Exec.runs step? (start 2) busyRun).any (fun s => s.credit = 6 ∧ s.dead = false) := by
    decide
  obtain ⟨s, hs, hrun⟩ := (Option.any_eq_true ..).mp hrun
  obtain ⟨hcredit, hd⟩ := of_decide_eq_true hrun
  obtain ⟨xs, hx, hacts⟩ := Exec.of_runs step_of_step? hs
  exact ⟨s, xs, hx, hacts, hcredit, quiesces (by decide) hx hd⟩

end
end Pool
end OnlineChat.ThreadPool
