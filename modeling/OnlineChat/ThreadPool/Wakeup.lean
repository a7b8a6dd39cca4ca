import OnlineChat.ThreadPool.Pool

/-!
# Wake-ups

While a worker sleeps in `cv.wait`, the workers that are awake and free suffice for the queue. The
destructor ends all sleep, and from then on what remains to be done is bounded by `work`.
-/

namespace OnlineChat.ThreadPool
open Lib

/-- How much a worker has to do before it is at the mutex again, and then to leave. -/
def Pc.work : Pc → Nat
  | .exited => 0
  | .start | .blocked | .woken => 1
  | .running _ => 2
  | .holding _ => 3

def Act.isEnqueue : Act → Bool
  | .enqueue .. => true
  | _ => false

namespace Pool

/-- A worker sleeps only while the others can take all that is queued. -/
def WakeupOk (s : Pool) : Prop :=
  .blocked ∈ s.workers → s.quit = false ∧ s.tasks.length ≤ s.workers.countP Pc.awake

/-- `quit` is set by the destructor. -/
def QuitOk (s : Pool) : Prop := s.quit = true ↔ s.dtor ≠ .idle

structure SleepOk (s : Pool) : Prop where
  wakeup : s.WakeupOk
  quit : s.QuitOk

/-- How many turns of its loop the destructor has left. -/
def joins (s : Pool) : Nat :=
  match s.dtor with
  | .joining k => s.workers.length - k + 1
  | _ => 0

/-- A bound on the steps until the destructor has returned. -/
def work (s : Pool) : Nat := 3 * s.tasks.length + (s.workers.map Pc.work).sum + s.joins

section
variable {s s' : Pool} {a : Act} {i : Nat} {pc b : Pc}

theorem ne_of_awake (ha : pc.awake) (hb : b.awake = false) : b ≠ pc := by
  rintro rfl
  rw [ha] at hb
  cases hb

/-- A worker that was not free moves on. -/
theorem countP_move_le (hi : s.workers[i]? = some pc) (hpc : pc.awake = false) :
    s.workers.countP Pc.awake ≤ (s.move i b).workers.countP Pc.awake := by
  have hcount := countP_set Pc.awake (b := b) hi
  rw [hpc] at hcount
  exact Nat.le.intro hcount.symm

theorem Trans.wakeupOk (h : Trans s a s') (hs : s.WakeupOk) : s'.WakeupOk := by
  intro hb
  cases h with
  | die | join | done => exact hs hb
  | quit => exact absurd hb (not_mem_notifyAll (by simp))
  | push hq hd hn =>
    obtain ⟨hno, rfl⟩ | ⟨i, hi, rfl⟩ := notifyOne_eq_some hn
    · exact absurd hb hno
    · have hlen := (hs (List.mem_of_getElem? hi)).2
      have hcount := countP_set Pc.awake (b := .woken) hi
      refine ⟨hq, ?_⟩
      simp only [Pool.push, log_tasks, log_workers, List.length_append, List.length_singleton]
      simp only [Pc.awake, Bool.toNat_false, Bool.toNat_true] at hcount
      omega
  | block hi ha hq ht => exact ⟨hq, by simp [ht]⟩
  | exit hi ha hq ht =>
    have hquit := (hs ((mem_set_other .blocked hi (ne_of_awake ha rfl) (by simp)).mp hb)).1
    rw [hq] at hquit
    cases hquit
  | @pop i pc t tasks hi ha ht =>
    obtain ⟨hq, hlen⟩ := hs ((mem_set_other .blocked hi (ne_of_awake ha rfl) (by simp)).mp hb)
    have hcount := countP_set Pc.awake (b := .holding t) hi
    refine ⟨hq, ?_⟩
    rw [ht, List.length_cons] at hlen
    rw [ha] at hcount
    simp only [log_tasks, log_workers, move_tasks, move_workers]
    simp only [Pc.awake, Bool.toNat_false, Bool.toNat_true] at hcount
    omega
  | wake hi =>
    obtain ⟨hq, hlen⟩ := hs (List.mem_of_getElem? hi)
    exact ⟨hq, Nat.le_trans hlen (countP_move_le hi rfl)⟩
  | call hi | ret hi =>
    obtain ⟨hq, hlen⟩ := hs ((mem_set_other .blocked hi (by simp) (by simp)).mp hb)
    exact ⟨hq, Nat.le_trans hlen (countP_move_le hi rfl)⟩

theorem Trans.quitOk (h : Trans s a s') (hs : s.QuitOk) : s'.QuitOk := by
  cases h with
  | die | block | exit | pop | wake | call | ret | push => exact hs
  | quit => exact ⟨fun _ => nofun, fun _ => rfl⟩
  | join hd | done hd => exact ⟨fun _ => nofun, fun _ => hs.mpr (by simp [hd])⟩

/-- A worker that moves changes the amount of work by what is its own. -/
theorem work_move (hi : s.workers[i]? = some pc) :
    (s.move i b).work + pc.work = s.work + b.work := by
  have hsum := sum_map_set Pc.work (b := b) hi
  simp only [work, joins, move_tasks, move_dtor, move_workers, List.length_set]
  omega

@[simp] theorem work_log (s : Pool) (e : Event) : (s.log e).work = s.work := rfl

theorem work_of_awake (ha : pc.awake) : pc.work = 1 := by
  cases pc <;> first | rfl | cases ha

/-- Without further tasks there is less to do after every step. -/
theorem Trans.work_lt (h : Trans s a s') (ha : a.isEnqueue = false) (hq : s.quit = true)
    (hd : s.dtor ≠ .idle) (hb : .blocked ∉ s.workers) : s'.work < s.work := by
  cases h with
  | push | die => cases ha
  | quit hidle => exact absurd hidle hd
  | block hi _ hno =>
    rw [hq] at hno
    cases hno
  | wake hi => exact absurd (List.mem_of_getElem? hi) hb
  | exit hi hpc =>
    have hw := work_move (b := .exited) hi
    rw [work_of_awake hpc, show Pc.work .exited = 0 from rfl] at hw
    omega
  | @pop i pc t tasks hi hpc ht =>
    have hw := work_move (s := { s with tasks }) (b := .holding t) hi
    rw [work_of_awake hpc, show Pc.work (.holding t) = 3 from rfl] at hw
    have hs : s.work = ({ s with tasks } : Pool).work + 3 := by
      simp only [work, joins, ht, List.length_cons]
      omega
    rw [work_log]
    omega
  | @call i t hi =>
    have hw := work_move (b := .running t) hi
    rw [show Pc.work (.holding t) = 3 from rfl, show Pc.work (.running t) = 2 from rfl] at hw
    rw [work_log]
    omega
  | @ret i t hi =>
    have hw := work_move (b := .start) hi
    rw [show Pc.work (.running t) = 2 from rfl, show Pc.work .start = 1 from rfl] at hw
    rw [work_log]
    omega
  | @join k hd hk =>
    have hlt : k < s.workers.length := (List.getElem?_eq_some_iff.mp hk).1
    simp only [work, joins, hd]
    omega
  | done hd hk =>
    simp only [work, joins, hd]
    omega

theorem start_sleepOk (n : Nat) : (start n).SleepOk := by
  refine ⟨?_, by simp [QuitOk, start]⟩
  intro h
  cases List.eq_of_mem_replicate h

theorem SleepOk.exec {xs : List (Pool × Act)} (hs : s.SleepOk) (hx : Exec Step s xs s') :
    s'.SleepOk :=
  hx.invariant hs fun h hst => ⟨hst.trans.wakeupOk h.wakeup, hst.trans.quitOk h.quit⟩

/-! ## Progress -/

/-- Nobody sleeps once the destructor has begun. -/
theorem SleepOk.awake (h : s.SleepOk) (hq : s.quit = true) : .blocked ∉ s.workers := by
  intro hb
  rw [(h.wakeup hb).1] at hq
  cases hq

theorem Trans.quit_mono (h : Trans s a s') (hq : s.quit = true) : s'.quit = true := by
  cases h with
  | die | block | exit | pop | wake | call | ret | join | done => exact hq
  | quit => rfl
  | push hno =>
    rw [hq] at hno
    cases hno

theorem exists_loop (s : Pool) (i : Nat) : ∃ s', s.loop i = some s' := by
  unfold loop
  split
  · exact ⟨_, rfl⟩
  next hw =>
    split
    · exact ⟨_, rfl⟩
    next hq =>
      cases ht : s.tasks with
      | nil => simp_all
      | cons t tasks => exact ⟨_, by simp only [pop, ht]; rfl⟩

/-- Unless it has returned, the destructor or a worker can go on. -/
theorem exists_step (hd : s.dtor ≠ .idle) (hr : s.dtor ≠ .returned) (hdead : s.dead = false)
    (hb : .blocked ∉ s.workers) : ∃ a s', a.isEnqueue = false ∧ s.Step a s' := by
  obtain ⟨k, hk⟩ : ∃ k, s.dtor = .joining k := by
    cases hk : s.dtor with
    | idle => exact absurd hk hd
    | returned => exact absurd hk hr
    | joining k => exact ⟨k, rfl⟩
  have step : ∀ a s', a.isEnqueue = false → s.step a = some s' →
      ∃ a s', a.isEnqueue = false ∧ s.Step a s' :=
    fun a s' ha h => ⟨a, s', ha, hdead, h⟩
  cases hpc : s.workers[k]? with
  | none => exact step .join _ rfl (by simp [Pool.step, hk, Pool.join, hpc]; rfl)
  | some pc =>
    cases pc with
    | blocked => exact absurd (List.mem_of_getElem? hpc) hb
    | exited => exact step .join _ rfl (by simp [Pool.step, hk, Pool.join, hpc]; rfl)
    | holding t => exact step (.call k) _ rfl (by simp [Pool.step, hpc]; rfl)
    | running t => exact step (.ret k) _ rfl (by simp [Pool.step, hpc]; rfl)
    | start | woken =>
      obtain ⟨s', hs'⟩ := s.exists_loop k
      exact step (.loop k) s' rfl (by simp [Pool.step, hpc, Pc.awake, hs'])

/-- Only a call of `enqueue` ends the process. -/
theorem Trans.dead (h : Trans s a s') (ha : a.isEnqueue = false) : s'.dead = s.dead := by
  cases h with
  | push | die => cases ha
  | block | exit | pop | wake | call | ret | quit | join | done => rfl

/-- The run lemma of the shutdown: it lasts at most `work` steps. -/
theorem SleepOk.shutdown {xs : List (Pool × Act)} (hs : s.SleepOk) (hq : s.quit = true)
    (hx : Exec Step s xs s') (hxs : ∀ x ∈ xs, x.2.isEnqueue = false) :
    s'.quit = true ∧ xs.length + s'.work ≤ s.work ∧ s'.dead = s.dead := by
  induction hx with
  | nil => exact ⟨hq, Nat.le_of_eq (Nat.zero_add _), rfl⟩
  | @snoc xs t a u hx hst ih =>
    obtain ⟨hqt, hlen, hdead⟩ := ih fun x hx => hxs x (List.mem_append_left _ hx)
    have ht := hs.exec hx
    have ha : a.isEnqueue = false := hxs (t, a) (by simp)
    have hlt := hst.trans.work_lt ha hqt (ht.quit.mp hqt) (ht.awake hqt)
    refine ⟨hst.trans.quit_mono hqt, ?_, (hst.trans.dead ha).trans hdead⟩
    rw [List.length_append, List.length_singleton]
    omega

/-- The counting invariant, and what follows for the destructor: however the workers and the
destructor go on, nobody sleeps, and they stop only when the destructor has returned. -/
theorem no_lost_wakeup {n : Nat} {xs : List (Pool × Act)} (hx : Exec Step (start n) xs s) :
    (.blocked ∈ s.workers → s.quit = false ∧ s.tasks.length ≤ s.workers.countP Pc.awake) ∧
    (s.quit = true → ∀ ys s', Exec Step s ys s' →
      .blocked ∉ s'.workers ∧ ((∀ y ∈ ys, y.2.isEnqueue = false) → ys.length ≤ s.work ∧
        (s.dead = false → s'.dtor = .returned ∨ ∃ a s'', a.isEnqueue = false ∧ s'.Step a s''))) := by
  have hs := (start_sleepOk n).exec hx
  refine ⟨hs.wakeup, ?_⟩
  intro hq ys s' hy
  have hs' := hs.exec hy
  have hq' : s'.quit = true := hy.invariant hq fun h hst => hst.trans.quit_mono h
  refine ⟨hs'.awake hq', ?_⟩
  intro hys
  obtain ⟨-, hlen, hdead⟩ := hs.shutdown hq hy hys
  refine ⟨by omega, ?_⟩
  intro halive
  by_cases hr : s'.dtor = .returned
  · exact .inl hr
  · exact .inr (exists_step (hs'.quit.mp hq') hr (hdead.trans halive) (hs'.awake hq'))

/-- Two of three workers sleep, one of them is woken for the task. -/
def wakeRun : List Act := [.loop 0, .loop 1, .enqueue none (some 0)]

theorem no_lost_wakeup_three : ∃ s xs, Exec Step (start 3) xs s ∧ xs.map Prod.snd = wakeRun ∧
    s.workers = [.woken, .blocked, .start] ∧ s.tasks = [0] ∧
    (.blocked ∈ s.workers → s.quit = false ∧ s.tasks.length ≤ s.workers.countP Pc.awake) ∧
    (s.quit = true → ∀ ys s', Exec Step s ys s' →
      .blocked ∉ s'.workers ∧ ((∀ y ∈ ys, y.2.isEnqueue = false) → ys.length ≤ s.work ∧
        (s.dead = false → s'.dtor = .returned ∨ ∃ a s'', a.isEnqueue = false ∧ s'.Step a s''))) := by
  have hrun : (Exec.runs step? (start 3) wakeRun).any
      (fun s => s.workers = [.woken, .blocked, .start] ∧ s.tasks = [0]) := by decide
  obtain ⟨s, hs, hrun⟩ := (Option.any_eq_true ..).mp hrun
  obtain ⟨hw, ht⟩ := of_decide_eq_true hrun
  obtain ⟨xs, hx, hacts⟩ := Exec.of_runs step_of_step? hs
  exact ⟨s, xs, hx, hacts, hw, ht, no_lost_wakeup hx⟩

end
end Pool
end OnlineChat.ThreadPool
