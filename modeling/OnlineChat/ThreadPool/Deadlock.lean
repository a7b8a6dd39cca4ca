import OnlineChat.ThreadPool.Future

/-!
# Tasks that wait for tasks

A task that calls `get` keeps its worker. As long as tasks wait only for tasks that were accepted
before them, this is harmless, because the queue is first in, first out. Tasks that wait for the
tasks they have enqueued themselves can block the pool for good, whatever its size.
-/

namespace OnlineChat.ThreadPool
open Lib

namespace Pool
section
variable {s : Pool} {i n : Nat} {t u : TaskId} {xs : List (Pool × ThreadPool.Act)}

@[simp] theorem push_workers (ws : List Pc) : (s.push ws).workers = ws := rfl
@[simp] theorem push_tasks (ws : List Pc) : (s.push ws).tasks = s.tasks ++ [s.nextTask] := rfl
@[simp] theorem push_nextTask (ws : List Pc) : (s.push ws).nextTask = s.nextTask + 1 := rfl

/-- In the order of the numbers, the queue comes after what has been dequeued. -/
theorem lt_of_popped (hx : Exec Step (start n) xs s) (hu : u ∈ s.popped) (ht : t ∈ s.tasks) :
    u < t := by
  have hsorted : (s.popped ++ s.tasks).Pairwise (· < ·) := by
    rw [← (inv hx).fifo, pushed_eq hx]
    exact List.pairwise_lt_range
  exact (List.pairwise_append.mp hsorted).2.2 u hu t ht

theorem popped_of_running (hx : Exec Step (start n) xs s)
    (hi : s.workers[i]? = some (.running t)) : t ∈ s.popped := by
  obtain ⟨st, hst⟩ := @(inv hx).stage t
  rw [mem_popped, hst.history, Stage.eq_running ((hst.hand rfl).mp hi)]
  exact ⟨i, by simp [Stage.events]⟩

/-- A task that has been accepted and has not come to its end is in the queue or with a worker. -/
theorem with_worker (hx : Exec Step (start n) xs s) (ht : t < s.nextTask) (hr : t ∉ s.returned)
    (hq : t ∉ s.tasks) :
    ∃ i : Nat, s.workers[i]? = some (.holding t) ∨ s.workers[i]? = some (.running t) := by
  obtain ⟨st, hst⟩ := @(inv hx).stage t
  cases st with
  | unborn => exact absurd rfl (hst.born.mp ht)
  | queued => exact absurd (hst.queue.mpr rfl) hq
  | popped i => exact ⟨i, .inl ((hst.hand rfl).mpr rfl)⟩
  | running i => exact ⟨i, .inr ((hst.hand rfl).mpr rfl)⟩
  | ran i =>
    refine absurd (mem_returned.mpr ⟨i, ?_⟩) hr
    rw [hst.history]
    simp [Stage.events]

end
end Pool

namespace Futures
variable {ρ : Type}

/-- A step of a worker. -/
def Act.isWork : Act ρ → Bool
  | .pool a => a.isWork
  | .finish .. | .got _ => true
  | _ => false

/-- A task that calls `get` in this step was accepted after the task it waits for. -/
def Earlier (s : Futures ρ) : Act ρ → Prop
  | .get i t => ∀ pc ∈ s.pool.workers[i]?, ∀ u ∈ pc.task, t < u
  | _ => True

instance (s : Futures ρ) (a : Act ρ) : Decidable (s.Earlier a) := by
  unfold Earlier
  split <;> infer_instance

/-- Who waits, waits for an earlier task. -/
def Ordered (s : Futures ρ) : Prop :=
  ∀ i t u, s.waits i = some t → s.pool.workers[i]? = some (.running u) → t < u

/-- The workers that wait in `get`. -/
def waiting (n : Nat) (s : Futures ρ) : Finset Nat :=
  (Finset.range n).filter fun i => (s.waits i).isSome

section
variable {s s' : Futures ρ} {a : Act ρ} {i n : Nat} {t u : TaskId} {r : ρ}

theorem Inv.ordered_step (hs : s.Inv n) (ho : s.Ordered) (h : Trans s a s')
    (ha : s.Earlier a) : s'.Ordered := by
  -- a worker that waits runs the same task before and after the step
  have keep : ∀ {pool : Pool} {b : ThreadPool.Act}, s.pool.Step b pool →
      ∀ i t u, b ≠ .ret i → s.waits i = some t → pool.workers[i]? = some (.running u) → t < u := by
    intro pool b hst i t u hb hw hu
    obtain ⟨-, v, hv⟩ := hs.waits hw
    rw [hst.trans.running hb hv] at hu
    cases hu
    exact ho i t u hw hv
  cases h with
  | destroy => exact ho
  | @pool b pool hc hst =>
    intro i t u hw hu
    refine keep hst i t u ?_ hw hu
    rintro rfl
    exact hc
  | @finish j r v pool hj hfree hst =>
    intro i t u hw hu
    refine keep hst i t u ?_ hw hu
    rintro ⟨⟩
    rw [hfree] at hw
    cases hw
  | @terminate j r v pool hj hst ht =>
    obtain ⟨xs, hx⟩ := hs.reached
    obtain ⟨hret, hq⟩ := (Pool.inv hx).running hj
    exact absurd (hs.pending.mpr ⟨hret, fun _ => hq⟩) ht
  | @get j v t hj hfree ht =>
    intro i t' u hw hu
    rcases update_some_eq_some.mp hw with ⟨rfl, rfl⟩ | ⟨-, hw⟩
    · exact ha _ hu u rfl
    · exact ho i t' u hw hu
  | got hw ht =>
    intro i t' u hw hu
    exact ho i t' u (update_none_eq_some.mp hw).2 hu

theorem Inv.step_pool {b : ThreadPool.Act} {p : Pool} (hs : s.Inv n) (hst : s.pool.Step b p)
    (hc : s.CanStep b) : s.Step (.pool b) { s with pool := p } := by
  refine ⟨hs.terminated, hst.1, ?_⟩
  simp [step, hc, Pool.step?, hst.1, hst.2]

/-- Unless a running task waits in `get`, it can come to its end. -/
theorem Inv.step_finish (hs : s.Inv n) (hd : s.pool.dead = false)
    (hi : s.pool.workers[i]? = some (.running t)) (hw : s.waits i = none) (r : ρ) :
    ∃ s', s.Step (.finish i r) s' := by
  obtain ⟨p, hp⟩ : ∃ p, s.pool.step? (.ret i) = some p := by simp [Pool.step?, hd, Pool.step, hi]
  refine ⟨{ s.store t r with pool := p }, hs.terminated, hd, ?_⟩
  simp [step, hi, hw, hp]

/-- A worker that runs a task can go on, or one that runs or holds an earlier task. -/
theorem Inv.exists_work (hs : s.Inv n) (ho : s.Ordered) (hd : s.pool.dead = false) (r : ρ)
    (hi : s.pool.workers[i]? = some (.running u)) : ∃ a s', a.isWork ∧ s.Step a s' := by
  -- by induction on the task: the one it waits for is a smaller one
  induction u using Nat.strongRecOn generalizing i with
  | _ u ih =>
    cases hw : s.waits i with
    | none =>
      obtain ⟨s', hst⟩ := hs.step_finish hd hi hw r
      exact ⟨.finish i r, s', rfl, hst⟩
    | some t =>
      have hlt := ho i t u hw hi
      by_cases hp : s.shared t = .pending
      · obtain ⟨xs, hx⟩ := hs.reached
        have hret := (hs.pending.mp hp).1
        have hpop : u ∈ s.pool.popped := Pool.popped_of_running hx hi
        have hq : t ∉ s.pool.tasks := fun ht => Nat.lt_asymm hlt (Pool.lt_of_popped hx hpop ht)
        obtain ⟨j, hj | hj⟩ := Pool.with_worker hx (hs.waits hw).1 hret hq
        · exact ⟨_, _, rfl, hs.step_pool (Pool.step_call hd hj) trivial⟩
        · exact ih t hlt hj
      · refine ⟨.got i, { s with waits := Function.update s.waits i none }, rfl, hs.terminated, hd, ?_⟩
        simp only [step, hw, if_neg hp]

theorem waiting_got (hw : s.waits i = some t) (hi : i < n) :
    (waiting n { s with waits := Function.update s.waits i none }).card + 1 = (s.waiting n).card := by
  have hmem : i ∈ s.waiting n := by simp [waiting, hi, hw]
  have herase : waiting n { s with waits := Function.update s.waits i none } =
      (s.waiting n).erase i := by
    ext j
    by_cases hj : j = i <;> simp [waiting, hj]
  rw [herase, Finset.card_erase_add_one hmem]

/-- A step of a worker uses up credit, or it ends a wait. -/
theorem Inv.work (hs : s.Inv n) (h : Trans s a s') (ha : a.isWork) :
    s'.pool.credit + (s'.waiting n).card + 1 = s.pool.credit + (s.waiting n).card ∧
    s'.pool.pushed = s.pool.pushed ∧ s'.pool.dead = s.pool.dead := by
  cases h with
  | get | destroy => cases ha
  | pool hc hst =>
    obtain ⟨hcredit, hpushed, hdead⟩ := hst.trans.work ha
    refine ⟨?_, hpushed, hdead⟩
    rw [← hcredit]
    exact Nat.add_right_comm ..
  | finish hi hw hst | terminate hi hst =>
    obtain ⟨hcredit, hpushed, hdead⟩ := hst.trans.work rfl
    refine ⟨?_, hpushed, hdead⟩
    rw [← hcredit]
    exact Nat.add_right_comm ..
  | @got i t hw ht =>
    obtain ⟨xs, hx⟩ := hs.reached
    obtain ⟨-, u, hu⟩ := hs.waits hw
    have hlt := (List.getElem?_eq_some_iff.mp hu).1
    rw [(Pool.joinOk hx).length] at hlt
    have hcard := waiting_got hw hlt
    refine ⟨?_, rfl, rfl⟩
    rw [← hcard]
    rfl

/-- The workers alone. -/
theorem Inv.work_run {xs : List (Futures ρ × Act ρ)} (hs : s.Inv n) (ho : s.Ordered)
    (hx : Exec Step s xs s') (hxs : ∀ x ∈ xs, x.2.isWork) :
    s'.Inv n ∧ s'.Ordered ∧
    s'.pool.credit + (s'.waiting n).card + xs.length = s.pool.credit + (s.waiting n).card ∧
    s'.pool.pushed = s.pool.pushed ∧ s'.pool.dead = s.pool.dead := by
  induction hx with
  | nil => exact ⟨hs, ho, rfl, rfl, rfl⟩
  | @snoc xs v a w hx hst ih =>
    obtain ⟨hv, hov, hlen, hpushed, hdead⟩ := ih fun x hx => hxs x (List.mem_append_left _ hx)
    have ha : a.isWork = true := hxs (v, a) (by simp)
    obtain ⟨hc, hp, hd⟩ := hv.work hst.trans ha
    refine ⟨hv.trans hst.trans, hv.ordered_step hov hst.trans ?_, ?_, hp.trans hpushed,
      hd.trans hdead⟩
    · cases a with
      | get => cases ha
      | pool | finish | got | destroy => trivial
    · rw [List.length_append, List.length_singleton]
      omega

theorem ordered {xs : List (Futures ρ × Act ρ)} (hx : Exec Step (start n) xs s)
    (hxs : ∀ x ∈ xs, x.1.Earlier x.2) : s.Ordered := by
  have hinv : s.Inv n ∧ s.Ordered := by
    refine hx.invariant_of (C := Earlier) (P := fun s => s.Inv n ∧ s.Ordered) hxs
      ⟨start_inv n, ?_⟩ ?_
    · intro i t u hw
      cases hw
    · rintro s a s' ⟨hs, ho⟩ ha hst
      exact ⟨hs.trans hst.trans, hs.ordered_step ho hst.trans ha⟩
  exact hinv.2

/-- The future of a task that has come to its end is ready once the queue is empty. -/
theorem Inv.ready (hs : s.Inv n) (hq : s.pool.tasks = [])
    (hi : .returned i t ∈ s.pool.trace) : ∃ r, s.shared t = .ready r := by
  have hmem : t ∈ s.pool.returned := List.mem_filterMap.mpr ⟨_, hi, rfl⟩
  cases hsh : s.shared t with
  | ready r => exact ⟨r, rfl⟩
  | pending => exact absurd hmem (hs.pending.mp hsh).1
  | broken =>
    have hmem := (hs.broken.mp hsh).2
    rw [hq] at hmem
    cases hmem

/-- Where tasks have waited for earlier tasks only, the workers are never stuck: each of their steps
uses up one of the units that are left, some step is possible until there are none, and then every
future holds its result. -/
theorem waits_settle [Nonempty ρ] {xs : List (Futures ρ × Act ρ)} (hn : 0 < n)
    (hx : Exec Step (start n) xs s) (hxs : ∀ x ∈ xs, x.1.Earlier x.2) (hd : s.pool.dead = false) :
    ∀ ys s', Exec Step s ys s' → (∀ y ∈ ys, y.2.isWork) →
      s'.pool.credit + (s'.waiting n).card + ys.length = s.pool.credit + (s.waiting n).card ∧
      ((∃ a s'', a.isWork ∧ s'.Step a s'') ↔ s'.pool.credit + (s'.waiting n).card ≠ 0) ∧
      (s'.pool.credit + (s'.waiting n).card = 0 →
        ∀ t ∈ s.pool.pushed, ∃ r, s'.shared t = .ready r) := by
  intro ys s' hy hys
  obtain ⟨hs', ho', hlen, hpushed, hdead⟩ := (inv hx).work_run (ordered hx hxs) hy hys
  obtain ⟨r⟩ := ‹Nonempty ρ›
  obtain ⟨zs, hz⟩ := hs'.reached
  refine ⟨hlen, ⟨?_, ?_⟩, ?_⟩
  · rintro ⟨a, s'', ha, hst⟩
    have hwork := (hs'.work hst.trans ha).1
    omega
  · intro hunits
    by_cases hc : s'.pool.credit = 0
    · -- nobody has anything to do but to wait, so somebody's wait is over
      have hcard : (s'.waiting n).card ≠ 0 := by omega
      obtain ⟨i, hi⟩ := Finset.card_ne_zero.mp hcard
      obtain ⟨t, hw⟩ := Option.isSome_iff_exists.mp (Finset.mem_filter.mp hi).2
      obtain ⟨-, u, hu⟩ := hs'.waits hw
      exact hs'.exists_work ho' (hdead.trans hd) r hu
    · obtain ⟨a, p, ha, hst⟩ := (Pool.works_iff hn hz (hdead.trans hd)).mpr hc
      cases a with
      | enqueue | spurious | quit | join => cases ha
      | loop i => exact ⟨_, _, rfl, hs'.step_pool hst trivial⟩
      | call i => exact ⟨_, _, rfl, hs'.step_pool hst trivial⟩
      | ret i =>
        cases hst.trans with
        | ret hi => exact hs'.exists_work ho' hst.1 r hi
  · intro hunits t ht
    obtain ⟨hq, hret⟩ := (Pool.inv hz).all_ran (by omega)
    obtain ⟨i, hi⟩ := hret t (hpushed ▸ ht)
    exact hs'.ready hq hi

/-- The second worker waits for the task of the first. -/
def waitRun : List (Act Nat) :=
  [.pool (.enqueue none none), .pool (.loop 0), .pool (.enqueue none none), .pool (.loop 1),
    .pool (.call 1), .get 1 0]

theorem waits_settle_two : ∃ s xs, Exec Step (start 2) xs s ∧ xs.map Prod.snd = waitRun ∧
    s.pool.workers = [.holding 0, .running 1] ∧ s.waits 1 = some 0 ∧
    ∀ ys s', Exec Step s ys s' → (∀ y ∈ ys, y.2.isWork) →
      s'.pool.credit + (s'.waiting 2).card + ys.length = s.pool.credit + (s.waiting 2).card ∧
      ((∃ a s'', a.isWork ∧ s'.Step a s'') ↔ s'.pool.credit + (s'.waiting 2).card ≠ 0) ∧
      (s'.pool.credit + (s'.waiting 2).card = 0 →
        ∀ t ∈ s.pool.pushed, ∃ r, s'.shared t = .ready r) := by
  have hrun : (Exec.runs (fun s a => if s.Earlier a then s.step? a else none) (start 2) waitRun).any
      (fun s => s.pool.workers = [.holding 0, .running 1] ∧ s.waits 1 = some 0 ∧
        s.pool.dead = false) := by decide
  obtain ⟨s, hs, hrun⟩ := (Option.any_eq_true ..).mp hrun
  obtain ⟨hw, hwait, hd⟩ := of_decide_eq_true hrun
  obtain ⟨xs, hx, hacts, hxs⟩ := Exec.of_runs_guarded step_of_step? hs
  exact ⟨s, xs, hx, hacts, hw, hwait, waits_settle (by decide) hx hxs hd⟩

/-! ## Nested waits -/

theorem Trans.returned (h : Trans s a s') (ha : ∀ i r, a ≠ .finish i r) :
    s'.pool.returned = s.pool.returned := by
  cases h with
  | get | got | destroy => rfl
  | finish | terminate => exact absurd rfl (ha _ _)
  | @pool b p hc hst =>
    apply hst.trans.returned
    rintro i rfl
    exact hc

/-- Every worker runs a task that waits for one in the queue. -/
def Jammed (n : Nat) (s : Futures ρ) : Prop :=
  ∀ i < n, ∃ u t, s.pool.workers[i]? = some (.running u) ∧ s.waits i = some t ∧ t ∈ s.pool.tasks

/-- A jammed pool stays jammed, whatever is done. -/
theorem Inv.jammed_step (hs : s.Inv n) (hn : 0 < n) (hj : s.Jammed n) (h : Trans s a s') :
    s'.Jammed n ∧ s'.pool.returned = s.pool.returned := by
  obtain ⟨xs, hx⟩ := hs.reached
  have hjoin := Pool.joinOk hx
  have hrun : ∀ {i : Nat} {pc : Pc}, s.pool.workers[i]? = some pc →
      ∃ u t, pc = .running u ∧ s.waits i = some t ∧ t ∈ s.pool.tasks := by
    intro i pc hi
    have hlt := (List.getElem?_eq_some_iff.mp hi).1
    rw [hjoin.length] at hlt
    obtain ⟨u, t, hu, hw, ht⟩ := hj i hlt
    rw [hi] at hu
    exact ⟨u, t, Option.some.inj hu, hw, ht⟩
  have hreturned : s.pool.dtor ≠ .returned := by
    intro hr
    obtain ⟨u, t, hu, -⟩ := hj 0 hn
    rw [hjoin.all_exited hr hn] at hu
    cases hu
  cases h with
  | destroy hr => exact absurd hr hreturned
  | got hw ht =>
    obtain ⟨-, u, hu⟩ := hs.waits hw
    obtain ⟨-, t, -, hw', hq⟩ := hrun hu
    rw [hw] at hw'
    cases hw'
    refine absurd (hs.pending.mpr ⟨(Pool.inv hx).queued hq, ?_⟩) ht
    intro hd
    exact absurd (hs.destroyed hd) hreturned
  | finish hi hw | get hi hw =>
    obtain ⟨-, t, -, hw', -⟩ := hrun hi
    rw [hw] at hw'
    cases hw'
  | terminate hi hst ht =>
    obtain ⟨hret, hq⟩ := (Pool.inv hx).running hi
    exact absurd (hs.pending.mpr ⟨hret, fun _ => hq⟩) ht
  | @pool b p hc hst =>
    have hnr : ∀ i, b ≠ .ret i := by
      rintro i rfl
      exact hc
    refine ⟨?_, hst.trans.returned hnr⟩
    have htasks : ∀ t ∈ s.pool.tasks, t ∈ p.tasks := by
      intro t ht
      cases hst.trans with
      | push => exact List.mem_append_left _ ht
      | die | join | done | quit | block | exit | wake | call | ret => exact ht
      | pop hi ha =>
        obtain ⟨u, -, rfl, -⟩ := hrun hi
        cases ha
    intro i hi
    obtain ⟨u, t, hu, hw, ht⟩ := hj i hi
    exact ⟨u, t, hst.trans.running (hnr i) hu, hw, htasks t ht⟩

theorem Inv.jammed_run {ys : List (Futures ρ × Act ρ)} (hs : s.Inv n) (hn : 0 < n)
    (hj : s.Jammed n) (hy : Exec Step s ys s') :
    s'.pool.returned = s.pool.returned ∧ s'.pool.dtor ≠ .returned := by
  obtain ⟨hs', hj', hret⟩ := hy.invariant
    (P := fun v => v.Inv n ∧ v.Jammed n ∧ v.pool.returned = s.pool.returned) ⟨hs, hj, rfl⟩ (by
      rintro v a w ⟨hv, hjv, hret⟩ hst
      obtain ⟨hjw, hretw⟩ := hv.jammed_step hn hjv hst.trans
      exact ⟨hv.trans hst.trans, hjw, hretw.trans hret⟩)
  refine ⟨hret, ?_⟩
  intro hr
  obtain ⟨xs, hx⟩ := hs'.reached
  obtain ⟨u, t, hu, -⟩ := hj' 0 hn
  rw [(Pool.joinOk hx).all_exited hr hn] at hu
  cases hu

/-- A task is accepted, and the worker `i` calls it. -/
def fill (i : Nat) : List (Act ρ) :=
  [.pool (.enqueue none none), .pool (.loop i), .pool (.call i)]

/-- The task of the worker `i`, one of the first `n`, enqueues a task and waits for it. -/
def nest (n i : Nat) : List (Act ρ) := [.pool (.enqueue (some i) none), .get i (n + i)]

/-- Every worker gets such a task. -/
def nestedRun (n : Nat) : List (Act ρ) :=
  (List.range n).flatMap fill ++ (List.range n).flatMap (nest n)

/-- The workers from `0` to `k` run the tasks with these numbers, `k` of the others wait for a task
in the queue, and nothing else has happened. -/
structure Nested (n k l : Nat) (s : Futures ρ) : Prop where
  inv : s.Inv n
  quit : s.pool.quit = false
  dead : s.pool.dead = false
  nextTask : s.pool.nextTask = k + l
  workers : ∀ i < n, s.pool.workers[i]? = some (if i < k then .running i else .start)
  waits : ∀ i < n, s.waits i = if i < l then some (n + i) else none
  tasks : s.pool.tasks = (List.range l).map (n + ·)
  returned : s.pool.returned = []

theorem Nested.awake {k l : Nat} (h : Nested n k l s) : .blocked ∉ s.pool.workers := by
  intro hb
  obtain ⟨i, hi⟩ := List.mem_iff_getElem?.mp hb
  obtain ⟨xs, hx⟩ := h.inv.reached
  have hlt := (List.getElem?_eq_some_iff.mp hi).1
  rw [(Pool.joinOk hx).length] at hlt
  rw [h.workers i hlt] at hi
  split at hi <;> cases hi

theorem Nested.push {k l : Nat} (h : Nested n k l s) (who : Option Nat)
    (hwho : s.pool.CanEnqueue who) (hw : ∀ i ∈ who, s.waits i = none) :
    s.Step (.pool (.enqueue who none)) { s with pool := s.pool.push s.pool.workers } := by
  refine h.inv.step_pool ⟨h.dead, ?_⟩ hw
  simp [Pool.step, hwho, Pool.enqueue, h.quit, notifyOne, h.awake]

theorem Nested.canEnqueue {k l : Nat} (h : Nested n k l s) : s.pool.dtor ≠ .returned := by
  obtain ⟨xs, hx⟩ := h.inv.reached
  intro hr
  have hq := ((Pool.start_sleepOk n).exec hx).quit.mpr (by simp [hr])
  rw [h.quit] at hq
  cases hq

theorem Nested.live {k l : Nat} (h : Nested n k l s) : s.pool.Live n :=
  ⟨h.inv.reached, h.quit, h.dead⟩

theorem Nested.fill {k : Nat} (h : Nested n k 0 s) (hk : k < n) :
    ∃ xs s', Exec Step s xs s' ∧ xs.map Prod.snd = fill k ∧ Nested n (k + 1) 0 s' := by
  have hpush := h.push none ⟨h.canEnqueue, by simp⟩ (by simp)
  have hs₁ := h.inv.trans hpush.trans
  have hwk : s.pool.workers[k]? = some .start := by simpa using h.workers k hk
  have hnext : s.pool.nextTask = k := h.nextTask
  have htasks : (s.pool.push s.pool.workers).tasks = [k] := by
    rw [Pool.push_tasks, h.tasks, hnext]
    rfl
  have hlive : (s.pool.push s.pool.workers).Live n := ⟨hs₁.reached, h.quit, h.dead⟩
  have hpop := hs₁.step_pool (hlive.pop hwk rfl htasks) trivial
  have hs₂ := hs₁.trans hpop.trans
  have hwk₂ : (s.pool.workers.set k (.holding k))[k]? = some (.holding k) :=
    (set_eq_some hwk).mpr (.inl ⟨rfl, rfl⟩)
  have hcall := hs₂.step_pool (Pool.step_call h.dead hwk₂) trivial
  refine ⟨_, _, ((Exec.single hpush).snoc hpop).snoc hcall, rfl, hs₂.trans hcall.trans, h.quit,
    h.dead, ?_, ?_, h.waits, rfl, ?_⟩
  · exact congrArg (· + 1) h.nextTask
  · intro i hi
    refine (set_eq_some hwk₂).mpr ?_
    by_cases hik : i = k
    · refine .inl ⟨hik, ?_⟩
      rw [hik, if_pos (Nat.lt_succ_self k)]
    · refine .inr ⟨hik, (set_eq_some hwk).mpr (.inr ⟨hik, ?_⟩)⟩
      rw [h.workers i hi]
      by_cases hlt : i < k
      · rw [if_pos hlt, if_pos (Nat.lt_succ_of_lt hlt)]
      · rw [if_neg hlt, if_neg (by omega)]
  · rw [hcall.trans.returned (by simp), hpop.trans.returned (by simp),
      hpush.trans.returned (by simp), h.returned]

theorem Nested.nest {k : Nat} (h : Nested n n k s) (hk : k < n) :
    ∃ xs s', Exec Step s xs s' ∧ xs.map Prod.snd = nest n k ∧ Nested n n (k + 1) s' := by
  have hwk : s.pool.workers[k]? = some (.running k) := by
    rw [h.workers k hk, if_pos hk]
  have hfree : s.waits k = none := by
    rw [h.waits k hk, if_neg (Nat.lt_irrefl k)]
  have hpush := h.push (some k) ⟨h.canEnqueue, by simp [hwk]⟩ (by simp [hfree])
  have hs₁ := h.inv.trans hpush.trans
  have hget : Step { s with pool := s.pool.push s.pool.workers } (.get k (n + k))
      { s with pool := s.pool.push s.pool.workers
               waits := Function.update s.waits k (some (n + k)) } := by
    refine ⟨hs₁.terminated, h.dead, ?_⟩
    have hlt : n + k < s.pool.nextTask + 1 := by
      rw [h.nextTask]
      exact Nat.lt_succ_self _
    simp [step, hwk, hfree, hlt]
  refine ⟨_, _, (Exec.single hpush).snoc hget, rfl, hs₁.trans hget.trans, h.quit, h.dead, ?_,
    h.workers, ?_, ?_, ?_⟩
  · exact congrArg (· + 1) h.nextTask
  · intro i hi
    by_cases hik : i = k
    · simp [hik]
    · show Function.update s.waits k (some (n + k)) i = _
      rw [Function.update_of_ne hik, h.waits i hi]
      by_cases hlt : i < k
      · rw [if_pos hlt, if_pos (Nat.lt_succ_of_lt hlt)]
      · rw [if_neg hlt, if_neg (by omega)]
  · rw [Pool.push_tasks, h.tasks, h.nextTask, List.range_succ, List.map_append]
    rfl
  · rw [hget.trans.returned (by simp), hpush.trans.returned (by simp), h.returned]

/-- A run of `m` turns. -/
theorem exec_turns {P : Nat → Futures ρ → Prop} {f : Nat → List (Act ρ)} {m : Nat}
    (hP : ∀ k < m, ∀ s, P k s → ∃ xs s', Exec Step s xs s' ∧ xs.map Prod.snd = f k ∧ P (k + 1) s')
    (hs : P 0 s) :
    ∃ xs s', Exec Step s xs s' ∧ xs.map Prod.snd = (List.range m).flatMap f ∧ P m s' := by
  induction m with
  | zero => exact ⟨[], s, .nil, rfl, hs⟩
  | succ m ih =>
    obtain ⟨xs, t, hx, hxs, ht⟩ := ih fun k hk => hP k (Nat.lt_succ_of_lt hk)
    obtain ⟨ys, u, hy, hys, hu⟩ := hP m (Nat.lt_succ_self m) t ht
    refine ⟨xs ++ ys, u, hx.trans hy, ?_, hu⟩
    rw [List.map_append, hxs, hys, List.range_succ, List.flatMap_append, List.flatMap_singleton]

/-- However many workers there are, so many tasks that each wait for a task they have enqueued block
the pool: from then on no task comes to its end any more, and the destructor does not return. -/
theorem nested_waits (hn : 0 < n) : ∃ (s : Futures ρ) (xs : _), Exec Step (start n) xs s ∧
    xs.map Prod.snd = nestedRun n ∧
    ∀ ys s', Exec Step s ys s' → s'.pool.returned = [] ∧ s'.pool.dtor ≠ .returned := by
  have hstart : Nested n 0 0 (start n : Futures ρ) := by
    refine ⟨start_inv n, rfl, rfl, rfl, ?_, fun _ _ => rfl, rfl, rfl⟩
    intro i hi
    simp [start, Pool.start, hi]
  obtain ⟨xs, s, hx, hxs, hs⟩ := exec_turns (m := n) (P := fun k s => Nested n k 0 s)
    (fun k hk s h => h.fill hk) hstart
  obtain ⟨ys, t, hy, hys, ht⟩ := exec_turns (m := n) (P := fun k s => Nested n n k s)
    (fun k hk s h => h.nest hk) hs
  refine ⟨t, xs ++ ys, hx.trans hy, ?_, ?_⟩
  · rw [List.map_append, hxs, hys, nestedRun]
  · intro zs v hz
    have hjam : t.Jammed n := by
      intro i hi
      refine ⟨i, n + i, ?_, ?_, ?_⟩
      · rw [ht.workers i hi, if_pos hi]
      · rw [ht.waits i hi, if_pos hi]
      · rw [ht.tasks]
        exact List.mem_map_of_mem (List.mem_range.mpr hi)
    obtain ⟨hret, hdtor⟩ := ht.inv.jammed_run hn hjam hz
    exact ⟨hret.trans ht.returned, hdtor⟩

theorem nested_waits_three : ∃ (s : Futures Nat) (xs : _), Exec Step (start 3) xs s ∧
    xs.map Prod.snd = nestedRun 3 ∧
    ∀ ys s', Exec Step s ys s' → s'.pool.returned = [] ∧ s'.pool.dtor ≠ .returned :=
  nested_waits (by decide)

end
end Futures
end OnlineChat.ThreadPool
