import OnlineChat.ThreadPool.Progress
import OnlineChat.ThreadPool.Refinement

/-!
# The futures that `enqueue` returns

The `packaged_task` of a task stores what its function returns or throws in the shared state of the
future. Running tasks may wait in `get`, which blocks their worker. The last part of `~ThreadPool`,
after its body, destroys the queue and with it what is still in it.
-/

namespace OnlineChat.ThreadPool
open Lib

/-- The shared state of a `packaged_task` and its future. -/
inductive Shared (ρ : Type)
  | pending
  /-- What the function has returned or thrown. -/
  | ready (r : ρ)
  /-- The `packaged_task` was destroyed without having been called. -/
  | broken
  deriving DecidableEq

instance {ρ : Type} : (x : Shared ρ) → Decidable (x = .pending)
  | .pending => isTrue rfl
  | .ready _ => isFalse (by simp)
  | .broken => isFalse (by simp)

namespace Pool
section
variable {s s' : Pool} {a : Act} {i j n : Nat} {t u : TaskId}

theorem mem_returned : t ∈ s.returned ↔ ∃ i, .returned i t ∈ s.history t := by
  simp only [returned, history, List.mem_filterMap, List.mem_filter]
  constructor
  · rintro ⟨e, he, ht⟩
    cases e <;> cases ht
    exact ⟨_, he, by simp [Event.task]⟩
  · rintro ⟨i, hi, -⟩
    exact ⟨_, hi, rfl⟩

theorem returned_log (s : Pool) (e : Event) :
    (s.log e).returned = s.returned ++ e.returned?.toList := by
  simp only [returned, log_trace, List.filterMap_append]
  cases e <;> rfl

/-- A running task has not come to its end, and it is not in the queue. -/
theorem Inv.running (hs : s.Inv) (hi : s.workers[i]? = some (.running t)) :
    t ∉ s.returned ∧ t ∉ s.tasks := by
  obtain ⟨st, hst⟩ := @hs.stage t
  cases Stage.eq_running ((hst.hand rfl).mp hi)
  constructor
  · rw [mem_returned, hst.history]
    rintro ⟨j, hj⟩
    simp [Stage.events] at hj
  · rw [hst.queue]
    intro hq
    cases hq

theorem Inv.queued (hs : s.Inv) (ht : t ∈ s.tasks) : t ∉ s.returned := by
  obtain ⟨st, hst⟩ := @hs.stage t
  rw [mem_returned, hst.history, hst.queue.mp ht]
  rintro ⟨j, hj⟩
  simp [Stage.events] at hj

theorem Step.ret (h : s.Step (.ret i) s') (hi : s.workers[i]? = some (.running t)) :
    s' = (s.move i .start).log (.returned i t) := by
  cases h.trans with
  | ret hi' =>
    rw [hi] at hi'
    cases hi'
    rfl

theorem Trans.returned (h : Trans s a s') (ha : ∀ i, a ≠ .ret i) : s'.returned = s.returned := by
  cases h with
  | die | join | done | quit | block | exit | wake => rfl
  | push | pop | call => exact (returned_log ..).trans (List.append_nil _)
  | ret => exact absurd rfl (ha _)

/-- Only the end of its task changes a worker that runs one. -/
theorem Trans.running (h : Trans s a s') (ha : a ≠ .ret i)
    (hi : s.workers[i]? = some (.running t)) : s'.workers[i]? = some (.running t) := by
  cases h with
  | die | join | done => exact hi
  | push _ _ hn => exact (notifyOne_other _ hn (by simp) (by simp)).mpr hi
  | quit => exact (notifyAll_other _ (by simp) (by simp)).mpr hi
  | block hj hb | pop hj hb | exit hj hb =>
    exact (set_other _ hj (ne_of_awake hb rfl) (by simp)).mpr hi
  | wake hj | call hj =>
    refine (set_eq_some hj).mpr (.inr ⟨?_, hi⟩)
    rintro rfl
    rw [hj] at hi
    cases hi
  | @ret j u hj =>
    refine (set_eq_some hj).mpr (.inr ⟨?_, hi⟩)
    rintro rfl
    exact ha rfl

theorem Trans.nextTask_le (h : Trans s a s') : s.nextTask ≤ s'.nextTask := by
  cases h with
  | push => exact Nat.le_succ _
  | die | join | done | quit | block | exit | wake | pop | call | ret => exact Nat.le_refl _

/-- Once the destructor has joined all workers, the pool does nothing more. -/
theorem Trans.settled (h : Trans s a s') (hj : s.JoinOk n) (hr : s.dtor = .returned) :
    s'.tasks = s.tasks ∧ s'.dtor = .returned := by
  have hall : ∀ {i : Nat} {pc : Pc}, s.workers[i]? = some pc → pc = .exited := by
    intro i pc hi
    have hlt := (List.getElem?_eq_some_iff.mp hi).1
    rw [hj.length] at hlt
    rw [hj.all_exited hr hlt] at hi
    exact (Option.some.inj hi).symm
  cases h with
  | push _ hd => exact absurd hr hd
  | die => exact ⟨rfl, hr⟩
  | quit hd | join hd | done hd =>
    rw [hr] at hd
    cases hd
  | block hi ha | exit hi ha | pop hi ha =>
    cases hall hi
    cases ha
  | wake hi | call hi | ret hi => cases hall hi

end
end Pool

structure Futures (ρ : Type) where
  pool : Pool
  shared : TaskId → Shared ρ
  /-- The task whose future the worker waits for in `get`. -/
  waits : Nat → Option TaskId
  /-- An exception has left the function of a worker, which ends the process. -/
  terminated : Bool
  /-- The members of the pool have been destroyed. -/
  destroyed : Bool

namespace Futures

inductive Act (ρ : Type)
  /-- A step that ends no task. -/
  | pool (a : ThreadPool.Act)
  /-- The function of the worker's task returns or throws `r`. -/
  | finish (i : Nat) (r : ρ)
  /-- The task of the worker `i` calls `get` of the future of `t`. -/
  | get (i : Nat) (t : TaskId)
  /-- `get` returns or throws. -/
  | got (i : Nat)
  /-- The members are destroyed. -/
  | destroy
  deriving DecidableEq

variable {ρ : Type}

def start (n : Nat) : Futures ρ :=
  { pool := .start n, shared := fun _ => .pending, waits := fun _ => none, terminated := false,
    destroyed := false }

variable (s : Futures ρ)

/-- `operator()` of the `packaged_task`: a second call throws `promise_already_satisfied`. -/
def store (t : TaskId) (r : ρ) : Futures ρ :=
  match s.shared t with
  | .pending => { s with shared := Function.update s.shared t (.ready r) }
  | _ => { s with terminated := true }

/-- The destructor of `tasks`. -/
def destroy : Futures ρ :=
  { s with
    shared := fun t =>
      if t ∈ s.pool.tasks ∧ s.shared t = .pending then .broken else s.shared t
    destroyed := true }

/-- Who is about to do a step: a worker that waits in `get` neither ends its task nor calls
`enqueue` from it. -/
def CanStep : ThreadPool.Act → Prop
  | .ret _ => False
  | .enqueue who _ => ∀ i ∈ who, s.waits i = none
  | _ => True

instance (a) : Decidable (s.CanStep a) := by
  unfold CanStep
  split <;> infer_instance

def step : Act ρ → Option (Futures ρ)
  | .pool a => if s.CanStep a then (s.pool.step? a).map fun pool => { s with pool } else none
  | .finish i r =>
    match s.pool.workers[i]? with
    | some (.running t) =>
      if s.waits i = none then (s.pool.step? (.ret i)).map fun pool => { s.store t r with pool }
      else none
    | _ => none
  | .get i t =>
    match s.pool.workers[i]? with
    | some (.running _) =>
      if s.waits i = none ∧ t < s.pool.nextTask then
        some { s with waits := Function.update s.waits i (some t) }
      else none
    | _ => none
  | .got i =>
    match s.waits i with
    | some t =>
      if s.shared t = .pending then none
      else some { s with waits := Function.update s.waits i none }
    | none => none
  | .destroy => if s.pool.dtor = .returned ∧ s.destroyed = false then some s.destroy else none

/-- A step of a process that is still running. -/
def Step (a : Act ρ) (s' : Futures ρ) : Prop :=
  s.terminated = false ∧ s.pool.dead = false ∧ s.step a = some s'

def step? (a : Act ρ) : Option (Futures ρ) :=
  if s.terminated || s.pool.dead then none else s.step a

theorem step_of_step? {s s' : Futures ρ} {a : Act ρ} (h : s.step? a = some s') : s.Step a s' := by
  simpa [step?, Step, and_assoc] using h

/-! ## What a step does -/

inductive Trans (s : Futures ρ) : Act ρ → Futures ρ → Prop
  | pool {a pool} (hc : s.CanStep a) (h : s.pool.Step a pool) :
      Trans s (.pool a) { s with pool }
  | finish {i r t pool} (hi : s.pool.workers[i]? = some (.running t)) (hw : s.waits i = none)
      (h : s.pool.Step (.ret i) pool) (ht : s.shared t = .pending) :
      Trans s (.finish i r) { s with pool, shared := Function.update s.shared t (.ready r) }
  | terminate {i r t pool} (hi : s.pool.workers[i]? = some (.running t))
      (h : s.pool.Step (.ret i) pool) (ht : s.shared t ≠ .pending) :
      Trans s (.finish i r) { s with pool, terminated := true }
  | get {i u t} (hi : s.pool.workers[i]? = some (.running u)) (hw : s.waits i = none)
      (ht : t < s.pool.nextTask) :
      Trans s (.get i t) { s with waits := Function.update s.waits i (some t) }
  | got {i t} (hw : s.waits i = some t) (ht : s.shared t ≠ .pending) :
      Trans s (.got i) { s with waits := Function.update s.waits i none }
  | destroy (hr : s.pool.dtor = .returned) (hd : s.destroyed = false) :
      Trans s .destroy s.destroy

section
variable {s s' : Futures ρ} {a : Act ρ} {i n : Nat} {t u : TaskId} {r : ρ}

theorem Step.trans (h : s.Step a s') : Trans s a s' := by
  obtain ⟨-, -, h⟩ := h
  cases a with
  | pool a =>
    simp only [step, Option.ite_none_right_eq_some, Option.map_eq_some_iff] at h
    obtain ⟨hc, pool, hp, rfl⟩ := h
    exact .pool hc (Pool.step_of_step? hp)
  | finish i r =>
    simp only [step] at h
    split at h
    next t hi =>
      simp only [Option.ite_none_right_eq_some, Option.map_eq_some_iff] at h
      obtain ⟨hw, pool, hp, rfl⟩ := h
      unfold store
      split
      next ht => exact .finish hi hw (Pool.step_of_step? hp) ht
      next ht => exact .terminate hi (Pool.step_of_step? hp) ht
    · cases h
  | get i t =>
    simp only [step] at h
    split at h
    next u hi =>
      simp only [Option.ite_none_right_eq_some, Option.some.injEq] at h
      obtain ⟨⟨hw, ht⟩, rfl⟩ := h
      exact .get hi hw ht
    · cases h
  | got i =>
    simp only [step] at h
    split at h
    next t hw =>
      simp only [Option.ite_none_left_eq_some, Option.some.injEq] at h
      obtain ⟨ht, rfl⟩ := h
      exact .got hw ht
    · cases h
  | destroy =>
    simp only [step, Option.ite_none_right_eq_some, Option.some.injEq] at h
    obtain ⟨⟨hr, hd⟩, rfl⟩ := h
    exact .destroy hr hd

/-! ## What a future holds -/

/-- What is said of the futures in every state: pending are those of the tasks that can still come
to their end, broken those of the tasks that were destroyed with the queue. -/
structure Inv (n : Nat) (s : Futures ρ) : Prop where
  reached : ∃ xs, Exec Pool.Step (.start n) xs s.pool
  terminated : s.terminated = false
  pending {t : TaskId} : s.shared t = .pending ↔
    t ∉ s.pool.returned ∧ (s.destroyed = true → t ∉ s.pool.tasks)
  broken {t : TaskId} : s.shared t = .broken ↔ s.destroyed = true ∧ t ∈ s.pool.tasks
  destroyed : s.destroyed = true → s.pool.dtor = .returned
  waits {i : Nat} {t : TaskId} : s.waits i = some t →
    t < s.pool.nextTask ∧ ∃ u, s.pool.workers[i]? = some (.running u)

theorem Inv.trans (hs : s.Inv n) (h : Trans s a s') : s'.Inv n := by
  obtain ⟨xs, hx⟩ := hs.reached
  have hpool := Pool.inv hx
  have hjoin := Pool.joinOk hx
  cases h with
  | terminate hi _ ht =>
    obtain ⟨hret, hq⟩ := hpool.running hi
    exact absurd (hs.pending.mpr ⟨hret, fun _ => hq⟩) ht
  | @pool a pool hc h =>
    have hnr : ∀ i, a ≠ .ret i := by
      rintro i rfl
      exact hc
    have hret := h.trans.returned hnr
    have htasks : s.destroyed = true → pool.tasks = s.pool.tasks := fun hd =>
      (h.trans.settled hjoin (hs.destroyed hd)).1
    refine ⟨⟨_, hx.snoc h⟩, hs.terminated, ?_, ?_, ?_, ?_⟩
    · intro t
      rw [hs.pending, hret]
      exact and_congr_right fun _ => forall_congr' fun hd => by rw [htasks hd]
    · intro t
      rw [hs.broken]
      exact and_congr_right fun hd => by rw [htasks hd]
    · intro hd
      exact (h.trans.settled hjoin (hs.destroyed hd)).2
    · intro i t hw
      obtain ⟨hlt, u, hu⟩ := hs.waits hw
      exact ⟨Nat.lt_of_lt_of_le hlt h.trans.nextTask_le, u, h.trans.running (hnr i) hu⟩
  | @finish i r u pool hi hw h hp =>
    obtain ⟨-, hq⟩ := hpool.running hi
    have hpool' := h.ret hi
    have hret : pool.returned = s.pool.returned ++ [u] := hpool' ▸ Pool.returned_log ..
    have htasks : pool.tasks = s.pool.tasks := hpool' ▸ rfl
    refine ⟨⟨_, hx.snoc h⟩, hs.terminated, ?_, ?_, ?_, ?_⟩
    · intro t
      by_cases ht : t = u
      · simp [ht, hret]
      · simp [ht, hret, htasks, hs.pending]
    · intro t
      by_cases ht : t = u
      · simp [ht, htasks, hq]
      · simp [ht, htasks, hs.broken]
    · intro hd
      exact hpool' ▸ hs.destroyed hd
    · intro j v hv
      obtain ⟨hlt, w, hw'⟩ := hs.waits hv
      refine ⟨hpool' ▸ hlt, w, ?_⟩
      apply h.trans.running _ hw'
      rintro ⟨⟩
      rw [hw] at hv
      cases hv
  | @get i u t hi hw ht =>
    refine ⟨hs.reached, hs.terminated, hs.pending, hs.broken, hs.destroyed, ?_⟩
    intro j v hv
    rcases update_some_eq_some.mp hv with ⟨rfl, rfl⟩ | ⟨-, hv⟩
    · exact ⟨ht, u, hi⟩
    · exact hs.waits hv
  | got hw ht =>
    refine ⟨hs.reached, hs.terminated, hs.pending, hs.broken, hs.destroyed, ?_⟩
    intro j v hv
    exact hs.waits (update_none_eq_some.mp hv).2
  | destroy hr hd =>
    have hnd : ∀ t, s.shared t ≠ .broken := by
      intro t ht
      rw [hs.broken, hd] at ht
      cases ht.1
    have hq : ∀ t ∈ s.pool.tasks, s.shared t = .pending := by
      intro t ht
      refine hs.pending.mpr ⟨hpool.queued ht, ?_⟩
      rw [hd]
      intro hf
      cases hf
    refine ⟨hs.reached, hs.terminated, ?_, ?_, fun _ => hr, hs.waits⟩
    · intro t
      have hp := hs.pending (t := t)
      by_cases ht : t ∈ s.pool.tasks <;> simp_all [destroy]
    · intro t
      by_cases ht : t ∈ s.pool.tasks
      · simp [destroy, ht, hq t ht]
      · simp [destroy, ht, hnd t]

theorem start_inv (n : Nat) : (start n : Futures ρ).Inv n := by
  refine ⟨⟨[], .nil⟩, rfl, ?_, ?_, ?_, ?_⟩
  · simp [start, Pool.returned, Pool.start]
  · simp [start]
  · intro hd
    cases hd
  · intro i t hw
    cases hw

theorem inv {xs : List (Futures ρ × Act ρ)} (hx : Exec Step (start n) xs s) : s.Inv n :=
  hx.invariant (start_inv n) fun hs h => hs.trans h.trans

/-- In this step the function of the task `t` returns or throws `r`. -/
def Ends (t : TaskId) (r : ρ) (x : Futures ρ × Act ρ) : Prop :=
  ∃ i, x.2 = .finish i r ∧ x.1.pool.workers[i]? = some (.running t)

theorem Inv.ready_step (hs : s.Inv n) (h : Trans s a s') :
    s'.shared t = .ready r ↔ s.shared t = .ready r ∨ Ends t r (s, a) := by
  have hother : (∀ i r, a ≠ .finish i r) → ¬ Ends t r (s, a) := by
    rintro ha ⟨i, rfl, -⟩
    exact ha i r rfl
  cases h with
  | pool | get | got => simp [hother]
  | terminate hi _ ht =>
    obtain ⟨xs, hx⟩ := hs.reached
    obtain ⟨hret, hq⟩ := (Pool.inv hx).running hi
    exact absurd (hs.pending.mpr ⟨hret, fun _ => hq⟩) ht
  | destroy hr hd =>
    have hready : s.destroy.shared t = .ready r ↔ s.shared t = .ready r := by
      simp only [destroy]
      split
      next hp => simp [hp.2]
      · rfl
    simp [hready, hother]
  | @finish i q u pool hi hw h hp =>
    by_cases ht : t = u
    · subst ht
      simp [Ends, hp, hi]
    · have hne : ¬ Ends t r (s, .finish i q) := by
        rintro ⟨j, hj, hr⟩
        cases hj
        rw [hi] at hr
        cases hr
        exact ht rfl
      simp [ht, hne]

/-- Every future holds what the only run of its task has returned or thrown. It is pending as long
as the task has not come to its end, it is broken only where a pool without workers was destroyed
with the task in its queue, and no worker ends the process with an exception. -/
theorem future_holds {xs : List (Futures ρ × Act ρ)} (hx : Exec Step (start n) xs s) :
    s.terminated = false ∧
    (∀ t r, s.shared t = .ready r ↔ ∃ x ∈ xs, Ends t r x) ∧
    (∀ t, s.shared t = .pending ↔
      t ∉ s.pool.returned ∧ (s.destroyed = true → t ∉ s.pool.tasks)) ∧
    ∀ t, s.shared t = .broken ↔ s.destroyed = true ∧ t ∈ s.pool.tasks ∧ n = 0 := by
  have hs := inv hx
  refine ⟨hs.terminated, ?_, fun _ => hs.pending, ?_⟩
  · intro t r
    clear hs
    induction hx with
    | nil => simp [start]
    | @snoc xs u a v hx hst ih =>
      rw [(inv hx).ready_step hst.trans, ih]
      simp only [List.mem_append, List.mem_singleton, or_and_right, exists_or, exists_eq_left]
  · intro t
    rw [hs.broken]
    refine and_congr_right fun hd => ?_
    obtain ⟨ys, hy⟩ := hs.reached
    constructor
    · intro ht
      refine ⟨ht, ?_⟩
      by_contra hn
      have hq := ((Pool.inv hy).drained (Pool.joinOk hy) (hs.destroyed hd)
        (Nat.pos_of_ne_zero hn)).1
      rw [hq] at ht
      cases ht
    · exact And.left

/-- One of two tasks comes to its end, with the result 7. -/
def resultRun : List (Act Nat) :=
  [.pool (.enqueue none none), .pool (.enqueue none none), .pool (.loop 0), .pool (.call 0),
    .finish 0 7]

theorem future_holds_seven : ∃ s xs, Exec Step (start 1) xs s ∧ xs.map Prod.snd = resultRun ∧
    s.shared 0 = .ready 7 ∧ s.shared 1 = .pending ∧
    s.terminated = false ∧
    (∀ t r, s.shared t = .ready r ↔ ∃ x ∈ xs, Ends t r x) ∧
    (∀ t, s.shared t = .pending ↔
      t ∉ s.pool.returned ∧ (s.destroyed = true → t ∉ s.pool.tasks)) ∧
    ∀ t, s.shared t = .broken ↔ s.destroyed = true ∧ t ∈ s.pool.tasks ∧ 1 = 0 := by
  have hrun : (Exec.runs step? (start 1) resultRun).any
      (fun s => s.shared 0 = .ready 7 ∧ s.shared 1 = .pending) := by decide
  obtain ⟨s, hs, hrun⟩ := (Option.any_eq_true ..).mp hrun
  obtain ⟨h₀, h₁⟩ := of_decide_eq_true hrun
  obtain ⟨xs, hx, hacts⟩ := Exec.of_runs step_of_step? hs
  exact ⟨s, xs, hx, hacts, h₀, h₁, future_holds hx⟩

end
end Futures
end OnlineChat.ThreadPool
