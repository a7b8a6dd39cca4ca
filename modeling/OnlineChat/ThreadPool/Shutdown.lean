import OnlineChat.ThreadPool.Tasks
import OnlineChat.ThreadPool.Wakeup

/-!
# The destructor

When `~ThreadPool` returns, every worker has exited, and a worker exits only when the queue is
empty. So the queue is drained if there is a worker at all, which depends on the bound that the
constructor puts on the number of threads.
-/

namespace OnlineChat.ThreadPool
open Lib

namespace Pool

/-- How many workers the destructor has joined. -/
def joined (s : Pool) : Nat :=
  match s.dtor with
  | .idle => 0
  | .joining k => k
  | .returned => s.workers.length

/-- The workers stay as many as they are, those that have been joined have exited, and without a
worker nothing is dequeued. -/
structure JoinOk (n : Nat) (s : Pool) : Prop where
  length : s.workers.length = n
  joined : ∀ i < s.joined, s.workers[i]? = some .exited
  popped : n = 0 → s.popped = []

section
variable {s s' : Pool} {a : Act} {i n : Nat} {pc : Pc} {t : TaskId}

theorem Trans.length (h : Trans s a s') : s'.workers.length = s.workers.length := by
  cases h with
  | die | join | done => rfl
  | block | exit | pop | wake | call | ret => exact List.length_set
  | quit => exact List.length_map _
  | push _ _ hn =>
    obtain ⟨-, rfl⟩ | ⟨i, -, rfl⟩ := notifyOne_eq_some hn
    · rfl
    · exact List.length_set

/-- A worker that has exited does nothing more. -/
theorem Trans.stays (h : Trans s a s') (hi : s.workers[i]? = some .exited) :
    s'.workers[i]? = some .exited := by
  cases h with
  | die | join | done => exact hi
  | push _ _ hn => exact (notifyOne_other _ hn (by simp) (by simp)).mpr hi
  | quit => exact (notifyAll_other _ (by simp) (by simp)).mpr hi
  | block hj ha | pop hj ha => exact (set_other _ hj (ne_of_awake ha rfl) (by simp)).mpr hi
  | wake hj | call hj | ret hj => exact (set_other _ hj (by simp) (by simp)).mpr hi
  | @exit j pc hj ha =>
    rw [move_workers, set_eq_some hj]
    by_cases hij : i = j
    · exact .inl ⟨hij, rfl⟩
    · exact .inr ⟨hij, hi⟩

/-- The destructor goes past a worker when it has exited. -/
theorem Trans.joined (h : Trans s a s') (hi : i < s'.joined) :
    i < s.joined ∨ s.workers[i]? = some .exited := by
  have hsame (hd : s'.dtor = s.dtor) : s'.joined = s.joined := by
    rw [Pool.joined, Pool.joined, hd, h.length]
  cases h with
  | quit => cases hi
  | @join k hd hk =>
    rcases Nat.lt_succ_iff_lt_or_eq.mp hi with hlt | rfl
    · exact .inl (by simpa [Pool.joined, hd] using hlt)
    · exact .inr hk
  | @done k hd hk =>
    have hlen : s.workers.length ≤ k := List.getElem?_eq_none_iff.mp hk
    refine .inl ?_
    rw [Pool.joined, hd]
    exact Nat.lt_of_lt_of_le hi hlen
  | die | push | block | exit | pop | wake | call | ret => exact .inl (hsame rfl ▸ hi)

theorem JoinOk.trans (hs : s.JoinOk n) (h : Trans s a s') : s'.JoinOk n := by
  refine ⟨h.length.trans hs.length, ?_, ?_⟩
  · intro j hj
    apply h.stays
    rcases h.joined hj with hlt | he
    · exact hs.joined j hlt
    · exact he
  · intro hn
    have hp := hs.popped hn
    cases h with
    | die | block | exit | wake | quit | join | done => exact hp
    | push | call | ret => exact (popped_log ..).trans ((List.append_nil _).trans hp)
    | @pop i pc t tasks hi ha ht =>
      have hlt := (List.getElem?_eq_some_iff.mp hi).1
      rw [hs.length, hn] at hlt
      cases hlt

theorem joinOk {xs : List (Pool × Act)} (hx : Exec Step (start n) xs s) : s.JoinOk n := by
  refine hx.invariant ⟨List.length_replicate, ?_, fun _ => rfl⟩ fun hs h => hs.trans h.trans
  intro i hi
  cases hi

theorem JoinOk.all_exited (hs : s.JoinOk n) (hr : s.dtor = .returned) (hi : i < n) :
    s.workers[i]? = some .exited := by
  apply hs.joined
  rw [Pool.joined, hr, hs.length]
  exact hi

/-- With a worker at hand, what has been joined has run every task. -/
theorem Inv.drained (hs : s.Inv) (hj : s.JoinOk n) (hr : s.dtor = .returned) (hn : 0 < n) :
    s.tasks = [] ∧ ∀ t ∈ s.pushed, ∃ i, .returned i t ∈ s.trace := by
  have htasks := (hs.exited (List.mem_of_getElem? (hj.all_exited hr hn))).2
  refine ⟨htasks, ?_⟩
  intro t ht
  obtain ⟨st, hst⟩ := @hs.stage t
  have hidle : ∀ j pc, pc.task = some t → st.hand t ≠ some (j, pc) := by
    intro j pc hpc hhand
    have hi := (hst.hand hpc).mpr hhand
    have hlt : j < n := hj.length ▸ (List.getElem?_eq_some_iff.mp hi).1
    rw [hj.all_exited hr hlt] at hi
    cases hi
    cases hpc
  have hm := mem_pushed.mp ht
  rw [hst.history] at hm
  cases st with
  | unborn => cases hm
  | queued =>
    have hq := hst.queue.mpr rfl
    rw [htasks] at hq
    cases hq
  | popped i => exact absurd rfl (hidle i (.holding t) rfl)
  | running i => exact absurd rfl (hidle i (.running t) rfl)
  | ran i =>
    have hi : .returned i t ∈ s.history t := hst.history ▸ by simp [Stage.events]
    exact ⟨i, List.mem_of_mem_filter hi⟩

/-- When the constructor starts a worker. -/
theorem threadNum_pos {req hw : BitVec 32} :
    0 < (threadNum req hw).toInt.toNat ↔ hw ≠ 0#32 ∧ (0 < req.toInt ∨ hw.toNat < 2 ^ 31) := by
  have hne : hw ≠ 0#32 ↔ hw.toNat ≠ 0 := not_congr BitVec.toNat_eq
  have hreq := req.toInt_eq_toNat_cond
  have hhw := hw.toInt_eq_toNat_cond
  have hlt := req.isLt
  have hlt' := hw.isLt
  rw [hne, threadNum]
  split
  next h =>
    simp only [Bool.or_eq_true, BitVec.sle, BitVec.ult, decide_eq_true_eq, BitVec.toInt_zero] at h
    split at hreq <;> split at hhw <;> omega
  next h =>
    simp only [Bool.or_eq_true, BitVec.sle, BitVec.ult, decide_eq_true_eq, BitVec.toInt_zero] at h
    split at hreq <;> omega

/-- The destructor leaves no task behind exactly when the constructor has started a worker or no
task was accepted. -/
theorem drained_iff {req hw : BitVec 32} {xs : List (Pool × Act)}
    (hx : Exec Step (new req hw) xs s) (hr : s.dtor = .returned) :
    (s.tasks = [] ∧ ∀ t ∈ s.pushed, ∃ i, .returned i t ∈ s.trace) ↔
      (hw ≠ 0#32 ∧ (0 < req.toInt ∨ hw.toNat < 2 ^ 31)) ∨ s.pushed = [] := by
  have hs := inv hx
  have hj := joinOk hx
  rw [← threadNum_pos]
  constructor
  · rintro ⟨htasks, -⟩
    by_cases hn : (threadNum req hw).toInt.toNat = 0
    · refine .inr ?_
      rw [hs.fifo, hj.popped hn, htasks]
      rfl
    · exact .inl (Nat.pos_of_ne_zero hn)
  · rintro (hn | hempty)
    · exact hs.drained hj hr hn
    · have htasks := (List.append_eq_nil_iff.mp (hs.fifo.symm.trans hempty)).2
      refine ⟨htasks, ?_⟩
      intro t ht
      rw [hempty] at ht
      cases ht

/-- One worker, a task that enqueues a second one, and the destructor while the first is running. -/
def drainRun : List Act :=
  [.enqueue none none, .loop 0, .call 0, .enqueue (some 0) none, .quit, .ret 0, .loop 0, .call 0,
    .ret 0, .loop 0, .join, .join]

theorem drained_iff_two : ∃ s xs, Exec Step (new 1#32 2#32) xs s ∧ xs.map Prod.snd = drainRun ∧
    s.pushed = [0, 1] ∧ s.dtor = .returned ∧
    ((s.tasks = [] ∧ ∀ t ∈ s.pushed, ∃ i, .returned i t ∈ s.trace) ↔
      (2#32 ≠ 0#32 ∧ (0 < (1#32).toInt ∨ (2#32).toNat < 2 ^ 31)) ∨ s.pushed = []) := by
  have hrun : (Exec.runs step? (new 1#32 2#32) drainRun).any
      (fun s => s.pushed = [0, 1] ∧ s.dtor = .returned) := by decide
  obtain ⟨s, hs, hrun⟩ := (Option.any_eq_true ..).mp hrun
  obtain ⟨hp, hr⟩ := of_decide_eq_true hrun
  obtain ⟨xs, hx, hacts⟩ := Exec.of_runs step_of_step? hs
  exact ⟨s, xs, hx, hacts, hp, hr, drained_iff hx hr⟩

/-- Where `hardware_concurrency` is not computable, a pool asked for 4 threads has none: the
destructor returns with the task in the queue. -/
theorem not_drained : ∃ s xs, Exec Step (new 4#32 0#32) xs s ∧
    xs.map Prod.snd = [.enqueue none none, .quit, .join] ∧ s.dtor = .returned ∧
    s.pushed = [0] ∧ s.tasks = [0] ∧ ¬ ∃ i, .returned i 0 ∈ s.trace := by
  have hrun : (Exec.runs step? (new 4#32 0#32) [.enqueue none none, .quit, .join]).any
      (fun s => s.dtor = .returned ∧ s.tasks = [0] ∧ s.trace = [.pushed 0]) := by decide
  obtain ⟨s, hs, hrun⟩ := (Option.any_eq_true ..).mp hrun
  obtain ⟨hr, ht, htrace⟩ := of_decide_eq_true hrun
  obtain ⟨xs, hx, hacts⟩ := Exec.of_runs step_of_step? hs
  refine ⟨s, xs, hx, hacts, hr, ?_, ht, ?_⟩
  · rw [pushed, htrace]
    rfl
  · rw [htrace]
    rintro ⟨i, hi⟩
    cases List.mem_singleton.mp hi

end
end Pool
end OnlineChat.ThreadPool
