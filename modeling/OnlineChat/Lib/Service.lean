import Mathlib.Data.Fintype.Card
import Mathlib.Algebra.Order.BigOperators.Group.Finset
import OnlineChat.Lib.Exec
import OnlineChat.Lib.PMap

/-!
# A queue with several servers

Jobs are submitted to one queue, and a free server takes the job at its head. The jobs are taken in
the order in which they were submitted, but they need not be finished in that order: how far a job
can be ahead of an earlier one is bounded by the number of servers.
-/

namespace Lib

inductive Service.Event (ι τ : Type*)
  | submit (t : τ)
  | take (i : ι) (t : τ)
  | finish (i : ι) (t : τ)
  deriving DecidableEq

/-- The jobs that wait, the job of every server, and the history. -/
structure Service (ι τ : Type*) where
  queue : List τ
  serving : ι → Option τ
  log : List (Service.Event ι τ)

namespace Service
variable {ι τ : Type*}

def Event.submitted? : Event ι τ → Option τ
  | .submit t => some t
  | _ => none

def Event.taken? : Event ι τ → Option τ
  | .take _ t => some t
  | _ => none

def Event.finished? : Event ι τ → Option τ
  | .finish _ t => some t
  | _ => none

/-- Nobody has a job. -/
def idle : Service ι τ := { queue := [], serving := fun _ => none, log := [] }

variable (s : Service ι τ)

def submitted : List τ := s.log.filterMap Event.submitted?

def taken : List τ := s.log.filterMap Event.taken?

def finished : List τ := s.log.filterMap Event.finished?

section
variable {s : Service ι τ} {e : Event ι τ} {queue : List τ} {serving : ι → Option τ}

theorem submitted_snoc : (⟨queue, serving, s.log ++ [e]⟩ : Service ι τ).submitted =
    s.submitted ++ e.submitted?.toList := by
  rw [submitted, List.filterMap_append]
  cases e <;> rfl

theorem taken_snoc : (⟨queue, serving, s.log ++ [e]⟩ : Service ι τ).taken =
    s.taken ++ e.taken?.toList := by
  rw [taken, List.filterMap_append]
  cases e <;> rfl

theorem finished_snoc : (⟨queue, serving, s.log ++ [e]⟩ : Service ι τ).finished =
    s.finished ++ e.finished?.toList := by
  rw [finished, List.filterMap_append]
  cases e <;> rfl

/-- The order of the queue, and where a job is that has been taken. -/
structure Ok (servers : Finset ι) (s : Service ι τ) : Prop where
  fifo : s.submitted = s.taken ++ s.queue
  busy : ∀ i t, s.serving i = some t → i ∈ servers
  served : ∀ t ∈ s.taken, t ∈ s.finished ∨ ∃ i, s.serving i = some t

theorem idle_ok {servers : Finset ι} : (idle : Service ι τ).Ok servers := by
  refine ⟨rfl, ?_, ?_⟩
  · intro i t hi
    cases hi
  · intro t ht
    cases ht

end

variable [DecidableEq ι]

/-- A server of `servers` takes the first job in the queue when it has none. -/
inductive Step (servers : Finset ι) (s : Service ι τ) : Event ι τ → Service ι τ → Prop
  | submit (t : τ) : Step servers s (.submit t)
      { s with queue := s.queue ++ [t], log := s.log ++ [.submit t] }
  | take {i t queue} (hi : i ∈ servers) (hfree : s.serving i = none) (hq : s.queue = t :: queue) :
      Step servers s (.take i t)
        { queue, serving := Function.update s.serving i (some t), log := s.log ++ [.take i t] }
  | finish {i t} (hi : s.serving i = some t) : Step servers s (.finish i t)
      { s with serving := Function.update s.serving i none, log := s.log ++ [.finish i t] }

section
variable {s} {s' : Service ι τ} {servers : Finset ι} {e : Event ι τ} {i : ι} {t : τ}
  {queue : List τ} {serving : ι → Option τ}

theorem Ok.step (hs : s.Ok servers) (h : Step servers s e s') : s'.Ok servers := by
  cases h with
  | submit u =>
    refine ⟨?_, hs.busy, ?_⟩
    · rw [submitted_snoc, taken_snoc, hs.fifo]
      simp [Event.submitted?, Event.taken?]
    · intro t ht
      rw [taken_snoc] at ht
      rw [finished_snoc]
      simpa [Event.finished?] using hs.served t (by simpa [Event.taken?] using ht)
  | @take i u queue hi hfree hq =>
    refine ⟨?_, ?_, ?_⟩
    · rw [submitted_snoc, taken_snoc, hs.fifo, hq]
      simp [Event.submitted?, Event.taken?]
    · intro j t hj
      rcases update_some_eq_some.mp hj with ⟨rfl, -⟩ | ⟨-, hj⟩
      · exact hi
      · exact hs.busy j t hj
    · intro t ht
      rw [taken_snoc] at ht
      rw [finished_snoc]
      simp only [update_some_eq_some, Event.finished?, Option.toList_none, List.append_nil]
      rcases List.mem_append.mp ht with ht | ht
      · rcases hs.served t ht with hf | ⟨j, hj⟩
        · exact .inl hf
        · refine .inr ⟨j, .inr ⟨?_, hj⟩⟩
          rintro rfl
          rw [hfree] at hj
          cases hj
      · exact .inr ⟨i, .inl ⟨rfl, List.mem_singleton.mp ht⟩⟩
  | @finish i u hi =>
    refine ⟨?_, ?_, ?_⟩
    · rw [submitted_snoc, taken_snoc, hs.fifo]
      simp [Event.submitted?, Event.taken?]
    · intro j t hj
      exact hs.busy j t (update_none_eq_some.mp hj).2
    · intro t ht
      rw [taken_snoc] at ht
      rw [finished_snoc]
      simp only [update_none_eq_some, Event.finished?, Option.toList_some, List.mem_append,
        List.mem_singleton]
      rcases hs.served t (by simpa [Event.taken?] using ht) with hf | ⟨j, hj⟩
      · exact .inl (.inl hf)
      · by_cases hji : j = i
        · subst hji
          rw [hi] at hj
          exact .inl (.inr (Option.some.inj hj).symm)
        · exact .inr ⟨j, hji, hj⟩

theorem Step.submitted (h : Step servers s e s') :
    s'.submitted = s.submitted ++ e.submitted?.toList := by
  cases h <;> exact submitted_snoc

theorem Step.finished (h : Step servers s e s') :
    s'.finished = s.finished ++ e.finished?.toList := by
  cases h <;> exact finished_snoc

/-- What has been submitted stays at the head of what will have been. -/
theorem submitted_run {xs : List (Service ι τ × Event ι τ)} (hx : Exec (Step servers) s xs s') :
    s.submitted <+: s'.submitted := by
  refine hx.invariant (P := fun t => s.submitted <+: t.submitted) List.prefix_rfl ?_
  intro t e u ht hst
  rw [hst.submitted]
  exact ht.trans (List.prefix_append ..)

/-- Where the jobs have come out numbered, each got the next number when it was submitted. -/
theorem numbered {xs : List (Service ι Nat × Event ι Nat)} {v : Service ι Nat} {k : Nat}
    (hx : Exec (Step servers) idle xs v) (hv : v.submitted = List.range k) :
    ∀ x ∈ xs, ∀ t, x.2 = .submit t → t = x.1.submitted.length := by
  rintro ⟨w, e⟩ hw t rfl
  obtain ⟨ys, zs, rfl⟩ := List.append_of_mem hw
  obtain ⟨u, hu, hrest⟩ := hx.split
  obtain ⟨rfl, u, hst, hrest⟩ := hrest.cons_inv
  have hpre := submitted_run hrest
  rw [hst.submitted, hv] at hpre
  have hget : (List.range k)[w.submitted.length]? = some t := by
    obtain ⟨r, hr⟩ := hpre
    rw [← hr]
    simp [Event.submitted?]
  obtain ⟨hlt, hget⟩ := List.getElem?_eq_some_iff.mp hget
  rw [List.getElem_range] at hget
  exact hget.symm

/-! ## Bounded overtaking -/

/-- Of the jobs before one that has been taken, fewer are unfinished than there are servers. -/
def Bounded [DecidableEq τ] (servers : Finset ι) (s : Service ι τ) : Prop :=
  ∀ l t r, s.submitted = l ++ t :: r → t ∈ s.taken → l.countP (· ∉ s.finished) < servers.card

variable [DecidableEq τ]

/-- While a server is free, the unfinished jobs are with the others. -/
theorem Ok.countP_lt (hs : s.Ok servers) (hnd : s.taken.Nodup) (hi : i ∈ servers)
    (hfree : s.serving i = none) : s.taken.countP (· ∉ s.finished) < servers.card := by
  have hsub : (s.taken.filter (· ∉ s.finished)).toFinset ⊆
      (servers.erase i).biUnion fun j => (s.serving j).toFinset := by
    intro t ht
    simp only [List.mem_toFinset, List.mem_filter, decide_eq_true_eq] at ht
    obtain ⟨ht, hf⟩ := ht
    obtain ⟨j, hj⟩ := (hs.served t ht).resolve_left hf
    refine Finset.mem_biUnion.mpr ⟨j, Finset.mem_erase.mpr ⟨?_, hs.busy j t hj⟩, ?_⟩
    · rintro rfl
      rw [hfree] at hj
      cases hj
    · exact Option.mem_toFinset.mpr hj
  have hone : ∀ j ∈ servers.erase i, (s.serving j).toFinset.card ≤ 1 := by
    intro j _
    rw [Option.card_toFinset]
    cases s.serving j <;> simp
  calc s.taken.countP (· ∉ s.finished)
      = (s.taken.filter (· ∉ s.finished)).toFinset.card := by
        rw [List.toFinset_card_of_nodup (hnd.filter _), List.countP_eq_length_filter]
    _ ≤ _ := Finset.card_le_card hsub
    _ ≤ (servers.erase i).card * 1 := Finset.card_biUnion_le_card_mul _ _ _ hone
    _ < servers.card := by
        rw [Nat.mul_one]
        exact Finset.card_erase_lt_of_mem hi

/-- More jobs are finished after a step. -/
theorem Step.countP_le (h : Step servers s e s') (l : List τ) :
    l.countP (· ∉ s'.finished) ≤ l.countP (· ∉ s.finished) := by
  apply List.countP_mono_left
  intro t _ ht
  rw [h.finished] at ht
  simp only [List.mem_append, not_or, decide_eq_true_eq] at ht ⊢
  exact ht.1

theorem Ok.bounded_step (hs : s.Ok servers) (hb : s.Bounded servers) (h : Step servers s e s')
    (hnd : s'.submitted.Nodup) : s'.Bounded servers := by
  intro l t r hsub ht
  refine Nat.lt_of_le_of_lt (h.countP_le l) ?_
  rw [h.submitted] at hsub hnd
  have hnds := (List.nodup_append.mp hnd).1
  cases h with
  | finish =>
    replace hsub : s.submitted = l ++ t :: r := by simpa [Event.submitted?] using hsub
    exact hb l t r hsub (by simpa [taken_snoc, Event.taken?] using ht)
  | submit u =>
    replace ht : t ∈ s.taken := by simpa [taken_snoc, Event.taken?] using ht
    rcases snoc_eq_cons hsub with ⟨rfl, rfl, rfl⟩ | ⟨r', rfl, hsub'⟩
    · have hmem : t ∈ s.submitted := hs.fifo ▸ List.mem_append_left _ ht
      exact absurd rfl ((List.nodup_append.mp hnd).2.2 t hmem t (by simp [Event.submitted?]))
    · exact hb l t r' hsub' ht
  | @take i u queue hi hfree hq =>
    replace hsub : s.submitted = l ++ t :: r := by simpa [Event.submitted?] using hsub
    rw [taken_snoc] at ht
    rcases List.mem_append.mp ht with ht | hu
    · exact hb l t r hsub ht
    · cases List.mem_singleton.mp hu
      -- the jobs before the one that is taken are those that have been taken before
      rw [hs.fifo, hq] at hsub hnds
      obtain ⟨htaken, hqueue, hne⟩ := List.nodup_append.mp hnds
      have hnt : t ∉ s.taken := by
        intro ht
        exact hne t ht t List.mem_cons_self rfl
      obtain ⟨rfl, -, -⟩ :=
        (List.append_cons_inj_of_notMem hnt (List.nodup_cons.mp hqueue).1).mp hsub
      exact hs.countP_lt htaken hi hfree

/-- The run lemma: what has been taken is a prefix of what has been submitted, and of the jobs
before one that has been taken fewer are unfinished than there are servers. -/
theorem bounded {xs : List (Service ι τ × Event ι τ)} (hx : Exec (Step servers) idle xs s)
    (hnd : s.submitted.Nodup) : s.Ok servers ∧ s.Bounded servers := by
  have hinv : s.Ok servers ∧ (s.submitted.Nodup → s.Bounded servers) := by
    refine hx.invariant (P := fun s => s.Ok servers ∧ (s.submitted.Nodup → s.Bounded servers))
      ⟨idle_ok, ?_⟩ ?_
    · intro _ l t r hsub
      cases l <;> cases hsub
    · rintro t e u ⟨hs, hb⟩ h
      refine ⟨hs.step h, ?_⟩
      intro hnd
      have hnds := (List.nodup_append.mp (h.submitted ▸ hnd)).1
      exact hs.bounded_step (hb hnds) h hnd
  exact ⟨hinv.1, hinv.2 hnd⟩

end
end Service
end Lib
