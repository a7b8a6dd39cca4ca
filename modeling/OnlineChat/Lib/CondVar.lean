import Mathlib.Algebra.BigOperators.Group.List.Basic
import Mathlib.Algebra.Ring.Int.Defs
import Mathlib.Algebra.Ring.Nat

/-!
# Threads and condition variables

A family of threads is the list of their program counters; thread `i` moves by `List.set`. The
lemmas say how counts and sums over the family change when one thread moves. A condition variable
is given by two program counters, `waiting` in its queue and `woken` out of it: `notifyOne` moves
one waiting thread, whichever it is told, and `notifyAll` all of them.
-/

namespace Lib

section
variable {α : Type*} {ts ts' : List α} {i j : Nat} {a b c : α}

/-- The program counters after thread `i` has moved. -/
theorem set_eq_some (h : ts[i]? = some a) :
    (ts.set i b)[j]? = some c ↔ j = i ∧ c = b ∨ j ≠ i ∧ ts[j]? = some c := by
  have hi : i < ts.length := (List.getElem?_eq_some_iff.mp h).1
  rw [List.getElem?_set]
  by_cases hj : i = j
  · subst hj
    simp [hi, eq_comm]
  · simp [hj, Ne.symm hj]

/-- A program counter that the thread neither leaves nor enters. -/
theorem set_other (c : α) (h : ts[i]? = some a) (ha : c ≠ a) (hb : c ≠ b) :
    (ts.set i b)[j]? = some c ↔ ts[j]? = some c := by
  rw [set_eq_some h]
  constructor
  · rintro (⟨-, hc⟩ | ⟨-, hj⟩)
    · exact absurd hc hb
    · exact hj
  · intro hj
    refine .inr ⟨?_, hj⟩
    rintro rfl
    rw [h] at hj
    exact ha (Option.some.inj hj).symm

theorem mem_set_other (c : α) (h : ts[i]? = some a) (ha : c ≠ a) (hb : c ≠ b) :
    c ∈ ts.set i b ↔ c ∈ ts := by
  simp only [List.mem_iff_getElem?, set_other c h ha hb]

theorem sum_map_set (f : α → Nat) (h : ts[i]? = some a) :
    ((ts.set i b).map f).sum + f a = (ts.map f).sum + f b := by
  induction ts generalizing i with
  | nil => cases h
  | cons t ts ih =>
    cases i with
    | zero =>
      cases h
      simp only [List.set_cons_zero, List.map_cons, List.sum_cons]
      omega
    | succ i =>
      have := ih (i := i) h
      simp only [List.set_cons_succ, List.map_cons, List.sum_cons]
      omega

theorem countP_set (p : α → Bool) (h : ts[i]? = some a) :
    (ts.set i b).countP p + (p a).toNat = ts.countP p + (p b).toNat := by
  have hsum : ∀ l : List α, l.countP p = (l.map fun x => (p x).toNat).sum := by
    intro l
    induction l with
    | nil => rfl
    | cons x l ih => cases hx : p x <;> simp [hx, ih, Nat.add_comm]
  rw [hsum, hsum]
  exact sum_map_set _ h

end

/-! ## The condition variable -/

section
variable {α : Type*} [DecidableEq α] (waiting woken : α)

/-- Wake the thread `i`, which must be waiting; or nobody, when nobody waits. -/
def notifyOne (ts : List α) : Option Nat → Option (List α)
  | none => if waiting ∈ ts then none else some ts
  | some i => if ts[i]? = some waiting then some (ts.set i woken) else none

def notifyAll (ts : List α) : List α := ts.map fun a => if a = waiting then woken else a

variable {waiting woken} {ts ts' : List α} {wake : Option Nat} {i : Nat} {a : α}

theorem notifyOne_eq_some (h : notifyOne waiting woken ts wake = some ts') :
    (waiting ∉ ts ∧ ts' = ts) ∨ ∃ i, ts[i]? = some waiting ∧ ts' = ts.set i woken := by
  cases wake with
  | none =>
    simp only [notifyOne, Option.ite_none_left_eq_some, Option.some.injEq] at h
    exact .inl ⟨h.1, h.2.symm⟩
  | some i =>
    simp only [notifyOne, Option.ite_none_right_eq_some, Option.some.injEq] at h
    exact .inr ⟨i, h.1, h.2.symm⟩

/-- There is always somebody to wake, or nobody waits. -/
theorem exists_notifyOne (waiting woken : α) (ts : List α) :
    ∃ wake ts', notifyOne waiting woken ts wake = some ts' := by
  by_cases h : waiting ∈ ts
  · obtain ⟨i, hi⟩ := List.mem_iff_getElem?.mp h
    exact ⟨some i, _, if_pos hi⟩
  · exact ⟨none, ts, if_neg h⟩

/-- Threads that do not wait are not moved. -/
theorem notifyOne_other (a : α) (h : notifyOne waiting woken ts wake = some ts') (hw : a ≠ waiting)
    (hw' : a ≠ woken) : ts'[i]? = some a ↔ ts[i]? = some a := by
  obtain ⟨-, rfl⟩ | ⟨j, hj, rfl⟩ := notifyOne_eq_some h
  · rfl
  · exact set_other a hj hw hw'

theorem notifyAll_other (a : α) (hw : a ≠ waiting) (hw' : a ≠ woken) :
    (notifyAll waiting woken ts)[i]? = some a ↔ ts[i]? = some a := by
  rw [notifyAll, List.getElem?_map, Option.map_eq_some_iff]
  constructor
  · rintro ⟨b, hb, h⟩
    split at h
    · exact absurd h.symm hw'
    · rwa [← h]
  · intro h
    exact ⟨a, h, if_neg hw⟩

theorem mem_notifyOne_other (a : α) (h : notifyOne waiting woken ts wake = some ts')
    (hw : a ≠ waiting) (hw' : a ≠ woken) : a ∈ ts' ↔ a ∈ ts := by
  simp only [List.mem_iff_getElem?, notifyOne_other a h hw hw']

theorem mem_notifyAll_other (a : α) (hw : a ≠ waiting) (hw' : a ≠ woken) :
    a ∈ notifyAll waiting woken ts ↔ a ∈ ts := by
  simp only [List.mem_iff_getElem?, notifyAll_other a hw hw']

theorem not_mem_notifyAll (h : waiting ≠ woken) : waiting ∉ notifyAll waiting woken ts := by
  intro hm
  obtain ⟨b, -, hb⟩ := List.mem_map.mp hm
  split at hb
  · exact h hb.symm
  next hne => exact hne hb

end
end Lib
