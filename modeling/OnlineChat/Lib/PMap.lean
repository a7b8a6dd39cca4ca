import Mathlib.Data.List.Basic
import Mathlib.Logic.Function.Basic

/-!
# Partial maps

Heaps, tables and `std::map`s are functions to `Option`, changed by `Function.update`. The lemmas
say where an updated map has a value, and how many values it has.
-/

namespace Lib
open Function

section
variable {α β : Type*} [DecidableEq α] {f : α → Option β} {a x : α} {b y : β}

theorem update_some_eq_some :
    update f a (some b) x = some y ↔ x = a ∧ y = b ∨ x ≠ a ∧ f x = some y := by
  by_cases h : x = a
  · subst h
    simp [eq_comm]
  · simp [h]

theorem update_none_eq_some : update f a none x = some y ↔ x ≠ a ∧ f x = some y := by
  by_cases h : x = a
  · subst h
    simp
  · simp [h]

/-- Overwriting a value with itself. -/
theorem update_some_of_eq (h : f a = some b) : update f a (some b) = f := by
  rw [← h, update_eq_self]

end

/-! ## Counting -/

section
variable {β : Type*} {m : Nat → Option β} {p : β → Bool} {x : Option β} {i n : Nat}

/-- How many of the first `n` entries have a value with `p`. -/
def tally (p : β → Bool) (m : Nat → Option β) (n : Nat) : Nat :=
  (List.range n).countP fun i => (m i).any p

theorem tally_succ : tally p m (n + 1) = tally p m n + ((m n).any p).toNat := by
  rw [tally, tally, List.range_succ, List.countP_append, List.countP_singleton]
  cases (m n).any p <;> rfl

/-- Entries from the bound on do not count. -/
theorem tally_update_ge (h : n ≤ i) : tally p (update m i x) n = tally p m n := by
  refine List.countP_congr fun j hj => ?_
  rw [update_of_ne (Nat.ne_of_lt (Nat.lt_of_lt_of_le (List.mem_range.mp hj) h))]

/-- A new entry. -/
theorem tally_update_new : tally p (update m n x) (n + 1) = tally p m n + (x.any p).toNat := by
  rw [tally_succ, tally_update_ge (Nat.le_refl n), update_self]

theorem tally_update (h : i < n) :
    tally p (update m i x) n + ((m i).any p).toNat = tally p m n + (x.any p).toNat := by
  induction n with
  | zero => exact absurd h (Nat.not_lt_zero i)
  | succ n ih =>
    rw [tally_succ, tally_succ]
    rcases Nat.lt_succ_iff_lt_or_eq.mp h with hlt | rfl
    · have ih := ih hlt
      rw [update_of_ne (Nat.ne_of_gt hlt)]
      omega
    · rw [tally_update_ge (Nat.le_refl i), update_self]
      omega

end

end Lib
