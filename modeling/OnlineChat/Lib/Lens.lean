import Mathlib.Init

/-!
# Independent parts of a state

A `Lens` reads and writes a part of a state. A function on the part is lifted to the state, where
it can fail; functions on parts that do not overlap commute (`Disjoint.lift_comm`), so that a list
of them can be run in any order (`liftAll_perm`).
-/

namespace Lib

structure Lens (σ β : Type*) where
  get : σ → β
  put : β → σ → σ
  get_put {x s} : get (put x s) = x
  put_get {s} : put (get s) s = s
  put_put {x y s} : put x (put y s) = put x s

namespace Lens
variable {σ β γ ι : Type*}

/-- The two parts have nothing in common. -/
def Disjoint (l : Lens σ β) (m : Lens σ γ) : Prop :=
  ∀ x y s, l.put x (m.put y s) = m.put y (l.put x s)

/-- Run `f` on its part of the state. -/
def lift (l : Lens σ β) (f : β → Option β) (s : σ) : Option σ := (f (l.get s)).map (l.put · s)

/-- Run the functions of `is` one after the other, each on its part. -/
def liftAll (l : ι → Lens σ β) (f : ι → β → Option β) (is : List ι) (s : σ) : Option σ :=
  is.foldl (fun o i => o.bind ((l i).lift (f i))) (some s)

theorem Disjoint.symm {l : Lens σ β} {m : Lens σ γ} (h : l.Disjoint m) : m.Disjoint l :=
  fun x y s => (h y x s).symm

/-- Writing one part does not change the other. -/
theorem Disjoint.get_put {l : Lens σ β} {m : Lens σ γ} (h : l.Disjoint m) {y : γ} {s : σ} :
    l.get (m.put y s) = l.get s := by
  have hs : m.put y s = l.put (l.get s) (m.put y s) := by rw [h, l.put_get]
  rw [hs, l.get_put]

theorem Disjoint.lift_comm {l : Lens σ β} {m : Lens σ γ} (h : l.Disjoint m) (f : β → Option β)
    (g : γ → Option γ) (s : σ) :
    (l.lift f s).bind (m.lift g) = (m.lift g s).bind (l.lift f) := by
  cases hf : f (l.get s) with
  | none =>
    cases hg : g (m.get s) with
    | none => simp [lift, hf, hg]
    | some y => simp [lift, hf, hg, h.get_put]
  | some x =>
    cases hg : g (m.get s) with
    | none => simp [lift, hf, hg, h.symm.get_put]
    | some y =>
      simp only [lift, hf, hg, Option.map_some, Option.bind_some, h.get_put, h.symm.get_put]
      rw [h]

section
variable {l : ι → Lens σ β} {f : ι → β → Option β} {i : ι} {is js : List ι} {s : σ}

theorem liftAll_cons : liftAll l f (i :: is) s = ((l i).lift (f i) s).bind (liftAll l f is) := by
  rw [liftAll, List.foldl_cons, Option.bind_some]
  cases (l i).lift (f i) s with
  | some t => rfl
  | none =>
    rw [Option.bind_none]
    induction is with
    | nil => rfl
    | cons j is ih => exact ih

/-- The order does not matter. -/
theorem liftAll_perm (h : ∀ i ∈ is, ∀ j ∈ is, i ≠ j → (l i).Disjoint (l j)) (hp : is.Perm js) :
    liftAll l f is s = liftAll l f js s := by
  refine hp.foldl_eq' ?_ (some s)
  intro i hi j hj o
  cases o with
  | none => rfl
  | some t =>
    by_cases hij : i = j
    · rw [hij]
    · exact (h i hi j hj hij).lift_comm (f i) (f j) t

end
end Lens
end Lib
