import Mathlib.Logic.Function.Basic
import OnlineChat.Lib.Exec

/-!
# Components that share nothing

A system of components of one kind, each in a state of its own: a step of the whole is a step of
one of them. What the others do is then invisible to it: a run of the whole is, for each component,
a run of that component alone (`Exec.project`). `Exec.refines` takes the runs of an implementation
to runs of such a system, label by label.
-/

namespace Lib

/-- The component named in the label takes a step, and the others stay as they are. -/
def Interleave {ι σ α : Type*} (step : σ → α → σ → Prop) (f : ι → σ) (a : ι × α) (g : ι → σ) :
    Prop := step (f a.1) a.2 (g a.1) ∧ ∀ j, j ≠ a.1 → g j = f j

/-- The other components are left where they are. -/
theorem Interleave.update {ι σ α : Type*} [DecidableEq ι] {step : σ → α → σ → Prop} {f : ι → σ}
    {i : ι} {a : α} {y : σ} (h : step (f i) a y) :
    Interleave step f (i, a) (Function.update f i y) :=
  ⟨(Function.update_self i y f).symm ▸ h, fun _ hj => Function.update_of_ne hj ..⟩

namespace Exec
variable {ι σ α τ β : Type*} {step : σ → α → σ → Prop}

/-- What happens to one component is a run of it. -/
theorem project [DecidableEq ι] {f g : ι → σ} {xs : List ((ι → σ) × ι × α)}
    (h : Exec (Interleave step) f xs g) (i : ι) :
    Exec step (f i) ((xs.filter (·.2.1 = i)).map fun x => (x.1 i, x.2.2)) (g i) := by
  induction h with
  | nil => exact .nil
  | @snoc xs t a u _ hst ih =>
    obtain ⟨hstep, hother⟩ := hst
    rw [List.filter_append, List.map_append]
    by_cases hi : a.1 = i
    · subst hi
      rw [List.filter_cons_of_pos (by simp)]
      exact ih.snoc hstep
    · rw [List.filter_cons_of_neg (by simpa using hi), hother i (Ne.symm hi)]
      simpa using ih

/-- A simulation in which every step shows at most one label of the other system. -/
theorem refines {s t : σ} {xs : List (σ × α)} {C : σ → α → Prop} {step' : τ → β → τ → Prop}
    {R : σ → τ → Prop} {v : τ} {lab : σ → α → Option β} (h : Exec step s xs t)
    (hC : ∀ x ∈ xs, C x.1 x.2) (hR : R s v)
    (hs : ∀ {t v a u}, R t v → C t a → step t a u →
      (lab t a = none ∧ R u v) ∨ ∃ b w, lab t a = some b ∧ step' v b w ∧ R u w) :
    ∃ ys w, Exec step' v ys w ∧ R t w ∧
      ys.map Prod.snd = xs.filterMap fun x => lab x.1 x.2 := by
  induction h with
  | nil => exact ⟨[], v, .nil, hR, rfl⟩
  | @snoc xs t a u _ hst ih =>
    obtain ⟨ys, w, hy, hw, hlab⟩ := ih fun x hx => hC x (List.mem_append_left _ hx)
    rw [List.filterMap_append, ← hlab]
    rcases hs hw (hC (t, a) (by simp)) hst with ⟨hnone, hu⟩ | ⟨b, w', hb, hstep, hu⟩
    · exact ⟨ys, w, hy, hu, by simp [hnone]⟩
    · exact ⟨ys ++ [(w, b)], w', hy.snoc hstep, hu, by simp [hb]⟩

end Exec
end Lib
