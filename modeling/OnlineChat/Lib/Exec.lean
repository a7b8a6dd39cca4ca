import Mathlib.Algebra.BigOperators.Group.List.Basic
import Mathlib.Algebra.Ring.Int.Defs
import Mathlib.Algebra.Ring.Nat
import Mathlib.Data.List.Induction

/-!
# Runs of a labelled step relation

A run `Exec step s xs t` records every label together with the state it was taken in, so that a
condition on the steps of a run ("whenever this is done, that holds of the state") is a condition
on the members of the list `xs`. Invariants are proved along `Exec.invariant`, or along
`Exec.invariant_of` when only the steps that meet a condition keep them; `Exec.of_runs` reads a run
off an executable step.
-/

namespace Lib

/-- The ways to cut a list at an element: at its last, or earlier. -/
theorem snoc_eq_cons {α : Type*} {xs ys zs : List α} {x y : α} (h : xs ++ [x] = ys ++ y :: zs) :
    (zs = [] ∧ y = x ∧ ys = xs) ∨ ∃ zs', zs = zs' ++ [x] ∧ xs = ys ++ y :: zs' := by
  induction zs using List.reverseRecOn with
  | nil =>
    obtain ⟨rfl, hx⟩ := List.append_inj' h rfl
    cases hx
    exact .inl ⟨rfl, rfl, rfl⟩
  | append_singleton zs z =>
    have h' : xs ++ [x] = (ys ++ y :: zs) ++ [z] := by simp [h]
    obtain ⟨rfl, hz⟩ := List.append_inj' h' rfl
    cases hz
    exact .inr ⟨zs, rfl, rfl⟩

/-- The run `xs` from `s` to `t`, each step with the state it was taken in. -/
inductive Exec {σ α : Type*} (step : σ → α → σ → Prop) (s : σ) : List (σ × α) → σ → Prop
  | nil : Exec step s [] s
  | snoc {xs t a u} : Exec step s xs t → step t a u → Exec step s (xs ++ [(t, a)]) u

namespace Exec
variable {σ α τ β : Type*} {step : σ → α → σ → Prop} {s t u : σ} {a : α} {xs ys : List (σ × α)}

theorem single (h : step s a t) : Exec step s [(s, a)] t := .snoc .nil h

theorem trans (h₁ : Exec step s xs t) (h₂ : Exec step t ys u) : Exec step s (xs ++ ys) u := by
  induction h₂ with
  | nil => simpa using h₁
  | snoc _ hs ih => rw [← List.append_assoc]; exact .snoc ih hs

/-- The last step of a run. -/
theorem snoc_inv {x : σ × α} (h : Exec step s (xs ++ [x]) u) :
    Exec step s xs x.1 ∧ step x.1 x.2 u := by
  generalize hys : xs ++ [x] = ys at h
  cases h with
  | nil => simp at hys
  | snoc h hs =>
    obtain ⟨rfl, hx⟩ := List.append_inj' hys rfl
    cases hx
    exact ⟨h, hs⟩

/-- A run can be cut anywhere. -/
theorem split (h : Exec step s (xs ++ ys) u) : ∃ t, Exec step s xs t ∧ Exec step t ys u := by
  induction ys using List.reverseRecOn generalizing u with
  | nil => exact ⟨u, by simpa using h, .nil⟩
  | append_singleton ys y ih =>
    rw [← List.append_assoc] at h
    obtain ⟨h, hs⟩ := h.snoc_inv
    obtain ⟨t, h₁, h₂⟩ := ih h
    exact ⟨t, h₁, h₂.snoc hs⟩

theorem nil_inv (h : Exec step s [] t) : t = s := by
  generalize hys : ([] : List (σ × α)) = ys at h
  cases h with
  | nil => rfl
  | snoc => simp at hys

/-- The first step of a run. -/
theorem cons_inv {x : σ × α} (h : Exec step s (x :: xs) u) :
    x.1 = s ∧ ∃ t, step s x.2 t ∧ Exec step t xs u := by
  obtain ⟨t, h₁, h₂⟩ := (show Exec step s ([x] ++ xs) u from h).split
  obtain ⟨h₀, hs⟩ := (show Exec step s ([] ++ [x]) t from h₁).snoc_inv
  have hx := h₀.nil_inv
  exact ⟨hx, t, hx ▸ hs, h₂⟩

/-- The state in which a step of a run was taken is reached by the run before it. -/
theorem before (h : Exec step s (xs ++ (t, a) :: ys) u) : Exec step s xs t := by
  obtain ⟨v, h₁, h₂⟩ := h.split
  obtain ⟨rfl, -⟩ := h₂.cons_inv
  exact h₁

/-- What holds at the start and is kept by the steps meeting `C` holds after every run of such
steps. -/
theorem invariant_of {C : σ → α → Prop} {P : σ → Prop} (h : Exec step s xs t)
    (hC : ∀ x ∈ xs, C x.1 x.2) (h₀ : P s)
    (hs : ∀ {t a u}, P t → C t a → step t a u → P u) : P t := by
  induction h with
  | nil => exact h₀
  | @snoc xs t a u _ hst ih =>
    refine hs (ih fun x hx => hC x (by simp [hx])) (hC (t, a) (by simp)) hst

/-- What holds at the start and is kept by every step holds after every run. -/
theorem invariant {P : σ → Prop} (h : Exec step s xs t) (h₀ : P s)
    (hs : ∀ {t a u}, P t → step t a u → P u) : P t := by
  induction h with
  | nil => exact h₀
  | snoc _ hst ih => exact hs ih hst

/-- A simulation: whatever one system does in a step that meets `C`, the other can do in a run that
leads to a related state. -/
theorem simulate_of {C : σ → α → Prop} {step' : τ → β → τ → Prop} {R : σ → τ → Prop} {v : τ}
    (h : Exec step s xs t) (hC : ∀ x ∈ xs, C x.1 x.2) (hR : R s v)
    (hs : ∀ {t v a u}, R t v → C t a → step t a u → ∃ ys w, Exec step' v ys w ∧ R u w) :
    ∃ ys w, Exec step' v ys w ∧ R t w := by
  refine h.invariant_of (P := fun t => ∃ ys w, Exec step' v ys w ∧ R t w) hC ⟨[], v, .nil, hR⟩ ?_
  rintro t a u ⟨ys, w, hy, hw⟩ hc hst
  obtain ⟨zs, z, hz, hR⟩ := hs hw hc hst
  exact ⟨ys ++ zs, z, hy.trans hz, hR⟩

theorem simulate {step' : τ → β → τ → Prop} {R : σ → τ → Prop} {v : τ} (h : Exec step s xs t)
    (hR : R s v) (hs : ∀ {t v a u}, R t v → step t a u → ∃ ys w, Exec step' v ys w ∧ R u w) :
    ∃ ys w, Exec step' v ys w ∧ R t w :=
  h.simulate_of (C := fun _ _ => True) (fun _ _ => trivial) hR fun hR _ => hs hR

/-- What shows of a run: where every step is a step of another system or leaves it alone, the run
shows a run of that system. -/
theorem view {step' : τ → β → τ → Prop} {f : σ → τ} {lab : σ → α → Option β} (h : Exec step s xs t)
    (hs : ∀ {t a u}, step t a u →
      (lab t a = none ∧ f u = f t) ∨ ∃ b, lab t a = some b ∧ step' (f t) b (f u)) :
    Exec step' (f s) (xs.filterMap fun x => (lab x.1 x.2).map fun b => (f x.1, b)) (f t) := by
  induction h with
  | nil => exact .nil
  | @snoc xs t a u _ hst ih =>
    rw [List.filterMap_append]
    rcases hs hst with ⟨hnone, he⟩ | ⟨b, hb, hstep⟩
    · rw [he]
      simpa [hnone] using ih
    · have hlast := ih.snoc hstep
      simpa [hb] using hlast

/-- One quantity against another: what the steps of a run pay out of `Φ` and add to it, while `Ψ`
is repaid, adds up over the run. -/
theorem balance (Φ Ψ : σ → Nat) (pay gain : σ → α → Nat) (h : Exec step s xs t)
    (hs : ∀ {t a u}, step t a u → Φ u + Ψ t + pay t a = Φ t + Ψ u + gain t a) :
    Φ t + Ψ s + (xs.map fun x => pay x.1 x.2).sum =
      Φ s + Ψ t + (xs.map fun x => gain x.1 x.2).sum := by
  induction h with
  | nil => rfl
  | @snoc xs t a u _ hst ih =>
    have hstep := hs hst
    simp only [List.map_append, List.sum_append, List.map_cons, List.map_nil, List.sum_cons,
      List.sum_nil]
    omega

theorem sum_toNat (p : σ × α → Bool) (xs : List (σ × α)) :
    (xs.map fun x => (p x).toNat).sum = xs.countP p := by
  induction xs with
  | nil => rfl
  | cons x xs ih => cases hp : p x <;> simp [hp, ih, Nat.add_comm]

/-- A countdown: when the steps that `p` counts are paid for out of `m`, no more of them are taken
than there was in it. -/
theorem countdown {C : σ → α → Prop} {P : σ → Prop} {m : σ → Nat} {p : α → Bool}
    (h : Exec step s xs t) (hC : ∀ x ∈ xs, C x.1 x.2) (h₀ : P s)
    (hs : ∀ {t a u}, P t → C t a → step t a u → P u ∧ m u + (p a).toNat ≤ m t) :
    P t ∧ m t + xs.countP (fun x => p x.2) ≤ m s := by
  induction h with
  | nil => exact ⟨h₀, Nat.le_refl _⟩
  | @snoc xs t a u _ hst ih =>
    obtain ⟨ht, hle⟩ := ih fun x hx => hC x (List.mem_append_left _ hx)
    obtain ⟨hu, hstep⟩ := hs ht (hC (t, a) (by simp)) hst
    refine ⟨hu, ?_⟩
    rw [List.countP_append, List.countP_singleton]
    cases hp : p a <;> simp [hp] at hstep ⊢ <;> omega

/-- Where a measure can be stepped down as long as the goal is not reached, some run reaches it, in
no more steps than there is measure. -/
theorem reaches {P Q : σ → Prop} {C : α → Prop} {m : σ → Nat} {s : σ} (h₀ : P s)
    (hs : ∀ {t}, P t → ¬ Q t → ∃ a u, C a ∧ step t a u ∧ P u ∧ m u < m t) :
    ∃ xs t, Exec step s xs t ∧ Q t ∧ (∀ x ∈ xs, C x.2) ∧ xs.length ≤ m s := by
  by_cases hg : Q s
  · exact ⟨[], s, .nil, hg, by simp, Nat.zero_le _⟩
  · obtain ⟨a, u, ha, hst, hu, hlt⟩ := hs h₀ hg
    obtain ⟨xs, t, hx, ht, hC, hlen⟩ := reaches hu hs
    refine ⟨(s, a) :: xs, t, (single hst).trans hx, ht, ?_, ?_⟩
    · exact List.forall_mem_cons.mpr ⟨ha, hC⟩
    · rw [List.length_cons]
      omega
termination_by m s

/-- What holds of every label holds of the label of every step. -/
theorem forall_labels {C : α → Prop} {as : List α} (has : xs.map Prod.snd = as)
    (h : ∀ a ∈ as, C a) : ∀ x ∈ xs, C x.2 := by
  intro x hx
  exact h _ (has ▸ List.mem_map_of_mem hx)

/-- The executable counterpart: fold a partial step over the labels. -/
def runs (f : σ → α → Option σ) (s : σ) (as : List α) : Option σ := as.foldlM f s

theorem runs_append {f : σ → α → Option σ} {as bs : List α} :
    runs f s (as ++ bs) = (runs f s as).bind fun t => runs f t bs := List.foldlM_append

theorem of_runs {f : σ → α → Option σ} (hf : ∀ {s a t}, f s a = some t → step s a t)
    {as : List α} (h : runs f s as = some t) :
    ∃ xs, Exec step s xs t ∧ xs.map Prod.snd = as := by
  induction as generalizing s with
  | nil =>
    simp only [runs, List.foldlM_nil, pure, Option.some.injEq] at h
    exact ⟨[], h ▸ .nil, rfl⟩
  | cons a as ih =>
    simp only [runs, List.foldlM_cons, bind, Option.bind_eq_some_iff] at h
    obtain ⟨u, hu, h⟩ := h
    obtain ⟨xs, hxs, rfl⟩ := ih h
    exact ⟨(s, a) :: xs, (single (hf hu)).trans hxs, rfl⟩

/-- Along a run of guarded steps the guard holds. -/
theorem of_guarded {C : σ → α → Prop} (h : Exec (fun s a t => C s a ∧ step s a t) s xs t) :
    Exec step s xs t ∧ ∀ x ∈ xs, C x.1 x.2 := by
  induction h with
  | nil => exact ⟨.nil, by simp⟩
  | snoc _ hst ih =>
    refine ⟨ih.1.snoc hst.2, ?_⟩
    intro x hx
    rcases List.mem_append.mp hx with hx | hx
    · exact ih.2 x hx
    · cases List.mem_singleton.mp hx
      exact hst.1

/-- A run read off an executable step that is tried only where `C` holds. -/
theorem of_runs_guarded {C : σ → α → Prop} [∀ s a, Decidable (C s a)] {f : σ → α → Option σ}
    (hf : ∀ {s a t}, f s a = some t → step s a t) {as : List α}
    (h : runs (fun s a => if C s a then f s a else none) s as = some t) :
    ∃ xs, Exec step s xs t ∧ xs.map Prod.snd = as ∧ ∀ x ∈ xs, C x.1 x.2 := by
  have hguard : ∀ {s a t}, (if C s a then f s a else none) = some t → C s a ∧ step s a t := by
    intro s a t h
    rw [Option.ite_none_right_eq_some] at h
    exact ⟨h.1, hf h.2⟩
  obtain ⟨xs, hx, hacts⟩ := of_runs hguard h
  obtain ⟨hx, hC⟩ := hx.of_guarded
  exact ⟨xs, hx, hacts, hC⟩

end Exec
end Lib
