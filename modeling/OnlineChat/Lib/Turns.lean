import OnlineChat.Lib.Interleave

/-!
# Components that take turns

An interleaving in which not more than one component is inside at a time. Where what a component
does inside is its `work` and one that has left does not come back, the work of one component is
never mixed with the work of another (`Turns.unmixed`).
-/

namespace Lib
variable {ι σ α : Type*}

/-- A step of one component, after which one at most is inside. -/
def Turns (step : σ → α → σ → Prop) (inside : σ → Prop) (f : ι → σ) (a : ι × α) (g : ι → σ) :
    Prop := Interleave step f a g ∧ ∀ i j, inside (g i) → inside (g j) → i = j

/-- Between two works of a component only that component works. -/
def Unmixed (work : α → Prop) (as : List (ι × α)) : Prop :=
  ∀ pre i a mid b post, as = pre ++ (i, a) :: mid ++ (i, b) :: post → work a → work b →
    ∀ c ∈ mid, work c.2 → c.1 = i

/-- A component that has worked has left, or it is inside and the last that has worked. -/
structure Turns.Ok (inside gone : σ → Prop) (work : α → Prop) (as : List (ι × α)) (g : ι → σ) :
    Prop where
  alone {i j : ι} : inside (g i) → inside (g j) → i = j
  last {pre i a post} : as = pre ++ (i, a) :: post → work a →
    gone (g i) ∨ inside (g i) ∧ ∀ c ∈ post, work c.2 → c.1 = i
  unmixed : Unmixed work as

namespace Turns
variable {step : σ → α → σ → Prop} {inside gone : σ → Prop} {work : α → Prop} {f g : ι → σ}
  {as : List (ι × α)} {xs : List ((ι → σ) × ι × α)}

theorem interleave (h : Exec (Turns step inside) f xs g) : Exec (Interleave step) f xs g := by
  induction h with
  | nil => exact .nil
  | snoc _ hst ih => exact ih.snoc hst.1

section
variable (hwork : ∀ {x a y}, step x a y → work a → inside x)
  (hleave : ∀ {x a y}, step x a y → inside x → inside y ∨ gone y)
  (hgone : ∀ {x a y}, step x a y → gone x → gone y ∧ ¬ inside x)
include hwork hleave hgone

theorem Ok.snoc {a : ι × α} (h : Ok inside gone work as f) (hst : Turns step inside f a g) :
    Ok inside gone work (as ++ [a]) g := by
  obtain ⟨⟨hstep, hother⟩, halone⟩ := hst
  refine ⟨halone _ _, ?_, ?_⟩
  · intro pre i b post has hb
    rcases snoc_eq_cons has with ⟨rfl, rfl, -⟩ | ⟨mid, rfl, rfl⟩
    · rcases hleave hstep (hwork hstep hb) with hin | hout
      · exact .inr ⟨hin, by simp⟩
      · exact .inl hout
    · by_cases hi : i = a.1
      · subst hi
        rcases h.last rfl hb with hout | ⟨hin, hmid⟩
        · exact .inl (hgone hstep hout).1
        · refine (hleave hstep hin).symm.imp_right fun hin => ⟨hin, ?_⟩
          intro c hc hw
          rcases List.mem_append.mp hc with hc | hc
          · exact hmid c hc hw
          · rw [List.mem_singleton.mp hc]
      · rw [hother i hi]
        refine (h.last rfl hb).imp_right fun ⟨hin, hmid⟩ => ⟨hin, ?_⟩
        intro c hc hw
        rcases List.mem_append.mp hc with hc | hc
        · exact hmid c hc hw
        · cases List.mem_singleton.mp hc
          exact h.alone (hwork hstep hw) hin
  · intro pre i b mid c post has hb hc
    rcases snoc_eq_cons has with ⟨-, rfl, rfl⟩ | ⟨post, -, rfl⟩
    · rcases h.last rfl hb with hout | ⟨-, hmid⟩
      · exact absurd (hwork hstep hc) (hgone hstep hout).2
      · exact hmid
    · exact h.unmixed _ _ _ _ _ _ rfl hb hc

/-- The works of the components are not mixed. -/
theorem unmixed (h : Exec (Turns step inside) f xs g) (hf : ∀ i, ¬ inside (f i)) :
    Unmixed work (xs.map Prod.snd) := by
  have hok : Ok inside gone work (xs.map Prod.snd) g := by
    induction h with
    | nil =>
      refine ⟨fun hi => absurd hi (hf _), ?_, ?_⟩
      · intro pre i a post has
        simp at has
      · intro pre i a mid b post has
        simp at has
    | snoc _ hst ih =>
      rw [List.map_append]
      exact Ok.snoc @hwork @hleave @hgone ih hst
  exact hok.unmixed

end
end Turns
end Lib
