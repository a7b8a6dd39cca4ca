import OnlineChat.Lib.Exec

/-!
# Edge-triggered sources

A source is a queue with one readiness edge. An arrival enters the queue and sets the edge, a
report clears the edge and hands out the duty to take, and a take removes the head of the queue.
A program that waits for the edge before it takes needs the source to be `Announced` whenever no
take is due: what is queued has an edge that is still to be reported. `announced_iff` says of a
program that takes once for every report when that is so: it depends on the last take of the run.
-/

namespace Lib

structure Source (κ : Type*) where
  queue : List κ
  edge : Bool
  /-- A report has been handed out, and the take it asks for is still to come. -/
  due : Prop

namespace Source

inductive Op
  | arrive
  | report
  | take
  | other
  deriving DecidableEq

variable {κ : Type*}

/-- What an operation does to a source. -/
inductive Step (s : Source κ) : Op → Source κ → Prop
  | arrive {x s'} (hq : s'.queue = s.queue ++ [x]) (he : s'.edge = true)
      (hd : s'.due ↔ s.due) : Step s .arrive s'
  | report {s'} (hd : s'.due) : Step s .report s'
  | take {s'} (hq : s'.queue = s.queue.tail) (he : s'.edge = s.edge) (hd : ¬ s'.due) :
      Step s .take s'
  | other {s'} (hq : s'.queue = s.queue) (he : s'.edge = s.edge) (hd : s'.due ↔ s.due) :
      Step s .other s'

/-- What is queued will be reported. -/
def Announced (s : Source κ) : Prop := s.queue ≠ [] → s.edge = true

section
variable {σ α : Type*} (view : σ → Source κ) (op : σ → α → Op)

/-- The last take of the run left nothing behind that is not announced. -/
def Served (xs : List (σ × α)) : Prop :=
  ∀ ys x zs, xs = ys ++ x :: zs → op x.1 x.2 = .take → (∀ z ∈ zs, op z.1 z.2 ≠ .take) →
    (view x.1).queue.length ≤ 1 ∨ (view x.1).edge = true ∨ ∃ z ∈ zs, op z.1 z.2 = .arrive

variable {view op} {step : σ → α → σ → Prop} {s t u : σ} {a : α} {x : σ × α} {xs : List (σ × α)}

theorem served_nil : Served view op [] := by
  intro ys x zs h
  simp at h

theorem served_arrive (hx : op x.1 x.2 = .arrive) : Served view op (xs ++ [x]) := by
  intro ys y zs h hy _
  obtain ⟨-, rfl, -⟩ | ⟨zs', rfl, -⟩ := snoc_eq_cons h
  · rw [hx] at hy
    cases hy
  · exact .inr (.inr ⟨x, by simp, hx⟩)

theorem served_take (hx : op x.1 x.2 = .take) :
    Served view op (xs ++ [x]) ↔ (view x.1).queue.length ≤ 1 ∨ (view x.1).edge = true := by
  constructor
  · intro h
    rcases h xs x [] rfl hx nofun with hl | he | ⟨z, hz, -⟩
    · exact .inl hl
    · exact .inr he
    · cases hz
  · intro hs ys y zs h hy hzs
    obtain ⟨-, rfl, -⟩ | ⟨zs', rfl, -⟩ := snoc_eq_cons h
    · rcases hs with hl | he
      · exact .inl hl
      · exact .inr (.inl he)
    · exact absurd hx (hzs x (by simp))

theorem served_other (ht : op x.1 x.2 ≠ .take) (ha : op x.1 x.2 ≠ .arrive) :
    Served view op (xs ++ [x]) ↔ Served view op xs := by
  constructor
  · intro h ys y zs heq hy hzs
    have heq' : xs ++ [x] = ys ++ y :: (zs ++ [x]) := by rw [heq, List.append_assoc]; rfl
    have hzs' : ∀ z ∈ zs ++ [x], op z.1 z.2 ≠ .take := by
      intro z hz
      rcases List.mem_append.mp hz with hz | hz
      · exact hzs z hz
      · exact List.mem_singleton.mp hz ▸ ht
    rcases h ys y (zs ++ [x]) heq' hy hzs' with hl | he | ⟨z, hz, hz'⟩
    · exact .inl hl
    · exact .inr (.inl he)
    · rcases List.mem_append.mp hz with hz | hz
      · exact .inr (.inr ⟨z, hz, hz'⟩)
      · exact absurd hz' (List.mem_singleton.mp hz ▸ ha)
  · intro h ys y zs heq hy hzs
    obtain ⟨-, rfl, -⟩ | ⟨zs', rfl, rfl⟩ := snoc_eq_cons heq
    · exact absurd hy ht
    · rcases h ys y zs' rfl hy (fun z hz => hzs z (by simp [hz])) with hl | he | ⟨z, hz, hz'⟩
      · exact .inl hl
      · exact .inr (.inl he)
      · exact .inr (.inr ⟨z, by simp [hz], hz'⟩)

/-- What a step makes of it. -/
theorem Step.announced_iff (h : Step (view t) (op t a) (view u)) (hd : ¬ (view u).due)
    (ih : ¬ (view t).due → ((view t).Announced ↔ Served view op xs)) :
    (view u).Announced ↔ Served view op (xs ++ [(t, a)]) := by
  generalize hop : op t a = o at h
  cases h with
  | arrive hq he hdue => exact ⟨fun _ => served_arrive hop, fun _ _ => he⟩
  | report hdue => exact absurd hdue hd
  | take hq he =>
    rw [served_take hop, Announced, hq, he]
    cases (view t).queue with
    | nil => simp
    | cons k ks => cases ks <;> simp
  | other hq he hdue =>
    rw [served_other (by rw [hop]; nofun) (by rw [hop]; nofun), ← ih (fun h => hd (hdue.mpr h)),
      Announced, Announced, hq, he]

/-- A program whose steps are steps of the source is announced, whenever no take is due, exactly
when its last take was served. -/
theorem announced_iff {P : σ → Prop} (hx : Exec step s xs t) (hP : P s)
    (hPs : ∀ {t a u}, (t, a) ∈ xs → P t → step t a u → P u)
    (hs : ∀ {t a u}, (t, a) ∈ xs → P t → step t a u → Step (view t) (op t a) (view u))
    (hempty : (view s).queue = []) (hd : ¬ (view t).due) :
    (view t).Announced ↔ Served view op xs := by
  suffices h : P t ∧ (¬ (view t).due → ((view t).Announced ↔ Served view op xs)) from h.2 hd
  clear hd
  induction hx with
  | nil => exact ⟨hP, fun _ => ⟨fun _ => served_nil, fun _ h => absurd hempty h⟩⟩
  | @snoc xs t a u hx hst ih =>
    obtain ⟨ht, ih⟩ := ih (fun hm => hPs (List.mem_append_left _ hm))
      (fun hm => hs (List.mem_append_left _ hm))
    have hmem : (t, a) ∈ xs ++ [(t, a)] := by simp
    exact ⟨hPs hmem ht hst, fun hd => (hs hmem ht hst).announced_iff hd ih⟩

end
end Source
end Lib
