import OnlineChat.Lib.Exec
import Mathlib.Data.List.Nodup

/-!
# Histories of opening and closing

A history is a list of events, oldest first, some of which open a resource and some of which
close it. `NoDoubleClose` says that it is opened again between any two closings. It is kept by
appending events as long as a closing is only appended when the last one has been followed by an
opening (`ClosedLast`). A `Ledger` ties the history to the state the resource is in. Where events
name the resource they open or close, an `Account` says that none is opened or closed twice, and
`outstanding` lists those that are still to be closed.
-/

namespace Lib

section
variable {ε : Type*} (opens closes : ε → Prop)

/-- Between two closings there is an opening. -/
def NoDoubleClose (es : List ε) : Prop :=
  ∀ as a bs b cs, es = as ++ a :: (bs ++ b :: cs) → closes a → closes b → ∃ o ∈ bs, opens o

/-- Some closing is not followed by an opening. -/
def ClosedLast (es : List ε) : Prop :=
  ∃ as a bs, es = as ++ a :: bs ∧ closes a ∧ ∀ o ∈ bs, ¬ opens o

variable {opens closes} {es : List ε} {e : ε}

theorem NoDoubleClose.nil : NoDoubleClose opens closes [] := by
  intro as a bs b cs h
  simp at h

theorem NoDoubleClose.snoc (h : NoDoubleClose opens closes es)
    (he : closes e → ¬ ClosedLast opens closes es) : NoDoubleClose opens closes (es ++ [e]) := by
  intro as a bs b cs heq ha hb
  rw [← List.cons_append, ← List.append_assoc] at heq
  obtain ⟨-, rfl, rfl⟩ | ⟨cs', -, heq'⟩ := snoc_eq_cons heq
  · by_contra hno
    push Not at hno
    exact he hb ⟨as, a, bs, rfl, ha, hno⟩
  · exact h as a bs b cs' (by simpa using heq') ha hb

theorem closedLast_nil : ¬ ClosedLast opens closes ([] : List ε) := by
  rintro ⟨as, a, bs, h, -⟩
  simp at h

theorem closedLast_snoc (h : ClosedLast opens closes (es ++ [e])) :
    closes e ∨ ¬ opens e ∧ ClosedLast opens closes es := by
  obtain ⟨as, a, bs, heq, ha, hbs⟩ := h
  obtain ⟨-, rfl, -⟩ | ⟨bs', rfl, rfl⟩ := snoc_eq_cons heq
  · exact .inl ha
  · exact .inr ⟨hbs e (by simp), as, a, bs', rfl, ha, fun o ho => hbs o (by simp [ho])⟩

theorem closedLast_append {fs : List ε} (hfs : ∀ f ∈ fs, ¬ closes f)
    (h : ClosedLast opens closes (es ++ fs)) :
    ClosedLast opens closes es ∧ ∀ f ∈ fs, ¬ opens f := by
  induction fs using List.reverseRecOn with
  | nil => exact ⟨by simpa using h, fun _ h => nomatch h⟩
  | append_singleton fs f ih =>
    rw [← List.append_assoc] at h
    rcases closedLast_snoc h with hf | ⟨hf, h⟩
    · exact absurd hf (hfs f (by simp))
    · obtain ⟨h, ho⟩ := ih (fun g hg => hfs g (by simp [hg])) h
      refine ⟨h, fun g hg => ?_⟩
      rcases List.mem_append.mp hg with hg | hg
      · exact ho g hg
      · rwa [List.mem_singleton.mp hg]

theorem NoDoubleClose.append {fs : List ε} (h : NoDoubleClose opens closes es)
    (hfs : ∀ f ∈ fs, ¬ closes f) : NoDoubleClose opens closes (es ++ fs) := by
  induction fs using List.reverseRecOn with
  | nil => simpa using h
  | append_singleton fs f ih =>
    rw [← List.append_assoc]
    exact (ih fun g hg => hfs g (by simp [hg])).snoc fun hf => absurd hf (hfs f (by simp))

variable (opens closes) in
/-- The history closes nothing twice, and `free` is true after a closing. -/
structure Ledger (es : List ε) (free : Prop) : Prop where
  once : NoDoubleClose opens closes es
  free_of_closed : ClosedLast opens closes es → free

namespace Ledger
variable {free free' : Prop} {fs : List ε}

theorem nil : Ledger opens closes [] free := ⟨.nil, fun h => absurd h closedLast_nil⟩

/-- What is free stays free unless it is opened. -/
theorem append (h : Ledger opens closes es free) (hfs : ∀ f ∈ fs, ¬ closes f)
    (hfree : free → free' ∨ ∃ f ∈ fs, opens f) : Ledger opens closes (es ++ fs) free' := by
  refine ⟨h.once.append hfs, fun hl => ?_⟩
  obtain ⟨hl, ho⟩ := closedLast_append hfs hl
  rcases hfree (h.free_of_closed hl) with hf | ⟨f, hf, hf'⟩
  · exact hf
  · exact absurd hf' (ho f hf)

/-- What is not free may be closed, once, among other events. -/
theorem close {as bs : List ε} (h : Ledger opens closes es free) (hn : ¬ free) (hfree : free')
    (has : ∀ a ∈ as, ¬ closes a) (hbs : ∀ b ∈ bs, ¬ closes b) :
    Ledger opens closes (es ++ (as ++ e :: bs)) free' := by
  have h₁ : Ledger opens closes (es ++ as) False := h.append has fun hf => absurd hf hn
  have h₂ : Ledger opens closes (es ++ as ++ [e]) True :=
    ⟨h₁.once.snoc fun _ hl => h₁.free_of_closed hl, fun _ => trivial⟩
  have h₃ : Ledger opens closes (es ++ as ++ [e] ++ bs) free' := h₂.append hbs fun _ => .inl hfree
  simpa using h₃

end Ledger
end

/-! ## Paired histories -/

section
variable {ε : Type*} (opens closes : ε → Prop)

/-- The last opening has not been followed by a closing. -/
def OpenLast (es : List ε) : Prop :=
  ∃ as a bs, es = as ++ a :: bs ∧ opens a ∧ ∀ b ∈ bs, ¬ closes b

/-- Every closing comes after an opening of its own. -/
def Paired (es : List ε) : Prop :=
  ∀ as c bs, es = as ++ c :: bs → closes c → OpenLast opens closes as

variable {opens closes} {es : List ε} {e : ε}

theorem not_openLast_nil : ¬ OpenLast opens closes ([] : List ε) := by
  rintro ⟨as, a, bs, h, -⟩
  simp at h

theorem openLast_snoc :
    OpenLast opens closes (es ++ [e]) ↔ opens e ∨ ¬ closes e ∧ OpenLast opens closes es := by
  constructor
  · rintro ⟨as, a, bs, heq, ha, hbs⟩
    obtain ⟨-, rfl, -⟩ | ⟨bs', rfl, rfl⟩ := snoc_eq_cons heq
    · exact .inl ha
    · exact .inr ⟨hbs e (by simp), as, a, bs', rfl, ha, fun b hb => hbs b (by simp [hb])⟩
  · rintro (he | ⟨he, as, a, bs, rfl, ha, hbs⟩)
    · exact ⟨es, e, [], rfl, he, fun _ h => nomatch h⟩
    · refine ⟨as, a, bs ++ [e], by simp, ha, ?_⟩
      intro b hb
      rcases List.mem_append.mp hb with hb | hb
      · exact hbs b hb
      · exact List.mem_singleton.mp hb ▸ he

theorem Paired.nil : Paired opens closes [] := by
  intro as c bs h
  simp at h

theorem Paired.snoc (h : Paired opens closes es) (he : closes e → OpenLast opens closes es) :
    Paired opens closes (es ++ [e]) := by
  intro as c bs heq hc
  obtain ⟨-, rfl, rfl⟩ | ⟨bs', -, heq⟩ := snoc_eq_cons heq
  · exact he hc
  · exact h as c bs' heq hc

end

/-! ## Named resources -/

section
variable {ε ρ : Type*} (opened closed : ε → Option ρ)

/-- Nothing is opened twice or closed twice, and only what was opened is closed. -/
structure Account (es : List ε) : Prop where
  opened_nodup : (es.filterMap opened).Nodup
  closed_nodup : (es.filterMap closed).Nodup
  closed_subset : es.filterMap closed ⊆ es.filterMap opened

variable {opened closed} {es : List ε} {e : ε} {r : ρ}

theorem filterMap_snoc_none (h : opened e = none) :
    (es ++ [e]).filterMap opened = es.filterMap opened := by
  rw [List.filterMap_append, List.filterMap_cons_none h, List.filterMap_nil, List.append_nil]

theorem filterMap_snoc_some (h : opened e = some r) :
    (es ++ [e]).filterMap opened = es.filterMap opened ++ [r] := by
  rw [List.filterMap_append, List.filterMap_cons_some h, List.filterMap_nil]

namespace Account

theorem nil : Account opened closed [] := ⟨List.nodup_nil, List.nodup_nil, List.nil_subset _⟩

theorem skip (h : Account opened closed es) (ho : opened e = none) (hc : closed e = none) :
    Account opened closed (es ++ [e]) := by
  constructor
  · rw [filterMap_snoc_none ho]; exact h.opened_nodup
  · rw [filterMap_snoc_none hc]; exact h.closed_nodup
  · rw [filterMap_snoc_none ho, filterMap_snoc_none hc]; exact h.closed_subset

theorem opens (h : Account opened closed es) (ho : opened e = some r) (hc : closed e = none)
    (hr : r ∉ es.filterMap opened) : Account opened closed (es ++ [e]) := by
  constructor
  · rw [filterMap_snoc_some ho, ← List.concat_eq_append]
    exact h.opened_nodup.concat hr
  · rw [filterMap_snoc_none hc]; exact h.closed_nodup
  · rw [filterMap_snoc_some ho, filterMap_snoc_none hc]
    exact List.subset_append_of_subset_left _ h.closed_subset

theorem closes (h : Account opened closed es) (ho : opened e = none) (hc : closed e = some r)
    (hr : r ∈ es.filterMap opened) (hr' : r ∉ es.filterMap closed) :
    Account opened closed (es ++ [e]) := by
  constructor
  · rw [filterMap_snoc_none ho]; exact h.opened_nodup
  · rw [filterMap_snoc_some hc, ← List.concat_eq_append]
    exact h.closed_nodup.concat hr'
  · rw [filterMap_snoc_none ho, filterMap_snoc_some hc]
    exact List.append_subset.mpr ⟨h.closed_subset, List.cons_subset.mpr ⟨hr, List.nil_subset _⟩⟩

end Account

variable [DecidableEq ρ]

variable (opened closed) in
/-- What the history opens and does not close, oldest first. -/
def outstanding (es : List ε) : List ρ :=
  (es.filterMap opened).filter fun r => r ∉ es.filterMap closed

theorem mem_outstanding : r ∈ outstanding opened closed es ↔
    r ∈ es.filterMap opened ∧ r ∉ es.filterMap closed := by
  simp [outstanding, -List.mem_filterMap]

theorem outstanding_skip (ho : opened e = none) (hc : closed e = none) :
    outstanding opened closed (es ++ [e]) = outstanding opened closed es := by
  rw [outstanding, outstanding, filterMap_snoc_none ho, filterMap_snoc_none hc]

theorem outstanding_close (ho : opened e = none) (hc : closed e = some r) :
    outstanding opened closed (es ++ [e]) = (outstanding opened closed es).filter (· ≠ r) := by
  simp only [outstanding, filterMap_snoc_none ho, filterMap_snoc_some hc, List.filter_filter,
    List.mem_append, List.mem_singleton, not_or]
  refine List.filter_congr fun x _ => ?_
  rw [Bool.decide_and, Bool.and_comm]

/-- What has not been opened has not been closed. -/
theorem Account.outstanding_open (h : Account opened closed es) (ho : opened e = some r)
    (hc : closed e = none) (hr : r ∉ es.filterMap opened) :
    outstanding opened closed (es ++ [e]) = outstanding opened closed es ++ [r] := by
  have hr' : r ∉ es.filterMap closed := fun hm => hr (h.closed_subset hm)
  simp [outstanding, ho, hc, -List.mem_filterMap, hr']

/-- Where nothing is outstanding, everything has been closed exactly once. -/
theorem Account.closed_once (h : Account opened closed es)
    (hnone : outstanding opened closed es = []) (hr : r ∈ es.filterMap opened) :
    (es.filterMap closed).count r = 1 := by
  refine List.count_eq_one_of_mem h.closed_nodup ?_
  by_contra hr'
  have hmem := mem_outstanding.mpr ⟨hr, hr'⟩
  rw [hnone] at hmem
  exact List.not_mem_nil hmem

end

end Lib
