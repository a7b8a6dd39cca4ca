import Mathlib.Data.List.Nodup
import OnlineChat.ChatServer.Descriptors

/-!
# Clients whose readiness is reported

A client is registered edge-triggered, so an `EPOLLIN` that the loop does not act on is lost. The
loop compares the whole mask with `EPOLLIN`: a client that is reported with `EPOLLERR` or
`EPOLLHUP` besides is skipped and stays open for good. `Reached` is what holds of an informed
client while the masks are exact, `Skipped` what holds of one that was reported with more.
-/

namespace OnlineChat.ChatServer
open Lib Function

/-- `epoll_wait` reports `EPOLLIN` for `fd`. -/
def Act.Reports (fd : Fd) : Act → Prop
  | .wait batch => ∃ m, (fd, m) ∈ batch ∧ m.has EPOLLIN = true
  | _ => False

/-- Where `epoll_wait` reports `EPOLLIN` for a client, it reports nothing else. -/
def Act.ExactIn (s : Server) : Act → Prop
  | .wait batch => ∀ e ∈ batch, e.1 ≠ s.serverfd → e.2.has EPOLLIN = true → e.2 = EPOLLIN
  | _ => True

/-- `EPOLLIN` has been reported for `fd` since `accept` last returned it. -/
def Informed (fd : Fd) (xs : List (Server × Act)) : Prop :=
  OpenLast (Act.Reports fd) (· = .accept fd) (xs.map Prod.snd)

theorem informed_snoc {fd : Fd} {xs : List (Server × Act)} {s : Server} {a : Act} :
    Informed fd (xs ++ [(s, a)]) ↔ a.Reports fd ∨ a ≠ .accept fd ∧ Informed fd xs := by
  rw [Informed, List.map_append]
  exact openLast_snoc

/-- The events of the batch whose turn is still to come. -/
def Pc.todo : Pc → List EpollEvent
  | .waiting => []
  | .dispatch todo | .accepting todo | .receiving _ todo => todo

namespace Server

/-- The loop is reading from `fd` or will be. -/
def Turn (s : Server) (fd : Fd) : Prop :=
  ⟨EPOLLIN, fd⟩ ∈ s.pc.todo ∨ ∃ todo, s.pc = .receiving fd todo

/-- An informed client has been closed, or its turn is coming. -/
def Reached (s : Server) (xs : List (Server × Act)) : Prop :=
  ∀ fd, fd ≠ s.serverfd → Informed fd xs → s.kernel.file fd = none ∨ s.Turn fd

/-- The client `fd` is open and the loop is not going to read from it. -/
structure Skipped (s : Server) (fd : Fd) : Prop where
  client : ∃ k, s.kernel.file fd = some (.conn k)
  todo : ∀ e ∈ s.pc.todo, e.data = fd → e.events ≠ EPOLLIN
  pc {rest : List EpollEvent} : s.pc ≠ .receiving fd rest

section
variable {s s' t : Server} {a : Act} {fd : Fd} {xs : List (Server × Act)}

/-- What a step does to one descriptor. -/
theorem FdStep.file (h : FdStep s s' a) (fd : Fd) :
    s'.kernel.file fd = s.kernel.file fd ∨ (a = .accept fd ∧ s.kernel.file fd = none) ∨
      (s'.kernel.file fd = none ∧ ∃ todo, s.pc = .receiving fd todo) := by
  cases h with
  | same hf => exact .inl (congrFun hf fd)
  | @add r k ok hr hf =>
    by_cases hfd : fd = r
    · exact .inr (.inl ⟨by rw [hfd], hfd ▸ hr⟩)
    · exact .inl (by rw [hf, update_of_ne hfd])
  | @drop gone todo r hpc hpc' hf =>
    by_cases hfd : fd = gone
    · exact .inr (.inr ⟨by rw [hf, hfd, update_self], todo, hfd ▸ hpc⟩)
    · exact .inl (by rw [hf, update_of_ne hfd])

/-- A turn that has come up is taken. -/
theorem Trans.turn_or (h : Trans s a s') (hw : a.isWait = false) (hs : fd ≠ s.serverfd)
    (ht : s.Turn fd) : s'.Turn fd ∨ ∃ todo, s.pc = .receiving fd todo ∧ s' = s.dropped fd todo := by
  rcases ht with hm | ⟨todo, hpc'⟩
  · cases h with
    | connect | segment | recv => exact .inl (.inl hm)
    | wait => cases hw
    | turn hpc =>
      rw [hpc] at hm
      exact absurd hm List.not_mem_nil
    | enterAccept hpc he =>
      rw [hpc] at hm
      rcases List.mem_cons.mp hm with rfl | hm
      · exact absurd he hs
      · exact .inl (.inl hm)
    | enterRecv hpc =>
      rw [hpc] at hm
      rcases List.mem_cons.mp hm with rfl | hm
      · exact .inl (.inr ⟨_, rfl⟩)
      · exact .inl (.inl hm)
    | skip hpc _ hne =>
      rw [hpc] at hm
      rcases List.mem_cons.mp hm with rfl | hm
      · exact absurd rfl hne
      · exact .inl (.inl hm)
    | acceptFail hpc | accept hpc | leave hpc =>
      rw [hpc] at hm
      exact .inl (.inl hm)
  · cases h with
    | connect | segment => exact .inl (.inr ⟨todo, hpc'⟩)
    | recv => exact .inl (.inr ⟨todo, hpc'⟩)
    | leave hpc =>
      rw [hpc] at hpc'
      cases hpc'
      exact .inr ⟨todo, hpc, rfl⟩
    | wait hpc | turn hpc | enterAccept hpc | enterRecv hpc | skip hpc | acceptFail hpc
    | accept hpc =>
      rw [hpc] at hpc'
      cases hpc'

/-- What is reported exactly gets its turn. -/
theorem Inv.turn_of_wait (h : s.Inv) {batch : List (Fd × Mask)}
    (hreg : ∀ e ∈ batch, (s.kernel.interest e.1).isSome) (hm : (fd, EPOLLIN) ∈ batch) :
    ⟨EPOLLIN, fd⟩ ∈ s.kernel.reported batch := by
  obtain ⟨ev, hev⟩ := Option.isSome_iff_exists.mp (hreg _ hm)
  refine List.mem_filterMap.mpr ⟨_, hm, ?_⟩
  rw [hev, (h.table.interest.mp hev).1]
  rfl

/-- Closing is the end of a turn. -/
theorem Reached.step (h : s.Reached xs) (hinv : s.Inv) (hs : s.Step a s') (ha : a.ExactIn s) :
    s'.Reached (xs ++ [(s, a)]) := by
  intro fd hfd hin
  have ht := hs.trans
  rw [ht.serverfd] at hfd
  have hfile := (hinv.fdStep ht).file fd
  cases hw : a.isWait with
  | true =>
    cases ht with
    | @wait batch hpc _ hreg =>
      rcases informed_snoc.mp hin with ⟨m, hm, hin⟩ | ⟨-, hin⟩
      · have hexact : m = EPOLLIN := ha _ hm hfd hin
        exact .inr (.inl (hinv.turn_of_wait hreg (hexact ▸ hm)))
      · rcases h fd hfd hin with hnone | hm | ⟨todo, hpc'⟩
        · exact .inl ((congrFun (Kernel.report_file _) fd).trans hnone)
        · rw [hpc] at hm
          exact absurd hm List.not_mem_nil
        · rw [hpc] at hpc'
          cases hpc'
    | _ => cases hw
  | false =>
    have hin' : a ≠ .accept fd ∧ Informed fd xs := by
      refine (informed_snoc.mp hin).resolve_left ?_
      cases a with
      | wait => cases hw
      | _ => exact id
    rcases h fd hfd hin'.2 with hnone | hturn
    · rcases hfile with he | ⟨rfl, -⟩ | ⟨he, -⟩
      · exact .inl (he.trans hnone)
      · exact absurd rfl hin'.1
      · exact .inl he
    · rcases ht.turn_or hw hfd hturn with hturn | ⟨todo, hpc, rfl⟩
      · exact .inr hturn
      · obtain ⟨k, hk⟩ := hinv.client hpc
        have hclose : (s.kernel.close fd).file = update s.kernel.file fd none :=
          Kernel.close_file (by rw [hk]; rfl)
        have hf : (s.dropped fd todo).kernel.file = (s.kernel.close fd).file := Kernel.ctl_file ..
        rw [hf, hclose, update_self]
        exact .inl rfl

/-- A client that has been skipped stays where it is. -/
theorem Skipped.step (h : s.Skipped fd) (hinv : s.Inv) (hs : s.Step a s')
    (hw : a.isWait = false) : s'.Skipped fd ∧ a ≠ .accept fd := by
  obtain ⟨k, hk⟩ := h.client
  have ht := hs.trans
  have hne : a ≠ .accept fd ∧ s'.kernel.file fd = some (.conn k) := by
    rcases (hinv.fdStep ht).file fd with he | ⟨-, he⟩ | ⟨-, todo, hpc⟩
    · refine ⟨?_, he.trans hk⟩
      rintro rfl
      cases hinv.fdStep ht with
      | same _ _ htr =>
        cases ht with
        | acceptFail =>
          cases (Kernel.file_nonneg hk)
        | accept hpc hr hne =>
          have hfree := (hr.1.resolve_left hne).2
          rw [hk] at hfree
          cases hfree
      | add hr =>
        rw [hk] at hr
        cases hr
    · rw [hk] at he
      cases he
    · exact absurd hpc h.pc
  refine ⟨⟨⟨k, hne.2⟩, ?_, ?_⟩, hne.1⟩
  · intro e he
    cases ht with
    | connect | segment | recv => exact h.todo e he
    | wait => cases hw
    | turn => cases he
    | enterAccept hpc | enterRecv hpc | skip hpc =>
      exact h.todo e (by rw [hpc]; exact List.mem_cons_of_mem _ he)
    | acceptFail hpc | accept hpc | leave hpc => exact h.todo e (by rw [hpc]; exact he)
  · intro rest hpc'
    cases ht with
    | connect | segment | recv => exact h.pc hpc'
    | wait => cases hw
    | enterRecv hpc _ hin =>
      cases hpc'
      exact h.todo _ (by rw [hpc]; exact List.mem_cons_self) rfl hin
    | turn | enterAccept | skip | acceptFail | accept | leave => cases hpc'

/-- A skipped client is still there when the loop comes back to `epoll_wait`. -/
theorem Skipped.until_wait (h : s.Skipped fd) (hinv : s.Inv) (hx : Exec Step s xs s')
    (hpc : s'.pc = .waiting) : ∃ ys t, ys <+: xs ∧ Exec Step s ys t ∧ t.pc = .waiting ∧
      t.Skipped fd ∧ ∀ y ∈ ys, y.2 ≠ .accept fd := by
  induction xs generalizing s with
  | nil =>
    cases hx.nil_inv
    exact ⟨[], _, List.nil_prefix, .nil, hpc, h, by simp⟩
  | cons x xs ih =>
    obtain ⟨rfl, u, hst, hx⟩ := hx.cons_inv
    cases hw : x.2.isWait with
    | true =>
      obtain ⟨w, a⟩ := x
      cases a with
      | wait batch => exact ⟨[], _, List.nil_prefix, .nil, hst.1.1, h, by simp⟩
      | _ => cases hw
    | false =>
      obtain ⟨hu, hne⟩ := h.step hinv hst hw
      obtain ⟨ys, t, hpre, hy, htw, ht, hno⟩ := ih hu (hinv.step hst) hx
      refine ⟨x :: ys, t, List.cons_prefix_cons.mpr ⟨rfl, hpre⟩,
        (Exec.single hst).trans hy, htw, ht, ?_⟩
      intro y hy
      rcases List.mem_cons.mp hy with rfl | hy
      · exact hne
      · exact hno y hy

/-- A client that is reported with more than `EPOLLIN` is skipped. -/
theorem Inv.skipped (h : s.Inv) {batch : List (Fd × Mask)} (hs : s.Step (.wait batch) s')
    {m : Mask} (hm : (fd, m) ∈ batch) (hfd : fd ≠ s.serverfd) (hne : m ≠ EPOLLIN) :
    s'.Skipped fd := by
  cases hs.trans with
  | wait hpc hnd hreg =>
    obtain ⟨k, hk⟩ := (h.table.interest_isSome.mp (hreg _ hm)).resolve_left hfd
    refine ⟨⟨k, (congrFun (Kernel.report_file _) fd).trans hk⟩, ?_, by simp⟩
    intro e he hdata
    obtain ⟨x, hx, hrep⟩ := List.mem_filterMap.mp he
    obtain ⟨ev, hev, rfl⟩ := Option.map_eq_some_iff.mp hrep
    have hxfd : x.1 = fd := by
      rw [(h.table.interest.mp hev).1] at hdata
      exact hdata
    have hxm := List.inj_on_of_nodup_map hnd hx hm hxfd
    rw [hxm]
    exact hne

end
end Server

/-- Whenever the run comes back to `epoll_wait`, every client whose `EPOLLIN` has been reported is
closed and out of the interest set. -/
def Boot.StrandsNobody (e : Boot) (s₀ : Server) (xs : List (Server × Act)) : Prop :=
  ∀ ys t, ys <+: xs → Exec Server.Step s₀ ys t → t.pc = .waiting →
    ∀ fd, fd ≠ e.serverfd → Informed fd ys →
      t.kernel.isOpen fd = false ∧ t.kernel.interest fd = none

/-- No client is stranded exactly in the runs in which `EPOLLIN` is reported alone. -/
theorem Boot.strandsNobody_iff {e : Boot} {s₀ s : Server} {xs : List (Server × Act)}
    (hb : e.main = some s₀) (hx : Exec Server.Step s₀ xs s) (hpc : s.pc = .waiting) :
    e.StrandsNobody s₀ xs ↔ ∀ x ∈ xs, x.2.ExactIn x.1 := by
  constructor
  · intro hall x hmem
    obtain ⟨ys, zs, rfl⟩ := List.append_of_mem hmem
    obtain ⟨w, a⟩ := x
    cases a with
    | wait batch =>
      intro b hb' hfd hin
      by_contra hne
      obtain ⟨hinv, -, hserv⟩ := Boot.exec hb hx.before
      obtain ⟨u, hpre, hpost⟩ := hx.split
      obtain ⟨rfl, v, hst, hpost⟩ := hpost.cons_inv
      have hskip : v.Skipped b.1 := hinv.skipped hst hb' hfd hne
      obtain ⟨zs', t, hzs, hy, htw, ht, hno⟩ := hskip.until_wait (hinv.step hst) hpost hpc
      have hrun : Exec Server.Step s₀ (ys ++ (w, .wait batch) :: zs') t :=
        hpre.trans ((Exec.single hst).trans hy)
      have hle : ys ++ (w, .wait batch) :: zs' <+: ys ++ (w, .wait batch) :: zs :=
        (List.prefix_append_right_inj _).mpr (List.cons_prefix_cons.mpr ⟨rfl, hzs⟩)
      have hinformed : Informed b.1 (ys ++ (w, .wait batch) :: zs') := by
        refine ⟨ys.map Prod.snd, .wait batch, zs'.map Prod.snd, by simp, ⟨b.2, hb', hin⟩, ?_⟩
        intro c hc
        obtain ⟨y, hy, rfl⟩ := List.mem_map.mp hc
        exact hno y hy
      obtain ⟨k, hk⟩ := ht.client
      have hopen := (hall _ t hle hrun htw b.1 (hserv ▸ hfd) hinformed).1
      rw [Kernel.isOpen, hk] at hopen
      cases hopen
    | _ => trivial
  · intro hexact ys t hys hy htw fd hfd hin
    have hexact : ∀ y ∈ ys, y.2.ExactIn y.1 := fun y hm => hexact y (hys.subset hm)
    have hinv := Boot.exec hb hy
    have hreached : t.Reached ys := by
      clear hys htw hin hfd hinv
      induction hy with
      | nil => exact fun _ _ hin => absurd hin not_openLast_nil
      | @snoc ys u a v hy hst ih =>
        have hu := ih fun y hm => hexact y (List.mem_append_left _ hm)
        exact hu.step (Boot.exec hb hy).1 hst (hexact (u, a) (by simp))
    rw [← hinv.2.2] at hfd
    have hnone : t.kernel.file fd = none := by
      rcases hreached fd hfd hin with h | h | ⟨todo, h⟩
      · exact h
      · rw [htw] at h
        exact absurd h List.not_mem_nil
      · rw [htw] at h
        cases h
    refine ⟨by rw [Kernel.isOpen, hnone]; rfl, ?_⟩
    by_contra hi
    have hopen := hinv.1.table.file_isSome (Option.ne_none_iff_isSome.mp hi)
    rw [hnone] at hopen
    cases hopen

theorem Boot.strandsNobody_iff_reuse : ∃ s₀ s xs, Boot.plain.main = some s₀ ∧
    Exec Server.Step s₀ xs s ∧ xs.map Prod.snd = reuseRun ∧ s.pc = .waiting ∧
    Boot.plain.StrandsNobody s₀ xs := by
  have hrun : (Exec.runs Server.step? Boot.plain.started reuseRun).any fun s =>
      s.pc = .waiting := by decide +kernel
  obtain ⟨s₀, s, xs, h₀, hx, hacts, hpc⟩ :=
    Boot.plain_run ((Option.any_eq_true ..).mp hrun)
  have hpc := of_decide_eq_true hpc
  refine ⟨s₀, s, xs, h₀, hx, hacts, hpc, (Boot.strandsNobody_iff h₀ hx hpc).mpr ?_⟩
  intro x hm
  have hall : ∀ a ∈ reuseRun, ∀ b, a = .wait b → ∀ p ∈ b, p.2 = EPOLLIN := by
    intro a ha b hab
    subst hab
    simp only [reuseRun, List.mem_cons, List.not_mem_nil, or_false, reduceCtorEq, false_or,
      Act.wait.injEq] at ha
    rcases ha with rfl | rfl <;> simp
  unfold Act.ExactIn
  split
  next b hb =>
    intro p hp _ _
    exact hall x.2 (hacts ▸ List.mem_map_of_mem hm) b hb p hp
  · trivial

/-- A client sends and resets its connection before the loop gets to it. -/
def hangupRun : List Act := [.connect, .wait [(4, EPOLLIN)], .next, .accept 5, .next,
  .segment 0 [72], .wait [(5, EPOLLIN ||| EPOLLHUP)], .next, .next]

theorem Boot.stranded_hangup : ∃ s₀ s xs, Boot.plain.main = some s₀ ∧
    Exec Server.Step s₀ xs s ∧ xs.map Prod.snd = hangupRun ∧ s.pc = .waiting ∧
    Informed 5 xs ∧ s.kernel.isOpen 5 = true ∧ ¬ Boot.plain.StrandsNobody s₀ xs := by
  have hrun : (Exec.runs Server.step? Boot.plain.started hangupRun).any fun s =>
      s.pc = .waiting ∧ s.kernel.isOpen 5 = true := by decide +kernel
  obtain ⟨s₀, s, xs, h₀, hx, hacts, hrun⟩ :=
    Boot.plain_run ((Option.any_eq_true ..).mp hrun)
  obtain ⟨hpc, hopen⟩ := of_decide_eq_true hrun
  have hin : Informed 5 xs := by
    rw [Informed, hacts]
    exact ⟨hangupRun.take 6, .wait [(5, EPOLLIN ||| EPOLLHUP)], [.next, .next], rfl,
      ⟨_, List.mem_singleton_self _, by decide⟩, by simp⟩
  refine ⟨s₀, s, xs, h₀, hx, hacts, hpc, hin, hopen, ?_⟩
  intro hall
  have hclosed := (hall xs s List.prefix_rfl hx hpc 5 (by decide) hin).1
  rw [hopen] at hclosed
  cases hclosed

end OnlineChat.ChatServer
