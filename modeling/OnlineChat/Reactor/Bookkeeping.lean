import OnlineChat.Reactor.History

/-!
# Registration bookkeeping

`connMap`, the interest set, the heap and the descriptor table agree as long as `accept` succeeds.
`Socket::accept` makes a `Connection` of a failed `accept` too, with the descriptor -1, and never
returns the null pointer that `acceptCallback` tests for; `connMap[-1]` is then set for good.
-/

namespace OnlineChat.Reactor
open Lib Function

/-- The records of the server agree with the kernel. -/
structure World.Agrees (w : World) : Prop where
  keys : w.connMap fd ≠ none ↔ w.kernel.interest fd ≠ none
  live : w.heap c = some conn → (∃! fd, w.connMap fd = some c) ∧ conn.inEpoll = true ∧
    w.kernel.isOpen conn.fd = true
  owner : w.kernel.file fd = some (.conn s) → ∃! c, ∃ conn, w.heap c = some conn ∧ conn.fd = fd

/-- `accept` fails. -/
def Act.FailedAccept (a : Act) : Prop := ∃ junk, a = .accept (-1) junk

section
variable {w w' : World} {c : ConnId} {conn : Connection}

/-- The kernel never has the key -1. -/
theorem World.Agrees.no_failure (h : w.Inv) (ha : w.Agrees) : w.connMap (-1) = none := by
  by_contra hne
  obtain ⟨ev, hev⟩ := Option.ne_none_iff_exists'.mp (ha.keys.mp hne)
  exact (h.registry.registered hev).1 rfl

theorem World.Inv.agrees (h : w.Inv)
    (hfd : ∀ c conn, w.heap c = some conn → conn.fd ≠ -1) : w.Agrees := by
  have howner : ∀ {fd c}, w.connMap fd = some c → ∃ conn, w.heap c = some conn ∧ conn.fd = fd := by
    intro fd c hm
    obtain ⟨k, hk, hkfd⟩ := h.registry.owner hm
    obtain ⟨conn, hc, rfl⟩ := World.registry_core_eq_some.mp hk
    exact ⟨conn, hc, hkfd⟩
  refine ⟨fun {fd} => ⟨fun hm => ?_, fun hi => ?_⟩, fun {c conn} hc => ?_, fun {fd s} hf => ?_⟩
  · obtain ⟨c, hm⟩ := Option.ne_none_iff_exists'.mp hm
    obtain ⟨conn, hc, rfl⟩ := howner hm
    rw [(World.mapped h.registry hc (hfd c conn hc)).2.1]
    exact Option.some_ne_none _
  · obtain ⟨ev, hev⟩ := Option.ne_none_iff_exists'.mp hi
    obtain ⟨-, c, hm⟩ := h.registry.registered hev
    rw [show w.connMap fd = some c from hm]
    exact Option.some_ne_none _
  · obtain ⟨hm, -, -, hopen⟩ := World.mapped h.registry hc (hfd c conn hc)
    refine ⟨⟨conn.fd, hm, fun fd hfd' => ?_⟩, h.registry.inEpoll_conn c conn hc, hopen⟩
    obtain ⟨conn', hc', rfl⟩ := howner hfd'
    rw [hc] at hc'
    cases hc'
    rfl
  · obtain ⟨c, hm⟩ := h.registry.client hf
    obtain ⟨conn, hc, rfl⟩ := howner hm
    refine ⟨c, ⟨conn, hc, rfl⟩, ?_⟩
    rintro c' ⟨conn', hc', he⟩
    exact h.registry.fd_inj (World.registry_core hc') (World.registry_core hc) (hfd c' conn' hc') he

/-- A failed `accept` leaves an entry for -1 behind, which nothing removes. -/
theorem Trans.connMap_fail {a : Act} (h : w.Inv) (ht : Trans w a w')
    (hf : a.FailedAccept ∨ w.connMap (-1) ≠ none) : w'.connMap (-1) ≠ none := by
  cases ht with
  | connect | segment | wait | turn | skip | enterAccept | enterRecv | enterSend | recv | leaveRecv =>
    rcases hf with ⟨junk, hj⟩ | hf
    · cases hj
    · exact hf
  | @accept c todo r junk =>
    by_cases hr : r = -1
    · subst hr
      simp [World.accepted]
    · rcases hf with ⟨junk, hj⟩ | hf
      · cases hj
        exact absurd rfl hr
      · simpa [World.accepted, update_of_ne (Ne.symm hr)] using hf
  | @leaveSend c todo conn n past hpc hc =>
    rcases hf with ⟨junk, hj⟩ | hf
    · cases hj
    · have hne := h.pc_fd c todo conn (.inr hpc) hc
      simpa [World.dropped, update_of_ne (Ne.symm hne)] using hf

/-- Only a failed `accept` makes a connection without a descriptor. -/
theorem Trans.fd_ne {a : Act} (ht : Trans w a w') (ha : ¬ a.FailedAccept)
    (hfd : ∀ c conn, w.heap c = some conn → conn.fd ≠ -1) (hc : w'.heap c = some conn) :
    conn.fd ≠ -1 := by
  rcases ht.origin hc with ⟨conn₀, hc₀, he, -⟩ | ⟨r, junk, rfl, rfl⟩
  · exact he ▸ hfd c conn₀ hc₀
  · intro hr
    exact ha ⟨junk, by rw [show r = -1 from hr]⟩

theorem Boot.started_fd {e : Boot} (hb : e.server = some (.ok w)) (c : ConnId) (conn : Connection)
    (hc : w.heap c = some conn) : conn.fd ≠ -1 := by
  obtain ⟨hne, rfl⟩ := Boot.server_eq hb
  change update (fun _ => none) 0 (some e.listener) c = some conn at hc
  rcases update_some_eq_some.mp hc with ⟨-, rfl⟩ | ⟨-, hc⟩
  · exact hne
  · cases hc

/-- The bookkeeping agrees with the kernel exactly in the runs in which no `accept` has failed. -/
theorem Boot.agrees_iff {e : Boot} {xs : List (World × Act)} (hb : e.server = some (.ok w))
    (hx : Exec World.Step w xs w') : w'.Agrees ↔ ∀ x ∈ xs, ¬ x.2.FailedAccept := by
  have hinv := (Boot.started_inv hb).1
  refine ⟨fun ha x hmem hf => ?_, fun hno => ?_⟩
  · obtain ⟨ys, zs, rfl⟩ := List.append_of_mem hmem
    obtain ⟨v, hpre, hpost⟩ := hx.split
    obtain ⟨rfl, u, hs, hpost⟩ := hpost.cons_inv
    have hv := hinv.exec hpre
    have hu : u.connMap (-1) ≠ none := (hv.trans hs).connMap_fail hv (.inl hf)
    have hw' : w'.connMap (-1) ≠ none :=
      @World.Inv.run _ _ (·.connMap (-1) ≠ none) _ (hv.step hs) hpost hu
        fun ht hm hst => hst.connMap_fail ht (.inr hm)
    exact hw' (ha.no_failure (hinv.exec hx))
  · have hfd : w'.Inv ∧ ∀ c conn, w'.heap c = some conn → conn.fd ≠ -1 :=
      @Exec.invariant_of _ _ _ _ _ _ _ (fun w => w.Inv ∧ ∀ c conn, w.heap c = some conn → conn.fd ≠ -1)
        hx hno ⟨hinv, Boot.started_fd hb⟩ fun ⟨ht, hfd⟩ ha hs =>
          ⟨ht.step hs, fun c conn hc => (ht.trans hs).fd_ne ha hfd hc⟩
    exact hfd.1.agrees hfd.2

theorem Boot.agrees_iff_reuse : ∃ w w' xs, Boot.plain.server = some (.ok w) ∧
    Exec World.Step w xs w' ∧ xs.map Prod.snd = reuseRun ∧
    (w'.Agrees ↔ ∀ x ∈ xs, ¬ x.2.FailedAccept) := by
  obtain ⟨w, w', xs, hw, hx, hacts, -⟩ :=
    @Boot.plain_run reuseRun (fun _ => True) ⟨_, rfl, trivial⟩
  exact ⟨w, w', xs, hw, hx, hacts, Boot.agrees_iff hw hx⟩

/-- The client resets its connection before it is accepted, and `accept` returns -1. -/
def resetRun : List Act :=
  [.connect, .wait [(4, EPOLLIN)], .next, .accept (-1) Boot.plain.junk]

theorem Boot.disagrees_reset : ∃ w w' xs, Boot.plain.server = some (.ok w) ∧
    Exec World.Step w xs w' ∧ xs.map Prod.snd = resetRun ∧ w'.pc = .dispatch [] ∧ ¬ w'.Agrees := by
  obtain ⟨w, w', xs, hw, hx, hacts, hpc, hm⟩ :=
    @Boot.plain_run resetRun (fun w' => w'.pc = .dispatch [] ∧ w'.connMap (-1) = some 1)
      ⟨_, rfl, rfl, rfl⟩
  refine ⟨w, w', xs, hw, hx, hacts, hpc, fun ha => ?_⟩
  have hnone := ha.no_failure (Boot.inv hw hx)
  rw [hm] at hnone
  cases hnone

end

end OnlineChat.Reactor
