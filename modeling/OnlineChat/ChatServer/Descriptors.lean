import OnlineChat.Lib.Ledger
import OnlineChat.Lib.PMap
import OnlineChat.ChatServer.Server

/-!
# The descriptors of the single-threaded server

A step changes the descriptor table in two ways only, `FdStep.add` when `accept` succeeds and
`FdStep.drop` when the receive loop ends. The invariant ties the interest set and the trace to the
table, and the rest of the batch to descriptors that stay what they were when it was reported.
-/

namespace OnlineChat.ChatServer
open Lib Function

/-- The descriptors of the batch that are being handled or still to be handled. -/
def Pc.fds : Pc → List Fd
  | .waiting => []
  | .dispatch todo | .accepting todo => todo.map EpollEvent.data
  | .receiving fd todo => fd :: todo.map EpollEvent.data

namespace Server

/-- After the receive loop. -/
def dropped (s : Server) (fd : Fd) (todo : List EpollEvent) : Server :=
  { s with
    kernel := (s.kernel.close fd).ctl .EPOLL_CTL_DEL fd none
    pc := .dispatch todo
    trace := s.trace ++ [.printed s.buffer, .closed fd,
      .ctl .EPOLL_CTL_DEL fd ((s.kernel.close fd).ctlOk .EPOLL_CTL_DEL fd)] }

/-- After `accept` with a valid descriptor. -/
def accepted (s : Server) (r : Fd) (todo : List EpollEvent) : Server :=
  { s with
    kernel := (s.kernel.accept r).ctl .EPOLL_CTL_ADD r (some ⟨EPOLLIN ||| EPOLLET, r⟩)
    pc := .dispatch todo
    trace := s.trace ++ [.accepted r,
      .ctl .EPOLL_CTL_ADD r ((s.kernel.accept r).ctlOk .EPOLL_CTL_ADD r)] }

/-- The ways a step of the server can go. -/
inductive Trans (s : Server) : Act → Server → Prop
  | connect : Trans s .connect { s with kernel := s.kernel.connect }
  | segment {k bs} : Trans s (.segment k bs) { s with kernel := s.kernel.segment k bs }
  | wait {batch} : s.pc = .waiting → (batch.map Prod.fst).Nodup →
    (∀ e ∈ batch, (s.kernel.interest e.1).isSome) →
    Trans s (.wait batch)
      { s with kernel := s.kernel.report batch, pc := .dispatch (s.kernel.reported batch) }
  | turn : s.pc = .dispatch [] → Trans s .next { s with pc := .waiting }
  | enterAccept {e todo} : s.pc = .dispatch (e :: todo) → e.data = s.serverfd →
    Trans s .next { s with pc := .accepting todo }
  | enterRecv {e todo} : s.pc = .dispatch (e :: todo) → e.data ≠ s.serverfd →
    e.events = EPOLLIN →
    Trans s .next { s with buffer := .zero _, bufferLen := 0, pc := .receiving e.data todo }
  | skip {e todo} : s.pc = .dispatch (e :: todo) → e.data ≠ s.serverfd →
    e.events ≠ EPOLLIN → Trans s .next { s with pc := .dispatch todo }
  | acceptFail {todo} : s.pc = .accepting todo →
    Trans s (.accept (-1)) { s with kernel := s.kernel.accept (-1), pc := .dispatch todo }
  | accept {todo r} : s.pc = .accepting todo → s.kernel.CanAccept r → r ≠ -1 →
    Trans s (.accept r) (s.accepted r todo)
  | recv {fd todo r b} : s.pc = .receiving fd todo → s.kernel.CanRecv fd s.recvBuf.request r →
    s.recvBuf.pass r = .ok (false, b) →
    Trans s (.recv r)
      { s with kernel := s.kernel.recv fd r, buffer := b.buf, bufferLen := b.len }
  | leave {fd todo r} : s.pc = .receiving fd todo → s.kernel.CanRecv fd s.recvBuf.request r →
    s.recvBuf.pass r = .ok (true, s.recvBuf) → Trans s (.recv r) (s.dropped fd todo)

section
variable {s s' : Server} {a : Act}

theorem recv_trans {fd : Fd} {todo : List EpollEvent} {r : RecvResult}
    (hpc : s.pc = .receiving fd todo) (hr : s.kernel.CanRecv fd s.recvBuf.request r)
    (h : s.recv fd r todo = .ok s') : Trans s (.recv r) s' := by
  obtain ⟨⟨stop, b⟩, hp, h⟩ := bind_eq_ok h
  cases stop with
  | false =>
    cases h
    exact .recv hpc hr hp
  | true =>
    obtain ⟨hd, rfl⟩ := RecvBuf.pass_true hr.ne_nil hp
    cases h
    rw [Kernel.recv_of_data_nil hd]
    have hleave : Trans s (.recv r) (s.dropped fd todo) := .leave hpc hr hp
    simpa [dropped, close, epollCtl, log, recvBuf] using hleave

theorem Step.trans (h : s.Step a s') : Trans s a s' := by
  obtain ⟨hl, h⟩ := h
  cases a with
  | connect => cases h; exact .connect
  | segment => cases h; exact .segment
  | wait => cases h; exact .wait hl.1 hl.2.2.1 hl.2.2.2
  | next =>
    cases hpc : s.pc with
    | waiting | accepting | receiving => simp [Legal, hpc] at hl
    | dispatch todo =>
      simp only [step, hpc] at h
      cases todo with
      | nil => cases h; exact .turn hpc
      | cons e todo =>
        cases h
        unfold handle
        split
        · exact .enterAccept hpc ‹_›
        split
        · exact .enterRecv hpc ‹_› ‹_›
        · exact .skip hpc ‹_› ‹_›
  | accept r =>
    cases hpc : s.pc with
    | waiting | dispatch | receiving => simp [Legal, hpc] at hl
    | accepting todo =>
      simp only [step, hpc] at h
      simp only [Legal, hpc] at hl
      cases h
      unfold Server.accept
      split
      next hr => subst hr; exact .acceptFail hpc
      next hr =>
        have he : ((({ s with kernel := s.kernel.accept r, pc := .dispatch todo } : Server).log
            (.accepted r)).epollCtl .EPOLL_CTL_ADD r (some ⟨EPOLLIN ||| EPOLLET, r⟩)) =
            s.accepted r todo := by
          simp [epollCtl, log, accepted]
        exact he ▸ .accept hpc hl hr
  | recv r =>
    cases hpc : s.pc with
    | waiting | dispatch | accepting => simp [Legal, hpc] at hl
    | receiving fd todo =>
      simp only [step, hpc] at h
      simp only [Legal, hpc] at hl
      exact recv_trans hpc hl h

/-! ## The descriptor table -/

/-- The interest set is the listening descriptor with the clients' descriptors. -/
structure TableOk (s : Server) : Prop where
  serv : s.kernel.file s.serverfd = some .listener
  interest {fd : Fd} {ev : EpollEvent} : s.kernel.interest fd = some ev ↔
    ev = ⟨EPOLLIN ||| EPOLLET, fd⟩ ∧ (fd = s.serverfd ∨ ∃ k, s.kernel.file fd = some (.conn k))

/-- What a step does to the table and to the trace. -/
inductive FdStep (s s' : Server) : Act → Prop
  | same {a : Act} (hf : s'.kernel.file = s.kernel.file) (hi : s'.kernel.interest = s.kernel.interest)
      (ht : s'.trace = s.trace) : FdStep s s' a
  | add {r k ok} (hr : s.kernel.file r = none)
      (hf : s'.kernel.file = update s.kernel.file r (some (.conn k)))
      (hi : s'.kernel.interest = update s.kernel.interest r (some ⟨EPOLLIN ||| EPOLLET, r⟩))
      (ht : s'.trace = s.trace ++ [.accepted r, .ctl .EPOLL_CTL_ADD r ok]) :
      FdStep s s' (.accept r)
  | drop {fd todo r} (hpc : s.pc = .receiving fd todo) (hpc' : s'.pc = .dispatch todo)
      (hf : s'.kernel.file = update s.kernel.file fd none)
      (hi : s'.kernel.interest = update s.kernel.interest fd none)
      (ht : s'.trace = s.trace ++ [.printed s.buffer, .closed fd, .ctl .EPOLL_CTL_DEL fd false]) :
      FdStep s s' (.recv r)

theorem TableOk.interest_isSome (h : s.TableOk) {fd : Fd} :
    (s.kernel.interest fd).isSome ↔ fd = s.serverfd ∨ ∃ k, s.kernel.file fd = some (.conn k) := by
  rw [Option.isSome_iff_exists]
  exact ⟨fun ⟨_, he⟩ => (h.interest.mp he).2, fun hf => ⟨_, h.interest.mpr ⟨rfl, hf⟩⟩⟩

/-- A registered descriptor is open. -/
theorem TableOk.file_isSome (h : s.TableOk) {fd : Fd} (hi : (s.kernel.interest fd).isSome) :
    (s.kernel.file fd).isSome := by
  rcases h.interest_isSome.mp hi with rfl | ⟨k, hk⟩
  · rw [h.serv]; rfl
  · rw [hk]; rfl

theorem Trans.serverfd (h : Trans s a s') : s'.serverfd = s.serverfd := by
  cases h <;> rfl

theorem accepted_fdStep (hs : s.TableOk) {r : Fd} {todo : List EpollEvent}
    (hr : s.kernel.CanAccept r) (hne : r ≠ -1) : FdStep s (s.accepted r todo) (.accept r) := by
  obtain ⟨hopen, hq⟩ := hr
  obtain ⟨hpos, hfree⟩ : 0 ≤ r ∧ s.kernel.file r = none := hopen.resolve_left hne
  obtain ⟨k, rest, hk⟩ := List.exists_cons_of_ne_nil (hq hne)
  obtain ⟨hf, hi⟩ := Kernel.accept_ok hpos hk
  have hnone : s.kernel.interest r = none := by
    by_contra hsome
    have := hs.file_isSome (Option.ne_none_iff_isSome.mp hsome)
    rw [hfree] at this
    cases this
  have hok : (s.kernel.accept r).ctlOk .EPOLL_CTL_ADD r = true :=
    Kernel.ctlOk_add (by rw [hf, update_self]; rfl) (by rw [hi, hnone])
  exact .add hfree ((Kernel.ctl_file ..).trans hf) (by rw [← hi]; exact Kernel.ctl_interest hok _) rfl

theorem dropped_fdStep {fd : Fd} {todo : List EpollEvent} {r : RecvResult}
    (hpc : s.pc = .receiving fd todo) (hopen : (s.kernel.file fd).isSome) :
    FdStep s (s.dropped fd todo) (.recv r) := by
  have hf := Kernel.close_file hopen
  have hclosed : (s.kernel.close fd).file fd = none := by rw [hf, update_self]
  have hctl := Kernel.ctl_of_closed hclosed .EPOLL_CTL_DEL none
  have hfail : (s.kernel.close fd).ctlOk .EPOLL_CTL_DEL fd = false := by
    simp [Kernel.ctlOk, Kernel.isOpen, hclosed]
  refine .drop hpc rfl ?_ ?_ ?_
  · rw [dropped, hctl, hf]
  · rw [dropped, hctl]
    exact Kernel.close_interest hopen
  · rw [dropped, hfail]

/-- The table changes by `add` and `drop` alone. -/
theorem Trans.fdStep (h : Trans s a s') (hs : s.TableOk)
    (hopen : ∀ fd todo, s.pc = .receiving fd todo → (s.kernel.file fd).isSome) :
    FdStep s s' a := by
  cases h with
  | connect => exact .same Kernel.connect_file Kernel.connect_interest rfl
  | segment => exact .same (Kernel.segment_file ..) (Kernel.segment_interest ..) rfl
  | wait => exact .same (Kernel.report_file _) (Kernel.report_interest _) rfl
  | turn | enterAccept | enterRecv | skip => exact .same rfl rfl rfl
  | acceptFail => exact .same Kernel.accept_fail.1 Kernel.accept_fail.2 rfl
  | accept hpc hr hne => exact accepted_fdStep hs hr hne
  | recv => exact .same (Kernel.recv_file _) (Kernel.recv_interest _) rfl
  | leave hpc => exact dropped_fdStep hpc (hopen _ _ hpc)

/-! ## The batch -/

/-- The rest of the batch is registered, and what is read from is a client. -/
structure BatchOk (s : Server) : Prop where
  nodup : s.pc.fds.Nodup
  registered : ∀ fd ∈ s.pc.fds, (s.kernel.interest fd).isSome
  client {fd : Fd} {todo : List EpollEvent} : s.pc = .receiving fd todo → fd ≠ s.serverfd
  serv {todo : List EpollEvent} : s.pc = .accepting todo →
    s.serverfd ∉ todo.map EpollEvent.data

structure Inv (s : Server) : Prop where
  table : s.TableOk
  batch : s.BatchOk

theorem Inv.client (h : s.Inv) {fd : Fd} {todo : List EpollEvent}
    (hpc : s.pc = .receiving fd todo) : ∃ k, s.kernel.file fd = some (.conn k) := by
  have hi := h.batch.registered fd (by rw [hpc]; exact List.mem_cons_self)
  exact (h.table.interest_isSome.mp hi).resolve_left (h.batch.client hpc)

theorem Inv.fdStep (h : s.Inv) (ht : Trans s a s') : FdStep s s' a := by
  refine ht.fdStep h.table ?_
  intro fd todo hpc
  obtain ⟨k, hk⟩ := h.client hpc
  rw [hk]
  rfl

/-- What is reported are the descriptors of the batch. -/
theorem TableOk.reported (h : s.TableOk) {batch : List (Fd × Mask)}
    (hb : ∀ e ∈ batch, (s.kernel.interest e.1).isSome) :
    (s.kernel.reported batch).map EpollEvent.data = batch.map Prod.fst := by
  induction batch with
  | nil => rfl
  | cons e batch ih =>
    obtain ⟨ev, hev⟩ := Option.isSome_iff_exists.mp (hb e List.mem_cons_self)
    have hdata : ev.data = e.1 := by rw [(h.interest.mp hev).1]
    have ih := ih fun e he => hb e (List.mem_cons_of_mem _ he)
    simp only [Kernel.reported, List.filterMap_cons, hev, Option.map_some, List.map_cons, hdata]
    exact congrArg (e.1 :: ·) ih

/-- The batch gets shorter until the next one is reported. -/
theorem Trans.fds (h : Trans s a s') (hw : a.isWait = false) :
    s'.pc.fds = s.pc.fds ∨ s'.pc.fds = s.pc.fds.tail := by
  cases h with
  | connect | segment | recv => exact .inl rfl
  | wait => cases hw
  | turn hpc | acceptFail hpc | accept hpc => exact .inl (by rw [hpc]; rfl)
  | enterRecv hpc => exact .inl (by rw [hpc]; rfl)
  | enterAccept hpc | skip hpc | leave hpc => exact .inr (by rw [hpc]; rfl)

theorem Trans.mem_fds (h : Trans s a s') (hw : a.isWait = false) {fd : Fd}
    (hfd : fd ∈ s'.pc.fds) : fd ∈ s.pc.fds := by
  rcases h.fds hw with he | he
  · exact he ▸ hfd
  · exact List.mem_of_mem_tail (he ▸ hfd)

/-- What is still to be handled stays what it is. -/
theorem Inv.pending (h : s.Inv) (ht : Trans s a s') (hw : a.isWait = false) {fd : Fd}
    (hfd : fd ∈ s'.pc.fds) : s'.kernel.file fd = s.kernel.file fd ∧
      s'.kernel.interest fd = s.kernel.interest fd := by
  have hopen := h.table.file_isSome (h.batch.registered fd (ht.mem_fds hw hfd))
  cases h.fdStep ht with
  | same hf hi => exact ⟨congrFun hf fd, congrFun hi fd⟩
  | @add r k ok hr hf hi =>
    have hne : fd ≠ r := by
      rintro rfl
      rw [hr] at hopen
      cases hopen
    exact ⟨by rw [hf, update_of_ne hne], by rw [hi, update_of_ne hne]⟩
  | @drop gone todo r hpc hpc' hf hi =>
    have hnodup := h.batch.nodup
    rw [hpc] at hnodup
    rw [hpc'] at hfd
    have hne : fd ≠ gone := by
      rintro rfl
      exact (List.nodup_cons.mp hnodup).1 hfd
    exact ⟨by rw [hf, update_of_ne hne], by rw [hi, update_of_ne hne]⟩

/-! ## The step and the run -/

theorem Inv.table_step (h : s.Inv) (ht : Trans s a s') : s'.TableOk := by
  have hserv := ht.serverfd
  cases h.fdStep ht with
  | same hf hi => exact ⟨by rw [hf, hserv, h.table.serv], by rw [hf, hi, hserv]; exact h.table.interest⟩
  | @add r k ok hr hf hi =>
    have hne : s.serverfd ≠ r := by
      rintro rfl
      rw [h.table.serv] at hr
      cases hr
    refine ⟨by rw [hf, hserv, update_of_ne hne, h.table.serv], ?_⟩
    intro fd ev
    rw [hf, hi, hserv]
    by_cases hfd : fd = r
    · subst hfd
      simp [eq_comm]
    · rw [update_of_ne hfd, update_of_ne hfd]
      exact h.table.interest
  | @drop gone todo r hpc hpc' hf hi =>
    have hne := h.batch.client hpc
    refine ⟨by rw [hf, hserv, update_of_ne (Ne.symm hne), h.table.serv], ?_⟩
    intro fd ev
    rw [hf, hi, hserv]
    by_cases hfd : fd = gone
    · subst hfd
      simp [hne]
    · rw [update_of_ne hfd, update_of_ne hfd]
      exact h.table.interest

theorem Trans.client (h : Trans s a s')
    (hs : ∀ {fd todo}, s.pc = .receiving fd todo → fd ≠ s.serverfd) {fd : Fd}
    {todo : List EpollEvent} (hpc : s'.pc = .receiving fd todo) : fd ≠ s'.serverfd := by
  cases h with
  | connect | segment | recv => exact hs hpc
  | enterRecv _ hne =>
    cases hpc
    exact hne
  | wait | turn | enterAccept | skip | acceptFail | accept | leave => cases hpc

theorem Trans.serv (h : Trans s a s') (hs : s.BatchOk) {todo : List EpollEvent}
    (hpc : s'.pc = .accepting todo) : s'.serverfd ∉ todo.map EpollEvent.data := by
  cases h with
  | connect | segment | recv => exact hs.serv hpc
  | enterAccept hpc' he =>
    cases hpc
    have hnodup := hs.nodup
    rw [hpc'] at hnodup
    exact he ▸ (List.nodup_cons.mp hnodup).1
  | wait | turn | enterRecv | skip | acceptFail | accept | leave => cases hpc

theorem Inv.batch_step (h : s.Inv) (ht : Trans s a s') : s'.BatchOk := by
  have hclient {fd todo} (hpc : s'.pc = .receiving fd todo) := ht.client h.batch.client hpc
  have hserv {todo} (hpc : s'.pc = .accepting todo) := ht.serv h.batch hpc
  cases hw : a.isWait with
  | true =>
    cases ht with
    | @wait batch hpc hnd hreg =>
      have hfds := h.table.reported hreg
      refine ⟨?_, ?_, hclient, hserv⟩
      · change ((s.kernel.reported batch).map EpollEvent.data).Nodup
        rw [hfds]
        exact hnd
      · intro fd hfd
        change fd ∈ (s.kernel.reported batch).map EpollEvent.data at hfd
        rw [hfds] at hfd
        obtain ⟨e, he, rfl⟩ := List.mem_map.mp hfd
        rw [Kernel.report_interest]
        exact hreg e he
    | _ => cases hw
  | false =>
    refine ⟨?_, ?_, hclient, hserv⟩
    · rcases ht.fds hw with he | he
      · exact he ▸ h.batch.nodup
      · exact he ▸ h.batch.nodup.tail
    · intro fd hfd
      rw [(h.pending ht hw hfd).2]
      exact h.batch.registered fd (ht.mem_fds hw hfd)

theorem Inv.step (h : s.Inv) (hs : s.Step a s') : s'.Inv :=
  ⟨h.table_step hs.trans, h.batch_step hs.trans⟩

theorem Inv.exec {xs : List (Server × Act)} (h : s.Inv) (hx : Exec Step s xs s') : s'.Inv :=
  hx.invariant h Inv.step

/-! ## The history of a descriptor -/

/-- A client's descriptor is closed once for every time `accept` has returned it, and `EPOLL_CTL_DEL`
comes too late to remove anything. -/
structure HistoryOk (s : Server) : Prop where
  paired {fd : Fd} : Paired (· = .accepted fd) (· = .closed fd) s.trace
  openLast {fd : Fd} : OpenLast (· = .accepted fd) (· = .closed fd) s.trace ↔
    ∃ k, s.kernel.file fd = some (.conn k)
  late {fd : Fd} {ok : Bool} : .ctl .EPOLL_CTL_DEL fd ok ∈ s.trace → ok = false

theorem HistoryOk.step (h : s.HistoryOk) (hs : s.Inv) (ht : Trans s a s') : s'.HistoryOk := by
  cases hs.fdStep ht with
  | same hf hi htr => exact ⟨htr ▸ h.paired, by rw [htr, hf]; exact h.openLast, by rw [htr]; exact h.late⟩
  | @add r k ok hr hf hi htr =>
    rw [List.append_cons] at htr
    refine ⟨?_, ?_, ?_⟩
    · intro fd
      rw [htr]
      exact (h.paired.snoc (by simp)).snoc (by simp)
    · intro fd
      rw [htr, openLast_snoc, openLast_snoc, hf]
      by_cases hfd : fd = r
      · subst hfd
        simp
      · simp [h.openLast, update_of_ne hfd, Ne.symm hfd]
    · intro fd ok hm
      rw [htr] at hm
      exact h.late (by simpa using hm)
  | @drop gone todo r hpc hpc' hf hi htr =>
    rw [List.append_cons, List.append_cons] at htr
    refine ⟨?_, ?_, ?_⟩
    · intro fd
      rw [htr]
      refine ((h.paired.snoc (by simp)).snoc ?_).snoc (by simp)
      intro hfd
      cases hfd
      exact openLast_snoc.mpr (.inr ⟨by simp, h.openLast.mpr (hs.client hpc)⟩)
    · intro fd
      rw [htr, openLast_snoc, openLast_snoc, openLast_snoc, hf]
      by_cases hfd : fd = gone
      · subst hfd
        simp
      · simp [h.openLast, update_of_ne hfd, Ne.symm hfd]
    · intro fd ok hm
      rw [htr] at hm
      rcases List.mem_append.mp hm with hm | hm
      · exact h.late (by simpa using hm)
      · cases List.mem_singleton.mp hm
        rfl

end

end Server

/-! ## The runs of main -/

section
variable {e : Boot} {s₀ s : Server} {xs : List (Server × Act)}

theorem Boot.main_eq (h : e.main = some s₀) : 0 ≤ e.serverfd ∧ s₀ = e.started := by
  simp only [main, Option.ite_none_left_eq_some, Option.some.injEq, not_or] at h
  obtain ⟨⟨hne, -⟩, rfl⟩ := h
  exact ⟨(e.socket_ok.resolve_left hne).1, rfl⟩

theorem Boot.start (h : e.main = some s₀) :
    s₀.Inv ∧ s₀.HistoryOk ∧ s₀.serverfd = e.serverfd := by
  obtain ⟨hfd, rfl⟩ := Boot.main_eq h
  have hfile : e.started.kernel.file = (Kernel.init e.others e.serverfd).file :=
    Kernel.ctl_file ..
  have hint : e.started.kernel.interest =
      update (fun _ => none) e.serverfd (some ⟨EPOLLIN ||| EPOLLET, e.serverfd⟩) :=
    Kernel.init_ctl hfd _
  have hconn : ∀ {fd k}, (Kernel.init e.others e.serverfd).file fd ≠ some (.conn k) :=
    Kernel.init_file_conn hfd _ _
  refine ⟨⟨⟨hfile ▸ Kernel.init_file hfd, ?_⟩, .nil, ?_, nofun, nofun⟩, ⟨?_, ?_, ?_⟩, rfl⟩
  · intro fd ev
    rw [hfile, hint]
    by_cases hne : fd = e.serverfd
    · subst hne
      simp [eq_comm, started, Server.epollCtl, Server.log, Boot.server]
    · simp [hne, hconn, started, Server.epollCtl, Server.log, Boot.server]
  · intro fd h
    cases h
  · exact Paired.nil.snoc (by simp)
  · intro fd
    rw [hfile]
    refine ⟨?_, fun ⟨k, hk⟩ => absurd hk hconn⟩
    intro ho
    rcases openLast_snoc.mp ho with h | ⟨-, h⟩
    · cases h
    · exact absurd h not_openLast_nil
  · intro fd ok hm
    cases List.mem_singleton.mp hm

theorem Boot.exec (hb : e.main = some s₀) (hx : Exec Server.Step s₀ xs s) :
    s.Inv ∧ s.HistoryOk ∧ s.serverfd = e.serverfd := by
  induction hx with
  | nil => exact Boot.start hb
  | snoc hx hst ih =>
    obtain ⟨hinv, hhist, hfd⟩ := ih
    exact ⟨hinv.step hst, hhist.step hinv hst.trans, hst.trans.serverfd.trans hfd⟩

/-- A registration goes away when its own connection is closed, and not otherwise. -/
theorem Server.Inv.deregistered {s' : Server} {a : Act} {fd : Fd} (h : s.Inv) (hs : s.Step a s')
    (hi : (s.kernel.interest fd).isSome) (hn : s'.kernel.interest fd = none) :
    ∃ todo, s.pc = .receiving fd todo := by
  cases h.fdStep hs.trans with
  | same _ he =>
    rw [he] at hn
    rw [hn] at hi
    cases hi
  | @add r k ok _ _ he =>
    rw [he] at hn
    by_cases hfd : fd = r
    · subst hfd
      rw [update_self] at hn
      cases hn
    · rw [update_of_ne hfd] at hn
      rw [hn] at hi
      cases hi
  | @drop gone todo _ hpc _ _ he =>
    rw [he] at hn
    by_cases hfd : fd = gone
    · exact ⟨todo, hfd ▸ hpc⟩
    · rw [update_of_ne hfd] at hn
      rw [hn] at hi
      cases hi

/-- Until the next `epoll_wait`, the batch is about the connections it was reported for. -/
theorem Server.Inv.batch_run {w : Server} {batch : List (Fd × Mask)} (h : w.Inv)
    (hx : Exec Server.Step w ((w, .wait batch) :: xs) s) (hxs : ∀ x ∈ xs, x.2.isWait = false) :
    ∀ fd ∈ s.pc.fds, fd ∈ batch.map Prod.fst ∧ s.kernel.file fd = w.kernel.file fd := by
  obtain ⟨-, u, hst, hu⟩ := hx.cons_inv
  clear hx
  have hbatch : ∀ fd ∈ u.pc.fds, fd ∈ batch.map Prod.fst ∧ u.kernel.file fd = w.kernel.file fd := by
    intro fd hfd
    cases hst.trans with
    | wait hpc hnd hreg =>
      change fd ∈ (w.kernel.reported batch).map EpollEvent.data at hfd
      rw [h.table.reported hreg] at hfd
      exact ⟨hfd, congrFun (Kernel.report_file _) fd⟩
  have hinv := h.step hst
  induction hu with
  | nil => exact hbatch
  | @snoc xs t a v hx hst ih =>
    have ht := ih fun x hx => hxs x (List.mem_append_left _ hx)
    have hinv := hinv.exec hx
    have hw := hxs (t, a) (by simp)
    intro fd hfd
    obtain ⟨hmem, hfile⟩ := ht fd (hst.trans.mem_fds hw hfd)
    exact ⟨hmem, (hinv.pending hst.trans hw hfd).1.trans hfile⟩

/-- The interest set, the closings, the late `EPOLL_CTL_DEL` and the batch of `main`. -/
theorem Boot.descriptor_ledger (hb : e.main = some s₀) (hx : Exec Server.Step s₀ xs s) :
    (∀ fd, (s.kernel.interest fd).isSome ↔ fd = e.serverfd ∨
      OpenLast (· = Event.accepted fd) (· = Event.closed fd) s.trace) ∧
    (∀ fd, Paired (· = Event.accepted fd) (· = Event.closed fd) s.trace) ∧
    (∀ fd ok, .ctl .EPOLL_CTL_DEL fd ok ∈ s.trace → ok = false) ∧
    (∀ a s' fd, s.Step a s' → (s.kernel.interest fd).isSome → s'.kernel.interest fd = none →
      ∃ todo, s.pc = .receiving fd todo) ∧
    (∀ ys w batch zs, xs = ys ++ (w, .wait batch) :: zs → (∀ z ∈ zs, z.2.isWait = false) →
      ∀ fd ∈ s.pc.fds, fd ∈ batch.map Prod.fst ∧
        ∃ f, w.kernel.file fd = some f ∧ s.kernel.file fd = some f) := by
  obtain ⟨hinv, hhist, hfd⟩ := Boot.exec hb hx
  refine ⟨?_, fun fd => hhist.paired, fun fd ok => hhist.late, ?_, ?_⟩
  · intro fd
    rw [hinv.table.interest_isSome, hhist.openLast, hfd]
  · intro a s' fd hs
    exact hinv.deregistered hs
  · intro ys w batch zs heq hzs fd hpending
    subst heq
    obtain ⟨t, hx₁, hx₂⟩ := hx.split
    obtain ⟨rfl, -⟩ := hx₂.cons_inv
    obtain ⟨hmem, hfile⟩ := (Boot.exec hb hx₁).1.batch_run hx₂ hzs fd hpending
    obtain ⟨f, hf⟩ := Option.isSome_iff_exists.mp
      (hinv.table.file_isSome (hinv.batch.registered fd hpending))
    exact ⟨hmem, f, hfile ▸ hf, hf⟩

/-- A list of answers that the program accepts from the plain start is a run. -/
theorem Boot.plain_run {acts : List Act} {P : Server → Prop}
    (h : ∃ s, Exec.runs Server.step? Boot.plain.started acts = some s ∧ P s) :
    ∃ s₀ s xs, Boot.plain.main = some s₀ ∧ Exec Server.Step s₀ xs s ∧
      xs.map Prod.snd = acts ∧ P s := by
  obtain ⟨s₀, h₀⟩ : ∃ s₀, Boot.plain.main = some s₀ := ⟨_, rfl⟩
  obtain ⟨-, rfl⟩ := Boot.main_eq h₀
  obtain ⟨s, hs, hP⟩ := h
  obtain ⟨xs, hx, hacts⟩ := Exec.of_runs Server.step_of_step? hs
  exact ⟨_, s, xs, h₀, hx, hacts, hP⟩

/-- A client is read and closed, and in the same batch the next one gets its descriptor. -/
def reuseRun : List Act := [.connect, .segment 0 [72, 105], .wait [(4, EPOLLIN)], .next, .accept 5,
  .next, .connect, .wait [(5, EPOLLIN), (4, EPOLLIN)], .next, .recv (.bytes [72, 105]),
  .recv (.fail .EAGAIN), .next, .accept 5, .next]

theorem Boot.descriptor_ledger_reuse : ∃ s₀ s xs, Boot.plain.main = some s₀ ∧
    Exec Server.Step s₀ xs s ∧ xs.map Prod.snd = reuseRun ∧
    s.trace.filter (fun ev => ev = .accepted 5 ∨ ev = .closed 5) =
      [.accepted 5, .closed 5, .accepted 5] ∧
    ((s.kernel.interest 5).isSome ↔ (5 : Fd) = 4 ∨
      OpenLast (· = Event.accepted 5) (· = Event.closed 5) s.trace) ∧
    Paired (· = Event.accepted 5) (· = Event.closed 5) s.trace := by
  have hrun : (Exec.runs Server.step? Boot.plain.started reuseRun).any fun s =>
      s.trace.filter (fun ev => ev = .accepted 5 ∨ ev = .closed 5) =
        [.accepted 5, .closed 5, .accepted 5] := by decide +kernel
  obtain ⟨s₀, s, xs, h₀, hx, hacts, hrun⟩ :=
    Boot.plain_run ((Option.any_eq_true ..).mp hrun)
  have h := Boot.descriptor_ledger h₀ hx
  exact ⟨s₀, s, xs, h₀, hx, hacts, of_decide_eq_true hrun, h.1 5, h.2.1 5⟩

end
end OnlineChat.ChatServer
