import OnlineChat.Lib.EdgeSource
import OnlineChat.ChatServer.Descriptors
import OnlineChat.Reactor.Invariant

/-!
# The listen backlog

Both servers register their listening socket edge-triggered and accept once for each report. For
both, the backlog with the readiness edge is a `Source`, a call of `accept` is a take, and no take
is due when the program is about to call `epoll_wait`.
-/

namespace OnlineChat
open Lib

/-! ## apps/server.cpp -/

namespace ChatServer

namespace Server

/-- The listening socket has been reported and its turn is still to come. -/
def Due (s : Server) : Prop := (∃ todo, s.pc = .accepting todo) ∨ s.serverfd ∈ s.pc.fds

def view (s : Server) : Source SockId := ⟨s.kernel.backlog, s.kernel.edge, s.Due⟩

def op (s : Server) : Act → Source.Op
  | .connect => .arrive
  | .wait batch => if s.serverfd ∈ batch.map Prod.fst then .report else .other
  | .accept _ => .take
  | _ => .other

section
variable {s s' : Server} {a : Act}

theorem Inv.not_listener (h : s.Inv) {batch : List (Fd × Mask)}
    (hreg : ∀ e ∈ batch, (s.kernel.interest e.1).isSome) (hs : s.serverfd ∉ batch.map Prod.fst) :
    ∀ e ∈ batch, s.kernel.isListener e.1 = false := by
  intro e he
  rcases h.table.interest_isSome.mp (hreg e he) with hfd | ⟨k, hk⟩
  · exact absurd (List.mem_map.mpr ⟨e, he, hfd⟩) hs
  · simp [Kernel.isListener, hk]

/-- A step of the program is a step of the source. -/
theorem Inv.view_step (h : s.Inv) (ht : Trans s a s') :
    Source.Step s.view (s.op a) s'.view := by
  cases ht with
  | connect => exact .arrive rfl rfl .rfl
  | segment => exact .other rfl rfl .rfl
  | @wait batch hpc hnd hreg =>
    have hfds : (Pc.dispatch (s.kernel.reported batch)).fds = batch.map Prod.fst :=
      h.table.reported hreg
    by_cases hs : s.serverfd ∈ batch.map Prod.fst
    · rw [show s.op (.wait batch) = .report from if_pos hs]
      exact .report (.inr (hfds ▸ hs))
    · rw [show s.op (.wait batch) = .other from if_neg hs]
      rw [Kernel.report_of_other (h.not_listener hreg hs)]
      refine .other rfl rfl ?_
      have hs' : s.serverfd ∉ (Pc.dispatch (s.kernel.reported batch)).fds := hfds ▸ hs
      simpa [view, Due, hpc, Pc.fds] using hs'
  | turn hpc => exact .other rfl rfl (by simp [view, Due, hpc, Pc.fds])
  | enterAccept hpc he => exact .other rfl rfl (by simp [view, Due, hpc, Pc.fds, he])
  | enterRecv hpc => exact .other rfl rfl (by simp [view, Due, hpc, Pc.fds])
  | skip hpc hne => exact .other rfl rfl (by simp [view, Due, hpc, Pc.fds, Ne.symm hne])
  | acceptFail hpc =>
    have hq := @Kernel.accept_queue s.kernel (-1)
    refine .take hq.1 hq.2 ?_
    simpa [view, Due, Pc.fds] using h.batch.serv hpc
  | @accept todo r hpc =>
    have hq := @Kernel.accept_queue s.kernel r
    have hctl := @Kernel.ctl_queue (s.kernel.accept r) r .EPOLL_CTL_ADD
      (some ⟨EPOLLIN ||| EPOLLET, r⟩)
    refine .take (hctl.1.trans hq.1) (hctl.2.trans hq.2) ?_
    simpa [view, Due, Pc.fds, accepted] using h.batch.serv hpc
  | recv hpc => exact .other (Kernel.recv_queue _).1 (Kernel.recv_queue _).2 .rfl
  | @leave fd todo r hpc =>
    have hclose := @Kernel.close_queue s.kernel fd
    have hctl := @Kernel.ctl_queue (s.kernel.close fd) fd .EPOLL_CTL_DEL none
    refine .other (hctl.1.trans hclose.1) (hctl.2.trans hclose.2) ?_
    simp [view, Due, hpc, Pc.fds, dropped, Ne.symm (h.batch.client hpc)]

end
end Server

/-- At `epoll_wait` the backlog is announced exactly when the last accept left it so. -/
theorem Boot.announced_iff {e : Boot} {s₀ s : Server} {xs : List (Server × Act)}
    (hb : e.main = some s₀) (hx : Exec Server.Step s₀ xs s) (hpc : s.pc = .waiting) :
    (s.kernel.backlog ≠ [] → s.kernel.edge = true) ↔ Source.Served Server.view Server.op xs := by
  have hempty : s₀.kernel.backlog = [] := by
    obtain ⟨-, rfl⟩ := Boot.main_eq hb
    exact (Kernel.ctl_queue ..).1.trans Kernel.init_backlog
  refine Source.announced_iff hx (Boot.start hb).1 (fun _ h hst => h.step hst)
    (fun _ h hst => h.view_step hst.trans) hempty ?_
  simp [Server.view, Server.Due, hpc, Pc.fds]

end ChatServer

/-! ## The reactor -/

namespace Reactor

/-- A listening socket is reported with `EPOLLIN`. -/
def Act.ListenerIn (w : World) : Act → Prop
  | .wait batch => ∀ e ∈ batch, w.kernel.isListener e.1 = true → e.2.has EPOLLIN = true
  | _ => True

namespace World

/-- The listening socket has been reported and its turn is still to come. -/
def Due (w : World) : Prop :=
  (∃ c todo, w.pc = .accepting c todo) ∨ w.servSock ∈ w.pc.todo.map Ready.conn

def view (w : World) : Source SockId := ⟨w.kernel.backlog, w.kernel.edge, w.Due⟩

def op (w : World) : Act → Source.Op
  | .connect => .arrive
  | .wait batch => if batch.any fun e => w.kernel.isListener e.1 then .report else .other
  | .accept .. => .take
  | _ => .other

/-- The listening socket is in the batch once, with `EPOLLIN`. -/
structure ListenerOk (w : World) : Prop where
  once : w.pc = .accepting c todo → w.servSock ∉ todo.map Ready.conn
  input : r ∈ w.pc.todo → r.conn = w.servSock → r.event.events.has EPOLLIN = true

end World

section
variable {w w' : World} {a : Act}

/-- The listening socket is the one with the file of a listening socket. -/
theorem Registry.Ok.file_listener {g : Registry} {c : ConnId} {k : Core} (h : g.Ok)
    (hc : g.core c = some k) (hne : k.fd ≠ -1) :
    g.file k.fd = some .listener ↔ c = g.servSock := by
  constructor
  · intro hf
    by_contra hs
    obtain ⟨x, hx⟩ := h.peer hc hs hne
    rw [hf] at hx
    cases hx
  · rintro rfl
    obtain ⟨k', hk', -, hf⟩ := h.serv
    rw [hc] at hk'
    cases hk'
    exact hf

/-- An entry that `Epoll::wait` collects is the listening socket when its descriptor is. -/
theorem World.Inv.collected (h : w.Inv) {batch : List (Fd × Mask)} {todo : List Ready}
    {heap : ConnId → Option Connection} (hb : w.kernel.CanReport batch)
    (hcol : Collected w.connMap w.heap (w.kernel.reported batch) todo heap)
    {r : Ready} (hr : r ∈ todo) :
    w.kernel.isListener r.event.data = true ↔ r.conn = w.servSock := by
  have hev : r.event ∈ w.kernel.reported batch := hcol.events ▸ List.mem_map_of_mem hr
  obtain ⟨c, conn, hmap, hconn, hfd, hne, -⟩ := (World.reported_spec h.registry hb.2).2 _ hev
  rw [hcol.mapped r hr] at hmap
  cases hmap
  have hiff := h.registry.file_listener (World.registry_core hconn) hne
  rw [show (conn.core).fd = _ from hfd] at hiff
  rw [Kernel.isListener, beq_iff_eq]
  exact hiff

/-- The listening socket is reported when it is in `readyConns`. -/
theorem World.Inv.reported (h : w.Inv) {batch : List (Fd × Mask)} {todo : List Ready}
    {heap : ConnId → Option Connection} (hb : w.kernel.CanReport batch)
    (hcol : Collected w.connMap w.heap (w.kernel.reported batch) todo heap) :
    (∃ e ∈ batch, w.kernel.isListener e.1 = true) ↔ w.servSock ∈ todo.map Ready.conn := by
  have hdata : todo.map (fun r => r.event.data) = batch.map Prod.fst := by
    rw [← (World.reported_spec h.registry hb.2).1, ← hcol.events, List.map_map]
    rfl
  constructor
  · rintro ⟨e, he, hl⟩
    have hm : e.1 ∈ todo.map (fun r => r.event.data) := hdata ▸ List.mem_map_of_mem he
    obtain ⟨r, hr, hre⟩ := List.mem_map.mp hm
    exact List.mem_map.mpr ⟨r, hr, (h.collected hb hcol hr).mp (hre ▸ hl)⟩
  · intro hm
    obtain ⟨r, hr, hrs⟩ := List.mem_map.mp hm
    have hl := (h.collected hb hcol hr).mpr hrs
    have hm : r.event.data ∈ batch.map Prod.fst := hdata ▸ List.mem_map_of_mem hr
    obtain ⟨e, he, hed⟩ := List.mem_map.mp hm
    exact ⟨e, he, hed ▸ hl⟩

/-- What a reported entry comes from. -/
theorem World.Inv.of_reported (h : w.Inv) {batch : List (Fd × Mask)} {ev : EpollEvent}
    (hev : ev ∈ w.kernel.reported batch) : (ev.data, ev.events) ∈ batch := by
  obtain ⟨e, he, hr⟩ := List.mem_filterMap.mp hev
  obtain ⟨reg, hreg, rfl⟩ := Option.map_eq_some_iff.mp hr
  obtain ⟨-, -, -, -, -, -, -, hdata⟩ := h.registry.of_interest hreg
  rw [hdata]
  exact he

theorem Trans.mem_todo (ht : Trans w a w') (ha : ∀ batch, a ≠ .wait batch) {r : Ready}
    (hr : r ∈ w'.pc.todo) : r ∈ w.pc.todo := by
  cases ht with
  | connect | segment => exact hr
  | wait => exact absurd rfl (ha _)
  | turn => cases hr
  | skip hpc | enterAccept hpc | enterRecv hpc | enterSend hpc =>
    rw [hpc]
    exact List.mem_cons_of_mem _ hr
  | accept hpc | leaveRecv hpc | leaveSend hpc =>
    rw [hpc]
    exact hr
  | recv => exact hr

/-- The callback that accepts is the listening socket's, the others are clients'. -/
theorem World.Inv.selected (h : w.Inv) {r : Ready} {todo : List Ready} {conn : Connection}
    {f : CallbackFn} {c : ConnId} (hpc : w.pc = .dispatch (r :: todo))
    (hr : w.heap r.conn = some conn) (hsel : conn.selected = some (some ⟨f, c⟩)) :
    f = .acceptCallback ↔ r.conn = w.servSock := by
  obtain ⟨rfl, hfits⟩ := h.called hpc hr hsel
  cases f with
  | acceptCallback => exact iff_of_true rfl hfits
  | recvCallback | sendCallback => exact iff_of_false nofun hfits.1

theorem Trans.listenerOk (ht : Trans w a w') (h : w.Inv) (hs : w.ListenerOk)
    (ha : a.ListenerIn w) : w'.ListenerOk := by
  refine ⟨?_, ?_⟩
  · intro c todo hpc'
    cases ht with
    | connect | segment | recv => exact hs.once hpc'
    | enterAccept hpc hr hsel =>
      cases hpc'
      have hserv := (h.selected hpc hr hsel).mp rfl
      exact hserv ▸ (h.pending hpc).tail.1
    | wait | turn | skip | enterRecv | enterSend | accept | leaveRecv | leaveSend => cases hpc'
  · intro r hr hrs
    by_cases hw : ∃ batch, a = .wait batch
    · obtain ⟨batch, rfl⟩ := hw
      cases ht with
      | wait hpc hb hcol =>
        have hl := (h.collected hb hcol hr).mpr hrs
        exact ha _ (h.of_reported (hcol.events ▸ List.mem_map_of_mem hr)) hl
    · refine hs.input (ht.mem_todo (fun batch hb => hw ⟨batch, hb⟩) hr) ?_
      rw [hrs, ht.servSock]

/-- A step of the program is a step of the source. -/
theorem World.Inv.view_step (h : w.Inv) (hs : w.ListenerOk) (ht : Trans w a w') :
    Source.Step w.view (w.op a) w'.view := by
  cases ht with
  | connect => exact .arrive rfl rfl .rfl
  | segment => exact .other rfl rfl .rfl
  | @wait batch todo heap hpc hb hcol =>
    have hrep := h.reported hb hcol
    by_cases hl : ∃ e ∈ batch, w.kernel.isListener e.1 = true
    · rw [show w.op (.wait batch) = .report from if_pos (List.any_eq_true.mpr hl)]
      exact .report (.inr (hrep.mp hl))
    · rw [show w.op (.wait batch) = .other from if_neg (mt List.any_eq_true.mp hl)]
      have hk := Kernel.report_of_other (k := w.kernel) fun e he =>
        Bool.eq_false_iff.mpr fun ht => hl ⟨e, he, ht⟩
      rw [hk]
      refine .other rfl rfl ?_
      simpa [World.view, World.Due, hpc, Pc.todo] using mt hrep.mpr hl
  | turn hpc => exact .other rfl rfl (by simp [World.view, World.Due, hpc, Pc.todo])
  | @skip r todo conn hpc hr hsel =>
    have hne : r.conn ≠ w.servSock := by
      intro hserv
      obtain ⟨conn', hc, -, -, hrev, -⟩ := (h.pending hpc).entry List.mem_cons_self
      rw [hr] at hc
      cases hc
      have hin := hs.input (by rw [hpc]; exact List.mem_cons_self) hserv
      rw [Connection.selected, hrev, if_pos hin] at hsel
      cases hsel
    exact .other rfl rfl (by simp [World.view, World.Due, hpc, Pc.todo, Ne.symm hne])
  | enterAccept hpc hr hsel =>
    have hserv := (h.selected hpc hr hsel).mp rfl
    exact .other rfl rfl (by simp [World.view, World.Due, hpc, Pc.todo, hserv])
  | enterRecv hpc hr hsel =>
    have hne := mt (h.selected hpc hr hsel).mpr (by decide)
    exact .other rfl rfl (by simp [World.view, World.Due, hpc, Pc.todo, World.put, Ne.symm hne])
  | enterSend hpc hr hsel =>
    have hne := mt (h.selected hpc hr hsel).mpr (by decide)
    exact .other rfl rfl (by simp [World.view, World.Due, hpc, Pc.todo, World.put, Ne.symm hne])
  | @accept c todo r junk hpc =>
    have hq := @Kernel.accept_queue w.kernel r
    have hctl := @Kernel.ctl_queue (w.kernel.accept r) r .EPOLL_CTL_ADD
      (some ⟨EPOLLET ||| EPOLLIN, r⟩)
    refine .take (hctl.1.trans hq.1) (hctl.2.trans hq.2) ?_
    simpa [World.view, World.Due, Pc.todo, World.accepted] using hs.once hpc
  | recv hpc => exact .other (Kernel.recv_queue _).1 (Kernel.recv_queue _).2 .rfl
  | @leaveRecv c todo conn r hpc =>
    have hq := @Kernel.recv_queue w.kernel conn.fd r
    have hctl := @Kernel.ctl_queue (w.kernel.recv conn.fd r) conn.fd .EPOLL_CTL_MOD
      (some ⟨EPOLLOUT, conn.fd⟩)
    refine .other (hctl.1.trans hq.1) (hctl.2.trans hq.2) ?_
    simp [World.view, World.Due, hpc, Pc.todo, World.rearmed, World.put]
  | @leaveSend c todo conn n past hpc =>
    let bs := (conn.wbuffer.bytes ++ past).take n
    have hq := @Kernel.write_queue w.kernel conn.fd bs
    have hctl := @Kernel.ctl_queue (w.kernel.write conn.fd bs) conn.fd .EPOLL_CTL_DEL none
    have hclose := @Kernel.close_queue ((w.kernel.write conn.fd bs).ctl .EPOLL_CTL_DEL conn.fd none)
      conn.fd
    refine .other (hclose.1.trans (hctl.1.trans hq.1)) (hclose.2.trans (hctl.2.trans hq.2)) ?_
    simp [World.view, World.Due, hpc, Pc.todo, World.dropped]

end

/-- At `epoll_wait` the backlog is announced exactly when the last accept left it so. -/
theorem Boot.announced_iff {e : Boot} {w w' : World} {xs : List (World × Act)}
    (hb : e.server = some (.ok w)) (hx : Exec World.Step w xs w')
    (hin : ∀ x ∈ xs, x.2.ListenerIn x.1) (hpc : w'.pc = .waiting) :
    (w'.kernel.backlog ≠ [] → w'.kernel.edge = true) ↔ Source.Served World.view World.op xs := by
  obtain ⟨hinv, hpc₀⟩ := Boot.started_inv hb
  have hempty : w.kernel.backlog = [] := by
    obtain ⟨-, rfl⟩ := Boot.server_eq hb
    exact (Kernel.ctl_queue ..).1.trans Kernel.init_backlog
  have hlistener : w.ListenerOk := by
    refine ⟨?_, ?_⟩
    · intro c todo h
      rw [hpc₀] at h
      cases h
    · intro r hr
      rw [hpc₀] at hr
      cases hr
  refine Source.announced_iff (P := fun w => w.Inv ∧ w.ListenerOk) hx ⟨hinv, hlistener⟩ ?_ ?_
    (show w.view.queue = [] from hempty) ?_
  · intro t a u hm h hst
    exact ⟨h.1.step hst, (h.1.trans hst).listenerOk h.1 h.2 (hin _ hm)⟩
  · intro t a u _ h hst
    exact h.1.view_step h.2 (h.1.trans hst)
  · simp [World.view, World.Due, hpc, Pc.todo]

/-- `n` clients connect before the listening socket is reported. -/
def acceptRun (n : Nat) : List Act := List.replicate n .connect ++
  [.wait [(4, EPOLLIN)], .next, .accept 5 Boot.plain.junk, .next]

theorem acceptRun_listenerIn {n : Nat} {a : Act} (ha : a ∈ acceptRun n) (w : World) :
    a.ListenerIn w := by
  rcases List.mem_append.mp ha with ha | ha
  · rw [List.eq_of_mem_replicate ha]
    trivial
  · simp only [List.mem_cons, List.not_mem_nil, or_false] at ha
    rcases ha with rfl | rfl | rfl | rfl
    · intro e he _
      rw [List.mem_singleton.mp he]
      decide
    · trivial
    · trivial
    · trivial

end Reactor

namespace ChatServer

/-- `n` clients connect before the listening socket is reported. -/
def acceptRun (n : Nat) : List Act := List.replicate n .connect ++
  [.wait [(4, EPOLLIN)], .next, .accept 5, .next]

end ChatServer

/-! ## Both servers -/

/-- In both servers, when `epoll_wait` is about to be called, the listen backlog is empty or its
readiness edge is still to be reported, exactly when the last `accept` found one connection at most,
or an edge that had come since the report, or was followed by the arrival of a client. -/
theorem listener_iff {e : Reactor.Boot} {w w' : Reactor.World}
    {xs : List (Reactor.World × Reactor.Act)} (hb : e.server = some (.ok w))
    (hx : Exec Reactor.World.Step w xs w') (hin : ∀ x ∈ xs, x.2.ListenerIn x.1)
    (hpc : w'.pc = .waiting) {m : ChatServer.Boot} {s₀ s : ChatServer.Server}
    {ys : List (ChatServer.Server × ChatServer.Act)} (hm : m.main = some s₀)
    (hy : Exec ChatServer.Server.Step s₀ ys s) (hpc' : s.pc = .waiting) :
    ((w'.kernel.backlog ≠ [] → w'.kernel.edge = true) ↔
      Source.Served Reactor.World.view Reactor.World.op xs) ∧
    ((s.kernel.backlog ≠ [] → s.kernel.edge = true) ↔
      Source.Served ChatServer.Server.view ChatServer.Server.op ys) :=
  ⟨Reactor.Boot.announced_iff hb hx hin hpc, ChatServer.Boot.announced_iff hm hy hpc'⟩

/-- One client at a time is no trouble. -/
theorem listener_iff_one : ∃ w w' xs s₀ s ys,
    Reactor.Boot.plain.server = some (.ok w) ∧ Exec Reactor.World.Step w xs w' ∧
    xs.map Prod.snd = Reactor.acceptRun 1 ∧
    ChatServer.Boot.plain.main = some s₀ ∧ Exec ChatServer.Server.Step s₀ ys s ∧
    ys.map Prod.snd = ChatServer.acceptRun 1 ∧
    ((w'.kernel.backlog ≠ [] → w'.kernel.edge = true) ↔
      Source.Served Reactor.World.view Reactor.World.op xs) ∧
    ((s.kernel.backlog ≠ [] → s.kernel.edge = true) ↔
      Source.Served ChatServer.Server.view ChatServer.Server.op ys) := by
  have hrun : (Exec.runs Reactor.World.step? Reactor.Boot.plain.started (Reactor.acceptRun 1)).any
      (·.pc = .waiting) := by decide +kernel
  obtain ⟨w, w', xs, hw, hx, hacts, hpc⟩ :=
    Reactor.Boot.plain_run ((Option.any_eq_true ..).mp hrun)
  have hin : ∀ x ∈ xs, x.2.ListenerIn x.1 := by
    intro x hm
    exact Reactor.acceptRun_listenerIn (hacts ▸ List.mem_map_of_mem hm) x.1
  have hrun' : (Exec.runs ChatServer.Server.step? ChatServer.Boot.plain.started
      (ChatServer.acceptRun 1)).any (·.pc = .waiting) := by decide +kernel
  obtain ⟨s₀, s, ys, h₀, hy, hacts', hpc'⟩ :=
    ChatServer.Boot.plain_run ((Option.any_eq_true ..).mp hrun')
  exact ⟨w, w', xs, s₀, s, ys, hw, hx, hacts, h₀, hy, hacts',
    listener_iff hw hx hin (of_decide_eq_true hpc) h₀ hy (of_decide_eq_true hpc')⟩

/-- Two clients connect before one report: both servers are back at `epoll_wait` with the second one
in the backlog and no edge. -/
theorem listener_stranded :
    (∃ w w' xs, Reactor.Boot.plain.server = some (.ok w) ∧ Exec Reactor.World.Step w xs w' ∧
      xs.map Prod.snd = Reactor.acceptRun 2 ∧ w'.pc = .waiting ∧
      w'.kernel.backlog = [1] ∧ w'.kernel.edge = false) ∧
    (∃ s₀ s xs, ChatServer.Boot.plain.main = some s₀ ∧ Exec ChatServer.Server.Step s₀ xs s ∧
      xs.map Prod.snd = ChatServer.acceptRun 2 ∧ s.pc = .waiting ∧
      s.kernel.backlog = [1] ∧ s.kernel.edge = false) := by
  constructor
  · have hrun : (Exec.runs Reactor.World.step? Reactor.Boot.plain.started (Reactor.acceptRun 2)).any
        fun w => w.pc = .waiting ∧ w.kernel.backlog = [1] ∧ w.kernel.edge = false := by
      decide +kernel
    obtain ⟨w, w', xs, hw, hx, hacts, hend⟩ :=
      Reactor.Boot.plain_run ((Option.any_eq_true ..).mp hrun)
    exact ⟨w, w', xs, hw, hx, hacts, of_decide_eq_true hend⟩
  · have hrun : (Exec.runs ChatServer.Server.step? ChatServer.Boot.plain.started
        (ChatServer.acceptRun 2)).any
        fun s => s.pc = .waiting ∧ s.kernel.backlog = [1] ∧ s.kernel.edge = false := by
      decide +kernel
    obtain ⟨s₀, s, xs, h₀, hx, hacts, hend⟩ :=
      ChatServer.Boot.plain_run ((Option.any_eq_true ..).mp hrun)
    exact ⟨s₀, s, xs, h₀, hx, hacts, of_decide_eq_true hend⟩

end OnlineChat
