import OnlineChat.Lib.Except
import OnlineChat.Reactor.EventLoop

/-!
# What one step of the reactor does

`World.step` is a sequence of method calls, each of which may fail. `Trans` lists the outcomes of
the steps that succeed, one constructor for each way through the code, with the state after it
written out; `World.Step.trans` is the inversion, and the only place where the code of the
callbacks is unfolded. It uses of the state before only that every `Connection` has been passed to
`updateConnection`.
-/

namespace OnlineChat.Reactor
open Lib Function

/-! ## The method calls on live objects -/

section
variable {w : World} {c : ConnId} {conn : Connection}

theorem World.deref_eq_ok : w.deref c = .ok conn ↔ w.heap c = some conn := by
  unfold World.deref
  split <;> simp_all

theorem World.modify_eq_ok {f : Connection → Connection} {w' : World} :
    w.modify c f = .ok w' ↔ ∃ conn, w.heap c = some conn ∧ w' = w.put c (f conn) := by
  unfold World.modify World.deref
  cases w.heap c <;> simp [bind, Except.bind, pure, Except.pure, eq_comm]

theorem World.modify_of_live (h : w.heap c = some conn) (f : Connection → Connection) :
    w.modify c f = .ok (w.put c (f conn)) := World.modify_eq_ok.mpr ⟨conn, h, rfl⟩

@[simp] theorem World.put_heap_self : (w.put c conn).heap c = some conn := update_self ..

end

/-- The function that the dispatch in `EventLoop::start` invokes, if any. -/
def Connection.selected (conn : Connection) : Option (Option Callback) :=
  if conn.revent.events.has EPOLLIN then some conn.recvCallback
  else if conn.revent.events.has EPOLLOUT then some conn.sendCallback
  else none

/-- A client connection as `acceptCallback` leaves it. -/
def Connection.client (r : Fd) (inetAddr : InetId) (c : ConnId) (junk : Junk) : Connection where
  fd := r
  inEpoll := true
  inetAddr := some inetAddr
  event := ⟨EPOLLET ||| EPOLLIN, r⟩
  revent := junk.revent
  rbuffer := junk.rbuffer
  wbuffer := junk.wbuffer
  recvCallback := some ⟨.recvCallback, c⟩
  sendCallback := some ⟨.sendCallback, c⟩

namespace World
variable (w : World)

/-- After `acceptCallback`. -/
def accepted (c : ConnId) (todo : List Ready) (r : Fd) (junk : Junk) : World where
  kernel := (w.kernel.accept r).ctl .EPOLL_CTL_ADD r (some ⟨EPOLLET ||| EPOLLIN, r⟩)
  heap := update w.heap w.nextConn (some (.client r w.nextInet w.nextConn junk))
  inets := update w.inets w.nextInet true
  nextConn := w.nextConn + 1
  nextInet := w.nextInet + 1
  connMap := update w.connMap r (some w.nextConn)
  servSock := w.servSock
  pc := .dispatch todo
  trace := w.trace ++ [.accepted r,
    .ctl .EPOLL_CTL_ADD r ((w.kernel.accept r).ctlOk .EPOLL_CTL_ADD r),
    .finished .acceptCallback c]

/-- After a pass through the receive loop that goes on. -/
def received (c : ConnId) (conn : Connection) (r : RecvResult)
    (s : RecvBuf RECV_BUFFER_LENGTH) : World :=
  { w.put c (conn.setRecvBuf s) with kernel := w.kernel.recv conn.fd r }

/-- After the pass that ends `recvCallback`. -/
def rearmed (c : ConnId) (conn : Connection) (todo : List Ready) (r : RecvResult) : World :=
  { w.put c (conn.setEvent EPOLLOUT) with
    kernel := (w.kernel.recv conn.fd r).ctl .EPOLL_CTL_MOD conn.fd (some ⟨EPOLLOUT, conn.fd⟩)
    pc := .dispatch todo
    trace := w.trace ++ [
      .ctl .EPOLL_CTL_MOD conn.fd ((w.kernel.recv conn.fd r).ctlOk .EPOLL_CTL_MOD conn.fd),
      .finished .recvCallback c] }

/-- After `sendCallback`, `write` having taken `bs`. -/
def dropped (c : ConnId) (conn : Connection) (todo : List Ready) (bs : List Byte) : World :=
  { w with
    kernel := ((w.kernel.write conn.fd bs).ctl .EPOLL_CTL_DEL conn.fd none).close conn.fd
    heap := update w.heap c none
    inets := match conn.inetAddr with
      | none => w.inets
      | some a => update w.inets a false
    connMap := update w.connMap conn.fd none
    pc := .dispatch todo
    trace := w.trace ++ [
      .ctl .EPOLL_CTL_DEL conn.fd ((w.kernel.write conn.fd bs).ctlOk .EPOLL_CTL_DEL conn.fd),
      .closed conn.fd, .deleted c, .finished .sendCallback c] }

end World

/-- The entries that `Epoll::wait` collected for `es`, and the heap with their `revent`s set. -/
inductive Collected (m : Fd → Option ConnId) :
    (ConnId → Option Connection) → List EpollEvent → List Ready → (ConnId → Option Connection) → Prop
  | nil {heap} : Collected m heap [] [] heap
  | cons {heap e es c conn todo heap'} : m e.data = some c → heap c = some conn →
    Collected m (update heap c (some (conn.setREvent e.events))) es todo heap' →
    Collected m heap (e :: es) (⟨e, c⟩ :: todo) heap'

/-- The ways a step of the server can go. -/
inductive Trans (w : World) : Act → World → Prop
  | connect : Trans w .connect { w with kernel := w.kernel.connect }
  | segment {s bs} : Trans w (.segment s bs) { w with kernel := w.kernel.segment s bs }
  | wait {batch todo heap} : w.pc = .waiting → w.kernel.CanReport batch →
    Collected w.connMap w.heap (w.kernel.reported batch) todo heap →
    Trans w (.wait batch)
      { w with kernel := w.kernel.report batch, heap := heap, pc := .dispatch todo }
  | turn : w.pc = .dispatch [] → Trans w .next { w with pc := .waiting }
  | skip {r todo conn} : w.pc = .dispatch (r :: todo) → w.heap r.conn = some conn →
    conn.selected = none → Trans w .next { w with pc := .dispatch todo }
  | enterAccept {r todo conn c} : w.pc = .dispatch (r :: todo) → w.heap r.conn = some conn →
    conn.selected = some (some ⟨.acceptCallback, c⟩) →
    Trans w .next
      { w with pc := .accepting c todo, trace := w.trace ++ [.started .acceptCallback c] }
  | enterRecv {r todo conn c conn'} : w.pc = .dispatch (r :: todo) → w.heap r.conn = some conn →
    conn.selected = some (some ⟨.recvCallback, c⟩) → w.heap c = some conn' →
    Trans w .next { w.put c conn'.rBufferClear with
      pc := .receiving c todo, trace := w.trace ++ [.started .recvCallback c] }
  | enterSend {r todo conn c conn' conn''} : w.pc = .dispatch (r :: todo) →
    w.heap r.conn = some conn → conn.selected = some (some ⟨.sendCallback, c⟩) →
    w.heap c = some conn' → conn'.strcpy = .ok conn'' →
    Trans w .next { w.put c (conn''.setWLen conn''.rlen) with
      pc := .writing c todo, trace := w.trace ++ [.started .sendCallback c] }
  | accept {c todo r junk} : w.pc = .accepting c todo → w.kernel.CanAccept r →
    Trans w (.accept r junk) (w.accepted c todo r junk)
  | recv {c todo conn r s} : w.pc = .receiving c todo → w.heap c = some conn →
    w.kernel.CanRecv conn.fd conn.recvBuf.request r → conn.recvBuf.pass r = .ok (false, s) →
    Trans w (.recv r) (w.received c conn r s)
  | leaveRecv {c todo conn r} : w.pc = .receiving c todo → w.heap c = some conn →
    w.kernel.CanRecv conn.fd conn.recvBuf.request r →
    conn.recvBuf.pass r = .ok (true, conn.recvBuf) → r.data = [] →
    Trans w (.recv r) (w.rearmed c conn todo r)
  | leaveSend {c todo conn n past} : w.pc = .writing c todo → w.heap c = some conn →
    n ≤ toSizeT conn.wlen → n ≤ SEND_BUFFER_LENGTH + past.length →
    Trans w (.write n past)
      (w.dropped c conn todo ((conn.wbuffer.bytes ++ past).take n))

namespace World
variable {w w' : World} {c : ConnId} {conn : Connection}

theorem collect_eq_ok {es : List EpollEvent} {todo : List Ready}
    (h : w.collect es = .ok (todo, w')) :
    Collected w.connMap w.heap es todo w'.heap ∧ w' = { w with heap := w'.heap } := by
  induction es generalizing w todo with
  | nil =>
    cases h
    exact ⟨.nil, rfl⟩
  | cons e es ih =>
    unfold collect at h
    split at h
    · cases h
    rename_i c hc
    obtain ⟨v, hv, h₁⟩ := bind_eq_ok h
    obtain ⟨⟨res, u⟩, hu, h₂⟩ := bind_eq_ok h₁
    obtain ⟨conn, hconn, rfl⟩ := modify_eq_ok.mp hv
    cases h₂
    obtain ⟨ih, hw⟩ := ih hu
    exact ⟨.cons hc hconn ih, hw.trans rfl⟩

theorem updateConnection_mod (h : w.heap c = some conn) (hin : conn.inEpoll = true) :
    w.updateConnection c .ACTION_UPDATE =
      .ok (w.epollCtl .EPOLL_CTL_MOD conn.fd (some conn.event)) := by
  simp [updateConnection, deref_eq_ok.mpr h, hin, bind, Except.bind, pure, Except.pure]

theorem updateConnection_add (h : w.heap c = some conn) (hin : conn.inEpoll = false) :
    w.updateConnection c .ACTION_UPDATE =
      .ok { (w.epollCtl .EPOLL_CTL_ADD conn.fd (some conn.event)).put c conn.setInEpoll with
        connMap := update w.connMap conn.fd (some c) } := by
  have h' : (w.epollCtl .EPOLL_CTL_ADD conn.fd (some conn.event)).heap c = some conn := h
  simp only [updateConnection, deref_eq_ok.mpr h, hin, bind, Except.bind, pure, Except.pure,
    modify_of_live h']
  rfl

theorem deleteConnection_eq_ok (hc : w.heap c = some conn)
    (h : w.deleteConnection c = .ok w') :
    w' = { w with
      kernel := w.kernel.close conn.fd
      heap := update w.heap c none
      inets := match conn.inetAddr with
        | none => w.inets
        | some a => update w.inets a false
      trace := w.trace ++ [.closed conn.fd, .deleted c] } := by
  simp only [deleteConnection, deref_eq_ok.mpr hc, bind, Except.bind, pure, Except.pure] at h
  cases ha : conn.inetAddr with
  | none =>
    simp only [ha, deleteInetAddress] at h
    cases h
    simp [close, log]
  | some a =>
    simp only [ha, deleteInetAddress] at h
    split at h
    · cases h
    next heq =>
      split at heq
      · cases heq
        cases h
        simp [close, log]
      · cases heq

theorem acceptCallback_ok (r : Fd) (junk : Junk) :
    (w.acceptCallback r junk).map (·.ret .acceptCallback c todo) =
      .ok (w.accepted c todo r junk) := by
  simp [acceptCallback, socketAccept, newInetAddress, newConnection, log, modify, deref, put,
    updateConnection, setRecvCallback, setSendCallback, epollCtl, bind, Except.bind, pure,
    Except.pure, Except.map, ret, accepted, Connection.new, Connection.setEvent,
    Connection.setInEpoll, Connection.setRecvCallback, Connection.setSendCallback,
    Connection.client]

theorem updateConnection_delete (h : w.heap c = some conn) (hin : conn.inEpoll = true) :
    w.updateConnection c .ACTION_DELETE =
      ({ w with connMap := update w.connMap conn.fd none }.epollCtl .EPOLL_CTL_DEL conn.fd
        none).deleteConnection c := by
  simp [updateConnection, deref_eq_ok.mpr h, hin, bind, Except.bind]

/-- `delete conn` on a connection whose `InetAddress` is its own. -/
def deleted (w : World) (c : ConnId) (conn : Connection) : World :=
  { w with
    kernel := (w.kernel.ctl .EPOLL_CTL_DEL conn.fd none).close conn.fd
    heap := update w.heap c none
    inets := match conn.inetAddr with
      | none => w.inets
      | some a => update w.inets a false
    connMap := update w.connMap conn.fd none
    trace := w.trace ++ [.ctl .EPOLL_CTL_DEL conn.fd (w.kernel.ctlOk .EPOLL_CTL_DEL conn.fd),
      .closed conn.fd, .deleted c] }

theorem updateConnection_deleted (hc : w.heap c = some conn) (hin : conn.inEpoll = true)
    (ha : ∀ a, conn.inetAddr = some a → w.inets a = true) :
    w.updateConnection c .ACTION_DELETE = .ok (w.deleted c conn) := by
  rw [updateConnection_delete hc hin]
  have hc' : (({ w with connMap := update w.connMap conn.fd none } : World).epollCtl
      .EPOLL_CTL_DEL conn.fd none).heap c = some conn := hc
  obtain ⟨v, hv⟩ : ∃ v, (({ w with connMap := update w.connMap conn.fd none } : World).epollCtl
      .EPOLL_CTL_DEL conn.fd none).deleteConnection c = .ok v := by
    simp only [deleteConnection, deref_eq_ok.mpr hc', bind, Except.bind, pure,
      Except.pure]
    cases hi : conn.inetAddr with
    | none => exact ⟨_, rfl⟩
    | some a =>
      have hlive : (({ w with connMap := update w.connMap conn.fd none } : World).epollCtl
          .EPOLL_CTL_DEL conn.fd none).inets a = true := ha a hi
      simp only [deleteInetAddress, hlive, if_true]
      exact ⟨_, rfl⟩
  rw [hv, deleteConnection_eq_ok hc' hv]
  simp only [deleted, epollCtl, log, List.append_assoc]
  rfl

theorem leave_recv_ok (h : w.heap c = some conn) (hin : conn.inEpoll = true) :
    recvCallback.leave w c =
      .ok ((w.put c (conn.setEvent EPOLLOUT)).epollCtl .EPOLL_CTL_MOD conn.fd
        (some ⟨EPOLLOUT, conn.fd⟩)) := by
  simp only [recvCallback.leave, modify_of_live h, bind, Except.bind]
  exact updateConnection_mod put_heap_self hin

theorem rearmed_eq {todo : List Ready} {r : RecvResult} :
    (((({ w with kernel := w.kernel.recv conn.fd r } : World).put c
        (conn.setRecvBuf conn.recvBuf)).put c ((conn.setRecvBuf conn.recvBuf).setEvent EPOLLOUT)
      ).epollCtl .EPOLL_CTL_MOD conn.fd (some ⟨EPOLLOUT, conn.fd⟩)).ret .recvCallback c todo =
      w.rearmed c conn todo r := by
  simp [rearmed, ret, epollCtl, log, put, Connection.setRecvBuf, Connection.recvBuf]

theorem leave_send_ret {v : World} {todo : List Ready} {n : Nat} {past : List Byte}
    (hc : w.heap c = some conn) (hin : conn.inEpoll = true)
    (h : sendCallback.leave w c n past = .ok v) :
    v.ret .sendCallback c todo = w.dropped c conn todo ((conn.wbuffer.bytes ++ past).take n) := by
  simp only [sendCallback.leave, deref_eq_ok.mpr hc, bind, Except.bind] at h
  rw [updateConnection_delete (by exact hc) hin] at h
  rw [deleteConnection_eq_ok (by exact hc) h]
  simp [dropped, ret, epollCtl, log]

theorem leave_send_ok {todo : List Ready} {n : Nat} {past : List Byte}
    (hc : w.heap c = some conn) (hin : conn.inEpoll = true)
    (ha : ∀ a, conn.inetAddr = some a → w.inets a = true) :
    ∃ v, sendCallback.leave w c n past = .ok v ∧
      v.ret .sendCallback c todo = w.dropped c conn todo ((conn.wbuffer.bytes ++ past).take n) := by
  obtain ⟨v, hv⟩ : ∃ v, sendCallback.leave w c n past = .ok v := by
    simp only [sendCallback.leave, deref_eq_ok.mpr hc, bind, Except.bind]
    exact ⟨_, updateConnection_deleted (by exact hc) hin ha⟩
  exact ⟨v, hv, leave_send_ret hc hin hv⟩

/-- One pass through the loop of `recvCallback` on its connection. -/
theorem pass_eq {r : RecvResult} (hc : w.heap c = some conn) :
    recvCallback.pass w c r = (conn.recvBuf.pass r).map fun p =>
      (p.1, { w with kernel := w.kernel.recv conn.fd r }.put c (conn.setRecvBuf p.2)) := by
  simp only [recvCallback.pass, deref_eq_ok.mpr hc, bind, Except.bind, pure, Except.pure]
  cases conn.recvBuf.pass r <;> rfl

/-- `recv` returns to the loop of `recvCallback`. -/
theorem step_recv {todo : List Ready} {r : RecvResult} (hpc : w.pc = .receiving c todo)
    (hc : w.heap c = some conn) (hin : conn.inEpoll = true) (hne : r ≠ .bytes []) :
    w.step (.recv r) = match conn.recvBuf.pass r with
      | .ok (false, s) => .ok (w.received c conn r s)
      | .ok (true, _) => .ok (w.rearmed c conn todo r)
      | .error f => .error f := by
  simp only [step, hpc]
  simp only [pass_eq hc, bind, Except.bind]
  cases hp : conn.recvBuf.pass r with
  | error f => rfl
  | ok p =>
    obtain ⟨stop, s⟩ := p
    cases stop with
    | false => rfl
    | true =>
      obtain ⟨-, rfl⟩ := RecvBuf.pass_true hne hp
      have hleave := @leave_recv_ok ({ w with kernel := w.kernel.recv conn.fd r }.put c
        (conn.setRecvBuf conn.recvBuf)) c _ put_heap_self hin
      simp only [Except.map, if_true, hleave]
      exact congrArg Except.ok rearmed_eq

/-- `write` returns to `sendCallback`. -/
theorem step_write {todo : List Ready} {n : Nat} {past : List Byte} (hpc : w.pc = .writing c todo)
    (hc : w.heap c = some conn) (hin : conn.inEpoll = true)
    (ha : ∀ a, conn.inetAddr = some a → w.inets a = true) :
    w.step (.write n past) =
      .ok (w.dropped c conn todo ((conn.wbuffer.bytes ++ past).take n)) := by
  obtain ⟨v, hv, hret⟩ := @leave_send_ok w c conn todo n past hc hin ha
  simp only [step, hpc, hv, bind, Except.bind, pure, Except.pure, hret]

/-! ## The inversion -/

theorem call_trans {r : Ready} {todo : List Ready} {f : Option Callback}
    (hpc : w.pc = .dispatch (r :: todo)) (hr : w.heap r.conn = some conn)
    (hsel : conn.selected = some f) (h : w.call todo f = .ok w') : Trans w .next w' := by
  match f, hsel, h with
  | some ⟨.acceptCallback, c⟩, hsel, h =>
    cases h
    exact .enterAccept hpc hr hsel
  | some ⟨.recvCallback, c⟩, hsel, h =>
    obtain ⟨v, hv, h⟩ := bind_eq_ok h
    obtain ⟨conn', hc, rfl⟩ := modify_eq_ok.mp hv
    cases h
    exact .enterRecv hpc hr hsel hc
  | some ⟨.sendCallback, c⟩, hsel, h =>
    obtain ⟨v, hv, h⟩ := bind_eq_ok h
    obtain ⟨conn', hc, hv⟩ := bind_eq_ok hv
    obtain ⟨conn'', hs, hv⟩ := bind_eq_ok hv
    cases hv
    cases h
    exact .enterSend hpc hr hsel (deref_eq_ok.mp hc) hs

theorem dispatch_trans {todo : List Ready} (hpc : w.pc = .dispatch todo)
    (h : w.dispatch todo = .ok w') : Trans w .next w' := by
  cases todo with
  | nil =>
    cases h
    exact .turn hpc
  | cons r todo =>
    obtain ⟨conn, hr, h⟩ := bind_eq_ok h
    have hr := deref_eq_ok.mp hr
    by_cases hi : conn.revent.events.has EPOLLIN
    · rw [if_pos hi] at h
      exact call_trans hpc hr (by simp [Connection.selected, hi]) h
    rw [if_neg hi] at h
    by_cases ho : conn.revent.events.has EPOLLOUT
    · rw [if_pos ho] at h
      exact call_trans hpc hr (by simp [Connection.selected, hi, ho]) h
    rw [if_neg ho] at h
    cases h
    exact .skip hpc hr (by simp [Connection.selected, hi, ho])

theorem recv_trans {todo : List Ready} {r : RecvResult}
    (hin : ∀ c conn, w.heap c = some conn → conn.inEpoll = true)
    (hpc : w.pc = .receiving c todo) (hl : w.Legal (.recv r)) (h : w.step (.recv r) = .ok w') :
    Trans w (.recv r) w' := by
  cases hc : w.heap c with
  | none =>
    simp only [step, hpc, recvCallback.pass, deref, hc, bind, Except.bind] at h
    cases h
  | some conn =>
    simp only [Legal, hpc] at hl
    have hl := hl conn hc
    have hne := hl.ne_nil
    rw [step_recv hpc hc (hin c conn hc) hne] at h
    split at h
    next s hs =>
      cases h
      exact .recv hpc hc hl hs
    next s hs =>
      cases h
      obtain ⟨hd, rfl⟩ := RecvBuf.pass_true hne hs
      exact .leaveRecv hpc hc hl hs hd
    · cases h

theorem write_trans {todo : List Ready} {n : Nat} {past : List Byte}
    (hin : ∀ c conn, w.heap c = some conn → conn.inEpoll = true)
    (hpc : w.pc = .writing c todo) (hl : w.Legal (.write n past))
    (h : w.step (.write n past) = .ok w') : Trans w (.write n past) w' := by
  simp only [step, hpc] at h
  obtain ⟨v, hv, h⟩ := bind_eq_ok h
  obtain ⟨conn, hc, -⟩ := bind_eq_ok hv
  have hc := deref_eq_ok.mp hc
  simp only [Legal, hpc] at hl
  cases h
  rw [leave_send_ret hc (hin c conn hc) hv]
  exact .leaveSend hpc hc (hl.2 conn hc) hl.1

/-- Every step of the server goes one of the ways listed in `Trans`. -/
theorem Step.trans {a : Act} (hin : ∀ c conn, w.heap c = some conn → conn.inEpoll = true)
    (h : w.Step a w') : Trans w a w' := by
  obtain ⟨hl, h⟩ := h
  cases a with
  | connect => cases h; exact .connect
  | segment s bs => cases h; exact .segment
  | wait batch =>
    obtain ⟨⟨todo, v⟩, hv, h⟩ := bind_eq_ok h
    obtain ⟨hcol, hv⟩ := collect_eq_ok hv
    cases h
    rw [hv]
    exact .wait hl.1 hl.2.2 hcol
  | next =>
    simp only [Legal] at hl
    split at hl
    next todo hpc =>
      simp only [step, hpc] at h
      exact dispatch_trans hpc h
    · exact hl.elim
  | accept r junk =>
    simp only [Legal] at hl
    split at hl
    next c todo hpc =>
      have hacc := @acceptCallback_ok w c todo r junk
      simp only [step, hpc] at h
      rw [show w' = w.accepted c todo r junk from Except.ok.inj (h.symm.trans hacc)]
      exact .accept hpc hl
    · exact hl.elim
  | recv r =>
    have hl' := hl
    simp only [Legal] at hl'
    split at hl'
    next c todo hpc => exact recv_trans hin hpc hl h
    · exact hl'.elim
  | write n past =>
    have hl' := hl
    simp only [Legal] at hl'
    split at hl'
    next c todo hpc => exact write_trans hin hpc hl h
    · exact hl'.elim

end World
end OnlineChat.Reactor
