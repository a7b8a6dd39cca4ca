import OnlineChat.Lib.Exec
import OnlineChat.Reactor.Epoll

/-!
# The server: Socket, the callbacks of Server.cpp and EventLoop

The program runs from one system call to the next. `World.step w a` is what it does when the
kernel answers the call it waits in with `a` (`World.Legal` says which answers the kernel may
give), or, for `.next`, when the loop of `EventLoop::start` turns to the next ready connection.
Clients connect and send at any time. A callback that makes a system call is therefore cut at the
call, into `enter` and the rest.
-/

namespace OnlineChat.Reactor
open Lib Function

inductive Act
  /-- A client connects. -/
  | connect
  /-- A segment of a client's stream arrives. -/
  | segment (s : SockId) (bs : List Byte)
  /-- `epoll_wait` returns. -/
  | wait (batch : List (Fd × Mask))
  /-- The loop over `readyConns` goes on. -/
  | next
  /-- `::accept` returns `r`. -/
  | accept (r : Fd) (junk : Junk)
  /-- `recv` returns. -/
  | recv (r : RecvResult)
  /-- `write` takes `n` bytes (none when it fails), which may reach into the memory `past` the end
  of `wbuffer`. That it raises SIGPIPE, which would end the process, is left out. -/
  | write (n : Nat) (past : List Byte)

namespace World
variable (w : World)

/-! ## Socket -/

/-- `Socket::accept`, where `::accept` returns `r`. It never returns a null pointer. -/
def socketAccept (r : Fd) (junk : Junk) : Option ConnId × World :=
  let (inetAddr, w) := w.newInetAddress
  let w := { w with kernel := w.kernel.accept r }.log (.accepted r)
  let (conn, w) := w.newConnection (.new r (some inetAddr) junk)
  (some conn, w)

/-! ## The callbacks -/

def acceptCallback (r : Fd) (junk : Junk) : Except Fault World := do
  let (client_conn, w) := w.socketAccept r junk
  match client_conn with
  | none => pure w
  | some client_conn =>
    let w ← w.modify client_conn (·.setEvent (EPOLLET ||| EPOLLIN))
    let w ← w.updateConnection client_conn .ACTION_UPDATE
    let w ← w.setRecvCallback client_conn .recvCallback
    w.setSendCallback client_conn .sendCallback

/-- The beginning of `recvCallback`, up to the loop. -/
def recvCallback.enter (c : ConnId) : Except Fault World :=
  w.modify c Connection.rBufferClear

/-- One pass through the receive loop, with `true` when it is left. -/
def recvCallback.pass (c : ConnId) (r : RecvResult) : Except Fault (Bool × World) := do
  let conn ← w.deref c
  let w := { w with kernel := w.kernel.recv conn.fd r }
  let (stop, s) ← conn.recvBuf.pass r
  pure (stop, w.put c (conn.setRecvBuf s))

/-- The rest of `recvCallback`. -/
def recvCallback.leave (c : ConnId) : Except Fault World := do
  let w ← w.modify c (·.setEvent EPOLLOUT)
  w.updateConnection c .ACTION_UPDATE

/-- The beginning of `sendCallback`, up to `write`. -/
def sendCallback.enter (c : ConnId) : Except Fault World := do
  let conn ← w.deref c
  let conn ← conn.strcpy
  pure (w.put c (conn.setWLen conn.rlen))

/-- `sendCallback` from `write` on. -/
def sendCallback.leave (c : ConnId) (n : Nat) (past : List Byte) : Except Fault World := do
  let conn ← w.deref c
  let w := { w with kernel := w.kernel.write conn.fd ((conn.wbuffer.bytes ++ past).take n) }
  w.updateConnection c .ACTION_DELETE

/-! ## EventLoop -/

/-- Invoke a `std::function`; the callback runs up to its system call. -/
def call (todo : List Ready) : Option Callback → Except Fault World
  | none => .error .emptyFunction
  | some ⟨.acceptCallback, c⟩ =>
    .ok { w with pc := .accepting c todo, trace := w.trace ++ [.started .acceptCallback c] }
  | some ⟨.recvCallback, c⟩ => do
    let w ← recvCallback.enter w c
    pure { w with pc := .receiving c todo, trace := w.trace ++ [.started .recvCallback c] }
  | some ⟨.sendCallback, c⟩ => do
    let w ← sendCallback.enter w c
    pure { w with pc := .writing c todo, trace := w.trace ++ [.started .sendCallback c] }

/-- Return from the callback `f` on `c` to the loop over `readyConns`. -/
def ret (f : CallbackFn) (c : ConnId) (todo : List Ready) : World :=
  { w with pc := .dispatch todo, trace := w.trace ++ [.finished f c] }

/-- The body of the loop over `readyConns`. -/
def dispatch : List Ready → Except Fault World
  | [] => .ok { w with pc := .waiting }
  | r :: todo => do
    let conn ← w.deref r.conn
    if conn.revent.events.has EPOLLIN then
      w.call todo conn.recvCallback
    else if conn.revent.events.has EPOLLOUT then
      w.call todo conn.sendCallback
    else
      pure { w with pc := .dispatch todo }

/-- The program goes on from where it is, given what the environment did. -/
def step : Act → Except Fault World
  | .connect => .ok { w with kernel := w.kernel.connect }
  | .segment s bs => .ok { w with kernel := w.kernel.segment s bs }
  | .wait batch => do
    let (todo, w) ← w.wait batch
    pure { w with pc := .dispatch todo }
  | .next =>
    match w.pc with
    | .dispatch todo => w.dispatch todo
    | _ => .ok w
  | .accept r junk =>
    match w.pc with
    | .accepting c todo => do
      let w ← w.acceptCallback r junk
      pure (w.ret .acceptCallback c todo)
    | _ => .ok w
  | .recv r =>
    match w.pc with
    | .receiving c todo => do
      let (stop, w) ← recvCallback.pass w c r
      if stop then
        let w ← recvCallback.leave w c
        pure (w.ret .recvCallback c todo)
      else
        pure w
    | _ => .ok w
  | .write n past =>
    match w.pc with
    | .writing c todo => do
      let w ← sendCallback.leave w c n past
      pure (w.ret .sendCallback c todo)
    | _ => .ok w

/-- What the environment may do. -/
def Legal : Act → Prop
  | .connect => True
  | .segment s _ => s < w.kernel.nextSock
  | .wait batch => w.pc = .waiting ∧ batch.length ≤ MAX_EPOLL_CONN ∧ w.kernel.CanReport batch
  | .next => match w.pc with
    | .dispatch _ => True
    | _ => False
  | .accept r _ => match w.pc with
    | .accepting .. => w.kernel.CanAccept r
    | _ => False
  | .recv r => match w.pc with
    | .receiving c _ => ∀ conn ∈ w.heap c, w.kernel.CanRecv conn.fd conn.recvBuf.request r
    | _ => False
  | .write n past => match w.pc with
    | .writing c _ => n ≤ SEND_BUFFER_LENGTH + past.length ∧
        ∀ conn ∈ w.heap c, n ≤ toSizeT conn.wlen
    | _ => False

instance : (a : Act) → Decidable (w.Legal a)
  | .connect => .isTrue trivial
  | .segment .. => inferInstanceAs (Decidable (_ < _))
  | .wait _ => inferInstanceAs (Decidable (_ ∧ _ ∧ _))
  | .next => by dsimp only [Legal]; split <;> infer_instance
  | .accept .. => by dsimp only [Legal]; split <;> infer_instance
  | .recv _ => by dsimp only [Legal]; split <;> infer_instance
  | .write .. => by dsimp only [Legal]; split <;> infer_instance

/-- A step of the server in its environment. -/
def Step (a : Act) (w' : World) : Prop := w.Legal a ∧ w.step a = .ok w'

/-- The executable step. -/
def step? (a : Act) : Option World := if w.Legal a then (w.step a).toOption else none

theorem step_of_step? {w w' : World} {a : Act} (h : w.step? a = some w') : w.Step a w' := by
  simp only [step?, Option.ite_none_right_eq_some] at h
  refine ⟨h.1, ?_⟩
  cases hs : w.step a with
  | error => simp [hs, Except.toOption] at h
  | ok v => simpa [hs, Except.toOption] using h.2

end World

/-! ## Server -/

/-- What the constructor of `Server` runs into. -/
structure Boot where
  /-- Whether the member `loop`, read before it is assigned, is not null. -/
  loopSet : Bool
  /-- The descriptors the process has open, `epfd` among them. -/
  others : Nat → Bool
  /-- The results of `socket`, `bind` and `listen`. -/
  sock : Fd
  bind : Int
  listen : Int
  junk : Junk
  sock_ok : sock = -1 ∨ 0 ≤ sock ∧ others sock.toNat = false

/-- The process and the kernel after `socket()` returned `e.sock`. -/
def Boot.world (e : Boot) : World where
  kernel := .init e.others e.sock
  heap := fun _ => none
  inets := fun _ => false
  nextConn := 0
  nextInet := 0
  connMap := fun _ => none
  servSock := 0
  pc := .waiting
  trace := []

/-- `Server::Server`; `none` when one of the `errif` checks ends the process. -/
def Boot.server (e : Boot) : Option (Except Fault World) :=
  if e.loopSet ∨ e.sock = -1 ∨ e.bind = -1 ∨ e.listen = -1 then none else some do
    let (inetAddr, w) := e.world.newInetAddress
    let (servSock, w) := w.newConnection (.new e.sock (some inetAddr) e.junk)
    let w := { w with servSock := servSock }
    let w ← w.modify servSock (·.setEvent (EPOLLIN ||| EPOLLET))
    let w ← w.updateConnection servSock .ACTION_UPDATE
    w.setRecvCallback servSock .acceptCallback

theorem Boot.plain_sock : (4 : Fd) = -1 ∨ 0 ≤ (4 : Fd) ∧ decide ((4 : Fd).toNat < 4) = false :=
  .inr (by decide)

/-- A constructor that finds the descriptors 0 to 3 open and gets 4 for its socket. -/
def Boot.plain : Boot where
  loopSet := false
  others := fun n => n < 4
  sock := 4
  bind := 0
  listen := 0
  junk := ⟨⟨0, 0⟩, ⟨0, 0⟩, .zero _, .zero _⟩
  sock_ok := Boot.plain_sock

/-- A run from there: the first client is answered, and in the same batch a second one gets its
descriptor. -/
def reuseRun : List Act := [.connect, .segment 0 [72, 105], .wait [(4, EPOLLIN)], .next,
  .accept 5 Boot.plain.junk, .next, .wait [(5, EPOLLIN)], .next, .recv (.bytes [72, 105]),
  .recv (.fail .EAGAIN), .next, .connect, .wait [(5, EPOLLOUT), (4, EPOLLIN)], .next,
  .write 2 [], .next, .accept 5 Boot.plain.junk, .next]

end OnlineChat.Reactor
