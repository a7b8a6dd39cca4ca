import OnlineChat.Reactor.Connection

/-!
# The state of the reactor and the Epoll class

`World` is the memory of the server process with the kernel under it. The heap maps addresses to
live `Connection`s; following an address it does not have is a `Fault`. `connMap` has no entry
both where the map has no key and where the value is `nullptr`: the two are never told apart.

`trace` is a history of what the program did. No part of the program reads it.
-/

namespace OnlineChat.Reactor
open Lib Function

abbrev MAX_EPOLL_CONN : Nat := 16384

inductive EpollAction
  | ACTION_UPDATE
  | ACTION_DELETE
  deriving DecidableEq

/-- An element of `readyConns` with the entry of `events[]` it was looked up for. -/
structure Ready where
  event : EpollEvent
  conn : ConnId
  deriving DecidableEq

/-- Where the program is: which system call it is about to make, or between two callbacks. -/
inductive Pc
  /-- In `Epoll::wait`, before `epoll_wait`. -/
  | waiting
  /-- In the loop of `EventLoop::start`, with the rest of `readyConns`. -/
  | dispatch (todo : List Ready)
  /-- In `acceptCallback`, before `::accept`. -/
  | accepting (c : ConnId) (todo : List Ready)
  /-- In `recvCallback`, before `recv`. -/
  | receiving (c : ConnId) (todo : List Ready)
  /-- In `sendCallback`, before `write`. -/
  | writing (c : ConnId) (todo : List Ready)
  deriving DecidableEq

inductive Event
  | accepted (r : Fd)
  | ctl (op : CtlOp) (fd : Fd) (ok : Bool)
  | started (f : CallbackFn) (c : ConnId)
  | finished (f : CallbackFn) (c : ConnId)
  | closed (fd : Fd)
  | deleted (c : ConnId)
  deriving DecidableEq

structure World where
  kernel : Kernel
  heap : ConnId → Option Connection
  /-- The `InetAddress` objects that are allocated. -/
  inets : InetId → Bool
  nextConn : ConnId
  nextInet : InetId
  connMap : Fd → Option ConnId
  servSock : ConnId
  pc : Pc
  trace : List Event

namespace World
variable (w : World)

def log (e : Event) : World := { w with trace := w.trace ++ [e] }

/-! ## Memory -/

def deref (c : ConnId) : Except Fault Connection :=
  match w.heap c with
  | some conn => .ok conn
  | none => .error .danglingPointer

/-- Assign to a `Connection`. -/
def put (c : ConnId) (conn : Connection) : World := { w with heap := update w.heap c (some conn) }

/-- Call a method that changes the object. -/
def modify (c : ConnId) (f : Connection → Connection) : Except Fault World := do
  let conn ← w.deref c
  pure (w.put c (f conn))

/-- `new InetAddress()`. -/
def newInetAddress : InetId × World :=
  (w.nextInet, { w with inets := update w.inets w.nextInet true, nextInet := w.nextInet + 1 })

/-- `new Connection(...)`. -/
def newConnection (conn : Connection) : ConnId × World :=
  (w.nextConn, { w.put w.nextConn conn with nextConn := w.nextConn + 1 })

/-- `delete inetAddr` with its null test. -/
def deleteInetAddress : Option InetId → Except Fault World
  | none => .ok w
  | some a => if w.inets a then .ok { w with inets := update w.inets a false } else .error .doubleFree

def close (fd : Fd) : World := { w with kernel := w.kernel.close fd }.log (.closed fd)

/-- `delete conn`, with the destructor of `Connection`. -/
def deleteConnection (c : ConnId) : Except Fault World := do
  let conn ← w.deref c
  let w ← w.deleteInetAddress conn.inetAddr
  let w := w.close conn.fd
  pure ({ w with heap := update w.heap c none }.log (.deleted c))

/-! ## Epoll -/

/-- `epoll_ctl`, whose result no caller looks at. -/
def epollCtl (op : CtlOp) (fd : Fd) (ev : Option EpollEvent) : World :=
  { w with kernel := w.kernel.ctl op fd ev }.log (.ctl op fd (w.kernel.ctlOk op fd))

def updateConnection (c : ConnId) (act : EpollAction) : Except Fault World := do
  let conn ← w.deref c
  if act = .ACTION_UPDATE then
    if conn.inEpoll then
      pure (w.epollCtl .EPOLL_CTL_MOD conn.fd (some conn.event))
    else
      let w := w.epollCtl .EPOLL_CTL_ADD conn.fd (some conn.event)
      let w ← w.modify c Connection.setInEpoll
      pure { w with connMap := update w.connMap conn.fd (some c) }
  else if act = .ACTION_DELETE ∧ conn.inEpoll then
    let w := { w with connMap := update w.connMap conn.fd none }
    let w := w.epollCtl .EPOLL_CTL_DEL conn.fd none
    w.deleteConnection c
  else
    pure w

/-- The loop of `Epoll::wait` over `events[0..nready)`. -/
def collect (w : World) : List EpollEvent → Except Fault (List Ready × World)
  | [] => .ok ([], w)
  | e :: es =>
    match w.connMap e.data with
    | none => .error .nullPointer
    | some c => do
      let w ← w.modify c (·.setREvent e.events)
      let (res, w) ← w.collect es
      pure (⟨e, c⟩ :: res, w)

/-- `Epoll::wait` after `epoll_wait` has filled `events`. A result of -1 is an empty batch. -/
def wait (batch : List (Fd × Mask)) : Except Fault (List Ready × World) :=
  { w with kernel := w.kernel.report batch }.collect (w.kernel.reported batch)

/-- `Epoll::setRecvCallback`. -/
def setRecvCallback (c : ConnId) (f : CallbackFn) : Except Fault World :=
  w.modify c (·.setRecvCallback ⟨f, c⟩)

/-- `Epoll::setSendCallback`. -/
def setSendCallback (c : ConnId) (f : CallbackFn) : Except Fault World :=
  w.modify c (·.setSendCallback ⟨f, c⟩)

end World
end OnlineChat.Reactor
