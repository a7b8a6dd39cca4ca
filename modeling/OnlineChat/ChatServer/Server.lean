import OnlineChat.Lib.Exec
import OnlineChat.RecvLoop

/-!
# The single-threaded server

`main` of `apps/server.cpp`: one loop over `epoll_wait`, one buffer for all clients, and a batch of
bare descriptor numbers. Like the reactor it runs from one system call to the next, and clients
connect and send at any time. `trace` is a history of what it did with the descriptors of its
clients and of the buffers it printed; no part of the program reads it.
-/

namespace OnlineChat.ChatServer
open Lib Function

abbrev BUFFER_LENGTH : Nat := 1024

abbrev MAX_EPOLL_CONNECTION : Nat := 16192

/-- Where the program is: which system call it is about to make, or between two events. -/
inductive Pc
  /-- Before `epoll_wait`. -/
  | waiting
  /-- In the loop over `events[0..nready)`, with the rest of it. -/
  | dispatch (todo : List EpollEvent)
  /-- Before `accept`. -/
  | accepting (todo : List EpollEvent)
  /-- Before `recv` on the client `fd`. -/
  | receiving (fd : Fd) (todo : List EpollEvent)
  deriving DecidableEq

inductive Event
  | accepted (fd : Fd)
  /-- `printf` at the end of a receive loop. It reads on behind a buffer that has no NUL in it. -/
  | printed (buffer : Buf BUFFER_LENGTH)
  | closed (fd : Fd)
  | ctl (op : CtlOp) (fd : Fd) (ok : Bool)
  deriving DecidableEq

structure Server where
  kernel : Kernel
  serverfd : Fd
  buffer : Buf BUFFER_LENGTH
  bufferLen : Int
  pc : Pc
  trace : List Event

inductive Act
  /-- A client connects. -/
  | connect
  /-- A segment of a client's stream arrives. -/
  | segment (s : SockId) (bs : List Byte)
  /-- `epoll_wait` returns; a result of -1 is an empty batch. -/
  | wait (batch : List (Fd × Mask))
  /-- The loop over the events goes on. -/
  | next
  /-- `accept` returns `r`. -/
  | accept (r : Fd)
  /-- `recv` returns. -/
  | recv (r : RecvResult)
  deriving DecidableEq

def Act.isWait : Act → Bool
  | .wait _ => true
  | _ => false

namespace Server
variable (s : Server)

def log (e : Event) : Server := { s with trace := s.trace ++ [e] }

/-- `epoll_ctl`, whose result `main` does not look at. -/
def epollCtl (op : CtlOp) (fd : Fd) (ev : Option EpollEvent) : Server :=
  { s with kernel := s.kernel.ctl op fd ev }.log (.ctl op fd (s.kernel.ctlOk op fd))

def close (fd : Fd) : Server := { s with kernel := s.kernel.close fd }.log (.closed fd)

/-- The branches of the loop over the events, up to a system call. -/
def handle (e : EpollEvent) (todo : List EpollEvent) : Server :=
  if e.data = s.serverfd then { s with pc := .accepting todo }
  else if e.events = EPOLLIN then
    { s with buffer := .zero _, bufferLen := 0, pc := .receiving e.data todo }
  else { s with pc := .dispatch todo }

/-- The accept branch, where `accept` returned `r`. -/
def accept (r : Fd) (todo : List EpollEvent) : Server :=
  let s := { s with kernel := s.kernel.accept r, pc := .dispatch todo }
  if r = -1 then s
  else (s.log (.accepted r)).epollCtl .EPOLL_CTL_ADD r (some ⟨EPOLLIN ||| EPOLLET, r⟩)

def recvBuf : RecvBuf BUFFER_LENGTH := ⟨s.buffer, s.bufferLen⟩

/-- One pass through the receive loop, and what follows it when it is left. -/
def recv (fd : Fd) (r : RecvResult) (todo : List EpollEvent) : Except Fault Server := do
  let (stop, b) ← s.recvBuf.pass r
  let s := { s with kernel := s.kernel.recv fd r, buffer := b.buf, bufferLen := b.len }
  if stop then
    let s := { s with pc := .dispatch todo }.log (.printed b.buf)
    pure ((s.close fd).epollCtl .EPOLL_CTL_DEL fd none)
  else pure s

def step : Act → Except Fault Server
  | .connect => .ok { s with kernel := s.kernel.connect }
  | .segment k bs => .ok { s with kernel := s.kernel.segment k bs }
  | .wait batch =>
    .ok { s with kernel := s.kernel.report batch, pc := .dispatch (s.kernel.reported batch) }
  | .next =>
    match s.pc with
    | .dispatch [] => .ok { s with pc := .waiting }
    | .dispatch (e :: todo) => .ok (s.handle e todo)
    | _ => .ok s
  | .accept r =>
    match s.pc with
    | .accepting todo => .ok (s.accept r todo)
    | _ => .ok s
  | .recv r =>
    match s.pc with
    | .receiving fd todo => s.recv fd r todo
    | _ => .ok s

/-- What the environment may do. A batch has any flags for each of its descriptors. -/
def Legal : Act → Prop
  | .connect => True
  | .segment k _ => k < s.kernel.nextSock
  | .wait batch => s.pc = .waiting ∧ batch.length ≤ MAX_EPOLL_CONNECTION ∧
      (batch.map Prod.fst).Nodup ∧ ∀ e ∈ batch, (s.kernel.interest e.1).isSome
  | .next => match s.pc with
    | .dispatch _ => True
    | _ => False
  | .accept r => match s.pc with
    | .accepting _ => s.kernel.CanAccept r
    | _ => False
  | .recv r => match s.pc with
    | .receiving fd _ => s.kernel.CanRecv fd s.recvBuf.request r
    | _ => False

instance : (a : Act) → Decidable (s.Legal a)
  | .connect => .isTrue trivial
  | .segment .. => inferInstanceAs (Decidable (_ < _))
  | .wait _ => inferInstanceAs (Decidable (_ ∧ _ ∧ _ ∧ _))
  | .next => by dsimp only [Legal]; split <;> infer_instance
  | .accept .. => by dsimp only [Legal]; split <;> infer_instance
  | .recv _ => by dsimp only [Legal]; split <;> infer_instance

/-- A step of the server in its environment. -/
def Step (a : Act) (s' : Server) : Prop := s.Legal a ∧ s.step a = .ok s'

/-- The executable step. -/
def step? (a : Act) : Option Server := if s.Legal a then (s.step a).toOption else none

theorem step_of_step? {s s' : Server} {a : Act} (h : s.step? a = some s') : s.Step a s' := by
  simp only [step?, Option.ite_none_right_eq_some] at h
  refine ⟨h.1, ?_⟩
  cases hs : s.step a with
  | error => simp [hs, Except.toOption] at h
  | ok v => simpa [hs, Except.toOption] using h.2

end Server

/-! ## The start of main -/

/-- What `main` runs into before its loop. -/
structure Boot where
  /-- The descriptors the process has open besides its socket, `epfd` among them. -/
  others : Nat → Bool
  /-- The results of `socket`, `epoll_create`, `bind` and `listen`. -/
  serverfd : Fd
  epfd : Fd
  bind : Int
  listen : Int
  /-- The uninitialised buffer. -/
  buffer : Buf BUFFER_LENGTH
  socket_ok : serverfd = -1 ∨ 0 ≤ serverfd ∧ others serverfd.toNat = false

/-- The process and the kernel before the registration of the listening socket. -/
def Boot.server (e : Boot) : Server where
  kernel := .init e.others e.serverfd
  serverfd := e.serverfd
  buffer := e.buffer
  bufferLen := 0
  pc := .waiting
  trace := []

/-- The registration of the listening socket. -/
def Boot.started (e : Boot) : Server :=
  e.server.epollCtl .EPOLL_CTL_ADD e.serverfd (some ⟨EPOLLIN ||| EPOLLET, e.serverfd⟩)

/-- `main` up to its loop; `none` when one of the `errif` checks ends the process. -/
def Boot.main (e : Boot) : Option Server :=
  if e.serverfd = -1 ∨ e.epfd = -1 ∨ e.bind = -1 ∨ e.listen = -1 then none else some e.started

/-- A process that finds the descriptors 0 to 3 open and gets 4 for its socket. -/
def Boot.plain : Boot where
  others := fun n => n < 4
  serverfd := 4
  epfd := 3
  bind := 0
  listen := 0
  buffer := .zero _
  socket_ok := .inr (by decide)

end OnlineChat.ChatServer
