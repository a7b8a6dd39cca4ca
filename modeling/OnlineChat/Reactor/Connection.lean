import OnlineChat.RecvLoop

/-!
# Connection objects

`Connection.hpp` and `Connection.cpp`. A `ConnId` is the address of a `Connection` in the heap;
`Socket` derives from `Connection` and adds no data. The members that the constructors leave
uninitialised take their first value from `Junk`.
-/

namespace OnlineChat.Reactor
open Lib

/-- The address of a `Connection`. -/
abbrev ConnId := Nat

/-- The address of an `InetAddress`. -/
abbrev InetId := Nat

abbrev RECV_BUFFER_LENGTH : Nat := 2048
abbrev SEND_BUFFER_LENGTH : Nat := 2048

/-- The callbacks of `Server.cpp`. -/
inductive CallbackFn
  | acceptCallback
  | recvCallback
  | sendCallback
  deriving DecidableEq

/-- `std::bind(f, conn, epoll)`, with the one `Epoll` object of the program. -/
structure Callback where
  fn : CallbackFn
  conn : ConnId
  deriving DecidableEq

/-- The contents of freshly allocated memory, in the members no constructor writes. -/
structure Junk where
  event : EpollEvent
  revent : EpollEvent
  rbuffer : Buf RECV_BUFFER_LENGTH
  wbuffer : Buf SEND_BUFFER_LENGTH

structure Connection where
  fd : Fd
  inEpoll : Bool := false
  inetAddr : Option InetId
  event : EpollEvent
  revent : EpollEvent
  rbuffer : Buf RECV_BUFFER_LENGTH
  rlen : Int := 0
  wbuffer : Buf SEND_BUFFER_LENGTH
  wlen : Int := 0
  recvCallback : Option Callback := none
  sendCallback : Option Callback := none

/-- The four bytes of an `int` in memory. -/
def intBytes (n : Int) : List Byte :=
  (List.range 4).map fun i => UInt8.ofNat ((n % 2 ^ 32).toNat / 256 ^ i)

namespace Connection
variable (c : Connection)

/-- `Connection(int _fd, InetAddress *_inetAddr)`. -/
def new (fd : Fd) (inetAddr : Option InetId) (junk : Junk) : Connection where
  fd := fd
  inetAddr := inetAddr
  event := junk.event
  revent := junk.revent
  rbuffer := junk.rbuffer
  wbuffer := junk.wbuffer

def setEvent (flags : Mask) : Connection := { c with event := ⟨flags, c.fd⟩ }

def setREvent (flags : Mask) : Connection := { c with revent := ⟨flags, c.fd⟩ }

def setInEpoll : Connection := { c with inEpoll := true }

def setRecvCallback (f : Callback) : Connection := { c with recvCallback := some f }

def setSendCallback (f : Callback) : Connection := { c with sendCallback := some f }

def rBufferClear : Connection := { c with rbuffer := .zero _ }

def setWLen (n : Int) : Connection := { c with wlen := n }

/-- The receive buffer with its length, as the receive loop works on it. -/
def recvBuf : RecvBuf RECV_BUFFER_LENGTH := ⟨c.rbuffer, c.rlen⟩

def setRecvBuf (s : RecvBuf RECV_BUFFER_LENGTH) : Connection :=
  { c with rbuffer := s.buf, rlen := s.len }

/-- `strcpy(getwBuffer(), getrBuffer())`. When no byte of `rbuffer` is NUL, C++ leaves the copy
undefined: it reads past one buffer and writes past the other. The model then follows the layout of
the object, where `rlen` comes after `rbuffer` and `wlen` after `wbuffer`: the copy goes on with the
bytes of `rlen`, and what does not fit into `wbuffer` lands in `wlen`, which the caller sets next. -/
def strcpy : Except Fault Connection :=
  let src := c.rbuffer.bytes ++ intBytes c.rlen
  if 0 ∈ src then
    .ok { c with wbuffer :=
      ⟨overlay c.wbuffer.bytes (cstr src ++ [0]), by rw [length_overlay, c.wbuffer.size]⟩ }
  else .error .outOfBounds

theorem strcpy_eq {c c' : Connection} (h : c.strcpy = .ok c') :
    ∃ w, c' = { c with wbuffer := w } := by
  simp only [strcpy] at h
  split at h
  · cases h
    exact ⟨_, rfl⟩
  · cases h

theorem strcpy_error {c : Connection} {f : Fault} (h : c.strcpy = .error f) : f = .outOfBounds := by
  simp only [strcpy] at h
  split at h <;> cases h
  rfl

/-- `strcpy` of a terminated receive buffer copies the string in it, with its terminator. -/
theorem strcpy_of_zero_mem (h : (0 : Byte) ∈ c.rbuffer.bytes) :
    ∃ w, c.strcpy = .ok { c with wbuffer := w } ∧ cstr c.rbuffer.bytes ++ [0] <+: w.bytes := by
  have hsrc : (0 : Byte) ∈ c.rbuffer.bytes ++ intBytes c.rlen := List.mem_append_left _ h
  have hfit : (cstr c.rbuffer.bytes ++ [0]).length ≤ c.wbuffer.bytes.length := by
    have := length_cstr_lt h
    rw [c.rbuffer.size] at this
    rw [c.wbuffer.size, List.length_append, List.length_singleton]
    exact this
  refine ⟨_, if_pos hsrc, ?_⟩
  change _ <+: overlay c.wbuffer.bytes (cstr (_ ++ _) ++ [0])
  rw [cstr_append_of_mem h]
  exact overlay_isPrefix hfit

end Connection
end OnlineChat.Reactor
