import Mathlib.Algebra.Ring.Int.Defs
import Mathlib.Algebra.Ring.Nat
import Mathlib.Logic.Function.Basic
import OnlineChat.Lib.Buf

/-!
# The kernel interface

The part of the operating system the programs talk to: the descriptor table of the process, one
epoll interest set, the queue of the listening socket with the readiness edge of an edge-triggered
registration, and the byte streams of the clients. What a system call may return is a predicate
(`CanReport`, `CanAccept`, `CanRecv`), what it does to the kernel is a function.
-/

namespace OnlineChat
open Lib Function

/-- A descriptor number as the programs hold it: an `int`, `-1` for a failed call. -/
abbrev Fd := Int

/-- One accepted or pending TCP connection, whatever descriptor number it has. -/
abbrev SockId := Nat

/-! ## epoll events -/

/-- `uint32_t events`. -/
abbrev Mask := BitVec 32

def EPOLLIN : Mask := 0x001#32
def EPOLLOUT : Mask := 0x004#32
def EPOLLERR : Mask := 0x008#32
def EPOLLHUP : Mask := 0x010#32
def EPOLLET : Mask := 0x80000000#32

/-- The test `m & flag` of the programs. -/
def Mask.has (m flag : Mask) : Bool := m &&& flag != 0#32

/-- `m` consists of flags registered in `reg`, of `EPOLLERR` and of `EPOLLHUP`. -/
def Mask.within (m reg : Mask) : Bool := m &&& ~~~(reg ||| EPOLLERR ||| EPOLLHUP) == 0#32

theorem Mask.has_eq_false_of_within {m reg flag : Mask} (h : Mask.within m reg)
    (hf : flag &&& ~~~(reg ||| EPOLLERR ||| EPOLLHUP) = flag) : Mask.has m flag = false := by
  simp only [Mask.within, beq_iff_eq] at h
  have : m &&& flag = 0#32 := by
    rw [← hf, BitVec.and_comm flag, ← BitVec.and_assoc, h, BitVec.zero_and]
  simp [Mask.has, this]

/-- `struct epoll_event`, of whose data the programs use `data.fd`. -/
structure EpollEvent where
  events : Mask
  data : Fd
  deriving DecidableEq

inductive CtlOp
  | EPOLL_CTL_ADD
  | EPOLL_CTL_MOD
  | EPOLL_CTL_DEL
  deriving DecidableEq

/-! ## Results of recv -/

inductive Errno
  | EAGAIN
  | EWOULDBLOCK
  | EINTR
  | ECONNRESET
  | other (code : Nat)
  deriving DecidableEq

/-- What `recv` did: it stored bytes, it saw the end of the stream, or it failed. -/
inductive RecvResult
  | bytes (bs : List Byte)
  | eof
  | fail (e : Errno)
  deriving DecidableEq

namespace RecvResult

/-- The `ssize_t` returned. -/
def ret : RecvResult → Int
  | bytes bs => bs.length
  | eof => 0
  | fail _ => -1

/-- `errno` after a failure. -/
def errno : RecvResult → Option Errno
  | fail e => some e
  | _ => none

def data : RecvResult → List Byte
  | bytes bs => bs
  | _ => []

end RecvResult

/-- Conversion of an `int` to `size_t`. -/
def toSizeT (n : Int) : Nat := (n % 2 ^ 64).toNat

theorem toSizeT_natCast {n : Nat} (h : n < 2 ^ 64) : toSizeT n = n := by
  simp only [toSizeT]; omega

/-! ## The kernel -/

/-- What a descriptor refers to. -/
inductive File
  | listener
  | conn (s : SockId)
  | other
  deriving DecidableEq

/-- The server's end of a connection. -/
structure Sock where
  /-- The client's bytes that have arrived so far. -/
  sent : List Byte := []
  /-- How many of them `recv` has handed out. -/
  got : Nat := 0
  /-- The bytes `write` has accepted, in order. -/
  written : List Byte := []
  /-- The server has closed its descriptor. -/
  closed : Bool := false

structure Kernel where
  /-- The descriptor table, by number. -/
  files : Nat → Option File
  /-- The epoll interest set: the registered event of each registered descriptor. -/
  interest : Fd → Option EpollEvent
  /-- Connections that wait to be accepted. -/
  backlog : List SockId
  /-- A readiness edge of the listening socket that `epoll_wait` has not reported yet. -/
  edge : Bool
  socks : SockId → Sock
  nextSock : SockId

namespace Kernel
variable (k : Kernel)

/-- The open file of a descriptor; a negative number is never open. -/
def file : Fd → Option File
  | .ofNat n => k.files n
  | .negSucc _ => none

def setFile : Fd → Option File → Kernel
  | .ofNat n, f => { k with files := update k.files n f }
  | .negSucc _, _ => k

def isOpen (fd : Fd) : Bool := (k.file fd).isSome

/-- The connection behind a descriptor. -/
def sockOf (fd : Fd) : Option SockId :=
  match k.file fd with
  | some (.conn s) => some s
  | _ => none

/-- Change one connection. -/
def modifySock (s : SockId) (f : Sock → Sock) : Kernel :=
  { k with socks := update k.socks s (f (k.socks s)) }

/-- A client's connection enters the queue; the edge of the listening socket is set. -/
def connect : Kernel :=
  { k with backlog := k.backlog ++ [k.nextSock], nextSock := k.nextSock + 1, edge := true }

/-- A segment of a client's stream arrives. -/
def segment (s : SockId) (bs : List Byte) : Kernel :=
  k.modifySock s fun x => { x with sent := x.sent ++ bs }

/-- `epoll_ctl` succeeds on an open descriptor whose registration state fits the operation. -/
def ctlOk (op : CtlOp) (fd : Fd) : Bool :=
  k.isOpen fd && match op with
    | .EPOLL_CTL_ADD => (k.interest fd).isNone
    | .EPOLL_CTL_MOD | .EPOLL_CTL_DEL => (k.interest fd).isSome

/-- `epoll_ctl`; `ev` is `none` for a null event pointer. -/
def ctl (op : CtlOp) (fd : Fd) (ev : Option EpollEvent) : Kernel :=
  if k.ctlOk op fd then { k with interest := update k.interest fd ev } else k

/-- The client behind a descriptor sees the end of the stream. -/
def hangUp (fd : Fd) : Kernel :=
  match k.sockOf fd with
  | none => k
  | some s => k.modifySock s fun x => { x with closed := true }

/-- `close` frees the number and removes the registration of its file. -/
def close (fd : Fd) : Kernel :=
  if k.isOpen fd then
    { (k.hangUp fd).setFile fd none with interest := update k.interest fd none }
  else k

/-- What `epoll_wait` may report: registered descriptors, each at most once, with flags of their
registration or error flags. -/
def CanReport (batch : List (Fd × Mask)) : Prop :=
  (batch.map Prod.fst).Nodup ∧
    ∀ e ∈ batch, (k.interest e.1).any fun ev => Mask.within e.2 ev.events

instance (batch) : Decidable (k.CanReport batch) := inferInstanceAs (Decidable (_ ∧ _))

/-- The entries of `events[]`: the reported flags with the data of the registration. -/
def reported (batch : List (Fd × Mask)) : List EpollEvent :=
  batch.filterMap fun e => (k.interest e.1).map fun ev => ⟨e.2, ev.data⟩

def isListener (fd : Fd) : Bool := k.file fd == some .listener

/-- Reporting the listening socket consumes its edge. -/
def report (batch : List (Fd × Mask)) : Kernel :=
  if batch.any fun e => k.isListener e.1 then { k with edge := false } else k

/-- What `socket` and `accept` may return: an unused number, or -1. -/
def CanOpen (r : Fd) : Prop := r = -1 ∨ 0 ≤ r ∧ k.file r = none

instance (r) : Decidable (k.CanOpen r) := inferInstanceAs (Decidable (_ ∨ _))

/-- A connection is accepted only when one is queued. -/
def CanAccept (r : Fd) : Prop := k.CanOpen r ∧ (r ≠ -1 → k.backlog ≠ [])

instance (r) : Decidable (k.CanAccept r) := inferInstanceAs (Decidable (_ ∧ _))

/-- `accept` takes the first queued connection and gives it the number `r`; when it fails on that
connection (`r = -1`) the connection is gone. A failure that leaves the connection in the queue, for
want of descriptors, is left out. -/
def accept (r : Fd) : Kernel :=
  match k.backlog with
  | [] => k
  | s :: rest => { k.setFile r (some (.conn s)) with backlog := rest }

/-- What `recv(fd, _, len, 0)` may return: at most `len` of the next bytes of the stream, its end,
or any error. -/
def CanRecv (fd : Fd) (len : Nat) : RecvResult → Prop
  | .bytes bs => bs ≠ [] ∧ bs.length ≤ len ∧
      (k.sockOf fd).any fun s => bs.isPrefixOf ((k.socks s).sent.drop (k.socks s).got)
  | .eof => True
  | .fail _ => True

instance (fd len) : (r : RecvResult) → Decidable (k.CanRecv fd len r)
  | .bytes _ => inferInstanceAs (Decidable (_ ∧ _ ∧ _))
  | .eof => .isTrue trivial
  | .fail _ => .isTrue trivial

/-- The received bytes are gone from the socket. -/
def recv (fd : Fd) (r : RecvResult) : Kernel :=
  match k.sockOf fd with
  | none => k
  | some s => k.modifySock s fun x => { x with got := x.got + r.data.length }

/-- `write` took the bytes `bs`. -/
def write (fd : Fd) (bs : List Byte) : Kernel :=
  match k.sockOf fd with
  | none => k
  | some s => k.modifySock s fun x => { x with written := x.written ++ bs }

/-- The kernel of a process that has the descriptors `others` open, after `socket` returned `fd`. -/
def init (others : Nat → Bool) (fd : Fd) : Kernel :=
  setFile {
    files := fun n => if others n then some .other else none
    interest := fun _ => none
    backlog := []
    edge := false
    socks := fun _ => {}
    nextSock := 0 } fd (some .listener)

/-! ## What the calls leave alone -/

section
variable {k} {fd : Fd}

theorem file_nonneg {f : File} (h : k.file fd = some f) : 0 ≤ fd := by
  cases fd with
  | ofNat n => exact Int.natCast_nonneg n
  | negSucc n => cases h

theorem file_eq_of_files {k' : Kernel} (h : k'.files = k.files) : k'.file = k.file := by
  funext fd
  cases fd <;> simp [file, h]

theorem file_setFile (h : 0 ≤ fd) (f : Option File) : (k.setFile fd f).file = update k.file fd f := by
  funext x
  cases fd with
  | negSucc n => exact absurd h (Int.negSucc_not_nonneg n).mp
  | ofNat n =>
    cases x with
    | negSucc m => simp [file, update]
    | ofNat m => simp [file, setFile, update]

@[simp] theorem setFile_interest (f : Option File) : (k.setFile fd f).interest = k.interest := by
  cases fd <;> rfl

@[simp] theorem setFile_backlog (f : Option File) : (k.setFile fd f).backlog = k.backlog := by
  cases fd <;> rfl

@[simp] theorem setFile_edge (f : Option File) : (k.setFile fd f).edge = k.edge := by
  cases fd <;> rfl

@[simp] theorem setFile_socks (f : Option File) : (k.setFile fd f).socks = k.socks := by
  cases fd <;> rfl

@[simp] theorem setFile_nextSock (f : Option File) : (k.setFile fd f).nextSock = k.nextSock := by
  cases fd <;> rfl

@[simp] theorem connect_file : k.connect.file = k.file := file_eq_of_files rfl

@[simp] theorem segment_file (s : SockId) (bs : List Byte) : (k.segment s bs).file = k.file :=
  file_eq_of_files rfl

@[simp] theorem connect_interest : k.connect.interest = k.interest := rfl

@[simp] theorem segment_interest (s : SockId) (bs : List Byte) :
    (k.segment s bs).interest = k.interest := rfl

theorem report_eq (batch : List (Fd × Mask)) :
    k.report batch = k ∨ k.report batch = { k with edge := false } := by
  unfold report; split
  · exact .inr rfl
  · exact .inl rfl

@[simp] theorem report_file (batch : List (Fd × Mask)) : (k.report batch).file = k.file := by
  rcases report_eq batch with h | h <;> rw [h]
  exact file_eq_of_files rfl

@[simp] theorem report_interest (batch : List (Fd × Mask)) :
    (k.report batch).interest = k.interest := by
  rcases report_eq batch with h | h <;> rw [h]

/-- `recv` and `write` change one connection at most. -/
theorem recv_eq (r : RecvResult) :
    (k.sockOf fd = none ∧ k.recv fd r = k) ∨ ∃ s, k.sockOf fd = some s ∧
      k.recv fd r = k.modifySock s fun x => { x with got := x.got + r.data.length } := by
  unfold recv; split
  · exact .inl ⟨‹_›, rfl⟩
  · exact .inr ⟨_, ‹_›, rfl⟩

theorem write_eq (bs : List Byte) :
    (k.sockOf fd = none ∧ k.write fd bs = k) ∨ ∃ s, k.sockOf fd = some s ∧
      k.write fd bs = k.modifySock s fun x => { x with written := x.written ++ bs } := by
  unfold write; split
  · exact .inl ⟨‹_›, rfl⟩
  · exact .inr ⟨_, ‹_›, rfl⟩

@[simp] theorem recv_file (r : RecvResult) : (k.recv fd r).file = k.file := by
  rcases recv_eq r with ⟨-, h⟩ | ⟨s, -, h⟩ <;> rw [h]
  exact file_eq_of_files rfl

@[simp] theorem recv_interest (r : RecvResult) : (k.recv fd r).interest = k.interest := by
  rcases recv_eq r with ⟨-, h⟩ | ⟨s, -, h⟩ <;> rw [h]
  rfl

@[simp] theorem write_file (bs : List Byte) : (k.write fd bs).file = k.file := by
  rcases write_eq bs with ⟨-, h⟩ | ⟨s, -, h⟩ <;> rw [h]
  exact file_eq_of_files rfl

@[simp] theorem write_interest (bs : List Byte) : (k.write fd bs).interest = k.interest := by
  rcases write_eq bs with ⟨-, h⟩ | ⟨s, -, h⟩ <;> rw [h]
  rfl

@[simp] theorem ctl_file (op : CtlOp) (ev : Option EpollEvent) :
    (k.ctl op fd ev).file = k.file := by
  unfold ctl; split
  · exact file_eq_of_files rfl
  · rfl

theorem ctl_interest {op : CtlOp} (h : k.ctlOk op fd = true) (ev : Option EpollEvent) :
    (k.ctl op fd ev).interest = update k.interest fd ev := by
  rw [ctl, if_pos h]

/-- `epoll_ctl` fits a registered descriptor. -/
theorem ctlOk_of_interest {op : CtlOp} {ev : EpollEvent} (hop : op ≠ .EPOLL_CTL_ADD)
    (ho : (k.file fd).isSome) (hi : k.interest fd = some ev) : k.ctlOk op fd = true := by
  cases op with
  | EPOLL_CTL_ADD => exact absurd rfl hop
  | EPOLL_CTL_MOD | EPOLL_CTL_DEL => simp [ctlOk, isOpen, ho, hi]

theorem ctlOk_add (ho : (k.file fd).isSome) (hi : k.interest fd = none) :
    k.ctlOk .EPOLL_CTL_ADD fd = true := by
  simp [ctlOk, isOpen, ho, hi]

theorem ctl_of_closed (h : k.file fd = none) (op : CtlOp) (ev : Option EpollEvent) :
    k.ctl op fd ev = k := by
  simp [ctl, ctlOk, isOpen, h]

theorem hangUp_eq (fd : Fd) : k.hangUp fd = { k with socks := (k.hangUp fd).socks } := by
  unfold hangUp
  split <;> rfl

theorem close_of_open {f : File} (h : k.file fd = some f) : k.close fd =
    { (k.hangUp fd).setFile fd none with interest := update k.interest fd none } := by
  simp [close, isOpen, h]

theorem close_file (h : (k.file fd).isSome) : (k.close fd).file = update k.file fd none := by
  obtain ⟨f, hf⟩ := Option.isSome_iff_exists.mp h
  have hup : (k.hangUp fd).file = k.file := file_eq_of_files (by rw [hangUp_eq])
  rw [close_of_open hf, ← hup, ← file_setFile (file_nonneg hf)]
  exact file_eq_of_files rfl

theorem close_interest (h : (k.file fd).isSome) :
    (k.close fd).interest = update k.interest fd none := by
  obtain ⟨f, hf⟩ := Option.isSome_iff_exists.mp h
  rw [close_of_open hf]

theorem sockOf_eq_some {s : SockId} : k.sockOf fd = some s ↔ k.file fd = some (.conn s) := by
  unfold sockOf
  split <;> simp_all

/-- Everything but the interest set. -/
theorem ctl_socks (op : CtlOp) (ev : Option EpollEvent) :
    (k.ctl op fd ev).socks = k.socks ∧ (k.ctl op fd ev).backlog = k.backlog ∧
      (k.ctl op fd ev).nextSock = k.nextSock := by
  unfold ctl
  split <;> exact ⟨rfl, rfl, rfl⟩

/-- `close` ends the stream to the client. -/
theorem close_socks {s : SockId} (h : k.file fd = some (.conn s)) :
    (k.close fd).socks = update k.socks s { k.socks s with closed := true } ∧
    (k.close fd).backlog = k.backlog ∧ (k.close fd).nextSock = k.nextSock := by
  rw [close_of_open h, hangUp, sockOf_eq_some.mpr h]
  exact ⟨setFile_socks _, setFile_backlog _, setFile_nextSock _⟩

theorem report_socks (batch : List (Fd × Mask)) :
    (k.report batch).socks = k.socks ∧ (k.report batch).backlog = k.backlog ∧
      (k.report batch).nextSock = k.nextSock := by
  rcases report_eq batch with h | h <;> rw [h] <;> exact ⟨rfl, rfl, rfl⟩

/-- A `recv` without data takes nothing from the stream. -/
theorem recv_of_data_nil {r : RecvResult} (h : r.data = []) : k.recv fd r = k := by
  rcases recv_eq r with ⟨-, h'⟩ | ⟨s, -, h'⟩
  · exact h'
  · rw [h', h]
    simp [modifySock]

/-- `recv` on a connection takes from its stream only. -/
theorem recv_socks {s : SockId} (h : k.file fd = some (.conn s)) (r : RecvResult) :
    (k.recv fd r).socks = update k.socks s
      { k.socks s with got := (k.socks s).got + r.data.length } ∧
    (k.recv fd r).backlog = k.backlog ∧ (k.recv fd r).nextSock = k.nextSock := by
  rw [recv, sockOf_eq_some.mpr h]
  exact ⟨rfl, rfl, rfl⟩

theorem write_socks {s : SockId} (h : k.file fd = some (.conn s)) (bs : List Byte) :
    (k.write fd bs).socks = update k.socks s
      { k.socks s with written := (k.socks s).written ++ bs } ∧
    (k.write fd bs).backlog = k.backlog ∧ (k.write fd bs).nextSock = k.nextSock := by
  rw [write, sockOf_eq_some.mpr h]
  exact ⟨rfl, rfl, rfl⟩

theorem accept_socks (r : Fd) : (k.accept r).socks = k.socks ∧
    (k.accept r).backlog = k.backlog.tail ∧ (k.accept r).nextSock = k.nextSock := by
  unfold accept
  split
  next h => exact ⟨rfl, by rw [h]; rfl, rfl⟩
  next h => exact ⟨setFile_socks _, by rw [h]; rfl, setFile_nextSock _⟩

/-- Only the first connection leaves the queue. -/
theorem mem_tail_backlog {s : SockId} (h : k.backlog.head? ≠ some s) :
    s ∈ k.backlog.tail ↔ s ∈ k.backlog := by
  cases hb : k.backlog with
  | nil => exact .rfl
  | cons t rest =>
    have hne : s ≠ t := by
      rintro rfl
      exact h (by rw [hb]; rfl)
    rw [List.tail_cons, List.mem_cons, or_iff_right hne]

theorem accept_fail : (k.accept (-1)).file = k.file ∧ (k.accept (-1)).interest = k.interest := by
  unfold accept; split
  · exact ⟨rfl, rfl⟩
  · exact ⟨file_eq_of_files rfl, rfl⟩

theorem accept_ok {r : Fd} {s : SockId} {rest : List SockId} (hr : 0 ≤ r)
    (h : k.backlog = s :: rest) : (k.accept r).file = update k.file r (some (.conn s)) ∧
      (k.accept r).interest = k.interest := by
  rw [← file_setFile hr]
  simp only [accept, h]
  exact ⟨file_eq_of_files rfl, setFile_interest _⟩

/-- `accept` takes an unused number. -/
theorem accept_file_of_some {r x : Fd} {f : File} (hr : k.CanOpen r) (h : k.file x = some f) :
    (k.accept r).file x = some f := by
  unfold accept
  split
  · exact h
  next t rest hq =>
    show (k.setFile r (some (.conn t))).file x = some f
    rcases hr with rfl | ⟨hpos, hfree⟩
    · exact h
    · have hx : x ≠ r := by
        rintro rfl
        cases h.symm.trans hfree
      rw [file_setFile hpos, update_of_ne hx]
      exact h

/-- Only the first connection of the queue is opened. -/
theorem accept_file_conn {r x : Fd} {s : SockId} (hr : k.CanOpen r)
    (h : (k.accept r).file x = some (.conn s)) :
    k.file x = some (.conn s) ∨ r ≠ -1 ∧ x = r ∧ k.backlog.head? = some s := by
  unfold accept at h
  split at h
  · exact .inl h
  next t rest hq =>
    have h : (k.setFile r (some (.conn t))).file x = some (.conn s) := by
      rwa [file_eq_of_files rfl] at h
    rcases hr with rfl | ⟨hpos, -⟩
    · exact .inl h
    · rw [file_setFile hpos] at h
      by_cases hx : x = r
      · subst hx
        rw [update_self] at h
        cases h
        have hne : x ≠ -1 := fun he => absurd (he ▸ hpos) (by decide)
        exact .inr ⟨hne, rfl, by rw [hq]; rfl⟩
      · exact .inl ((update_of_ne hx ..).symm.trans h)

theorem CanRecv.ne_nil {len : Nat} {r : RecvResult} (h : k.CanRecv fd len r) : r ≠ .bytes [] := by
  intro hr
  subst hr
  exact h.1 rfl

/-- What is received are the next bytes of the stream. -/
theorem CanRecv.data_prefix {len : Nat} {r : RecvResult} {s : SockId} (h : k.CanRecv fd len r)
    (hf : k.file fd = some (.conn s)) : r.data <+: (k.socks s).sent.drop (k.socks s).got := by
  cases r with
  | bytes bs =>
    have hpre := h.2.2
    rw [sockOf_eq_some.mpr hf] at hpre
    exact List.isPrefixOf_iff_prefix.mp hpre
  | eof | fail => exact List.nil_prefix

/-! ## A connection's descriptor -/

theorem recv_conn {s : SockId} (h : k.file fd = some (.conn s)) (r : RecvResult) :
    k.recv fd r = { k with
      socks := update k.socks s { k.socks s with got := (k.socks s).got + r.data.length } } := by
  rw [recv, sockOf_eq_some.mpr h]
  rfl

/-- The registration of an open descriptor is changed. -/
theorem ctl_mod {ev : EpollEvent} (ho : (k.file fd).isSome) (hi : (k.interest fd).isSome = true) :
    k.ctlOk .EPOLL_CTL_MOD fd = true ∧
      k.ctl .EPOLL_CTL_MOD fd (some ev) = { k with interest := update k.interest fd (some ev) } := by
  obtain ⟨ev', hi⟩ := Option.isSome_iff_exists.mp hi
  have hok : k.ctlOk .EPOLL_CTL_MOD fd = true := ctlOk_of_interest (by decide) ho hi
  exact ⟨hok, if_pos hok⟩

/-- `write`, `EPOLL_CTL_DEL` and `close`. -/
theorem drop_conn {n : Nat} {s : SockId} (h : k.file n = some (.conn s))
    (hi : (k.interest n).isSome = true) (bs : List Byte) :
    (k.write n bs).ctlOk .EPOLL_CTL_DEL n = true ∧
    ((k.write n bs).ctl .EPOLL_CTL_DEL n none).close n = { k with
      files := update k.files n none
      interest := update k.interest n none
      socks := update k.socks s { k.socks s with
        written := (k.socks s).written ++ bs
        closed := true } } := by
  obtain ⟨ev, hi⟩ := Option.isSome_iff_exists.mp hi
  have hok : (k.write n bs).ctlOk .EPOLL_CTL_DEL n = true := by
    refine ctlOk_of_interest (by decide) ?_ ((congrFun (write_interest bs) _).trans hi)
    rw [write_file, h]
    rfl
  refine ⟨hok, ?_⟩
  have hfile : ((k.write n bs).ctl .EPOLL_CTL_DEL n none).file n = some (.conn s) := by
    rw [ctl_file, write_file, h]
  rw [close_of_open hfile, hangUp, sockOf_eq_some.mpr hfile, ctl, if_pos hok, write,
    sockOf_eq_some.mpr h]
  simp [modifySock, setFile]

/-! ## The queue of the listening socket -/

/-- Only `connect`, `report` and `accept` are about the listening socket. -/
theorem ctl_queue (op : CtlOp) (ev : Option EpollEvent) :
    (k.ctl op fd ev).backlog = k.backlog ∧ (k.ctl op fd ev).edge = k.edge := by
  unfold ctl
  split <;> exact ⟨rfl, rfl⟩

theorem close_queue : (k.close fd).backlog = k.backlog ∧ (k.close fd).edge = k.edge := by
  unfold close
  split
  · rw [hangUp_eq]
    exact ⟨setFile_backlog _, setFile_edge _⟩
  · exact ⟨rfl, rfl⟩

theorem recv_queue (r : RecvResult) :
    (k.recv fd r).backlog = k.backlog ∧ (k.recv fd r).edge = k.edge := by
  rcases recv_eq r with ⟨-, h⟩ | ⟨s, -, h⟩ <;> rw [h] <;> exact ⟨rfl, rfl⟩

theorem write_queue (bs : List Byte) :
    (k.write fd bs).backlog = k.backlog ∧ (k.write fd bs).edge = k.edge := by
  rcases write_eq bs with ⟨-, h⟩ | ⟨s, -, h⟩ <;> rw [h] <;> exact ⟨rfl, rfl⟩

theorem accept_queue (r : Fd) :
    (k.accept r).backlog = k.backlog.tail ∧ (k.accept r).edge = k.edge := by
  unfold accept
  split
  next h => exact ⟨by rw [h]; rfl, rfl⟩
  next h => exact ⟨by rw [h]; rfl, setFile_edge _⟩

theorem report_of_other {batch : List (Fd × Mask)} (h : ∀ e ∈ batch, k.isListener e.1 = false) :
    k.report batch = k := by
  rw [report, if_neg]
  rw [List.any_eq_true]
  rintro ⟨e, he, ht⟩
  rw [h e he] at ht
  cases ht

/-! ## Sockets and descriptors -/

/-- A connection waits in the queue or has one descriptor at most. -/
structure Peers (k : Kernel) : Prop where
  nodup : k.backlog.Nodup
  lt : s ∈ k.backlog → s < k.nextSock
  new : s ∈ k.backlog ∨ k.nextSock ≤ s → k.file x ≠ some (.conn s)
  inj : k.file x = some (.conn s) → k.file y = some (.conn s) → x = y

/-- Descriptors may be closed. -/
theorem Peers.mono {k' : Kernel} (h : k.Peers) (hb : k'.backlog = k.backlog)
    (hn : k'.nextSock = k.nextSock)
    (hf : ∀ {x s}, k'.file x = some (.conn s) → k.file x = some (.conn s)) : k'.Peers := by
  refine ⟨hb ▸ h.nodup, ?_, ?_, fun hx hy => h.inj (hf hx) (hf hy)⟩
  · rw [hb, hn]
    exact h.lt
  · rw [hb, hn]
    exact fun hs hx => h.new hs (hf hx)

theorem Peers.connect (h : k.Peers) : k.connect.Peers := by
  have hfile : k.connect.file = k.file := connect_file
  refine ⟨?_, ?_, ?_, hfile ▸ h.inj⟩
  · refine List.nodup_append.mpr ⟨h.nodup, List.pairwise_singleton .., ?_⟩
    intro s hs t ht
    rw [List.mem_singleton.mp ht]
    exact Nat.ne_of_lt (h.lt hs)
  · intro s hs
    rcases List.mem_append.mp hs with hs | hs
    · exact Nat.lt_succ_of_lt (h.lt hs)
    · rw [List.mem_singleton.mp hs]
      exact Nat.lt_succ_self _
  · intro s x hs
    rw [hfile]
    refine h.new (hs.elim (fun hs => ?_) fun hs => .inr (Nat.le_of_succ_le hs))
    exact (List.mem_append.mp hs).imp_right fun hs => (List.mem_singleton.mp hs).ge

/-- `accept` gives the first connection of the queue a descriptor of its own. -/
theorem Peers.accept {r : Fd} (h : k.Peers) (hr : k.CanOpen r) : (k.accept r).Peers := by
  unfold Kernel.accept
  split
  · exact h
  next s rest hq =>
    have hnd := h.nodup
    rw [hq, List.nodup_cons] at hnd
    have hmem : ∀ {t}, t ∈ rest → t ∈ k.backlog := fun ht => hq ▸ List.mem_cons_of_mem s ht
    have hs : s ∈ k.backlog := hq ▸ List.mem_cons_self
    -- a descriptor of the new table is an old one, or the new one for the first of the queue
    have hold : ∀ {x t}, (k.setFile r (some (.conn s))).file x = some (.conn t) →
        k.file x = some (.conn t) ∨ x = r ∧ t = s := by
      intro x t hx
      rcases hr with rfl | ⟨hpos, -⟩
      · exact .inl hx
      · rw [file_setFile hpos] at hx
        by_cases hxr : x = r
        · subst hxr
          rw [update_self] at hx
          cases hx
          exact .inr ⟨rfl, rfl⟩
        · exact .inl ((update_of_ne hxr ..).symm.trans hx)
    refine ⟨hnd.2, ?_, ?_, ?_⟩
    · intro t ht
      exact (setFile_nextSock (k := k) (some (.conn s))).symm ▸ h.lt (hmem ht)
    · intro t x ht hx
      have hlater : t ∈ rest ∨ k.nextSock ≤ t := ht.imp_right fun hle =>
        (setFile_nextSock (some (.conn s))) ▸ hle
      rcases hold hx with hold | ⟨-, heq⟩
      · exact h.new (hlater.imp_left hmem) hold
      · rcases hlater with hlater | hlater
        · exact hnd.1 (heq ▸ hlater)
        · exact Nat.not_lt.mpr (heq ▸ hlater) (h.lt hs)
    · intro x t y hx hy
      rcases hold hx with hx | ⟨hxr, hxs⟩ <;> rcases hold hy with hy | ⟨hyr, hys⟩
      · exact h.inj hx hy
      · rw [hys] at hx
        exact absurd hx (h.new (.inl hs))
      · rw [hxs] at hy
        exact absurd hy (h.new (.inl hs))
      · exact hxr.trans hyr.symm

theorem recv_nextSock (r : RecvResult) : (k.recv fd r).nextSock = k.nextSock := by
  rcases recv_eq r with ⟨-, h⟩ | ⟨s, -, h⟩ <;> rw [h]
  rfl

theorem write_nextSock (bs : List Byte) : (k.write fd bs).nextSock = k.nextSock := by
  rcases write_eq bs with ⟨-, h⟩ | ⟨s, -, h⟩ <;> rw [h]
  rfl

theorem close_nextSock : (k.close fd).nextSock = k.nextSock := by
  unfold close
  split
  · rw [hangUp_eq]
    exact setFile_nextSock _
  · rfl

theorem close_file_le {x : Fd} {f : File} (h : (k.close fd).file x = some f) :
    k.file x = some f := by
  cases ho : k.file fd with
  | none =>
    have hclosed : k.isOpen fd = false := by rw [isOpen, ho]; rfl
    rwa [close, if_neg (by rw [hclosed]; exact Bool.false_ne_true)] at h
  | some g =>
    rw [close_file (by rw [ho]; rfl)] at h
    by_cases hx : x = fd
    · rw [hx, update_self] at h
      cases h
    · exact (update_of_ne hx ..).symm.trans h

/-! ## The kernel at the start -/

section
variable {others : Nat → Bool}

theorem init_file (h : 0 ≤ fd) : (init others fd).file fd = some .listener := by
  rw [init, file_setFile h, update_self]

/-- No connection is open at the start. -/
theorem init_file_conn (h : 0 ≤ fd) (x : Fd) (s : SockId) :
    (init others fd).file x ≠ some (.conn s) := by
  rw [init, file_setFile h]
  intro hf
  by_cases hx : x = fd
  · subst hx
    rw [update_self] at hf
    cases hf
  · rw [update_of_ne hx] at hf
    cases x with
    | negSucc n => cases hf
    | ofNat n =>
      simp only [file] at hf
      split at hf <;> cases hf

@[simp] theorem init_interest : (init others fd).interest = fun _ => none := setFile_interest _

@[simp] theorem init_backlog : (init others fd).backlog = [] := setFile_backlog _

/-- The registration of the listening socket. -/
theorem init_ctl (h : 0 ≤ fd) (ev : EpollEvent) :
    ((init others fd).ctl .EPOLL_CTL_ADD fd (some ev)).interest =
      update (fun _ => none) fd (some ev) := by
  have hok : (init others fd).ctlOk .EPOLL_CTL_ADD fd = true :=
    ctlOk_add (by rw [init_file h]; rfl) (by rw [init_interest])
  rw [ctl_interest hok, init_interest]

end
end

end Kernel
end OnlineChat
