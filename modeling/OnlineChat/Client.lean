import OnlineChat.Lib.Exec
import OnlineChat.RecvLoop

/-!
# The client

`apps/client.cpp`: connect, then read a line from the standard input, send it and receive until
the server closes, over and over with the one buffer. Like the server it runs from one call to the
next; `sent` is a history of the byte strings passed to `send`, which no part of the program reads.
-/

namespace OnlineChat
open Lib

namespace Client

abbrev BUFFER_LENGTH : Nat := 1024

/-- What `fgets` takes from the input when there is room for `n` bytes: a line with its newline,
or the first `n` bytes of it. -/
def fgetsLine : Nat → List Byte → List Byte
  | 0, _ | _, [] => []
  | n + 1, b :: bs => if b = 0x0a then [b] else b :: fgetsLine n bs

theorem length_fgetsLine_le (n : Nat) (bs : List Byte) : (fgetsLine n bs).length ≤ n := by
  induction n generalizing bs with
  | zero => simp [fgetsLine]
  | succ n ih =>
    cases bs with
    | nil => simp [fgetsLine]
    | cons b bs =>
      rw [fgetsLine]
      split
      · simp
      · simpa using ih bs

theorem fgetsLine_isPrefix (n : Nat) (bs : List Byte) : fgetsLine n bs <+: bs := by
  induction n generalizing bs with
  | zero => simp [fgetsLine]
  | succ n ih =>
    cases bs with
    | nil => simp [fgetsLine]
    | cons b bs =>
      rw [fgetsLine]
      split
      · exact List.cons_prefix_cons.mpr ⟨rfl, List.nil_prefix⟩
      · exact List.cons_prefix_cons.mpr ⟨rfl, ih bs⟩

/-- `fgets` reads nothing at the end of the input only. -/
theorem fgetsLine_eq_nil {bs : List Byte} : fgetsLine (BUFFER_LENGTH - 1) bs = [] ↔ bs = [] := by
  cases bs with
  | nil => simp [fgetsLine]
  | cons b bs =>
    change fgetsLine (1022 + 1) (b :: bs) = [] ↔ _
    rw [fgetsLine]
    split <;> simp

/-- The call the client is about to make. -/
inductive Pc
  | connecting
  | reading
  | sending
  | receiving
  deriving DecidableEq

end Client

structure Client where
  /-- The standard input that has not been read. -/
  stdin : List Byte
  buffer : Buf Client.BUFFER_LENGTH
  rlen : Int
  pc : Client.Pc
  sent : List (List Byte)

namespace Client
variable (c : Client)

/-- `main` before `connect`, on an uninitialised buffer. -/
def start (stdin : List Byte) (buffer : Buf BUFFER_LENGTH) : Client :=
  ⟨stdin, buffer, 0, .connecting, []⟩

def connect : Client := { c with pc := .reading }

/-- `fgets(buffer, BUFFER_LENGTH, stdin)`. At the end of the input it returns `NULL`, which `main`
does not look at, and leaves the buffer alone. -/
def fgets : Client :=
  let line := fgetsLine (BUFFER_LENGTH - 1) c.stdin
  if line = [] then { c with rlen := 0, pc := .sending }
  else { c with
    stdin := c.stdin.drop line.length
    buffer := c.buffer.store 0 (line ++ [0]) (by
      rw [Nat.zero_add, List.length_append]
      exact Nat.succ_le_succ (length_fgetsLine_le (BUFFER_LENGTH - 1) c.stdin))
    rlen := 0
    pc := .sending }

/-- `send(clientfd, buffer, strlen(buffer), 0)` and `bzero`, with the string that is sent. That it
raises SIGPIPE instead is a step of the `Network`. -/
def send : Except Fault (List Byte × Client) :=
  if 0 ∈ c.buffer.bytes then
    let str := cstr c.buffer.bytes
    .ok (str, { c with buffer := .zero _, pc := .receiving, sent := c.sent ++ [str] })
  else .error .outOfBounds

def recvBuf : RecvBuf BUFFER_LENGTH := ⟨c.buffer, c.rlen⟩

/-- One pass through the receive loop; when it is left `main` starts over. -/
def recv (r : RecvResult) : Except Fault Client := do
  let (stop, s) ← c.recvBuf.pass r
  pure { c with buffer := s.buf, rlen := s.len, pc := if stop then .reading else .receiving }

inductive Act
  | connect
  | fgets
  | send
  /-- `recv` returns. -/
  | recv (r : RecvResult)
  deriving DecidableEq

/-- The client goes on from where it is, whatever the server does. -/
def step : Act → Except Fault Client
  | .connect => .ok c.connect
  | .fgets => .ok c.fgets
  | .send => do
    let (_, c) ← c.send
    pure c
  | .recv r => c.recv r

def Legal : Act → Prop
  | .connect => c.pc = .connecting
  | .fgets => c.pc = .reading
  | .send => c.pc = .sending
  | .recv r => c.pc = .receiving ∧ r.Fits c.recvBuf.request

instance : (a : Act) → Decidable (c.Legal a)
  | .connect | .fgets | .send => inferInstanceAs (Decidable (_ = _))
  | .recv _ => inferInstanceAs (Decidable (_ ∧ _))

/-- A step of the client with any server. -/
def Step (a : Act) (c' : Client) : Prop := c.Legal a ∧ c.step a = .ok c'

/-- The executable step. -/
def step? (a : Act) : Option Client := if c.Legal a then (c.step a).toOption else none

theorem step_of_step? {c c' : Client} {a : Act} (h : c.step? a = some c') : c.Step a c' := by
  simp only [step?, Option.ite_none_right_eq_some] at h
  refine ⟨h.1, ?_⟩
  cases hs : c.step a with
  | error => simp [hs, Except.toOption] at h
  | ok v => simpa [hs, Except.toOption] using h.2

/-! ## What the calls do -/

section
variable {c}

@[simp] theorem fgets_pc : c.fgets.pc = .sending := by
  simp only [fgets]
  split <;> rfl

@[simp] theorem fgets_sent : c.fgets.sent = c.sent := by
  simp only [fgets]
  split <;> rfl

@[simp] theorem fgets_rlen : c.fgets.rlen = 0 := by
  simp only [fgets]
  split <;> rfl

theorem fgets_str (hz : (0 : Byte) ∉ c.stdin) : (0 : Byte) ∉ c.fgets.stdin := by
  simp only [fgets]
  split
  · exact hz
  · exact fun hm => hz (List.mem_of_mem_drop hm)

/-- A line that is read is a terminated string in the buffer. -/
theorem fgets_line (hne : fgetsLine (BUFFER_LENGTH - 1) c.stdin ≠ [])
    (hz : (0 : Byte) ∉ fgetsLine (BUFFER_LENGTH - 1) c.stdin) :
    c.fgets.pc = .sending ∧ c.fgets.rlen = 0 ∧ c.fgets.sent = c.sent ∧
      (0 : Byte) ∈ c.fgets.buffer.bytes ∧
      cstr c.fgets.buffer.bytes = fgetsLine (BUFFER_LENGTH - 1) c.stdin := by
  simp only [fgets, if_neg hne, Buf.store, List.take_zero, List.nil_append, List.append_assoc]
  refine ⟨trivial, trivial, trivial, by simp, ?_⟩
  exact cstr_append_zero hz _

theorem send_string (hz : (0 : Byte) ∈ c.buffer.bytes) :
    c.send = .ok (cstr c.buffer.bytes, { c with
      buffer := .zero _, pc := .receiving, sent := c.sent ++ [cstr c.buffer.bytes] }) := by
  rw [send, if_pos hz]

/-- Received bytes go to the end of what has been gathered. -/
theorem recv_bytes {c' : Client} {got bs : List Byte} (hbs : bs ≠ []) (h : c.recvBuf.Holds got)
    (hr : c.recv (.bytes bs) = .ok c') :
    c'.recvBuf.Holds (got ++ bs) ∧ c'.pc = .receiving ∧ c'.sent = c.sent := by
  obtain ⟨⟨stop, s⟩, hs, hr⟩ := bind_eq_ok hr
  cases hr
  have hne : RecvResult.bytes bs ≠ .bytes [] := by simpa using hbs
  rcases RecvBuf.pass_cases hne hs with ⟨-, hd, -⟩ | ⟨cs, b, hb, rfl, hst, rfl⟩ | ⟨e, he, -⟩
  · exact absurd hd hbs
  · cases hb
    exact ⟨h.store hst, rfl, rfl⟩
  · cases he

end

end Client
end OnlineChat
