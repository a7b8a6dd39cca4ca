import OnlineChat.Client
import OnlineChat.Reactor.Streams

/-!
# One client and the reactor

The client of `apps/client.cpp` connected to the reactor by TCP, for the first line it sends. The
bytes between them are in `wire` until they arrive, in segments of any size; what the server has
written waits in its socket until the client receives it. TCP loses nothing and reports nothing
but `EAGAIN` to the server while the client is there.
-/

namespace OnlineChat
open Lib Function Reactor

structure Echo where
  server : World
  client : Client
  /-- The bytes that the client has sent and that have not arrived. -/
  wire : List Byte
  /-- How many of the bytes that the server has written the client has received. -/
  taken : Nat

namespace Echo

inductive Act
  | connect
  | fgets
  | send
  /-- The first `n` bytes on the wire arrive. -/
  | deliver (n : Nat)
  | server (a : Reactor.Act)
  | recv (r : RecvResult)

variable (s : Echo)

/-- The one connection. -/
def sock : Sock := s.server.kernel.socks 0

/-- What TCP lets the server see: data, or that none has arrived yet. -/
def Tcp : Reactor.Act → Prop
  | .connect | .segment .. | .recv .eof => False
  | .recv (.fail e) => (e = .EAGAIN ∨ e = .EWOULDBLOCK) ∧ s.sock.got = s.sock.sent.length
  | .recv (.bytes _) | .wait _ | .next | .accept .. | .write .. => True

instance : (a : Reactor.Act) → Decidable (s.Tcp a)
  | .connect | .segment .. | .recv .eof => .isFalse id
  | .recv (.fail _) => inferInstanceAs (Decidable (_ ∧ _))
  | .recv (.bytes _) | .wait _ | .next | .accept .. | .write .. => .isTrue trivial

/-- What the client's blocking `recv` may return. -/
def ClientRecv : RecvResult → Prop
  | .bytes bs => bs ≠ [] ∧ bs.length ≤ s.client.recvBuf.request ∧
    bs.isPrefixOf (s.sock.written.drop s.taken)
  | .eof => s.sock.closed ∧ s.taken = s.sock.written.length
  | .fail _ => False

instance : (r : RecvResult) → Decidable (s.ClientRecv r)
  | .bytes _ | .eof => inferInstanceAs (Decidable (_ ∧ _))
  | .fail _ => .isFalse id

def Legal : Act → Prop
  | .connect => s.client.pc = .connecting
  | .fgets => s.client.pc = .reading ∧ s.client.sent = []
  | .send => s.client.pc = .sending
  | .deliver n => 0 < n ∧ n ≤ s.wire.length ∧ s.server.Legal (.segment 0 (s.wire.take n))
  | .server a => s.server.Legal a ∧ s.Tcp a
  | .recv r => s.client.pc = .receiving ∧ s.ClientRecv r

instance : (a : Act) → Decidable (s.Legal a)
  | .connect | .send => inferInstanceAs (Decidable (_ = _))
  | .fgets | .deliver _ | .server _ | .recv _ => inferInstanceAs (Decidable (_ ∧ _))

def step : Act → Except Fault Echo
  | .connect => do
    let server ← s.server.step .connect
    pure { s with server := server, client := s.client.connect }
  | .fgets => .ok { s with client := s.client.fgets }
  | .send => do
    let (bs, client) ← s.client.send
    pure { s with client := client, wire := s.wire ++ bs }
  | .deliver n => do
    let server ← s.server.step (.segment 0 (s.wire.take n))
    pure { s with server := server, wire := s.wire.drop n }
  | .server a => do
    let server ← s.server.step a
    pure { s with server := server }
  | .recv r => do
    let client ← s.client.recv r
    pure { s with client := client, taken := s.taken + r.data.length }

def Step (s : Echo) (a : Act) (s' : Echo) : Prop := s.Legal a ∧ s.step a = .ok s'

def step? (a : Act) : Option Echo := if s.Legal a then (s.step a).toOption else none

theorem step_of_step? {s s' : Echo} {a : Act} (h : s.step? a = some s') : s.Step a s' := by
  simp only [step?, Option.ite_none_right_eq_some] at h
  refine ⟨h.1, ?_⟩
  cases hs : s.step a with
  | error => simp [hs, Except.toOption] at h
  | ok v => simpa [hs, Except.toOption] using h.2

/-- Before the client connects. -/
def start (w : World) (stdin : List Byte) (buffer : Buf Client.BUFFER_LENGTH) : Echo :=
  ⟨w, .start stdin buffer, [], 0⟩

/-- The first round of the client is over. -/
def Done : Prop := s.client.sent.length = 1 ∧ s.client.pc = .reading

instance : Decidable s.Done := inferInstanceAs (Decidable (_ ∧ _))

/-! ## The server in the system -/

section
variable {s s' s₀ : Echo} {xs : List (Echo × Act)} {a : Act}

/-- What the server sees of a step. -/
def Act.seen (s : Echo) : Act → Option Reactor.Act
  | .connect => some .connect
  | .deliver n => some (.segment 0 (s.wire.take n))
  | .server a => some a
  | .fgets | .send | .recv _ => none

theorem Step.server (h : s.Step a s') :
    match a.seen s with
    | some b => s.server.Step b s'.server ∧ b.CleanRecv
    | none => s'.server = s.server := by
  obtain ⟨hl, h⟩ := h
  cases a with
  | connect =>
    obtain ⟨v, hv, h⟩ := bind_eq_ok h
    cases h
    exact ⟨⟨trivial, hv⟩, trivial⟩
  | fgets =>
    cases h
    rfl
  | send =>
    obtain ⟨v, hv, h⟩ := bind_eq_ok h
    cases h
    rfl
  | deliver n =>
    obtain ⟨v, hv, h⟩ := bind_eq_ok h
    cases h
    exact ⟨⟨hl.2.2, hv⟩, trivial⟩
  | server b =>
    obtain ⟨v, hv, h⟩ := bind_eq_ok h
    cases h
    refine ⟨⟨hl.1, hv⟩, ?_⟩
    cases b with
    | recv r =>
      cases r with
      | fail e => exact hl.2.1
      | bytes | eof => trivial
    | _ => trivial
  | recv r =>
    obtain ⟨v, hv, h⟩ := bind_eq_ok h
    cases h
    rfl

/-- The server's part of a run of the system is a run of the server. -/
theorem server_exec (hx : Exec Step s₀ xs s) :
    ∃ ys, Exec World.Step s₀.server ys s.server ∧ ∀ y ∈ ys, y.2.CleanRecv := by
  induction hx with
  | nil => exact ⟨[], .nil, nofun⟩
  | @snoc xs t a u _ hs ih =>
    obtain ⟨ys, hys, hclean⟩ := ih
    have hsrv := hs.server
    cases hseen : a.seen t with
    | none =>
      rw [hseen] at hsrv
      exact ⟨ys, hsrv ▸ hys, hclean⟩
    | some b =>
      rw [hseen] at hsrv
      refine ⟨ys ++ [(t.server, b)], hys.snoc hsrv.1, fun y hy => ?_⟩
      rcases List.mem_append.mp hy with hy | hy
      · exact hclean y hy
      · exact List.mem_singleton.mp hy ▸ hsrv.2

end

/-- The invariants of the server. -/
structure ServerOk (w : World) : Prop where
  inv : w.Inv
  history : w.HistoryOk
  streams : w.Streams

/-- The line the client reads first. -/
def line (stdin : List Byte) : List Byte := Client.fgetsLine (Client.BUFFER_LENGTH - 1) stdin

/-- How far the client has come with its first line. -/
def ClientOk (stdin : List Byte) (s : Echo) : Prop :=
  match s.client.pc with
  | .connecting => s.client.sent = [] ∧ s.client.stdin = stdin
  | .reading => s.client.sent = [] ∧ s.client.stdin = stdin ∨
    s.client.sent = [line stdin] ∧ s.sock.closed = true ∧ s.client.buffer.Holds s.sock.written
  | .sending => s.client.sent = [] ∧ s.client.rlen = 0 ∧ (0 : Byte) ∈ s.client.buffer.bytes ∧
    cstr s.client.buffer.bytes = line stdin
  | .receiving => s.client.sent = [line stdin] ∧
    s.client.recvBuf.Holds (s.sock.written.take s.taken) ∧ s.taken ≤ s.sock.written.length

/-- Nothing is lost on the wire, and the client holds what it has received. -/
structure Inv (stdin : List Byte) (s : Echo) : Prop where
  nextSock : s.server.kernel.nextSock = if s.client.pc = .connecting then 0 else 1
  stream : s.sock.sent ++ s.wire = s.client.sent.flatten
  idle : s.client.sent = [] → s.taken = 0
  client : ClientOk stdin s

section
variable {s s' : Echo} {a : Act} {stdin : List Byte}

/-- A server that a client's byte stream has reached has that client's socket. -/
theorem Step.inv_server {b : Reactor.Act} (hok : ServerOk s.server) (h : s.Inv stdin)
    (hs : s.Step (.server b) s') : s'.Inv stdin := by
  obtain ⟨⟨-, htcp⟩, hstep⟩ := id hs
  obtain ⟨v, -, hstep⟩ := bind_eq_ok hstep
  cases hstep
  have ht : Trans s.server b v := hok.inv.trans hs.server.1
  have hsock := ht.sockStep hok.inv 0
  have hnext : v.kernel.nextSock = s.server.kernel.nextSock := by
    rcases ht.nextSock hok.inv with he | ⟨rfl, -⟩
    · exact he
    · exact htcp.elim
  have hseg : ∀ bs, b ≠ .segment 0 bs := by
    rintro bs rfl
    exact htcp.elim
  obtain ⟨hwr, hclosed⟩ := hsock.written hok.streams
  refine ⟨hnext.trans h.nextSock, ?_, h.idle, ?_⟩
  · exact Eq.trans (congrArg (· ++ s.wire) (hsock.sent_eq hseg)) h.stream
  · have hcl := h.client
    unfold ClientOk at hcl ⊢
    cases hpc : s.client.pc with
    | connecting | sending =>
      simp only [hpc] at hcl ⊢
      exact hcl
    | reading =>
      simp only [hpc] at hcl ⊢
      refine hcl.imp_right fun ⟨hsent, hcl, hbuf⟩ => ?_
      obtain ⟨hw, hc⟩ := hclosed hcl
      exact ⟨hsent, hc, hw ▸ hbuf⟩
    | receiving =>
      simp only [hpc] at hcl ⊢
      obtain ⟨hsent, hbuf, hle⟩ := hcl
      obtain ⟨t, ht⟩ := hwr
      refine ⟨hsent, ?_, ?_⟩
      · show RecvBuf.Holds _ ((v.kernel.socks 0).written.take s.taken)
        rw [← ht, List.take_append_of_le_length (by exact hle)]
        exact hbuf
      · exact hle.trans (ht ▸ List.length_append ▸ Nat.le_add_right ..)

theorem Step.inv_fgets (hne : line stdin ≠ []) (hz : (0 : Byte) ∉ line stdin)
    (h : s.Inv stdin) (hs : s.Step .fgets s') : s'.Inv stdin := by
  have hcl := h.client
  unfold ClientOk at hcl
  obtain ⟨⟨hpc, hsent⟩, hstep⟩ := hs
  simp only [hpc, hsent] at hcl
  cases hstep
  have hstdin : s.client.stdin = stdin := by
    rcases hcl with ⟨-, h⟩ | ⟨h, -⟩
    · exact h
    · cases h
  rw [← hstdin] at hne hz
  obtain ⟨hpc', hlen, hsent', hmem, hline⟩ := Client.fgets_line hne hz
  refine ⟨?_, ?_, ?_, ?_⟩
  · rw [hpc']
    exact h.nextSock.trans (if_neg (by rw [hpc]; decide))
  · rw [hsent']
    exact h.stream
  · rw [hsent']
    exact h.idle
  · unfold ClientOk
    simp only [hpc']
    exact ⟨hsent'.trans hsent, hlen, hmem, hline.trans (by rw [hstdin]; rfl)⟩

theorem Step.inv_send (h : s.Inv stdin) (hs : s.Step .send s') : s'.Inv stdin := by
  have hcl := h.client
  unfold ClientOk at hcl
  obtain ⟨hpc, hstep⟩ := hs
  have hpc : s.client.pc = .sending := hpc
  simp only [hpc] at hcl
  obtain ⟨hsent, hlen, hmem, hline⟩ := hcl
  simp only [step, Client.send_string hmem] at hstep
  cases hstep
  refine ⟨?_, ?_, ?_, ?_⟩
  · exact h.nextSock.trans (if_neg (by rw [hpc]; decide))
  · show s.sock.sent ++ (s.wire ++ _) = _
    rw [← List.append_assoc, h.stream, List.flatten_append, List.flatten_singleton]
  · exact fun h => absurd h (by simp)
  · refine ⟨by rw [hsent, hline]; rfl, ?_, ?_⟩
    · show RecvBuf.Holds _ (s.sock.written.take s.taken)
      rw [h.idle hsent]
      exact ⟨Buf.zero_holds, hlen⟩
    · exact (h.idle hsent).trans_le (Nat.zero_le _)

/-- What the server has written is taken over by the client's buffer. -/
theorem Step.inv_recv {r : RecvResult} (h : s.Inv stdin) (hs : s.Step (.recv r) s') :
    s'.Inv stdin := by
  have hcl := h.client
  unfold ClientOk at hcl
  obtain ⟨⟨hpc, hr⟩, hstep⟩ := hs
  simp only [hpc] at hcl
  obtain ⟨hsent, hbuf, hle⟩ := hcl
  obtain ⟨c, hc, hstep⟩ := bind_eq_ok hstep
  cases hstep
  cases r with
  | fail => exact hr.elim
  | eof =>
    cases hc
    obtain ⟨hclosed, htaken⟩ := hr
    refine ⟨h.nextSock.trans (if_neg (by rw [hpc]; decide)), h.stream, h.idle, .inr ?_⟩
    rw [htaken, List.take_length] at hbuf
    exact ⟨hsent, hclosed, hbuf.1⟩
  | bytes bs =>
    obtain ⟨hbs, -, hpre⟩ := hr
    have hpre := List.isPrefixOf_iff_prefix.mp hpre
    obtain ⟨hbuf', hpc', hsent'⟩ := Client.recv_bytes hbs hbuf hc
    have hlen := hpre.length_le
    rw [List.length_drop] at hlen
    refine ⟨?_, ?_, ?_, ?_⟩
    · rw [hpc']
      exact h.nextSock.trans (if_neg (by rw [hpc]; decide))
    · rw [hsent']
      exact h.stream
    · intro h0
      cases hsent.symm.trans (hsent'.symm.trans h0)
    · unfold ClientOk
      simp only [hpc']
      refine ⟨hsent'.trans hsent, ?_, ?_⟩
      · show RecvBuf.Holds _ (s.sock.written.take (s.taken + bs.length))
        rw [List.take_add, ← List.prefix_iff_eq_take.mp hpre]
        exact hbuf'
      · show s.taken + bs.length ≤ s.sock.written.length
        omega

theorem deliver_sock {n : Nat} : (s.server.kernel.segment 0 (s.wire.take n)).socks 0 =
    { s.sock with sent := s.sock.sent ++ s.wire.take n } := by
  simp [Kernel.segment, Kernel.modifySock, sock]

theorem Step.inv (hok : ServerOk s.server) (hne : line stdin ≠ [])
    (hz : (0 : Byte) ∉ line stdin) (h : s.Inv stdin) (hs : s.Step a s') : s'.Inv stdin := by
  have hcl := h.client
  unfold ClientOk at hcl
  cases a with
  | server b => exact hs.inv_server hok h
  | fgets => exact hs.inv_fgets hne hz h
  | send => exact hs.inv_send h
  | recv r => exact hs.inv_recv h
  | connect =>
    obtain ⟨hpc, hstep⟩ := hs
    have hpc : s.client.pc = .connecting := hpc
    simp only [hpc] at hcl
    cases hstep
    refine ⟨?_, h.stream, h.idle, .inl hcl⟩
    have hn := h.nextSock
    rw [if_pos hpc] at hn
    exact congrArg Nat.succ hn
  | deliver n =>
    obtain ⟨-, hstep⟩ := hs
    cases hstep
    refine ⟨h.nextSock, ?_, h.idle, ?_⟩
    · show ((s.server.kernel.segment 0 _).socks 0).sent ++ _ = _
      rw [deliver_sock, List.append_assoc, List.take_append_drop]
      exact h.stream
    · unfold ClientOk sock
      rw [deliver_sock]
      exact hcl

end

/-! ## The run of the system -/

/-- `recv` tells the server that no more has arrived. -/
def Act.Stops : Act → Prop
  | .server (.recv (.fail _)) => True
  | _ => False

def Act.Writes : Act → Prop
  | .server (.write ..) => True
  | _ => False

theorem Act.Writes.eq {a : Act} (h : a.Writes) : ∃ n past, a = .server (.write n past) := by
  unfold Act.Writes at h
  split at h
  · exact ⟨_, _, rfl⟩
  · exact h.elim

/-- `recvCallback` is over for the client. -/
def Past (w : World) : Prop :=
  (w.kernel.socks 0).closed = true ∨ ∃ c k, w.registry.core c = some k ∧
    w.registry.file k.fd = some (.conn 0) ∧ k.event.events = EPOLLOUT

/-- What the steps of a run say about the state after it. -/
structure Run (stdin : List Byte) (xs : List (Echo × Act)) (s : Echo) : Prop where
  stopped : (∃ x ∈ xs, x.2.Stops) ↔ Past s.server
  arrived : x ∈ xs → x.2.Stops →
    x.1.sock.sent <+: line stdin ∧ x.1.sock.sent.length = s.sock.got
  wrote : (∃ x ∈ xs, x.2.Writes) ↔ s.sock.closed = true
  count : x ∈ xs → x.2 = .server (.write n past) →
    s.sock.written = (line stdin).take n ∧ n ≤ s.sock.got

section
variable {s s' : Echo} {a : Act} {stdin : List Byte} {xs : List (Echo × Act)}

/-- The only client has the socket 0. -/
theorem Inv.sock_eq {fd : Fd} {t : SockId} (h : s.Inv stdin) (hok : ServerOk s.server)
    (hf : s.server.kernel.file fd = some (.conn t)) : t = 0 := by
  have hlt : t < s.server.kernel.nextSock :=
    lt_of_not_ge fun hle => (hok.streams.new (.inr hle)).2.2 _ hf
  rw [h.nextSock] at hlt
  split at hlt
  · cases hlt
  · exact Nat.lt_one_iff.mp hlt

theorem Inv.sent_le (h : s.Inv stdin) : s.sock.sent <+: line stdin := by
  have hsent : s.client.sent = [] ∨ s.client.sent = [line stdin] := by
    have hcl := h.client
    unfold ClientOk at hcl
    split at hcl
    · exact .inl hcl.1
    · exact hcl.imp And.left And.left
    · exact .inl hcl.1
    · exact .inr hcl.1
  have hstream := h.stream
  rcases hsent with hsent | hsent <;> rw [hsent] at hstream
  · rw [(List.append_eq_nil_iff.mp hstream).1]
    exact List.nil_prefix
  · rw [List.flatten_singleton] at hstream
    exact ⟨_, hstream⟩

/-- A connection with the client's socket decides whether `recvCallback` is over. -/
theorem past_iff {c : ConnId} {conn : Connection} (hok : ServerOk s.server)
    (hc : s.server.heap c = some conn) (hf : s.server.kernel.file conn.fd = some (.conn 0)) :
    Past s.server ↔ conn.event.events = EPOLLOUT := by
  refine ⟨fun hp => ?_, fun he => .inr ⟨c, conn.core, World.registry_core hc, hf, he⟩⟩
  rcases hp with hcl | ⟨c', k, hk, hf', he⟩
  · exact absurd hf ((hok.streams.closed hcl).2.2 _)
  · have hfd : conn.core.fd = k.fd := hok.streams.inj hf hf'
    have hne : conn.core.fd ≠ -1 := by
      intro h0
      rw [show conn.fd = -1 from h0] at hf
      cases hf
    have hcc := hok.inv.registry.fd_inj (World.registry_core hc) hk hne hfd
    rw [← hcc, World.registry_core hc] at hk
    cases hk
    exact he

theorem past_congr {v w : World} (hreg : v.registry = w.registry)
    (hcl : (v.kernel.socks 0).closed = (w.kernel.socks 0).closed) : Past v ↔ Past w := by
  rw [Past, Past, hreg, hcl]

/-- A new connection does not matter. -/
theorem past_add {v w : World} {r : Fd} {t : SockId} (hok : w.registry.Ok)
    (hr : r = -1 ∨ w.registry.file r = none) (hreg : v.registry = w.registry.add r t)
    (hcl : (v.kernel.socks 0).closed = (w.kernel.socks 0).closed) : Past v ↔ Past w := by
  rw [Past, Past, hreg, hcl]
  refine or_congr_right ⟨?_, ?_⟩
  · rintro ⟨c, k, hk, hf, he⟩
    rcases update_some_eq_some.mp hk with ⟨rfl, rfl⟩ | ⟨-, hk⟩
    · cases he
    · refine ⟨c, k, hk, ?_, he⟩
      by_cases hfd : k.fd = r
      · rcases hr with rfl | hr
        · simpa only [Registry.add, if_true] using hf
        · by_cases hne : k.fd = -1
          · rw [hne] at hfd
            rw [← hfd] at hf
            simpa only [Registry.add, if_true, hne] using hf
          · have hopen := (hok.mapped hk hne).2.2.2
            rw [hfd, hr] at hopen
            cases hopen
      · rwa [Registry.add_file hfd] at hf
  · rintro ⟨c, k, hk, hf, he⟩
    refine ⟨c, k, (update_of_ne ?_ ..).trans hk, ?_, he⟩
    · rintro rfl
      cases hok.core_nextConn.symm.trans hk
    · rw [Registry.add_file]
      · exact hf
      · rintro rfl
        rcases hr with hr | hr
        · rw [hr] at hf
          cases hf
        · cases hf.symm.trans hr

theorem exists_mem_snoc {P : Act → Prop} :
    (∃ x ∈ xs ++ [(s, a)], P x.2) ↔ (∃ x ∈ xs, P x.2) ∨ P a := by
  simp only [List.mem_append, List.mem_singleton, or_and_right, exists_or, exists_eq_left]

theorem Run.past_of_writes {x : Echo × Act} {n : Nat} {past : List Byte} (h : Run stdin xs s)
    (hx : x ∈ xs) (he : x.2 = .server (.write n past)) : Past s.server :=
  .inl (h.wrote.mp ⟨x, hx, by rw [he]; trivial⟩)

/-- A step that does not end a receive loop and does not write. -/
theorem Run.quiet (h : Run stdin xs s) (hS : ¬ a.Stops) (hW : ¬ a.Writes)
    (hpast : Past s'.server ↔ Past s.server) (hclosed : s'.sock.closed = s.sock.closed)
    (hgot : Past s.server → s'.sock.got = s.sock.got)
    (hwritten : s'.sock.written = s.sock.written) : Run stdin (xs ++ [(s, a)]) s' := by
  refine ⟨?_, fun hx hs => ?_, ?_, fun hx he => ?_⟩
  · rw [exists_mem_snoc, hpast, ← h.stopped]
    exact or_iff_left hS
  · rcases List.mem_append.mp hx with hx | hx
    · rw [hgot (h.stopped.mp ⟨_, hx, hs⟩)]
      exact h.arrived hx hs
    · rw [List.mem_singleton.mp hx] at hs
      exact absurd hs hS
  · rw [exists_mem_snoc, hclosed, ← h.wrote]
    exact or_iff_left hW
  · rcases List.mem_append.mp hx with hx | hx
    · rw [hwritten, hgot (h.past_of_writes hx he)]
      exact h.count hx he
    · rw [List.mem_singleton.mp hx] at he
      have he : a = .server (.write _ _) := he
      exact absurd (by rw [he]; trivial) hW

/-- `recv` reports `EAGAIN`: what has arrived so far is what the server answers. -/
theorem Run.stop {e : Errno} (h : Run stdin xs s) (hok : ServerOk s.server) (hinv : s.Inv stdin)
    (hs : s.Step (.server (.recv (.fail e))) s') :
    Run stdin (xs ++ [(s, .server (.recv (.fail e)))]) s' := by
  obtain ⟨⟨-, htcp⟩, hstep⟩ := id hs
  obtain ⟨v, -, hstep⟩ := bind_eq_ok hstep
  cases hstep
  have ht : Trans s.server (.recv (.fail e)) v := hok.inv.trans hs.server.1
  obtain ⟨x, hx⟩ : ∃ x, v.kernel.socks 0 = x := ⟨_, rfl⟩
  have hsock := ht.sockStep hok.inv 0
  rw [hx] at hsock
  cases hsock with
  | same =>
    have hx : (⟨v, s.client, s.wire, s.taken⟩ : Echo).sock = s.sock := hx
    cases ht with
    | recv _ _ hr hpass =>
      obtain ⟨_, _, hb, -⟩ := hs.server.2.pass (by simp) hpass
      cases hb
    | @leaveRecv c todo conn r hpc hc =>
      obtain ⟨hcs, hne, he⟩ := hok.inv.receiving hpc hc
      obtain ⟨t, hf⟩ := hok.inv.peer hc hcs hne
      cases hinv.sock_eq hok hf
      have hnp : ¬ Past s.server := fun hp => by
        rw [past_iff hok hc hf, he] at hp
        cases hp
      have hreg := @World.rearmed_registry s.server c conn hok.inv.registry hc hne todo (.fail e)
      have hpast : Past (s.server.rearmed c conn todo (.fail e)) := by
        refine .inr ?_
        rw [hreg]
        exact ⟨c, { conn.core with event := ⟨EPOLLOUT, conn.fd⟩ }, update_self .., hf, rfl⟩
      refine ⟨?_, fun hm hs => ?_, ?_, fun hm hw => ?_⟩
      · rw [exists_mem_snoc]
        exact iff_of_true (.inr trivial) hpast
      · rw [hx]
        rcases List.mem_append.mp hm with hm | hm
        · exact absurd (h.stopped.mp ⟨_, hm, hs⟩) hnp
        · rw [List.mem_singleton.mp hm]
          exact ⟨hinv.sent_le, htcp.2.symm⟩
      · rw [exists_mem_snoc, hx, ← h.wrote]
        exact or_iff_left id
      · rcases List.mem_append.mp hm with hm | hm
        · exact absurd (h.past_of_writes hm hw) hnp
        · rw [List.mem_singleton.mp hm] at hw
          cases hw

/-- `write` takes `n` bytes and the connection is closed. -/
theorem Run.write {n : Nat} {past : List Byte} (h : Run stdin xs s) (hok : ServerOk s.server)
    (hinv : s.Inv stdin) (hz : (0 : Byte) ∉ line stdin) (hs : s.Step (.server (.write n past)) s') :
    Run stdin (xs ++ [(s, .server (.write n past))]) s' := by
  obtain ⟨-, hstep⟩ := id hs
  obtain ⟨v, -, hstep⟩ := bind_eq_ok hstep
  cases hstep
  have ht : Trans s.server (.write n past) v := hok.inv.trans hs.server.1
  cases ht with
  | @leaveSend c todo conn _ _ hpc hc hn =>
    obtain ⟨hcs, hne, he⟩ := hok.inv.writing hpc hc
    obtain ⟨t, hf, hsocks, -⟩ := @World.Inv.dropped_socks _ _ _ hok.inv todo
      ((conn.wbuffer.bytes ++ past).take n) hpc hc
    cases hinv.sock_eq hok hf
    have hp : Past s.server := (past_iff hok hc hf).mpr he
    have hopen : s.sock.closed ≠ true := fun hcl => (hok.streams.closed hcl).2.2 _ hf
    have hstr := hok.streams.conn hcs hc hf
    rw [World.stage_sending hc he (by rw [hpc]; rfl)] at hstr
    have hsent := hinv.sent_le
    have hlen : s.sock.sent.length < RECV_BUFFER_LENGTH :=
      Nat.lt_of_le_of_lt (hsent.length_le.trans (Client.length_fgetsLine_le _ _)) (by decide)
    obtain ⟨hng, htake⟩ := hstr.write (fun hm => hz (hsent.subset hm)) hlen hn past
    have hx : Echo.sock ⟨s.server.dropped c conn todo ((conn.wbuffer.bytes ++ past).take n),
        s.client, s.wire, s.taken⟩ = { s.sock with
          written := (line stdin).take n, closed := true } := by
      obtain ⟨t, ht⟩ := hsent
      have hwr : (s.server.kernel.socks 0).written = [] := hstr.written
      have hn : n ≤ s.sock.sent.length := hng.trans hstr.got_le
      rw [sock, hsocks, update_self, htake, ← ht, List.take_append_of_le_length hn]
      simp [sock, hwr]
    refine ⟨?_, fun hm hs => ?_, ?_, fun hm hw => ?_⟩
    · rw [exists_mem_snoc]
      exact iff_of_true (.inl (h.stopped.mpr hp)) (.inl (congrArg Sock.closed hx))
    · rw [hx]
      rcases List.mem_append.mp hm with hm | hm
      · exact h.arrived hm hs
      · rw [List.mem_singleton.mp hm] at hs
        exact hs.elim
    · rw [exists_mem_snoc, hx]
      exact iff_of_true (.inr trivial) rfl
    · rw [hx]
      rcases List.mem_append.mp hm with hm | hm
      · exact absurd (h.wrote.mp ⟨_, hm, by rw [hw]; trivial⟩) hopen
      · rw [List.mem_singleton.mp hm] at hw
        cases hw
        exact ⟨rfl, hng⟩

/-- `Run.write` and `Run.stop` are the cases of `write` and of a `recv` that fails. The other steps
of the server are quiet. -/
theorem Step.run_server {b : Reactor.Act} (h : Run stdin xs s) (hok : ServerOk s.server)
    (hinv : s.Inv stdin) (hz : (0 : Byte) ∉ line stdin) (hs : s.Step (.server b) s') :
    Run stdin (xs ++ [(s, .server b)]) s' := by
  obtain ⟨v, -, hstep⟩ := bind_eq_ok hs.2
  cases hstep
  have ht := hok.inv.trans hs.server.1
  have hreg := ht.registryStep hok.inv.registry hok.inv.pc_fd
  obtain ⟨x, hx⟩ : ∃ x, v.kernel.socks 0 = x := ⟨_, rfl⟩
  have hsock := ht.sockStep hok.inv 0
  rw [hx] at hsock
  cases b with
  | connect | segment => exact hs.1.2.elim
  | wait batch | next =>
    cases hsock with
    | same =>
      cases hreg with
      | same hreg =>
        refine h.quiet id id (past_congr hreg (by rw [hx])) ?_ (fun _ => ?_) ?_ <;>
          exact congrArg _ hx
  | accept r junk =>
    cases hsock with
    | same =>
      refine h.quiet id id ?_ ?_ (fun _ => ?_) ?_
      rotate_left
      · exact congrArg _ hx
      · exact congrArg _ hx
      · exact congrArg _ hx
      cases hreg with
      | same hreg => exact past_congr hreg (by rw [hx])
      | add _ hr hreg => exact past_add hok.inv.registry hr hreg (by rw [hx])
  | write n past => exact h.write hok hinv hz hs
  | recv r =>
    cases r with
    | fail e => exact h.stop hok hinv hs
    | eof => exact hs.1.2.elim
    | bytes bs =>
      cases ht with
      | leaveRecv _ _ hl _ hd => exact absurd hd hl.1
      | @recv c todo conn _ st hpc hc hl hpass =>
        obtain ⟨hcs, hne, he⟩ := hok.inv.receiving hpc hc
        obtain ⟨t, hf⟩ := hok.inv.peer hc hcs hne
        cases hinv.sock_eq hok hf
        have hnp : ¬ Past s.server := fun hp => by
          rw [past_iff hok hc hf, he] at hp
          cases hp
        have hreg : (s.server.received c conn (.bytes bs) st).registry = s.server.registry := by
          cases hreg with
          | same hreg => exact hreg
          | rearm _ _ hd => exact absurd hd hl.1
        cases hsock with
        | same | take =>
          refine h.quiet id id (past_congr hreg (by rw [hx])) ?_ (fun hp => absurd hp hnp) ?_
          · have hcl := congrArg Sock.closed hx
            exact hcl
          · have hwr := congrArg Sock.written hx
            exact hwr

theorem Step.run (h : Run stdin xs s) (hok : ServerOk s.server) (hinv : s.Inv stdin)
    (hz : (0 : Byte) ∉ line stdin) (hs : s.Step a s') : Run stdin (xs ++ [(s, a)]) s' := by
  cases a with
  | connect =>
    cases hs.2
    exact h.quiet id id .rfl rfl (fun _ => rfl) rfl
  | fgets =>
    cases hs.2
    exact h.quiet id id .rfl rfl (fun _ => rfl) rfl
  | send =>
    obtain ⟨v, -, hstep⟩ := bind_eq_ok hs.2
    cases hstep
    exact h.quiet id id .rfl rfl (fun _ => rfl) rfl
  | deliver n =>
    cases hs.2
    refine h.quiet id id (past_congr ?_ ?_) ?_ (fun _ => ?_) ?_
    · simp [World.registry]
    all_goals
      simp only [sock, deliver_sock]
  | recv r =>
    obtain ⟨v, -, hstep⟩ := bind_eq_ok hs.2
    cases hstep
    exact h.quiet id id .rfl rfl (fun _ => rfl) rfl
  | server b => exact hs.run_server h hok hinv hz

/-! ## The reply -/

/-- The client's line had arrived when `recv` told the server that there is no more, and `write`
took all of it. -/
def Complete (L : List Byte) (s : Echo) : Act → Prop
  | .server (.recv (.fail _)) => s.sock.sent = L
  | .server (.write n _) => n = L.length
  | _ => True

theorem start_inv {e : Boot} {w : World} (hb : e.server = some (.ok w)) (stdin : List Byte)
    (buffer : Buf Client.BUFFER_LENGTH) : (start w stdin buffer).Inv stdin := by
  obtain ⟨-, rfl⟩ := Boot.server_eq hb
  obtain ⟨hsocks, -, hnext⟩ := e.started_socks
  refine ⟨hnext, ?_, fun _ => rfl, ⟨rfl, rfl⟩⟩
  rw [sock, show (start e.started stdin buffer).server = e.started from rfl, hsocks]
  rfl

theorem start_run {e : Boot} {w : World} (hb : e.server = some (.ok w)) (stdin : List Byte)
    (buffer : Buf Client.BUFFER_LENGTH) : Run stdin [] (start w stdin buffer) := by
  have hst := Boot.started_streams hb
  obtain ⟨-, rfl⟩ := Boot.server_eq hb
  obtain ⟨hsocks, hback, hnext⟩ := e.started_socks
  have hcl : ¬ (start e.started stdin buffer).sock.closed = true := by
    intro h
    have hlt := (hst.closed h).1
    rw [hnext] at hlt
    cases hlt
  refine ⟨iff_of_false (by simp) ?_, fun hx => absurd hx List.not_mem_nil,
    iff_of_false (by simp) hcl, fun hx => absurd hx List.not_mem_nil⟩
  rintro (h | ⟨c, k, -, hf, -⟩)
  · exact hcl h
  · exact (hst.new (.inr hnext.le)).2.2 _ hf

/-- The invariants hold in every state the system reaches. -/
theorem exec_inv {e : Boot} {w : World} {buffer : Buf Client.BUFFER_LENGTH}
    (hb : e.server = some (.ok w)) (hx : Exec Step (start w stdin buffer) xs s)
    (hne : line stdin ≠ []) (hz : (0 : Byte) ∉ line stdin) :
    ServerOk s.server ∧ s.Inv stdin ∧ Run stdin xs s := by
  have hok : ∀ {ys t}, Exec Step (start w stdin buffer) ys t → ServerOk t.server := by
    intro ys t hx
    obtain ⟨zs, hzs, hclean⟩ := server_exec hx
    exact ⟨Boot.inv hb hzs, Boot.historyOk hb hzs, Boot.streams hb hzs hclean⟩
  refine ⟨hok hx, ?_⟩
  induction hx with
  | nil => exact ⟨start_inv hb stdin buffer, start_run hb stdin buffer⟩
  | snoc hx hs ih => exact ⟨hs.inv (hok hx) hne hz ih.1, hs.run ih.2 (hok hx) ih.1 hz⟩

/-- The client gets its line back exactly when the line was complete at the end of the server's
receive loop and `write` took all of it. -/
theorem echo_iff {e : Boot} {w : World} {buffer : Buf Client.BUFFER_LENGTH}
    (hb : e.server = some (.ok w)) (hx : Exec Step (start w stdin buffer) xs s)
    (hne : line stdin ≠ []) (hz : (0 : Byte) ∉ line stdin) (hd : s.Done) :
    s.client.buffer.Holds (line stdin) ↔ ∀ x ∈ xs, x.1.Complete (line stdin) x.2 := by
  obtain ⟨hok, hinv, hrun⟩ := exec_inv hb hx hne hz
  obtain ⟨hlen, hpc⟩ := hd
  have hcl := hinv.client
  unfold ClientOk at hcl
  simp only [hpc] at hcl
  obtain ⟨hsent, -⟩ | ⟨-, hclosed, hbuf⟩ := hcl
  · rw [hsent] at hlen
    cases hlen
  obtain ⟨x, hx, hstop⟩ := hrun.stopped.mpr (.inl hclosed)
  obtain ⟨harr, hgot⟩ := hrun.arrived hx hstop
  have hle : s.sock.got ≤ (line stdin).length := hgot ▸ harr.length_le
  obtain ⟨y, hy, hwrites⟩ := hrun.wrote.mpr hclosed
  obtain ⟨n, past, he⟩ := hwrites.eq
  obtain ⟨hwritten, hng⟩ := hrun.count hy he
  have hfull : ∀ {n}, s.sock.written = (line stdin).take n → s.sock.written = line stdin →
      (line stdin).length ≤ n := by
    intro n hn hl
    have hlen := congrArg List.length (hl.symm.trans hn)
    rw [List.length_take] at hlen
    omega
  refine ⟨fun hline z hz' => ?_, fun hcomplete => ?_⟩
  · have hwl : s.sock.written = line stdin := by
      refine hbuf.inj hline ?_ hz
      rw [hwritten]
      exact fun hm => hz (List.mem_of_mem_take hm)
    have hn := hfull hwritten hwl
    unfold Complete
    split
    next hz₂ =>
      obtain ⟨hpre, hlen⟩ := hrun.arrived hz' (by rw [hz₂]; trivial)
      exact hpre.eq_of_length (by omega)
    next m past' hz₂ =>
      obtain ⟨hw, hm⟩ := hrun.count hz' hz₂
      have := hfull hw hwl
      omega
    · trivial
  · have hn := hcomplete y hy
    rw [he] at hn
    rw [show n = _ from hn, List.take_length] at hwritten
    exact hwritten ▸ hbuf

/-- The line "ab" and its newline, delivered in segments of `m` and `3 - m` bytes; the server is
told that there is no more after the first, and `write` takes all that it has. -/
def abRun (m : Nat) : List Act :=
  [.connect, .fgets, .send, .deliver m, .server (.wait [(4, EPOLLIN)]), .server .next,
    .server (.accept 5 Boot.plain.junk), .server .next, .server (.wait [(5, EPOLLIN)]),
    .server .next, .server (.recv (.bytes ([97, 98, 10].take m))),
    .server (.recv (.fail .EAGAIN))] ++
  (if m < 3 then [.deliver (3 - m)] else []) ++
  [.server .next, .server (.wait [(5, EPOLLOUT)]), .server .next, .server (.write m []),
    .recv (.bytes ([97, 98, 10].take m)), .recv .eof]

theorem exec_of_runs {e : Boot} {w : World} {s : Echo} {stdin : List Byte}
    {buffer : Buf Client.BUFFER_LENGTH} {acts : List Act} (hb : e.server = some (.ok w))
    (hr : Exec.runs step? (start e.started stdin buffer) acts = some s) :
    ∃ xs, Exec Step (start w stdin buffer) xs s ∧ xs.map Prod.snd = acts := by
  obtain ⟨-, rfl⟩ := Boot.server_eq hb
  exact Exec.of_runs step_of_step? hr

theorem echo_iff_whole : ∃ w s xs, Boot.plain.server = some (.ok w) ∧
    Exec Step (start w [97, 98, 10] (.zero _)) xs s ∧ xs.map Prod.snd = abRun 3 ∧ s.Done ∧
    (s.client.buffer.Holds [97, 98, 10] ↔ ∀ x ∈ xs, x.1.Complete [97, 98, 10] x.2) := by
  obtain ⟨w, hw⟩ : ∃ w, Boot.plain.server = some (.ok w) := ⟨_, rfl⟩
  have hrun : (Exec.runs step? (start Boot.plain.started [97, 98, 10] (.zero _)) (abRun 3)).any
      (fun s => s.Done) := by decide +kernel
  obtain ⟨s, hs, hrun⟩ := (Option.any_eq_true ..).mp hrun
  have hd : s.Done := of_decide_eq_true hrun
  obtain ⟨xs, hx, hacts⟩ := exec_of_runs hw hs
  exact ⟨w, s, xs, hw, hx, hacts, hd, echo_iff hw hx (by decide) (by decide) hd⟩

/-- The second segment arrives too late: the client gets "a" back. -/
theorem echo_split : ∃ w s xs, Boot.plain.server = some (.ok w) ∧
    Exec Step (start w [97, 98, 10] (.zero _)) xs s ∧ xs.map Prod.snd = abRun 1 ∧ s.Done ∧
    s.sock.closed = true ∧ line [97, 98, 10] = [97, 98, 10] ∧
    s.client.buffer.Holds [97] ∧ ¬ s.client.buffer.Holds [97, 98, 10] := by
  obtain ⟨w, hw⟩ : ∃ w, Boot.plain.server = some (.ok w) := ⟨_, rfl⟩
  have hrun : (Exec.runs step? (start Boot.plain.started [97, 98, 10] (.zero _)) (abRun 1)).any
      (fun s => s.Done ∧ s.sock.closed = true ∧ s.client.buffer.Holds [97]) := by decide +kernel
  obtain ⟨s, hs, hrun⟩ := (Option.any_eq_true ..).mp hrun
  obtain ⟨hd, hclosed, hbuf⟩ := of_decide_eq_true hrun
  obtain ⟨xs, hx, hacts⟩ := exec_of_runs hw hs
  refine ⟨w, s, xs, hw, hx, hacts, hd, hclosed, by decide, hbuf, fun h => ?_⟩
  cases hbuf.inj h (by decide) (by decide)

end

end Echo
end OnlineChat
