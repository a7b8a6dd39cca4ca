import OnlineChat.ChatServer.Server
import OnlineChat.Client
import OnlineChat.Reactor.Transition

/-!
# The three receive loops

A `Receiver` is a program with a receive loop: where its buffer is, when it is in the loop, and how
it goes on when `recv` returns. `Loop.receiver` are the three programs. A run of the loop is a
sequence of results that fit the requests (`Receiver.Step`). On a cleared buffer and with data, end
of stream or `EAGAIN` only, it gathers the stream in whatever chunks it comes, and it ends.
-/

namespace OnlineChat
open Lib

structure Receiver (n : Nat) (σ : Type) where
  buffer : σ → RecvBuf n
  /-- The program is about to call `recv` in its loop. -/
  inside : σ → Prop
  recv : σ → RecvResult → Except Fault σ
  recv_ok {s r stop b} : inside s → (buffer s).pass r = .ok (stop, b) →
    ∃ s', recv s r = .ok s' ∧ buffer s' = b ∧ (inside s' ↔ stop = false)
  recv_error {s r f} : inside s → (buffer s).pass r = .error f → recv s r = .error f

/-! ## The loops of the programs -/

namespace Reactor.World
variable {w : World} {c : ConnId} {conn : Connection} {todo : List Ready} {r : RecvResult}

/-- The receive buffer of the connection `c`. -/
def recvBufOf (w : World) (c : ConnId) : RecvBuf RECV_BUFFER_LENGTH :=
  match w.heap c with
  | some conn => conn.recvBuf
  | none => ⟨.zero _, 0⟩

theorem recvBufOf_eq (hc : w.heap c = some conn) : w.recvBufOf c = conn.recvBuf := by
  rw [recvBufOf, hc]

/-- The end of `recvCallback` leaves the receive buffer alone. -/
theorem leave_recv_buf (hc : w.heap c = some conn) :
    ∃ v, recvCallback.leave w c = .ok v ∧ v.recvBufOf c = conn.recvBuf := by
  cases hin : conn.inEpoll with
  | true =>
    exact ⟨_, leave_recv_ok hc hin, @recvBufOf_eq _ c (conn.setEvent EPOLLOUT) put_heap_self⟩
  | false =>
    have hadd := @updateConnection_add (w.put c (conn.setEvent EPOLLOUT)) c _ put_heap_self hin
    simp only [recvCallback.leave, modify_of_live hc, bind, Except.bind, hadd]
    exact ⟨_, rfl, @recvBufOf_eq _ c (conn.setEvent EPOLLOUT).setInEpoll put_heap_self⟩

theorem recv_ok {stop : Bool} {b : RecvBuf RECV_BUFFER_LENGTH} (hpc : w.pc = .receiving c todo)
    (hc : (w.heap c).isSome = true) (hp : (w.recvBufOf c).pass r = .ok (stop, b)) :
    ∃ w', w.step (.recv r) = .ok w' ∧ w'.recvBufOf c = b ∧
      (w'.pc = .receiving c todo ∧ (w'.heap c).isSome = true ↔ stop = false) := by
  obtain ⟨conn, hc⟩ := Option.isSome_iff_exists.mp hc
  rw [recvBufOf_eq hc] at hp
  simp only [step, hpc]
  simp only [pass_eq hc, hp, Except.map, bind, Except.bind]
  cases stop with
  | false =>
    refine ⟨_, rfl, @recvBufOf_eq _ c (conn.setRecvBuf b) put_heap_self, ?_⟩
    simp [put, hpc]
  | true =>
    obtain ⟨v, hv, hbuf⟩ := @leave_recv_buf
      ({ w with kernel := w.kernel.recv conn.fd r }.put c (conn.setRecvBuf b)) c _ put_heap_self
    rw [if_pos rfl, hv]
    exact ⟨_, rfl, hbuf, by simp [ret]⟩

theorem recv_error {f : Fault} (hpc : w.pc = .receiving c todo) (hc : (w.heap c).isSome = true)
    (hp : (w.recvBufOf c).pass r = .error f) : w.step (.recv r) = .error f := by
  obtain ⟨conn, hc⟩ := Option.isSome_iff_exists.mp hc
  rw [recvBufOf_eq hc] at hp
  simp only [step, hpc, pass_eq hc, hp, Except.map, bind, Except.bind]

/-- The loop of `recvCallback` on the connection `c`. -/
def receiver (c : ConnId) (todo : List Ready) : Receiver RECV_BUFFER_LENGTH World where
  buffer w := w.recvBufOf c
  inside w := w.pc = .receiving c todo ∧ (w.heap c).isSome = true
  recv w r := w.step (.recv r)
  recv_ok h := recv_ok h.1 h.2
  recv_error h := recv_error h.1 h.2

end Reactor.World

namespace ChatServer.Server
variable {s : Server} {fd : Fd} {todo : List EpollEvent} {r : RecvResult}

theorem recv_ok {stop : Bool} {b : RecvBuf BUFFER_LENGTH} (hpc : s.pc = .receiving fd todo)
    (hp : s.recvBuf.pass r = .ok (stop, b)) :
    ∃ s', s.step (.recv r) = .ok s' ∧ s'.recvBuf = b ∧
      (s'.pc = .receiving fd todo ↔ stop = false) := by
  simp only [step, hpc, recv, hp, bind, Except.bind]
  cases stop with
  | false => exact ⟨_, rfl, rfl, by simp⟩
  | true => exact ⟨_, rfl, rfl, by simp [close, epollCtl, log]⟩

theorem recv_error {f : Fault} (hpc : s.pc = .receiving fd todo)
    (hp : s.recvBuf.pass r = .error f) : s.step (.recv r) = .error f := by
  simp only [step, hpc, recv, hp, bind, Except.bind]

/-- The loop of `apps/server.cpp` on the client `fd`. -/
def receiver (fd : Fd) (todo : List EpollEvent) : Receiver BUFFER_LENGTH Server where
  buffer := recvBuf
  inside s := s.pc = .receiving fd todo
  recv s r := s.step (.recv r)
  recv_ok := recv_ok
  recv_error := recv_error

end ChatServer.Server

namespace Client
variable {c : Client} {r : RecvResult}

theorem recv_ok {stop : Bool} {b : RecvBuf BUFFER_LENGTH} (hp : c.recvBuf.pass r = .ok (stop, b)) :
    ∃ c', c.step (.recv r) = .ok c' ∧ c'.recvBuf = b ∧ (c'.pc = .receiving ↔ stop = false) := by
  simp only [step, recv, hp, bind, Except.bind]
  exact ⟨_, rfl, rfl, by cases stop <;> simp⟩

theorem recv_error {f : Fault} (hp : c.recvBuf.pass r = .error f) :
    c.step (.recv r) = .error f := by
  simp only [step, recv, hp, bind, Except.bind]

/-- The loop of `apps/client.cpp`. -/
def receiver : Receiver BUFFER_LENGTH Client where
  buffer := recvBuf
  inside c := c.pc = .receiving
  recv c r := c.step (.recv r)
  recv_ok _ := recv_ok
  recv_error _ := recv_error

end Client

/-- The receive loops of the three programs. -/
inductive Loop
  | recvCallback (c : Reactor.ConnId) (todo : List Reactor.Ready)
  | server (fd : Fd) (todo : List EpollEvent)
  | client

namespace Loop

def capacity : Loop → Nat
  | recvCallback .. => Reactor.RECV_BUFFER_LENGTH
  | server .. => ChatServer.BUFFER_LENGTH
  | client => Client.BUFFER_LENGTH

def State : Loop → Type
  | recvCallback .. => Reactor.World
  | server .. => ChatServer.Server
  | client => Client

def receiver : (l : Loop) → Receiver l.capacity l.State
  | recvCallback c todo => Reactor.World.receiver c todo
  | server fd todo => ChatServer.Server.receiver fd todo
  | client => Client.receiver

theorem capacity_lt (l : Loop) : l.capacity < 2 ^ 64 := by
  have h : Reactor.RECV_BUFFER_LENGTH < 2 ^ 64 ∧ ChatServer.BUFFER_LENGTH < 2 ^ 64 ∧
      Client.BUFFER_LENGTH < 2 ^ 64 := by decide
  cases l with
  | recvCallback => exact h.1
  | server => exact h.2.1
  | client => exact h.2.2

end Loop

/-! ## Runs of a loop -/

/-- The bytes that the results of a run deliver. -/
def received {σ : Type} (xs : List (σ × RecvResult)) : List Byte := xs.flatMap fun x => x.2.data

theorem received_snoc {σ : Type} {xs : List (σ × RecvResult)} {s : σ} {r : RecvResult} :
    received (xs ++ [(s, r)]) = received xs ++ r.data := by
  simp [received]

namespace Receiver
variable {n : Nat} {σ : Type} (R : Receiver n σ)

/-- A pass through the loop, with a result that fits what `recv` was asked for. -/
def Step (s : σ) (r : RecvResult) (s' : σ) : Prop :=
  R.inside s ∧ r.Fits (R.buffer s).request ∧ R.recv s r = .ok s'

variable {R} {s t : σ} {r : RecvResult} {xs : List (σ × RecvResult)}

/-- What a pass does: it ends the loop, it stores bytes, or it takes an error for a length. -/
theorem Step.cases (h : R.Step s r t) :
    (¬ R.inside t ∧ r.data = [] ∧ r.Clean ∧ R.buffer t = R.buffer s) ∨
    (∃ bs b, r = .bytes bs ∧ bs ≠ [] ∧ R.inside t ∧
      (R.buffer s).buf.store? (R.buffer s).len bs = some b ∧
      R.buffer t = ⟨b, (R.buffer s).len + bs.length⟩) ∨
    (∃ e, r = .fail e ∧ ¬ r.Clean ∧ R.inside t ∧
      R.buffer t = { R.buffer s with len := (R.buffer s).len - 1 }) := by
  obtain ⟨hin, hfits, h⟩ := h
  have hne := hfits.ne_nil
  cases hp : (R.buffer s).pass r with
  | error f =>
    have herr := R.recv_error hin hp
    rw [h] at herr
    cases herr
  | ok p =>
    obtain ⟨stop, b⟩ := p
    obtain ⟨t', ht, hb, hstop⟩ := R.recv_ok hin hp
    cases h.symm.trans ht
    rcases RecvBuf.pass_cases hne hp with ⟨hst, hd, hb'⟩ | ⟨bs, b', rfl, hst, hstore, hb'⟩ |
      ⟨e, rfl, he, he', hst, hb'⟩
    · have hclean : r.Clean := clean_of_stops ((RecvBuf.pass_stops hp).symm.trans hst)
      refine .inl ⟨fun hin' => ?_, hd, hclean, hb.trans hb'⟩
      cases hst.symm.trans (hstop.mp hin')
    · exact .inr (.inl ⟨bs, b', rfl, hfits.1, hstop.mpr hst, hstore, hb.trans hb'⟩)
    · exact .inr (.inr ⟨e, rfl, fun hc => hc.elim he he', hstop.mpr hst, hb.trans hb'⟩)

/-- A pass stores what is received behind what is held. -/
theorem Step.holds {bs : List Byte} (h : R.Step s r t) (hr : r.Clean)
    (hb : (R.buffer s).Holds bs) : (R.buffer t).Holds (bs ++ r.data) := by
  rcases h.cases with ⟨-, hd, -, he⟩ | ⟨cs, b, rfl, -, -, hst, he⟩ | ⟨e, -, hdirty, -⟩
  · rw [he, hd, List.append_nil]
    exact hb
  · rw [he]
    exact hb.store hst
  · exact absurd hr hdirty

/-- A pass after which the loop goes on has received something. -/
theorem Step.data_ne_nil (h : R.Step s r t) (hr : r.Clean) (hin : R.inside t) : r.data ≠ [] := by
  rcases h.cases with ⟨hout, -⟩ | ⟨cs, b, rfl, hcs, -⟩ | ⟨e, -, hdirty, -⟩
  · exact absurd hin hout
  · exact hcs
  · exact absurd hr hdirty

/-- What has been gathered leaves room for every result that fits the request. -/
theorem step_total {bs : List Byte} (hn : n < 2 ^ 64) (hin : R.inside s)
    (h : (R.buffer s).Gathers bs) (hr : r.Fits (R.buffer s).request) : ∃ t, R.Step s r t := by
  obtain ⟨⟨stop, b⟩, hp⟩ := RecvBuf.pass_ok h hn hr
  obtain ⟨t, ht, -⟩ := R.recv_ok hin hp
  exact ⟨t, hin, hr, ht⟩

/-- A clean run on a cleared buffer holds what it has received, and every pass but the last has
received something. -/
theorem holds_received (h0 : R.buffer s = ⟨.zero n, 0⟩) (hx : Exec R.Step s xs t)
    (hclean : ∀ x ∈ xs, x.2.Clean) : (R.buffer t).Holds (received xs) ∧
      xs.length ≤ (received xs).length + 1 ∧ (R.inside t → xs.length ≤ (received xs).length) := by
  induction hx with
  | nil =>
    rw [h0]
    exact ⟨⟨Buf.zero_holds, rfl⟩, Nat.zero_le _, fun _ => Nat.zero_le _⟩
  | @snoc xs t r u _ hst ih =>
    obtain ⟨hholds, -, hlen⟩ := ih fun x hx => hclean x (List.mem_append_left _ hx)
    have hr : r.Clean := hclean (t, r) (by simp)
    have hlen := hlen hst.1
    rw [received_snoc, List.length_append, List.length_append, List.length_singleton]
    refine ⟨hst.holds hr hholds, by omega, ?_⟩
    intro hin
    have hpos : 0 < r.data.length := List.length_pos_iff.mpr (hst.data_ne_nil hr hin)
    omega

end Receiver

/-! ## Reassembly -/

/-- A run of the loop `l` on a cleared buffer: the results are the stream `stream` in chunks, its
end and that there is nothing yet. -/
structure Loop.Reads (l : Loop) (stream : List Byte) (s : l.State)
    (xs : List (l.State × RecvResult)) (t : l.State) : Prop where
  start : l.receiver.buffer s = ⟨.zero _, 0⟩
  run : Exec l.receiver.Step s xs t
  clean : ∀ x ∈ xs, x.2.Clean
  data : received xs <+: stream

/-- The loops gather the stream and end after at most one `recv` more than the buffer has bytes,
and before that no result is a fault. How the stream is cut into chunks makes no difference. -/
theorem Loop.reassembles {l : Loop} {stream : List Byte} {s t : l.State}
    {xs : List (l.State × RecvResult)} {k : Nat} (h : l.Reads stream s xs t)
    (hk : (received xs).length = k) :
    (xs.length ≤ l.capacity + 1 ∧ (l.receiver.inside t → xs.length ≤ l.capacity ∧
      ∀ r, r.Fits (l.receiver.buffer t).request → ∃ u, l.receiver.Step t r u)) ∧
    (k ≤ l.capacity ∧ (l.receiver.buffer t).len = k ∧
      (l.receiver.buffer t).buf.bytes = stream.take k ++ List.replicate (l.capacity - k) 0) ∧
    ∀ s' ys t', l.Reads stream s' ys t' → (received ys).length = k →
      l.receiver.buffer t' = l.receiver.buffer t := by
  subst hk
  obtain ⟨⟨hbuf, hlen⟩, hpasses, hinside⟩ := Receiver.holds_received h.start h.run h.clean
  have hle := hbuf.length_le
  have htake : stream.take (received xs).length = received xs :=
    (List.prefix_iff_eq_take.mp h.data).symm
  refine ⟨⟨hpasses.trans (Nat.succ_le_succ hle), fun hin => ⟨(hinside hin).trans hle, ?_⟩⟩,
    ⟨hle, hlen, ?_⟩, ?_⟩
  · intro r hr
    have hgathers := RecvBuf.Holds.gathers ⟨hbuf, hlen⟩
    exact Receiver.step_total l.capacity_lt hin hgathers hr
  · rw [htake]
    exact hbuf
  · intro s' ys t' h' hk
    obtain ⟨⟨hbuf', hlen'⟩, -⟩ := Receiver.holds_received h'.start h'.run h'.clean
    have hsame : received ys = received xs := by
      rw [List.prefix_iff_eq_take.mp h'.data, hk, htake]
    rw [hsame] at hbuf' hlen'
    have hb : (l.receiver.buffer t').buf = (l.receiver.buffer t).buf := Buf.ext (hbuf'.trans hbuf.symm)
    have hl : (l.receiver.buffer t').len = (l.receiver.buffer t).len := hlen'.trans hlen.symm
    cases hbt : l.receiver.buffer t
    cases hbt' : l.receiver.buffer t'
    rw [hbt, hbt'] at hb hl
    cases hb
    cases hl
    rfl

theorem received_eq {σ : Type} {xs : List (σ × RecvResult)} {rs : List RecvResult}
    (h : xs.map Prod.snd = rs) : received xs = rs.flatMap RecvResult.data := by
  rw [← h, List.flatMap_map]
  rfl

/-- A step of the client that answers `recv` is a pass through its loop. -/
theorem Client.step_receiver {c c' : Client} {r : RecvResult} (h : c.step? (.recv r) = some c') :
    Client.receiver.Step c r c' := by
  obtain ⟨hl, h⟩ := Client.step_of_step? h
  exact ⟨hl.1, hl.2, h⟩

theorem Loop.reassembles_hi : ∃ (t : Client) (xs : List (Client × RecvResult)),
    Loop.client.Reads [104, 105, 33] { Client.start [] (.zero _) with pc := .receiving } xs t ∧
    t.buffer.bytes = [104, 105] ++ List.replicate 1022 0 := by
  have hrun : (Exec.runs (fun c r => Client.step? c (.recv r))
      { Client.start [] (.zero _) with pc := .receiving }
      [.bytes [104], .bytes [105], .fail .EAGAIN]).any fun c => c.rlen = 2 := by decide +kernel
  obtain ⟨t, ht, -⟩ := (Option.any_eq_true ..).mp hrun
  obtain ⟨xs, hx, hrs⟩ := Exec.of_runs Client.step_receiver ht
  have hk : received xs = [104, 105] := received_eq hrs
  have hlen : (received xs).length = 2 := by rw [hk]; rfl
  have hclean : ∀ x ∈ xs, x.2.Clean := Exec.forall_labels hrs (by decide)
  have hreads : Loop.client.Reads [104, 105, 33]
      { Client.start [] (.zero _) with pc := .receiving } xs t :=
    ⟨rfl, hx, hclean, ⟨[33], congrArg (· ++ [33]) hk⟩⟩
  exact ⟨t, xs, hreads, (Loop.reassembles hreads hlen).2.1.2.2⟩

end OnlineChat
