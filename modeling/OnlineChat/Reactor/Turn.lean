import OnlineChat.Lib.Lens
import OnlineChat.Reactor.Dispatch

/-!
# The turn of one connection

In its turn a client connection is read from and registered for sending, or written to and
deleted. All that is read and written of the state is its `Cell`: the object, its descriptor with
the registration, the socket, the `InetAddress` and the entry in `connMap`. `Loc.turn` is the turn
on the cell alone, and `World.runs_turn` says that the server does just that, whatever the rest of
the state.
-/

namespace OnlineChat.Reactor
open Lib Function

/-- What a system call in a callback returns. -/
inductive Answer
  | recv (r : RecvResult)
  | write (n : Nat) (past : List Byte)

def Answer.act : Answer → Act
  | recv r => .recv r
  | write n past => .write n past

/-- The places of a client connection. -/
structure Loc where
  conn : ConnId
  fd : Nat
  sock : SockId
  inet : InetId

/-- What is there. -/
structure Cell where
  conn : Option Connection
  file : Option File
  interest : Option EpollEvent
  sock : Sock
  inet : Bool
  mapped : Option ConnId

namespace Loc
variable (ℓ : Loc)

def get (w : World) : Cell where
  conn := w.heap ℓ.conn
  file := w.kernel.files ℓ.fd
  interest := w.kernel.interest ℓ.fd
  sock := w.kernel.socks ℓ.sock
  inet := w.inets ℓ.inet
  mapped := w.connMap ℓ.fd

def put (x : Cell) (w : World) : World :=
  { w with
    kernel := { w.kernel with
      files := update w.kernel.files ℓ.fd x.file
      interest := update w.kernel.interest ℓ.fd x.interest
      socks := update w.kernel.socks ℓ.sock x.sock }
    heap := update w.heap ℓ.conn x.conn
    inets := update w.inets ℓ.inet x.inet
    connMap := update w.connMap ℓ.fd x.mapped }

theorem get_put (x : Cell) (w : World) : ℓ.get (ℓ.put x w) = x := by
  simp [get, put]

theorem put_get (w : World) : ℓ.put (ℓ.get w) w = w := by
  simp [get, put]

theorem put_put (x y : Cell) (w : World) : ℓ.put x (ℓ.put y w) = ℓ.put x w := by
  simp [put]

/-- The cell as a part of the state. -/
def cell : Lens World Cell where
  get := ℓ.get
  put := ℓ.put
  get_put := ℓ.get_put _ _
  put_get := ℓ.put_get _
  put_put := ℓ.put_put _ _ _

/-- Two connections that share nothing have independent cells. -/
theorem cell_disjoint {ℓ m : Loc} (hc : ℓ.conn ≠ m.conn) (hfd : ℓ.fd ≠ m.fd)
    (hs : ℓ.sock ≠ m.sock) (ha : ℓ.inet ≠ m.inet) : ℓ.cell.Disjoint m.cell := by
  intro x y w
  have hfd' : (ℓ.fd : Fd) ≠ m.fd := fun h => hfd (Int.natCast_inj.mp h)
  simp only [cell, put, update_comm hc, update_comm hfd, update_comm hfd', update_comm hs,
    update_comm ha]

end Loc

/-- Where a turn is, after its beginning. -/
inductive Phase
  | receiving
  | writing
  | done
  deriving DecidableEq

def Phase.pc (c : ConnId) (todo : List Ready) : Phase → Pc
  | receiving => .receiving c todo
  | writing => .writing c todo
  | done => .dispatch todo

/-- What a turn has made of its cell, and what it has added to the trace. -/
structure Turn where
  phase : Phase
  cell : Cell
  events : List Event

/-- What `recv` may return on this socket when `len` bytes are asked for. -/
def CanGive (x : Sock) (len : Nat) : RecvResult → Prop
  | .bytes bs => bs ≠ [] ∧ bs.length ≤ len ∧ bs.isPrefixOf (x.sent.drop x.got) = true
  | .eof | .fail _ => True

instance (x : Sock) (len : Nat) : DecidablePred (CanGive x len)
  | .bytes _ => inferInstanceAs (Decidable (_ ∧ _ ∧ _))
  | .eof | .fail _ => .isTrue trivial

namespace Loc
variable (ℓ : Loc)

/-- The dispatch: nothing, or a callback up to its first system call. -/
def enter (x : Cell) (conn : Connection) : Option Turn :=
  match conn.selected with
  | none => some ⟨.done, x, []⟩
  | some (some ⟨.recvCallback, _⟩) =>
    some ⟨.receiving, { x with conn := some conn.rBufferClear }, [.started .recvCallback ℓ.conn]⟩
  | some (some ⟨.sendCallback, _⟩) =>
    conn.strcpy.toOption.map fun conn =>
      ⟨.writing, { x with conn := some (conn.setWLen conn.rlen) }, [.started .sendCallback ℓ.conn]⟩
  | _ => none

/-- `recv` returns `r`. -/
def recv (t : Turn) (conn : Connection) (r : RecvResult) : Option Turn :=
  if CanGive t.cell.sock conn.recvBuf.request r then
    match conn.recvBuf.pass r with
    | .ok (false, b) => some { t with cell := { t.cell with
        conn := some (conn.setRecvBuf b)
        sock := { t.cell.sock with got := t.cell.sock.got + r.data.length } } }
    | .ok (true, _) => some ⟨.done, { t.cell with
        conn := some (conn.setEvent EPOLLOUT)
        interest := some ⟨EPOLLOUT, ℓ.fd⟩ }, t.events ++
          [.ctl .EPOLL_CTL_MOD ℓ.fd true, .finished .recvCallback ℓ.conn]⟩
    | .error _ => none
  else none

/-- `write` takes `n` bytes. -/
def write (t : Turn) (conn : Connection) (n : Nat) (past : List Byte) : Option Turn :=
  if n ≤ SEND_BUFFER_LENGTH + past.length ∧ n ≤ toSizeT conn.wlen then
    some ⟨.done, {
        conn := none
        file := none
        interest := none
        sock := { t.cell.sock with
          written := t.cell.sock.written ++ (conn.wbuffer.bytes ++ past).take n
          closed := true }
        inet := false
        mapped := none }, t.events ++ [.ctl .EPOLL_CTL_DEL ℓ.fd true, .closed ℓ.fd,
          .deleted ℓ.conn, .finished .sendCallback ℓ.conn]⟩
  else none

def answer (t : Turn) (a : Answer) : Option Turn :=
  match t.phase, t.cell.conn, a with
  | .receiving, some conn, .recv r => ℓ.recv t conn r
  | .writing, some conn, .write n past => ℓ.write t conn n past
  | _, _, _ => none

/-- A turn in which the system calls return `as`. -/
def turn (as : List Answer) (x : Cell) : Option Turn :=
  x.conn.bind fun conn => (ℓ.enter x conn).bind fun t => as.foldlM ℓ.answer t

end Loc

/-- The cell of a live client connection. -/
structure Cell.Client (x : Cell) (ℓ : Loc) (cn : Connection) : Prop where
  conn : x.conn = some cn
  fd : cn.fd = ℓ.fd
  inetAddr : cn.inetAddr = some ℓ.inet
  inet : x.inet = true
  file : x.file = some (.conn ℓ.sock)
  interest : x.interest.isSome = true
  inEpoll : cn.inEpoll = true
  recvCallback : cn.recvCallback = some ⟨.recvCallback, ℓ.conn⟩
  sendCallback : cn.sendCallback = some ⟨.sendCallback, ℓ.conn⟩

/-- The state in which the turn `t` of a connection has left the server. -/
def World.advance (u : World) (ℓ : Loc) (todo : List Ready) (t : Turn) : World :=
  { ℓ.put t.cell u with pc := t.phase.pc ℓ.conn todo, trace := u.trace ++ t.events }

/-! ## The server on a cell -/

section
variable {ℓ : Loc} {u v : World} {todo : List Ready} {conn : Connection} {t : Turn}

theorem World.step?_of_legal {a : Act} (hl : u.Legal a) : u.step? a = (u.step a).toOption :=
  if_pos hl

theorem World.step?_of_not {a : Act} (hl : ¬ u.Legal a) : u.step? a = none := if_neg hl

/-- What `Loc.put` changes when only the object is written. -/
theorem Loc.put_conn {x : Cell} {y : Option Connection} :
    ℓ.put { x with conn := y } u = { ℓ.put x u with heap := update u.heap ℓ.conn y } := rfl

theorem World.step_next {r : Ready} (hx : (ℓ.get u).Client ℓ conn) (hr : r.conn = ℓ.conn)
    (hpc : u.pc = .dispatch (r :: todo)) :
    u.step? .next = (ℓ.enter (ℓ.get u) conn).map (u.advance ℓ todo) := by
  have hc : u.heap ℓ.conn = some conn := hx.conn
  have hl : u.Legal .next := by
    simp only [World.Legal, hpc]
  have hsel : conn.selected = none ∨ conn.selected = some conn.recvCallback ∨
      conn.selected = some conn.sendCallback := by
    unfold Connection.selected
    split_ifs <;> simp
  have hadv : ∀ y, (ℓ.put { ℓ.get u with conn := y } u) = { u with heap := update u.heap ℓ.conn y } := by
    intro y
    rw [Loc.put_conn, Loc.put_get]
  rw [World.step?_of_legal hl]
  simp only [World.step, hpc]
  rw [World.dispatch_cons (hr ▸ hc)]
  rcases hsel with h0 | h0 | h0
  · rw [h0, Loc.enter, h0]
    simp only [Except.toOption, Option.map_some, World.advance, Loc.put_get, List.append_nil, Phase.pc]
  · rw [h0, Loc.enter, h0, hx.recvCallback]
    simp only [World.call, recvCallback.enter, World.modify_of_live hc, bind, Except.bind, pure,
      Except.pure, Except.toOption, Option.map_some, World.advance, hadv, Phase.pc, World.put]
  · rw [h0, Loc.enter, h0, hx.sendCallback]
    simp only [World.call, sendCallback.enter, World.deref_eq_ok.mpr hc, bind, Except.bind, pure,
      Except.pure]
    cases conn.strcpy with
    | error f => rfl
    | ok conn' =>
      simp only [Except.toOption, Option.map_some, World.advance, hadv, Phase.pc, World.put]

theorem canRecv_iff {k : Kernel} {fd : Fd} {s : SockId} (h : k.file fd = some (.conn s)) {len : Nat}
    {r : RecvResult} : k.CanRecv fd len r ↔ CanGive (k.socks s) len r := by
  cases r with
  | bytes bs => simp [Kernel.CanRecv, CanGive, Kernel.sockOf_eq_some.mpr h]
  | eof | fail => rfl

/-- A descriptor number is a number of the table. -/
theorem Cell.Client.file_eq (hx : (ℓ.get v).Client ℓ conn) :
    v.kernel.file conn.fd = some (.conn ℓ.sock) := by
  rw [hx.fd]
  exact hx.file

theorem World.advance_get : ℓ.get (u.advance ℓ todo t) = t.cell := ℓ.get_put t.cell u

theorem World.recv_advance {r : RecvResult} (hx : t.cell.Client ℓ conn)
    (hp : t.phase = .receiving) :
    (u.advance ℓ todo t).step? (.recv r) = (ℓ.recv t conn r).map (u.advance ℓ todo) := by
  obtain ⟨v, hv⟩ : ∃ v, v = u.advance ℓ todo t := ⟨_, rfl⟩
  have hget : ℓ.get v = t.cell := hv ▸ World.advance_get
  have hpc : v.pc = .receiving ℓ.conn todo := by
    rw [hv, World.advance, hp]
    rfl
  have hx' : (ℓ.get v).Client ℓ conn := hget ▸ hx
  have hc : v.heap ℓ.conn = some conn := hx'.conn
  have hf := hx'.file_eq
  have hlegal : v.Legal (.recv r) ↔ CanGive t.cell.sock conn.recvBuf.request r := by
    have hsock : v.kernel.socks ℓ.sock = t.cell.sock := congrArg Cell.sock hget
    simp only [World.Legal, hpc, hc, Option.mem_def, Option.some.injEq, forall_eq', canRecv_iff hf,
      hsock]
  rw [← hv, Loc.recv]
  by_cases hg : CanGive t.cell.sock conn.recvBuf.request r
  · have hne : r ≠ .bytes [] := by
      rintro rfl
      exact hg.1 rfl
    rw [World.step?_of_legal (hlegal.mpr hg), if_pos hg,
      World.step_recv hpc hc hx'.inEpoll hne]
    cases hpass : conn.recvBuf.pass r with
    | error f => rfl
    | ok p =>
      obtain ⟨stop, b⟩ := p
      cases stop with
      | false =>
        refine congrArg some ?_
        rw [World.received, Kernel.recv_conn hf, hv]
        simp [World.advance, World.put, Loc.put]
      | true =>
        refine congrArg some ?_
        obtain ⟨hok, hctl⟩ := @Kernel.ctl_mod v.kernel conn.fd ⟨EPOLLOUT, conn.fd⟩ (by rw [hf]; rfl)
          (by rw [hx'.fd]; exact hx'.interest)
        simp only [World.rearmed, World.put,
          Kernel.recv_of_data_nil (RecvBuf.pass_true hne hpass).1, hok, hctl]
        rw [hv, hx.fd]
        simp [World.advance, Loc.put, Phase.pc]
  · rw [World.step?_of_not (mt hlegal.mp hg), if_neg hg]
    rfl

theorem World.write_advance {n : Nat} {past : List Byte} (hx : t.cell.Client ℓ conn)
    (hp : t.phase = .writing) :
    (u.advance ℓ todo t).step? (.write n past) = (ℓ.write t conn n past).map (u.advance ℓ todo) := by
  obtain ⟨v, hv⟩ : ∃ v, v = u.advance ℓ todo t := ⟨_, rfl⟩
  have hget : ℓ.get v = t.cell := hv ▸ World.advance_get
  have hpc : v.pc = .writing ℓ.conn todo := by
    rw [hv, World.advance, hp]
    rfl
  have hx' : (ℓ.get v).Client ℓ conn := hget ▸ hx
  have hc : v.heap ℓ.conn = some conn := hx'.conn
  have hlegal : v.Legal (.write n past) ↔
      n ≤ SEND_BUFFER_LENGTH + past.length ∧ n ≤ toSizeT conn.wlen := by
    simp only [World.Legal, hpc, hc, Option.mem_def, Option.some.injEq, forall_eq']
  rw [← hv, Loc.write]
  by_cases hg : n ≤ SEND_BUFFER_LENGTH + past.length ∧ n ≤ toSizeT conn.wlen
  · rw [World.step?_of_legal (hlegal.mpr hg), if_pos hg]
    have hlive : ∀ a, conn.inetAddr = some a → v.inets a = true := by
      intro a ha
      rw [hx'.inetAddr] at ha
      cases ha
      exact hx'.inet
    rw [World.step_write hpc hc hx'.inEpoll hlive]
    refine congrArg some ?_
    have hf : v.kernel.file ℓ.fd = some (.conn ℓ.sock) := hx'.file
    obtain ⟨hok, hdrop⟩ := Kernel.drop_conn hf hx'.interest ((conn.wbuffer.bytes ++ past).take n)
    simp only [World.dropped, hx.fd, hx.inetAddr, hok, hdrop]
    rw [hv]
    simp [World.advance, Loc.put, Phase.pc]
  · rw [World.step?_of_not (mt hlegal.mp hg), if_neg hg]
    rfl

theorem World.answer_advance {a : Answer}
    (hx : t.phase ≠ .done → ∃ conn, t.cell.Client ℓ conn) :
    (u.advance ℓ todo t).step? a.act = (ℓ.answer t a).map (u.advance ℓ todo) := by
  cases hp : t.phase with
  | receiving =>
    obtain ⟨conn, hx⟩ := hx (by rw [hp]; decide)
    cases a with
    | recv r =>
      rw [Answer.act, World.recv_advance hx hp]
      simp only [Loc.answer, hp, hx.conn]
    | write n past =>
      rw [Answer.act, World.step?_of_not (by simp [World.Legal, World.advance, hp, Phase.pc])]
      simp only [Loc.answer, hp, hx.conn, Option.map_none]
  | writing =>
    obtain ⟨conn, hx⟩ := hx (by rw [hp]; decide)
    cases a with
    | recv r =>
      rw [Answer.act, World.step?_of_not (by simp [World.Legal, World.advance, hp, Phase.pc])]
      simp only [Loc.answer, hp, hx.conn, Option.map_none]
    | write n past =>
      rw [Answer.act, World.write_advance hx hp]
      simp only [Loc.answer, hp, hx.conn]
  | done =>
    rw [World.step?_of_not (by cases a <;> simp [World.Legal, World.advance, hp, Phase.pc, Answer.act])]
    simp only [Loc.answer, hp, Option.map_none]

/-- Buffers, lengths and events can change. -/
theorem Cell.Client.congr {x y : Cell} {conn' : Connection} (h : x.Client ℓ conn)
    (hy : y.conn = some conn') (hcell : y.file = x.file ∧ y.inet = x.inet ∧ y.interest = x.interest)
    (hconn : conn'.fd = conn.fd ∧ conn'.inetAddr = conn.inetAddr ∧ conn'.inEpoll = conn.inEpoll ∧
      conn'.recvCallback = conn.recvCallback ∧ conn'.sendCallback = conn.sendCallback) :
    y.Client ℓ conn' := by
  obtain ⟨hfile, hinet, hint⟩ := hcell
  obtain ⟨hfd, haddr, hin, hr, hs⟩ := hconn
  exact ⟨hy, hfd.trans h.fd, haddr.trans h.inetAddr, hinet.trans h.inet, hfile.trans h.file,
    hint ▸ h.interest, hin.trans h.inEpoll, hr.trans h.recvCallback, hs.trans h.sendCallback⟩

theorem Loc.enter_client {x : Cell} (hx : x.Client ℓ conn) (h : ℓ.enter x conn = some t) :
    ∃ conn', t.cell.Client ℓ conn' := by
  unfold Loc.enter at h
  split at h
  · cases h
    exact ⟨conn, hx⟩
  · cases h
    exact ⟨_, hx.congr rfl ⟨rfl, rfl, rfl⟩ ⟨rfl, rfl, rfl, rfl, rfl⟩⟩
  · cases hs : conn.strcpy with
    | error f =>
      rw [hs] at h
      cases h
    | ok conn' =>
      rw [hs] at h
      cases h
      obtain ⟨wb, rfl⟩ := Connection.strcpy_eq hs
      exact ⟨_, hx.congr rfl ⟨rfl, rfl, rfl⟩ ⟨rfl, rfl, rfl, rfl, rfl⟩⟩
  · cases h

theorem Loc.answer_client {a : Answer} {t' : Turn}
    (hx : t.phase ≠ .done → ∃ conn, t.cell.Client ℓ conn) (h : ℓ.answer t a = some t') :
    t'.phase ≠ .done → ∃ conn, t'.cell.Client ℓ conn := by
  intro hp'
  unfold Loc.answer at h
  split at h
  next hp hc =>
    obtain ⟨conn, hx⟩ := hx (by rw [hp]; decide)
    rw [hx.conn] at hc
    cases hc
    unfold Loc.recv at h
    split at h
    · split at h <;> cases h
      · exact ⟨_, hx.congr rfl ⟨rfl, rfl, rfl⟩ ⟨rfl, rfl, rfl, rfl, rfl⟩⟩
      · exact absurd rfl hp'
    · cases h
  next hp hc =>
    unfold Loc.write at h
    split at h <;> cases h
    exact absurd rfl hp'
  · cases h

theorem World.runs_answers {as : List Answer}
    (hx : t.phase ≠ .done → ∃ conn, t.cell.Client ℓ conn) :
    Exec.runs World.step? (u.advance ℓ todo t) (as.map Answer.act) =
      (as.foldlM ℓ.answer t).map (u.advance ℓ todo) := by
  induction as generalizing t with
  | nil => rfl
  | cons a as ih =>
    rw [List.map_cons, Exec.runs, List.foldlM_cons, List.foldlM_cons, World.answer_advance hx]
    cases ha : ℓ.answer t a with
    | none => rfl
    | some t' => exact ih (Loc.answer_client hx ha)

/-- The turn of a connection is `Loc.turn` on its cell. -/
theorem World.runs_turn {r : Ready} {as : List Answer} (hx : (ℓ.get u).Client ℓ conn)
    (hr : r.conn = ℓ.conn) (hpc : u.pc = .dispatch (r :: todo)) :
    Exec.runs World.step? u (.next :: as.map Answer.act) =
      (ℓ.turn as (ℓ.get u)).map (u.advance ℓ todo) := by
  rw [Exec.runs, List.foldlM_cons, World.step_next hx hr hpc, Loc.turn, hx.conn, Option.bind_some]
  cases he : ℓ.enter (ℓ.get u) conn with
  | none => rfl
  | some t => exact World.runs_answers fun _ => Loc.enter_client hx he

end
end OnlineChat.Reactor
