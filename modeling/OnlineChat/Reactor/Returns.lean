import OnlineChat.Reactor.Dispatch
import OnlineChat.Reactor.Streams

/-!
# The loop comes back to epoll_wait

As long as `recv` reports nothing but data, the end of the stream or that there is no data yet, the
server goes wrong nowhere, unless a client has filled the receive buffer with bytes that are not
NUL: then `printf` and `strcpy` run past it (`World.Uses`). And no turn of its loop goes on for
ever, however fast the clients send: `World.left` counts down with every step of a turn, whatever
arrives in between, and a run of the turn can be continued until it has come to zero. `write` is
taken to return: the program neither handles nor ignores the SIGPIPE that it raises on a connection
which the client has reset.
-/

namespace OnlineChat.Reactor
open Lib Function

theorem zero_mem_intBytes {n : Nat} (h : n < 2 ^ 24) : (0 : Byte) ∈ intBytes n := by
  have hmod : ((n : Int) % 2 ^ 32).toNat = n := by omega
  refine List.mem_map.mpr ⟨3, by simp, ?_⟩
  rw [hmod, Nat.div_eq_of_lt (by simpa using h)]
  rfl

/-- The length that follows `rbuffer` in the object ends the string in it. -/
theorem Connection.strcpy_ok {c : Connection} {bs : List Byte} (h : c.recvBuf.Gathers bs) :
    ∃ c', c.strcpy = .ok c' := by
  have hlen := h.length_le
  have hrlen : c.rlen = bs.length := h.1
  have hz : (0 : Byte) ∈ intBytes c.rlen := by
    rw [hrlen]
    apply zero_mem_intBytes
    exact Nat.lt_of_le_of_lt hlen (by decide)
  exact ⟨_, if_pos (List.mem_append_right _ hz)⟩

/-- What holds in every state of a run without receive errors. -/
structure World.Sound (w : World) : Prop where
  inv : w.Inv
  history : w.HistoryOk
  streams : w.Streams

/-- The steps that a turn of the loop consists of. -/
def Act.inTurn : Act → Bool
  | .next | .accept .. | .recv _ | .write .. => true
  | .connect | .segment .. | .wait _ => false

/-- The steps that the entries of `readyConns` may take, and the one back to `epoll_wait`. -/
def turnsLeft (todo : List Ready) : Nat := (RECV_BUFFER_LENGTH + 2) * todo.length + 1

/-- The passes that the receive loop may still make. -/
def Connection.passesLeft (conn : Connection) : Nat := RECV_BUFFER_LENGTH + 1 - conn.rlen.toNat

/-- How many steps the turn may still take. -/
def World.left (w : World) : Nat :=
  match w.pc with
  | .waiting => 0
  | .dispatch todo => turnsLeft todo
  | .accepting _ todo | .writing _ todo => turnsLeft todo + 1
  | .receiving c todo => turnsLeft todo + ((w.heap c).map Connection.passesLeft).getD 0

theorem turnsLeft_cons (r : Ready) (todo : List Ready) :
    turnsLeft (r :: todo) = turnsLeft todo + (RECV_BUFFER_LENGTH + 2) := by
  rw [turnsLeft, turnsLeft, List.length_cons, Nat.mul_succ]
  omega

section
variable {w w' : World} {c : ConnId} {conn : Connection}

theorem World.left_dispatch {todo : List Ready} (hpc : w.pc = .dispatch todo) :
    w.left = turnsLeft todo := by
  rw [left, hpc]

theorem World.left_receiving {todo : List Ready} (hpc : w.pc = .receiving c todo)
    (hc : w.heap c = some conn) : w.left = turnsLeft todo + conn.passesLeft := by
  simp only [left, hpc, hc, Option.map_some, Option.getD_some]

theorem World.Sound.step {a : Act} (h : w.Sound) (hs : w.Step a w') (ha : a.CleanRecv) :
    w'.Sound := by
  have ht := h.inv.trans hs
  exact ⟨ht.inv h.inv, ht.historyOk h.inv h.history, ht.streams h.inv h.history h.streams ha⟩

theorem Boot.sound {e : Boot} {xs : List (World × Act)} (hb : e.server = some (.ok w))
    (hx : Exec World.Step w xs w') (hclean : ∀ x ∈ xs, x.2.CleanRecv) : w'.Sound :=
  ⟨Boot.inv hb hx, Boot.historyOk hb hx, Boot.streams hb hx hclean⟩

/-- A client connection that is not fresh holds what has been taken from its client. -/
theorem World.Sound.holds (h : w.Sound) (hcs : c ≠ w.servSock) (hc : w.heap c = some conn)
    (hne : conn.fd ≠ -1) (hst : w.stage c ≠ .fresh) :
    ∃ k, w.kernel.file conn.fd = some (.conn k) ∧ conn.recvBuf.Holds (w.taken k) := by
  obtain ⟨k, hf⟩ := h.inv.peer hc hcs hne
  exact ⟨k, hf, (h.streams.conn hcs hc hf).holds hst⟩

theorem World.Sound.receiving_holds (h : w.Sound) {todo : List Ready}
    (hpc : w.pc = .receiving c todo) (hc : w.heap c = some conn) :
    ∃ k, w.kernel.file conn.fd = some (.conn k) ∧ conn.recvBuf.Holds (w.taken k) := by
  obtain ⟨hcs, hne, he⟩ := h.inv.receiving hpc hc
  apply h.holds hcs hc hne
  rw [World.stage_receiving hc he (by rw [hpc]; rfl)]
  intro hst
  cases hst

theorem World.Sound.receiving (h : w.Sound) {todo : List Ready} (hpc : w.pc = .receiving c todo)
    (hc : w.heap c = some conn) : ∃ bs, conn.recvBuf.Gathers bs := by
  obtain ⟨k, -, hk⟩ := h.receiving_holds hpc hc
  exact ⟨_, hk.gathers⟩

/-- A connection whose answer is due holds it. -/
theorem World.Sound.armed_holds (h : w.Sound) {todo : List Ready} (hpc : w.pc = .dispatch todo)
    (hcl : w.Client c EPOLLOUT) (hc : w.heap c = some conn) :
    ∃ k, w.kernel.file conn.fd = some (.conn k) ∧ conn.recvBuf.Holds (w.taken k) := by
  obtain ⟨hcs, conn', hc', hne, he⟩ := hcl
  cases hc.symm.trans hc'
  apply h.holds hcs hc hne
  rw [World.stage_armed hc he (by rw [hpc]; rfl)]
  intro hst
  cases hst

/-- The receive loop has a pass left while it runs. -/
theorem Connection.passesLeft_eq {bs : List Byte} (h : conn.recvBuf.Gathers bs) :
    conn.passesLeft = RECV_BUFFER_LENGTH + 1 - bs.length ∧ bs.length ≤ RECV_BUFFER_LENGTH := by
  have hrlen : conn.rlen = bs.length := h.1
  rw [Connection.passesLeft, hrlen, Int.toNat_natCast]
  exact ⟨rfl, h.length_le⟩

/-- Every step of a turn counts, and what happens outside does not. -/
theorem Trans.left {a : Act} (h : w.Sound) (h' : w'.Sound) (ht : Trans w a w') (ha : a.CleanRecv)
    (hw : ∀ batch, a ≠ .wait batch) : w'.left + a.inTurn.toNat ≤ w.left := by
  cases ht with
  | connect | segment => exact Nat.le_refl _
  | wait => exact absurd rfl (hw _)
  | turn hpc =>
    rw [World.left_dispatch hpc]
    exact Nat.le_refl _
  | skip hpc =>
    rw [World.left_dispatch hpc, turnsLeft_cons, World.left_dispatch rfl]
    simp [Act.inTurn]
  | enterAccept hpc | enterSend hpc =>
    rw [World.left_dispatch hpc, turnsLeft_cons]
    show turnsLeft _ + 1 + 1 ≤ _
    omega
  | @enterRecv r todo conn c conn' hpc =>
    rw [World.left_dispatch hpc, turnsLeft_cons, World.left_receiving rfl (update_self ..)]
    simp only [Connection.passesLeft, Act.inTurn, Bool.toNat_true]
    omega
  | accept hpc => simp [World.left, World.accepted, hpc, Act.inTurn]
  | @recv c todo conn r s hpc hc hr hs =>
    obtain ⟨bs, hg⟩ := h.receiving hpc hc
    obtain ⟨cs, b, rfl, -, rfl⟩ := ha.pass hr.ne_nil hs
    have hpc' : (w.received c conn (.bytes cs) ⟨b, conn.recvBuf.len + cs.length⟩).pc =
      .receiving c todo := hpc
    have hc' : (w.received c conn (.bytes cs) ⟨b, conn.recvBuf.len + cs.length⟩).heap c =
      some (conn.setRecvBuf ⟨b, conn.recvBuf.len + cs.length⟩) := update_self ..
    obtain ⟨bs', hg'⟩ := h'.receiving hpc' hc'
    obtain ⟨hl, hle⟩ := Connection.passesLeft_eq hg
    obtain ⟨hl', hle'⟩ := Connection.passesLeft_eq hg'
    have hlen : bs'.length = bs.length + cs.length := by
      have h₁ : conn.recvBuf.len + cs.length = (bs'.length : Int) := hg'.1
      have h₂ : conn.recvBuf.len = (bs.length : Int) := hg.1
      omega
    have hpos : 0 < cs.length := List.length_pos_iff.mpr hr.1
    rw [World.left_receiving hpc hc, World.left_receiving hpc' hc', hl, hl']
    simp only [Act.inTurn, Bool.toNat_true]
    omega
  | @leaveRecv c todo conn r hpc hc =>
    obtain ⟨bs, hg⟩ := h.receiving hpc hc
    obtain ⟨hl, hle⟩ := Connection.passesLeft_eq hg
    rw [World.left_receiving hpc hc, @World.left_dispatch (w.rearmed c conn todo r) todo rfl, hl]
    simp only [Act.inTurn, Bool.toNat_true]
    omega
  | leaveSend hpc => simp [World.left, World.dropped, hpc, Act.inTurn]

/-- The countdown over a run that `epoll_wait` does not interrupt. -/
theorem World.Sound.countdown {ys : List (World × Act)} (h : w.Sound)
    (hy : Exec World.Step w ys w')
    (hys : ∀ y ∈ ys, y.2.CleanRecv ∧ ∀ batch, y.2 ≠ .wait batch) :
    w'.Sound ∧ w'.left + ys.countP (·.2.inTurn) ≤ w.left := by
  refine @Exec.countdown _ _ _ _ _ _ (fun _ a => a.CleanRecv ∧ ∀ batch, a ≠ .wait batch) World.Sound
    World.left Act.inTurn hy hys h ?_
  intro v a u hv ha hst
  have hu := hv.step hst ha.1
  exact ⟨hu, (hv.inv.trans hst).left hv hu ha.1 ha.2⟩

/-! ## Nothing goes wrong -/

theorem World.Sound.dispatch_ok (h : w.Sound) {todo : List Ready} (hpc : w.pc = .dispatch todo) :
    ∃ w', w.dispatch todo = .ok w' := by
  cases todo with
  | nil => exact ⟨_, rfl⟩
  | cons r todo =>
    have hp := h.inv.pending hpc
    obtain ⟨conn, hr, -⟩ := hp.entry List.mem_cons_self
    rw [World.dispatch_cons hr]
    rcases hp.selected h.inv.registry hr with h0 | ⟨-, h0⟩ | ⟨-, h0⟩ | ⟨hcl, h0⟩ <;> rw [h0]
    · exact ⟨_, rfl⟩
    · exact ⟨_, rfl⟩
    · simp only [World.call, recvCallback.enter, World.modify_of_live hr, bind, Except.bind]
      exact ⟨_, rfl⟩
    · obtain ⟨k, -, hk⟩ := h.armed_holds hpc hcl hr
      obtain ⟨conn', hs⟩ := Connection.strcpy_ok hk.gathers
      simp only [World.call, sendCallback.enter, World.deref_eq_ok.mpr hr, hs, bind, Except.bind]
      exact ⟨_, rfl⟩

theorem World.Sound.recv_ok (h : w.Sound) {todo : List Ready} {r : RecvResult}
    (hpc : w.pc = .receiving c todo) (hl : w.Legal (.recv r)) : ∃ w', w.step (.recv r) = .ok w' := by
  obtain ⟨⟨-, conn, hc, -⟩, -⟩ := h.inv.receiving_client hpc
  simp only [World.Legal, hpc] at hl
  have hl := hl conn hc
  obtain ⟨bs, hg⟩ := h.receiving hpc hc
  obtain ⟨⟨stop, s⟩, hs⟩ := RecvBuf.pass_ok hg (by decide) hl.fits
  rw [World.step_recv hpc hc (h.inv.registry.inEpoll_conn c conn hc) hl.ne_nil, hs]
  cases stop with
  | true => exact ⟨_, rfl⟩
  | false => exact ⟨_, rfl⟩

/-- No step that the kernel allows goes wrong. -/
theorem World.Sound.step_ok {a : Act} (h : w.Sound) (hl : w.Legal a) :
    ∃ w', w.step a = .ok w' := by
  cases a with
  | connect | segment => exact ⟨_, rfl⟩
  | wait batch =>
    obtain ⟨p, hp⟩ := h.inv.wait_ok hl.2.2
    simp only [World.step, hp, bind, Except.bind]
    exact ⟨_, rfl⟩
  | next =>
    simp only [World.Legal] at hl
    split at hl
    next todo hpc =>
      simp only [World.step, hpc]
      exact h.dispatch_ok hpc
    · exact hl.elim
  | accept r junk =>
    simp only [World.Legal] at hl
    split at hl
    next c todo hpc =>
      have hok := @World.acceptCallback_ok w c todo r junk
      simp only [World.step, hpc]
      exact ⟨_, hok⟩
    · exact hl.elim
  | recv r =>
    have hl' := hl
    simp only [World.Legal] at hl'
    split at hl'
    next c todo hpc => exact h.recv_ok hpc hl
    · exact hl'.elim
  | write n past =>
    simp only [World.Legal] at hl
    split at hl
    next c todo hpc =>
      cases hs : w.step (.write n past) with
      | ok v => exact ⟨v, rfl⟩
      | error f => exact absurd hs (World.write_fault h.inv hpc)
    · exact hl.elim

/-- Outside `epoll_wait` there is always an answer that the kernel may give. -/
theorem World.exists_legal (hpc : w.pc ≠ .waiting) :
    ∃ a : Act, a.inTurn = true ∧ a.CleanRecv ∧ w.Legal a := by
  cases h : w.pc with
  | waiting => exact absurd h hpc
  | dispatch todo => exact ⟨.next, rfl, trivial, by simp only [Legal, h]⟩
  | accepting c todo =>
    refine ⟨.accept (-1) Boot.plain.junk, rfl, trivial, ?_⟩
    simp [Legal, h, Kernel.CanAccept, Kernel.CanOpen]
  | receiving c todo =>
    refine ⟨.recv .eof, rfl, trivial, ?_⟩
    simp only [Legal, h]
    exact fun _ _ => trivial
  | writing c todo => exact ⟨.write 0 [], rfl, trivial, by simp [Legal, h]⟩

/-- From inside a turn the server gets back to `epoll_wait`. -/
theorem World.Sound.returns (h : w.Sound) :
    ∃ ys v, Exec World.Step w ys v ∧ v.pc = .waiting ∧
      (∀ y ∈ ys, y.2.inTurn = true ∧ y.2.CleanRecv) ∧ ys.length ≤ w.left := by
  refine Exec.reaches (P := World.Sound) (Q := fun v => v.pc = .waiting)
    (C := fun a : Act => a.inTurn = true ∧ a.CleanRecv) h ?_
  intro v hv hpc
  obtain ⟨a, hturn, ha, hl⟩ := World.exists_legal hpc
  obtain ⟨u, hu⟩ := hv.step_ok hl
  have hst : v.Step a u := ⟨hl, hu⟩
  have hsound := hv.step hst ha
  have hleft := (hv.inv.trans hst).left hv hsound ha (by rintro batch rfl; cases hturn)
  rw [hturn] at hleft
  exact ⟨a, u, ⟨hturn, ha⟩, hst, hsound, hleft⟩

/-! ## The buffers as strings, and the descriptors -/

/-- The step uses the `rbuffer` of `conn` as a C string. -/
inductive World.Uses (w : World) : Act → Connection → Prop
  /-- `printf` at the end of `recvCallback`. -/
  | printf {c todo conn r} : w.pc = .receiving c todo → w.heap c = some conn → r.stops = true →
    Uses w (.recv r) conn
  /-- `strcpy` in `sendCallback`. -/
  | strcpy {r todo conn c conn'} : w.pc = .dispatch (r :: todo) → w.heap r.conn = some conn →
    conn.selected = some (some ⟨.sendCallback, c⟩) → w.heap c = some conn' → Uses w .next conn'

/-- The string ends in the buffer unless a client has filled that without a NUL. -/
theorem World.Sound.uses {a : Act} (h : w.Sound) (hu : w.Uses a conn) :
    ∃ k, w.kernel.file conn.fd = some (.conn k) ∧
      (0 ∉ conn.rbuffer.bytes ↔ (w.taken k).length = RECV_BUFFER_LENGTH ∧ 0 ∉ w.taken k) := by
  have hk : ∃ k, w.kernel.file conn.fd = some (.conn k) ∧ conn.recvBuf.Holds (w.taken k) := by
    cases hu with
    | printf hpc hc => exact h.receiving_holds hpc hc
    | strcpy hpc hr hsel hc =>
      obtain ⟨rfl, hcl⟩ := h.inv.called hpc hr hsel
      exact h.armed_holds hpc hcl hc
  obtain ⟨k, hf, hk⟩ := hk
  exact ⟨k, hf, hk.1.zero_notMem_iff⟩

/-- What the server is about to call finds what it is meant for: `accept` the listening socket, and
`recv` and `write` the connection of a client. `write` stays within `wbuffer`. -/
def World.Provided (w : World) : Prop :=
  match w.pc with
  | .waiting | .dispatch _ => True
  | .accepting c _ => ∃ conn, w.heap c = some conn ∧ w.kernel.file conn.fd = some .listener
  | .receiving c _ =>
    ∃ conn k, w.heap c = some conn ∧ w.kernel.file conn.fd = some (.conn k)
  | .writing c _ =>
    ∃ conn k, w.heap c = some conn ∧ w.kernel.file conn.fd = some (.conn k) ∧
      toSizeT conn.wlen ≤ SEND_BUFFER_LENGTH

theorem World.Sound.provided (h : w.Sound) : w.Provided := by
  unfold World.Provided
  split
  · trivial
  · trivial
  next c todo hpc =>
    obtain ⟨rfl, -⟩ := h.inv.accepting hpc
    obtain ⟨k, hk, -, hf⟩ := h.inv.registry.serv
    obtain ⟨conn, hc, rfl⟩ := Option.map_eq_some_iff.mp hk
    exact ⟨conn, hc, hf⟩
  next c todo hpc =>
    obtain ⟨⟨-, conn, hc, -⟩, -⟩ := h.inv.receiving_client hpc
    obtain ⟨k, hf, -⟩ := h.receiving_holds hpc hc
    exact ⟨conn, k, hc, hf⟩
  next c todo hpc =>
    obtain ⟨⟨hcs, conn, hc, hne, he⟩, -⟩ := h.inv.writing_client hpc
    obtain ⟨k, hf⟩ := h.inv.peer hc hcs hne
    have hstr := h.streams.conn hcs hc hf
    rw [World.stage_sending hc he (by rw [hpc]; rfl)] at hstr
    obtain ⟨hbuf, hrlen⟩ := hstr.holds nofun
    have hcap : RECV_BUFFER_LENGTH < 2 ^ 64 := by decide
    have hle := hbuf.length_le
    refine ⟨conn, k, hc, hf, ?_⟩
    rw [(hstr.sending rfl).1, show conn.rlen = _ from hrlen, toSizeT_natCast (by omega)]
    exact hle

/-- The entries that `Epoll::wait` returns are those of the batch. -/
theorem World.Inv.left_wait {batch : List (Fd × Mask)} (h : w.Inv) (hst : w.Step (.wait batch) w') :
    w'.left = (RECV_BUFFER_LENGTH + 2) * batch.length + 1 := by
  cases h.trans hst with
  | @wait _ todo heap hpc hrep hcol =>
    have hlen : todo.length = batch.length := by
      have hdata := (World.reported_spec h.registry hrep.2).1
      rw [← hcol.events, List.map_map] at hdata
      simpa using congrArg List.length hdata
    rw [World.left_dispatch rfl, turnsLeft, hlen]

end

/-- Without receive errors nothing goes wrong but that a string may end outside its full buffer, and
after a bounded number of steps of its own the server waits in `epoll_wait` again. -/
theorem Boot.turn_ends {e : Boot} {w t u v : World} {xs ys : List (World × Act)}
    {batch : List (Fd × Mask)} (hb : e.server = some (.ok w)) (hx : Exec World.Step w xs t)
    (hclean : ∀ x ∈ xs, x.2.CleanRecv) (hst : t.Step (.wait batch) u)
    (hy : Exec World.Step u ys v)
    (hys : ∀ y ∈ ys, y.2.CleanRecv ∧ ∀ batch', y.2 ≠ .wait batch') :
    ys.countP (·.2.inTurn) ≤ (RECV_BUFFER_LENGTH + 2) * batch.length + 1 ∧
      (∀ a, v.Legal a → ∃ v', v.step a = .ok v') ∧
      (∀ a conn, v.Uses a conn → ∃ k, v.kernel.file conn.fd = some (.conn k) ∧
        (0 ∉ conn.rbuffer.bytes ↔ (v.taken k).length = RECV_BUFFER_LENGTH ∧ 0 ∉ v.taken k)) ∧
      v.Provided ∧
      ∃ zs z, Exec World.Step v zs z ∧ z.pc = .waiting ∧
        (∀ x ∈ zs, x.2.inTurn = true ∧ x.2.CleanRecv) ∧
        ys.countP (·.2.inTurn) + zs.length ≤ (RECV_BUFFER_LENGTH + 2) * batch.length + 1 := by
  have ht := Boot.sound hb hx hclean
  have hu := ht.step hst trivial
  obtain ⟨hv, hle⟩ := hu.countdown hy hys
  have hbound := ht.inv.left_wait hst
  obtain ⟨zs, z, hz, hpc, hzs, hlen⟩ := hv.returns
  exact ⟨by omega, fun _ => hv.step_ok, fun _ _ => hv.uses, hv.provided, zs, z, hz, hpc, hzs,
    by omega⟩

/-- The turn in which the first client's request is read. -/
theorem Boot.turn_ends_reuse : ∃ w t u v xs ys, Boot.plain.server = some (.ok w) ∧
    Exec World.Step w xs t ∧ t.Step (.wait [(5, EPOLLIN)]) u ∧ Exec World.Step u ys v ∧
    ys.map Prod.snd = [.next, .recv (.bytes [72, 105]), .recv (.fail .EAGAIN), .next] ∧
    ys.countP (·.2.inTurn) ≤ (RECV_BUFFER_LENGTH + 2) * 1 + 1 ∧
    (∀ a, v.Legal a → ∃ v', v.step a = .ok v') ∧
    (∀ a conn, v.Uses a conn → ∃ k, v.kernel.file conn.fd = some (.conn k) ∧
      (0 ∉ conn.rbuffer.bytes ↔ (v.taken k).length = RECV_BUFFER_LENGTH ∧ 0 ∉ v.taken k)) ∧
    v.Provided ∧
    ∃ zs z, Exec World.Step v zs z ∧ z.pc = .waiting ∧
      (∀ x ∈ zs, x.2.inTurn = true ∧ x.2.CleanRecv) ∧
      ys.countP (·.2.inTurn) + zs.length ≤ (RECV_BUFFER_LENGTH + 2) * 1 + 1 := by
  obtain ⟨w, hw⟩ : ∃ w, Boot.plain.server = some (.ok w) := ⟨_, rfl⟩
  obtain ⟨-, rfl⟩ := Boot.server_eq hw
  obtain ⟨t, u, v, ht, hu, hv⟩ : ∃ t u v,
      Exec.runs World.step? Boot.plain.started (reuseRun.take 6) = some t ∧
      t.step? (.wait [(5, EPOLLIN)]) = some u ∧
      Exec.runs World.step? u [.next, .recv (.bytes [72, 105]), .recv (.fail .EAGAIN), .next] =
        some v :=
    ⟨_, _, _, rfl, rfl, rfl⟩
  obtain ⟨xs, hx, hxacts⟩ := Exec.of_runs World.step_of_step? ht
  obtain ⟨ys, hy, hyacts⟩ := Exec.of_runs World.step_of_step? hv
  have hclean : ∀ x ∈ xs, x.2.CleanRecv := Exec.forall_labels hxacts (by decide)
  have hys : ∀ y ∈ ys, y.2.CleanRecv ∧ ∀ batch, y.2 ≠ .wait batch := by
    refine Exec.forall_labels (C := fun a => a.CleanRecv ∧ ∀ batch, a ≠ .wait batch) hyacts ?_
    simp [Act.CleanRecv]
  exact ⟨_, t, u, v, xs, ys, hw, hx, World.step_of_step? hu, hy, hyacts,
    Boot.turn_ends hw hx hclean (World.step_of_step? hu) hy hys⟩

end OnlineChat.Reactor
