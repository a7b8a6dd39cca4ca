import OnlineChat.Reactor.History

/-!
# The streams of the clients

`recv` and `write` know a connection by its descriptor and the server knows it by its address;
here both are tied to the client behind them. A live connection has gathered in `rbuffer` what
`recv` has taken from its own client's stream (`Stream`), whatever its buffers held when it was
allocated. So the echo is a prefix of what that client sent.
-/

namespace OnlineChat.Reactor
open Lib Function

/-! ## Sockets -/

section
variable {e : Boot} {w w' : World} {c : ConnId} {conn : Connection}

/-- The registration of the new connection leaves alone what `accept` does to the kernel. -/
theorem World.accepted_kernel {todo : List Ready} {r : Fd} {junk : Junk} :
    (w.accepted c todo r junk).kernel.file = (w.kernel.accept r).file ∧
    (w.accepted c todo r junk).kernel.socks = w.kernel.socks ∧
    (w.accepted c todo r junk).kernel.backlog = w.kernel.backlog.tail ∧
    (w.accepted c todo r junk).kernel.nextSock = w.kernel.nextSock := by
  obtain ⟨hsocks, hback, hnext⟩ := @Kernel.accept_socks w.kernel r
  obtain ⟨hsocks', hback', hnext'⟩ := @Kernel.ctl_socks (w.kernel.accept r) r .EPOLL_CTL_ADD
    (some ⟨EPOLLET ||| EPOLLIN, r⟩)
  exact ⟨Kernel.ctl_file .., hsocks'.trans hsocks, hback'.trans hback, hnext'.trans hnext⟩

/-- The receive loop ends without taking anything. -/
theorem World.rearmed_kernel {todo : List Ready} {r : RecvResult} (hd : r.data = []) :
    (w.rearmed c conn todo r).kernel.file = w.kernel.file ∧
    (w.rearmed c conn todo r).kernel.socks = w.kernel.socks ∧
    (w.rearmed c conn todo r).kernel.backlog = w.kernel.backlog ∧
    (w.rearmed c conn todo r).kernel.nextSock = w.kernel.nextSock := by
  rw [World.rearmed, Kernel.recv_of_data_nil hd]
  exact ⟨Kernel.ctl_file .., Kernel.ctl_socks ..⟩

/-- A descriptor is opened for the first connection of the queue only. -/
theorem Trans.peers {a : Act} (h : w.kernel.Peers) (ht : Trans w a w') : w'.kernel.Peers := by
  cases ht with
  | connect => exact h.connect
  | segment => exact h.mono rfl rfl fun hf => Kernel.segment_file .. ▸ hf
  | @wait batch =>
    obtain ⟨-, hback, hnext⟩ := @Kernel.report_socks w.kernel batch
    exact h.mono hback hnext fun hf => Kernel.report_file batch ▸ hf
  | turn | skip | enterAccept | enterRecv | enterSend => exact h
  | @accept c todo r junk hpc hr =>
    obtain ⟨hfile, -, hback, hnext⟩ := @World.accepted_kernel w c todo r junk
    obtain ⟨-, hback', hnext'⟩ := @Kernel.accept_socks w.kernel r
    exact (h.accept hr.1).mono (hback.trans hback'.symm) (hnext.trans hnext'.symm)
      fun hf => hfile ▸ hf
  | @recv c todo conn r =>
    refine h.mono (Kernel.recv_queue r).1 (Kernel.recv_nextSock r) ?_
    exact fun hf => Kernel.recv_file r ▸ hf
  | @leaveRecv c todo conn r _ _ _ _ hd =>
    obtain ⟨hfile, -, hback, hnext⟩ := @World.rearmed_kernel w c conn todo r hd
    exact h.mono hback hnext fun hf => hfile ▸ hf
  | @leaveSend c todo conn n past =>
    obtain ⟨bs, hbs⟩ : ∃ bs, bs = (conn.wbuffer.bytes ++ past).take n := ⟨_, rfl⟩
    obtain ⟨-, hback, hnext⟩ := @Kernel.ctl_socks (w.kernel.write conn.fd bs) conn.fd
      .EPOLL_CTL_DEL none
    rw [← hbs]
    refine h.mono (Kernel.close_queue.1.trans (hback.trans (Kernel.write_queue bs).1))
      (Kernel.close_nextSock.trans (hnext.trans (Kernel.write_nextSock bs))) ?_
    intro x s hf
    have hf := Kernel.close_file_le hf
    rwa [Kernel.ctl_file, Kernel.write_file] at hf

theorem Boot.started_socks (e : Boot) :
    (e.started.kernel.socks = fun _ => {}) ∧ e.started.kernel.backlog = [] ∧
      e.started.kernel.nextSock = 0 := by
  obtain ⟨hsocks, hback, hnext⟩ := @Kernel.ctl_socks e.world.kernel e.sock .EPOLL_CTL_ADD
    (some ⟨EPOLLIN ||| EPOLLET, e.sock⟩)
  exact ⟨hsocks.trans (Kernel.setFile_socks _), hback.trans (Kernel.setFile_backlog _),
    hnext.trans (Kernel.setFile_nextSock _)⟩

/-- No connection is open at the start. -/
theorem Boot.started_file (h : e.sock ≠ -1) (fd : Fd) (s : SockId) :
    e.started.kernel.file fd ≠ some (.conn s) := by
  rw [show e.started.kernel.file = e.world.kernel.file from Kernel.ctl_file ..]
  exact Kernel.init_file_conn (Boot.sock_nonneg h) fd s

theorem Boot.peers {xs : List (World × Act)} (hb : e.server = some (.ok w))
    (hx : Exec World.Step w xs w') : w'.kernel.Peers := by
  have hinv := (Boot.started_inv hb).1
  obtain ⟨hne, rfl⟩ := Boot.server_eq hb
  have hfile := Boot.started_file hne
  obtain ⟨-, hback, -⟩ := e.started_socks
  refine @World.Inv.run _ _ (·.kernel.Peers) _ hinv hx ?_ fun _ h ht => ht.peers h
  refine ⟨hback ▸ .nil, ?_, fun _ => hfile _ _, fun hf => absurd hf (hfile _ _)⟩
  intro s hs
  rw [hback] at hs
  cases hs

end

/-! ## Streams -/

/-- The connection `conn` in the stage `st` holds the stream of the client `x`. -/
structure Stream (conn : Connection) (x : Sock) (st : Stage) : Prop where
  written : x.written = []
  got_le : x.got ≤ x.sent.length
  fresh : st = .fresh → x.got = 0
  holds : st ≠ .fresh → conn.recvBuf.Holds (x.sent.take x.got)
  sending : st = .sending → conn.wlen = conn.rlen ∧
    (0 ∈ conn.rbuffer.bytes → cstr conn.rbuffer.bytes ++ [0] <+: conn.wbuffer.bytes)

structure World.Streams (w : World) : Prop where
  nodup : w.kernel.backlog.Nodup
  lt : s ∈ w.kernel.backlog → s < w.kernel.nextSock
  new : s ∈ w.kernel.backlog ∨ w.kernel.nextSock ≤ s → (w.kernel.socks s).got = 0 ∧
    (w.kernel.socks s).written = [] ∧ ∀ fd, w.kernel.file fd ≠ some (.conn s)
  closed : (w.kernel.socks s).closed = true → s < w.kernel.nextSock ∧ s ∉ w.kernel.backlog ∧
    ∀ fd, w.kernel.file fd ≠ some (.conn s)
  inj : w.kernel.file fd = some (.conn s) → w.kernel.file fd' = some (.conn s) → fd = fd'
  conn : c ≠ w.servSock → w.heap c = some cn → w.kernel.file cn.fd = some (.conn s) →
    Stream cn (w.kernel.socks s) (w.stage c)

/-- `recv` reports nothing but data, end of stream or that there is no data yet. -/
def Act.CleanRecv : Act → Prop
  | .recv (.fail e) => e = .EAGAIN ∨ e = .EWOULDBLOCK
  | _ => True

instance : DecidablePred Act.CleanRecv
  | .recv (.fail _) => inferInstanceAs (Decidable (_ ∨ _))
  | .recv (.bytes _) | .recv .eof | .connect | .segment .. | .wait _ | .next | .accept ..
  | .write .. => .isTrue trivial

namespace Stream
variable {conn conn' : Connection} {x x' : Sock} {st : Stage}

theorem congr (h : Stream conn x st) (hr : conn'.recvBuf = conn.recvBuf)
    (hw : conn'.wbuffer = conn.wbuffer) (hl : conn'.wlen = conn.wlen) : Stream conn' x st := by
  have hb : conn'.rbuffer = conn.rbuffer := congrArg RecvBuf.buf hr
  have hn : conn'.rlen = conn.rlen := congrArg RecvBuf.len hr
  exact ⟨h.written, h.got_le, h.fresh, hr ▸ h.holds, by rw [hb, hn, hw, hl]; exact h.sending⟩

theorem of_stage {st' : Stage} (h : Stream conn x st) (he : st' = st) : Stream conn x st' := he ▸ h

theorem segment (h : Stream conn x st) (bs : List Byte) :
    Stream conn { x with sent := x.sent ++ bs } st := by
  have ht : (x.sent ++ bs).take x.got = x.sent.take x.got := List.take_append_of_le_length h.got_le
  refine ⟨h.written, ?_, h.fresh, fun hs => ht ▸ h.holds hs, h.sending⟩
  exact h.got_le.trans (by simp)

/-- `recvCallback` begins. -/
theorem enterRecv (h : Stream conn x .fresh) (hlen : conn.rlen = 0) :
    Stream conn.rBufferClear x .receiving := by
  refine ⟨h.written, h.got_le, nofun, fun _ => ?_, nofun⟩
  rw [h.fresh rfl]
  exact ⟨Buf.zero_holds, hlen⟩

/-- `recvCallback` ends. -/
theorem leaveRecv (h : Stream conn x .receiving) : Stream (conn.setEvent EPOLLOUT) x .armed :=
  ⟨h.written, h.got_le, nofun, fun _ => h.holds nofun, nofun⟩

/-- `sendCallback` begins. -/
theorem enterSend (h : Stream conn x .armed) (hs : conn.strcpy = .ok conn') :
    Stream (conn'.setWLen conn'.rlen) x .sending := by
  obtain ⟨wb, rfl⟩ := Connection.strcpy_eq hs
  refine ⟨h.written, h.got_le, nofun, fun _ => h.holds nofun, fun _ => ⟨rfl, fun hz => ?_⟩⟩
  obtain ⟨wb', hs', hpre⟩ := conn.strcpy_of_zero_mem hz
  cases hs.symm.trans hs'
  exact hpre

/-- A pass through the receive loop stores the next bytes of the stream. -/
theorem recv {bs : List Byte} {b : Buf RECV_BUFFER_LENGTH} (h : Stream conn x .receiving)
    (hpre : bs <+: x.sent.drop x.got) (hst : conn.rbuffer.store? conn.rlen bs = some b) :
    Stream (conn.setRecvBuf ⟨b, conn.rlen + bs.length⟩) { x with got := x.got + bs.length }
      .receiving := by
  have hle : bs.length ≤ x.sent.length - x.got := hpre.length_le.trans (List.length_drop ..).le
  have hgot := h.got_le
  refine ⟨h.written, ?_, nofun, fun _ => ?_, nofun⟩
  · show x.got + bs.length ≤ x.sent.length
    omega
  · show RecvBuf.Holds _ (x.sent.take (x.got + bs.length))
    rw [List.take_add, ← List.prefix_iff_eq_take.mp hpre]
    exact (h.holds nofun).store hst

/-- What `write` takes is a prefix of the stream. -/
theorem write {n : Nat} (h : Stream conn x .sending) (hz : (0 : Byte) ∉ x.sent)
    (hlen : x.sent.length < RECV_BUFFER_LENGTH) (hn : n ≤ toSizeT conn.wlen) (past : List Byte) :
    n ≤ x.got ∧ (conn.wbuffer.bytes ++ past).take n = x.sent.take n := by
  obtain ⟨hbuf, hrlen⟩ := h.holds nofun
  obtain ⟨hwlen, hw⟩ := h.sending rfl
  have hlen' : (x.sent.take x.got).length = x.got := List.length_take_of_le h.got_le
  have hgot := h.got_le
  have hcap : RECV_BUFFER_LENGTH < 2 ^ 64 := by decide
  have hng : n ≤ x.got := by
    rw [hwlen, show conn.rlen = _ from hrlen, hlen', toSizeT_natCast (by omega)] at hn
    exact hn
  have hpre : x.sent.take x.got <+: conn.wbuffer.bytes ++ past := by
    have hz' : (0 : Byte) ∉ x.sent.take x.got := fun hm => hz (List.mem_of_mem_take hm)
    have hcstr : cstr conn.rbuffer.bytes = x.sent.take x.got := hbuf.cstr_eq hz'
    have hmem : (0 : Byte) ∈ conn.rbuffer.bytes := hbuf.zero_mem (by omega)
    rw [← hcstr]
    exact ((List.prefix_append ..).trans (hw hmem)).trans (List.prefix_append ..)
  obtain ⟨t, ht⟩ := hpre
  rw [← ht, List.take_append_of_le_length (hlen'.symm ▸ hng), List.take_take, min_eq_left hng]
  exact ⟨hng, rfl⟩

end Stream

section
variable {w w' : World} {c : ConnId} {conn : Connection}

theorem World.Streams.peers (h : w.Streams) : w.kernel.Peers :=
  ⟨h.nodup, h.lt, fun hs => (h.new hs).2.2 _, h.inj⟩

theorem World.Streams.of_peers (hp : w.kernel.Peers)
    (hnew : ∀ {s}, s ∈ w.kernel.backlog ∨ w.kernel.nextSock ≤ s →
      (w.kernel.socks s).got = 0 ∧ (w.kernel.socks s).written = [])
    (hclosed : ∀ {s}, (w.kernel.socks s).closed = true → s < w.kernel.nextSock ∧
      s ∉ w.kernel.backlog ∧ ∀ fd, w.kernel.file fd ≠ some (.conn s))
    (hconn : ∀ {c conn s}, c ≠ w.servSock → w.heap c = some conn →
      w.kernel.file conn.fd = some (.conn s) → Stream conn (w.kernel.socks s) (w.stage c)) :
    w.Streams :=
  ⟨hp.nodup, hp.lt, fun hs => ⟨(hnew hs).1, (hnew hs).2, fun _ => hp.new hs⟩, hclosed, hp.inj, hconn⟩

/-- Steps that leave the sockets alone only have to keep the streams of the connections. -/
theorem World.Streams.of_kernel (h : w.Streams) (hsocks : w'.kernel.socks = w.kernel.socks)
    (hback : w'.kernel.backlog = w.kernel.backlog) (hnext : w'.kernel.nextSock = w.kernel.nextSock)
    (hfile : w'.kernel.file = w.kernel.file)
    (hconn : ∀ {c conn s}, c ≠ w'.servSock → w'.heap c = some conn →
      w.kernel.file conn.fd = some (.conn s) → Stream conn (w.kernel.socks s) (w'.stage c)) :
    w'.Streams := by
  refine .of_peers (h.peers.mono hback hnext fun hf => hfile ▸ hf) ?_ ?_ ?_
  · rw [hback, hnext, hsocks]
    exact fun hs => ⟨(h.new hs).1, (h.new hs).2.1⟩
  · rw [hback, hnext, hsocks, hfile]
    exact h.closed
  · rw [hsocks, hfile]
    exact hconn

theorem World.Streams.connect (h : w.Streams) :
    ({ w with kernel := w.kernel.connect } : World).Streams := by
  have hfile : w.kernel.connect.file = w.kernel.file := Kernel.connect_file
  refine .of_peers h.peers.connect (fun {s} hs => ?_) (fun {s} hs => ?_) (hfile ▸ h.conn)
  · have hold : s ∈ w.kernel.backlog ∨ w.kernel.nextSock ≤ s := by
      rcases hs with hs | hs
      · exact (List.mem_append.mp hs).imp_right fun hs => (List.mem_singleton.mp hs).ge
      · exact .inr (Nat.le_of_succ_le hs)
    exact ⟨(h.new hold).1, (h.new hold).2.1⟩
  · obtain ⟨hlt, hback, hno⟩ := h.closed hs
    refine ⟨Nat.lt_succ_of_lt hlt, fun hm => ?_, hfile ▸ hno⟩
    rcases List.mem_append.mp hm with hm | hm
    · exact hback hm
    · exact Nat.ne_of_lt hlt (List.mem_singleton.mp hm)

theorem World.Streams.segment (h : w.Streams) (s : SockId) (bs : List Byte) :
    ({ w with kernel := w.kernel.segment s bs } : World).Streams := by
  have hfile : (w.kernel.segment s bs).file = w.kernel.file := Kernel.segment_file s bs
  have hsock : ∀ t, (w.kernel.segment s bs).socks t = w.kernel.socks t ∨
      (w.kernel.segment s bs).socks t =
        { w.kernel.socks t with sent := (w.kernel.socks t).sent ++ bs } := by
    intro t
    by_cases hts : t = s
    · subst hts
      exact .inr (update_self ..)
    · exact .inl (update_of_ne hts ..)
  have hp : (w.kernel.segment s bs).Peers := h.peers.mono rfl rfl fun hf => hfile ▸ hf
  refine .of_peers hp (fun {t} ht => ?_) (fun {t} ht => ?_) fun {c conn t} hc hcn hf => ?_
  · obtain ⟨hgot, hwr, -⟩ := h.new ht
    rcases hsock t with he | he <;> rw [he] <;> exact ⟨hgot, hwr⟩
  · rw [hfile]
    rcases hsock t with he | he <;> rw [he] at ht <;> exact h.closed ht
  · rw [hfile] at hf
    have hstr := h.conn hc hcn hf
    rcases hsock t with he | he <;> rw [he]
    · exact hstr
    · exact hstr.segment bs

/-- The connections that a step does not touch. -/
theorem World.Streams.other (h : w.Streams) {s : SockId} {x : Sock} {st : Stage}
    (hc : c ≠ w.servSock) (hcn : w.heap c = some conn)
    (hf : w.kernel.file conn.fd = some (.conn s)) (hx : x = w.kernel.socks s)
    (hst : st = w.stage c) : Stream conn x st := by
  rw [hx, hst]
  exact h.conn hc hcn hf

theorem World.Inv.peer (h : w.Inv) (hc : w.heap c = some conn) (hs : c ≠ w.servSock)
    (hne : conn.fd ≠ -1) : ∃ s, w.kernel.file conn.fd = some (.conn s) :=
  h.registry.peer (World.registry_core hc) hs hne

/-- Two connections have different clients. -/
theorem World.Streams.peer_ne (hinv : w.Inv) (h : w.Streams) {c' : ConnId} {conn' : Connection}
    {s t : SockId} (hc : w.heap c = some conn) (hf : w.kernel.file conn.fd = some (.conn s))
    (hc' : w.heap c' = some conn') (hf' : w.kernel.file conn'.fd = some (.conn t))
    (hne : c' ≠ c) : t ≠ s := by
  rintro rfl
  have hfd : conn.fd ≠ -1 := by
    intro he
    rw [he] at hf
    cases hf
  exact hne (hinv.registry.fd_inj (World.registry_core hc) (World.registry_core hc') hfd
    (h.inj hf hf')).symm

theorem World.Streams.accept (hinv : w.Inv) (h : w.Streams) {todo : List Ready} {r : Fd}
    {junk : Junk} (hpc : w.pc = .accepting c todo) (hr : w.kernel.CanAccept r) :
    (w.accepted c todo r junk).Streams := by
  obtain ⟨hfile, hsocks, hback, hnext⟩ := @World.accepted_kernel w c todo r junk
  -- a descriptor of the new table is an old one or the new one, for the client that was queued
  have hopen : ∀ {fd t}, (w.accepted c todo r junk).kernel.file fd = some (.conn t) →
      w.kernel.file fd = some (.conn t) ∨ r ≠ -1 ∧ fd = r ∧ w.kernel.backlog.head? = some t :=
    fun hf => Kernel.accept_file_conn hr.1 (hfile ▸ hf)
  have hnone : w.kernel.file r = none := by
    rcases hr.1 with rfl | ⟨-, hfree⟩
    · rfl
    · exact hfree
  have hp : (w.accepted c todo r junk).kernel.Peers := (Trans.accept hpc hr).peers h.peers
  refine .of_peers hp (fun {t} ht => ?_) (fun {t} ht => ?_) fun {c' conn' t} hcs' hcn hf' => ?_
  · rw [hback, hnext] at ht
    obtain ⟨hgot, hwr, -⟩ := h.new (ht.imp_left List.mem_of_mem_tail)
    rw [hsocks]
    exact ⟨hgot, hwr⟩
  · rw [hsocks] at ht
    obtain ⟨hlt, hq, hno⟩ := h.closed ht
    refine ⟨hnext ▸ hlt, fun hm => hq (List.mem_of_mem_tail (hback ▸ hm)), fun fd hf => ?_⟩
    rcases hopen hf with hf | ⟨-, -, hhead⟩
    · exact hno fd hf
    · exact hq (List.mem_of_mem_head? hhead)
  · rcases update_some_eq_some.mp hcn with ⟨rfl, rfl⟩ | ⟨hcc, hcn⟩
    · rcases hopen hf' with hf | ⟨-, -, hhead⟩
      · cases hnone.symm.trans hf
      · obtain ⟨hgot, hwr, -⟩ := h.new (.inl (List.mem_of_mem_head? hhead))
        rw [hsocks, World.stage_fresh (by exact update_self ..) rfl rfl]
        refine ⟨hwr, hgot ▸ Nat.zero_le _, fun _ => hgot, fun hn => absurd rfl hn, ?_⟩
        intro hn
        cases hn
    · have hlt := hinv.registry.conn_lt (World.registry_core hcn)
      rcases hopen hf' with hf | ⟨hne, hfd, -⟩
      · refine h.other hcs' hcn hf (congrFun hsocks t) (World.stage_congr ?_ ?_ ?_)
        · exact congrArg _ (update_of_ne hcc ..)
        · exact ⟨fun _ => hlt, Nat.lt_succ_of_lt⟩
        · have hcs : c ≠ c' := (hinv.accepting hpc).1 ▸ hcs'.symm
          simp [World.accepted, hpc, Pc.running, hcs]
      · have hfile := (World.mapped hinv.registry hcn (hfd ▸ hne)).2.2.2
        rw [hfd] at hfile
        rw [show w.kernel.file r = none from hnone] at hfile
        cases hfile

theorem World.Streams.recv (hinv : w.Inv) (h : w.Streams) {todo : List Ready} {bs : List Byte}
    {b : Buf RECV_BUFFER_LENGTH} (hpc : w.pc = .receiving c todo) (hc : w.heap c = some conn)
    (hr : w.kernel.CanRecv conn.fd conn.recvBuf.request (.bytes bs))
    (hst : conn.rbuffer.store? conn.rlen bs = some b) :
    (w.received c conn (.bytes bs) ⟨b, conn.rlen + bs.length⟩).Streams := by
  obtain ⟨hcs, hne, he⟩ := hinv.receiving hpc hc
  obtain ⟨s, hf⟩ := hinv.peer hc hcs hne
  have hpre : bs <+: (w.kernel.socks s).sent.drop (w.kernel.socks s).got := by
    have hp := hr.2.2
    rw [Kernel.sockOf_eq_some.mpr hf] at hp
    exact List.isPrefixOf_iff_prefix.mp hp
  have hfile : (w.kernel.recv conn.fd (.bytes bs)).file = w.kernel.file := Kernel.recv_file _
  obtain ⟨hsocks, hback, hnext⟩ := Kernel.recv_socks hf (.bytes bs)
  have hother : ∀ {t}, t ≠ s → (w.kernel.recv conn.fd (.bytes bs)).socks t = w.kernel.socks t :=
    fun hts => hsocks ▸ update_of_ne hts ..
  have hp : (w.kernel.recv conn.fd (.bytes bs)).Peers :=
    h.peers.mono hback hnext fun hf => hfile ▸ hf
  refine .of_peers hp (fun {t} ht => ?_) (fun {t} ht => ?_) fun {c' conn' t} hcs' hcn hf' => ?_
  · have ht : t ∈ w.kernel.backlog ∨ w.kernel.nextSock ≤ t := hback ▸ hnext ▸ ht
    obtain ⟨hgot, hwr, hno⟩ := h.new ht
    have hts : t ≠ s := fun he => hno _ (he ▸ hf)
    rw [show (w.received ..).kernel.socks t = _ from hother hts]
    exact ⟨hgot, hwr⟩
  · have ht : (w.kernel.socks t).closed = true := by
      by_cases hts : t = s
      · subst hts
        rw [show (w.received ..).kernel.socks t = _ from hsocks ▸ update_self ..] at ht
        exact ht
      · exact hother hts ▸ ht
    obtain ⟨hlt, hq, hno⟩ := h.closed ht
    exact ⟨hnext ▸ hlt, hback ▸ hq, hfile ▸ hno⟩
  · have hf₀ : w.kernel.file conn'.fd = some (.conn t) := hfile ▸ hf'
    rcases update_some_eq_some.mp hcn with ⟨rfl, rfl⟩ | ⟨hcc, hcn⟩
    · cases hf.symm.trans hf₀
      have hrun : w.pc.running = some c' := by rw [hpc]; rfl
      have hstr := h.conn hcs hc hf
      rw [World.stage_receiving hc he hrun] at hstr
      rw [World.stage_receiving (by exact update_self ..) (by exact he) (by exact hrun)]
      rw [show (w.received ..).kernel.socks s = _ from hsocks ▸ update_self ..]
      exact hstr.recv hpre hst
    · refine h.other hcs' hcn hf₀ (hother ?_) (World.stage_congr ?_ .rfl .rfl)
      · exact h.peer_ne hinv hc hf hcn hf₀ hcc
      · exact congrArg _ (update_of_ne hcc ..)

theorem World.Inv.dropped_socks (hinv : w.Inv) {todo : List Ready} {bs : List Byte}
    (hpc : w.pc = .writing c todo) (hc : w.heap c = some conn) :
    ∃ s, w.kernel.file conn.fd = some (.conn s) ∧
      (w.dropped c conn todo bs).kernel.socks = update w.kernel.socks s { w.kernel.socks s with
        written := (w.kernel.socks s).written ++ bs, closed := true } ∧
      (w.dropped c conn todo bs).kernel.backlog = w.kernel.backlog ∧
      (w.dropped c conn todo bs).kernel.nextSock = w.kernel.nextSock := by
  obtain ⟨hcs, hne, he⟩ := hinv.writing hpc hc
  obtain ⟨s, hf⟩ := hinv.peer hc hcs hne
  obtain ⟨hsocks, hback, hnext⟩ := Kernel.write_socks hf bs
  obtain ⟨hsocks₁, hback₁, hnext₁⟩ :=
    @Kernel.ctl_socks (w.kernel.write conn.fd bs) conn.fd .EPOLL_CTL_DEL none
  obtain ⟨hsocks₂, hback₂, hnext₂⟩ := @Kernel.close_socks
    ((w.kernel.write conn.fd bs).ctl .EPOLL_CTL_DEL conn.fd none) conn.fd s (by simpa using hf)
  refine ⟨s, hf, hsocks₂.trans ?_, hback₂.trans (hback₁.trans hback),
    hnext₂.trans (hnext₁.trans hnext)⟩
  rw [hsocks₁, hsocks, update_idem, update_self]

theorem World.Streams.leaveSend (hinv : w.Inv) (h : w.Streams) {todo : List Ready}
    {bs : List Byte} (hpc : w.pc = .writing c todo) (hc : w.heap c = some conn) :
    (w.dropped c conn todo bs).Streams := by
  obtain ⟨hcs, hne, he⟩ := hinv.writing hpc hc
  obtain ⟨s, hf, hsocks', hback', hnext'⟩ := @World.Inv.dropped_socks _ _ _ hinv todo bs hpc hc
  have hfile : (w.dropped c conn todo bs).kernel.file = update w.kernel.file conn.fd none :=
    congrArg Registry.file (World.dropped_registry hinv.registry hc hne)
  have hother : ∀ {t}, t ≠ s → (w.dropped c conn todo bs).kernel.socks t = w.kernel.socks t :=
    fun hts => (congrFun hsocks' _).trans (update_of_ne hts ..)
  have hp : (w.dropped c conn todo bs).kernel.Peers :=
    h.peers.mono hback' hnext' fun hf => (update_none_eq_some.mp (hfile ▸ hf)).2
  refine .of_peers hp (fun {t} ht => ?_) (fun {t} ht => ?_) fun {c' conn' t} hcs' hcn hf' => ?_
  · have ht : t ∈ w.kernel.backlog ∨ w.kernel.nextSock ≤ t := hback' ▸ hnext' ▸ ht
    obtain ⟨hgot, hwr, hno⟩ := h.new ht
    have hts : t ≠ s := fun he => hno _ (he ▸ hf)
    rw [hother hts]
    exact ⟨hgot, hwr⟩
  · rw [hback', hnext', hfile]
    by_cases hts : t = s
    · subst hts
      refine ⟨lt_of_not_ge fun hle => (h.new (.inr hle)).2.2 _ hf,
        fun hm => (h.new (.inl hm)).2.2 _ hf, fun fd hfd => ?_⟩
      obtain ⟨hne', hfd⟩ := update_none_eq_some.mp hfd
      exact hne' (h.inj hfd hf)
    · obtain ⟨hlt, hq, hno⟩ := h.closed (hother hts ▸ ht)
      exact ⟨hlt, hq, fun fd hfd => hno fd (update_none_eq_some.mp hfd).2⟩
  · rw [hfile] at hf'
    obtain ⟨hcc, hcn⟩ := update_none_eq_some.mp hcn
    obtain ⟨-, hf'⟩ := update_none_eq_some.mp hf'
    refine h.other hcs' hcn hf' (hother ?_) (World.stage_congr ?_ .rfl ?_)
    · exact h.peer_ne hinv hc hf hcn hf' hcc
    · exact congrArg _ (update_of_ne hcc ..)
    · simp [World.dropped, hpc, Pc.running, Ne.symm hcc]

/-- `recv` without an error: the pass stores bytes or leaves the loop. -/
theorem Act.CleanRecv.pass {r : RecvResult} {n : Nat} {s s' : RecvBuf n}
    (h : (Act.recv r).CleanRecv) (hr : r ≠ .bytes []) (hs : s.pass r = .ok (false, s')) :
    ∃ bs b, r = .bytes bs ∧ s.buf.store? s.len bs = some b ∧ s' = ⟨b, s.len + bs.length⟩ := by
  rcases RecvBuf.pass_cases hr hs with ⟨h0, -⟩ | ⟨bs, b, hb, -, hst, he⟩ | ⟨e, he, h₁, h₂, -⟩
  · cases h0
  · exact ⟨bs, b, hb, hst, he⟩
  · subst he
    exact absurd h (not_or.mpr ⟨h₁, h₂⟩)

theorem Trans.streams {a : Act} (hinv : w.Inv) (hh : w.HistoryOk) (h : w.Streams)
    (ht : Trans w a w') (ha : a.CleanRecv) : w'.Streams := by
  cases ht with
  | connect => exact h.connect
  | segment => exact h.segment _ _
  | @wait batch todo heap hpc _ hcol =>
    obtain ⟨hsocks, hback, hnext⟩ := @Kernel.report_socks w.kernel batch
    refine h.of_kernel hsocks hback hnext (Kernel.report_file _) fun {c conn s} hcs hcn hf => ?_
    obtain ⟨conn₀, hc₀, he⟩ := hcol.origin hcn
    have hfd : conn.fd = conn₀.fd := by rw [he]
    have hstr := h.conn hcs hc₀ (hfd ▸ hf)
    refine (hstr.congr ?_ ?_ ?_).of_stage (World.stage_congr (hcol.flags c) .rfl ?_)
    · rw [he]; rfl
    · rw [he]
    · rw [he]
    · simp [hpc, Pc.running]
  | turn hpc | skip hpc =>
    refine h.of_kernel rfl rfl rfl rfl fun hcs hcn hf => h.other hcs hcn hf rfl (World.stage_congr rfl .rfl ?_)
    simp [hpc, Pc.running]
  | @enterAccept r todo conn c hpc hr hsel =>
    have hs : c = w.servSock := (hinv.called hpc hr hsel).2
    refine h.of_kernel rfl rfl rfl rfl fun hcs hcn hf => h.other hcs hcn hf rfl (World.stage_congr rfl .rfl ?_)
    simp [hpc, Pc.running, hs, Ne.symm hcs]
  | @enterRecv r todo conn c conn' hpc hr hsel hc =>
    obtain ⟨rfl, hcs, conn₀, hc', -, he⟩ := hinv.called hpc hr hsel
    cases hc.symm.trans hc'
    have hrun : w.pc.running = none := by rw [hpc]; rfl
    have hst := World.stage_fresh hc he hrun
    refine h.of_kernel rfl rfl rfl rfl fun {c cn s} hcs' hcn hf => ?_
    rcases update_some_eq_some.mp hcn with ⟨rfl, rfl⟩ | ⟨hcc, hcn⟩
    · have hstr := h.conn hcs hc hf
      rw [hst] at hstr
      rw [World.stage_receiving (by exact update_self ..) (by exact he) rfl]
      exact hstr.enterRecv (hh.fresh hcs hc hst)
    · refine h.other hcs' hcn hf rfl (World.stage_congr ?_ .rfl ?_)
      · exact congrArg _ (update_of_ne hcc ..)
      · simp [hpc, Pc.running, Ne.symm hcc]
  | @enterSend r todo conn c conn' conn'' hpc hr hsel hc hs =>
    obtain ⟨rfl, hcs, conn₀, hc', -, he⟩ := hinv.called hpc hr hsel
    cases hc.symm.trans hc'
    have hrun : w.pc.running = none := by rw [hpc]; rfl
    obtain ⟨wb, hwb⟩ := Connection.strcpy_eq hs
    refine h.of_kernel rfl rfl rfl rfl fun {c cn s} hcs' hcn hf => ?_
    rcases update_some_eq_some.mp hcn with ⟨rfl, rfl⟩ | ⟨hcc, hcn⟩
    · have hf : w.kernel.file conn'.fd = some (.conn s) := by rwa [hwb] at hf
      have hstr := h.conn hcs hc hf
      rw [World.stage_armed hc he hrun] at hstr
      rw [World.stage_sending (by exact update_self ..) (by rw [hwb]; exact he) rfl]
      exact hstr.enterSend hs
    · refine h.other hcs' hcn hf rfl (World.stage_congr ?_ .rfl ?_)
      · exact congrArg _ (update_of_ne hcc ..)
      · simp [hpc, Pc.running, Ne.symm hcc]
  | accept hpc hr => exact h.accept hinv hpc hr
  | recv hpc hc hr hs =>
    obtain ⟨bs, b, rfl, hst, rfl⟩ := ha.pass hr.ne_nil hs
    exact h.recv hinv hpc hc hr hst
  | @leaveRecv c todo conn r hpc hc _ _ hd =>
    obtain ⟨hcs, hne, he⟩ := hinv.receiving hpc hc
    have hrun : w.pc.running = some c := by rw [hpc]; rfl
    obtain ⟨hfile, hsocks, hback, hnext⟩ := @World.rearmed_kernel w c conn todo r hd
    refine h.of_kernel hsocks hback hnext hfile fun {c' cn s} hcs' hcn hf => ?_
    rcases update_some_eq_some.mp hcn with ⟨rfl, rfl⟩ | ⟨hcc, hcn⟩
    · have hstr := h.conn hcs hc hf
      rw [World.stage_receiving hc he hrun] at hstr
      exact hstr.leaveRecv.of_stage (World.stage_armed (update_self ..) rfl rfl)
    · refine h.other hcs' hcn hf rfl (World.stage_congr ?_ .rfl ?_)
      · exact congrArg _ (update_of_ne hcc ..)
      · simp [World.rearmed, hpc, Pc.running, Ne.symm hcc]
  | leaveSend hpc hc => exact h.leaveSend hinv hpc hc

theorem Boot.started_streams {e : Boot} (hb : e.server = some (.ok w)) : w.Streams := by
  obtain ⟨hne, rfl⟩ := Boot.server_eq hb
  have hfile := Boot.started_file hne
  obtain ⟨hsocks, -⟩ := e.started_socks
  refine .of_peers (Boot.peers hb .nil) (fun _ => ?_) (fun hs => ?_) fun _ _ hf =>
    absurd hf (hfile _ _)
  · rw [hsocks]
    exact ⟨rfl, rfl⟩
  · rw [hsocks] at hs
    cases hs

/-- The streams fit in every state the server reaches without a receive error. -/
theorem Boot.streams {e : Boot} {xs : List (World × Act)} (hb : e.server = some (.ok w))
    (hx : Exec World.Step w xs w') (hclean : ∀ x ∈ xs, x.2.CleanRecv) : w'.Streams := by
  induction hx with
  | nil => exact Boot.started_streams hb
  | @snoc xs t a u hx hs ih =>
    have hinv := Boot.inv hb hx
    refine (hinv.trans hs).streams hinv (Boot.historyOk hb hx) (ih fun x hx => ?_) ?_
    · exact hclean x (List.mem_append_left _ hx)
    · exact hclean (t, a) (by simp)

/-! ## Isolation -/

/-- What a step does to one client's socket. -/
inductive SockStep (w : World) (s : SockId) : Act → Sock → Prop
  | same {a} : SockStep w s a (w.kernel.socks s)
  | arrive {bs} : SockStep w s (.segment s bs)
    { w.kernel.socks s with sent := (w.kernel.socks s).sent ++ bs }
  | take {c todo conn bs} : w.pc = .receiving c todo → w.heap c = some conn →
    w.kernel.file conn.fd = some (.conn s) →
    SockStep w s (.recv (.bytes bs))
      { w.kernel.socks s with got := (w.kernel.socks s).got + bs.length }
  | put {c todo conn n past} : w.pc = .writing c todo → w.heap c = some conn →
    w.kernel.file conn.fd = some (.conn s) → n ≤ toSizeT conn.wlen →
    SockStep w s (.write n past) { w.kernel.socks s with
      written := (w.kernel.socks s).written ++ (conn.wbuffer.bytes ++ past).take n, closed := true }

theorem Trans.sockStep {a : Act} (hinv : w.Inv) (ht : Trans w a w') (s : SockId) :
    SockStep w s a (w'.kernel.socks s) := by
  have same : ∀ {a x}, x = w.kernel.socks s → SockStep w s a x := fun h => h ▸ .same
  cases ht with
  | connect | turn | skip | enterAccept | enterRecv | enterSend => exact .same
  | wait => exact same (congrFun (Kernel.report_socks _).1 s)
  | @segment t bs =>
    by_cases hst : s = t
    · subst hst
      rw [show (w.kernel.segment s bs).socks s = _ from update_self ..]
      exact .arrive
    · exact same (update_of_ne hst ..)
  | accept => exact same (congrFun World.accepted_kernel.2.1 s)
  | @recv c todo conn r _ hpc hc =>
    obtain ⟨hcs, hne, -⟩ := hinv.receiving hpc hc
    obtain ⟨t, hf⟩ := hinv.peer hc hcs hne
    have hsocks := (Kernel.recv_socks hf r).1
    by_cases hst : s = t
    · subst hst
      rw [show (w.received ..).kernel.socks s = _ from hsocks ▸ update_self ..]
      cases r with
      | bytes bs => exact .take hpc hc hf
      | eof | fail => exact .same
    · exact same (hsocks ▸ update_of_ne hst ..)
  | leaveRecv _ _ _ _ hd => exact same (congrFun (World.rearmed_kernel hd).2.1 s)
  | @leaveSend c todo conn n past hpc hc hn =>
    obtain ⟨t, hf, hsocks, -⟩ := @World.Inv.dropped_socks _ _ _ hinv todo
      ((conn.wbuffer.bytes ++ past).take n) hpc hc
    rw [hsocks]
    by_cases hst : s = t
    · subst hst
      rw [update_self]
      exact .put hpc hc hf hn
    · exact same (update_of_ne hst ..)

/-- A stream only grows at its end. -/
theorem SockStep.sent {a : Act} {s : SockId} {x : Sock} (h : SockStep w s a x) :
    (w.kernel.socks s).sent <+: x.sent := by
  cases h with
  | same | take | put => exact List.prefix_rfl
  | arrive => exact List.prefix_append ..

theorem SockStep.sent_eq {a : Act} {s : SockId} {x : Sock} (h : SockStep w s a x)
    (ha : ∀ bs, a ≠ .segment s bs) : x.sent = (w.kernel.socks s).sent := by
  cases h with
  | same | take | put => rfl
  | arrive => exact absurd rfl (ha _)

/-- What is written stays written, and nothing more is written once the socket is closed. -/
theorem SockStep.written {a : Act} {s : SockId} {x : Sock} (hs : w.Streams)
    (h : SockStep w s a x) : (w.kernel.socks s).written <+: x.written ∧
      ((w.kernel.socks s).closed = true →
        x.written = (w.kernel.socks s).written ∧ x.closed = true) := by
  cases h with
  | same | arrive | take => exact ⟨List.prefix_rfl, fun h => ⟨rfl, h⟩⟩
  | put _ _ hf => exact ⟨List.prefix_append .., fun h => absurd hf ((hs.closed h).2.2 _)⟩

/-- Only a client makes a new socket. -/
theorem Trans.nextSock {a : Act} (hinv : w.Inv) (ht : Trans w a w') :
    w'.kernel.nextSock = w.kernel.nextSock ∨
      a = .connect ∧ w'.kernel.nextSock = w.kernel.nextSock + 1 := by
  cases ht with
  | connect => exact .inr ⟨rfl, rfl⟩
  | segment | turn | skip | enterAccept | enterRecv | enterSend => exact .inl rfl
  | wait => exact .inl (Kernel.report_socks _).2.2
  | accept => exact .inl World.accepted_kernel.2.2.2
  | recv => exact .inl (Kernel.recv_nextSock _)
  | leaveRecv _ _ _ _ hd => exact .inl (World.rearmed_kernel hd).2.2.2
  | leaveSend hpc hc =>
    obtain ⟨s, -, -, -, hnext⟩ := hinv.dropped_socks hpc hc
    exact .inl hnext

/-- Every client has sent a string that fits into a client's buffer. -/
def World.ShortStreams (w : World) : Prop := ∀ s < w.kernel.nextSock,
  (0 : Byte) ∉ (w.kernel.socks s).sent ∧ (w.kernel.socks s).sent.length ≤ 1023

instance (w : World) : Decidable w.ShortStreams :=
  inferInstanceAs (Decidable (∀ s < w.kernel.nextSock, _))

theorem SockStep.isolated {a : Act} {s : SockId} {x : Sock} (hinv : w.Inv) (h : w.Streams)
    (hs : SockStep w s a x) (hshort : w.ShortStreams)
    (hpre : (w.kernel.socks s).written <+: (w.kernel.socks s).sent) : x.written <+: x.sent := by
  cases hs with
  | same | take => exact hpre
  | arrive => exact hpre.trans (List.prefix_append ..)
  | @put c todo conn n past hpc hc hf hn =>
    obtain ⟨hcs, -, he⟩ := hinv.writing hpc hc
    have hstr := h.conn hcs hc hf
    rw [World.stage_sending hc he (by rw [hpc]; rfl)] at hstr
    obtain ⟨hz, hlen⟩ := hshort s (lt_of_not_ge fun hle => (h.new (.inr hle)).2.2 _ hf)
    obtain ⟨-, htake⟩ := hstr.write hz (Nat.lt_of_le_of_lt hlen (by decide)) hn past
    rw [htake, hstr.written]
    exact List.take_prefix ..

/-- What the server has written to a client is a prefix of what that client has sent. -/
theorem Boot.isolation {e : Boot} {xs : List (World × Act)} (hb : e.server = some (.ok w))
    (hx : Exec World.Step w xs w') (hclean : ∀ x ∈ xs, x.2.CleanRecv) (hshort : w'.ShortStreams)
    (s : SockId) : (w'.kernel.socks s).written <+: (w'.kernel.socks s).sent := by
  induction hx generalizing s with
  | nil =>
    obtain ⟨-, rfl⟩ := Boot.server_eq hb
    simp only [e.started_socks.1, List.nil_prefix]
  | @snoc xs t a u hx hs ih =>
    have hinv := Boot.inv hb hx
    have hclean' : ∀ x ∈ xs, x.2.CleanRecv := fun x hx => hclean x (List.mem_append_left _ hx)
    have ht := hinv.trans hs
    have hshort' : t.ShortStreams := fun s hlt => by
      have hle : t.kernel.nextSock ≤ u.kernel.nextSock := by
        rcases ht.nextSock hinv with he | ⟨-, he⟩ <;> rw [he]
        exact Nat.le_succ _
      obtain ⟨hz, hlen⟩ := hshort s (Nat.lt_of_lt_of_le hlt hle)
      have hsent := (ht.sockStep hinv s).sent
      exact ⟨fun hm => hz (hsent.subset hm), hsent.length_le.trans hlen⟩
    exact (ht.sockStep hinv s).isolated hinv (Boot.streams hb hx hclean') hshort'
      (ih hclean' hshort' s)

theorem Boot.isolation_reuse : ∃ w w' xs, Boot.plain.server = some (.ok w) ∧
    Exec World.Step w xs w' ∧ xs.map Prod.snd = reuseRun ∧
    (w'.kernel.socks 0).written = [72, 105] ∧
    ∀ s, (w'.kernel.socks s).written <+: (w'.kernel.socks s).sent := by
  have hrun : (Exec.runs World.step? Boot.plain.started reuseRun).any (fun w' =>
      (w'.kernel.socks 0).written = [72, 105] ∧ w'.ShortStreams) := by decide +kernel
  obtain ⟨w, w', xs, hw, hx, hacts, hrun⟩ :=
    Boot.plain_run ((Option.any_eq_true ..).mp hrun)
  obtain ⟨hwritten, hshort⟩ := of_decide_eq_true hrun
  have hclean : ∀ x ∈ xs, x.2.CleanRecv := Exec.forall_labels hacts (by decide)
  exact ⟨w, w', xs, hw, hx, hacts, hwritten, Boot.isolation hw hx hclean hshort⟩

end

/-! ## What a connection has received -/

section
variable {e : Boot} {w t w' : World} {xs : List (World × Act)} {c : ConnId} {conn : Connection}
  {todo : List Ready} {k : SockId}

/-- What `recv` has taken from the stream of the client `k`. -/
def World.taken (w : World) (k : SockId) : List Byte :=
  (w.kernel.socks k).sent.take (w.kernel.socks k).got

/-- A connection that waits for `EPOLLOUT` holds what has been received for it. -/
theorem Boot.holds_taken (hb : e.server = some (.ok w)) (hx : Exec World.Step w xs w')
    (hclean : ∀ x ∈ xs, x.2.CleanRecv) (hcs : c ≠ w'.servSock) (hc : w'.heap c = some conn)
    (he : conn.event.events = EPOLLOUT) (hpc : w'.pc.running = none)
    (hf : w'.kernel.file conn.fd = some (.conn k)) : conn.recvBuf.Holds (w'.taken k) := by
  have hstr := (Boot.streams hb hx hclean).conn hcs hc hf
  rw [World.stage_armed hc he hpc] at hstr
  exact hstr.holds nofun

theorem Act.cleanRecv_of_clean {r : RecvResult} (hr : r.Clean) : (Act.recv r).CleanRecv := by
  cases r with
  | bytes | eof => trivial
  | fail e => exact hr

/-- The step that ends `recvCallback` leaves its connection armed. -/
theorem World.Inv.leaveRecv {r : RecvResult} (h : t.Inv) (hpc : t.pc = .receiving c todo)
    (hs : t.Step (.recv r) w') (hpc' : w'.pc = .dispatch todo) (hc : w'.heap c = some conn) :
    c ≠ w'.servSock ∧ conn.event.events = EPOLLOUT := by
  have ht := h.trans hs
  have hserv := ht.servSock
  cases ht with
  | recv hpc₀ =>
    have hpc'' : t.pc = .dispatch todo := hpc'
    rw [hpc] at hpc''
    cases hpc''
  | leaveRecv hpc₀ hc₀ =>
    rw [hpc] at hpc₀
    cases hpc₀
    obtain ⟨hcs, -⟩ := h.receiving hpc hc₀
    have hself := (update_self ..).symm.trans hc
    cases hself
    exact ⟨hserv ▸ hcs, rfl⟩

/-- The connection that `sendCallback` is about to be called on is armed. -/
theorem World.Inv.sending {r : Ready} (h : w.Inv) (hpc : w.pc = .dispatch (r :: todo))
    (hr : w.heap r.conn = some conn) (hsel : conn.selected = some (some ⟨.sendCallback, c⟩)) :
    c = r.conn ∧ c ≠ w.servSock ∧ conn.event.events = EPOLLOUT := by
  obtain ⟨rfl, hcs, conn', hc', -, he⟩ := h.called hpc hr hsel
  cases hr.symm.trans hc'
  exact ⟨rfl, hcs, he⟩

end

end OnlineChat.Reactor
