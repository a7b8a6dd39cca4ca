import OnlineChat.ChatServer.Visit
import OnlineChat.Terminated

/-!
# The single-threaded server is a desk

A run of `main` without receive errors is, step by step, a run of visits that take turns: what a
step does for one client (`Server.label`) is a step of that client's visit, and the rest, the
descriptors and their reuse, the registrations and the batch, shows in none. What is printed when a
client is closed are the bytes taken from it in this run of the receive loop, whatever the one
buffer was used for before.
-/

namespace OnlineChat.ChatServer
open Lib Function

namespace Server

/-! ## Streams -/

/-- The client that is read from. -/
def serving (s : Server) : Option SockId :=
  match s.pc with
  | .receiving fd _ => s.kernel.sockOf fd
  | _ => none

/-- The clients' streams in a run without receive errors. -/
structure Streams (s : Server) : Prop where
  peers : s.kernel.Peers
  closed {k : SockId} : (s.kernel.socks k).closed = true →
    k < s.kernel.nextSock ∧ k ∉ s.kernel.backlog ∧ ∀ fd, s.kernel.file fd ≠ some (.conn k)
  got_le {k : SockId} : (s.kernel.socks k).got ≤ (s.kernel.socks k).sent.length
  fresh {k : SockId} : s.serving ≠ some k → (s.kernel.socks k).closed = false →
    (s.kernel.socks k).got = 0
  holds {k : SockId} : s.serving = some k →
    s.recvBuf.Holds ((s.kernel.socks k).sent.take (s.kernel.socks k).got)

section
variable {s s' : Server} {a : Act} {fd : Fd} {k t : SockId} {todo : List EpollEvent}
  {r : RecvResult}

/-- A descriptor is opened for the first connection of the queue only. -/
theorem Trans.peers (h : s.kernel.Peers) (ht : Trans s a s') : s'.kernel.Peers := by
  cases ht with
  | connect => exact h.connect
  | segment => exact h.mono rfl rfl fun hf => Kernel.segment_file .. ▸ hf
  | @wait batch =>
    obtain ⟨-, hback, hnext⟩ := @Kernel.report_socks s.kernel batch
    exact h.mono hback hnext fun hf => Kernel.report_file batch ▸ hf
  | turn | enterAccept | enterRecv | skip => exact h
  | acceptFail => exact h.accept (.inl rfl)
  | @accept todo r _ hr =>
    obtain ⟨-, hback, hnext⟩ := @Kernel.ctl_socks (s.kernel.accept r) r .EPOLL_CTL_ADD
      (some ⟨EPOLLIN ||| EPOLLET, r⟩)
    exact (h.accept hr.1).mono hback hnext fun hf => Kernel.ctl_file .. ▸ hf
  | recv =>
    refine h.mono (Kernel.recv_queue _).1 (Kernel.recv_nextSock _) ?_
    exact fun hf => Kernel.recv_file _ ▸ hf
  | @leave fd =>
    obtain ⟨-, hback, hnext⟩ := @Kernel.ctl_socks (s.kernel.close fd) fd .EPOLL_CTL_DEL none
    refine h.mono (hback.trans Kernel.close_queue.1) (hnext.trans Kernel.close_nextSock) ?_
    exact fun hf => Kernel.close_file_le (Kernel.ctl_file .. ▸ hf)

/-- `close` takes the registration with it, and the `epoll_ctl` after it finds nothing to do. -/
theorem dropped_kernel (hf : s.kernel.file fd = some (.conn k)) :
    (s.dropped fd todo).kernel.file = update s.kernel.file fd none ∧
    (s.dropped fd todo).kernel.socks =
      update s.kernel.socks k { s.kernel.socks k with closed := true } ∧
    (s.dropped fd todo).kernel.backlog = s.kernel.backlog ∧
    (s.dropped fd todo).kernel.nextSock = s.kernel.nextSock := by
  have hclose : (s.kernel.close fd).file = update s.kernel.file fd none :=
    Kernel.close_file (by rw [hf]; rfl)
  have hctl : (s.dropped fd todo).kernel = s.kernel.close fd := by
    apply Kernel.ctl_of_closed
    rw [hclose, update_self]
  rw [hctl]
  exact ⟨hclose, Kernel.close_socks hf⟩

/-- The server writes nothing, and what a client has sent it gets from the network. -/
theorem Trans.sock (hinv : s.Inv) (ht : Trans s a s') (k : SockId) :
    (s'.kernel.socks k).written = (s.kernel.socks k).written ∧
      ((∀ bs, a ≠ .segment k bs) → (s'.kernel.socks k).sent = (s.kernel.socks k).sent) := by
  cases ht with
  | connect | turn | enterAccept | enterRecv | skip => exact ⟨rfl, fun _ => rfl⟩
  | @segment t bs =>
    by_cases hk : k = t
    · subst hk
      have hsock : (s.kernel.segment k bs).socks k =
          { s.kernel.socks k with sent := (s.kernel.socks k).sent ++ bs } := update_self ..
      exact ⟨by rw [hsock], fun hno => absurd rfl (hno bs)⟩
    · have hsock : (s.kernel.segment t bs).socks k = s.kernel.socks k := update_of_ne hk ..
      exact ⟨congrArg Sock.written hsock, fun _ => congrArg Sock.sent hsock⟩
  | @wait batch =>
    have hsocks := (@Kernel.report_socks s.kernel batch).1
    exact ⟨by rw [hsocks], fun _ => by rw [hsocks]⟩
  | acceptFail =>
    have hsocks := (@Kernel.accept_socks s.kernel (-1)).1
    exact ⟨by rw [hsocks], fun _ => by rw [hsocks]⟩
  | @accept todo r =>
    have hsocks : (s.accepted r todo).kernel.socks = s.kernel.socks :=
      (Kernel.ctl_socks ..).1.trans (Kernel.accept_socks r).1
    exact ⟨by rw [hsocks], fun _ => by rw [hsocks]⟩
  | @recv fd todo r b hpc =>
    obtain ⟨t, hf⟩ := hinv.client hpc
    have hsocks := (Kernel.recv_socks hf r).1
    rw [hsocks]
    by_cases hk : k = t
    · subst hk
      rw [update_self]
      exact ⟨rfl, fun _ => rfl⟩
    · rw [update_of_ne hk]
      exact ⟨rfl, fun _ => rfl⟩
  | @leave fd todo r hpc =>
    obtain ⟨t, hf⟩ := hinv.client hpc
    rw [(dropped_kernel hf).2.1]
    by_cases hk : k = t
    · subst hk
      rw [update_self]
      exact ⟨rfl, fun _ => rfl⟩
    · rw [update_of_ne hk]
      exact ⟨rfl, fun _ => rfl⟩

theorem serving_receiving (hpc : s.pc = .receiving fd todo) :
    s.serving = some k ↔ s.kernel.file fd = some (.conn k) := by
  rw [serving, hpc]
  exact Kernel.sockOf_eq_some

theorem serving_eq_some (h : s.serving = some k) :
    ∃ fd todo, s.pc = .receiving fd todo ∧ s.kernel.file fd = some (.conn k) := by
  cases hpc : s.pc with
  | receiving fd todo => exact ⟨fd, todo, rfl, (serving_receiving hpc).mp h⟩
  | waiting | dispatch | accepting => simp [serving, hpc] at h

theorem serving_none (h : ∀ fd todo, s.pc ≠ .receiving fd todo) : s.serving = none := by
  unfold serving
  split
  next fd todo hpc => exact absurd hpc (h fd todo)
  next => rfl

/-- The client is open, and nothing else. -/
theorem Streams.open (h : s.Streams) (hf : s.kernel.file fd = some (.conn k)) :
    k < s.kernel.nextSock ∧ k ∉ s.kernel.backlog ∧ (s.kernel.socks k).closed = false := by
  refine ⟨Nat.lt_of_not_le fun hle => h.peers.new (.inr hle) hf,
    fun hq => h.peers.new (.inl hq) hf, ?_⟩
  cases hcl : (s.kernel.socks k).closed with
  | false => rfl
  | true => exact absurd hf ((h.closed hcl).2.2 fd)

/-- Steps that leave the streams alone. -/
theorem Streams.of_socks (h : s.Streams) (hp : s'.kernel.Peers)
    (hsocks : s'.kernel.socks = s.kernel.socks) (hserv : s'.serving = s.serving)
    (hbuf : s'.recvBuf = s.recvBuf)
    (hclosed : ∀ k, (s.kernel.socks k).closed = true →
      k < s'.kernel.nextSock ∧ k ∉ s'.kernel.backlog ∧ ∀ fd, s'.kernel.file fd ≠ some (.conn k)) :
    s'.Streams := by
  refine ⟨hp, ?_, ?_, ?_, ?_⟩
  · intro k
    rw [hsocks]
    exact hclosed k
  · intro k
    rw [hsocks]
    exact h.got_le
  · intro k
    rw [hsocks, hserv]
    exact h.fresh
  · intro k
    rw [hsocks, hserv, hbuf]
    exact h.holds

theorem Streams.connect (h : s.Streams) : { s with kernel := s.kernel.connect : Server }.Streams := by
  have hfile : s.kernel.connect.file = s.kernel.file := Kernel.connect_file
  refine h.of_socks h.peers.connect rfl ?_ rfl ?_
  · simp only [serving, Kernel.sockOf, hfile]
  · intro k hk
    obtain ⟨hlt, hq, hf⟩ := h.closed hk
    refine ⟨Nat.lt_succ_of_lt hlt, ?_, hfile ▸ hf⟩
    simp [Kernel.connect, hq, Nat.ne_of_lt hlt]

theorem Streams.segment (h : s.Streams) (k : SockId) (bs : List Byte) :
    { s with kernel := s.kernel.segment k bs : Server }.Streams := by
  have hfile : (s.kernel.segment k bs).file = s.kernel.file := Kernel.segment_file ..
  have hserv : ({ s with kernel := s.kernel.segment k bs } : Server).serving = s.serving := by
    simp only [serving, Kernel.sockOf, hfile]
  have hp : (s.kernel.segment k bs).Peers := h.peers.mono rfl rfl fun hf => hfile ▸ hf
  have hsock : ∀ t, ∃ ext, (s.kernel.segment k bs).socks t =
      { s.kernel.socks t with sent := (s.kernel.socks t).sent ++ ext } := by
    intro t
    by_cases ht : t = k
    · subst ht
      exact ⟨bs, update_self ..⟩
    · exact ⟨[], by rw [List.append_nil]; exact update_of_ne ht ..⟩
  refine ⟨hp, ?_, ?_, ?_, ?_⟩
  · intro t
    obtain ⟨ext, ht⟩ := hsock t
    rw [ht, hfile]
    exact h.closed
  · intro t
    obtain ⟨ext, ht⟩ := hsock t
    rw [ht]
    exact h.got_le.trans (by simp)
  · intro t
    obtain ⟨ext, ht⟩ := hsock t
    rw [ht, hserv]
    exact h.fresh
  · intro t hts
    obtain ⟨ext, ht⟩ := hsock t
    rw [ht, List.take_append_of_le_length h.got_le]
    exact h.holds (hserv ▸ hts)

/-- The receive loop begins with a client of whom nothing has been taken. -/
theorem Streams.enterRecv (h : s.Streams) (hpc : ∀ fd todo, s.pc ≠ .receiving fd todo) :
    { s with buffer := .zero _, bufferLen := 0, pc := .receiving fd todo : Server }.Streams := by
  have hserv := serving_none hpc
  refine ⟨h.peers, h.closed, h.got_le, ?_, ?_⟩
  · intro k _ hcl
    exact h.fresh (by simp [hserv]) hcl
  · intro k hk
    obtain ⟨fd', -, he, hf⟩ := serving_eq_some hk
    rw [h.fresh (by simp [hserv]) (h.open hf).2.2, List.take_zero]
    exact ⟨Buf.zero_holds, rfl⟩

/-- A pass through the receive loop takes the next bytes of the stream of its own client. -/
theorem Streams.recv {b : RecvBuf BUFFER_LENGTH} (h : s.Streams) (hpc : s.pc = .receiving fd todo)
    (hf : s.kernel.file fd = some (.conn k)) (hr : s.kernel.CanRecv fd s.recvBuf.request r)
    (hbuf : b.Holds ((s.kernel.socks k).sent.take (s.kernel.socks k).got ++ r.data)) :
    { s with
      kernel := s.kernel.recv fd r, buffer := b.buf, bufferLen := b.len : Server }.Streams := by
  have hfile : (s.kernel.recv fd r).file = s.kernel.file := Kernel.recv_file r
  obtain ⟨hsocks, hback, hnext⟩ := Kernel.recv_socks hf r
  have hpre := hr.data_prefix hf
  have hserv : ({ s with
      kernel := s.kernel.recv fd r, buffer := b.buf, bufferLen := b.len } : Server).serving =
      s.serving := by
    simp only [serving, Kernel.sockOf, hfile]
  have hp : (s.kernel.recv fd r).Peers := h.peers.mono hback hnext fun hf => hfile ▸ hf
  have hat := (serving_receiving hpc).mpr hf
  have hsock : (s.kernel.recv fd r).socks k =
      { s.kernel.socks k with got := (s.kernel.socks k).got + r.data.length } :=
    hsocks ▸ update_self ..
  have hother : ∀ {t}, t ≠ k → (s.kernel.recv fd r).socks t = s.kernel.socks t :=
    fun ht => hsocks ▸ update_of_ne ht ..
  refine ⟨hp, ?_, ?_, ?_, ?_⟩
  · intro t
    rw [hback, hnext, hfile]
    by_cases ht : t = k
    · subst ht
      rw [hsock]
      exact h.closed
    · rw [hother ht]
      exact h.closed
  · intro t
    by_cases ht : t = k
    · subst ht
      have hgot := @Streams.got_le _ h t
      have hlen := hpre.length_le
      rw [List.length_drop] at hlen
      rw [hsock]
      show (s.kernel.socks t).got + r.data.length ≤ (s.kernel.socks t).sent.length
      omega
    · rw [hother ht]
      exact h.got_le
  · intro t hts
    rw [hserv, hat] at hts
    have ht : t ≠ k := fun ht => hts (congrArg some ht.symm)
    rw [hother ht]
    apply h.fresh
    rw [hat]
    exact hts
  · intro t hts
    rw [hserv, hat] at hts
    cases hts
    rw [hsock, List.take_add, ← List.prefix_iff_eq_take.mp hpre]
    exact hbuf

/-- The client is closed, and its descriptor is free. -/
theorem Streams.dropped (h : s.Streams) (hpc : s.pc = .receiving fd todo)
    (hf : s.kernel.file fd = some (.conn k)) : (s.dropped fd todo).Streams := by
  obtain ⟨hlt, hq, -⟩ := h.open hf
  obtain ⟨hfile, hsocks, hback, hnext⟩ := @dropped_kernel s fd k todo hf
  have hgone : ∀ {x f}, (s.dropped fd todo).kernel.file x = some f →
      x ≠ fd ∧ s.kernel.file x = some f := by
    intro x f hx
    rw [hfile] at hx
    exact update_none_eq_some.mp hx
  have hat := (serving_receiving hpc).mpr hf
  refine ⟨h.peers.mono hback hnext fun hx => (hgone hx).2, ?_, ?_, ?_, ?_⟩
  · intro t
    rw [hback, hnext, hsocks]
    by_cases ht : t = k
    · subst ht
      intro _
      exact ⟨hlt, hq, fun x hx => (hgone hx).1 (h.peers.inj (hgone hx).2 hf)⟩
    · rw [update_of_ne ht]
      intro hcl
      obtain ⟨hlt, hq, hno⟩ := h.closed hcl
      exact ⟨hlt, hq, fun x hx => hno x (hgone hx).2⟩
  · intro t
    rw [hsocks]
    by_cases ht : t = k
    · subst ht
      rw [update_self]
      exact h.got_le
    · rw [update_of_ne ht]
      exact h.got_le
  · intro t _ hcl
    rw [hsocks] at hcl ⊢
    by_cases ht : t = k
    · subst ht
      rw [update_self] at hcl
      cases hcl
    · rw [update_of_ne ht] at hcl ⊢
      refine h.fresh ?_ hcl
      rw [hat]
      exact fun he => ht (Option.some.inj he).symm
  · intro t hts
    cases hts

/-- Both ways `accept` can go. -/
theorem Trans.accept_kernel {x : Fd} (h : Trans s (.accept x) s') :
    (s.kernel.CanAccept x ∧ (∃ todo, s.pc = .accepting todo ∧ s'.pc = .dispatch todo) ∧
      s'.recvBuf = s.recvBuf ∧ s'.kernel.file = (s.kernel.accept x).file) ∧
    s'.kernel.socks = s.kernel.socks ∧ s'.kernel.backlog = s.kernel.backlog.tail ∧
      s'.kernel.nextSock = s.kernel.nextSock := by
  cases h with
  | @acceptFail todo hpc =>
    refine ⟨⟨⟨.inl rfl, fun hne => absurd rfl hne⟩, ⟨todo, hpc, rfl⟩, rfl, rfl⟩, ?_⟩
    exact Kernel.accept_socks (-1)
  | @accept todo _ hpc hr hne =>
    obtain ⟨hsocks, hback, hnext⟩ := @Kernel.accept_socks s.kernel x
    obtain ⟨hsocks', hback', hnext'⟩ := @Kernel.ctl_socks (s.kernel.accept x) x .EPOLL_CTL_ADD
      (some ⟨EPOLLIN ||| EPOLLET, x⟩)
    refine ⟨⟨hr, ⟨todo, hpc, rfl⟩, rfl, Kernel.ctl_file ..⟩, ?_⟩
    exact ⟨hsocks'.trans hsocks, hback'.trans hback, hnext'.trans hnext⟩

theorem Streams.accept {x : Fd} (h : s.Streams) (ht : Trans s (.accept x) s') : s'.Streams := by
  obtain ⟨⟨hr, ⟨todo, hpc, hpc'⟩, hbuf, hfile⟩, hsocks, hback, hnext⟩ := ht.accept_kernel
  have hserv : s'.serving = s.serving := by simp only [serving, hpc, hpc']
  refine h.of_socks (ht.peers h.peers) hsocks hserv hbuf ?_
  intro k hk
  obtain ⟨hlt, hq, hno⟩ := h.closed hk
  refine ⟨hnext ▸ hlt, ?_, fun fd hf => ?_⟩
  · rw [hback]
    exact fun hm => hq (List.mem_of_mem_tail hm)
  · rw [hfile] at hf
    rcases Kernel.accept_file_conn hr.1 hf with hf | ⟨-, -, hhead⟩
    · exact hno fd hf
    · exact hq (List.mem_of_head? hhead)

theorem Streams.step (h : s.Streams) (hinv : s.Inv) (hs : s.Step a s') (ha : a.CleanRecv) :
    s'.Streams := by
  cases hs.trans with
  | connect => exact h.connect
  | segment => exact h.segment ..
  | @wait batch hpc =>
    obtain ⟨hsocks, hback, hnext⟩ := @Kernel.report_socks s.kernel batch
    refine h.of_socks (hs.trans.peers h.peers) hsocks ?_ rfl fun k hk => ?_
    · simp only [serving, hpc]
    · rw [hback, hnext, Kernel.report_file]
      exact h.closed hk
  | turn hpc | enterAccept hpc | skip hpc =>
    refine h.of_socks h.peers rfl ?_ rfl fun _ => h.closed
    simp only [serving, hpc]
  | enterRecv hpc => exact h.enterRecv fun fd todo => by rw [hpc]; simp
  | acceptFail | accept => exact h.accept hs.trans
  | @recv fd todo r b hpc hr =>
    obtain ⟨k, hf⟩ := hinv.client hpc
    have hbuf := h.holds ((serving_receiving hpc).mpr hf)
    exact h.recv hpc hf hr ((hs.receiver hpc).holds ha hbuf)
  | leave hpc =>
    obtain ⟨k, hf⟩ := hinv.client hpc
    exact h.dropped hpc hf

end

/-! ## The visits in the state of the server -/

/-- The step of a visit that a step of the server is, if any. -/
def label (s : Server) : Act → Option (SockId × VisitAct BUFFER_LENGTH)
  | .connect => some (s.kernel.nextSock, .connect)
  | .segment k bs => some (k, .arrive bs)
  | .accept r => s.kernel.backlog.head?.map fun k => (k, if r = -1 then .refuse else .accept)
  | .next =>
    match s.pc with
    | .dispatch (e :: _) =>
      if e.data ≠ s.serverfd ∧ e.events = EPOLLIN then
        (s.kernel.sockOf e.data).map fun k => (k, .turn)
      else none
    | _ => none
  | .recv (.bytes bs) => s.serving.map fun k => (k, .take bs)
  | .recv _ => s.serving.map fun k => (k, .print s.buffer)
  | .wait _ => none

open Classical in
/-- Where the client `k` is. -/
noncomputable def station (s : Server) (k : SockId) : Station :=
  if s.kernel.nextSock ≤ k then .away
  else if k ∈ s.kernel.backlog then .queued
  else if (s.kernel.socks k).closed = true then .closed
  else if s.serving = some k then .reading
  else if ∃ fd, s.kernel.file fd = some (.conn k) then .waiting
  else .refused

noncomputable def visit (s : Server) (k : SockId) : Visit :=
  ⟨(s.kernel.socks k).sent, (s.kernel.socks k).got, s.station k⟩

section
variable {s s' : Server} {a : Act} {fd : Fd} {k t : SockId} {todo : List EpollEvent}
  {r : RecvResult}

theorem station_away (hk : s.kernel.nextSock ≤ k) : s.station k = .away := if_pos hk

theorem station_ne_away (hk : k < s.kernel.nextSock) : s.station k ≠ .away := by
  rw [station, if_neg (Nat.not_le.mpr hk)]
  split_ifs <;> simp

theorem Streams.station_queued (h : s.Streams) (hk : k ∈ s.kernel.backlog) :
    s.station k = .queued := by
  rw [station, if_neg (Nat.not_le.mpr (h.peers.lt hk)), if_pos hk]

theorem Streams.station_closed (h : s.Streams) (hk : (s.kernel.socks k).closed = true) :
    s.station k = .closed := by
  obtain ⟨hlt, hq, -⟩ := h.closed hk
  rw [station, if_neg (Nat.not_le.mpr hlt), if_neg hq, if_pos hk]

theorem Streams.station_open (h : s.Streams) (hf : s.kernel.file fd = some (.conn k)) :
    s.station k = if s.serving = some k then .reading else .waiting := by
  obtain ⟨hlt, hq, hcl⟩ := h.open hf
  have hopen : ∃ fd, s.kernel.file fd = some (.conn k) := ⟨fd, hf⟩
  rw [station, if_neg (Nat.not_le.mpr hlt), if_neg hq, hcl, if_neg Bool.false_ne_true,
    if_pos hopen]

theorem Streams.station_reading (h : s.Streams) : s.station k = .reading ↔ s.serving = some k := by
  constructor
  · intro hk
    unfold station at hk
    split_ifs at hk with _ _ _ hs
    exact hs
  · intro hs
    obtain ⟨fd, todo, hpc, hf⟩ := serving_eq_some hs
    rw [h.station_open hf, if_pos hs]

/-- One client at most is at the desk. -/
theorem Streams.alone (h : s.Streams) (hk : (s.visit k).Inside) (ht : (s.visit t).Inside) :
    k = t := by
  have hk := h.station_reading.mp hk
  have ht := h.station_reading.mp ht
  exact Option.some.inj (hk.symm.trans ht)

theorem visit_eq {q : Station} (hsock : s'.kernel.socks k = s.kernel.socks k)
    (hq : s'.station k = q) : s'.visit k = { s.visit k with station := q } := by
  rw [visit, visit, hsock, hq]

/-- What a step has to leave alone for a client. -/
theorem station_congr (hn : s'.kernel.nextSock ≤ k ↔ s.kernel.nextSock ≤ k)
    (hq : k ∈ s'.kernel.backlog ↔ k ∈ s.kernel.backlog)
    (hcl : (s'.kernel.socks k).closed = (s.kernel.socks k).closed)
    (hs : s'.serving = some k ↔ s.serving = some k)
    (hf : ∀ fd, s'.kernel.file fd = some (.conn k) ↔ s.kernel.file fd = some (.conn k)) :
    s'.station k = s.station k := by
  classical
  have hopen := exists_congr hf
  simp only [station, hn, hq, hcl, hs, hopen]

theorem visit_congr (hsock : s'.kernel.socks k = s.kernel.socks k)
    (hn : s'.kernel.nextSock ≤ k ↔ s.kernel.nextSock ≤ k)
    (hq : k ∈ s'.kernel.backlog ↔ k ∈ s.kernel.backlog)
    (hs : s'.serving = some k ↔ s.serving = some k)
    (hf : ∀ fd, s'.kernel.file fd = some (.conn k) ↔ s.kernel.file fd = some (.conn k)) :
    s'.visit k = s.visit k := by
  rw [visit, visit, station_congr hn hq (congrArg Sock.closed hsock) hs hf, hsock]

/-- What the visits see of a step. -/
def Shown (s : Server) (a : Act) (s' : Server) : Prop :=
  (s.label a = none ∧ s'.visit = s.visit) ∨
    ∃ b, s.label a = some b ∧ Interleave Visit.Step s.visit b s'.visit

theorem shown_step {b : VisitAct BUFFER_LENGTH} (hl : s.label a = some (k, b))
    (hst : Visit.Step (s.visit k) b (s'.visit k)) (hother : ∀ t, t ≠ k → s'.visit t = s.visit t) :
    s.Shown a s' := .inr ⟨(k, b), hl, hst, hother⟩

/-! ## The steps -/

theorem Streams.shown_connect (h : s.Streams) :
    s.Shown .connect { s with kernel := s.kernel.connect } := by
  have hfile : s.kernel.connect.file = s.kernel.file := Kernel.connect_file
  refine shown_step rfl ?_ fun t ht => ?_
  · have hq : ({ s with kernel := s.kernel.connect } : Server).station s.kernel.nextSock = .queued :=
      h.connect.station_queued (by simp [Kernel.connect])
    rw [visit_eq rfl hq]
    exact .connect (station_away (Nat.le_refl _))
  · refine visit_congr rfl ?_ ?_ ?_ ?_
    · exact ⟨Nat.le_of_succ_le, fun hle => Nat.lt_of_le_of_ne hle (Ne.symm ht)⟩
    · simp [Kernel.connect, show t ≠ s.kernel.nextSock from ht]
    · simp only [serving, Kernel.sockOf, hfile]
    · simp [hfile]

theorem shown_segment {bs : List Byte} (hk : k < s.kernel.nextSock) :
    s.Shown (.segment k bs) { s with kernel := s.kernel.segment k bs } := by
  have hfile : (s.kernel.segment k bs).file = s.kernel.file := Kernel.segment_file ..
  have hserv : ({ s with kernel := s.kernel.segment k bs } : Server).serving = s.serving := by
    simp only [serving, Kernel.sockOf, hfile]
  have hsock : (s.kernel.segment k bs).socks k =
      { s.kernel.socks k with sent := (s.kernel.socks k).sent ++ bs } := update_self ..
  refine shown_step rfl ?_ fun t ht => ?_
  · have hstation : ({ s with kernel := s.kernel.segment k bs } : Server).station k =
        s.station k := by
      refine station_congr .rfl .rfl ?_ ?_ ?_
      · rw [hsock]
      · rw [hserv]
      · simp [hfile]
    rw [visit, visit, hstation, hsock]
    exact .arrive (station_ne_away hk)
  · refine visit_congr (update_of_ne ht ..) .rfl .rfl ?_ ?_
    · rw [hserv]
    · simp [hfile]

/-- Steps of which no client sees anything. -/
theorem shown_silent (hl : s.label a = none) (hsocks : s'.kernel.socks = s.kernel.socks)
    (hnext : s'.kernel.nextSock = s.kernel.nextSock)
    (hback : s'.kernel.backlog = s.kernel.backlog) (hserv : s'.serving = s.serving)
    (hfile : s'.kernel.file = s.kernel.file) : s.Shown a s' := by
  refine .inl ⟨hl, funext fun t => ?_⟩
  apply visit_congr (congrFun hsocks t)
  · rw [hnext]
  · rw [hback]
  · rw [hserv]
  · simp [hfile]

/-- A client comes to the desk. -/
theorem Streams.shown_enterRecv {e : EpollEvent} (h : s.Streams)
    (hpc : s.pc = .dispatch (e :: todo)) (hne : e.data ≠ s.serverfd) (he : e.events = EPOLLIN)
    (hf : s.kernel.file e.data = some (.conn k)) :
    s.Shown .next { s with buffer := .zero _, bufferLen := 0, pc := .receiving e.data todo } := by
  have hno : ∀ fd todo, s.pc ≠ .receiving fd todo := fun fd todo => by rw [hpc]; simp
  have hserv := serving_none hno
  have hat : ({ s with
      buffer := .zero _
      bufferLen := 0
      pc := .receiving e.data todo } : Server).serving = some k := Kernel.sockOf_eq_some.mpr hf
  have hl : s.label .next = some (k, .turn) := by
    simp [label, hpc, hne, he, Kernel.sockOf_eq_some.mpr hf]
  refine shown_step hl ?_ fun t ht => ?_
  · rw [visit_eq rfl ((h.enterRecv hno).station_reading.mpr hat)]
    refine .turn ((h.station_open hf).trans (if_neg ?_))
    rw [hserv]
    exact fun hn => by cases hn
  · refine visit_congr rfl .rfl .rfl ?_ fun _ => .rfl
    rw [hat, hserv]
    simp [Ne.symm ht]

/-- `accept` is about the first of the queue. -/
theorem accept_keeps {x : Fd} (ht : Trans s (.accept x) s')
    (hhead : s.kernel.backlog.head? ≠ some t) : s'.visit t = s.visit t := by
  obtain ⟨⟨hr, ⟨todo, hpc, hpc'⟩, -, hfile⟩, hsocks, hback, hnext⟩ := ht.accept_kernel
  apply visit_congr (congrFun hsocks t)
  · rw [hnext]
  · rw [hback]
    exact Kernel.mem_tail_backlog hhead
  · simp only [serving, hpc, hpc']
  · intro fd
    rw [hfile]
    refine ⟨fun hf => ?_, Kernel.accept_file_of_some hr.1⟩
    exact (Kernel.accept_file_conn hr.1 hf).resolve_right fun hopen => hhead hopen.2.2

/-- The first of the queue is turned away. -/
theorem Streams.accept_refused {rest : List SockId} (h : s.Streams) (ht : Trans s (.accept (-1)) s')
    (hb : s.kernel.backlog = k :: rest) : s'.station k = .refused := by
  have hk : k ∈ s.kernel.backlog := by simp [hb]
  obtain ⟨⟨hr, ⟨todo, -, hpc'⟩, -, hfile⟩, hsocks, hback, hnext⟩ := ht.accept_kernel
  have hq : k ∉ s'.kernel.backlog := by
    have hnd := h.peers.nodup
    rw [hb] at hnd
    rw [hback, hb]
    exact (List.nodup_cons.mp hnd).1
  have hcl : (s'.kernel.socks k).closed = false := by
    rw [hsocks]
    exact Bool.eq_false_iff.mpr fun hcl => (h.closed hcl).2.1 hk
  have hserv : s'.serving = none := by simp only [serving, hpc']
  have hno : ¬ ∃ fd, s'.kernel.file fd = some (.conn k) := by
    rintro ⟨fd, hf⟩
    rw [hfile, Kernel.accept_fail.1] at hf
    exact h.peers.new (.inl hk) hf
  rw [station, hnext, if_neg (Nat.not_le.mpr (h.peers.lt hk)), if_neg hq, hcl,
    if_neg Bool.false_ne_true, hserv, if_neg (by simp), if_neg hno]

/-- The first of the queue is let in. -/
theorem Streams.accept_waiting {x : Fd} {rest : List SockId} (h : s.Streams)
    (ht : Trans s (.accept x) s') (hx : x ≠ -1) (hb : s.kernel.backlog = k :: rest) :
    s'.station k = .waiting := by
  obtain ⟨⟨hr, ⟨todo, -, hpc'⟩, -, hfile⟩, -⟩ := ht.accept_kernel
  have hserv : s'.serving = none := by simp only [serving, hpc']
  have hf : s'.kernel.file x = some (.conn k) := by
    have hpos : 0 ≤ x := (hr.1.resolve_left hx).1
    rw [hfile, (Kernel.accept_ok hpos hb).1, update_self]
  rw [(h.accept ht).station_open hf, hserv]
  exact if_neg (by simp)

/-- The first client of the queue is let in or turned away. -/
theorem Streams.shown_accept {x : Fd} (h : s.Streams) (ht : Trans s (.accept x) s') :
    s.Shown (.accept x) s' := by
  have hsocks := ht.accept_kernel.2.1
  cases hb : s.kernel.backlog with
  | nil => exact .inl ⟨by simp [label, hb], funext fun t => accept_keeps ht (by simp [hb])⟩
  | cons k rest =>
    have hqueued := h.station_queued (k := k) (by simp [hb])
    have hl : s.label (.accept x) = some (k, if x = -1 then .refuse else .accept) := by
      simp [label, hb]
    refine shown_step hl ?_ fun t hne => accept_keeps ht ?_
    · by_cases hx : x = -1
      · subst hx
        rw [visit_eq (congrFun hsocks k) (h.accept_refused ht hb)]
        exact .refuse hqueued
      · rw [visit_eq (congrFun hsocks k) (h.accept_waiting ht hx hb), if_neg hx]
        exact .accept hqueued
    · rw [hb]
      exact fun he => hne (Option.some.inj he).symm

theorem Streams.shown_recv {b : RecvBuf BUFFER_LENGTH} {bs : List Byte} (h : s.Streams)
    (hpc : s.pc = .receiving fd todo) (hf : s.kernel.file fd = some (.conn k))
    (hr : s.kernel.CanRecv fd s.recvBuf.request (.bytes bs))
    (h' : { s with kernel := s.kernel.recv fd (.bytes bs), buffer := b.buf, bufferLen := b.len :
      Server }.Streams) :
    s.Shown (.recv (.bytes bs))
      { s with kernel := s.kernel.recv fd (.bytes bs), buffer := b.buf, bufferLen := b.len } := by
  have hfile : (s.kernel.recv fd (.bytes bs)).file = s.kernel.file := Kernel.recv_file _
  obtain ⟨hsocks, hback, hnext⟩ := Kernel.recv_socks hf (.bytes bs)
  have hat := (serving_receiving hpc).mpr hf
  have hserv : ({ s with
      kernel := s.kernel.recv fd (.bytes bs)
      buffer := b.buf
      bufferLen := b.len } : Server).serving = s.serving := by
    simp only [serving, Kernel.sockOf, hfile]
  have hsock : (s.kernel.recv fd (.bytes bs)).socks k =
      { s.kernel.socks k with got := (s.kernel.socks k).got + bs.length } :=
    hsocks ▸ update_self ..
  have hl : s.label (.recv (.bytes bs)) = some (k, .take bs) := by simp [label, hat]
  refine shown_step hl ?_ fun t ht => ?_
  · have hreading := h.station_reading.mpr hat
    have hreading' := h'.station_reading.mpr (hserv.trans hat)
    have hroom : (s.kernel.socks k).got + bs.length ≤ BUFFER_LENGTH := by
      have hgot := @Streams.got_le _ h' k
      have hlen := (h'.holds (hserv.trans hat)).1.length_le
      rwa [List.length_take_of_le hgot, hsock] at hlen
    rw [visit, visit, hreading', hsock, hreading]
    exact .take rfl hr.1 (hr.data_prefix hf) hroom
  · apply visit_congr
    · exact hsocks ▸ update_of_ne ht ..
    · rw [hnext]
    · rw [hback]
    · rw [hserv]
    · simp [hfile]

/-- The buffer is printed and the client is closed. -/
theorem Streams.shown_leave (h : s.Streams) (hpc : s.pc = .receiving fd todo)
    (hf : s.kernel.file fd = some (.conn k)) (hd : r.data = []) (hr : r ≠ .bytes []) :
    s.Shown (.recv r) (s.dropped fd todo) := by
  have hat := (serving_receiving hpc).mpr hf
  obtain ⟨hfile, hsocks, hback, hnext⟩ := @dropped_kernel s fd k todo hf
  have hserv : (s.dropped fd todo).serving = none := rfl
  have hl : s.label (.recv r) = some (k, .print s.buffer) := by
    cases r with
    | bytes bs => exact absurd (congrArg RecvResult.bytes hd) hr
    | eof | fail => simp [label, hat]
  have hsock : (s.dropped fd todo).kernel.socks k = { s.kernel.socks k with closed := true } := by
    rw [hsocks, update_self]
  refine shown_step hl ?_ fun t ht => ?_
  · have hclosed : (s.dropped fd todo).station k = .closed :=
      (h.dropped hpc hf).station_closed (by rw [hsock])
    rw [visit, visit, hclosed, hsock]
    exact .print (h.station_reading.mpr hat) (h.holds hat).1
  · apply visit_congr
    · rw [hsocks, update_of_ne ht]
    · rw [hnext]
    · rw [hback]
    · rw [hserv, hat]
      simp [Ne.symm ht]
    · intro x
      rw [hfile]
      refine ⟨fun hx => (update_none_eq_some.mp hx).2, fun hx => ?_⟩
      refine update_none_eq_some.mpr ⟨?_, hx⟩
      rintro rfl
      cases hf.symm.trans hx
      exact ht rfl

/-- Every step is a step of one visit or of none. -/
theorem Streams.shown (h : s.Streams) (hinv : s.Inv) (hs : s.Step a s') (ha : a.CleanRecv) :
    s.Shown a s' := by
  have h' := h.step hinv hs ha
  cases hs.trans with
  | connect => exact h.shown_connect
  | segment => exact shown_segment hs.1
  | @wait batch hpc =>
    obtain ⟨hsocks, hback, hnext⟩ := @Kernel.report_socks s.kernel batch
    refine shown_silent rfl hsocks hnext hback ?_ (Kernel.report_file batch)
    simp only [serving, hpc]
  | turn hpc =>
    refine shown_silent ?_ rfl rfl rfl ?_ rfl
    · simp [label, hpc]
    · simp only [serving, hpc]
  | enterAccept hpc he =>
    refine shown_silent ?_ rfl rfl rfl ?_ rfl
    · simp [label, hpc, he]
    · simp only [serving, hpc]
  | skip hpc _ he =>
    refine shown_silent ?_ rfl rfl rfl ?_ rfl
    · simp [label, hpc, he]
    · simp only [serving, hpc]
  | @enterRecv e todo hpc hne he =>
    have hreg := hinv.batch.registered e.data (by simp [hpc, Pc.fds])
    obtain ⟨k, hf⟩ := (hinv.table.interest_isSome.mp hreg).resolve_left hne
    exact h.shown_enterRecv hpc hne he hf
  | acceptFail | accept => exact h.shown_accept hs.trans
  | @recv fd todo r b hpc hr hp =>
    obtain ⟨k, hf⟩ := hinv.client hpc
    have hstop := RecvBuf.pass_stops hp
    cases r with
    | bytes bs => exact h.shown_recv hpc hf hr h'
    | eof => cases hstop
    | fail e => cases hstop.trans (stops_fail.mpr ha)
  | leave hpc hr hp =>
    obtain ⟨k, hf⟩ := hinv.client hpc
    exact h.shown_leave hpc hf (RecvBuf.pass_true hr.ne_nil hp).1 hr.ne_nil

end
end Server

/-! ## The refinement -/

/-- The steps of visits in a run. -/
def labels (xs : List (Server × Act)) : List (SockId × VisitAct BUFFER_LENGTH) :=
  xs.filterMap fun x => x.1.label x.2

/-- The part of a run that is about the client `k`. -/
def visitActs (xs : List (Server × Act)) (k : SockId) : List (VisitAct BUFFER_LENGTH) :=
  ((labels xs).filter (·.1 = k)).map Prod.snd

section
variable {e : Boot} {s₀ s : Server} {xs : List (Server × Act)}

theorem Boot.start_streams (hb : e.main = some s₀) :
    s₀.Streams ∧ s₀.visit = fun _ => {} := by
  obtain ⟨hfd, rfl⟩ := Boot.main_eq hb
  obtain ⟨hsocks, hback, hnext⟩ := @Kernel.ctl_socks (Kernel.init e.others e.serverfd) e.serverfd
    .EPOLL_CTL_ADD (some ⟨EPOLLIN ||| EPOLLET, e.serverfd⟩)
  have hsocks : e.started.kernel.socks = fun _ => {} := hsocks.trans (Kernel.setFile_socks _)
  have hback : e.started.kernel.backlog = [] := hback.trans (Kernel.setFile_backlog _)
  have hnext : e.started.kernel.nextSock = 0 := hnext.trans (Kernel.setFile_nextSock _)
  have hfile : ∀ fd k, e.started.kernel.file fd ≠ some (.conn k) := by
    intro fd k
    rw [show e.started.kernel.file = _ from Kernel.ctl_file ..]
    exact Kernel.init_file_conn hfd fd k
  refine ⟨⟨⟨?_, ?_, fun _ => hfile _ _, fun hf => absurd hf (hfile _ _)⟩, ?_, ?_, ?_, ?_⟩, ?_⟩
  · rw [hback]
    exact .nil
  · intro k hk
    rw [hback] at hk
    cases hk
  · intro k hk
    rw [hsocks] at hk
    cases hk
  · intro k
    rw [hsocks]
    exact Nat.le_refl _
  · intro k _ _
    rw [hsocks]
  · intro k hk
    cases hk
  · funext k
    rw [Server.visit, Server.station_away (hnext ▸ Nat.zero_le k), hsocks]

theorem Boot.streams (hb : e.main = some s₀) (hx : Exec Server.Step s₀ xs s)
    (hclean : ∀ x ∈ xs, x.2.CleanRecv) : s.Streams := by
  induction hx with
  | nil => exact (Boot.start_streams hb).1
  | @snoc xs t a u hx hst ih =>
    have ht := ih fun x hx => hclean x (List.mem_append_left _ hx)
    exact ht.step (Boot.exec hb hx).1 hst (hclean (t, a) (by simp))

/-- The steps of visits in a run are a run of visits that take turns. -/
theorem Boot.turns (hb : e.main = some s₀) (hx : Exec Server.Step s₀ xs s)
    (hclean : ∀ x ∈ xs, x.2.CleanRecv) :
    ∃ ys, Exec (Turns Visit.Step Visit.Inside) (fun _ => {}) ys s.visit ∧
      ys.map Prod.snd = labels xs := by
  obtain ⟨hstart, hvisit⟩ := Boot.start_streams hb
  obtain ⟨ys, f, hy, ⟨-, -, rfl⟩, hlab⟩ := @Exec.refines _ _ _ _ _ _ _ _ (fun _ a => a.CleanRecv)
    (Turns Visit.Step Visit.Inside) (fun s f => s.Inv ∧ s.Streams ∧ f = s.visit)
    (fun _ => {}) Server.label hx hclean ⟨(Boot.start hb).1, hstart, hvisit.symm⟩ (by
      rintro t f a u ⟨hinv, ht, rfl⟩ ha hst
      have hu := ht.step hinv hst ha
      rcases ht.shown hinv hst ha with ⟨hl, he⟩ | ⟨b, hl, hstep⟩
      · exact .inl ⟨hl, hinv.step hst, hu, he.symm⟩
      · refine .inr ⟨b, u.visit, hl, ⟨hstep, ?_⟩, hinv.step hst, hu, rfl⟩
        exact fun i j => hu.alone)
  exact ⟨ys, hy, hlab⟩

theorem Boot.transcript (hb : e.main = some s₀) (hx : Exec Server.Step s₀ xs s)
    (hclean : ∀ x ∈ xs, x.2.CleanRecv) (k : SockId) :
    Visit.Transcript (visitActs xs k) (s.visit k) := by
  obtain ⟨ys, hy, hlab⟩ := Boot.turns hb hx hclean
  have hacts : ((ys.filter (·.2.1 = k)).map fun y => (y.1 k, y.2.2)).map Prod.snd =
      visitActs xs k := by
    rw [visitActs, ← hlab, List.filter_map, List.map_map, List.map_map]
    rfl
  rw [← hacts]
  exact Visit.transcript ((Turns.interleave hy).project k)

/-! ## What is printed -/

def Event.printed? : Event → Option (Buf BUFFER_LENGTH)
  | .printed b => some b
  | .accepted _ | .closed _ | .ctl .. => none

/-- The buffers that have been printed. -/
def Server.printed (s : Server) : List (Buf BUFFER_LENGTH) := s.trace.filterMap Event.printed?

theorem Server.mem_printed {b : Buf BUFFER_LENGTH} : b ∈ s.printed ↔ .printed b ∈ s.trace := by
  rw [printed, List.mem_filterMap]
  constructor
  · rintro ⟨ev, hev, hb⟩
    cases ev with
    | printed b' =>
      cases hb
      exact hev
    | accepted | closed | ctl => cases hb
  · exact fun hb => ⟨_, hb, rfl⟩

theorem Server.printed_append {s' : Server} {es : List Event} (h : s'.trace = s.trace ++ es) :
    s'.printed = s.printed ++ es.filterMap Event.printed? := by
  rw [printed, h, List.filterMap_append]
  rfl

/-- What a step prints is what it shows of a visit. -/
theorem Server.Inv.printed_step {s' : Server} {a : Act} (h : s.Inv) (hs : s.Step a s')
    (ha : a.CleanRecv) :
    s'.printed = s.printed ++ Visit.printed ((s.label a).toList.map Prod.snd) := by
  cases hs.trans with
  | connect | segment | wait => exact (List.append_nil _).symm
  | turn hpc => simp [Server.printed, label, hpc, Visit.printed]
  | enterAccept hpc he => simp [Server.printed, label, hpc, he, Visit.printed]
  | skip hpc _ he => simp [Server.printed, label, hpc, he, Visit.printed]
  | @enterRecv e todo hpc hne he =>
    cases hk : s.kernel.sockOf e.data <;> simp [Server.printed, label, hpc, hne, he, hk, Visit.printed]
  | acceptFail =>
    cases hb : s.kernel.backlog.head? <;> simp [Server.printed, label, hb, Visit.printed]
  | accept _ _ hne =>
    rw [printed_append rfl]
    cases hb : s.kernel.backlog.head? <;> simp [label, hb, hne, Visit.printed, Event.printed?]
  | @recv fd todo r b hpc hr hp =>
    have hstop := RecvBuf.pass_stops hp
    cases r with
    | bytes bs => cases hk : s.serving <;> simp [Server.printed, label, hk, Visit.printed]
    | eof => cases hstop
    | fail e => cases hstop.trans (stops_fail.mpr ha)
  | @leave fd todo r hpc hr hp =>
    obtain ⟨k, hf⟩ := h.client hpc
    have hat := (serving_receiving hpc).mpr hf
    rw [printed_append rfl]
    cases r with
    | bytes bs => exact absurd (congrArg RecvResult.bytes (RecvBuf.pass_true hr.ne_nil hp).1) hr.ne_nil
    | eof | fail => simp [label, hat, Visit.printed, Event.printed?]

theorem Boot.printed_eq (hb : e.main = some s₀) (hx : Exec Server.Step s₀ xs s)
    (hclean : ∀ x ∈ xs, x.2.CleanRecv) : s.printed = Visit.printed ((labels xs).map Prod.snd) := by
  induction hx with
  | nil =>
    obtain ⟨-, rfl⟩ := Boot.main_eq hb
    rfl
  | @snoc xs t a u hx hst ih =>
    have ht := ih fun x hx => hclean x (List.mem_append_left _ hx)
    have hinv := (Boot.exec hb hx).1
    rw [hinv.printed_step hst (hclean (t, a) (by simp)), ht, labels, labels, List.filterMap_append,
      List.map_append, Visit.printed, Visit.printed, Visit.printed, List.filterMap_append]
    cases ha : t.label a <;> simp [ha]

theorem mem_printed_labels {b : Buf BUFFER_LENGTH} :
    b ∈ Visit.printed ((labels xs).map Prod.snd) ↔ ∃ k, b ∈ Visit.printed (visitActs xs k) := by
  have hmem : ∀ as : List (VisitAct BUFFER_LENGTH), b ∈ Visit.printed as ↔ .print b ∈ as := by
    intro as
    rw [Visit.printed, List.mem_filterMap]
    constructor
    · rintro ⟨a, ha, hb⟩
      cases a <;> cases hb
      exact ha
    · exact fun hb => ⟨_, hb, rfl⟩
  simp [hmem, visitActs]

/-- What has been printed are the buffers of those who have been closed. -/
theorem Boot.printed_iff (hb : e.main = some s₀) (hx : Exec Server.Step s₀ xs s)
    (hclean : ∀ x ∈ xs, x.2.CleanRecv) {b : Buf BUFFER_LENGTH} :
    .printed b ∈ s.trace ↔ ∃ k, s.station k = .closed ∧ b.Holds (s.visit k).taken := by
  rw [← Server.mem_printed, Boot.printed_eq hb hx hclean, mem_printed_labels]
  refine exists_congr fun k => ?_
  have htr := Boot.transcript hb hx hclean k
  rw [htr.taken]
  by_cases hk : s.station k = .closed
  · obtain ⟨b', hb', hholds⟩ := htr.once hk
    rw [hb', List.mem_singleton]
    constructor
    · rintro rfl
      exact ⟨hk, hholds⟩
    · rintro ⟨-, hb⟩
      exact hb.unique hholds
  · rw [htr.silent hk]
    simp [hk]

/-- A run of the server without receive errors is visits that take turns at its one buffer, and
what is printed in a visit is what has been received in it. -/
theorem Boot.visits (hb : e.main = some s₀) (hx : Exec Server.Step s₀ xs s)
    (hclean : ∀ x ∈ xs, x.2.CleanRecv) :
    (∃ ys, Exec (Turns Visit.Step Visit.Inside) (fun _ => {}) ys s.visit ∧
      ys.map Prod.snd = labels xs) ∧
    Unmixed Visit.AtDesk (labels xs) ∧ ∀ k, Visit.Transcript (visitActs xs k) (s.visit k) := by
  obtain ⟨ys, hy, hlab⟩ := Boot.turns hb hx hclean
  have hunmixed : Unmixed Visit.AtDesk (ys.map Prod.snd) := Visit.unmixed hy fun _ => rfl
  exact ⟨⟨ys, hy, hlab⟩, hlab ▸ hunmixed, Boot.transcript hb hx hclean⟩

/-- The second client is read into the buffer that the first one has left more in. -/
def secondRun : List Act := reuseRun ++ [.segment 1 [33], .wait [(5, EPOLLIN)], .next,
  .recv (.bytes [33]), .recv .eof, .next]

theorem Boot.visits_second : ∃ s₀ s xs, Boot.plain.main = some s₀ ∧
    Exec Server.Step s₀ xs s ∧ xs.map Prod.snd = secondRun ∧
    (∃ ys, Exec (Turns Visit.Step Visit.Inside) (fun _ => {}) ys s.visit ∧
      ys.map Prod.snd = labels xs) ∧
    Unmixed Visit.AtDesk (labels xs) ∧ ∀ k, Visit.Transcript (visitActs xs k) (s.visit k) := by
  obtain ⟨s₀, s, xs, h₀, hx, hacts, -⟩ :=
    @Boot.plain_run secondRun (fun _ => True) ⟨_, rfl, trivial⟩
  have hall : ∀ a ∈ secondRun, a.CleanRecv := by
    simp [secondRun, reuseRun, Act.CleanRecv, RecvResult.Clean]
  have hclean : ∀ x ∈ xs, x.2.CleanRecv := Exec.forall_labels hacts hall
  exact ⟨s₀, s, xs, h₀, hx, hacts, Boot.visits h₀ hx hclean⟩

end
end OnlineChat.ChatServer
