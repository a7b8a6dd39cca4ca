import OnlineChat.Reactor.EchoSession
import OnlineChat.Reactor.Returns

/-!
# The server is an interleaving of echo sessions

A run of the server without receive errors is, step by step, a run of independent sessions: what a
step does for one client (`World.label`) is a step of that client's session, and all the rest of
what the server does, to descriptors, registrations, objects and the batch, shows in none. So what
happens to a client is what would happen to it if it were the only one.
-/

namespace OnlineChat.Reactor
open Lib Function

/-! ## What a step does for a client -/

/-- The connection that a callback runs on, and the client behind it. -/
def World.serving (w : World) : Option (Connection × SockId) := do
  let c ← w.pc.running
  let conn ← w.heap c
  let s ← w.kernel.sockOf conn.fd
  pure (conn, s)

/-- The step of a session that a step of the server is, if any. -/
def World.label (w : World) : Act → Option (SockId × SessionAct)
  | .connect => some (w.kernel.nextSock, .connect)
  | .segment s bs => some (s, .arrive bs)
  | .accept r _ => w.kernel.backlog.head?.map fun s => (s, if r = -1 then .refuse else .accept)
  | .recv (.bytes bs) => w.serving.map fun x => (x.2, .take bs)
  | .recv _ => w.serving.map fun x => (x.2, .finish)
  | .write n past => w.serving.map fun x => (x.2, .answer ((x.1.wbuffer.bytes ++ past).take n))
  | .wait _ | .next => none

/-! ## The sessions in the state of the server -/

def Core.phase (k : Core) : Phase := if k.event.events = EPOLLOUT then .answering else .reading

/-- How far the server has come with the client `s`. -/
inductive World.PhaseIs (w : World) (s : SockId) : Phase → Prop
  | unborn : w.kernel.nextSock ≤ s → w.PhaseIs s .unborn
  | queued : s ∈ w.kernel.backlog → w.PhaseIs s .queued
  | served {c k p} : c ≠ w.servSock → w.registry.core c = some k →
    w.kernel.file k.fd = some (.conn s) → k.phase = p → w.PhaseIs s p
  | closed : (w.kernel.socks s).closed = true → w.PhaseIs s .closed
  | refused : s < w.kernel.nextSock → s ∉ w.kernel.backlog → (w.kernel.socks s).closed = false →
    (∀ fd, w.kernel.file fd ≠ some (.conn s)) → w.PhaseIs s .refused

def Sock.session (x : Sock) (p : Phase) : Session := ⟨x.sent, x.got, x.written, p⟩

/-- The session of the client `s`. -/
def World.Shows (w : World) (s : SockId) (x : Session) : Prop :=
  ∃ p, w.PhaseIs s p ∧ x = Sock.session (w.kernel.socks s) p

section
variable {w w' : World} {c : ConnId} {conn : Connection} {s t : SockId} {p : Phase}

theorem World.PhaseIs.eq_unborn (h : w.Streams) (hp : w.PhaseIs s p)
    (hs : w.kernel.nextSock ≤ s) : p = .unborn := by
  cases hp with
  | unborn => rfl
  | queued hq => exact absurd (h.lt hq) (Nat.not_lt.mpr hs)
  | served _ _ hf => exact absurd hf ((h.new (.inr hs)).2.2 _)
  | closed hcl => exact absurd (h.closed hcl).1 (Nat.not_lt.mpr hs)
  | refused hlt => exact absurd hlt (Nat.not_lt.mpr hs)

theorem World.PhaseIs.eq_queued (h : w.Streams) (hp : w.PhaseIs s p)
    (hs : s ∈ w.kernel.backlog) : p = .queued := by
  cases hp with
  | unborn hle => exact absurd (h.lt hs) (Nat.not_lt.mpr hle)
  | queued => rfl
  | served _ _ hf => exact absurd hf ((h.new (.inl hs)).2.2 _)
  | closed hcl => exact absurd hs (h.closed hcl).2.1
  | refused _ hq => exact absurd hs hq

theorem World.PhaseIs.eq_served (hinv : w.Inv) (h : w.Streams) (hp : w.PhaseIs s p)
    (hc : w.heap c = some conn) (hf : w.kernel.file conn.fd = some (.conn s)) :
    conn.core.phase = p := by
  cases hp with
  | unborn hs => exact absurd hf ((h.new (.inr hs)).2.2 _)
  | queued hs => exact absurd hf ((h.new (.inl hs)).2.2 _)
  | @served c' k _ _ hk hf' he =>
    obtain ⟨conn', hc', rfl⟩ := World.registry_core_eq_some.mp hk
    by_cases hcc : c' = c
    · subst hcc
      cases hc.symm.trans hc'
      exact he
    · exact absurd rfl (h.peer_ne hinv hc hf hc' hf' hcc)
  | closed hcl => exact absurd hf ((h.closed hcl).2.2 _)
  | refused _ _ _ hno => exact absurd hf (hno _)

/-- What a step has to leave alone for a client. -/
theorem World.PhaseIs.keep (h : w.PhaseIs t p) (hserv : w'.servSock = w.servSock)
    (hn : t < w'.kernel.nextSock ↔ t < w.kernel.nextSock)
    (hq : t ∈ w'.kernel.backlog ↔ t ∈ w.kernel.backlog)
    (hcl : (w'.kernel.socks t).closed = (w.kernel.socks t).closed)
    (hfile : ∀ fd, w'.kernel.file fd = some (.conn t) → w.kernel.file fd = some (.conn t))
    (hcore : ∀ c k, c ≠ w.servSock → w.registry.core c = some k →
      w.kernel.file k.fd = some (.conn t) →
      w'.registry.core c = some k ∧ w'.kernel.file k.fd = some (.conn t)) : w'.PhaseIs t p := by
  cases h with
  | unborn hs => exact .unborn (Nat.not_lt.mp fun hlt => Nat.not_lt.mpr hs (hn.mp hlt))
  | queued hs => exact .queued (hq.mpr hs)
  | served hc hk hf he =>
    obtain ⟨hk', hf'⟩ := hcore _ _ hc hk hf
    exact .served (hserv ▸ hc) hk' hf' he
  | closed hs => exact .closed (hcl.trans hs)
  | refused hlt hnq hs hno =>
    exact .refused (hn.mpr hlt) (fun hm => hnq (hq.mp hm)) (hcl.trans hs)
      fun fd hf => hno fd (hfile fd hf)

/-- The session of `t` is not touched. -/
def World.Keeps (w w' : World) (t : SockId) : Prop :=
  w'.kernel.socks t = w.kernel.socks t ∧ ∀ p, w.PhaseIs t p → w'.PhaseIs t p

/-- What the sessions see of a step. -/
inductive World.Shown (w : World) (a : Act) (w' : World) : Prop
  | silent : w.label a = none → (∀ t, w.Keeps w' t) → World.Shown w a w'
  | step (s : SockId) (b : SessionAct) : w.label a = some (s, b) →
    (∀ p, w.PhaseIs s p → ∃ p', w'.PhaseIs s p' ∧
      Session.Step RECV_BUFFER_LENGTH (Sock.session (w.kernel.socks s) p) b
        (Sock.session (w'.kernel.socks s) p')) →
    (∀ t, t ≠ s → w.Keeps w' t) → World.Shown w a w'

/-- Steps that leave the registry and the queue alone. -/
theorem World.PhaseIs.of_registry (h : w.PhaseIs t p) (hg : w'.registry = w.registry)
    (hback : w'.kernel.backlog = w.kernel.backlog) (hnext : w'.kernel.nextSock = w.kernel.nextSock)
    (hcl : (w'.kernel.socks t).closed = (w.kernel.socks t).closed) : w'.PhaseIs t p := by
  have hfile : w'.kernel.file = w.kernel.file := congrArg Registry.file hg
  refine h.keep (congrArg Registry.servSock hg) ?_ ?_ hcl ?_ ?_
  · rw [hnext]
  · rw [hback]
  · exact fun fd hf => hfile ▸ hf
  · intro c k _ hk hf
    exact ⟨hg ▸ hk, hfile ▸ hf⟩

theorem World.Keeps.of_registry (hg : w'.registry = w.registry)
    (hback : w'.kernel.backlog = w.kernel.backlog) (hnext : w'.kernel.nextSock = w.kernel.nextSock)
    (hsock : w'.kernel.socks t = w.kernel.socks t) : w.Keeps w' t :=
  ⟨hsock, fun _ hp => hp.of_registry hg hback hnext (by rw [hsock])⟩

/-- Steps that change the connection of another client. -/
theorem World.Keeps.of_other (hc : w.heap c = some conn)
    (hf : w.kernel.file conn.fd = some (.conn s)) (hts : t ≠ s) {x : Option Core}
    (hserv : w'.servSock = w.servSock) (hback : w'.kernel.backlog = w.kernel.backlog)
    (hnext : w'.kernel.nextSock = w.kernel.nextSock)
    (hsock : w'.kernel.socks t = w.kernel.socks t)
    (hcore : w'.registry.core = update w.registry.core c x)
    (hfile : ∀ fd, w'.kernel.file fd = some (.conn t) ↔ w.kernel.file fd = some (.conn t)) :
    w.Keeps w' t := by
  refine ⟨hsock, fun p hp => hp.keep hserv ?_ ?_ ?_ ?_ ?_⟩
  · rw [hnext]
  · rw [hback]
  · rw [hsock]
  · exact fun fd => (hfile fd).mp
  · intro c' k _ hk hf'
    refine ⟨?_, (hfile _).mpr hf'⟩
    obtain ⟨conn', hc', rfl⟩ := World.registry_core_eq_some.mp hk
    have hcc : c' ≠ c := by
      rintro rfl
      cases hc.symm.trans hc'
      have hst := hf.symm.trans hf'
      cases hst
      exact hts rfl
    rw [hcore, update_of_ne hcc]
    exact hk

theorem World.serving_eq (hpc : w.pc.running = some c) (hc : w.heap c = some conn)
    (hf : w.kernel.file conn.fd = some (.conn s)) : w.serving = some (conn, s) := by
  simp [World.serving, hpc, hc, Kernel.sockOf_eq_some.mpr hf]

/-! ## The steps -/

theorem World.Sound.shown_connect (h : w.Sound) :
    w.Shown .connect { w with kernel := w.kernel.connect } := by
  have hfile : w.kernel.connect.file = w.kernel.file := Kernel.connect_file
  refine .step w.kernel.nextSock .connect rfl ?_ ?_
  · intro p hp
    cases hp.eq_unborn h.streams (Nat.le_refl _)
    exact ⟨.queued, .queued (by simp [Kernel.connect]), .connect rfl⟩
  · intro t ht
    refine ⟨rfl, fun p hp => hp.keep rfl ?_ ?_ rfl ?_ ?_⟩
    · exact ⟨fun hlt => Nat.lt_of_le_of_ne (Nat.le_of_lt_succ hlt) ht, Nat.lt_succ_of_lt⟩
    · simp [Kernel.connect, ht]
    · exact fun fd hf => hfile ▸ hf
    · intro c k _ hk hf
      exact ⟨hk, hfile ▸ hf⟩

theorem World.shown_segment {bs : List Byte} (hlt : s < w.kernel.nextSock) :
    w.Shown (.segment s bs) { w with kernel := w.kernel.segment s bs } := by
  have hg : ({ w with kernel := w.kernel.segment s bs } : World).registry = w.registry := by
    simp [World.registry]
  have hsock : (w.kernel.segment s bs).socks s =
      { w.kernel.socks s with sent := (w.kernel.socks s).sent ++ bs } := update_self ..
  refine .step s (.arrive bs) rfl ?_ ?_
  · intro p hp
    refine ⟨p, hp.of_registry hg rfl rfl (by rw [hsock]), ?_⟩
    · rw [hsock]
      refine .arrive ?_
      intro hu
      have hp : w.PhaseIs s .unborn := hu ▸ hp
      cases hp with
      | unborn hle => exact Nat.not_lt.mpr hle hlt
      | served _ _ _ he =>
        unfold Core.phase at he
        split at he <;> cases he
  · intro t ht
    exact .of_registry hg rfl rfl (update_of_ne ht ..)

theorem Core.phase_reading {k : Core} (h : k.event.events = EPOLLET ||| EPOLLIN) :
    k.phase = .reading := by
  rw [Core.phase, h]
  rfl

theorem Core.phase_answering {k : Core} (h : k.event.events = EPOLLOUT) : k.phase = .answering :=
  if_pos h

/-- A connection that was there before `accept` is there after it. -/
theorem World.Inv.accepted_core (h : w.Inv) {c' : ConnId} {k : Core} {r : Fd} {junk : Junk}
    {todo : List Ready} (hk : w.registry.core c' = some k) :
    (w.accepted c todo r junk).registry.core c' = some k := by
  obtain ⟨conn, hc, rfl⟩ := World.registry_core_eq_some.mp hk
  have hlt := h.registry.conn_lt hk
  apply World.registry_core
  exact (update_of_ne (Nat.ne_of_lt hlt) ..).trans hc

section
variable {todo : List Ready} {r : Fd} {junk : Junk} {rest : List SockId}

/-- `accept` is about the first of the queue. -/
theorem World.Sound.accepted_keeps (h : w.Sound) (hr : w.kernel.CanAccept r)
    (ht : w.kernel.backlog.head? ≠ some t) : w.Keeps (w.accepted c todo r junk) t := by
  obtain ⟨hfile, hsocks, hback, hnext⟩ := @World.accepted_kernel w c todo r junk
  refine ⟨congrFun hsocks t, fun p hp => hp.keep rfl ?_ ?_ ?_ ?_ ?_⟩
  · rw [hnext]
  · rw [hback]
    exact Kernel.mem_tail_backlog ht
  · rw [hsocks]
  · intro fd hf
    rw [hfile] at hf
    exact (Kernel.accept_file_conn hr.1 hf).resolve_right fun hnew => ht hnew.2.2
  · intro c' k _ hk hf
    refine ⟨h.inv.accepted_core hk, ?_⟩
    rw [hfile]
    exact Kernel.accept_file_of_some hr.1 hf

/-- The first of the queue is turned away. -/
theorem World.Sound.accepted_refused (h : w.Sound) (hb : w.kernel.backlog = s :: rest) :
    (w.accepted c todo (-1) junk).PhaseIs s .refused := by
  have hs : s ∈ w.kernel.backlog := by simp [hb]
  obtain ⟨hfile, hsocks, hback, hnext⟩ := @World.accepted_kernel w c todo (-1) junk
  refine .refused ?_ ?_ ?_ ?_
  · rw [hnext]
    exact h.streams.lt hs
  · have hnd := h.streams.nodup
    rw [hb] at hnd
    rw [hback, hb]
    exact (List.nodup_cons.mp hnd).1
  · rw [hsocks]
    exact Bool.eq_false_iff.mpr fun hcl => (h.streams.closed hcl).2.1 hs
  · intro fd
    rw [hfile, Kernel.accept_fail.1]
    exact (h.streams.new (.inl hs)).2.2 fd

/-- The first of the queue is let in. -/
theorem World.Sound.accepted_served (h : w.Sound) (hr : w.kernel.CanAccept r) (hne : r ≠ -1)
    (hb : w.kernel.backlog = s :: rest) : (w.accepted c todo r junk).PhaseIs s .reading := by
  refine .served ?_ (World.registry_core (update_self ..)) ?_ (Core.phase_reading rfl)
  · exact Nat.ne_of_gt h.inv.registry.servSock_lt
  · have hpos : 0 ≤ r := (hr.1.resolve_left hne).1
    rw [World.accepted_kernel.1, (Kernel.accept_ok hpos hb).1]
    exact update_self ..

theorem World.Sound.shown_accept (h : w.Sound) (hr : w.kernel.CanAccept r) :
    w.Shown (.accept r junk) (w.accepted c todo r junk) := by
  cases hb : w.kernel.backlog with
  | nil =>
    refine .silent (by simp [World.label, hb]) fun t => h.accepted_keeps hr ?_
    rw [hb]
    exact fun he => by cases he
  | cons s rest =>
    refine .step s (if r = -1 then .refuse else .accept) (by simp [World.label, hb]) ?_ ?_
    · intro p hp
      cases hp.eq_queued h.streams (by simp [hb])
      rw [World.accepted_kernel.2.1]
      by_cases hne : r = -1
      · subst hne
        exact ⟨.refused, h.accepted_refused hb, .refuse rfl⟩
      · rw [if_neg hne]
        exact ⟨.reading, h.accepted_served hr hne hb, .accept rfl⟩
    · intro t ht
      apply h.accepted_keeps hr
      rw [hb]
      exact fun he => ht (Option.some.inj he).symm

end

theorem World.Sound.shown_recv (h : w.Sound) {todo : List Ready} {bs : List Byte}
    {b : RecvBuf RECV_BUFFER_LENGTH} (hpc : w.pc = .receiving c todo) (hc : w.heap c = some conn)
    (hr : w.kernel.CanRecv conn.fd conn.recvBuf.request (.bytes bs))
    (h' : (w.received c conn (.bytes bs) b).Sound) :
    w.Shown (.recv (.bytes bs)) (w.received c conn (.bytes bs) b) := by
  obtain ⟨hcs, hne, he⟩ := h.inv.receiving hpc hc
  obtain ⟨s, hf⟩ := h.inv.peer hc hcs hne
  have hrun : w.pc.running = some c := by rw [hpc]; rfl
  obtain ⟨hsocks, hback, hnext⟩ := Kernel.recv_socks hf (.bytes bs)
  have hg : (w.received c conn (.bytes bs) b).registry = w.registry := by
    refine Eq.trans ?_ (World.put_registry hc (conn.setRecvBuf_core b))
    simp [World.registry, World.received, World.put]
  have hsock : (w.received c conn (.bytes bs) b).kernel.socks s =
      { w.kernel.socks s with got := (w.kernel.socks s).got + bs.length } :=
    hsocks ▸ update_self ..
  refine .step s (.take bs) (by simp [World.label, World.serving_eq hrun hc hf]) ?_ ?_
  · intro p hp
    refine ⟨p, hp.of_registry hg hback hnext (by rw [hsock]), ?_⟩
    have hphase : p = .reading := by
      rw [← hp.eq_served h.inv h.streams hc hf]
      exact Core.phase_reading he
    have hroom : (w.kernel.socks s).got + bs.length ≤ RECV_BUFFER_LENGTH := by
      have hc' : (w.received c conn (.bytes bs) b).heap c = some (conn.setRecvBuf b) :=
        update_self ..
      have hf' : (w.received c conn (.bytes bs) b).kernel.file conn.fd = some (.conn s) :=
        (Kernel.recv_file (.bytes bs)).symm ▸ hf
      have hstr := h'.streams.conn hcs hc' hf'
      rw [World.stage_receiving hc' he hrun, hsock] at hstr
      have hlen := (hstr.holds (by simp)).gathers.length_le
      rwa [List.length_take_of_le hstr.got_le] at hlen
    rw [hsock]
    exact .take hphase hr.1 (hr.data_prefix hf) hroom
  · intro t ht
    exact .of_registry hg hback hnext (hsocks ▸ update_of_ne ht ..)

theorem World.Sound.shown_leaveRecv (h : w.Sound) {todo : List Ready} {r : RecvResult}
    (hpc : w.pc = .receiving c todo) (hc : w.heap c = some conn) (hr : r ≠ .bytes [])
    (hd : r.data = []) : w.Shown (.recv r) (w.rearmed c conn todo r) := by
  obtain ⟨hcs, hne, he⟩ := h.inv.receiving hpc hc
  obtain ⟨s, hf⟩ := h.inv.peer hc hcs hne
  have hrun : w.pc.running = some c := by rw [hpc]; rfl
  obtain ⟨hfile, hsocks, hback, hnext⟩ := @World.rearmed_kernel w c conn todo r hd
  have hcore : (w.rearmed c conn todo r).registry.core =
      update w.registry.core c (some { conn.core with event := ⟨EPOLLOUT, conn.fd⟩ }) :=
    congrArg Registry.core (World.rearmed_registry h.inv.registry hc hne)
  have hlabel : w.label (.recv r) = some (s, .finish) := by
    cases r with
    | bytes bs => exact absurd (congrArg RecvResult.bytes hd) hr
    | eof | fail => simp [World.label, World.serving_eq hrun hc hf]
  refine .step s .finish hlabel ?_ ?_
  · intro p hp
    have hphase : p = .reading := by
      rw [← hp.eq_served h.inv h.streams hc hf]
      exact Core.phase_reading he
    refine ⟨.answering, .served hcs (by rw [hcore, update_self]) ?_ (Core.phase_answering rfl), ?_⟩
    · rw [hfile]
      exact hf
    · rw [hsocks]
      exact .finish hphase
  · intro t ht
    exact .of_other hc hf ht rfl hback hnext (congrFun hsocks t) hcore fun fd => by rw [hfile]

/-- What `write` takes of the string that `strcpy` left in `wbuffer`. -/
theorem Stream.echoes {x : Sock} {n : Nat} (h : Stream conn x .sending)
    (hn : n ≤ toSizeT conn.wlen) (past : List Byte) :
    Echoes RECV_BUFFER_LENGTH (x.sent.take x.got) ((conn.wbuffer.bytes ++ past).take n) := by
  obtain ⟨hbuf, hrlen⟩ := h.holds (by simp)
  obtain ⟨hwlen, hw⟩ := h.sending rfl
  have hcap : RECV_BUFFER_LENGTH < 2 ^ 64 := by decide
  have hle := hbuf.length_le
  have hng : n ≤ (x.sent.take x.got).length := by
    rwa [hwlen, show conn.rlen = _ from hrlen, toSizeT_natCast (by omega)] at hn
  refine ⟨(List.length_take_le ..).trans hng, fun hterm => ?_⟩
  obtain ⟨t, ht⟩ := hw (hbuf.zero_mem_iff.mpr hterm)
  refine ⟨t ++ past, ?_⟩
  rw [show cstr conn.rbuffer.bytes = _ from hbuf.cstr_bytes] at ht
  rw [← ht, List.append_assoc, List.append_assoc]
  exact List.take_prefix ..

theorem World.Sound.shown_leaveSend (h : w.Sound) {todo : List Ready} {n : Nat}
    {past : List Byte} (hpc : w.pc = .writing c todo) (hc : w.heap c = some conn)
    (hn : n ≤ toSizeT conn.wlen) :
    w.Shown (.write n past) (w.dropped c conn todo ((conn.wbuffer.bytes ++ past).take n)) := by
  obtain ⟨hcs, hne, he⟩ := h.inv.writing hpc hc
  have hrun : w.pc.running = some c := by rw [hpc]; rfl
  obtain ⟨s, hf, hsocks, hback, hnext⟩ := @World.Inv.dropped_socks _ _ _ h.inv todo
    ((conn.wbuffer.bytes ++ past).take n) hpc hc
  have hreg := @World.dropped_registry w c conn h.inv.registry hc hne todo
    ((conn.wbuffer.bytes ++ past).take n)
  have hfile : (w.dropped c conn todo ((conn.wbuffer.bytes ++ past).take n)).kernel.file =
      update w.kernel.file conn.fd none := congrArg Registry.file hreg
  refine .step s (.answer ((conn.wbuffer.bytes ++ past).take n))
    (by simp [World.label, World.serving_eq hrun hc hf]) ?_ ?_
  · intro p hp
    have hphase : p = .answering := by
      rw [← hp.eq_served h.inv h.streams hc hf]
      exact Core.phase_answering he
    have hstr := h.streams.conn hcs hc hf
    rw [World.stage_sending hc he hrun] at hstr
    refine ⟨.closed, .closed (by rw [hsocks, update_self]), ?_⟩
    rw [hsocks, update_self, hstr.written, List.nil_append]
    exact .answer hphase (hstr.echoes hn past)
  · intro t ht
    refine .of_other hc hf ht rfl hback hnext (hsocks ▸ update_of_ne ht ..)
      (congrArg Registry.core hreg) fun fd => ?_
    rw [hfile]
    constructor
    · exact fun hf' => (update_none_eq_some.mp hf').2
    · intro hf'
      have hfd : fd ≠ conn.fd := by
        rintro rfl
        cases hf.symm.trans hf'
        exact ht rfl
      exact (update_of_ne hfd ..).trans hf'

/-- Every step is a step of one session or of none. -/
theorem World.Sound.shown {a : Act} (h : w.Sound) (hst : w.Step a w') (ha : a.CleanRecv) :
    w.Shown a w' := by
  have h' := h.step hst ha
  cases h.inv.trans hst with
  | connect => exact h.shown_connect
  | segment => exact World.shown_segment hst.1
  | @wait batch todo heap hpc _ hcol =>
    obtain ⟨hsocks, hback, hnext⟩ := @Kernel.report_socks w.kernel batch
    refine .silent rfl fun t => .of_registry ?_ hback hnext (congrFun hsocks t)
    simp [World.registry, hcol.core]
  | turn | skip | enterAccept => exact .silent rfl fun t => .of_registry rfl rfl rfl rfl
  | enterRecv _ _ _ hc =>
    exact .silent rfl fun t => .of_registry (World.put_registry hc rfl) rfl rfl rfl
  | enterSend _ _ _ hc hs =>
    obtain ⟨wb, rfl⟩ := Connection.strcpy_eq hs
    exact .silent rfl fun t => .of_registry (World.put_registry hc rfl) rfl rfl rfl
  | accept _ hr => exact h.shown_accept hr
  | recv hpc hc hr hs =>
    obtain ⟨bs, b, rfl, -, rfl⟩ := ha.pass hr.ne_nil hs
    exact h.shown_recv hpc hc hr h'
  | leaveRecv hpc hc hr _ hd => exact h.shown_leaveRecv hpc hc hr.ne_nil hd
  | leaveSend hpc hc hn => exact h.shown_leaveSend hpc hc hn

end

/-! ## The refinement -/

theorem World.Shown.refine {w w' : World} {a : Act} {f : SockId → Session} (h : w.Shown a w')
    (hf : ∀ s, w.Shows s (f s)) : (w.label a = none ∧ ∀ s, w'.Shows s (f s)) ∨
      ∃ b g, w.label a = some b ∧ Interleave (Session.Step RECV_BUFFER_LENGTH) f b g ∧
        ∀ s, w'.Shows s (g s) := by
  have keeps : ∀ t, w.Keeps w' t → w'.Shows t (f t) := by
    rintro t ⟨hsock, hphase⟩
    obtain ⟨p, hp, he⟩ := hf t
    exact ⟨p, hphase p hp, by rw [hsock]; exact he⟩
  cases h with
  | silent hl hk => exact .inl ⟨hl, fun s => keeps s (hk s)⟩
  | step s b hl hstep hk =>
    obtain ⟨p, hp, he⟩ := hf s
    obtain ⟨p', hp', hst⟩ := hstep p hp
    refine .inr ⟨(s, b), update f s (Sock.session (w'.kernel.socks s) p'), hl, .update ?_, ?_⟩
    · rw [he]
      exact hst
    · intro t
      by_cases ht : t = s
      · subst ht
        exact ⟨p', hp', update_self ..⟩
      · rw [update_of_ne ht]
        exact keeps t (hk t ht)

theorem Boot.started_shows (e : Boot) (s : SockId) : e.started.Shows s {} := by
  obtain ⟨hsocks, -, hnext⟩ := e.started_socks
  refine ⟨.unborn, .unborn ?_, ?_⟩
  · rw [hnext]
    exact Nat.zero_le _
  · rw [hsocks]
    rfl

/-- The part of a run that is about the client `s`. -/
def clientActs (xs : List (World × Act)) (s : SockId) : List SessionAct :=
  ((xs.filterMap fun x => x.1.label x.2).filter (·.1 = s)).map Prod.snd

/-- A run of the server without receive errors is an interleaving of echo sessions, in each of which
the client gets what its own bytes call for. -/
theorem Boot.sessions {e : Boot} {w w' : World} {xs : List (World × Act)}
    (hb : e.server = some (.ok w)) (hx : Exec World.Step w xs w')
    (hclean : ∀ x ∈ xs, x.2.CleanRecv) :
    ∃ ys f, Exec (Interleave (Session.Step RECV_BUFFER_LENGTH)) (fun _ => {}) ys f ∧
      ys.map Prod.snd = xs.filterMap (fun x => x.1.label x.2) ∧
      ∀ s, w'.Shows s (f s) ∧ Session.Transcript RECV_BUFFER_LENGTH (clientActs xs s) (f s) := by
  have hstart := Boot.sound hb .nil (by simp)
  have hshows : ∀ s, w.Shows s {} := by
    obtain ⟨-, rfl⟩ := Boot.server_eq hb
    exact e.started_shows
  obtain ⟨ys, f, hy, ⟨-, hf⟩, hlab⟩ := @Exec.refines _ _ _ _ _ _ _ _ (fun _ a => a.CleanRecv)
    (Interleave (Session.Step RECV_BUFFER_LENGTH)) (fun w f => w.Sound ∧ ∀ s, w.Shows s (f s))
    (fun _ => {}) World.label hx hclean ⟨hstart, hshows⟩ (by
      rintro t f a u ⟨ht, hf⟩ ha hst
      rcases (ht.shown hst ha).refine hf with ⟨hl, hf⟩ | ⟨b, g, hl, hs, hg⟩
      · exact .inl ⟨hl, ht.step hst ha, hf⟩
      · exact .inr ⟨b, g, hl, hs, ht.step hst ha, hg⟩)
  refine ⟨ys, f, hy, hlab, fun s => ⟨hf s, ?_⟩⟩
  have hacts : ((ys.filter (·.2.1 = s)).map fun x => (x.1 s, x.2.2)).map Prod.snd =
      clientActs xs s := by
    rw [clientActs, ← hlab, List.filter_map, List.map_map, List.map_map]
    rfl
  rw [← hacts]
  exact Session.transcript (hy.project s)

theorem Boot.sessions_reuse : ∃ w w' xs, Boot.plain.server = some (.ok w) ∧
    Exec World.Step w xs w' ∧ xs.map Prod.snd = reuseRun ∧
    ∃ ys f, Exec (Interleave (Session.Step RECV_BUFFER_LENGTH)) (fun _ => {}) ys f ∧
      ys.map Prod.snd = xs.filterMap (fun x => x.1.label x.2) ∧
      ∀ s, w'.Shows s (f s) ∧ Session.Transcript RECV_BUFFER_LENGTH (clientActs xs s) (f s) := by
  obtain ⟨w, w', xs, hw, hx, hacts, -⟩ :=
    @Boot.plain_run reuseRun (fun _ => True) ⟨_, rfl, trivial⟩
  have hclean : ∀ x ∈ xs, x.2.CleanRecv := Exec.forall_labels hacts (by decide)
  exact ⟨w, w', xs, hw, hx, hacts, Boot.sessions hw hx hclean⟩

end OnlineChat.Reactor
