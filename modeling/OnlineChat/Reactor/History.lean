import OnlineChat.Lib.Ledger
import OnlineChat.Reactor.Invariant

/-!
# The history of a connection

The trace records what the callbacks did. The part of it that is about one client connection is
always what its `Stage` says: the stage is read off the registered flags and the program counter,
and `Trans.stage` shows that a step moves it along `lifeCycle` or leaves it. The descriptor events
of the trace agree with the descriptor table in the same way.
-/

namespace OnlineChat.Reactor
open Lib Function

def Event.conn : Event → Option ConnId
  | .started _ c | .finished _ c | .deleted c => some c
  | .accepted _ | .ctl .. | .closed _ => none

/-- What happened to the connection `c`. -/
def history (c : ConnId) (es : List Event) : List Event := es.filter (·.conn == some c)

theorem history_append (c : ConnId) (es fs : List Event) :
    history c (es ++ fs) = history c es ++ history c fs := List.filter_append ..

theorem mem_history {c : ConnId} {e : Event} {es : List Event} :
    e ∈ history c es ↔ e ∈ es ∧ e.conn = some c := by
  simp [history]

/-- Events about other connections and about descriptors. -/
theorem history_eq_nil {c : ConnId} {es : List Event} (h : ∀ e ∈ es, e.conn ≠ some c) :
    history c es = [] := by
  rw [history, List.filter_eq_nil_iff]
  exact fun e he => by simpa using h e he

/-! ## Stages -/

/-- How far a client connection has come. -/
inductive Stage
  | fresh
  | receiving
  | armed
  | sending
  | deleted
  deriving DecidableEq

/-- The whole history of a client connection. -/
def lifeCycle (c : ConnId) : List Event :=
  [.started .recvCallback c, .finished .recvCallback c, .started .sendCallback c,
    .deleted c, .finished .sendCallback c]

/-- The history of a client connection that has come so far. -/
def Stage.events (c : ConnId) : Stage → List Event
  | .fresh => []
  | .receiving => (lifeCycle c).take 1
  | .armed => (lifeCycle c).take 2
  | .sending => (lifeCycle c).take 3
  | .deleted => lifeCycle c

theorem Stage.events_le (c : ConnId) (s : Stage) : s.events c <+: lifeCycle c := by
  cases s with
  | fresh => exact List.nil_prefix
  | receiving | armed | sending => exact List.take_prefix ..
  | deleted => exact List.prefix_rfl

/-- The connection a callback is running on. -/
def Pc.running : Pc → Option ConnId
  | .waiting | .dispatch _ => none
  | .accepting c _ | .receiving c _ | .writing c _ => some c

/-- The stage of a client connection. -/
def World.stage (w : World) (c : ConnId) : Stage :=
  match w.heap c with
  | none => if c < w.nextConn then .deleted else .fresh
  | some conn =>
    if conn.event.events = EPOLLOUT then
      if w.pc.running = some c then .sending else .armed
    else
      if w.pc.running = some c then .receiving else .fresh

/-- The trace closes `fd` only while it is open. -/
def World.Ledger (w : World) (fd : Fd) : Prop :=
  Lib.Ledger (· = Event.accepted fd) (· = Event.closed fd) w.trace (w.kernel.file fd = none)

/-- The history fits the state. -/
structure World.HistoryOk (w : World) : Prop where
  client : c ≠ w.servSock → history c w.trace = (w.stage c).events c
  serv : .deleted w.servSock ∉ w.trace
  fresh : c ≠ w.servSock → w.heap c = some conn → w.stage c = .fresh → conn.rlen = 0
  ledger : w.Ledger fd

section
variable {w w' : World} {c : ConnId} {conn : Connection}

theorem World.stage_congr
    (hheap : (w'.heap c).map (·.event.events) = (w.heap c).map (·.event.events))
    (hn : c < w'.nextConn ↔ c < w.nextConn)
    (hr : w'.pc.running = some c ↔ w.pc.running = some c) : w'.stage c = w.stage c := by
  unfold World.stage
  cases h : w.heap c <;> cases h' : w'.heap c <;> simp_all

theorem World.stage_armed (hc : w.heap c = some conn) (he : conn.event.events = EPOLLOUT)
    (hr : w.pc.running = none) : w.stage c = .armed := by
  simp [World.stage, hc, he, hr]

theorem World.stage_sending (hc : w.heap c = some conn) (he : conn.event.events = EPOLLOUT)
    (hr : w.pc.running = some c) : w.stage c = .sending := by
  simp [World.stage, hc, he, hr]

theorem World.stage_fresh (hc : w.heap c = some conn)
    (he : conn.event.events = EPOLLET ||| EPOLLIN) (hr : w.pc.running = none) :
    w.stage c = .fresh := by
  have hne : (EPOLLET ||| EPOLLIN) ≠ EPOLLOUT := by decide
  simp [World.stage, hc, he, hr, hne]

theorem World.stage_receiving (hc : w.heap c = some conn)
    (he : conn.event.events = EPOLLET ||| EPOLLIN) (hr : w.pc.running = some c) :
    w.stage c = .receiving := by
  have hne : (EPOLLET ||| EPOLLIN) ≠ EPOLLOUT := by decide
  simp [World.stage, hc, he, hr, hne]

theorem World.stage_deleted (hc : w.heap c = none) (hlt : c < w.nextConn) :
    w.stage c = .deleted := by
  simp [World.stage, hc, hlt]

/-- The flags of all connections survive `Epoll::wait`. -/
theorem Collected.flags {m : Fd → Option ConnId} {heap heap' : ConnId → Option Connection}
    {es : List EpollEvent} {todo : List Ready} (h : Collected m heap es todo heap')
    (c : ConnId) : (heap' c).map (·.event.events) = (heap c).map (·.event.events) := by
  have hcore := congrFun h.core c
  simp only [Function.comp_apply] at hcore
  have hflags := congrArg (Option.map (·.event.events)) hcore
  simpa [Option.map_map, Function.comp_def, Connection.core] using hflags

/-- A connection whose flags stay while nothing is said about it keeps its stage. -/
theorem World.stage_keep {es : List Event}
    (hheap : (w'.heap c).map (·.event.events) = (w.heap c).map (·.event.events))
    (hn : w'.nextConn = w.nextConn) (hr : w'.pc.running = some c ↔ w.pc.running = some c)
    (hes : ∀ e ∈ es, e.conn ≠ some c) :
    (w'.stage c).events c = (w.stage c).events c ++ history c es := by
  rw [World.stage_congr hheap (by rw [hn]) hr, history_eq_nil hes, List.append_nil]

/-- A step takes every client connection along its life cycle, as the trace says. -/
theorem Trans.stage {a : Act} (h : w.Inv) (ht : Trans w a w') :
    ∃ es, w'.trace = w.trace ++ es ∧ .deleted w.servSock ∉ es ∧ ∀ c, c ≠ w.servSock →
      (w'.stage c).events c = (w.stage c).events c ++ history c es := by
  cases ht with
  | connect | segment =>
    exact ⟨[], by simp, by simp, fun c _ => World.stage_keep rfl rfl .rfl (fun _ h => nomatch h)⟩
  | wait hpc _ hcol =>
    refine ⟨[], by simp, by simp, fun c _ => World.stage_keep (hcol.flags c) rfl ?_ (fun _ h => nomatch h)⟩
    simp [hpc, Pc.running]
  | turn hpc | skip hpc =>
    refine ⟨[], by simp, by simp, fun c _ => World.stage_keep rfl rfl ?_ (fun _ h => nomatch h)⟩
    simp [hpc, Pc.running]
  | @enterAccept r todo conn c hpc hr hsel =>
    have hs : c = w.servSock := (h.called hpc hr hsel).2
    refine ⟨_, rfl, by simp, fun c hc => World.stage_keep rfl rfl ?_ ?_⟩
    · simp [hpc, Pc.running, hs, Ne.symm hc]
    · simp [Event.conn, hs, Ne.symm hc]
  | @enterRecv r todo conn c conn' hpc hr hsel hc =>
    obtain ⟨rfl, -, conn₀, hc', -, he⟩ := h.called hpc hr hsel
    cases hc.symm.trans hc'
    refine ⟨_, rfl, by simp, fun c hcs => ?_⟩
    by_cases hcr : c = r.conn
    · subst hcr
      rw [World.stage_fresh hc he (by rw [hpc]; rfl),
        World.stage_receiving (update_self ..) (by exact he) rfl]
      simp [Stage.events, lifeCycle, history, Event.conn]
    · refine World.stage_keep ?_ rfl ?_ ?_
      · simp [World.put, update_of_ne hcr]
      · simp [hpc, Pc.running, Ne.symm hcr]
      · simp [Event.conn, Ne.symm hcr]
  | @enterSend r todo conn c conn' conn'' hpc hr hsel hc hs =>
    obtain ⟨rfl, -, conn₀, hc', -, he⟩ := h.called hpc hr hsel
    cases hc.symm.trans hc'
    obtain ⟨wb, rfl⟩ := Connection.strcpy_eq hs
    refine ⟨_, rfl, by simp, fun c hcs => ?_⟩
    by_cases hcr : c = r.conn
    · subst hcr
      rw [World.stage_armed hc he (by rw [hpc]; rfl),
        World.stage_sending (update_self ..) (by exact he) rfl]
      simp [Stage.events, lifeCycle, history, Event.conn]
    · refine World.stage_keep ?_ rfl ?_ ?_
      · simp [World.put, update_of_ne hcr]
      · simp [hpc, Pc.running, Ne.symm hcr]
      · simp [Event.conn, Ne.symm hcr]
  | @accept c todo r junk hpc =>
    obtain ⟨rfl, -⟩ := h.accepting hpc
    refine ⟨_, rfl, by simp, fun c hcs => ?_⟩
    rw [history_eq_nil (by simp [Event.conn, Ne.symm hcs]), List.append_nil]
    by_cases hcn : c = w.nextConn
    · subst hcn
      have hnone : w.heap w.nextConn = none := by
        simpa [World.registry] using h.registry.core_nextConn
      rw [World.stage_fresh (update_self ..) rfl rfl]
      simp [World.stage, hnone]
    · rw [World.stage_congr]
      · simp [World.accepted, update_of_ne hcn]
      · exact ⟨fun h => lt_of_le_of_ne (Nat.lt_succ_iff.mp h) hcn, Nat.lt_succ_of_lt⟩
      · simp [World.accepted, hpc, Pc.running, Ne.symm hcs]
  | @recv c todo conn r s hpc hc =>
    refine ⟨[], by simp [World.received, World.put], by simp, fun c' _ =>
      World.stage_keep ?_ rfl .rfl (fun _ h => nomatch h)⟩
    by_cases hcc : c' = c
    · subst hcc
      simp [World.received, World.put, hc, Connection.setRecvBuf]
    · simp [World.received, World.put, update_of_ne hcc]
  | @leaveRecv c todo conn r hpc hc =>
    obtain ⟨-, -, he⟩ := h.receiving hpc hc
    refine ⟨_, rfl, by simp, fun c' hcs => ?_⟩
    by_cases hcc : c' = c
    · subst hcc
      rw [World.stage_receiving hc he (by rw [hpc]; rfl), World.stage_armed (update_self ..) rfl rfl]
      simp [Stage.events, lifeCycle, history, Event.conn]
    · refine World.stage_keep ?_ rfl ?_ ?_
      · simp [World.rearmed, World.put, update_of_ne hcc]
      · simp [World.rearmed, hpc, Pc.running, Ne.symm hcc]
      · simp [Event.conn, Ne.symm hcc]
  | @leaveSend c todo conn n past hpc hc =>
    obtain ⟨hs, -, he⟩ := h.writing hpc hc
    refine ⟨_, rfl, by simp [Ne.symm hs], fun c' hcs => ?_⟩
    by_cases hcc : c' = c
    · subst hcc
      have hlt : c' < w.nextConn := h.registry.conn_lt (World.registry_core hc)
      rw [World.stage_sending hc he (by rw [hpc]; rfl),
        World.stage_deleted (by exact update_self ..) (by exact hlt)]
      simp [Stage.events, lifeCycle, history, Event.conn]
    · refine World.stage_keep ?_ rfl ?_ ?_
      · simp [World.dropped, update_of_ne hcc]
      · simp [World.dropped, hpc, Pc.running, Ne.symm hcc]
      · simp [Event.conn, Ne.symm hcc]

/-! ## The ledger of a descriptor -/

theorem World.Ledger.keep {fd : Fd} {es : List Event} (h : w.Ledger fd)
    (htrace : w'.trace = w.trace ++ es) (hes : ∀ e ∈ es, e ≠ .closed fd)
    (hfile : w.kernel.file fd = none → w'.kernel.file fd = none ∨ .accepted fd ∈ es) :
    w'.Ledger fd := by
  rw [World.Ledger, htrace]
  exact Lib.Ledger.append h hes fun hf => (hfile hf).imp_right fun hm => ⟨_, hm, rfl⟩

theorem Trans.ledger {a : Act} {fd : Fd} (h : w.Inv) (ht : Trans w a w') (hl : w.Ledger fd) :
    w'.Ledger fd := by
  cases ht with
  | connect | segment | wait | turn | skip | recv =>
    exact hl.keep (List.append_nil _).symm (fun _ h => nomatch h)
      fun hf => .inl (by simpa [World.received, World.put] using hf)
  | enterAccept | enterRecv | enterSend => exact hl.keep rfl (by simp) .inl
  | @accept c todo r junk hpc hr =>
    obtain ⟨-, s, hg⟩ := World.accepted_registry h.registry hr
    have hfile := congrFun (congrArg Registry.file hg) fd
    refine hl.keep rfl (by simp) fun hf => ?_
    by_cases hfd : fd = r
    · exact .inr (by simp [hfd])
    · left
      exact (hfile.trans (Registry.add_file hfd)).trans hf
  | @leaveRecv c todo conn r => exact hl.keep rfl (by simp) fun hf => .inl (by simpa [World.rearmed])
  | @leaveSend c todo conn n past hpc hc =>
    have hne := h.pc_fd c todo conn (.inr hpc) hc
    have hopen := (World.mapped h.registry hc hne).2.2.2
    have hfile : (w.dropped c conn todo ((conn.wbuffer.bytes ++ past).take n)).kernel.file =
        update w.kernel.file conn.fd none :=
      congrArg Registry.file (World.dropped_registry h.registry hc hne)
    by_cases hfd : fd = conn.fd
    · subst hfd
      rw [World.Ledger, hfile, update_self]
      have hn : w.kernel.file conn.fd ≠ none := by
        intro hnone
        simp [hnone] at hopen
      show Lib.Ledger _ _ (w.trace ++ ([_] ++ .closed conn.fd :: [_, _])) _
      exact Lib.Ledger.close hl hn rfl (by simp) (by simp)
    · refine hl.keep rfl (by simp [Ne.symm hfd]) fun hf => .inl ?_
      rwa [hfile, update_of_ne hfd]

/-! ## The invariant of the history -/

/-- `Epoll::wait` changes `revent` only. -/
theorem Collected.origin {m : Fd → Option ConnId} {heap heap' : ConnId → Option Connection}
    {es : List EpollEvent} {todo : List Ready} (h : Collected m heap es todo heap')
    (hc : heap' c = some conn) :
    ∃ conn₀, heap c = some conn₀ ∧ conn = { conn₀ with revent := conn.revent } := by
  induction h with
  | nil => exact ⟨conn, hc, rfl⟩
  | cons _ hc' _ ih =>
    obtain ⟨conn₀, h₀, he⟩ := ih hc
    rcases update_some_eq_some.mp h₀ with ⟨rfl, rfl⟩ | ⟨-, h₀⟩
    · exact ⟨_, hc', he⟩
    · exact ⟨conn₀, h₀, he⟩

/-- Where a connection, its descriptor and the length in its receive buffer come from. -/
theorem Trans.origin {a : Act} (ht : Trans w a w') (hc : w'.heap c = some conn) :
    (∃ conn₀, w.heap c = some conn₀ ∧ conn.fd = conn₀.fd ∧
      (conn.rlen = conn₀.rlen ∨ ∃ todo, w.pc = .receiving c todo)) ∨
    ∃ r junk, a = .accept r junk ∧ conn = .client r w.nextInet c junk := by
  -- the cases in which one object is assigned to
  have one : ∀ {c' conn' conn''}, w.heap c' = some conn' →
      update w.heap c' (some conn'') c = some conn → conn''.fd = conn'.fd →
      (conn''.rlen = conn'.rlen ∨ ∃ todo, w.pc = .receiving c' todo) →
      ∃ conn₀, w.heap c = some conn₀ ∧ conn.fd = conn₀.fd ∧
        (conn.rlen = conn₀.rlen ∨ ∃ todo, w.pc = .receiving c todo) := by
    intro c' conn' conn'' hc' hc hfd hr
    rcases update_some_eq_some.mp hc with ⟨rfl, rfl⟩ | ⟨-, hc⟩
    · exact ⟨conn', hc', hfd, hr⟩
    · exact ⟨conn, hc, rfl, .inl rfl⟩
  cases ht with
  | connect | segment | turn | skip | enterAccept => exact .inl ⟨conn, hc, rfl, .inl rfl⟩
  | wait _ _ hcol =>
    obtain ⟨conn₀, hc₀, he⟩ := hcol.origin hc
    exact .inl ⟨conn₀, hc₀, by rw [he], .inl (by rw [he])⟩
  | enterRecv _ _ _ hc' => exact .inl (one hc' hc rfl (.inl rfl))
  | enterSend _ _ _ hc' hs =>
    obtain ⟨wb, rfl⟩ := Connection.strcpy_eq hs
    exact .inl (one hc' hc rfl (.inl rfl))
  | accept =>
    rcases update_some_eq_some.mp hc with ⟨rfl, rfl⟩ | ⟨-, hc⟩
    · exact .inr ⟨_, _, rfl, rfl⟩
    · exact .inl ⟨conn, hc, rfl, .inl rfl⟩
  | recv hpc hc' => exact .inl (one hc' hc rfl (.inr ⟨_, hpc⟩))
  | leaveRecv _ hc' => exact .inl (one hc' hc rfl (.inl rfl))
  | leaveSend => exact .inl ⟨conn, (update_none_eq_some.mp hc).2, rfl, .inl rfl⟩

theorem Stage.events_eq_nil {s : Stage} (h : s.events c = []) : s = .fresh := by
  cases s <;> simp_all [Stage.events, lifeCycle]

theorem Trans.historyOk {a : Act} (h : w.Inv) (ht : Trans w a w') (hh : w.HistoryOk) :
    w'.HistoryOk := by
  obtain ⟨es, htrace, hdel, hst⟩ := ht.stage h
  refine ⟨fun {c} hc => ?_, ?_, fun {c conn} hc hconn hfr => ?_, ht.ledger h hh.ledger⟩
  · rw [ht.servSock] at hc
    rw [htrace, history_append, hh.client hc, hst c hc]
  · rw [ht.servSock, htrace, List.mem_append, not_or]
    exact ⟨hh.serv, hdel⟩
  · rw [ht.servSock] at hc
    have hev := hst c hc
    rw [hfr] at hev
    have hfr₀ := Stage.events_eq_nil (List.append_eq_nil_iff.mp hev.symm).1
    rcases ht.origin hconn with ⟨conn₀, hc₀, -, he | ⟨todo, hpc⟩⟩ | ⟨r, junk, -, rfl⟩
    · rw [he]
      exact hh.fresh hc hc₀ hfr₀
    · obtain ⟨⟨-, conn₀, hc₀, -, he⟩, -⟩ := h.receiving_client hpc
      rw [World.stage_receiving hc₀ he (by rw [hpc]; rfl)] at hfr₀
      cases hfr₀
    · rfl

theorem Boot.started_historyOk {e : Boot} : e.started.HistoryOk := by
  have hheap : ∀ {c}, c ≠ 0 → e.started.heap c = none := fun hc => by simp [Boot.started, hc]
  refine ⟨fun {c} hc => ?_, ?_, fun {c conn} hc hconn _ => ?_, ?_⟩
  · have hlt : ¬ c < 1 := fun h => hc (Nat.lt_one_iff.mp h)
    have hst : e.started.stage c = .fresh := by
      rw [World.stage, hheap hc]
      exact if_neg hlt
    rw [hst]
    rfl
  · simp [Boot.started]
  · rw [hheap hc] at hconn
    cases hconn
  · exact Lib.Ledger.append .nil (by simp) .inl

/-- The history fits in every state the server reaches. -/
theorem Boot.historyOk {e : Boot} {xs : List (World × Act)} (hb : e.server = some (.ok w))
    (hx : Exec World.Step w xs w') : w'.HistoryOk := by
  have hinv := (Boot.started_inv hb).1
  obtain ⟨-, rfl⟩ := Boot.server_eq hb
  exact hinv.run hx Boot.started_historyOk fun h hh ht => ht.historyOk h hh

end

/-! ## The life cycle of a client connection -/

/-- The callbacks that have been started on `c`, in order. -/
def callbacks (c : ConnId) (es : List Event) : List CallbackFn :=
  es.filterMap fun
    | .started f c' => if c' = c then some f else none
    | _ => none

/-- What the program relies on about the order of the callbacks of `c`. -/
structure World.LifeCycleOk (w : World) (c : ConnId) : Prop where
  history : history c w.trace <+: lifeCycle c
  callbacks : callbacks c w.trace <+: [.recvCallback, .sendCallback]
  deleted : .deleted c ∈ w.trace ↔ c < w.nextConn ∧ w.heap c = none
  /-- `recvCallback` enters its loop at offset 0 of a cleared buffer. -/
  entry : w.Step .next w' → w'.pc = .receiving c todo →
    ∃ conn, w'.heap c = some conn ∧ conn.rlen = 0 ∧ conn.rbuffer = .zero _

section
variable {w w' : World} {c : ConnId} {conn : Connection}

theorem callbacks_history (c : ConnId) (es : List Event) :
    callbacks c (history c es) = callbacks c es := by
  rw [callbacks, history, List.filterMap_filter]
  refine List.filterMap_congr fun e _ => ?_
  cases e <;> simp [Event.conn]

theorem World.deleted_mem_events {s : Stage} :
    .deleted c ∈ s.events c ↔ s = .deleted := by
  cases s <;> simp [Stage.events, lifeCycle]

theorem World.stage_eq_deleted : w.stage c = .deleted ↔ c < w.nextConn ∧ w.heap c = none := by
  unfold World.stage
  cases w.heap c with
  | none => by_cases h : c < w.nextConn <;> simp [h]
  | some conn =>
    simp only [reduceCtorEq, and_false, iff_false]
    split_ifs <;> simp

theorem World.Inv.recv_entry {todo : List Ready} (h : w.Inv) (hh : w.HistoryOk)
    (hs : w.Step .next w') (hpc : w'.pc = .receiving c todo) :
    ∃ conn, w'.heap c = some conn ∧ conn.rlen = 0 ∧ conn.rbuffer = .zero _ := by
  cases h.trans hs with
  | turn | skip | enterAccept | enterSend => cases hpc
  | @enterRecv r todo conn _ conn' hw hr hsel hc =>
    cases hpc
    obtain ⟨rfl, hcs, conn₀, hc', -, he⟩ := h.called hw hr hsel
    cases hc.symm.trans hc'
    have hfr : w.stage r.conn = .fresh := World.stage_fresh hc he (by rw [hw]; rfl)
    have hlen : conn'.rlen = 0 := hh.fresh hcs hc hfr
    exact ⟨_, update_self .., hlen, rfl⟩

/-- Every client connection goes through its life cycle in order. -/
theorem Boot.life_cycle {e : Boot} {xs : List (World × Act)} (hb : e.server = some (.ok w))
    (hx : Exec World.Step w xs w') (hc : c ≠ w'.servSock) : w'.LifeCycleOk c := by
  have hinv := Boot.inv hb hx
  have hhist := Boot.historyOk hb hx
  have hcyc : history c w'.trace <+: lifeCycle c := hhist.client hc ▸ Stage.events_le c _
  refine ⟨hcyc, ?_, ?_, hinv.recv_entry hhist⟩
  · have hpre : callbacks c (history c w'.trace) <+: callbacks c (lifeCycle c) :=
      hcyc.filterMap _
    rw [callbacks_history] at hpre
    simpa [callbacks, lifeCycle] using hpre
  · have hmem := @mem_history c (.deleted c) w'.trace
    rw [hhist.client hc, World.deleted_mem_events, World.stage_eq_deleted] at hmem
    simpa [Event.conn] using hmem.symm

theorem Boot.life_cycle_reuse : ∃ w w' xs, Boot.plain.server = some (.ok w) ∧
    Exec World.Step w xs w' ∧ xs.map Prod.snd = reuseRun ∧ 1 ≠ w'.servSock ∧ w'.LifeCycleOk 1 := by
  obtain ⟨w, w', xs, hw, hx, hacts, -⟩ :=
    @Boot.plain_run reuseRun (fun _ => True) ⟨_, rfl, trivial⟩
  have hne : 1 ≠ w'.servSock := by
    rw [Boot.servSock_eq hw hx]
    decide
  exact ⟨w, w', xs, hw, hx, hacts, hne, Boot.life_cycle hw hx hne⟩

end

end OnlineChat.Reactor
