import OnlineChat.Reactor.History

/-!
# Dispatch safety

A step of the server follows pointers that `Epoll::wait` looked up before the callbacks of the
batch ran. `World.Inv.fault` shows that none of these is null, dangling or freed twice, and
`Boot.dispatch_safe` says what that means for a reported event from the lookup to the callback.
-/

namespace OnlineChat.Reactor
open Lib Function

section
variable {w w' : World} {c : ConnId} {conn : Connection} {f : Fault}

theorem World.collect_ok {es : List EpollEvent}
    (h : ∀ e ∈ es, ∃ c conn, w.connMap e.data = some c ∧ w.heap c = some conn) :
    ∃ p, w.collect es = .ok p := by
  induction es generalizing w with
  | nil => exact ⟨_, rfl⟩
  | cons e es ih =>
    obtain ⟨c, conn, hmap, hc⟩ := h e List.mem_cons_self
    obtain ⟨p, hp⟩ := @ih (w.put c (conn.setREvent e.events)) fun e' he' => by
      obtain ⟨c', conn', hmap', hc'⟩ := h e' (List.mem_cons_of_mem _ he')
      by_cases hcc : c' = c
      · exact ⟨c', _, hmap', by rw [hcc]; exact World.put_heap_self⟩
      · exact ⟨c', conn', hmap', (update_of_ne hcc ..).trans hc'⟩
    refine ⟨(⟨e, c⟩ :: p.1, p.2), ?_⟩
    simp [World.collect, hmap, World.modify_of_live hc, bind, Except.bind, hp, pure, Except.pure]

/-- `Epoll::wait` finds a live connection for every reported descriptor. -/
theorem World.Inv.wait_ok (h : w.Inv) {batch : List (Fd × Mask)} (hb : w.kernel.CanReport batch) :
    ∃ p, w.wait batch = .ok p := by
  obtain ⟨-, hspec⟩ := World.reported_spec h.registry hb.2
  refine World.collect_ok fun ev hev => ?_
  obtain ⟨c, conn, hmap, hc, -⟩ := hspec ev hev
  exact ⟨c, conn, hmap, hc⟩

/-- The loop body invokes what `Connection.selected` says. -/
theorem World.dispatch_cons {r : Ready} {todo : List Ready} (hr : w.heap r.conn = some conn) :
    w.dispatch (r :: todo) = match conn.selected with
      | none => .ok { w with pc := .dispatch todo }
      | some g => w.call todo g := by
  simp only [World.dispatch, World.deref_eq_ok.mpr hr, bind, Except.bind, Connection.selected]
  split_ifs <;> rfl

theorem World.dispatch_fault (h : w.Inv) {todo : List Ready} (hpc : w.pc = .dispatch todo)
    (hf : w.dispatch todo = .error f) : f = .outOfBounds := by
  have hp := h.pending hpc
  cases todo with
  | nil => cases hf
  | cons r todo =>
    obtain ⟨conn, hr, -⟩ := hp.entry List.mem_cons_self
    rw [World.dispatch_cons hr] at hf
    rcases hp.selected h.registry hr with h0 | ⟨-, h0⟩ | ⟨-, h0⟩ | ⟨-, h0⟩ <;> rw [h0] at hf
    · cases hf
    · cases hf
    · rcases bind_eq_error hf with hf | ⟨v, -, hf⟩
      · rw [recvCallback.enter, World.modify_of_live hr] at hf
        cases hf
      · cases hf
    · rcases bind_eq_error hf with hf | ⟨v, -, hf⟩
      · rcases bind_eq_error hf with hf | ⟨conn', -, hf⟩
        · rw [World.deref_eq_ok.mpr hr] at hf
          cases hf
        rcases bind_eq_error hf with hf | ⟨conn'', -, hf⟩
        · exact Connection.strcpy_error hf
        · cases hf
      · cases hf

theorem World.recv_fault (h : w.Inv) {todo : List Ready} {r : RecvResult}
    (hpc : w.pc = .receiving c todo) (hl : w.Legal (.recv r)) (hf : w.step (.recv r) = .error f) :
    f = .outOfBounds := by
  obtain ⟨⟨-, conn, hc, -⟩, -⟩ := h.receiving_client hpc
  simp only [World.Legal, hpc] at hl
  have hne := (hl conn hc).ne_nil
  rw [World.step_recv hpc hc (h.registry.inEpoll_conn c conn hc) hne] at hf
  split at hf
  · cases hf
  · cases hf
  next hp =>
    cases hf
    exact RecvBuf.pass_error hp

theorem World.write_fault (h : w.Inv) {todo : List Ready} {n : Nat} {past : List Byte}
    (hpc : w.pc = .writing c todo) : w.step (.write n past) ≠ .error f := by
  intro hf
  obtain ⟨⟨-, conn, hc, -⟩, -⟩ := h.writing_client hpc
  obtain ⟨a, ha, hlive, -⟩ := h.registry.inet (World.registry_core hc)
  have hinet : ∀ b, conn.inetAddr = some b → w.inets b = true := by
    intro b hb
    cases hb.symm.trans ha
    exact hlive
  rw [World.step_write hpc hc (h.registry.inEpoll_conn c conn hc) hinet] at hf
  cases hf

/-- In a legal step nothing goes wrong but, at worst, a buffer overrun. -/
theorem World.Inv.fault {a : Act} (h : w.Inv) (hl : w.Legal a) (hf : w.step a = .error f) :
    f = .outOfBounds := by
  cases a with
  | connect | segment => cases hf
  | wait batch =>
    obtain ⟨p, hp⟩ := h.wait_ok hl.2.2
    simp only [World.step, hp] at hf
    cases hf
  | next =>
    simp only [World.Legal] at hl
    split at hl
    next todo hpc =>
      simp only [World.step, hpc] at hf
      exact World.dispatch_fault h hpc hf
    · exact hl.elim
  | accept r junk =>
    simp only [World.Legal] at hl
    split at hl
    next c todo hpc =>
      have hok := @World.acceptCallback_ok w c todo r junk
      simp only [World.step, hpc] at hf
      cases hok.symm.trans hf
    · exact hl.elim
  | recv r =>
    have hl' := hl
    simp only [World.Legal] at hl'
    split at hl'
    next c todo hpc => exact World.recv_fault h hpc hl hf
    · exact hl'.elim
  | write n past =>
    simp only [World.Legal] at hl
    split at hl
    next c todo hpc => exact absurd hf (World.write_fault h hpc)
    · exact hl.elim

end

/-! ## From the report to the callback -/

/-- What the reactor relies on when it handles an event. -/
structure World.DispatchSafe (w : World) : Prop where
  /-- `events[]` carries the descriptors that `epoll_wait` reports. -/
  events : w.kernel.CanReport batch →
    (w.kernel.reported batch).map EpollEvent.data = batch.map Prod.fst
  /-- `connMap[events[i].data.fd]` is a live connection with that descriptor. -/
  lookup : w.kernel.CanReport batch → ev ∈ w.kernel.reported batch →
    ∃ c conn, w.connMap ev.data = some c ∧ w.heap c = some conn ∧ conn.fd = ev.data
  /-- So it still is until the turn of the event has come. -/
  turn : r ∈ w.pc.todo →
    w.connMap r.event.data = some r.conn ∧ ∃ conn, w.heap r.conn = some conn ∧ conn.fd = r.event.data
  /-- The callback that is invoked is set and bound to the connection. -/
  callback : w.pc = .dispatch (r :: todo) → w.heap r.conn = some conn → conn.selected = some g →
    ∃ fn, g = some ⟨fn, r.conn⟩
  deleted_once : w.trace.count (.deleted c) ≤ 1
  closed_once : NoDoubleClose (· = Event.accepted fd) (· = Event.closed fd) w.trace
  fault : w.Legal a → w.step a = .error f → f = .outOfBounds

section
variable {w w' : World} {c : ConnId}

theorem count_history {e : Event} (h : e.conn = some c) (es : List Event) :
    (history c es).count e = es.count e := by
  rw [history, List.count_filter]
  simp [h]

theorem World.HistoryOk.deleted_once (h : w.HistoryOk) (c : ConnId) :
    w.trace.count (.deleted c) ≤ 1 := by
  by_cases hc : c = w.servSock
  · subst hc
    rw [List.count_eq_zero.mpr h.serv]
    exact Nat.zero_le _
  · rw [← count_history rfl, h.client hc]
    refine ((Stage.events_le c _).sublist.count_le _).trans ?_
    simp [lifeCycle]

/-- Dispatch is safe in every state the server reaches. -/
theorem Boot.dispatch_safe {e : Boot} {xs : List (World × Act)} (hb : e.server = some (.ok w))
    (hx : Exec World.Step w xs w') : w'.DispatchSafe := by
  have hinv := Boot.inv hb hx
  have hhist := Boot.historyOk hb hx
  refine ⟨fun hrep => (World.reported_spec hinv.registry hrep.2).1, fun hrep hev => ?_,
    fun hr => ?_, fun hpc hc hsel => ?_, hhist.deleted_once _, hhist.ledger.once, hinv.fault⟩
  · obtain ⟨c, conn, hmap, hc, hfd, -⟩ := (World.reported_spec hinv.registry hrep.2).2 _ hev
    exact ⟨c, conn, hmap, hc, hfd⟩
  · obtain ⟨conn, hc, hfd, hne, -⟩ := hinv.pc.pending.entry hr
    exact ⟨hfd ▸ (World.mapped hinv.registry hc hne).1, conn, hc, hfd⟩
  · rcases (hinv.pending hpc).selected hinv.registry hc with h0 | ⟨-, h0⟩ | ⟨-, h0⟩ | ⟨-, h0⟩ <;>
      rw [hsel] at h0 <;> cases h0
    exacts [⟨_, rfl⟩, ⟨_, rfl⟩, ⟨_, rfl⟩]

theorem Boot.dispatch_safe_reuse : ∃ w w' xs, Boot.plain.server = some (.ok w) ∧
    Exec World.Step w xs w' ∧ xs.map Prod.snd = reuseRun ∧ w'.DispatchSafe := by
  obtain ⟨w, w', xs, hw, hx, hacts, -⟩ :=
    @Boot.plain_run reuseRun (fun _ => True) ⟨_, rfl, trivial⟩
  exact ⟨w, w', xs, hw, hx, hacts, Boot.dispatch_safe hw hx⟩

end

end OnlineChat.Reactor
