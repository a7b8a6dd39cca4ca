import Mathlib.Data.List.Nodup
import OnlineChat.Reactor.Registry

/-!
# The invariant of the reactor

Besides the agreement of the registry, the program counter has to be right: every entry of
`readyConns` that is still to be handled (`Pending`) is a live `Connection` of its own, with the
descriptor and the flags it was reported with, and the callback in progress runs on a connection
that is no longer among them. `Trans.inv` is the step and `World.Inv.exec` the run.
-/

namespace OnlineChat.Reactor
open Lib Function

/-! ## The pending batch -/

/-- The entries of `readyConns` whose turn is still to come. -/
def Pc.todo : Pc → List Ready
  | .waiting => []
  | .dispatch todo | .accepting _ todo | .receiving _ todo | .writing _ todo => todo

/-- The rest of `readyConns`. -/
structure World.Pending (w : World) (todo : List Ready) : Prop where
  nodup : (todo.map Ready.conn).Nodup
  entry : r ∈ todo → ∃ conn, w.heap r.conn = some conn ∧ conn.fd = r.event.data ∧
    conn.fd ≠ -1 ∧ conn.revent = r.event ∧ Mask.within r.event.events conn.event.events

/-- `c` is a client connection with a valid descriptor, registered for `flags`. -/
def World.Client (w : World) (c : ConnId) (flags : Mask) : Prop :=
  c ≠ w.servSock ∧ ∃ conn, w.heap c = some conn ∧ conn.fd ≠ -1 ∧ conn.event.events = flags

/-- The callback in progress and the batch after it. -/
def World.PcOk (w : World) : Prop :=
  match w.pc with
  | .waiting => True
  | .dispatch todo => w.Pending todo
  | .accepting c todo => c = w.servSock ∧ w.Pending todo
  | .receiving c todo =>
    w.Client c (EPOLLET ||| EPOLLIN) ∧ c ∉ todo.map Ready.conn ∧ w.Pending todo
  | .writing c todo => w.Client c EPOLLOUT ∧ c ∉ todo.map Ready.conn ∧ w.Pending todo

structure World.Inv (w : World) : Prop where
  registry : w.registry.Ok
  pc : w.PcOk

namespace World.Pending
variable {w w' : World} {r : Ready} {todo : List Ready}

theorem nil : w.Pending [] := ⟨.nil, fun h => nomatch h⟩

theorem tail (h : w.Pending (r :: todo)) :
    r.conn ∉ todo.map Ready.conn ∧ w.Pending todo := by
  obtain ⟨hr, hnd⟩ := List.nodup_cons.mp h.nodup
  exact ⟨hr, hnd, fun hm => h.entry (List.mem_cons_of_mem _ hm)⟩

/-- The batch only depends on the connections in it. -/
theorem congr (h : w.Pending todo) (he : ∀ c ∈ todo.map Ready.conn, w'.heap c = w.heap c) :
    w'.Pending todo := by
  refine ⟨h.nodup, fun hm => ?_⟩
  obtain ⟨conn, hc, hrest⟩ := h.entry hm
  exact ⟨conn, (he _ (List.mem_map_of_mem hm)).trans hc, hrest⟩

/-- A connection that is not in the batch may change. -/
theorem update {c : ConnId} {x : Option Connection} (h : w.Pending todo)
    (hc : c ∉ todo.map Ready.conn) (hw : w'.heap = Function.update w.heap c x) :
    w'.Pending todo := by
  refine h.congr fun x hm => ?_
  have hne : x ≠ c := fun he => hc (he ▸ hm)
  rw [hw, update_of_ne hne]

end World.Pending

namespace Collected
variable {m : Fd → Option ConnId} {heap heap' : ConnId → Option Connection}
  {es : List EpollEvent} {todo : List Ready}

theorem events (h : Collected m heap es todo heap') : todo.map Ready.event = es := by
  induction h with
  | nil => rfl
  | cons _ _ _ ih => rw [List.map_cons, ih]

theorem mapped (h : Collected m heap es todo heap') :
    ∀ r ∈ todo, m r.event.data = some r.conn := by
  induction h with
  | nil => exact fun _ h => nomatch h
  | cons hm _ _ ih =>
    intro r hr
    rcases List.mem_cons.mp hr with rfl | hr
    · exact hm
    · exact ih r hr

theorem heap_other (h : Collected m heap es todo heap') {c : ConnId}
    (hc : c ∉ todo.map Ready.conn) : heap' c = heap c := by
  induction h with
  | nil => rfl
  | cons _ _ _ ih =>
    rw [List.map_cons, List.mem_cons, not_or] at hc
    rw [ih hc.2, update_of_ne hc.1]

theorem heap_mem (h : Collected m heap es todo heap') (hnd : (todo.map Ready.conn).Nodup) :
    ∀ r ∈ todo, ∃ conn, heap r.conn = some conn ∧
      heap' r.conn = some (conn.setREvent r.event.events) := by
  induction h with
  | nil => exact fun _ h => nomatch h
  | @cons _ _ _ c _ _ _ _ hconn hcol ih =>
    obtain ⟨hnot, hnd⟩ := List.nodup_cons.mp hnd
    intro r hr
    rcases List.mem_cons.mp hr with rfl | hr
    · exact ⟨_, hconn, (hcol.heap_other hnot).trans (update_self ..)⟩
    · obtain ⟨conn, hc, hc'⟩ := ih hnd r hr
      have hne : r.conn ≠ c := fun he => hnot (List.mem_map.mpr ⟨r, hr, he⟩)
      rw [update_of_ne hne] at hc
      exact ⟨conn, hc, hc'⟩

end Collected

section
variable {w w' : World} {c : ConnId} {conn conn' : Connection}

/-- The entries of `events[]` carry the reported descriptors, each of which has an owner. -/
theorem World.reported_spec (h : w.registry.Ok) {batch : List (Fd × Mask)}
    (hb : ∀ e ∈ batch, (w.kernel.interest e.1).any fun ev => Mask.within e.2 ev.events) :
    (w.kernel.reported batch).map EpollEvent.data = batch.map Prod.fst ∧
      ∀ e ∈ w.kernel.reported batch, ∃ c conn, w.connMap e.data = some c ∧
        w.heap c = some conn ∧ conn.fd = e.data ∧ conn.fd ≠ -1 ∧
        Mask.within e.events conn.event.events := by
  induction batch with
  | nil => exact ⟨rfl, fun _ h => nomatch h⟩
  | cons b batch ih =>
    obtain ⟨ih, ih'⟩ := ih fun e he => hb e (List.mem_cons_of_mem _ he)
    obtain ⟨ev, hev, hwithin⟩ := (Option.any_eq_true ..).mp (hb b List.mem_cons_self)
    obtain ⟨c, k, hmap, hk, hfd, hne, hke, hdata⟩ := h.of_interest hev
    obtain ⟨conn, hconn, rfl⟩ := World.registry_core_eq_some.mp hk
    have hrep : w.kernel.reported (b :: batch) = ⟨b.2, b.1⟩ :: w.kernel.reported batch := by
      simp [Kernel.reported, hev, hdata]
    rw [hrep]
    refine ⟨by rw [List.map_cons, List.map_cons, ih], fun e he => ?_⟩
    rcases List.mem_cons.mp he with rfl | he
    · have hke : conn.event = ev := hke
      exact ⟨c, conn, hmap, hconn, hfd, hne, by rw [hke]; exact hwithin⟩
    · exact ih' e he

/-- What `Epoll::wait` returns is a pending batch. -/
theorem World.pending_wait (h : w.registry.Ok) {batch : List (Fd × Mask)}
    (hb : w.kernel.CanReport batch) {todo : List Ready} {heap : ConnId → Option Connection}
    (hcol : Collected w.connMap w.heap (w.kernel.reported batch) todo heap)
    (hw : w'.heap = heap) : w'.Pending todo := by
  obtain ⟨hdata, hspec⟩ := World.reported_spec h hb.2
  have hev : ∀ r ∈ todo, r.event ∈ w.kernel.reported batch :=
    fun r hr => hcol.events ▸ List.mem_map_of_mem hr
  have hnd : (todo.map Ready.conn).Nodup := by
    have hd : (todo.map fun r => r.event.data).Nodup := by
      have := hb.1
      rwa [← hdata, ← hcol.events, List.map_map] at this
    refine (hd.of_map _).map_on fun r hr r' hr' he => List.inj_on_of_nodup_map hd hr hr' ?_
    obtain ⟨k, hk, hfd⟩ := h.owner (hcol.mapped r hr)
    obtain ⟨k', hk', hfd'⟩ := h.owner (hcol.mapped r' hr')
    rw [he, hk'] at hk
    cases hk
    exact hfd.symm.trans hfd'
  refine ⟨hnd, fun {r} hr => ?_⟩
  obtain ⟨c, conn, hmap, hconn, hfd, hne, hwithin⟩ := hspec r.event (hev r hr)
  rw [hcol.mapped r hr] at hmap
  cases hmap
  obtain ⟨conn', hc, hc'⟩ := hcol.heap_mem hnd r hr
  rw [hconn] at hc
  cases hc
  refine ⟨conn.setREvent r.event.events, by rw [hw]; exact hc', hfd, hne, ?_, hwithin⟩
  change (⟨r.event.events, conn.fd⟩ : EpollEvent) = r.event
  rw [hfd]

/-- The dispatch of a pending entry: nothing, or the one callback that fits the registration of
its connection, bound to that connection. -/
theorem World.Pending.selected (h : w.registry.Ok) {r : Ready} {todo : List Ready}
    (hp : w.Pending (r :: todo)) (hc : w.heap r.conn = some conn) :
    conn.selected = none ∨
    (r.conn = w.servSock ∧ conn.selected = some (some ⟨.acceptCallback, r.conn⟩)) ∨
    (w.Client r.conn (EPOLLET ||| EPOLLIN) ∧
      conn.selected = some (some ⟨.recvCallback, r.conn⟩)) ∨
    (w.Client r.conn EPOLLOUT ∧ conn.selected = some (some ⟨.sendCallback, r.conn⟩)) := by
  obtain ⟨conn', hc', -, hne, hrev, hwithin⟩ := hp.entry List.mem_cons_self
  rw [hc] at hc'
  cases hc'
  have hsel : ∀ {f : Callback}, conn.recvCallback = some f →
      r.event.events.has EPOLLOUT = false →
      conn.selected = none ∨ conn.selected = some (some f) := by
    intro f hf ho
    unfold Connection.selected
    rw [hrev, ho, hf]
    split
    · exact .inr rfl
    · exact .inl rfl
  cases h.role (World.registry_core hc) with
  | listener hs he hr =>
    have he : conn.event.events = EPOLLIN ||| EPOLLET := he
    rw [he] at hwithin
    rcases hsel hr (Mask.has_eq_false_of_within hwithin (by decide)) with h0 | h0
    · exact .inl h0
    · exact .inr (.inl ⟨hs, h0⟩)
  | client hs he hr hsd =>
    rcases he with he | he
    · have he : conn.event.events = EPOLLET ||| EPOLLIN := he
      rw [he] at hwithin
      rcases hsel hr (Mask.has_eq_false_of_within hwithin (by decide)) with h0 | h0
      · exact .inl h0
      · exact .inr (.inr (.inl ⟨⟨hs, conn, hc, hne, he⟩, h0⟩))
    · have he : conn.event.events = EPOLLOUT := he
      rw [he] at hwithin
      have hi : r.event.events.has EPOLLIN = false :=
        Mask.has_eq_false_of_within hwithin (by decide)
      have hsd : conn.sendCallback = some ⟨.sendCallback, r.conn⟩ := hsd
      unfold Connection.selected
      rw [hrev, hi, hsd]
      split
      · contradiction
      split
      · exact .inr (.inr (.inr ⟨⟨hs, conn, hc, hne, he⟩, rfl⟩))
      · exact .inl rfl

/-! ## The step and the run -/

theorem World.PcOk.pending (h : w.PcOk) : w.Pending w.pc.todo := by
  unfold World.PcOk at h
  cases hpc : w.pc <;> simp only [hpc] at h
  · exact .nil
  · exact h
  · exact h.2
  · exact h.2.2
  · exact h.2.2

theorem World.Inv.pending {todo : List Ready} (h : w.Inv) (hpc : w.pc = .dispatch todo) :
    w.Pending todo := by
  have hp := h.pc.pending
  rwa [hpc] at hp

theorem World.Inv.accepting {todo : List Ready} (h : w.Inv) (hpc : w.pc = .accepting c todo) :
    c = w.servSock ∧ w.Pending todo := by
  have hp := h.pc
  unfold World.PcOk at hp
  rwa [hpc] at hp

theorem World.Inv.receiving_client {todo : List Ready} (h : w.Inv)
    (hpc : w.pc = .receiving c todo) :
    w.Client c (EPOLLET ||| EPOLLIN) ∧ c ∉ todo.map Ready.conn ∧ w.Pending todo := by
  have hp := h.pc
  unfold World.PcOk at hp
  rwa [hpc] at hp

theorem World.Inv.writing_client {todo : List Ready} (h : w.Inv) (hpc : w.pc = .writing c todo) :
    w.Client c EPOLLOUT ∧ c ∉ todo.map Ready.conn ∧ w.Pending todo := by
  have hp := h.pc
  unfold World.PcOk at hp
  rwa [hpc] at hp

/-- The connection that `recvCallback` runs on. -/
theorem World.Inv.receiving {todo : List Ready} (h : w.Inv) (hpc : w.pc = .receiving c todo)
    (hc : w.heap c = some conn) :
    c ≠ w.servSock ∧ conn.fd ≠ -1 ∧ conn.event.events = EPOLLET ||| EPOLLIN := by
  obtain ⟨⟨hs, conn', hc', hne, he⟩, -⟩ := h.receiving_client hpc
  cases hc.symm.trans hc'
  exact ⟨hs, hne, he⟩

/-- The connection that `sendCallback` runs on. -/
theorem World.Inv.writing {todo : List Ready} (h : w.Inv) (hpc : w.pc = .writing c todo)
    (hc : w.heap c = some conn) :
    c ≠ w.servSock ∧ conn.fd ≠ -1 ∧ conn.event.events = EPOLLOUT := by
  obtain ⟨⟨hs, conn', hc', hne, he⟩, -⟩ := h.writing_client hpc
  cases hc.symm.trans hc'
  exact ⟨hs, hne, he⟩

theorem World.Inv.pc_fd (h : w.Inv) (c : ConnId) (todo : List Ready) (conn : Connection)
    (hpc : w.pc = .receiving c todo ∨ w.pc = .writing c todo) (hc : w.heap c = some conn) :
    conn.fd ≠ -1 := by
  rcases hpc with hpc | hpc
  · exact (h.receiving hpc hc).2.1
  · exact (h.writing hpc hc).2.1

/-- The callback `f` is meant for `c`. -/
def World.Fits (w : World) (c : ConnId) : CallbackFn → Prop
  | .acceptCallback => c = w.servSock
  | .recvCallback => w.Client c (EPOLLET ||| EPOLLIN)
  | .sendCallback => w.Client c EPOLLOUT

/-- The callback of a turn is bound to the connection that was reported, and fits it. -/
theorem World.Inv.called {r : Ready} {todo : List Ready} {f : CallbackFn} (h : w.Inv)
    (hpc : w.pc = .dispatch (r :: todo)) (hr : w.heap r.conn = some conn)
    (hsel : conn.selected = some (some ⟨f, c⟩)) : c = r.conn ∧ w.Fits c f := by
  rcases (h.pending hpc).selected h.registry hr with h0 | ⟨hs, h0⟩ | ⟨hcl, h0⟩ | ⟨hcl, h0⟩ <;>
    rw [hsel] at h0 <;> cases h0
  · exact ⟨rfl, hs⟩
  · exact ⟨rfl, hcl⟩
  · exact ⟨rfl, hcl⟩

/-- The accepted connection is new, so the batch does not see it. -/
theorem World.Pending.accepted (h : w.registry.Ok) {c : ConnId} {todo : List Ready} {r : Fd}
    {junk : Junk} (hp : w.Pending todo) : (w.accepted c todo r junk).Pending todo := by
  refine hp.update (c := w.nextConn) (fun hm => ?_) rfl
  obtain ⟨e, he, heq⟩ := List.mem_map.mp hm
  obtain ⟨conn, hc, -⟩ := hp.entry he
  have := h.conn_lt (World.registry_core hc)
  rw [heq] at this
  exact Nat.lt_irrefl _ this

theorem World.PcOk.congr (h : w.PcOk) (hpc : w'.pc = w.pc) (hheap : w'.heap = w.heap)
    (hs : w'.servSock = w.servSock) : w'.PcOk := by
  have hp : ∀ {todo}, w.Pending todo → w'.Pending todo := fun hp => hp.congr fun _ _ => by rw [hheap]
  unfold World.PcOk World.Client at *
  rw [hpc, hheap, hs]
  split at h
  · trivial
  · exact hp h
  · exact ⟨h.1, hp h.2⟩
  · exact ⟨h.1, h.2.1, hp h.2.2⟩
  · exact ⟨h.1, h.2.1, hp h.2.2⟩

theorem Trans.pcOk {a : Act} (h : w.Inv) (ht : Trans w a w') : w'.PcOk := by
  cases ht with
  | connect | segment => exact h.pc.congr rfl rfl rfl
  | wait hpc hb hcol => exact World.pending_wait h.registry hb hcol rfl
  | turn => trivial
  | skip hpc => exact (h.pending hpc).tail.2.congr fun _ _ => rfl
  | enterAccept hpc hr hsel =>
    obtain ⟨-, hs⟩ := h.called hpc hr hsel
    exact ⟨hs, (h.pending hpc).tail.2.congr fun _ _ => rfl⟩
  | enterRecv hpc hr hsel hc =>
    obtain ⟨hnot, hp⟩ := (h.pending hpc).tail
    obtain ⟨rfl, hs, conn', hc', hne, he⟩ := h.called hpc hr hsel
    cases hc.symm.trans hc'
    exact ⟨⟨hs, _, update_self .., hne, he⟩, hnot, hp.update hnot rfl⟩
  | enterSend hpc hr hsel hc hcpy =>
    obtain ⟨hnot, hp⟩ := (h.pending hpc).tail
    obtain ⟨rfl, hs, conn', hc', hne, he⟩ := h.called hpc hr hsel
    cases hc.symm.trans hc'
    obtain ⟨wb, rfl⟩ := Connection.strcpy_eq hcpy
    exact ⟨⟨hs, _, update_self .., hne, he⟩, hnot, hp.update hnot rfl⟩
  | accept hpc => exact (h.accepting hpc).2.accepted h.registry
  | recv hpc hc =>
    obtain ⟨hs, hne, he⟩ := h.receiving hpc hc
    obtain ⟨-, hnot, hp⟩ := h.receiving_client hpc
    unfold World.PcOk
    rw [show (World.received ..).pc = _ from hpc]
    exact ⟨⟨hs, _, update_self .., hne, he⟩, hnot, hp.update hnot rfl⟩
  | leaveRecv hpc =>
    obtain ⟨-, hnot, hp⟩ := h.receiving_client hpc
    exact hp.update hnot rfl
  | leaveSend hpc =>
    obtain ⟨-, hnot, hp⟩ := h.writing_client hpc
    exact hp.update hnot rfl

theorem Trans.servSock {a : Act} (ht : Trans w a w') : w'.servSock = w.servSock := by
  cases ht <;> rfl

theorem Trans.inv {a : Act} (h : w.Inv) (ht : Trans w a w') : w'.Inv := by
  refine ⟨?_, ht.pcOk h⟩
  cases ht.registryStep h.registry h.pc_fd with
  | same he => exact he ▸ h.registry
  | add hpc hr he => exact he ▸ h.registry.add hr
  | rearm hpc hc _ he =>
    obtain ⟨hs, hne, -⟩ := h.receiving hpc hc
    exact he ▸ h.registry.rearm (World.registry_core hc) hne hs
  | drop hpc hc he =>
    obtain ⟨hs, hne, -⟩ := h.writing hpc hc
    exact he ▸ h.registry.drop (World.registry_core hc) hne hs

theorem World.Inv.trans {a : Act} (h : w.Inv) (hs : w.Step a w') : Trans w a w' :=
  hs.trans h.registry.inEpoll_conn

theorem World.Inv.step {a : Act} (h : w.Inv) (hs : w.Step a w') : w'.Inv := (h.trans hs).inv h

theorem World.Inv.exec {xs : List (World × Act)} (h : w.Inv) (hx : Exec World.Step w xs w') :
    w'.Inv := hx.invariant h World.Inv.step

/-- Any further property is proved along the ways of `Trans`, with the invariant at hand. -/
theorem World.Inv.run {P : World → Prop} {xs : List (World × Act)} (h : w.Inv)
    (hx : Exec World.Step w xs w') (h₀ : P w)
    (hs : ∀ {t a u}, t.Inv → P t → Trans t a u → P u) : P w' := by
  induction hx with
  | nil => exact h₀
  | snoc hx hst ih =>
    have ht := h.exec hx
    exact hs ht ih (ht.trans hst)

end

/-! ## The server at its start -/

/-- The listening socket as the constructor of `Server` leaves it. -/
def Boot.listener (e : Boot) : Connection where
  fd := e.sock
  inEpoll := true
  inetAddr := some 0
  event := ⟨EPOLLIN ||| EPOLLET, e.sock⟩
  revent := e.junk.revent
  rbuffer := e.junk.rbuffer
  wbuffer := e.junk.wbuffer
  recvCallback := some ⟨.acceptCallback, 0⟩

/-- The state after the constructor. -/
def Boot.started (e : Boot) : World :=
  { e.world with
    kernel := e.world.kernel.ctl .EPOLL_CTL_ADD e.sock (some ⟨EPOLLIN ||| EPOLLET, e.sock⟩)
    heap := update (fun _ => none) 0 (some e.listener)
    inets := update (fun _ => false) 0 true
    nextConn := 1
    nextInet := 1
    connMap := update (fun _ => none) e.sock (some 0)
    trace := [.ctl .EPOLL_CTL_ADD e.sock (e.world.kernel.ctlOk .EPOLL_CTL_ADD e.sock)] }

section
variable {e : Boot} {w w' : World}

theorem Boot.server_eq (h : e.server = some (.ok w)) : e.sock ≠ -1 ∧ w = e.started := by
  simp only [Boot.server] at h
  split at h
  · cases h
  next hexit =>
    simp only [not_or] at hexit
    refine ⟨hexit.2.1, ?_⟩
    simp [World.newInetAddress, World.newConnection, World.modify, World.deref, World.put,
      World.updateConnection, World.setRecvCallback, World.epollCtl, World.log, Connection.new,
      Connection.setEvent, Connection.setInEpoll, Connection.setRecvCallback, Bind.bind,
      Except.bind, pure, Except.pure, Boot.world] at h
    rw [← h]
    simp [Boot.started, Boot.listener, Boot.world]

theorem Boot.sock_nonneg (h : e.sock ≠ -1) : 0 ≤ e.sock := by
  rcases e.sock_ok with h' | h'
  · exact absurd h' h
  · exact h'.1

theorem Boot.started_interest (h : 0 ≤ e.sock) : e.started.kernel.interest =
    update (fun _ => none) e.sock (some ⟨EPOLLIN ||| EPOLLET, e.sock⟩) := Kernel.init_ctl h _

theorem Boot.started_inv (h : e.server = some (.ok w)) : w.Inv ∧ w.pc = .waiting := by
  obtain ⟨hne, rfl⟩ := Boot.server_eq h
  have hsock := Boot.sock_nonneg hne
  have hint := Boot.started_interest hsock
  have hfile : e.started.registry.file = e.world.kernel.file := Kernel.ctl_file ..
  have hheap : e.started.heap = update (fun _ => none) 0 (some e.listener) := rfl
  have hmap : e.started.registry.connMap = update (fun _ => none) e.sock (some 0) := rfl
  have hinets : e.started.registry.inets = update (fun _ => false) 0 true := rfl
  have hcore : ∀ {c k}, e.started.registry.core c = some k → c = 0 ∧ k = e.listener.core := by
    intro c k hc
    obtain ⟨conn, hc', rfl⟩ := World.registry_core_eq_some.mp hc
    rw [hheap] at hc'
    rcases update_some_eq_some.mp hc' with ⟨rfl, rfl⟩ | ⟨-, hc'⟩
    · exact ⟨rfl, rfl⟩
    · cases hc'
  have hcore0 : e.started.registry.core 0 = some e.listener.core :=
    World.registry_core (hheap ▸ update_self ..)
  refine ⟨⟨⟨fun hc => ?_, fun hc => ?_, fun hc => ?_, fun hc hc' _ => ?_, fun hc hfd => ?_,
    fun {fd c} hm => ?_, fun {fd ev} hi => ?_, fun hc => ?_, ?_, fun {fd s} hf => ?_,
    fun hc hs _ => absurd (hcore hc).1 hs⟩, trivial⟩, rfl⟩
  · obtain ⟨rfl, -⟩ := hcore hc
    exact Nat.one_pos
  · obtain ⟨-, rfl⟩ := hcore hc
    rfl
  · obtain ⟨-, rfl⟩ := hcore hc
    exact ⟨0, rfl, hinets ▸ update_self .., Nat.one_pos⟩
  · exact (hcore hc).1.trans (hcore hc').1.symm
  · obtain ⟨rfl, rfl⟩ := hcore hc
    refine ⟨hmap ▸ update_self .., ?_, rfl, ?_⟩
    · exact (congrFun hint _).trans (update_self ..)
    · rw [hfile]
      simp [Boot.listener, Connection.core, Boot.world, Kernel.init_file hsock]
  · rw [hmap] at hm
    rcases update_some_eq_some.mp hm with ⟨rfl, rfl⟩ | ⟨-, hm⟩
    · exact ⟨_, hcore0, rfl⟩
    · cases hm
  · rw [show e.started.registry.interest = _ from hint] at hi
    rcases update_some_eq_some.mp hi with ⟨rfl, -⟩ | ⟨-, hi⟩
    · exact ⟨hne, 0, hmap ▸ update_self ..⟩
    · cases hi
  · obtain ⟨rfl, rfl⟩ := hcore hc
    exact .listener rfl rfl rfl
  · exact ⟨_, hcore0, hne, by rw [hfile]; exact Kernel.init_file hsock⟩
  · rw [hfile] at hf
    exact absurd hf (Kernel.init_file_conn hsock fd s)

/-- The invariant holds in every state the server reaches. -/
theorem Boot.inv {xs : List (World × Act)} (h : e.server = some (.ok w))
    (hx : Exec World.Step w xs w') : w'.Inv :=
  (Boot.started_inv h).1.exec hx

theorem Boot.servSock_eq {xs : List (World × Act)} (h : e.server = some (.ok w))
    (hx : Exec World.Step w xs w') : w'.servSock = 0 := by
  have hinv := (Boot.started_inv h).1
  obtain ⟨-, rfl⟩ := Boot.server_eq h
  exact @World.Inv.run _ _ (·.servSock = 0) _ hinv hx rfl fun _ h ht => ht.servSock.trans h

/-- A list of answers that the program accepts from the plain start is a run. -/
theorem Boot.plain_run {acts : List Act} {P : World → Prop}
    (h : ∃ w', Exec.runs World.step? Boot.plain.started acts = some w' ∧ P w') :
    ∃ w w' xs, Boot.plain.server = some (.ok w) ∧ Exec World.Step w xs w' ∧
      xs.map Prod.snd = acts ∧ P w' := by
  obtain ⟨w, hw⟩ : ∃ w, Boot.plain.server = some (.ok w) := ⟨_, rfl⟩
  obtain ⟨-, rfl⟩ := Boot.server_eq hw
  obtain ⟨w', hw', hP⟩ := h
  obtain ⟨xs, hx, hacts⟩ := Exec.of_runs World.step_of_step? hw'
  exact ⟨_, w', xs, hw, hx, hacts, hP⟩

end

end OnlineChat.Reactor
