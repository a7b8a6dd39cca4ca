import OnlineChat.Reactor.Streams
import OnlineChat.Reactor.Turn

/-!
# The order of a batch

`epoll_wait` reports the ready descriptors in some order, and `EventLoop::start` calls the
callbacks in that order. A turn only concerns the cell of its connection, the cells of two
connections are disjoint, and so the turns of a batch lead to the same state in any order.
-/

namespace OnlineChat.Reactor
open Lib Function

/-- The state without its history. -/
def World.untraced (w : World) : World := { w with trace := [] }

/-- The turns of the descriptors `fds`, where the system calls on `fd` return `ans fd`, and the
return to `epoll_wait`. -/
def turns (ans : Fd → List Answer) (fds : List Fd) : List Act :=
  (fds.flatMap fun fd => .next :: (ans fd).map Answer.act) ++ [.next]

/-- A batch from `epoll_wait` to the end of the loop over `readyConns`. -/
def batchActs (ans : Fd → List Answer) (batch : List (Fd × Mask)) : List Act :=
  .wait batch :: turns ans (batch.map Prod.fst)

/-- A whole turn on the cell; `none` where it goes wrong or does not come to its end. -/
def Loc.run (ℓ : Loc) (as : List Answer) (x : Cell) : Option Cell :=
  (ℓ.turn as x).bind fun t => if t.phase = .done then some t.cell else none

/-- The places of a pending connection. -/
def World.loc (w : World) (r : Ready) : Loc where
  conn := r.conn
  fd := r.event.data.toNat
  sock := (w.kernel.sockOf r.event.data).getD 0
  inet := ((w.heap r.conn).bind Connection.inetAddr).getD 0

section
variable {e : Boot} {w w' u : World}

/-! ## The cells of a batch -/

section
variable {todo : List Ready} {r r' : Ready}

/-- A pending connection other than the listening socket is a client. -/
theorem World.Pending.client (h : w.registry.Ok) (hp : w.Pending todo) (hr : r ∈ todo)
    (hl : w.kernel.isListener r.event.data = false) :
    ∃ conn, ((w.loc r).get w).Client (w.loc r) conn ∧ r.event.data = (w.loc r).fd ∧
      conn.fd ≠ -1 := by
  obtain ⟨conn, hc, hfd, hne, -⟩ := hp.entry hr
  have hk := World.registry_core hc
  have hserv : r.conn ≠ w.servSock := by
    intro hs
    obtain ⟨k, hk', -, hf⟩ := h.serv
    rw [show w.registry.servSock = r.conn from hs.symm] at hk'
    cases hk.symm.trans hk'
    have hf : w.kernel.file conn.fd = some .listener := hf
    rw [Kernel.isListener, ← hfd, hf] at hl
    cases hl
  obtain ⟨s, hf⟩ := h.peer hk hserv hne
  have hf : w.kernel.file conn.fd = some (.conn s) := hf
  obtain ⟨a, ha, hlive, -⟩ := h.inet hk
  have ha : conn.inetAddr = some a := ha
  have hnat : conn.fd = (conn.fd.toNat : Fd) :=
    (Int.toNat_of_nonneg (Kernel.file_nonneg hf)).symm
  have hloc : w.loc r = ⟨r.conn, conn.fd.toNat, s, a⟩ := by
    rw [World.loc, ← hfd, Kernel.sockOf_eq_some.mpr hf, hc, Option.bind_some, ha]
    rfl
  have hint := (h.mapped hk hne).2.1
  rw [hloc]
  refine ⟨conn, ⟨hc, hnat, ha, hlive, ?_, ?_, h.inEpoll hk, ?_, ?_⟩, hfd ▸ hnat, hne⟩
  · rw [hnat] at hf
    exact hf
  · show (w.kernel.interest (conn.fd.toNat : Fd)).isSome = true
    rw [← hnat]
    exact Option.isSome_iff_exists.mpr ⟨_, hint⟩
  · cases h.role hk with
    | listener hs => exact absurd hs hserv
    | client _ _ hr => exact hr
  · cases h.role hk with
    | listener hs => exact absurd hs hserv
    | client _ _ _ hs => exact hs

/-- Two clients share nothing. -/
theorem World.cells_disjoint (h : w.registry.Ok) (hk : w.kernel.Peers) {conn conn' : Connection}
    (hx : ((w.loc r).get w).Client (w.loc r) conn) (hx' : ((w.loc r').get w).Client (w.loc r') conn')
    (hne : conn.fd ≠ -1) (hrr : r.conn ≠ r'.conn) :
    (w.loc r).cell.Disjoint (w.loc r').cell := by
  have hc := World.registry_core (w := w) (c := r.conn) hx.conn
  have hc' := World.registry_core (w := w) (c := r'.conn) hx'.conn
  have hfd : conn.fd ≠ conn'.fd := fun he => hrr (h.fd_inj hc hc' hne he)
  refine Loc.cell_disjoint hrr ?_ ?_ ?_
  · intro he
    exact hfd (hx.fd.trans ((congrArg Nat.cast he).trans hx'.fd.symm))
  · intro he
    refine hfd (hk.inj (s := (w.loc r).sock) hx.file_eq ?_)
    rw [he]
    exact hx'.file_eq
  · intro he
    refine hrr (h.inet_inj hc hc' ?_)
    exact hx.inetAddr.trans ((congrArg some he).trans hx'.inetAddr.symm)

/-! ## The loop over readyConns -/

theorem turns_cons {ans : Fd → List Answer} {fd : Fd} {fds : List Fd} :
    turns ans (fd :: fds) = (.next :: (ans fd).map Answer.act) ++ turns ans fds := by
  rw [turns, turns, List.flatMap_cons, List.append_assoc]

/-- As long as a turn has not come to its end, the loop cannot go on. -/
theorem World.runs_turns_none {ans : Fd → List Answer} {fds : List Fd}
    (hpc : ∀ todo, u.pc ≠ .dispatch todo) : Exec.runs World.step? u (turns ans fds) = none := by
  have hnext : u.step? .next = none := by
    refine World.step?_of_not ?_
    cases h : u.pc with
    | dispatch todo => exact absurd h (hpc todo)
    | waiting | accepting | receiving | writing => simp [World.Legal, h]
  cases fds with
  | nil =>
    rw [turns, List.flatMap_nil, List.nil_append, Exec.runs, List.foldlM_cons, hnext]
    rfl
  | cons fd fds =>
    rw [turns_cons, List.cons_append, Exec.runs, List.foldlM_cons, hnext]
    rfl

/-- The turns of `todo`, one after the other. -/
theorem World.runs_turns {loc : Ready → Loc} {ans : Fd → List Answer}
    (hcl : ∀ r ∈ todo, r.conn = (loc r).conn ∧ ∃ conn, ((loc r).get u).Client (loc r) conn)
    (hdis : todo.Pairwise fun r r' => (loc r).cell.Disjoint (loc r').cell)
    (hpc : u.pc = .dispatch todo) :
    (Exec.runs World.step? u (turns ans (todo.map fun r => r.event.data))).map World.untraced =
      Lens.liftAll (fun r => (loc r).cell) (fun r => (loc r).run (ans r.event.data)) todo
        ({ u with pc := .waiting } : World).untraced := by
  induction todo generalizing u with
  | nil =>
    have hl : u.Legal .next := by simp only [World.Legal, hpc]
    rw [List.map_nil, turns, List.flatMap_nil, List.nil_append, Exec.runs, List.foldlM_cons,
      World.step?_of_legal hl]
    simp only [World.step, hpc, World.dispatch]
    rfl
  | cons r todo ih =>
    obtain ⟨hrconn, conn, hx⟩ := hcl r List.mem_cons_self
    obtain ⟨hdis₁, hdis₂⟩ := List.pairwise_cons.mp hdis
    have hturn := @World.runs_turn _ u todo conn r (ans r.event.data) hx hrconn hpc
    rw [List.map_cons, turns_cons, Exec.runs_append, hturn, Lens.liftAll_cons, Lens.lift]
    show _ = (((loc r).run (ans r.event.data) ((loc r).get u)).map _).bind _
    rw [Loc.run]
    cases (loc r).turn (ans r.event.data) ((loc r).get u) with
    | none => rfl
    | some t =>
      cases ht : t.phase with
      | done =>
        simp only [Option.map_some, Option.bind_some, ht, if_true]
        refine ih ?_ hdis₂ ?_
        · intro r' hr'
          obtain ⟨hc', conn', hx'⟩ := hcl r' (List.mem_cons_of_mem r hr')
          have hget : (loc r').get (u.advance (loc r) todo t) = (loc r').get u :=
            (hdis₁ r' hr').symm.get_put
          exact ⟨hc', conn', hget.symm ▸ hx'⟩
        · rw [World.advance, ht]
          rfl
      | receiving | writing =>
        simp only [Option.map_some, Option.bind_some, ht, reduceCtorEq, if_false, Option.map_none,
          Option.bind_none]
        rw [World.runs_turns_none]
        · rfl
        · simp [World.advance, ht, Phase.pc]

end

/-! ## Two orders -/

/-- The entries of `readyConns` are looked up one by one. -/
theorem Collected.todo_eq {m : Fd → Option ConnId} {heap heap' : ConnId → Option Connection}
    {es : List EpollEvent} {todo : List Ready} (h : Collected m heap es todo heap') :
    todo = es.map fun ev => ⟨ev, (m ev.data).getD 0⟩ := by
  rw [← h.events, List.map_map]
  refine (List.map_id todo).symm.trans (List.map_congr_left ?_)
  intro r hr
  simp only [Function.comp, h.mapped r hr, Option.getD_some, id]

/-- The heap does not depend on the order in which the flags are set. -/
theorem Collected.heap_perm {m : Fd → Option ConnId} {heap h₁ h₂ : ConnId → Option Connection}
    {es₁ es₂ : List EpollEvent} {todo₁ todo₂ : List Ready} (hcol₁ : Collected m heap es₁ todo₁ h₁)
    (hcol₂ : Collected m heap es₂ todo₂ h₂) (hnd : (todo₁.map Ready.conn).Nodup)
    (hp : todo₁.Perm todo₂) : h₁ = h₂ := by
  have hpc : (todo₁.map Ready.conn).Perm (todo₂.map Ready.conn) := hp.map _
  funext c
  by_cases hc : c ∈ todo₁.map Ready.conn
  · obtain ⟨r, hr, rfl⟩ := List.mem_map.mp hc
    obtain ⟨conn, hconn, he⟩ := hcol₁.heap_mem hnd r hr
    obtain ⟨conn', hconn', he'⟩ := hcol₂.heap_mem (hpc.nodup_iff.mp hnd) r (hp.mem_iff.mp hr)
    cases hconn.symm.trans hconn'
    exact he.trans he'.symm
  · rw [hcol₁.heap_other hc, hcol₂.heap_other (mt hpc.mem_iff.mpr hc)]

/-- `epoll_wait` may report a batch in any order. -/
theorem World.Legal.wait_perm {batch batch' : List (Fd × Mask)} (h : w.Legal (.wait batch))
    (hp : batch.Perm batch') : w.Legal (.wait batch') := by
  obtain ⟨hpc, hlen, hnd, hreg⟩ := h
  exact ⟨hpc, hp.length_eq ▸ hlen, (hp.map _).nodup_iff.mp hnd,
    fun b hb => hreg b (hp.mem_iff.mpr hb)⟩

theorem World.Inv.step_wait {batch : List (Fd × Mask)} (h : w.Inv) (hl : w.Legal (.wait batch)) :
    ∃ todo heap, Collected w.connMap w.heap (w.kernel.reported batch) todo heap ∧
      w.step? (.wait batch) =
        some { w with kernel := w.kernel.report batch, heap := heap, pc := .dispatch todo } := by
  obtain ⟨⟨todo, v⟩, hv⟩ := h.wait_ok hl.2.2
  obtain ⟨hcol, hv'⟩ := World.collect_eq_ok hv
  refine ⟨todo, v.heap, hcol, ?_⟩
  rw [World.step?_of_legal hl]
  simp only [World.step, hv, bind, Except.bind, pure, Except.pure]
  rw [hv']
  rfl

/-- The state in which `Epoll::wait` returns, with nothing pending and no history. -/
def World.still (w : World) (heap : ConnId → Option Connection) : World :=
  { w with heap := heap, pc := .waiting, trace := [] }

section
variable {ans : Fd → List Answer} {batch batch' : List (Fd × Mask)} {todo todo' : List Ready}
  {heap : ConnId → Option Connection}

/-- What `Epoll::wait` returns for a batch of clients. -/
theorem World.Inv.pending_batch (h : w.Inv) (hl : w.Legal (.wait batch))
    (hclients : ∀ b ∈ batch, w.kernel.isListener b.1 = false)
    (hcol : Collected w.connMap w.heap (w.kernel.reported batch) todo heap) :
    (w.still heap).Pending todo ∧ todo.map (fun r => r.event.data) = batch.map Prod.fst ∧
      ∀ r ∈ todo, w.kernel.isListener r.event.data = false := by
  have hdata : todo.map (fun r => r.event.data) = batch.map Prod.fst := by
    rw [← (World.reported_spec h.registry hl.2.2.2).1, ← hcol.events, List.map_map]
    rfl
  refine ⟨World.pending_wait h.registry hl.2.2 hcol rfl, hdata, ?_⟩
  intro r hr
  have hmem : r.event.data ∈ batch.map Prod.fst := hdata ▸ List.mem_map_of_mem hr
  obtain ⟨b, hb, he⟩ := List.mem_map.mp hmem
  exact he ▸ hclients b hb

/-- The cells of a batch. -/
theorem World.Pending.disjoint (h : w.registry.Ok) (hk : w.kernel.Peers) (hp : w.Pending todo)
    (hl : ∀ r ∈ todo, w.kernel.isListener r.event.data = false) :
    ∀ r ∈ todo, ∀ r' ∈ todo, r ≠ r' → (w.loc r).cell.Disjoint (w.loc r').cell := by
  intro r hr r' hr' hne
  obtain ⟨conn, hx, -, hfd⟩ := hp.client h hr (hl r hr)
  obtain ⟨conn', hx', -⟩ := hp.client h hr' (hl r' hr')
  exact World.cells_disjoint h hk hx hx' hfd
    fun he => hne (List.inj_on_of_nodup_map hp.nodup hr hr' he)

/-- A batch of clients leads to what the turns of its connections make of their cells. -/
theorem World.Inv.runs_batch (h : w.Inv) (hk : w.kernel.Peers) (hl : w.Legal (.wait batch))
    (hclients : ∀ b ∈ batch, w.kernel.isListener b.1 = false)
    (hcol : Collected w.connMap w.heap (w.kernel.reported batch) todo heap)
    (hstep : w.step? (.wait batch) =
      some { w with kernel := w.kernel.report batch, heap := heap, pc := .dispatch todo }) :
    (Exec.runs World.step? w (batchActs ans batch)).map World.untraced =
      Lens.liftAll (fun r => ((w.still heap).loc r).cell)
        (fun r => ((w.still heap).loc r).run (ans r.event.data)) todo (w.still heap) := by
  obtain ⟨hp, hdata, hcl⟩ := h.pending_batch hl hclients hcol
  have hinv := h.step (World.step_of_step? hstep)
  rw [Kernel.report_of_other hclients] at hstep hinv
  have hreg : (w.still heap).registry.Ok := hinv.registry
  rw [batchActs, Exec.runs, List.foldlM_cons, hstep, ← hdata]
  refine @World.runs_turns _ todo (w.still heap).loc ans ?_ ?_ rfl
  · intro r hr
    obtain ⟨conn, hx, -⟩ := hp.client hreg hr (hcl r hr)
    exact ⟨rfl, conn, hx⟩
  · exact hp.nodup.of_map.pairwise_of_forall_ne (hp.disjoint hreg hk hcl)

theorem World.Inv.batch_perm (h : w.Inv) (hk : w.kernel.Peers)
    (hclients : ∀ b ∈ batch, w.kernel.isListener b.1 = false) (hp : batch.Perm batch') :
    (Exec.runs World.step? w (batchActs ans batch)).map World.untraced =
      (Exec.runs World.step? w (batchActs ans batch')).map World.untraced := by
  by_cases hl : w.Legal (.wait batch)
  · obtain ⟨todo, heap, hcol, hstep⟩ := h.step_wait hl
    obtain ⟨todo', heap', hcol', hstep'⟩ := h.step_wait (hl.wait_perm hp)
    obtain ⟨hpend, -, hcl⟩ := h.pending_batch hl hclients hcol
    have htodo : todo.Perm todo' := by
      rw [hcol.todo_eq, hcol'.todo_eq]
      exact (hp.filterMap _).map _
    cases hcol.heap_perm hcol' hpend.nodup htodo
    have hinv := h.step (World.step_of_step? hstep)
    rw [Kernel.report_of_other hclients] at hinv
    rw [h.runs_batch hk hl hclients hcol hstep, h.runs_batch hk (hl.wait_perm hp)
      (fun b hb => hclients b (hp.mem_iff.mpr hb)) hcol' hstep']
    exact Lens.liftAll_perm (hpend.disjoint hinv.registry hk hcl) htodo
  · have hl' : ¬ w.Legal (.wait batch') := fun hl' => hl (hl'.wait_perm hp.symm)
    have hnone : ∀ {b}, ¬ w.Legal (.wait b) → Exec.runs World.step? w (batchActs ans b) = none := by
      intro b hb
      rw [batchActs, Exec.runs, List.foldlM_cons, World.step?_of_not hb]
      rfl
    rw [hnone hl, hnone hl']

end

/-- The order in which `epoll_wait` reports a batch of clients does not matter: when each system
call answers as it does on its descriptor, the server comes to the same state. -/
theorem Boot.batch_order {xs : List (World × Act)} (hb : e.server = some (.ok w))
    (hx : Exec World.Step w xs w') {batch batch' : List (Fd × Mask)}
    (hclients : ∀ b ∈ batch, w'.kernel.isListener b.1 = false) (hp : batch.Perm batch')
    (ans : Fd → List Answer) :
    (Exec.runs World.step? w' (batchActs ans batch)).map World.untraced =
      (Exec.runs World.step? w' (batchActs ans batch')).map World.untraced :=
  (Boot.inv hb hx).batch_perm (Boot.peers hb hx) hclients hp

/-- Two clients, of which the one on the descriptor 5 waits to be sent to and the one on 6 has sent
a byte. -/
def pairRun : List Act := [.connect, .connect, .wait [(4, EPOLLIN)], .next,
  .accept 5 Boot.plain.junk, .next, .wait [(4, EPOLLIN)], .next, .accept 6 Boot.plain.junk, .next,
  .segment 0 [72, 105], .segment 1 [33], .wait [(5, EPOLLIN)], .next, .recv (.bytes [72, 105]),
  .recv (.fail .EAGAIN), .next]

def pairBatch : List (Fd × Mask) := [(5, EPOLLOUT), (6, EPOLLIN)]

/-- What the system calls of the next batch return. -/
def pairAns (fd : Fd) : List Answer :=
  if fd = 5 then [.write 2 []] else [.recv (.bytes [33]), .recv (.fail .EAGAIN)]

theorem Boot.batch_order_pair : ∃ w w' xs, Boot.plain.server = some (.ok w) ∧
    Exec World.Step w xs w' ∧ xs.map Prod.snd = pairRun ∧
    (Exec.runs World.step? w' (batchActs pairAns pairBatch)).isSome = true ∧
    (Exec.runs World.step? w' (batchActs pairAns pairBatch)).map World.untraced =
      (Exec.runs World.step? w' (batchActs pairAns pairBatch.reverse)).map World.untraced := by
  have hrun : (Exec.runs World.step? Boot.plain.started pairRun).any (fun w' =>
      (∀ b ∈ pairBatch, w'.kernel.isListener b.1 = false) ∧
      (Exec.runs World.step? w' (batchActs pairAns pairBatch)).isSome = true) := by decide +kernel
  obtain ⟨w, w', xs, hw, hx, hacts, hrun⟩ :=
    Boot.plain_run ((Option.any_eq_true ..).mp hrun)
  obtain ⟨hclients, hsome⟩ := of_decide_eq_true hrun
  have hperm : pairBatch.Perm pairBatch.reverse := (List.reverse_perm _).symm
  exact ⟨w, w', xs, hw, hx, hacts, hsome, Boot.batch_order hw hx hclients hperm pairAns⟩

end
end OnlineChat.Reactor
