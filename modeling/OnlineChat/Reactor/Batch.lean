import OnlineChat.Reactor.History

/-!
# What a batch does

Between two calls of `epoll_wait` every connection advances exactly as far as the flags reported for
it say. The proof looks at where a connection is bound to be when the batch is over: `Epoll::wait`
decides that, and no step after it changes it.
-/

namespace OnlineChat.Reactor
open Lib Function

/-- A list whose elements have different keys is a table. -/
theorem find?_key {α β : Type*} [DecidableEq β] {f : α → β} {l : List α} {a : α}
    (hnd : (l.map f).Nodup) (ha : a ∈ l) : l.find? (f · = f a) = some a := by
  induction l with
  | nil => cases ha
  | cons b l ih =>
    obtain ⟨hb, hnd⟩ := List.nodup_cons.mp hnd
    rcases List.mem_cons.mp ha with rfl | ha
    · simp
    · have hne : f b ≠ f a := fun he => hb (he ▸ List.mem_map_of_mem ha)
      rw [List.find?_cons_of_neg (by simpa using hne)]
      exact ih hnd ha

/-- How far the rest of the turn takes a connection for which the flags `m` are reported. -/
def Stage.advance : Option Mask → Stage → Stage
  | some m, .fresh => if m.has EPOLLIN then .armed else .fresh
  | some m, .armed => if m.has EPOLLOUT then .deleted else .armed
  | _, .receiving => .armed
  | _, .sending => .deleted
  | _, st => st

/-- The flags reported for `c` that are still to be handled. -/
def World.due (w : World) (c : ConnId) : Option Mask :=
  (w.pc.todo.find? (·.conn = c)).map (·.event.events)

/-- The flags that a batch reports for `c`. -/
def World.flagsOf (w : World) (batch : List (Fd × Mask)) (c : ConnId) : Option Mask :=
  (w.heap c).bind fun conn => (batch.find? (·.1 = conn.fd)).map Prod.snd

/-- Where `c` is bound to be when the batch is over. -/
def World.outcome (w : World) (c : ConnId) : Stage := (w.stage c).advance (w.due c)

section
variable {w w' : World} {c : ConnId} {conn : Connection} {r : Ready} {todo : List Ready}

theorem World.due_of_mem (hnd : (w.pc.todo.map Ready.conn).Nodup) (hr : r ∈ w.pc.todo) :
    w.due r.conn = some r.event.events := by
  rw [due, find?_key hnd hr]
  rfl

theorem World.due_eq_none (h : c ∉ w.pc.todo.map Ready.conn) : w.due c = none := by
  rw [due, Option.map_eq_none_iff, List.find?_eq_none]
  intro r hr hc
  exact h (List.mem_map.mpr ⟨r, hr, by simpa using hc⟩)

theorem World.due_congr (h : w'.pc.todo = w.pc.todo) : w'.due c = w.due c := by
  rw [due, due, h]

/-- The turn of another connection. -/
theorem World.due_tail (h : w.pc.todo = r :: todo) (h' : w'.pc.todo = todo) (hc : r.conn ≠ c) :
    w'.due c = w.due c := by
  rw [due, due, h, h', List.find?_cons_of_neg (by simpa using hc)]

/-- `recvCallback` is called for `EPOLLIN`. -/
theorem World.Inv.selected_recv (h : w.Inv) (hpc : w.pc = .dispatch (r :: todo))
    (hr : w.heap r.conn = some conn)
    (hsel : conn.selected = some (some ⟨.recvCallback, c⟩)) : r.event.events.has EPOLLIN = true := by
  obtain ⟨rfl, hcl⟩ := h.called hpc hr hsel
  obtain ⟨-, conn₀, hc₀, -, he⟩ := hcl
  cases hr.symm.trans hc₀
  obtain ⟨conn₁, hc₁, -, -, hrev, hwithin⟩ := (h.pending hpc).entry List.mem_cons_self
  cases hr.symm.trans hc₁
  rw [he] at hwithin
  have ho : r.event.events.has EPOLLOUT = false :=
    Mask.has_eq_false_of_within hwithin (by decide)
  unfold Connection.selected at hsel
  rw [hrev, ho] at hsel
  by_contra hi
  rw [if_neg hi] at hsel
  cases hsel

/-- `sendCallback` is called for `EPOLLOUT`. -/
theorem World.Inv.selected_send (h : w.Inv) (hpc : w.pc = .dispatch (r :: todo))
    (hr : w.heap r.conn = some conn)
    (hsel : conn.selected = some (some ⟨.sendCallback, c⟩)) : r.event.events.has EPOLLOUT = true := by
  obtain ⟨rfl, hcl⟩ := h.called hpc hr hsel
  obtain ⟨-, conn₀, hc₀, -, he⟩ := hcl
  cases hr.symm.trans hc₀
  obtain ⟨conn₁, hc₁, -, -, hrev, hwithin⟩ := (h.pending hpc).entry List.mem_cons_self
  cases hr.symm.trans hc₁
  rw [he] at hwithin
  have hi : r.event.events.has EPOLLIN = false :=
    Mask.has_eq_false_of_within hwithin (by decide)
  unfold Connection.selected at hsel
  rw [hrev, hi, if_neg (by simp)] at hsel
  by_contra ho
  rw [if_neg ho] at hsel
  cases hsel

/-- Where nothing is called, no flag that counts is reported. -/
theorem World.Inv.selected_none (h : w.Inv) (hpc : w.pc = .dispatch (r :: todo))
    (hr : w.heap r.conn = some conn) (hsel : conn.selected = none) :
    r.event.events.has EPOLLIN = false ∧ r.event.events.has EPOLLOUT = false := by
  obtain ⟨conn₁, hc₁, -, -, hrev, -⟩ := (h.pending hpc).entry List.mem_cons_self
  cases hr.symm.trans hc₁
  unfold Connection.selected at hsel
  rw [hrev] at hsel
  split at hsel
  · cases hsel
  next hi =>
    split at hsel
    · cases hsel
    next ho => exact ⟨by simpa using hi, by simpa using ho⟩

theorem World.outcome_congr (hst : w'.stage c = w.stage c) (hd : w'.due c = w.due c) :
    w'.outcome c = w.outcome c := by
  rw [outcome, outcome, hst, hd]

/-- The entries that are left are about other connections than the one of the turn. -/
theorem World.Inv.not_due (h : w.Inv) (hpc : w.pc = .dispatch (r :: todo)) (h' : w'.pc.todo = todo) :
    w'.due r.conn = none := by
  apply World.due_eq_none
  rw [h']
  exact (h.pending hpc).tail.1

theorem World.Inv.due_head (h : w.Inv) (hpc : w.pc = .dispatch (r :: todo)) :
    w.due r.conn = some r.event.events := by
  have hp := h.pc.pending
  exact World.due_of_mem hp.nodup (by simp [hpc, Pc.todo])

/-- Once the batch is fixed, a step does not change where a connection is bound to be. -/
theorem Trans.outcome {a : Act} (h : w.Inv) (ht : Trans w a w') (ha : ∀ batch, a ≠ .wait batch)
    (hcs : c ≠ w.servSock) : w'.outcome c = w.outcome c := by
  cases ht with
  | wait => exact absurd rfl (ha _)
  | connect | segment => rfl
  | turn hpc =>
    refine World.outcome_congr (World.stage_congr rfl .rfl ?_) (World.due_congr ?_)
    · simp [hpc, Pc.running]
    · simp [hpc, Pc.todo]
  | @skip r todo conn hpc hr hsel =>
    have hst : ({ w with pc := .dispatch todo } : World).stage c = w.stage c := by
      refine World.stage_congr ?_ ?_ ?_
      · rfl
      · rfl
      · simp [hpc, Pc.running]
    by_cases hc : r.conn = c
    · subst hc
      obtain ⟨hi, ho⟩ := h.selected_none hpc hr hsel
      rw [World.outcome, World.outcome, hst, h.due_head hpc, h.not_due hpc rfl]
      cases w.stage r.conn <;> simp [Stage.advance, hi, ho]
    · exact World.outcome_congr hst (World.due_tail (by rw [hpc]; rfl) rfl hc)
  | @enterAccept r todo conn c' hpc hr hsel =>
    obtain ⟨rfl, hs⟩ := h.called hpc hr hsel
    have hne : r.conn ≠ c := fun he => hcs (he.symm.trans hs)
    refine World.outcome_congr (World.stage_congr rfl .rfl ?_) ?_
    · simp [hpc, Pc.running, hne]
    · exact World.due_tail (by rw [hpc]; rfl) rfl hne
  | @enterRecv r todo conn c' conn' hpc hr hsel hc =>
    have hi := h.selected_recv hpc hr hsel
    obtain ⟨rfl, -, conn₀, hc', -, he⟩ := h.called hpc hr hsel
    cases hc.symm.trans hc'
    by_cases hcr : r.conn = c
    · subst hcr
      rw [World.outcome, World.outcome, h.due_head hpc,
        World.stage_fresh hc he (by rw [hpc]; rfl),
        World.stage_receiving (update_self ..) (by exact he) rfl]
      simp [Stage.advance, hi]
    · refine World.outcome_congr (World.stage_congr ?_ .rfl ?_) ?_
      · simp [World.put, update_of_ne (Ne.symm hcr)]
      · simp [hpc, Pc.running, hcr]
      · exact World.due_tail (by rw [hpc]; rfl) rfl hcr
  | @enterSend r todo conn c' conn' conn'' hpc hr hsel hc hs =>
    have ho := h.selected_send hpc hr hsel
    obtain ⟨rfl, -, conn₀, hc', -, he⟩ := h.called hpc hr hsel
    cases hc.symm.trans hc'
    obtain ⟨wb, rfl⟩ := Connection.strcpy_eq hs
    by_cases hcr : r.conn = c
    · subst hcr
      rw [World.outcome, World.outcome, h.due_head hpc,
        World.stage_armed hc he (by rw [hpc]; rfl),
        World.stage_sending (update_self ..) (by exact he) rfl]
      simp [Stage.advance, ho]
    · refine World.outcome_congr (World.stage_congr ?_ .rfl ?_) ?_
      · simp [World.put, update_of_ne (Ne.symm hcr)]
      · simp [hpc, Pc.running, hcr]
      · exact World.due_tail (by rw [hpc]; rfl) rfl hcr
  | @accept c' todo r junk hpc =>
    obtain ⟨rfl, -⟩ := h.accepting hpc
    refine World.outcome_congr ?_ (World.due_congr (by rw [hpc]; rfl))
    by_cases hcn : c = w.nextConn
    · subst hcn
      have hnone : w.heap w.nextConn = none := by
        simpa [World.registry] using h.registry.core_nextConn
      rw [World.stage_fresh (update_self ..) rfl rfl]
      simp [World.stage, hnone]
    · apply World.stage_congr
      · simp [World.accepted, update_of_ne hcn]
      · exact ⟨fun h => lt_of_le_of_ne (Nat.lt_succ_iff.mp h) hcn, Nat.lt_succ_of_lt⟩
      · simp [World.accepted, hpc, Pc.running, Ne.symm hcs]
  | @recv c' todo conn r s hpc hc =>
    refine World.outcome_congr (World.stage_congr ?_ .rfl .rfl) rfl
    by_cases hcc : c = c'
    · subst hcc
      simp [World.received, World.put, hc, Connection.setRecvBuf]
    · simp [World.received, World.put, update_of_ne hcc]
  | @leaveRecv c' todo conn r hpc hc =>
    obtain ⟨-, -, he⟩ := h.receiving hpc hc
    have hdue : (w.rearmed c' conn todo r).due c = w.due c := World.due_congr (by rw [hpc]; rfl)
    by_cases hcc : c = c'
    · subst hcc
      have hnot : w.due c = none := World.due_eq_none (by rw [hpc]; exact (h.receiving_client hpc).2.1)
      rw [World.outcome, World.outcome, hdue, hnot, World.stage_receiving hc he (by rw [hpc]; rfl),
        World.stage_armed (update_self ..) rfl rfl]
      rfl
    · refine World.outcome_congr (World.stage_congr ?_ .rfl ?_) hdue
      · simp [World.rearmed, World.put, update_of_ne hcc]
      · simp [World.rearmed, hpc, Pc.running, Ne.symm hcc]
  | @leaveSend c' todo conn n past hpc hc =>
    obtain ⟨-, -, he⟩ := h.writing hpc hc
    have hdue : (w.dropped c' conn todo ((conn.wbuffer.bytes ++ past).take n)).due c = w.due c :=
      World.due_congr (by rw [hpc]; rfl)
    by_cases hcc : c = c'
    · subst hcc
      have hlt : c < w.nextConn := h.registry.conn_lt (World.registry_core hc)
      have hnot : w.due c = none := World.due_eq_none (by rw [hpc]; exact (h.writing_client hpc).2.1)
      rw [World.outcome, World.outcome, hdue, hnot, World.stage_sending hc he (by rw [hpc]; rfl),
        World.stage_deleted (by exact update_self ..) (by exact hlt)]
      rfl
    · refine World.outcome_congr (World.stage_congr ?_ .rfl ?_) hdue
      · simp [World.dropped, update_of_ne hcc]
      · simp [World.dropped, hpc, Pc.running, Ne.symm hcc]

/-- The entries that `Epoll::wait` makes for `c` are those of the batch for its descriptor. -/
theorem World.Inv.due_wait {batch : List (Fd × Mask)} {heap : ConnId → Option Connection}
    (h : w.Inv) (hrep : w.kernel.CanReport batch)
    (hcol : Collected w.connMap w.heap (w.kernel.reported batch) todo heap)
    (hp : w'.Pending todo) (hw : w'.heap = heap) (htodo : w'.pc.todo = todo) :
    w'.due c = w.flagsOf batch c := by
  obtain ⟨hdata, hspec⟩ := World.reported_spec h.registry hrep.2
  cases hc : w.heap c with
  | none =>
    rw [World.flagsOf, hc]
    apply World.due_eq_none
    rw [htodo]
    intro hm
    obtain ⟨r, hr, rfl⟩ := List.mem_map.mp hm
    obtain ⟨conn, hc', -⟩ := hcol.heap_mem hp.nodup r hr
    rw [hc] at hc'
    cases hc'
  | some conn =>
    rw [World.flagsOf, hc, Option.bind_some]
    cases hfind : batch.find? (·.1 = conn.fd) with
    | none =>
      apply World.due_eq_none
      rw [htodo]
      intro hm
      obtain ⟨r, hr, rfl⟩ := List.mem_map.mp hm
      have hmem : r.event.data ∈ batch.map Prod.fst := by
        rw [← hdata, ← hcol.events, List.map_map]
        exact List.mem_map_of_mem hr
      obtain ⟨e, he, hfd⟩ := List.mem_map.mp hmem
      obtain ⟨conn', hc', hfd', -⟩ := hp.entry hr
      obtain ⟨conn₀, hc₀, ho⟩ := hcol.origin (hw ▸ hc')
      cases hc.symm.trans hc₀
      have hsame : conn'.fd = conn.fd := by rw [ho]
      have hne := List.find?_eq_none.mp hfind e he
      exact hne (by simpa using hfd.trans (hfd'.symm.trans hsame))
    | some e =>
      have he := List.mem_of_find?_eq_some hfind
      have hfd : e.1 = conn.fd := by simpa using List.find?_some hfind
      obtain ⟨ev, hev, -⟩ := (Option.any_eq_true ..).mp (hrep.2 e he)
      obtain ⟨c', k, -, -, hk, hne, -, hd⟩ := h.registry.of_interest hev
      have hrepd : (⟨e.2, e.1⟩ : EpollEvent) ∈ w.kernel.reported batch :=
        List.mem_filterMap.mpr ⟨e, he, by simp [hev, hd]⟩
      rw [← hcol.events] at hrepd
      obtain ⟨r, hr, hevent⟩ := List.mem_map.mp hrepd
      have hconn := hcol.mapped r hr
      have hvalid : conn.fd ≠ -1 := by rwa [← hfd, ← hk]
      rw [hevent, hfd, (World.mapped h.registry hc hvalid).1] at hconn
      cases hconn
      rw [World.due_of_mem (htodo ▸ hp.nodup) (htodo ▸ hr), hevent]
      rfl

/-- `epoll_wait` decides where every client connection is bound to be. -/
theorem World.Inv.outcome_wait {batch : List (Fd × Mask)} (h : w.Inv)
    (hst : w.Step (.wait batch) w') : w'.outcome c =
      (w.stage c).advance (w.flagsOf batch c) := by
  have hinv := h.step hst
  cases h.trans hst with
  | @wait _ todo heap hpc hrep hcol =>
    have hp := hinv.pending rfl
    have hstage : ({ w with kernel := w.kernel.report batch, heap, pc := .dispatch todo }
        : World).stage c = w.stage c := by
      refine World.stage_congr (hcol.flags c) .rfl ?_
      simp [hpc, Pc.running]
    rw [World.outcome, hstage]
    rw [h.due_wait hrep hcol hp rfl rfl]

/-- In `epoll_wait` everything is where it was bound to be. -/
theorem World.outcome_waiting (hpc : w.pc = .waiting) : w.outcome c = w.stage c := by
  have hdue : w.due c = none := World.due_eq_none (by simp [hpc, Pc.todo])
  rw [World.outcome, hdue, World.stage]
  split
  · split <;> rfl
  · simp only [hpc, Pc.running, reduceCtorEq, if_false]
    split <;> rfl

/-- The connection `c` is neither in the batch nor being handled. -/
structure World.Spared (w : World) (c : ConnId) : Prop where
  todo : c ∉ w.pc.todo.map Ready.conn
  running : w.pc.running ≠ some c
  lt : c < w.nextConn

theorem World.Spared.trans {a : Act} (hs : w.Spared c) (h : w.Inv) (ht : Trans w a w')
    (ha : ∀ batch, a ≠ .wait batch) : w'.Spared c ∧ w'.heap c = w.heap c := by
  obtain ⟨htodo, hrun, hlt⟩ := hs
  have head : ∀ {r todo}, w.pc = .dispatch (r :: todo) →
      r.conn ≠ c ∧ c ∉ todo.map Ready.conn := by
    intro r todo hpc
    rw [hpc] at htodo
    simp only [Pc.todo, List.map_cons, List.mem_cons, not_or] at htodo
    exact ⟨Ne.symm htodo.1, htodo.2⟩
  have busy : ∀ {c'}, w.pc.running = some c' → c' ≠ c := by
    rintro c' hpc rfl
    exact hrun hpc
  cases ht with
  | wait => exact absurd rfl (ha _)
  | connect | segment => exact ⟨⟨htodo, hrun, hlt⟩, rfl⟩
  | turn => exact ⟨⟨by simp [Pc.todo], by simp [Pc.running], hlt⟩, rfl⟩
  | skip hpc => exact ⟨⟨(head hpc).2, by simp [Pc.running], hlt⟩, rfl⟩
  | enterAccept hpc hr hsel =>
    obtain ⟨rfl, -⟩ := h.called hpc hr hsel
    obtain ⟨hne, hnot⟩ := head hpc
    exact ⟨⟨hnot, by simpa [Pc.running] using hne, hlt⟩, rfl⟩
  | enterRecv hpc hr hsel | enterSend hpc hr hsel =>
    obtain ⟨rfl, -⟩ := h.called hpc hr hsel
    obtain ⟨hne, hnot⟩ := head hpc
    exact ⟨⟨hnot, by simpa [Pc.running] using hne, hlt⟩, update_of_ne (Ne.symm hne) ..⟩
  | accept hpc =>
    rw [hpc] at htodo
    exact ⟨⟨htodo, by simp [World.accepted, Pc.running], Nat.lt_succ_of_lt hlt⟩,
      update_of_ne (Nat.ne_of_lt hlt) ..⟩
  | recv hpc =>
    have hne := busy (by rw [hpc]; rfl)
    exact ⟨⟨htodo, hrun, hlt⟩, update_of_ne (Ne.symm hne) ..⟩
  | leaveRecv hpc | leaveSend hpc =>
    have hne := busy (by rw [hpc]; rfl)
    rw [hpc] at htodo
    exact ⟨⟨htodo, by simp [World.rearmed, World.dropped, Pc.running], hlt⟩,
      update_of_ne (Ne.symm hne) ..⟩

/-- What `epoll_wait` does not report, `Epoll::wait` leaves alone. -/
theorem World.Inv.spared_wait {batch : List (Fd × Mask)} (h : w.Inv) (hst : w.Step (.wait batch) w')
    (hnone : w.flagsOf batch c = none) (hlt : c < w.nextConn) :
    w'.Spared c ∧ w'.heap c = w.heap c := by
  have hinv := h.step hst
  cases h.trans hst with
  | @wait _ todo heap hpc hrep hcol =>
    have hp := hinv.pending rfl
    have hnot : c ∉ todo.map Ready.conn := by
      intro hm
      obtain ⟨r, hr, rfl⟩ := List.mem_map.mp hm
      have hdue := h.due_wait (c := r.conn) hrep hcol hp rfl rfl
      have hsome := hdue.symm.trans (World.due_of_mem hp.nodup hr)
      rw [hnone] at hsome
      cases hsome
    exact ⟨⟨hnot, by simp [Pc.running], hlt⟩, hcol.heap_other hnot⟩

/-- The steps of one batch. -/
theorem World.Inv.batch_run {ys : List (World × Act)} (h : w.Inv) (hy : Exec World.Step w ys w')
    (hys : ∀ y ∈ ys, ∀ batch, y.2 ≠ .wait batch) :
    w'.Inv ∧ w'.servSock = w.servSock ∧ (c ≠ w.servSock → w'.outcome c = w.outcome c) ∧
      (w.Spared c → w'.Spared c ∧ w'.heap c = w.heap c) := by
  induction hy with
  | nil => exact ⟨h, rfl, fun _ => rfl, fun hs => ⟨hs, rfl⟩⟩
  | @snoc ys v a u hy hst ih =>
    obtain ⟨hv, hserv, hout, hspared⟩ := ih fun y hy => hys y (List.mem_append_left _ hy)
    have ha : ∀ batch, a ≠ .wait batch := hys (v, a) (by simp)
    have ht := hv.trans hst
    refine ⟨hv.step hst, ht.servSock.trans hserv, ?_, ?_⟩
    · intro hcs
      exact (ht.outcome hv ha (hserv.symm ▸ hcs)).trans (hout hcs)
    · intro hs
      obtain ⟨hs', he⟩ := hspared hs
      obtain ⟨hs'', he'⟩ := hs'.trans hv ht ha
      exact ⟨hs'', he'.trans he⟩

end

/-- From one call of `epoll_wait` to the next, every client connection advances as the flags
reported for it say, and what is not reported is left alone. -/
theorem Boot.batch_outcome {e : Boot} {w t u v : World} {xs ys : List (World × Act)}
    {batch : List (Fd × Mask)} (hb : e.server = some (.ok w)) (hx : Exec World.Step w xs t)
    (hst : t.Step (.wait batch) u) (hy : Exec World.Step u ys v)
    (hys : ∀ y ∈ ys, ∀ batch, y.2 ≠ .wait batch) (hv : v.pc = .waiting) (c : ConnId) :
    (c ≠ v.servSock → v.stage c = (t.stage c).advance (t.flagsOf batch c)) ∧
      (t.flagsOf batch c = none → c < t.nextConn → v.heap c = t.heap c) := by
  have ht := Boot.inv hb hx
  have hu := ht.step hst
  obtain ⟨-, hserv, hout, hspared⟩ := hu.batch_run (c := c) hy hys
  constructor
  · intro hcs
    rw [← World.outcome_waiting hv, hout (hserv ▸ hcs), ht.outcome_wait hst]
  · intro hnone hlt
    obtain ⟨hs, he⟩ := ht.spared_wait hst hnone hlt
    exact (hspared hs).2.trans he

/-- In one batch the first client is answered and the second one is accepted. -/
theorem Boot.batch_outcome_reuse : ∃ w t u v xs ys, Boot.plain.server = some (.ok w) ∧
    Exec World.Step w xs t ∧ t.Step (.wait [(5, EPOLLOUT), (4, EPOLLIN)]) u ∧
    Exec World.Step u ys v ∧ t.stage 1 = .armed ∧ v.stage 1 = .deleted ∧
    (1 ≠ v.servSock →
      v.stage 1 = (t.stage 1).advance (t.flagsOf [(5, EPOLLOUT), (4, EPOLLIN)] 1)) ∧
    (t.flagsOf [(5, EPOLLOUT), (4, EPOLLIN)] 1 = none → 1 < t.nextConn → v.heap 1 = t.heap 1) := by
  obtain ⟨w, hw⟩ : ∃ w, Boot.plain.server = some (.ok w) := ⟨_, rfl⟩
  obtain ⟨-, rfl⟩ := Boot.server_eq hw
  obtain ⟨t, u, v, ht, hu, hv, hpc, hold, hnew⟩ : ∃ t u v,
      Exec.runs World.step? Boot.plain.started (reuseRun.take 12) = some t ∧
      t.step? (.wait [(5, EPOLLOUT), (4, EPOLLIN)]) = some u ∧
      Exec.runs World.step? u (reuseRun.drop 13) = some v ∧
      v.pc = .waiting ∧ t.stage 1 = .armed ∧ v.stage 1 = .deleted :=
    ⟨_, _, _, rfl, rfl, rfl, rfl, by decide +kernel, by decide +kernel⟩
  obtain ⟨xs, hx, -⟩ := Exec.of_runs World.step_of_step? ht
  obtain ⟨ys, hy, hacts⟩ := Exec.of_runs World.step_of_step? hv
  have hst := World.step_of_step? hu
  have hys : ∀ y ∈ ys, ∀ batch, y.2 ≠ .wait batch := by
    refine Exec.forall_labels (C := fun a => ∀ batch, a ≠ .wait batch) hacts ?_
    intro a ha batch he
    subst he
    simp [reuseRun] at ha
  exact ⟨_, t, u, v, xs, ys, hw, hx, hst, hy, hold, hnew, Boot.batch_outcome hw hx hst hy hys hpc 1⟩

end OnlineChat.Reactor
