import OnlineChat.ChatServer.Readiness
import OnlineChat.ChatServer.Visits

/-!
# One turn of the single-threaded server

From one `epoll_wait` to the next, in a run without receive errors: nothing goes wrong but that
`printf` may run past a full buffer, the number of steps is bounded by the length of the batch
whatever the clients send in the meantime, and of the clients that were open before exactly those
that were reported with `EPOLLIN` alone are closed.
-/

namespace OnlineChat.ChatServer
open Lib Function

/-- The steps that a turn of the loop consists of. -/
def Act.inTurn : Act → Bool
  | .next | .accept _ | .recv _ => true
  | .connect | .segment .. | .wait _ => false

/-- The steps that the events `todo` may take, and the one back to `epoll_wait`. -/
def turnsLeft (todo : List EpollEvent) : Nat := (BUFFER_LENGTH + 2) * todo.length + 1

theorem turnsLeft_cons (e : EpollEvent) (todo : List EpollEvent) :
    turnsLeft (e :: todo) = turnsLeft todo + (BUFFER_LENGTH + 2) := by
  rw [turnsLeft, turnsLeft, List.length_cons, Nat.mul_succ]
  omega

namespace Server

/-- What holds in every state of a run without receive errors. -/
structure Sound (s : Server) : Prop where
  inv : s.Inv
  streams : s.Streams

/-- How many steps the turn may still take. -/
def left (s : Server) : Nat :=
  match s.pc with
  | .waiting => 0
  | .dispatch todo => turnsLeft todo
  | .accepting todo => turnsLeft todo + 1
  | .receiving _ todo => turnsLeft todo + (BUFFER_LENGTH + 1 - s.bufferLen.toNat)

section
variable {s s' : Server} {a : Act} {fd : Fd} {k : SockId} {todo : List EpollEvent}
  {r : RecvResult}

theorem Sound.step (h : s.Sound) (hs : s.Step a s') (ha : a.CleanRecv) : s'.Sound :=
  ⟨h.inv.step hs, h.streams.step h.inv hs ha⟩

theorem left_dispatch (hpc : s.pc = .dispatch todo) : s.left = turnsLeft todo := by
  rw [left, hpc]

theorem left_receiving {bs : List Byte} (hpc : s.pc = .receiving fd todo)
    (hb : s.recvBuf.Holds bs) :
    s.left = turnsLeft todo + (BUFFER_LENGTH + 1 - bs.length) ∧ bs.length ≤ BUFFER_LENGTH := by
  have hlen : s.bufferLen = bs.length := hb.2
  refine ⟨?_, hb.1.length_le⟩
  simp only [left, hpc, hlen, Int.toNat_natCast]

/-- The receive loop has in its buffer what it has taken. -/
theorem Sound.receiving (h : s.Sound) (hpc : s.pc = .receiving fd todo) :
    ∃ bs, s.recvBuf.Holds bs := by
  obtain ⟨k, hf⟩ := h.inv.client hpc
  exact ⟨_, h.streams.holds ((serving_receiving hpc).mpr hf)⟩

/-- Every step of a turn counts, and what happens outside does not. -/
theorem Sound.left_step (h : s.Sound) (hs : s.Step a s') (ha : a.CleanRecv)
    (hw : a.isWait = false) : s'.left + a.inTurn.toNat ≤ s.left := by
  cases hs.trans with
  | connect | segment => exact Nat.le_refl _
  | wait => cases hw
  | turn hpc =>
    rw [left_dispatch hpc]
    exact Nat.le_refl _
  | skip hpc =>
    rw [left_dispatch hpc, turnsLeft_cons, left_dispatch rfl]
    simp [Act.inTurn]
  | enterAccept hpc =>
    rw [left_dispatch hpc, turnsLeft_cons]
    show turnsLeft _ + 1 + 1 ≤ _
    omega
  | enterRecv hpc =>
    rw [left_dispatch hpc, turnsLeft_cons]
    show turnsLeft _ + (BUFFER_LENGTH + 1) + 1 ≤ _
    omega
  | acceptFail hpc | accept hpc => simp [left, accepted, hpc, Act.inTurn]
  | @recv fd todo r b hpc hr hp =>
    obtain ⟨bs, hb⟩ := h.receiving hpc
    have hstep := hs.receiver hpc
    have hb' := hstep.holds ha hb
    have hpos := List.length_pos_iff.mpr (hstep.data_ne_nil ha hpc)
    obtain ⟨hl, -⟩ := left_receiving hpc hb
    obtain ⟨hl', hle⟩ := left_receiving (s := { s with
      kernel := s.kernel.recv fd r
      buffer := b.buf
      bufferLen := b.len }) hpc hb'
    rw [List.length_append] at hl' hle
    rw [hl, hl']
    simp only [Act.inTurn, Bool.toNat_true]
    omega
  | leave hpc =>
    obtain ⟨bs, hb⟩ := h.receiving hpc
    obtain ⟨hl, hle⟩ := left_receiving hpc hb
    rw [hl, @left_dispatch (s.dropped _ _) _ rfl]
    simp only [Act.inTurn, Bool.toNat_true]
    omega

/-- The countdown over a run that `epoll_wait` does not interrupt. -/
theorem Sound.countdown {ys : List (Server × Act)} (h : s.Sound) (hy : Exec Step s ys s')
    (hys : ∀ y ∈ ys, y.2.CleanRecv ∧ y.2.isWait = false) :
    s'.Sound ∧ s'.left + ys.countP (·.2.inTurn) ≤ s.left := by
  refine @Exec.countdown _ _ _ _ _ _ (fun _ a => a.CleanRecv ∧ a.isWait = false) Sound left
    Act.inTurn hy hys h ?_
  intro t a u ht ha hst
  exact ⟨ht.step hst ha.1, ht.left_step hst ha.1 ha.2⟩

/-- What is reported are the events of the batch. -/
theorem Inv.left_wait {batch : List (Fd × Mask)} (h : s.Inv) (hs : s.Step (.wait batch) s') :
    s'.left = (BUFFER_LENGTH + 2) * batch.length + 1 := by
  cases hs.trans with
  | wait _ _ hreg =>
    have hlen := congrArg List.length (h.table.reported hreg)
    rw [List.length_map, List.length_map] at hlen
    rw [left_dispatch rfl, turnsLeft, hlen]

/-! ## Nothing goes wrong -/

/-- No step that the kernel allows goes wrong. -/
theorem Sound.step_ok (h : s.Sound) (hl : s.Legal a) : ∃ s', s.step a = .ok s' := by
  cases a with
  | connect | segment | wait => exact ⟨_, rfl⟩
  | next =>
    cases hpc : s.pc with
    | dispatch todo => cases todo <;> simp [Server.step, hpc]
    | _ => simp [Server.step, hpc]
  | accept r => cases hpc : s.pc <;> simp [Server.step, hpc]
  | recv r =>
    cases hpc : s.pc with
    | receiving fd todo =>
      simp only [Legal, hpc] at hl
      obtain ⟨bs, hb⟩ := h.receiving hpc
      obtain ⟨⟨stop, b⟩, hp⟩ := RecvBuf.pass_ok hb.gathers (by decide) hl.fits
      obtain ⟨s', hs, -⟩ := recv_ok hpc hp
      exact ⟨s', hs⟩
    | _ => simp [Server.step, hpc]

/-- Outside `epoll_wait` there is always an answer that the kernel may give. -/
theorem exists_legal (hpc : s.pc ≠ .waiting) :
    ∃ a : Act, a.inTurn = true ∧ a.CleanRecv ∧ s.Legal a := by
  cases h : s.pc with
  | waiting => exact absurd h hpc
  | dispatch todo => exact ⟨.next, rfl, trivial, by simp only [Legal, h]⟩
  | accepting todo =>
    refine ⟨.accept (-1), rfl, trivial, ?_⟩
    simp [Legal, h, Kernel.CanAccept, Kernel.CanOpen]
  | receiving fd todo =>
    refine ⟨.recv .eof, rfl, trivial, ?_⟩
    simp only [Legal, h, Kernel.CanRecv]

/-- From inside a turn the server gets back to `epoll_wait`. -/
theorem Sound.returns (h : s.Sound) :
    ∃ ys t, Exec Step s ys t ∧ t.pc = .waiting ∧
      (∀ y ∈ ys, y.2.inTurn = true ∧ y.2.CleanRecv) ∧ ys.length ≤ s.left := by
  refine Exec.reaches (P := Sound) (Q := fun t => t.pc = .waiting)
    (C := fun a : Act => a.inTurn = true ∧ a.CleanRecv) h ?_
  intro t ht hpc
  obtain ⟨a, hturn, ha, hl⟩ := exists_legal hpc
  obtain ⟨u, hu⟩ := ht.step_ok hl
  have hst : t.Step a u := ⟨hl, hu⟩
  have hwait : a.isWait = false := by
    cases a with
    | wait => cases hturn
    | _ => rfl
  have hleft := ht.left_step hst ha hwait
  rw [hturn] at hleft
  exact ⟨a, u, ⟨hturn, ha⟩, hst, ht.step hst ha, hleft⟩

/-- What the server is about to call finds what it is meant for: `accept` the listening socket, and
`recv` and `close` the connection of a client. -/
def Provided (s : Server) : Prop :=
  match s.pc with
  | .waiting | .dispatch _ => True
  | .accepting _ => s.kernel.file s.serverfd = some .listener
  | .receiving fd _ => ∃ k, s.kernel.file fd = some (.conn k)

theorem Inv.provided (h : s.Inv) : s.Provided := by
  unfold Provided
  split
  · trivial
  · trivial
  · exact h.table.serv
  next fd todo hpc => exact h.client hpc

/-! ## Who is closed -/

/-- The client `k` behind `fd` is closed in this turn if and only if `b`: it has been, or its turn
is still to come. -/
def Booked (s : Server) (fd : Fd) (k : SockId) (b : Prop) : Prop :=
  (s.station k = .closed ∧ b) ∨ s.kernel.file fd = some (.conn k) ∧ (s.Turn fd ↔ b)

/-- A client leaves for good. -/
theorem Sound.closed_step (h : s.Sound) (hs : s.Step a s') (ha : a.CleanRecv)
    (hk : s.station k = .closed) : s'.station k = .closed := by
  rcases h.streams.shown h.inv hs ha with ⟨-, he⟩ | ⟨⟨t, b⟩, -, hstep, hother⟩
  · exact (congrArg Visit.station (congrFun he k)).trans hk
  · by_cases ht : k = t
    · subst ht
      exact (hstep.gone hk).1
    · exact (congrArg Visit.station (hother k ht)).trans hk

theorem turn_mem_fds (h : s.Turn fd) : fd ∈ s.pc.fds := by
  rcases h with hm | ⟨todo, hpc⟩
  · cases hpc : s.pc with
    | waiting =>
      rw [hpc] at hm
      cases hm
    | dispatch todo | accepting todo =>
      rw [hpc] at hm
      exact List.mem_map_of_mem hm
    | receiving gone todo =>
      rw [hpc] at hm
      exact List.mem_cons_of_mem _ (List.mem_map_of_mem hm)
  · rw [hpc]
    exact List.mem_cons_self

/-- A turn that is not there does not come up. -/
theorem Sound.no_turn (h : s.Sound) (hs : s.Step a s') (hw : a.isWait = false)
    (hf : s.kernel.file fd = some (.conn k)) (ht : ¬ s.Turn fd) :
    s'.kernel.file fd = some (.conn k) ∧ ¬ s'.Turn fd := by
  have hskip : s.Skipped fd := by
    refine ⟨⟨k, hf⟩, ?_, fun hpc => ht (.inr ⟨_, hpc⟩)⟩
    rintro ⟨m, x⟩ he rfl rfl
    exact ht (.inl he)
  obtain ⟨hskip', -⟩ := hskip.step h.inv hs hw
  refine ⟨?_, ?_⟩
  · rcases (h.inv.fdStep hs.trans).file fd with he | ⟨-, hnone⟩ | ⟨-, todo, hpc⟩
    · exact he.trans hf
    · cases hf.symm.trans hnone
    · exact absurd hpc hskip.pc
  · rintro (hm | ⟨todo, hpc⟩)
    · exact hskip'.todo _ hm rfl rfl
    · exact hskip'.pc hpc

theorem Sound.booked_step {b : Prop} (h : s.Sound) (hs : s.Step a s') (ha : a.CleanRecv)
    (hw : a.isWait = false) (hd : s.Booked fd k b) : s'.Booked fd k b := by
  rcases hd with ⟨hk, hb⟩ | ⟨hf, hturn⟩
  · exact .inl ⟨h.closed_step hs ha hk, hb⟩
  · by_cases ht : s.Turn fd
    · have hne : fd ≠ s.serverfd := by
        rintro rfl
        cases hf.symm.trans h.inv.table.serv
      rcases hs.trans.turn_or hw hne ht with ht' | ⟨todo, hpc, rfl⟩
      · have hfile := (h.inv.pending hs.trans hw (turn_mem_fds ht')).1
        exact .inr ⟨hfile.trans hf, iff_of_true ht' (hturn.mp ht)⟩
      · have hcl : ((s.dropped fd todo).kernel.socks k).closed = true := by
          rw [(dropped_kernel hf).2.1, update_self]
        exact .inl ⟨(h.streams.dropped hpc hf).station_closed hcl, hturn.mp ht⟩
    · obtain ⟨hf', ht'⟩ := h.no_turn hs hw hf ht
      exact .inr ⟨hf', iff_of_false ht' fun hb => ht (hturn.mpr hb)⟩

/-- What is booked when a batch is reported. -/
theorem Inv.booked_wait {batch : List (Fd × Mask)} (h : s.Inv) (hs : s.Step (.wait batch) s')
    (hf : s.kernel.file fd = some (.conn k)) : s'.Booked fd k ((fd, EPOLLIN) ∈ batch) := by
  cases hs.trans with
  | wait _ _ hreg =>
    refine .inr ⟨(congrFun (Kernel.report_file _) fd).trans hf, ?_, fun hm => .inl ?_⟩
    · rintro (hm | ⟨todo, hpc⟩)
      · obtain ⟨⟨x, m⟩, hx, he⟩ := List.mem_filterMap.mp hm
        obtain ⟨ev, hev, he⟩ := Option.map_eq_some_iff.mp he
        have hdata : ev.data = x := by rw [(h.table.interest.mp hev).1]
        cases he
        exact hdata ▸ hx
      · cases hpc
    · exact h.turn_of_wait hreg hm

theorem Booked.outcome {b : Prop} (h : s.Streams) (hd : s.Booked fd k b) (hpc : s.pc = .waiting) :
    s.station k = .closed ↔ b := by
  rcases hd with ⟨hk, hb⟩ | ⟨hf, hturn⟩
  · exact iff_of_true hk hb
  · have hno : ¬ s.Turn fd := by
      rintro (hm | ⟨todo, hpc'⟩)
      · rw [hpc] at hm
        cases hm
      · cases hpc.symm.trans hpc'
    refine iff_of_false ?_ fun hb => hno (hturn.mpr hb)
    rw [h.station_open hf]
    split <;> simp

end
end Server

section
variable {e : Boot} {s₀ t u v : Server} {xs ys : List (Server × Act)} {batch : List (Fd × Mask)}

/-- A string that was printed ended outside the buffer exactly if a client has filled that without a
NUL. -/
theorem Boot.overprinted_iff (hb : e.main = some s₀) (hx : Exec Server.Step s₀ xs v)
    (hclean : ∀ x ∈ xs, x.2.CleanRecv) :
    (∃ b : Buf BUFFER_LENGTH, .printed b ∈ v.trace ∧ 0 ∉ b.bytes) ↔
      ∃ k, v.station k = .closed ∧ (v.visit k).taken.length = BUFFER_LENGTH ∧
        0 ∉ (v.visit k).taken := by
  constructor
  · rintro ⟨b, hmem, hz⟩
    obtain ⟨k, hk, hholds⟩ := (Boot.printed_iff hb hx hclean).mp hmem
    exact ⟨k, hk, hholds.zero_notMem_iff.mp hz⟩
  · rintro ⟨k, hk, hfull⟩
    have htr := Boot.transcript hb hx hclean k
    obtain ⟨b, -, hholds⟩ := htr.once hk
    rw [← htr.taken] at hholds
    exact ⟨b, (Boot.printed_iff hb hx hclean).mpr ⟨k, hk, hholds⟩, hholds.zero_notMem_iff.mpr hfull⟩

/-- Without receive errors nothing goes wrong but that a string may end outside its full buffer,
after a bounded number of steps of its own the server is back in `epoll_wait`, and then of the
clients it had exactly those are closed that were reported with `EPOLLIN` alone. -/
theorem Boot.loop_turn (hb : e.main = some s₀) (hx : Exec Server.Step s₀ xs t)
    (hclean : ∀ x ∈ xs, x.2.CleanRecv) (hst : t.Step (.wait batch) u) (hy : Exec Server.Step u ys v)
    (hys : ∀ y ∈ ys, y.2.CleanRecv ∧ y.2.isWait = false) :
    ys.countP (·.2.inTurn) ≤ (BUFFER_LENGTH + 2) * batch.length + 1 ∧
    (∀ a, v.Legal a → ∃ v', v.step a = .ok v') ∧
    (∀ b, .printed b ∈ v.trace ↔ ∃ k, v.station k = .closed ∧ b.Holds (v.visit k).taken) ∧
    ((∃ b : Buf BUFFER_LENGTH, .printed b ∈ v.trace ∧ 0 ∉ b.bytes) ↔
      ∃ k, v.station k = .closed ∧ (v.visit k).taken.length = BUFFER_LENGTH ∧
        0 ∉ (v.visit k).taken) ∧
    v.Provided ∧
    (∃ zs z, Exec Server.Step v zs z ∧ z.pc = .waiting ∧
      (∀ x ∈ zs, x.2.inTurn = true ∧ x.2.CleanRecv) ∧
      ys.countP (·.2.inTurn) + zs.length ≤ (BUFFER_LENGTH + 2) * batch.length + 1) ∧
    (v.pc = .waiting → ∀ fd k, t.kernel.file fd = some (.conn k) →
      (v.station k = .closed ↔ (fd, EPOLLIN) ∈ batch)) := by
  have ht : t.Sound := ⟨(Boot.exec hb hx).1, Boot.streams hb hx hclean⟩
  have hu : u.Sound := ht.step hst trivial
  obtain ⟨hv, hle⟩ := hu.countdown hy hys
  have hbound := ht.inv.left_wait hst
  have hxv : Exec Server.Step s₀ (xs ++ [(t, .wait batch)] ++ ys) v := (hx.snoc hst).trans hy
  have hcleanv : ∀ x ∈ xs ++ [(t, .wait batch)] ++ ys, x.2.CleanRecv := by
    intro x hx
    rcases List.mem_append.mp hx with hx | hx
    · rcases List.mem_append.mp hx with hx | hx
      · exact hclean x hx
      · cases List.mem_singleton.mp hx
        trivial
    · exact (hys x hx).1
  refine ⟨by omega, fun _ => hv.step_ok, fun b => Boot.printed_iff hb hxv hcleanv,
    Boot.overprinted_iff hb hxv hcleanv, hv.inv.provided, ?_, fun hpc fd k hf => ?_⟩
  · obtain ⟨zs, z, hz, hpc, hzs, hlen⟩ := hv.returns
    exact ⟨zs, z, hz, hpc, hzs, by omega⟩
  · have hbooked : v.Sound ∧ v.Booked fd k ((fd, EPOLLIN) ∈ batch) := by
      refine @Exec.invariant_of _ _ _ _ _ _ (fun _ a => a.CleanRecv ∧ a.isWait = false)
        (fun w => w.Sound ∧ w.Booked fd k ((fd, EPOLLIN) ∈ batch)) hy hys
        ⟨hu, ht.inv.booked_wait hst hf⟩ ?_
      rintro w a w' ⟨hw, hd⟩ ⟨ha, hwait⟩ hst
      exact ⟨hw.step hst ha, hw.booked_step hst ha hwait hd⟩
    exact hbooked.2.outcome hv.streams hpc

/-- The turn in which the first client is read and closed while the second one queues. -/
theorem Boot.loop_turn_second : ∃ s₀ t u v xs ys, Boot.plain.main = some s₀ ∧
    Exec Server.Step s₀ xs t ∧ t.Step (.wait [(5, EPOLLIN), (4, EPOLLIN)]) u ∧
    Exec Server.Step u ys v ∧ v.pc = .waiting ∧ v.station 0 = .closed ∧
    ys.countP (·.2.inTurn) ≤ (BUFFER_LENGTH + 2) * 2 + 1 ∧
    ∀ b : Buf BUFFER_LENGTH, b.Holds (v.visit 0).taken → .printed b ∈ v.trace := by
  obtain ⟨s₀, hs₀⟩ : ∃ s₀, Boot.plain.main = some s₀ := ⟨_, rfl⟩
  obtain ⟨-, rfl⟩ := Boot.main_eq hs₀
  obtain ⟨t, u, v, ht, hu, hv, hf, hpc⟩ : ∃ t u v,
      Exec.runs Server.step? Boot.plain.started (reuseRun.take 7) = some t ∧
      t.step? (.wait [(5, EPOLLIN), (4, EPOLLIN)]) = some u ∧
      Exec.runs Server.step? u (reuseRun.drop 8) = some v ∧
      t.kernel.file 5 = some (.conn 0) ∧ v.pc = .waiting :=
    ⟨_, _, _, rfl, rfl, rfl, rfl, rfl⟩
  obtain ⟨xs, hx, hxacts⟩ := Exec.of_runs Server.step_of_step? ht
  obtain ⟨ys, hy, hyacts⟩ := Exec.of_runs Server.step_of_step? hv
  have hu := Server.step_of_step? hu
  have hxall : ∀ a ∈ reuseRun.take 7, a.CleanRecv := by
    simp [reuseRun, Act.CleanRecv]
  have hyall : ∀ a ∈ reuseRun.drop 8, a.CleanRecv ∧ a.isWait = false := by
    simp [reuseRun, Act.CleanRecv, RecvResult.Clean, Act.isWait]
  have hturn := Boot.loop_turn hs₀ hx (Exec.forall_labels hxacts hxall) hu hy
    (Exec.forall_labels (C := fun a => a.CleanRecv ∧ a.isWait = false) hyacts hyall)
  obtain ⟨hcount, -, hprinted, -, -, -, hclosed⟩ := hturn
  have hfirst : v.station 0 = .closed := (hclosed hpc 5 0 hf).mpr (by simp)
  refine ⟨_, t, u, v, xs, ys, hs₀, hx, hu, hy, hpc, hfirst, hcount, ?_⟩
  exact fun b hb => (hprinted b).mpr ⟨0, hfirst, hb⟩

end
end OnlineChat.ChatServer
