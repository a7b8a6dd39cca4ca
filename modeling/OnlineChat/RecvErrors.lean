import OnlineChat.Reactor.Streams
import OnlineChat.Receiver

/-!
# Errors of recv

The loops test for `EAGAIN` and `EWOULDBLOCK` only. Any other error is taken for a number of
received bytes: the length goes down by one, below 0 if nothing has been received, and the next
`recv` or `write` is handed a window outside the buffer. What the loops rely on holds exactly in
the runs without such an error.
-/

namespace OnlineChat
open Lib

/-- The receive state when `bs` has been received. -/
structure RecvBuf.Intact {n : Nat} (s : RecvBuf n) (bs : List Byte) : Prop where
  len : s.len = bs.length
  window : 0 ≤ s.len ∧ s.len ≤ n ∧ s.len + s.request = n
  kept : bs <+: s.buf.bytes

/-- At every pass of the run `xs` from `s` the receive state is intact, and an error that is not
`EAGAIN` or `EWOULDBLOCK` does not change it. -/
structure Loop.Intact (l : Loop) (s : l.State) (xs : List (l.State × RecvResult)) : Prop where
  pass : xs = ys ++ zs → Exec l.receiver.Step s ys t →
    (l.receiver.buffer t).Intact (received ys)
  error : (t, .fail e) ∈ xs → ¬ (RecvResult.fail e).Clean → l.receiver.Step t (.fail e) u →
    l.receiver.buffer u = l.receiver.buffer t

theorem RecvBuf.Gathers.intact {n : Nat} {s : RecvBuf n} {bs : List Byte} (h : s.Gathers bs)
    (hn : n < 2 ^ 64) : s.Intact bs := by
  have hle := h.length_le
  have hreq := request_eq h hn
  have hlen := h.1
  refine ⟨hlen, ⟨?_, ?_, ?_⟩, h.2⟩ <;> omega

section
variable {n : Nat} {σ : Type} {R : Receiver n σ} {s t : σ} {xs : List (σ × RecvResult)}

/-- A clean run gathers what it receives, whatever was in the buffer. -/
theorem Receiver.gathers_received (h0 : (R.buffer s).len = 0) (hx : Exec R.Step s xs t)
    (hclean : ∀ x ∈ xs, x.2.Clean) : (R.buffer t).Gathers (received xs) := by
  induction hx with
  | nil => exact ⟨h0, List.nil_prefix⟩
  | @snoc xs t r u _ hst ih =>
    have hg := ih fun x hx => hclean x (List.mem_append_left _ hx)
    rw [received_snoc]
    rcases hst.cases with ⟨-, hd, -, hb⟩ | ⟨bs, b, rfl, -, -, hstore, hb⟩ | ⟨e, rfl, hdirty, -⟩
    · rw [hb, hd, List.append_nil]
      exact hg
    · rw [hb]
      exact hg.store hstore
    · exact absurd (hclean (t, .fail e) (by simp)) hdirty

/-- Such an error makes the length one less. -/
theorem Receiver.Step.dirty {r : RecvResult} (h : R.Step s r t) (hr : ¬ r.Clean) :
    r.data = [] ∧ (R.buffer t).len = (R.buffer s).len - 1 := by
  rcases h.cases with ⟨-, -, hc, -⟩ | ⟨bs, b, rfl, -⟩ | ⟨e, rfl, -, -, hb⟩
  · exact absurd hc hr
  · exact absurd trivial hr
  · exact ⟨rfl, by rw [hb]⟩

end

/-- What `sendCallback` hands to `write` as a size is the number of bytes received. -/
theorem Reactor.Stream.toSizeT_wlen {conn : Reactor.Connection} {x : Sock}
    (h : Reactor.Stream conn x .sending) : toSizeT conn.wlen ≤ Reactor.SEND_BUFFER_LENGTH := by
  obtain ⟨hbuf, hrlen⟩ := h.holds nofun
  have hlen : conn.rlen = (x.sent.take x.got).length := hrlen
  have hle : (x.sent.take x.got).length ≤ Reactor.SEND_BUFFER_LENGTH := hbuf.length_le
  have hcap : Reactor.SEND_BUFFER_LENGTH < 2 ^ 64 := by decide
  rw [(h.sending rfl).1, hlen, toSizeT_natCast (Nat.lt_of_le_of_lt hle hcap)]
  exact hle

theorem Reactor.Boot.write_size {e : Reactor.Boot} {w w' : Reactor.World}
    {xs : List (Reactor.World × Reactor.Act)} {c : Reactor.ConnId} {todo : List Reactor.Ready}
    {conn : Reactor.Connection} (hb : e.server = some (.ok w))
    (hx : Exec Reactor.World.Step w xs w') (hclean : ∀ x ∈ xs, x.2.CleanRecv)
    (hpc : w'.pc = .writing c todo) (hc : w'.heap c = some conn) :
    toSizeT conn.wlen ≤ Reactor.SEND_BUFFER_LENGTH := by
  have hinv := Boot.inv hb hx
  obtain ⟨hcs, hne, he⟩ := hinv.writing hpc hc
  obtain ⟨s, hf⟩ := hinv.peer hc hcs hne
  have hstr := (Boot.streams hb hx hclean).conn hcs hc hf
  rw [World.stage_sending hc he (by rw [hpc]; rfl)] at hstr
  exact hstr.toSizeT_wlen

/-- The receive state stays intact exactly in the runs of a loop without any error but `EAGAIN`
and `EWOULDBLOCK`; and in the runs of the server without one, `write` is handed a size that the
buffer has. -/
theorem Loop.intact_iff {l : Loop} {s t : l.State} {xs : List (l.State × RecvResult)}
    (h0 : (l.receiver.buffer s).len = 0) (hx : Exec l.receiver.Step s xs t) :
    (l.Intact s xs ↔ ∀ x ∈ xs, x.2.Clean) ∧
    ∀ e w ys w' c todo conn, Reactor.Boot.server e = some (.ok w) →
      Exec Reactor.World.Step w ys w' → (∀ y ∈ ys, y.2.CleanRecv) → w'.pc = .writing c todo →
      w'.heap c = some conn → toSizeT conn.wlen ≤ Reactor.SEND_BUFFER_LENGTH := by
  refine ⟨⟨fun h x hm => ?_, fun hclean => ⟨?_, ?_⟩⟩, ?_⟩
  · by_contra hdirty
    obtain ⟨ys, zs, rfl⟩ := List.append_of_mem hm
    obtain ⟨u, hpre, hpost⟩ := hx.split
    obtain ⟨rfl, v, hst, -⟩ := hpost.cons_inv
    obtain ⟨hd, hlen⟩ := hst.dirty hdirty
    have hbefore := (h.pass rfl hpre).len
    have hafter := (h.pass (List.append_cons ys x zs) (hpre.snoc hst)).len
    rw [received_snoc, hd, List.append_nil] at hafter
    omega
  · intro ys zs t' hxs hx'
    have hg := Receiver.gathers_received h0 hx' fun x hm =>
      hclean x (hxs ▸ List.mem_append_left zs hm)
    exact hg.intact l.capacity_lt
  · intro t' e u hm hdirty
    exact absurd (hclean _ hm) hdirty
  · intro e w ys w' c todo conn hb hx' hclean hpc hc
    exact Reactor.Boot.write_size hb hx' hclean hpc hc

/-- The client's `recv` is interrupted by a signal after it has received a byte. -/
theorem Loop.intact_iff_eintr : ∃ (t : Client) (xs : List (Client × RecvResult)),
    Exec Client.receiver.Step { Client.start [] (.zero _) with pc := .receiving } xs t ∧
    xs.map Prod.snd = [.bytes [104], .fail .EINTR] ∧
    ¬ Loop.client.Intact { Client.start [] (.zero _) with pc := .receiving } xs := by
  have hrun : (Exec.runs (fun c r => Client.step? c (.recv r))
      { Client.start [] (.zero _) with pc := .receiving }
      [.bytes [104], .fail .EINTR]).any fun c => c.rlen = 0 := by decide +kernel
  obtain ⟨t, ht, -⟩ := (Option.any_eq_true ..).mp hrun
  obtain ⟨xs, hx, hrs⟩ := Exec.of_runs Client.step_receiver ht
  refine ⟨t, xs, hx, hrs, ?_⟩
  intro hintact
  have hclean := (Loop.intact_iff (l := .client) rfl hx).1.mp hintact
  have hmem : RecvResult.fail .EINTR ∈ xs.map Prod.snd := by rw [hrs]; simp
  obtain ⟨x, hx, he⟩ := List.mem_map.mp hmem
  have hx := hclean x hx
  rw [he] at hx
  revert hx
  decide

/-- The client connects and resets the connection; the server echoes to it. -/
def Reactor.brokenRun : List Reactor.Act :=
  [.connect, .wait [(4, EPOLLIN)], .next, .accept 5 Reactor.Boot.plain.junk, .next,
    .wait [(5, EPOLLIN)], .next, .recv (.fail .ECONNRESET), .recv .eof, .next,
    .wait [(5, EPOLLOUT)], .next]

theorem Reactor.Boot.write_size_reset : ∃ w w' xs, Boot.plain.server = some (.ok w) ∧
    Exec World.Step w xs w' ∧ xs.map Prod.snd = brokenRun ∧ w'.pc = .writing 1 [] ∧
    ∃ conn, w'.heap 1 = some conn ∧ conn.rlen = -1 ∧ toSizeT conn.wlen = 2 ^ 64 - 1 ∧
      ¬ toSizeT conn.wlen ≤ SEND_BUFFER_LENGTH := by
  have hrun : (Exec.runs World.step? Boot.plain.started brokenRun).any fun w' =>
      w'.pc = .writing 1 [] ∧ (w'.heap 1).any fun conn => conn.rlen = -1 ∧ conn.wlen = -1 := by
    decide +kernel
  obtain ⟨w, w', xs, hw, hx, hacts, hrun⟩ :=
    Boot.plain_run ((Option.any_eq_true ..).mp hrun)
  obtain ⟨hpc, hany⟩ := of_decide_eq_true hrun
  obtain ⟨conn, hc, hlen⟩ := (Option.any_eq_true ..).mp hany
  obtain ⟨hrlen, hwlen⟩ := of_decide_eq_true hlen
  have hsize : toSizeT conn.wlen = 2 ^ 64 - 1 := by
    rw [hwlen]
    rfl
  refine ⟨w, w', xs, hw, hx, hacts, hpc, conn, hc, hrlen, hsize, ?_⟩
  rw [hsize]
  decide

end OnlineChat
