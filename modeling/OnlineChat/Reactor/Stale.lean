import OnlineChat.Reactor.Streams

/-!
# What the echo reads from wbuffer

`strcpy` copies the message up to its first NUL, and `write` is handed as many bytes as have been
received. What is behind the first NUL comes from `wbuffer`, which no constructor initialises: the
echo of a message with a NUL before its last byte shows what was in the memory before.
-/

namespace OnlineChat.Reactor
open Lib Function

/-- The bytes that `sendCallback` on `c` hands to `write`. -/
def World.handed (w : World) (c : ConnId) : Except Fault (List Byte) := do
  let w ← sendCallback.enter w c
  let conn ← w.deref c
  pure (conn.wbuffer.bytes.take (toSizeT conn.wlen))

/-- The same state but for the content of the `wbuffer` of `c`. -/
def World.setWBuffer (w : World) (c : ConnId) (wb : Buf SEND_BUFFER_LENGTH) : World :=
  { w with heap := update w.heap c ((w.heap c).map fun conn => { conn with wbuffer := wb }) }

/-- What is sent when `bs` has been received and `wb` was in `wbuffer`. -/
def echoed (wb bs : List Byte) : List Byte := (overlay wb (cstr bs ++ [0])).take bs.length

section
variable {wb bs : List Byte}

/-- The echo is right where the old content of `wbuffer` happens to be. -/
theorem echoed_eq_iff (hlen : bs.length < wb.length) :
    echoed wb bs = bs ↔ ∀ i, (cstr bs).length < i → i < bs.length → wb[i]? = bs[i]? := by
  constructor
  · intro h i hlt hi
    have he := getElem?_overlay_cstr hlen hi
    rw [if_pos hlt, show (overlay wb (cstr bs ++ [0])).take bs.length = bs from h] at he
    exact he.symm
  · intro h
    have hle : (echoed wb bs).length ≤ bs.length := (List.length_take_le ..)
    refine List.ext_getElem? fun i => ?_
    rcases Nat.lt_or_ge i bs.length with hi | hi
    · rw [echoed, getElem?_overlay_cstr hlen hi]
      split
      next hlt => exact h i hlt hi
      · rfl
    · rw [List.getElem?_eq_none hi, List.getElem?_eq_none (hle.trans hi)]

/-- Without a NUL before the last byte nothing of the old content is sent. -/
theorem echoed_eq (hlen : bs.length < wb.length) (hz : 0 ∉ bs.dropLast) : echoed wb bs = bs := by
  rw [echoed_eq_iff hlen]
  intro i hlt hi
  exact absurd (zero_mem_dropLast.mpr (Nat.lt_of_le_of_lt hlt hi)) hz

/-- With one, two old contents are told apart. -/
theorem echoed_ne {n : Nat} (hlen : bs.length < n) (hz : 0 ∈ bs.dropLast) :
    echoed (List.replicate n 0) bs ≠ echoed (List.replicate n 1) bs := by
  intro h
  have hlt := zero_mem_dropLast.mp hz
  have hat : ∀ b, (echoed (List.replicate n b) bs)[(cstr bs).length + 1]? = some b := by
    intro b
    have hlen' : bs.length < (List.replicate n b).length := by rwa [List.length_replicate]
    rw [echoed, getElem?_overlay_cstr hlen' hlt, if_pos (Nat.lt_succ_self _),
      List.getElem?_replicate, if_pos (hlt.trans hlen)]
  have hbytes := (hat 0).symm.trans ((congrArg (·[(cstr bs).length + 1]?) h).trans (hat 1))
  cases hbytes

end

section
variable {e : Boot} {w w' : World} {xs : List (World × Act)} {r : Ready} {todo : List Ready}
  {c : ConnId} {conn : Connection} {k : SockId} {bs : List Byte}

/-- `sendCallback` on a connection that holds `bs`. -/
theorem World.handed_eq (hc : w.heap c = some conn) (hb : conn.recvBuf.Holds bs)
    (hlen : bs.length < SEND_BUFFER_LENGTH) (wb : Buf SEND_BUFFER_LENGTH) :
    (w.setWBuffer c wb).handed c = .ok (echoed wb.bytes bs) := by
  obtain ⟨hbuf, hrlen⟩ := hb
  have hrlen : conn.rlen = bs.length := hrlen
  have hmem : (0 : Byte) ∈ conn.rbuffer.bytes := hbuf.zero_mem hlen
  have hheap : (w.setWBuffer c wb).heap c = some { conn with wbuffer := wb } := by
    simp only [World.setWBuffer, update_self, hc, Option.map_some]
  have hsize : toSizeT bs.length = bs.length := toSizeT_natCast (hlen.trans (by decide))
  have hsrc : (0 : Byte) ∈ conn.rbuffer.bytes ++ intBytes conn.rlen := List.mem_append_left _ hmem
  have hcpy : cstr (conn.rbuffer.bytes ++ intBytes conn.rlen) = cstr bs := by
    rw [cstr_append_of_mem hmem]
    exact hbuf.cstr_bytes
  simp only [World.handed, sendCallback.enter, World.deref_eq_ok.mpr hheap, bind, Except.bind,
    Connection.strcpy, if_pos hsrc, pure, Except.pure, hcpy]
  rw [World.deref_eq_ok.mpr World.put_heap_self]
  simp only [Connection.setWLen, hrlen, hsize]
  rfl

/-- `sendCallback` hands to `write` what has been received, whatever is in `wbuffer`, exactly if
there is no NUL before the last byte; and exactly then it does not depend on `wbuffer`. In a single
run it does so if the bytes behind the first NUL were in `wbuffer` already. -/
theorem Boot.handed_iff (hb : e.server = some (.ok w)) (hx : Exec World.Step w xs w')
    (hclean : ∀ x ∈ xs, x.2.CleanRecv) (hpc : w'.pc = .dispatch (r :: todo))
    (hr : w'.heap r.conn = some conn) (hsel : conn.selected = some (some ⟨.sendCallback, c⟩))
    (hf : w'.kernel.file conn.fd = some (.conn k))
    (hlen : (w'.taken k).length < SEND_BUFFER_LENGTH) :
    ((∀ wb, (w'.setWBuffer c wb).handed c = .ok (w'.taken k)) ↔ 0 ∉ (w'.taken k).dropLast) ∧
    ((∀ wb wb', (w'.setWBuffer c wb).handed c = (w'.setWBuffer c wb').handed c) ↔
      0 ∉ (w'.taken k).dropLast) ∧
    (w'.handed c = .ok (w'.taken k) ↔ ∀ i, (cstr (w'.taken k)).length < i →
      i < (w'.taken k).length → conn.wbuffer.bytes[i]? = (w'.taken k)[i]?) := by
  obtain ⟨rfl, hcs, he⟩ := (Boot.inv hb hx).sending hpc hr hsel
  have hrun : w'.pc.running = none := by rw [hpc]; rfl
  have hholds := Boot.holds_taken hb hx hclean hcs hr he hrun hf
  have hhanded := World.handed_eq hr hholds hlen
  have hsize : ∀ wb : Buf SEND_BUFFER_LENGTH, (w'.taken k).length < wb.bytes.length :=
    fun wb => wb.size.symm ▸ hlen
  -- what does not depend on `wbuffer` has no NUL before its last byte, and so is sent as it is
  have hall : 0 ∉ (w'.taken k).dropLast →
      ∀ wb, (w'.setWBuffer r.conn wb).handed r.conn = .ok (w'.taken k) := by
    intro hz wb
    rw [hhanded, echoed_eq (hsize wb) hz]
  have hsame : (∀ wb wb', (w'.setWBuffer r.conn wb).handed r.conn =
      (w'.setWBuffer r.conn wb').handed r.conn) → 0 ∉ (w'.taken k).dropLast := by
    intro h hz
    have heq := h (.zero _) ⟨List.replicate SEND_BUFFER_LENGTH 1, List.length_replicate⟩
    rw [hhanded, hhanded, Except.ok.injEq] at heq
    exact echoed_ne hlen hz heq
  refine ⟨⟨fun h => hsame fun wb wb' => ?_, hall⟩, ⟨hsame, fun hz wb wb' => ?_⟩, ?_⟩
  · rw [h wb, h wb']
  · rw [hall hz wb, hall hz wb']
  · have hself : w'.setWBuffer r.conn conn.wbuffer = w' := by
      simp only [World.setWBuffer, hr, Option.map_some]
      rw [update_some_of_eq hr]
    have hactual := hhanded conn.wbuffer
    rw [hself] at hactual
    rw [hactual, Except.ok.injEq, echoed_eq_iff (hsize conn.wbuffer)]

/-- A client sends `bs` at once, and the server is about to echo it. -/
def echoRun (bs : List Byte) : List Act := [.connect, .segment 0 bs, .wait [(4, EPOLLIN)], .next,
  .accept 5 Boot.plain.junk, .next, .wait [(5, EPOLLIN)], .next, .recv (.bytes bs),
  .recv (.fail .EAGAIN), .next, .wait [(5, EPOLLOUT)]]

theorem Boot.handed_iff_hi : ∃ w w' xs, Boot.plain.server = some (.ok w) ∧
    Exec World.Step w xs w' ∧ xs.map Prod.snd = echoRun [72, 105] ∧
    ∀ wb, (w'.setWBuffer 1 wb).handed 1 = .ok [72, 105] := by
  have hrun : (Exec.runs World.step? Boot.plain.started (echoRun [72, 105])).any fun w' =>
      w'.pc = .dispatch [⟨⟨EPOLLOUT, 5⟩, 1⟩] ∧ w'.taken 0 = [72, 105] ∧ (w'.heap 1).any fun conn =>
        conn.selected = some (some ⟨.sendCallback, 1⟩) ∧
          w'.kernel.file conn.fd = some (.conn 0) := by decide +kernel
  obtain ⟨w, w', xs, hw, hx, hacts, hrun⟩ :=
    Boot.plain_run ((Option.any_eq_true ..).mp hrun)
  obtain ⟨hpc, htaken, hany⟩ := of_decide_eq_true hrun
  obtain ⟨conn, hc, hconn⟩ := (Option.any_eq_true ..).mp hany
  obtain ⟨hsel, hf⟩ := of_decide_eq_true hconn
  have hclean : ∀ x ∈ xs, x.2.CleanRecv := Exec.forall_labels hacts (by decide)
  have hiff := Boot.handed_iff hw hx hclean hpc hc hsel hf (by rw [htaken]; decide)
  rw [htaken] at hiff
  exact ⟨w, w', xs, hw, hx, hacts, hiff.1.mpr (by decide)⟩

/-- The client sends three bytes with a NUL in the middle; `wbuffer` was all zeros. -/
theorem Boot.handed_nul : ∃ w w' xs, Boot.plain.server = some (.ok w) ∧
    Exec World.Step w xs w' ∧ xs.map Prod.snd = echoRun [72, 0, 73] ∧
    (∀ x ∈ xs, x.2.CleanRecv) ∧ w'.pc = .dispatch [⟨⟨EPOLLOUT, 5⟩, 1⟩] ∧
    w'.taken 0 = [72, 0, 73] ∧ (w'.handed 1).toOption = some [72, 0, 0] := by
  have hrun : (Exec.runs World.step? Boot.plain.started (echoRun [72, 0, 73])).any fun w' =>
      w'.pc = .dispatch [⟨⟨EPOLLOUT, 5⟩, 1⟩] ∧ w'.taken 0 = [72, 0, 73] ∧
        (w'.handed 1).toOption = some [72, 0, 0] := by decide +kernel
  obtain ⟨w, w', xs, hw, hx, hacts, hrun⟩ :=
    Boot.plain_run ((Option.any_eq_true ..).mp hrun)
  have hclean : ∀ x ∈ xs, x.2.CleanRecv := Exec.forall_labels hacts (by decide)
  exact ⟨w, w', xs, hw, hx, hacts, hclean, of_decide_eq_true hrun⟩

end

end OnlineChat.Reactor
