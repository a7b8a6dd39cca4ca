import OnlineChat.ChatServer.Descriptors
import OnlineChat.Reactor.Streams
import OnlineChat.Receiver

/-!
# Receive buffers as C strings

The programs print the receive buffer with `%s`, and `sendCallback` copies it with `strcpy`. The
buffer is cleared before the loop and the loop fills it up to its last byte, so there is a
terminator in it unless it has been filled with bytes that are not NUL. `Used` lists the places
where a program uses its buffer as a string, with what has been received into it.
-/

namespace OnlineChat
open Lib

/-! ## apps/server.cpp -/

namespace ChatServer

/-- `recv` reports nothing but data, end of stream or that there is no data yet. -/
def Act.CleanRecv : Act → Prop
  | .recv r => r.Clean
  | _ => True

/-- What has been received in the present receive loop, which an event of the batch started. -/
def Act.gather (bs : List Byte) : Act → List Byte
  | .recv r => bs ++ r.data
  | .next => []
  | _ => bs

def gathered (xs : List (Server × Act)) : List Byte := xs.foldl (fun bs x => x.2.gather bs) []

section
variable {e : Boot} {s₀ s s' : Server} {xs : List (Server × Act)} {a : Act} {fd : Fd}
  {todo : List EpollEvent} {r : RecvResult} {bs : List Byte}

theorem gathered_snoc : gathered (xs ++ [(s, a)]) = a.gather (gathered xs) := by
  rw [gathered, List.foldl_append]
  rfl

theorem Server.Step.receiver (h : s.Step (.recv r) s') (hpc : s.pc = .receiving fd todo) :
    (Server.receiver fd todo).Step s r s' := by
  obtain ⟨hl, h⟩ := h
  simp only [Server.Legal, hpc] at hl
  refine ⟨hpc, ?_, h⟩
  cases r with
  | bytes bs => exact ⟨hl.1, hl.2.1⟩
  | eof | fail => trivial

theorem Server.Step.holds (h : s.Step a s') (ha : a.CleanRecv)
    (hb : ∀ {fd todo}, s.pc = .receiving fd todo → s.recvBuf.Holds bs)
    (hpc : s'.pc = .receiving fd todo) : s'.recvBuf.Holds (a.gather bs) := by
  cases h.trans with
  | connect | segment => exact hb hpc
  | enterRecv => exact ⟨Buf.zero_holds, rfl⟩
  | recv hpc₀ => exact (h.receiver hpc₀).holds ha (hb hpc₀)
  | wait | turn | enterAccept | skip | acceptFail | accept | leave => cases hpc

/-- In its receive loop the server has in its buffer what it has received. -/
theorem Boot.holds_gathered (hb : e.main = some s₀) (hx : Exec Server.Step s₀ xs s)
    (hclean : ∀ x ∈ xs, x.2.CleanRecv) (hpc : s.pc = .receiving fd todo) :
    s.recvBuf.Holds (gathered xs) := by
  induction hx generalizing fd todo with
  | nil =>
    obtain ⟨-, rfl⟩ := Boot.main_eq hb
    cases hpc
  | @snoc xs t a u _ hst ih =>
    rw [gathered_snoc]
    have hclean' : ∀ x ∈ xs, x.2.CleanRecv := fun x hx => hclean x (List.mem_append_left _ hx)
    exact hst.holds (hclean (t, a) (by simp)) (ih hclean') hpc

end
end ChatServer

/-! ## apps/client.cpp -/

namespace Client

def Act.CleanRecv : Act → Prop
  | .recv r => r.Clean
  | _ => True

/-- What has been received since the last `send`. -/
def Act.gather (bs : List Byte) : Act → List Byte
  | .recv r => bs ++ r.data
  | .send => []
  | _ => bs

def gathered (xs : List (Client × Act)) : List Byte := xs.foldl (fun bs x => x.2.gather bs) []

section
variable {stdin : List Byte} {buffer : Buf BUFFER_LENGTH} {c c' : Client}
  {xs : List (Client × Act)} {a : Act} {r : RecvResult} {bs : List Byte}

theorem gathered_snoc : gathered (xs ++ [(c, a)]) = a.gather (gathered xs) := by
  rw [gathered, List.foldl_append]
  rfl

theorem Step.receiver (h : c.Step (.recv r) c') : Client.receiver.Step c r c' :=
  ⟨h.1.1, h.1.2, h.2⟩

/-- The length is 0 when the client sends, and in the loop it goes with what is in the buffer. -/
def Holding (c : Client) (bs : List Byte) : Prop :=
  (c.pc = .sending → c.rlen = 0) ∧ (c.pc = .receiving → c.recvBuf.Holds bs)

theorem Step.holding (h : c.Step a c') (ha : a.CleanRecv) (hb : c.Holding bs) :
    c'.Holding (a.gather bs) := by
  cases a with
  | connect =>
    cases h.2
    refine ⟨fun hpc => ?_, fun hpc => ?_⟩ <;> cases hpc
  | fgets =>
    cases h.2
    refine ⟨fun _ => fgets_rlen, fun hpc => ?_⟩
    rw [fgets_pc] at hpc
    cases hpc
  | send =>
    have hlen := hb.1 h.1
    obtain ⟨p, hp, hc⟩ := bind_eq_ok h.2
    cases hc
    unfold Client.send at hp
    split at hp <;> cases hp
    refine ⟨fun hpc => ?_, fun _ => ⟨Buf.zero_holds, hlen⟩⟩
    cases hpc
  | recv r =>
    have hstep := h.receiver
    refine ⟨fun hpc => ?_, fun _ => hstep.holds ha (hb.2 h.1.1)⟩
    obtain ⟨p, -, hc⟩ := bind_eq_ok h.2
    cases hc
    dsimp only at hpc
    split at hpc <;> cases hpc

/-- In its receive loop the client has in its buffer what it has received. -/
theorem holding_gathered (hx : Exec Step (start stdin buffer) xs c)
    (hclean : ∀ x ∈ xs, x.2.CleanRecv) : c.Holding (gathered xs) := by
  induction hx with
  | nil => exact ⟨nofun, nofun⟩
  | @snoc xs t a u _ hst ih =>
    rw [gathered_snoc]
    have hclean' : ∀ x ∈ xs, x.2.CleanRecv := fun x hx => hclean x (List.mem_append_left _ hx)
    exact hst.holding (hclean (t, a) (by simp)) (ih hclean')

end
end Client

/-! ## The uses -/

/-- The buffer `b`, into which `bs` has been received, is used as a C string: `printf` at the end
of a receive loop, or `strcpy` in `sendCallback`. -/
inductive Used : {n : Nat} → Buf n → List Byte → Prop
  | printRecvCallback {e w xs t r w' c todo conn k} : Reactor.Boot.server e = some (.ok w) →
    Exec Reactor.World.Step w xs t → (∀ x ∈ xs, x.2.CleanRecv) →
    t.pc = .receiving c todo → t.Step (.recv r) w' → r.Clean → w'.pc = .dispatch todo →
    w'.heap c = some conn → w'.kernel.file conn.fd = some (.conn k) →
    Used conn.rbuffer (w'.taken k)
  | strcpy {e w xs w' r todo conn c conn' k} : Reactor.Boot.server e = some (.ok w) →
    Exec Reactor.World.Step w xs w' → (∀ x ∈ xs, x.2.CleanRecv) →
    w'.pc = .dispatch (r :: todo) → w'.heap r.conn = some conn →
    conn.selected = some (some ⟨.sendCallback, c⟩) → w'.heap c = some conn' →
    w'.kernel.file conn'.fd = some (.conn k) → Used conn'.rbuffer (w'.taken k)
  | printServer {e s₀ xs s r s' fd todo} : ChatServer.Boot.main e = some s₀ →
    Exec ChatServer.Server.Step s₀ xs s → (∀ x ∈ xs, x.2.CleanRecv) →
    s.pc = .receiving fd todo → s.Step (.recv r) s' → r.Clean → s'.pc = .dispatch todo →
    Used s'.buffer (ChatServer.gathered (xs ++ [(s, .recv r)]))
  | printClient {stdin buffer xs c r c'} : Exec Client.Step (Client.start stdin buffer) xs c →
    (∀ x ∈ xs, x.2.CleanRecv) → c.Step (.recv r) c' → r.Clean → c'.pc = .reading →
    Used c'.buffer (Client.gathered (xs ++ [(c, .recv r)]))

theorem Used.holds {n : Nat} {b : Buf n} {bs : List Byte} (h : Used b bs) : b.Holds bs := by
  cases h with
  | @printRecvCallback e w xs t r w' c todo conn k hb hx hclean hpc hs hr hpc' hc hf =>
    have hclean' : ∀ x ∈ xs ++ [(t, .recv r)], x.2.CleanRecv := by
      intro x hx
      rcases List.mem_append.mp hx with hx | hx
      · exact hclean x hx
      · cases List.mem_singleton.mp hx
        exact Reactor.Act.cleanRecv_of_clean hr
    obtain ⟨hcs, he⟩ := (Reactor.Boot.inv hb hx).leaveRecv hpc hs hpc' hc
    have hrun : w'.pc.running = none := by rw [hpc']; rfl
    exact (Reactor.Boot.holds_taken hb (hx.snoc hs) hclean' hcs hc he hrun hf).1
  | @strcpy e w xs w' r todo conn c conn' k hb hx hclean hpc hr hsel hc hf =>
    obtain ⟨rfl, hcs, he⟩ := (Reactor.Boot.inv hb hx).sending hpc hr hsel
    rw [hr] at hc
    cases hc
    have hrun : w'.pc.running = none := by rw [hpc]; rfl
    exact (Reactor.Boot.holds_taken hb hx hclean hcs hr he hrun hf).1
  | printServer hb hx hclean hpc hs hr hpc' =>
    rw [ChatServer.gathered_snoc]
    exact ((hs.receiver hpc).holds hr (ChatServer.Boot.holds_gathered hb hx hclean hpc)).1
  | printClient hx hclean hs hr hpc' =>
    rw [Client.gathered_snoc]
    exact (hs.receiver.holds hr ((Client.holding_gathered hx hclean).2 hs.1.1)).1

/-- Where a program uses its buffer as a string, there is a terminator in it exactly if the buffer
has not been filled or a NUL has been received. -/
theorem Used.terminated_iff {n : Nat} {b : Buf n} {bs : List Byte} (h : Used b bs) :
    (0 ∈ b.bytes ∧ (cstr b.bytes).length + 1 ≤ n) ↔ bs.length < n ∨ 0 ∈ bs := by
  rw [← h.holds.zero_mem_iff]
  refine ⟨fun h => h.1, fun hmem => ⟨hmem, ?_⟩⟩
  exact (length_cstr_lt hmem).trans_eq b.size

/-- A client that gets the reply "yo". -/
theorem Used.terminated_iff_yo : ∃ b : Buf Client.BUFFER_LENGTH,
    Used b [121, 111] ∧ 0 ∈ b.bytes ∧ (cstr b.bytes).length + 1 ≤ 1024 := by
  have hrun : (Exec.runs Client.step? (Client.start [104, 10] (.zero _))
      [.connect, .fgets, .send, .recv (.bytes [121, 111])]).any fun c =>
        (c.step? (.recv .eof)).any fun c' => c'.pc = .reading := by decide +kernel
  obtain ⟨c, hc, hrun⟩ := (Option.any_eq_true ..).mp hrun
  obtain ⟨c', hc', hpc⟩ := (Option.any_eq_true ..).mp hrun
  obtain ⟨xs, hx, hacts⟩ := Exec.of_runs Client.step_of_step? hc
  have hclean : ∀ x ∈ xs, x.2.CleanRecv :=
    Exec.forall_labels hacts (by simp [Client.Act.CleanRecv, RecvResult.Clean])
  have hused : Used c'.buffer (Client.gathered (xs ++ [(c, .recv .eof)])) :=
    .printClient hx hclean (Client.step_of_step? hc') trivial (of_decide_eq_true hpc)
  have hgathered : Client.gathered (xs ++ [(c, .recv .eof)]) = [121, 111] := by
    have hfold : Client.gathered xs = (xs.map Prod.snd).foldl Client.Act.gather [] := by
      rw [List.foldl_map]
      rfl
    rw [Client.gathered_snoc, hfold, hacts]
    rfl
  rw [hgathered] at hused
  exact ⟨c'.buffer, hused, (Used.terminated_iff hused).mpr (.inl (by decide))⟩

/-- A client sends 2048 bytes "A" at once. -/
def Reactor.fullRun : List Reactor.Act := [.connect, .segment 0 (List.replicate 2048 65),
  .wait [(4, EPOLLIN)], .next, .accept 5 Reactor.Boot.plain.junk, .next, .wait [(5, EPOLLIN)],
  .next, .recv (.bytes (List.replicate 2048 65)), .recv (.fail .EAGAIN), .next,
  .wait [(5, EPOLLOUT)]]

/-- `strcpy` is about to read on behind `rbuffer`. -/
theorem Reactor.Boot.unterminated_full : ∃ w w' xs, Boot.plain.server = some (.ok w) ∧
    Exec World.Step w xs w' ∧ xs.map Prod.snd = fullRun ∧ (∀ x ∈ xs, x.2.CleanRecv) ∧
    w'.pc = .dispatch [⟨⟨EPOLLOUT, 5⟩, 1⟩] ∧ ∃ conn, w'.heap 1 = some conn ∧
      conn.selected = some (some ⟨.sendCallback, 1⟩) ∧ 0 ∉ conn.rbuffer.bytes := by
  have hrun : (Exec.runs World.step? Boot.plain.started fullRun).any fun w' =>
      w'.pc = .dispatch [⟨⟨EPOLLOUT, 5⟩, 1⟩] ∧ (w'.heap 1).any fun conn =>
        conn.selected = some (some ⟨.sendCallback, 1⟩) ∧ 0 ∉ conn.rbuffer.bytes := by
    decide +kernel
  obtain ⟨w, w', xs, hw, hx, hacts, hrun⟩ :=
    Boot.plain_run ((Option.any_eq_true ..).mp hrun)
  obtain ⟨hpc, hany⟩ := of_decide_eq_true hrun
  obtain ⟨conn, hc, hconn⟩ := (Option.any_eq_true ..).mp hany
  have hclean : ∀ x ∈ xs, x.2.CleanRecv := Exec.forall_labels hacts (by decide)
  exact ⟨w, w', xs, hw, hx, hacts, hclean, hpc, conn, hc, of_decide_eq_true hconn⟩

end OnlineChat
