import OnlineChat.Lib.PMap
import OnlineChat.Reactor.Transition

/-!
# The registry: which Connection owns which descriptor

A connection is known in three places: the kernel's interest set, `connMap` and the heap object
itself. `Registry` is the part of the state that says so, without buffers, streams and program
counter, and the code changes it in three ways only: `add` a new connection, `rearm` one for
sending, `drop` one. `Registry.Ok` is the agreement of the three places, kept by each of the
three; `Trans.registry` says that every step of the server is one of them or leaves the registry
alone.
-/

namespace OnlineChat.Reactor
open Lib Function

/-- The members of a `Connection` that the registry is about. -/
structure Core where
  fd : Fd
  inEpoll : Bool
  inetAddr : Option InetId
  event : EpollEvent
  recvCallback : Option Callback
  sendCallback : Option Callback

def Connection.core (conn : Connection) : Core :=
  ⟨conn.fd, conn.inEpoll, conn.inetAddr, conn.event, conn.recvCallback, conn.sendCallback⟩

/-- The listening socket and the client connections differ in their callbacks. -/
inductive Core.Role (serv c : ConnId) (k : Core) : Prop
  | listener : c = serv → k.event.events = EPOLLIN ||| EPOLLET →
    k.recvCallback = some ⟨.acceptCallback, c⟩ → Core.Role serv c k
  | client : c ≠ serv → k.event.events = EPOLLET ||| EPOLLIN ∨ k.event.events = EPOLLOUT →
    k.recvCallback = some ⟨.recvCallback, c⟩ → k.sendCallback = some ⟨.sendCallback, c⟩ →
    Core.Role serv c k

structure Registry where
  core : ConnId → Option Core
  inets : InetId → Bool
  nextConn : ConnId
  nextInet : InetId
  connMap : Fd → Option ConnId
  interest : Fd → Option EpollEvent
  file : Fd → Option File
  servSock : ConnId

def World.registry (w : World) : Registry where
  core := Option.map Connection.core ∘ w.heap
  inets := w.inets
  nextConn := w.nextConn
  nextInet := w.nextInet
  connMap := w.connMap
  interest := w.kernel.interest
  file := w.kernel.file
  servSock := w.servSock

namespace Registry

/-- A connection made for the result `r` of `accept`, registered if `r` is a descriptor. -/
def add (g : Registry) (r : Fd) (s : SockId) : Registry where
  core := update g.core g.nextConn (some ⟨r, true, some g.nextInet, ⟨EPOLLET ||| EPOLLIN, r⟩,
    some ⟨.recvCallback, g.nextConn⟩, some ⟨.sendCallback, g.nextConn⟩⟩)
  inets := update g.inets g.nextInet true
  nextConn := g.nextConn + 1
  nextInet := g.nextInet + 1
  connMap := update g.connMap r (some g.nextConn)
  interest := if r = -1 then g.interest else update g.interest r (some ⟨EPOLLET ||| EPOLLIN, r⟩)
  file := if r = -1 then g.file else update g.file r (some (.conn s))
  servSock := g.servSock

/-- The connection `c` is registered for sending. -/
def rearm (g : Registry) (c : ConnId) (k : Core) : Registry :=
  { g with
    core := update g.core c (some { k with event := ⟨EPOLLOUT, k.fd⟩ })
    interest := update g.interest k.fd (some ⟨EPOLLOUT, k.fd⟩) }

/-- The connection `c` is deleted and its descriptor closed. -/
def drop (g : Registry) (c : ConnId) (k : Core) : Registry :=
  { g with
    core := update g.core c none
    inets := match k.inetAddr with
      | none => g.inets
      | some a => update g.inets a false
    connMap := update g.connMap k.fd none
    interest := update g.interest k.fd none
    file := update g.file k.fd none }

/-- The three records of a connection agree. A connection whose `accept` failed has the descriptor
-1; it is in the heap, and in `connMap` until the next failure, but nowhere in the kernel. -/
structure Ok (g : Registry) : Prop where
  conn_lt : g.core c = some k → c < g.nextConn
  inEpoll : g.core c = some k → k.inEpoll = true
  inet : g.core c = some k → ∃ a, k.inetAddr = some a ∧ g.inets a = true ∧ a < g.nextInet
  inet_inj : g.core c = some k → g.core c' = some k' → k.inetAddr = k'.inetAddr → c = c'
  mapped : g.core c = some k → k.fd ≠ -1 → g.connMap k.fd = some c ∧
    g.interest k.fd = some k.event ∧ k.event.data = k.fd ∧ (g.file k.fd).isSome
  owner : g.connMap fd = some c → ∃ k, g.core c = some k ∧ k.fd = fd
  registered : g.interest fd = some ev → fd ≠ -1 ∧ ∃ c, g.connMap fd = some c
  role : g.core c = some k → k.Role g.servSock c
  serv : ∃ k, g.core g.servSock = some k ∧ k.fd ≠ -1 ∧ g.file k.fd = some .listener
  client : g.file fd = some (.conn s) → ∃ c, g.connMap fd = some c
  peer : g.core c = some k → c ≠ g.servSock → k.fd ≠ -1 → ∃ s, g.file k.fd = some (.conn s)

section
variable {g : Registry} {fd r : Fd} {s : SockId}

theorem add_interest (h : fd ≠ r) : (g.add r s).interest fd = g.interest fd := by
  simp only [add]
  split
  · rfl
  · exact update_of_ne h ..

theorem add_file (h : fd ≠ r) : (g.add r s).file fd = g.file fd := by
  simp only [add]
  split
  · rfl
  · exact update_of_ne h ..

end

namespace Ok
variable {g : Registry} {c : ConnId} {k : Core} {r : Fd}

/-- Two connections with a valid descriptor have different ones. -/
theorem fd_inj {c' : ConnId} {k' : Core} (h : g.Ok) (hc : g.core c = some k)
    (hc' : g.core c' = some k') (hne : k.fd ≠ -1) (he : k.fd = k'.fd) : c = c' := by
  have h₁ := (h.mapped hc hne).1
  rw [he, (h.mapped hc' (he ▸ hne)).1] at h₁
  exact (Option.some.inj h₁).symm

/-- A registered descriptor has an owner, and the registered event is the owner's. -/
theorem of_interest {ev : EpollEvent} (h : g.Ok) (hr : g.interest r = some ev) :
    ∃ c k, g.connMap r = some c ∧ g.core c = some k ∧ k.fd = r ∧ k.fd ≠ -1 ∧ k.event = ev ∧
      ev.data = r := by
  obtain ⟨hne, c, hc⟩ := h.registered hr
  obtain ⟨k, hk, rfl⟩ := h.owner hc
  obtain ⟨-, hi, hd, -⟩ := h.mapped hk hne
  rw [hi] at hr
  cases hr
  exact ⟨c, k, hc, hk, rfl, hne, rfl, hd⟩

theorem interest_eq_none (h : g.Ok) (hr : g.file r = none) : g.interest r = none := by
  cases hi : g.interest r with
  | none => rfl
  | some ev =>
    obtain ⟨c, k, -, hk, rfl, hne, -, -⟩ := h.of_interest hi
    have := (h.mapped hk hne).2.2.2
    simp [hr] at this

theorem core_nextConn (h : g.Ok) : g.core g.nextConn = none := by
  cases hc : g.core g.nextConn with
  | none => rfl
  | some k => exact absurd (h.conn_lt hc) (Nat.lt_irrefl _)

theorem servSock_lt (h : g.Ok) : g.servSock < g.nextConn := by
  obtain ⟨k, hk, -⟩ := h.serv
  exact h.conn_lt hk

theorem rearm (h : g.Ok) (hc : g.core c = some k) (hne : k.fd ≠ -1) (hs : c ≠ g.servSock) :
    (g.rearm c k).Ok := by
  -- a connection of the new registry is one of the old with at most its event changed
  have old : ∀ {x kx}, (g.rearm c k).core x = some kx → ∃ k₀, g.core x = some k₀ ∧
      kx.fd = k₀.fd ∧ kx.inEpoll = k₀.inEpoll ∧ kx.inetAddr = k₀.inetAddr := by
    intro x kx hx
    rcases update_some_eq_some.mp hx with ⟨rfl, rfl⟩ | ⟨-, hx⟩
    · exact ⟨k, hc, rfl, rfl, rfl⟩
    · exact ⟨kx, hx, rfl, rfl, rfl⟩
  refine ⟨fun hx => ?_, fun hx => ?_, fun hx => ?_, fun hx hy he => ?_, fun {x kx} hx hfd => ?_,
    fun {fd x} hx => ?_, fun {fd ev} hr => ?_, fun {x kx} hx => ?_, ?_, h.client,
    fun hx hxs hfd => ?_⟩
  · obtain ⟨k₀, h₀, -⟩ := old hx
    exact h.conn_lt h₀
  · obtain ⟨k₀, h₀, -, he, -⟩ := old hx
    exact he ▸ h.inEpoll h₀
  · obtain ⟨k₀, h₀, -, -, he⟩ := old hx
    exact he ▸ h.inet h₀
  · obtain ⟨k₀, h₀, -, -, he₀⟩ := old hx
    obtain ⟨k₁, h₁, -, -, he₁⟩ := old hy
    exact h.inet_inj h₀ h₁ (he₀.symm.trans (he.trans he₁))
  · rcases update_some_eq_some.mp hx with ⟨rfl, rfl⟩ | ⟨hxc, hx⟩
    · obtain ⟨hm, -, -, ho⟩ := h.mapped hc hne
      exact ⟨hm, update_self .., rfl, ho⟩
    · obtain ⟨hm, hi, hd, ho⟩ := h.mapped hx hfd
      have hfd' : kx.fd ≠ k.fd := fun he => hxc (h.fd_inj hx hc hfd he)
      exact ⟨hm, (update_of_ne hfd' ..).trans hi, hd, ho⟩
  · obtain ⟨kx, hkx, rfl⟩ := h.owner hx
    by_cases hxc : x = c
    · subst hxc
      rw [hc] at hkx
      cases hkx
      exact ⟨_, update_self .., rfl⟩
    · exact ⟨kx, (update_of_ne hxc ..).trans hkx, rfl⟩
  · rcases update_some_eq_some.mp hr with ⟨rfl, rfl⟩ | ⟨-, hr⟩
    · exact ⟨hne, c, (h.mapped hc hne).1⟩
    · exact h.registered hr
  · rcases update_some_eq_some.mp hx with ⟨rfl, rfl⟩ | ⟨-, hx⟩
    · cases h.role hc with
      | listener he => exact absurd he hs
      | client _ _ hr hsd => exact .client hs (.inr rfl) hr hsd
    · exact h.role hx
  · obtain ⟨ks, hks, hn, hf⟩ := h.serv
    exact ⟨ks, (update_of_ne (Ne.symm hs) ..).trans hks, hn, hf⟩
  · obtain ⟨k₀, h₀, he, -⟩ := old hx
    rw [he] at hfd ⊢
    exact h.peer h₀ hxs hfd

theorem drop (h : g.Ok) (hc : g.core c = some k) (hne : k.fd ≠ -1) (hs : c ≠ g.servSock) :
    (g.drop c k).Ok := by
  have old : ∀ {x kx}, (g.drop c k).core x = some kx → x ≠ c ∧ g.core x = some kx :=
    fun hx => update_none_eq_some.mp hx
  have fd_ne : ∀ {x kx}, g.core x = some kx → x ≠ c → kx.fd ≠ k.fd :=
    fun hx hxc he => hxc (h.fd_inj hx hc (he ▸ hne) he)
  refine ⟨fun hx => h.conn_lt (old hx).2, fun hx => h.inEpoll (old hx).2, fun {x kx} hx => ?_,
    fun hx hy => h.inet_inj (old hx).2 (old hy).2, fun {x kx} hx hfd => ?_, fun {fd x} hx => ?_,
    fun {fd ev} hr => ?_, fun hx => h.role (old hx).2, ?_, fun {fd s} hf => ?_,
    fun hx hxs hfd => ?_⟩
  · obtain ⟨hxc, hx⟩ := old hx
    obtain ⟨a, ha, hl, hlt⟩ := h.inet hx
    obtain ⟨a', ha', -⟩ := h.inet hc
    have hne : a ≠ a' := fun he => hxc (h.inet_inj hx hc (by rw [ha, ha', he]))
    refine ⟨a, ha, ?_, hlt⟩
    simp only [Registry.drop, ha']
    rwa [update_of_ne hne]
  · obtain ⟨hxc, hx⟩ := old hx
    obtain ⟨hm, hi, hd, ho⟩ := h.mapped hx hfd
    have hne := fd_ne hx hxc
    exact ⟨(update_of_ne hne ..).trans hm, (update_of_ne hne ..).trans hi, hd,
      by simpa only [Registry.drop, update_of_ne hne] using ho⟩
  · obtain ⟨hfd, hx⟩ := update_none_eq_some.mp hx
    obtain ⟨kx, hkx, rfl⟩ := h.owner hx
    have hxc : x ≠ c := by
      rintro rfl
      rw [hc] at hkx
      cases hkx
      exact hfd rfl
    exact ⟨kx, (update_of_ne hxc ..).trans hkx, rfl⟩
  · obtain ⟨hfd, hr⟩ := update_none_eq_some.mp hr
    obtain ⟨hn, x, hx⟩ := h.registered hr
    exact ⟨hn, x, (update_of_ne hfd ..).trans hx⟩
  · obtain ⟨ks, hks, hn, hf⟩ := h.serv
    exact ⟨ks, (update_of_ne (Ne.symm hs) ..).trans hks, hn,
      (update_of_ne (fd_ne hks (Ne.symm hs)) ..).trans hf⟩
  · obtain ⟨hfd, hf⟩ := update_none_eq_some.mp hf
    obtain ⟨x, hx⟩ := h.client hf
    exact ⟨x, (update_of_ne hfd ..).trans hx⟩
  · obtain ⟨hxc, hx⟩ := old hx
    obtain ⟨s, hf⟩ := h.peer hx hxs hfd
    exact ⟨s, (update_of_ne (fd_ne hx hxc) ..).trans hf⟩

theorem add (h : g.Ok) {s : SockId} (hr : r = -1 ∨ g.file r = none) : (g.add r s).Ok := by
  have fresh : ∀ {x kx}, g.core x = some kx → x ≠ g.nextConn :=
    fun hx he => Nat.lt_irrefl _ (he ▸ h.conn_lt hx)
  have fd_ne : ∀ {x kx}, g.core x = some kx → kx.fd ≠ -1 → kx.fd ≠ r := by
    rintro x kx hx hfd rfl
    have ho := (h.mapped hx hfd).2.2.2
    rcases hr with hr | hr
    · exact hfd hr
    · simp [hr] at ho
  refine ⟨fun {x kx} hx => ?_, fun {x kx} hx => ?_, fun {x kx} hx => ?_,
    fun {x kx y ky} hx hy he => ?_, fun {x kx} hx hfd => ?_, fun {fd x} hx => ?_,
    fun {fd ev} hi => ?_, fun {x kx} hx => ?_, ?_, fun {fd s'} hf => ?_,
    fun {x kx} hx hxs hfd => ?_⟩
  · rcases update_some_eq_some.mp hx with ⟨rfl, rfl⟩ | ⟨-, hx⟩
    · exact Nat.lt_succ_self _
    · exact Nat.lt_succ_of_lt (h.conn_lt hx)
  · rcases update_some_eq_some.mp hx with ⟨rfl, rfl⟩ | ⟨-, hx⟩
    · rfl
    · exact h.inEpoll hx
  · rcases update_some_eq_some.mp hx with ⟨rfl, rfl⟩ | ⟨-, hx⟩
    · exact ⟨_, rfl, update_self .., Nat.lt_succ_self _⟩
    · obtain ⟨a, ha, hl, hlt⟩ := h.inet hx
      exact ⟨a, ha, (update_of_ne (Nat.ne_of_lt hlt) ..).trans hl, Nat.lt_succ_of_lt hlt⟩
  · have hlt : ∀ {z kz}, g.core z = some kz → kz.inetAddr ≠ some g.nextInet := by
      intro z kz hz he
      obtain ⟨a, ha, -, hlt⟩ := h.inet hz
      rw [ha] at he
      cases he
      exact Nat.lt_irrefl _ hlt
    rcases update_some_eq_some.mp hx with ⟨rfl, rfl⟩ | ⟨-, hx⟩ <;>
      rcases update_some_eq_some.mp hy with ⟨rfl, rfl⟩ | ⟨-, hy⟩
    · rfl
    · exact absurd he.symm (hlt hy)
    · exact absurd he (hlt hx)
    · exact h.inet_inj hx hy he
  · rcases update_some_eq_some.mp hx with ⟨rfl, rfl⟩ | ⟨hxn, hx⟩
    · have hfd : r ≠ -1 := hfd
      simp [Registry.add, hfd]
    · obtain ⟨hm, hi, hd, ho⟩ := h.mapped hx hfd
      have hne := fd_ne hx hfd
      refine ⟨(update_of_ne hne ..).trans hm, (add_interest hne).trans hi, hd, ?_⟩
      rwa [add_file hne]
  · rcases update_some_eq_some.mp hx with ⟨rfl, rfl⟩ | ⟨-, hx⟩
    · exact ⟨_, update_self .., rfl⟩
    · obtain ⟨kx, hkx, rfl⟩ := h.owner hx
      exact ⟨kx, (update_of_ne (fresh hkx) ..).trans hkx, rfl⟩
  · by_cases hfd : fd = r
    · subst hfd
      refine ⟨?_, g.nextConn, update_self ..⟩
      rintro rfl
      exact (h.registered hi).1 rfl
    · obtain ⟨hn, x, hx⟩ := h.registered ((add_interest hfd).symm.trans hi)
      exact ⟨hn, x, (update_of_ne hfd ..).trans hx⟩
  · rcases update_some_eq_some.mp hx with ⟨rfl, rfl⟩ | ⟨-, hx⟩
    · exact .client (Nat.ne_of_gt h.servSock_lt) (.inl rfl) rfl rfl
    · exact h.role hx
  · obtain ⟨ks, hks, hn, hf⟩ := h.serv
    exact ⟨ks, (update_of_ne (fresh hks) ..).trans hks, hn, (add_file (fd_ne hks hn)).trans hf⟩
  · by_cases hfd : fd = r
    · exact ⟨g.nextConn, hfd ▸ update_self ..⟩
    · obtain ⟨x, hx⟩ := h.client ((add_file hfd).symm.trans hf)
      exact ⟨x, (update_of_ne hfd ..).trans hx⟩
  · rcases update_some_eq_some.mp hx with ⟨rfl, rfl⟩ | ⟨-, hx⟩
    · exact ⟨s, by simp only [Registry.add]; rw [if_neg hfd]; exact update_self ..⟩
    · obtain ⟨s', hf⟩ := h.peer hx hxs hfd
      exact ⟨s', (add_file (fd_ne hx hfd)).trans hf⟩

end Ok
end Registry

/-! ## The steps of the server on the registry -/

section
variable {w w' : World} {c : ConnId} {conn conn' : Connection}

theorem World.registry_core_eq_some {k : Core} : w.registry.core c = some k ↔
    ∃ conn, w.heap c = some conn ∧ conn.core = k := by
  simp [World.registry]

theorem World.registry_core (h : w.heap c = some conn) : w.registry.core c = some conn.core :=
  World.registry_core_eq_some.mpr ⟨conn, h, rfl⟩

/-- Changing a buffer, a length or `revent` of a live connection. -/
theorem World.core_update (h : w.heap c = some conn) (hk : conn'.core = conn.core) :
    Option.map Connection.core ∘ update w.heap c (some conn') =
      Option.map Connection.core ∘ w.heap := by
  rw [Function.comp_update]
  exact update_some_of_eq (by simp [h, hk])

theorem Collected.core {m : Fd → Option ConnId} {heap heap' : ConnId → Option Connection}
    {es : List EpollEvent} {todo : List Ready} (h : Collected m heap es todo heap') :
    Option.map Connection.core ∘ heap' = Option.map Connection.core ∘ heap := by
  induction h with
  | nil => rfl
  | cons _ hc _ ih =>
    rw [ih, Function.comp_update]
    exact update_some_of_eq (by rw [Function.comp_apply, hc]; rfl)

theorem World.put_registry (h : w.heap c = some conn) (hk : conn'.core = conn.core) :
    (w.put c conn').registry = w.registry := by
  simp only [World.registry, World.put, World.core_update h hk]

/-- What a step of the server does to the registry. -/
inductive RegistryStep (w : World) (g : Registry) : Act → Prop
  | same {a} : g = w.registry → RegistryStep w g a
  | add {r s c todo junk} : w.pc = .accepting c todo → r = -1 ∨ w.registry.file r = none →
    g = w.registry.add r s → RegistryStep w g (.accept r junk)
  | rearm {c todo conn r} : w.pc = .receiving c todo → w.heap c = some conn → r.data = [] →
    g = w.registry.rearm c conn.core → RegistryStep w g (.recv r)
  | drop {c todo conn n past} : w.pc = .writing c todo → w.heap c = some conn →
    g = w.registry.drop c conn.core → RegistryStep w g (.write n past)

theorem Registry.Ok.inEpoll_conn (h : w.registry.Ok) :
    ∀ c conn, w.heap c = some conn → conn.inEpoll = true :=
  fun _ _ hc => h.inEpoll (World.registry_core hc)

theorem World.accepted_registry (h : w.registry.Ok) {r : Fd} {junk : Junk} {todo : List Ready}
    (hr : w.kernel.CanAccept r) :
    (r = -1 ∨ w.registry.file r = none) ∧
      ∃ s, (w.accepted c todo r junk).registry = w.registry.add r s := by
  obtain ⟨hr | ⟨hr, hfile⟩, hq⟩ := hr
  · subst hr
    refine ⟨.inl rfl, 0, ?_⟩
    obtain ⟨hf, hi⟩ := @Kernel.accept_fail w.kernel
    have hctl := @Kernel.ctl_of_closed (w.kernel.accept (-1)) (-1) rfl .EPOLL_CTL_ADD
      (some ⟨EPOLLET ||| EPOLLIN, -1⟩)
    simp only [World.accepted, World.registry, Registry.add, hctl, hf, hi, Function.comp_update,
      if_true]
    rfl
  · have hne : r ≠ -1 := by
      rintro rfl
      exact absurd hr (by decide)
    obtain ⟨s, rest, hs⟩ := List.exists_cons_of_ne_nil (hq hne)
    obtain ⟨hf, hi⟩ := Kernel.accept_ok hr hs
    have hctl : (w.kernel.accept r).ctlOk .EPOLL_CTL_ADD r = true :=
      Kernel.ctlOk_add (by simp [hf]) (hi ▸ h.interest_eq_none hfile)
    refine ⟨.inr hfile, s, ?_⟩
    simp only [World.registry, World.accepted, Registry.add, Kernel.ctl_file, hf,
      Kernel.ctl_interest hctl, hi, Function.comp_update, if_neg hne]
    rfl

theorem World.mapped (h : w.registry.Ok) (hc : w.heap c = some conn) (hne : conn.fd ≠ -1) :
    w.connMap conn.fd = some c ∧ w.kernel.interest conn.fd = some conn.event ∧
      conn.event.data = conn.fd ∧ (w.kernel.file conn.fd).isSome :=
  h.mapped (World.registry_core hc) hne

theorem World.rearmed_registry (h : w.registry.Ok) (hc : w.heap c = some conn)
    (hne : conn.fd ≠ -1) {todo : List Ready} {r : RecvResult} :
    (w.rearmed c conn todo r).registry = w.registry.rearm c conn.core := by
  obtain ⟨-, hi, -, ho⟩ := World.mapped h hc hne
  have hok : (w.kernel.recv conn.fd r).ctlOk .EPOLL_CTL_MOD conn.fd = true :=
    Kernel.ctlOk_of_interest (by decide) (by simpa using ho) (by simpa using hi)
  simp only [World.registry, World.rearmed, World.put, Kernel.ctl_file, Kernel.recv_file,
    Kernel.ctl_interest hok, Kernel.recv_interest, Function.comp_update]
  rfl

theorem World.dropped_registry (h : w.registry.Ok) (hc : w.heap c = some conn)
    (hne : conn.fd ≠ -1) {todo : List Ready} {bs : List Byte} :
    (w.dropped c conn todo bs).registry = w.registry.drop c conn.core := by
  obtain ⟨-, hi, -, ho⟩ := World.mapped h hc hne
  have hok : (w.kernel.write conn.fd bs).ctlOk .EPOLL_CTL_DEL conn.fd = true :=
    Kernel.ctlOk_of_interest (by decide) (by simpa using ho) (by simpa using hi)
  have ho' : (((w.kernel.write conn.fd bs).ctl .EPOLL_CTL_DEL conn.fd none).file
      conn.fd).isSome := by simpa using ho
  simp only [World.registry, World.dropped, Kernel.close_file ho', Kernel.close_interest ho',
    Kernel.ctl_interest hok, Kernel.ctl_file, Kernel.write_file, Kernel.write_interest,
    Function.comp_update, update_idem]
  rfl

theorem Connection.setRecvBuf_core (conn : Connection) (s : RecvBuf RECV_BUFFER_LENGTH) :
    (conn.setRecvBuf s).core = conn.core := rfl

/-- Every step of the server changes the registry in one of the three ways or not at all. -/
theorem Trans.registryStep {a : Act} (h : w.registry.Ok) (ht : Trans w a w')
    (hpc : ∀ c todo conn, w.pc = .receiving c todo ∨ w.pc = .writing c todo →
      w.heap c = some conn → conn.fd ≠ -1) : RegistryStep w w'.registry a := by
  cases ht with
  | connect | segment => exact .same (by simp [World.registry])
  | wait _ _ hcol => exact .same (by simp [World.registry, hcol.core])
  | turn | skip | enterAccept => exact .same rfl
  | enterRecv _ _ _ hc => exact .same (World.put_registry hc rfl)
  | enterSend _ _ _ hc hs =>
    obtain ⟨wb, rfl⟩ := Connection.strcpy_eq hs
    exact .same (World.put_registry hc rfl)
  | accept hpc hr =>
    obtain ⟨hf, s, hg⟩ := World.accepted_registry h hr
    exact .add hpc hf hg
  | @recv c todo conn r s hpc hc =>
    refine .same (Eq.trans ?_ (World.put_registry hc (conn.setRecvBuf_core s)))
    simp [World.registry, World.received, World.put]
  | leaveRecv hw hc _ _ hd =>
    exact .rearm hw hc hd (World.rearmed_registry h hc (hpc _ _ _ (.inl hw) hc))
  | leaveSend hw hc =>
    exact .drop hw hc (World.dropped_registry h hc (hpc _ _ _ (.inr hw) hc))

end

end OnlineChat.Reactor
