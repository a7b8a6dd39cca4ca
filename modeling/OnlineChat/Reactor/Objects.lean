import OnlineChat.Reactor.Bookkeeping

/-!
# What is allocated

An exact account of the objects of the server, for every run. Each `accept` allocates a
`Connection` and its `InetAddress`, failed or not, and each `sendCallback` frees one pair; those of
a failed `accept` have the descriptor -1 and are never freed. Every `InetAddress` that is allocated
belongs to a `Connection`, so deleting the connections would free everything.
-/

namespace OnlineChat.Reactor
open Lib Function

/-- The result of the `accept` that a step is. -/
def Act.accepts : Act → Option Fd
  | .accept r _ => some r
  | _ => none

/-- The step is the end of `sendCallback`. -/
def Act.sends : Act → Bool
  | .write .. => true
  | _ => false

def Core.lost (k : Core) : Bool := k.fd = -1

/-- How many objects of the class `Connection` there are. -/
def World.objects (w : World) : Nat := tally (fun _ => true) w.registry.core w.nextConn

/-- How many of them have no descriptor. -/
def World.lost (w : World) : Nat := tally Core.lost w.registry.core w.nextConn

/-- Every address that is allocated belongs to a connection. -/
def Registry.Owned (g : Registry) : Prop :=
  ∀ a, g.inets a = true → ∃ c k, g.core c = some k ∧ k.inetAddr = some a

/-- The account after the run `xs`. -/
structure World.Account (xs : List (World × Act)) (w : World) : Prop where
  objects : w.objects + xs.countP (·.2.sends) = 1 + xs.countP (·.2.accepts.isSome)
  lost : w.lost = xs.countP (·.2.accepts = some (-1))
  address : w.inets a = true ↔ ∃ c conn, w.heap c = some conn ∧ conn.inetAddr = some a

namespace Registry.Owned
variable {g : Registry} {c : ConnId} {k : Core} {r : Fd} {s : SockId}

theorem add (h : g.Owned) (hg : g.Ok) : (g.add r s).Owned := by
  intro a ha
  by_cases hn : a = g.nextInet
  · exact ⟨g.nextConn, _, update_self .., congrArg some hn.symm⟩
  · have ha : g.inets a = true := (update_of_ne hn ..).symm.trans ha
    obtain ⟨c, k, hk, hka⟩ := h a ha
    have hne : c ≠ g.nextConn := Nat.ne_of_lt (hg.conn_lt hk)
    exact ⟨c, k, (update_of_ne hne ..).trans hk, hka⟩

theorem rearm (h : g.Owned) (hc : g.core c = some k) : (g.rearm c k).Owned := by
  intro a ha
  obtain ⟨c', k', hk, hka⟩ := h a ha
  by_cases hcc : c' = c
  · subst hcc
    cases hc.symm.trans hk
    exact ⟨c', _, update_self .., hka⟩
  · exact ⟨c', k', (update_of_ne hcc ..).trans hk, hka⟩

theorem drop (h : g.Owned) (hg : g.Ok) (hc : g.core c = some k) : (g.drop c k).Owned := by
  intro a ha
  obtain ⟨b, hb, -⟩ := hg.inet hc
  simp only [Registry.drop, hb] at ha
  have hab : a ≠ b := by
    rintro rfl
    rw [update_self] at ha
    cases ha
  rw [update_of_ne hab] at ha
  obtain ⟨c', k', hk, hka⟩ := h a ha
  have hcc : c' ≠ c := by
    rintro rfl
    cases hc.symm.trans hk
    exact hab (Option.some.inj (hka.symm.trans hb))
  exact ⟨c', k', (update_of_ne hcc ..).trans hk, hka⟩

end Registry.Owned

section
variable {w w' : World} {c : ConnId} {conn : Connection}

/-- What a step does to the number of objects with `p`, where `p` looks at the descriptor only. -/
theorem Trans.tally {a : Act} {p : Core → Bool} (hp : ∀ k k' : Core, k.fd = k'.fd → p k = p k')
    (h : w.Inv) (ht : Trans w a w') :
    (a.accepts = none ∧ a.sends = false ∧
      tally p w'.registry.core w'.nextConn = tally p w.registry.core w.nextConn) ∨
    (∃ r k, a.accepts = some r ∧ a.sends = false ∧ k.fd = r ∧
      tally p w'.registry.core w'.nextConn = tally p w.registry.core w.nextConn + (p k).toNat) ∨
    ∃ k, a.accepts = none ∧ a.sends = true ∧ k.fd ≠ -1 ∧
      tally p w'.registry.core w'.nextConn + (p k).toNat = tally p w.registry.core w.nextConn := by
  have same : a.accepts = none → a.sends = false → w'.registry = w.registry →
      (a.accepts = none ∧ a.sends = false ∧
        Lib.tally p w'.registry.core w'.nextConn = Lib.tally p w.registry.core w.nextConn) := by
    intro h₁ h₂ hg
    exact ⟨h₁, h₂, by rw [show w'.nextConn = w'.registry.nextConn from rfl, hg]; rfl⟩
  cases ht with
  | connect | segment => exact .inl (same rfl rfl (by simp [World.registry]))
  | wait _ _ hcol => exact .inl (same rfl rfl (by simp [World.registry, hcol.core]))
  | turn | skip | enterAccept => exact .inl (same rfl rfl rfl)
  | enterRecv _ _ _ hc => exact .inl (same rfl rfl (World.put_registry hc rfl))
  | enterSend _ _ _ hc hs =>
    obtain ⟨wb, rfl⟩ := Connection.strcpy_eq hs
    exact .inl (same rfl rfl (World.put_registry hc rfl))
  | @accept c todo r junk hpc hr =>
    obtain ⟨-, s, hg⟩ := @World.accepted_registry w c h.registry r junk todo hr
    refine .inr (.inl ⟨r, (Connection.client r w.nextInet w.nextConn junk).core, rfl, rfl, rfl, ?_⟩)
    rw [hg]
    exact tally_update_new
  | @recv c todo conn r s hpc hc =>
    refine .inl (same rfl rfl (Eq.trans ?_ (World.put_registry hc (conn.setRecvBuf_core s))))
    simp [World.registry, World.received, World.put]
  | @leaveRecv c todo conn r hpc hc =>
    obtain ⟨-, hne, -⟩ := h.receiving hpc hc
    have hlt : c < w.nextConn := h.registry.conn_lt (World.registry_core hc)
    refine .inl ⟨rfl, rfl, ?_⟩
    have hupd := @tally_update _ w.registry.core p
      (some { conn.core with event := ⟨EPOLLOUT, conn.fd⟩ }) c w.nextConn hlt
    rw [World.registry_core hc] at hupd
    rw [World.rearmed_registry h.registry hc hne]
    exact Nat.add_right_cancel (hupd.trans (congrArg _ (congrArg _ (hp _ _ rfl))))
  | @leaveSend c todo conn n past hpc hc =>
    obtain ⟨-, hne, -⟩ := h.writing hpc hc
    have hlt : c < w.nextConn := h.registry.conn_lt (World.registry_core hc)
    refine .inr (.inr ⟨conn.core, rfl, rfl, hne, ?_⟩)
    have hupd := @tally_update _ w.registry.core p none c w.nextConn hlt
    rw [World.registry_core hc] at hupd
    rw [World.dropped_registry h.registry hc hne]
    exact hupd

theorem Trans.owned {a : Act} (h : w.Inv) (ht : Trans w a w') (ho : w.registry.Owned) :
    w'.registry.Owned := by
  cases ht.registryStep h.registry h.pc_fd with
  | same hg => exact hg ▸ ho
  | add _ _ hg => exact hg ▸ ho.add h.registry
  | rearm _ hc _ hg => exact hg ▸ ho.rearm (World.registry_core hc)
  | drop _ hc hg => exact hg ▸ ho.drop h.registry (World.registry_core hc)

theorem World.Inv.address_iff {a : InetId} (h : w.Inv) (ho : w.registry.Owned) :
    w.inets a = true ↔ ∃ c conn, w.heap c = some conn ∧ conn.inetAddr = some a := by
  constructor
  · intro ha
    obtain ⟨c, k, hk, hka⟩ := ho a ha
    obtain ⟨conn, hc, rfl⟩ := World.registry_core_eq_some.mp hk
    exact ⟨c, conn, hc, hka⟩
  · rintro ⟨c, conn, hc, ha⟩
    obtain ⟨b, hb, hlive, -⟩ := h.registry.inet (World.registry_core hc)
    cases hb.symm.trans ha
    exact hlive

/-- The account goes on with every step. -/
theorem World.Account.step {xs : List (World × Act)} {a : Act} (hw : w.Account xs) (h : w.Inv)
    (ht : Trans w a w') (ho : w'.registry.Owned) : w'.Account (xs ++ [(w, a)]) := by
  obtain ⟨hobj, hlost, -⟩ := hw
  have hfd : ∀ k k' : Core, k.fd = k'.fd → k.lost = k'.lost := by
    intro k k' he
    rw [Core.lost, Core.lost, he]
  refine ⟨?_, ?_, (ht.inv h).address_iff ho⟩
  · rw [World.objects] at hobj ⊢
    rw [List.countP_append, List.countP_append, List.countP_singleton, List.countP_singleton]
    rcases ht.tally (p := fun _ => true) (fun _ _ _ => rfl) h with
      ⟨ha, hs, he⟩ | ⟨r, k, ha, hs, -, he⟩ | ⟨k, ha, hs, -, he⟩ <;>
      simp [ha, hs] at he ⊢ <;> omega
  · rw [World.lost] at hlost ⊢
    rw [List.countP_append, List.countP_singleton]
    rcases ht.tally hfd h with ⟨ha, hs, he⟩ | ⟨r, k, ha, hs, rfl, he⟩ | ⟨k, ha, hs, hne, he⟩
    · simp [ha, he, hlost]
    · rw [he, hlost]
      by_cases hr : k.fd = -1 <;> simp [ha, Core.lost, hr]
    · have hk : k.lost = false := by simpa [Core.lost] using hne
      rw [hk] at he
      simp [ha, ← hlost, ← he]

end

theorem Boot.started_account {e : Boot} {w : World} (hb : e.server = some (.ok w)) :
    w.registry.Owned ∧ w.Account [] := by
  have hinv := (Boot.started_inv hb).1
  obtain ⟨hne, rfl⟩ := Boot.server_eq hb
  have hheap : e.started.heap = update (fun _ => none) 0 (some e.listener) := rfl
  have hcore : e.started.registry.core 0 = some e.listener.core :=
    World.registry_core (hheap ▸ update_self ..)
  have ho : e.started.registry.Owned := by
    intro a ha
    by_cases h0 : a = 0
    · exact ⟨0, _, hcore, congrArg some h0.symm⟩
    · rw [show e.started.registry.inets = update (fun _ => false) 0 true from rfl,
        update_of_ne h0] at ha
      cases ha
  have htally : ∀ p : Core → Bool, tally p e.started.registry.core e.started.nextConn =
      (p e.listener.core).toNat := by
    intro p
    rw [show e.started.nextConn = 0 + 1 from rfl, tally_succ, hcore]
    exact Nat.zero_add _
  refine ⟨ho, ?_, ?_, hinv.address_iff ho⟩
  · rw [World.objects, htally]
    rfl
  · have hlost : e.listener.core.lost = false := decide_eq_false hne
    rw [World.lost, htally, hlost]
    rfl

/-- The account holds in every state the server reaches. -/
theorem Boot.object_account {e : Boot} {w w' : World} {xs : List (World × Act)}
    (hb : e.server = some (.ok w)) (hx : Exec World.Step w xs w') : w'.Account xs := by
  have hrun : w'.registry.Owned ∧ w'.Account xs := by
    induction hx with
    | nil => exact Boot.started_account hb
    | snoc hx hst ih =>
      have hinv := Boot.inv hb hx
      have ht := hinv.trans hst
      have ho := ht.owned hinv ih.1
      exact ⟨ho, ih.2.step hinv ht ho⟩
  exact hrun.2

/-- A run with a failed `accept` between two clients. -/
theorem Boot.object_account_reset : ∃ w w' xs, Boot.plain.server = some (.ok w) ∧
    Exec World.Step w xs w' ∧ xs.map Prod.snd = resetRun ∧ w'.lost = 1 ∧ w'.Account xs := by
  obtain ⟨w, w', xs, hw, hx, hacts, hlost⟩ :=
    @Boot.plain_run resetRun (fun w' => w'.lost = 1) ⟨_, rfl, by decide +kernel⟩
  exact ⟨w, w', xs, hw, hx, hacts, hlost, Boot.object_account hw hx⟩

end OnlineChat.Reactor
