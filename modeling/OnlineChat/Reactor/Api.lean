import OnlineChat.Lib.PMap
import OnlineChat.Reactor.Transition

/-!
# The Epoll class by itself

Here an `Epoll` is used by any code, not only by the server: `Connection`s are made for open
descriptors, and `setEvent` and `updateConnection` are called on live ones in any order. `ApiOk`
ties `inEpoll`, the interest set and `connMap` to the last registration of every connection; that
`inEpoll` is never reset and entries of `connMap` are set to null, not erased, does no harm because
both end with the object.
-/

namespace OnlineChat.Reactor
open Lib Function

inductive Call
  /-- The process gets the descriptor `fd`. -/
  | opened (fd : Fd) (f : File)
  /-- `new Connection(fd, inetAddr)`, with an `InetAddress` of its own or without one. -/
  | new (fd : Fd) (addr : Bool) (junk : Junk)
  | setEvent (c : ConnId) (flags : Mask)
  | update (c : ConnId) (act : EpollAction)

/-- The call registers `c` or changes its registration. -/
def Call.registers (c : ConnId) : Call → Bool
  | .update c' .ACTION_UPDATE => c' = c
  | _ => false

namespace World

/-- A process with the kernel `k` under it that has just made its `Epoll`. -/
def fresh (k : Kernel) : World where
  kernel := { k with interest := fun _ => none }
  heap := fun _ => none
  inets := fun _ => false
  nextConn := 0
  nextInet := 0
  connMap := fun _ => none
  servSock := 0
  pc := .waiting
  trace := []

variable (w : World)

def invoke : Call → Except Fault World
  | .opened fd f => .ok { w with kernel := w.kernel.setFile fd (some f) }
  | .new fd true junk =>
    let (a, w) := w.newInetAddress
    .ok (w.newConnection (.new fd (some a) junk)).2
  | .new fd false junk => .ok (w.newConnection (.new fd none junk)).2
  | .setEvent c flags => w.modify c (·.setEvent flags)
  | .update c act => w.updateConnection c act

/-- Descriptors are new when they are opened, the connections have different open ones, and calls
are made on live connections. -/
def Allowed : Call → Prop
  | .opened fd _ => 0 ≤ fd ∧ w.kernel.file fd = none
  | .new fd _ _ => w.kernel.isOpen fd = true ∧
      ∀ c < w.nextConn, ∀ conn ∈ w.heap c, conn.fd ≠ fd
  | .setEvent c _ | .update c _ => (w.heap c).isSome = true

instance : (a : Call) → Decidable (w.Allowed a)
  | .opened .. | .new .. => inferInstanceAs (Decidable (_ ∧ _))
  | .setEvent .. | .update .. => inferInstanceAs (Decidable (_ = _))

def Invoke (a : Call) (w' : World) : Prop := w.Allowed a ∧ w.invoke a = .ok w'

/-- The executable call. -/
def invoke? (a : Call) : Option World := if w.Allowed a then (w.invoke a).toOption else none

theorem invoke_of_invoke? {w w' : World} {a : Call} (h : w.invoke? a = some w') : w.Invoke a w' := by
  simp only [invoke?, Option.ite_none_right_eq_some] at h
  refine ⟨h.1, ?_⟩
  cases hs : w.invoke a with
  | error => simp [hs, Except.toOption] at h
  | ok v => simpa [hs, Except.toOption] using h.2

end World

/-- The event of `c` when `ACTION_UPDATE` was last called on it. -/
def lastUpdate (xs : List (World × Call)) (c : ConnId) : Option EpollEvent :=
  xs.foldl (fun ev x => if x.2.registers c then (x.1.heap c).map Connection.event else ev) none

/-- What `last` becomes by a call. -/
def World.lastAfter (w : World) (a : Call) (last : ConnId → Option EpollEvent) (c : ConnId) :
    Option EpollEvent := if a.registers c then (w.heap c).map Connection.event else last c

/-- The three records agree, and `epoll_ctl` is only called where it fits. -/
structure World.InStep (w : World) (last : ConnId → Option EpollEvent) : Prop where
  interest : w.heap c = some conn → w.kernel.interest conn.fd = last c
  inEpoll : w.heap c = some conn →
    (conn.inEpoll = true ↔ (w.kernel.interest conn.fd).isSome = true)
  connMap : w.heap c = some conn → (conn.inEpoll = true ↔ w.connMap conn.fd = some c)
  ctl : .ctl op fd ok ∈ w.trace → ok = true
  delete : w.heap c = some conn → w.kernel.interest conn.fd = none →
    w.updateConnection c .ACTION_DELETE = .ok w

/-- The invariant of the class: what is not registered is nowhere, what is registered is so once. -/
structure World.ApiOk (w : World) (last : ConnId → Option EpollEvent) : Prop where
  conn_lt : w.heap c = some conn → c < w.nextConn
  new : w.nextConn ≤ c → last c = none
  isOpen : w.heap c = some conn → (w.kernel.file conn.fd).isSome
  fd_inj : w.heap c = some conn → w.heap c' = some conn' → conn.fd = conn'.fd → c = c'
  inet : w.heap c = some conn → conn.inetAddr = some a → w.inets a = true ∧ a < w.nextInet
  inet_inj : w.heap c = some conn → w.heap c' = some conn' → conn.inetAddr = some a →
    conn'.inetAddr = some a → c = c'
  interest : w.heap c = some conn → w.kernel.interest conn.fd = last c
  inEpoll : w.heap c = some conn → conn.inEpoll = (last c).isSome
  connMap : w.heap c = some conn → w.connMap conn.fd = if conn.inEpoll then some c else none
  free : (∀ c conn, w.heap c = some conn → conn.fd ≠ fd) →
    w.kernel.interest fd = none ∧ w.connMap fd = none
  ctl : .ctl op fd ok ∈ w.trace → ok = true

section
variable {w w' : World} {last : ConnId → Option EpollEvent} {c : ConnId} {conn : Connection}
  {a : Call}

theorem World.fresh_apiOk (k : Kernel) : (World.fresh k).ApiOk (lastUpdate []) := by
  have hno : ∀ c conn, (World.fresh k).heap c ≠ some conn := by
    intro c conn h
    cases h
  exact ⟨fun h => absurd h (hno _ _), fun _ => rfl, fun h => absurd h (hno _ _),
    fun h => absurd h (hno _ _), fun h => absurd h (hno _ _), fun h => absurd h (hno _ _),
    fun h => absurd h (hno _ _), fun h => absurd h (hno _ _), fun h => absurd h (hno _ _),
    fun _ => ⟨rfl, rfl⟩, fun h => absurd h List.not_mem_nil⟩

namespace World.ApiOk

theorem inStep (h : w.ApiOk last) : w.InStep last := by
  refine ⟨h.interest, ?_, ?_, h.ctl, ?_⟩
  · intro c conn hc
    rw [h.interest hc, h.inEpoll hc]
  · intro c conn hc
    rw [h.connMap hc]
    cases conn.inEpoll <;> simp
  · intro c conn hc hi
    rw [h.interest hc] at hi
    have hin : conn.inEpoll = false := by rw [h.inEpoll hc, hi]; rfl
    simp [World.updateConnection, World.deref_eq_ok.mpr hc, hin, bind, Except.bind, pure,
      Except.pure]

/-- The registration of a live connection and what `epoll_ctl` makes of it. -/
theorem ctlOk (h : w.ApiOk last) (hc : w.heap c = some conn) {op : CtlOp}
    (hop : op = .EPOLL_CTL_ADD ↔ conn.inEpoll = false) : w.kernel.ctlOk op conn.fd = true := by
  have hi := h.interest hc
  have hin := h.inEpoll hc
  cases hl : last c with
  | none =>
    rw [hl] at hi hin
    rw [hop.mpr hin]
    exact Kernel.ctlOk_add (h.isOpen hc) hi
  | some ev =>
    rw [hl] at hi hin
    refine Kernel.ctlOk_of_interest ?_ (h.isOpen hc) hi
    intro hadd
    rw [hop.mp hadd] at hin
    cases hin

theorem other (h : w.ApiOk last) {x : ConnId} {cx : Connection} (hc : w.heap c = some conn)
    (hx : w.heap x = some cx) (hne : x ≠ c) : cx.fd ≠ conn.fd :=
  fun he => hne (h.fd_inj hx hc he)

theorem opened (h : w.ApiOk last) {fd : Fd} (hfd : 0 ≤ fd) (f : File) :
    ({ w with kernel := w.kernel.setFile fd (some f) } : World).ApiOk last := by
  have hi : (w.kernel.setFile fd (some f)).interest = w.kernel.interest := Kernel.setFile_interest _
  refine ⟨h.conn_lt, h.new, ?_, h.fd_inj, h.inet, h.inet_inj, ?_, h.inEpoll, h.connMap, ?_, h.ctl⟩
  · intro c conn hc
    change ((w.kernel.setFile fd (some f)).file conn.fd).isSome
    rw [Kernel.file_setFile hfd]
    by_cases hx : conn.fd = fd
    · rw [hx, update_self]
      rfl
    · rw [update_of_ne hx]
      exact h.isOpen hc
  · intro c conn hc
    rw [hi]
    exact h.interest hc
  · intro x hx
    rw [hi]
    exact h.free hx

theorem newInetAddress (h : w.ApiOk last) : w.newInetAddress.2.ApiOk last := by
  refine ⟨h.conn_lt, h.new, h.isOpen, h.fd_inj, ?_, h.inet_inj, h.interest, h.inEpoll, h.connMap,
    h.free, h.ctl⟩
  intro c conn a hc ha
  obtain ⟨hlive, hlt⟩ := h.inet hc ha
  exact ⟨(update_of_ne (Nat.ne_of_lt hlt) ..).trans hlive, Nat.lt_succ_of_lt hlt⟩

/-- A new connection is not registered, and no older one uses its descriptor. -/
theorem newConnection (h : w.ApiOk last) (hin : conn.inEpoll = false)
    (hopen : (w.kernel.file conn.fd).isSome)
    (hfd : ∀ c conn', w.heap c = some conn' → conn'.fd ≠ conn.fd)
    (ha : ∀ a, conn.inetAddr = some a → w.inets a = true ∧ a < w.nextInet ∧
      ∀ c conn', w.heap c = some conn' → conn'.inetAddr ≠ some a) :
    (w.newConnection conn).2.ApiOk last := by
  have hnone := h.new (Nat.le_refl _)
  obtain ⟨hint, hmap⟩ := h.free hfd
  refine ⟨?_, ?_, ?_, ?_, ?_, ?_, ?_, ?_, ?_, ?_, h.ctl⟩
  · intro x cx hx
    rcases update_some_eq_some.mp hx with ⟨rfl, -⟩ | ⟨-, hx⟩
    · exact Nat.lt_succ_self _
    · exact Nat.lt_succ_of_lt (h.conn_lt hx)
  · exact fun hle => h.new (Nat.le_of_succ_le hle)
  · intro x cx hx
    rcases update_some_eq_some.mp hx with ⟨-, rfl⟩ | ⟨-, hx⟩
    · exact hopen
    · exact h.isOpen hx
  · intro x cx y cy hx hy he
    rcases update_some_eq_some.mp hx with ⟨hxn, hcx⟩ | ⟨-, hx⟩ <;>
      rcases update_some_eq_some.mp hy with ⟨hyn, hcy⟩ | ⟨-, hy⟩
    · exact hxn.trans hyn.symm
    · exact absurd (hcx ▸ he.symm) (hfd _ _ hy)
    · exact absurd (hcy ▸ he) (hfd _ _ hx)
    · exact h.fd_inj hx hy he
  · intro x cx a hx hxa
    rcases update_some_eq_some.mp hx with ⟨-, rfl⟩ | ⟨-, hx⟩
    · exact ⟨(ha a hxa).1, (ha a hxa).2.1⟩
    · exact h.inet hx hxa
  · intro x cx y cy a hx hy hxa hya
    rcases update_some_eq_some.mp hx with ⟨hxn, hcx⟩ | ⟨-, hx⟩ <;>
      rcases update_some_eq_some.mp hy with ⟨hyn, hcy⟩ | ⟨-, hy⟩
    · exact hxn.trans hyn.symm
    · exact absurd hya ((ha a (hcx ▸ hxa)).2.2 _ _ hy)
    · exact absurd hxa ((ha a (hcy ▸ hya)).2.2 _ _ hx)
    · exact h.inet_inj hx hy hxa hya
  · intro x cx hx
    rcases update_some_eq_some.mp hx with ⟨rfl, rfl⟩ | ⟨-, hx⟩
    · exact hint.trans hnone.symm
    · exact h.interest hx
  · intro x cx hx
    rcases update_some_eq_some.mp hx with ⟨rfl, rfl⟩ | ⟨-, hx⟩
    · rw [hin, hnone]
      rfl
    · exact h.inEpoll hx
  · intro x cx hx
    rcases update_some_eq_some.mp hx with ⟨rfl, rfl⟩ | ⟨-, hx⟩
    · rw [hin]
      exact hmap
    · exact h.connMap hx
  · intro fd hno
    refine h.free ?_
    intro x cx hx
    have hne : x ≠ w.nextConn := Nat.ne_of_lt (h.conn_lt hx)
    exact hno x cx ((update_of_ne hne ..).trans hx)

/-- A descriptor that no connection uses, `c` among them. -/
theorem free_of (h : w.ApiOk last) (hc : w.heap c = some conn) {fd : Fd} (hfd : conn.fd ≠ fd)
    (hno : ∀ x cx, x ≠ c → w.heap x = some cx → cx.fd ≠ fd) :
    w.kernel.interest fd = none ∧ w.connMap fd = none := by
  refine h.free ?_
  intro x cx hx
  by_cases hxc : x = c
  · subst hxc
    cases hc.symm.trans hx
    exact hfd
  · exact hno x cx hxc hx

/-- A change that leaves to every object its descriptor and its `InetAddress`. -/
theorem keep (h : w.ApiOk last) {last' : ConnId → Option EpollEvent}
    (old : ∀ {x cx}, w'.heap x = some cx → ∃ cx₀, w.heap x = some cx₀ ∧ cx.fd = cx₀.fd ∧
      cx.inetAddr = cx₀.inetAddr)
    (hfile : w'.kernel.file = w.kernel.file)
    (hrest : w'.inets = w.inets ∧ w'.nextConn = w.nextConn ∧ w'.nextInet = w.nextInet)
    (hnew : ∀ {x}, w.nextConn ≤ x → last' x = none)
    (hint : ∀ {x cx}, w'.heap x = some cx → w'.kernel.interest cx.fd = last' x)
    (hin : ∀ {x cx}, w'.heap x = some cx → cx.inEpoll = (last' x).isSome)
    (hmap : ∀ {x cx}, w'.heap x = some cx →
      w'.connMap cx.fd = if cx.inEpoll then some x else none)
    (hfree : ∀ {fd}, (∀ x cx, w'.heap x = some cx → cx.fd ≠ fd) →
      w'.kernel.interest fd = none ∧ w'.connMap fd = none)
    (htr : ∀ {op fd ok}, .ctl op fd ok ∈ w'.trace → ok = true) : w'.ApiOk last' := by
  obtain ⟨hinets, hnext, hnextInet⟩ := hrest
  refine ⟨?_, hnext ▸ hnew, ?_, ?_, ?_, ?_, hint, hin, hmap, hfree, htr⟩
  · intro x cx hx
    obtain ⟨cx₀, hx₀, -⟩ := old hx
    rw [hnext]
    exact h.conn_lt hx₀
  · intro x cx hx
    obtain ⟨cx₀, hx₀, he, -⟩ := old hx
    rw [hfile, he]
    exact h.isOpen hx₀
  · intro x cx y cy hx hy he
    obtain ⟨cx₀, hx₀, hex, -⟩ := old hx
    obtain ⟨cy₀, hy₀, hey, -⟩ := old hy
    exact h.fd_inj hx₀ hy₀ (hex.symm.trans (he.trans hey))
  · intro x cx a hx ha
    obtain ⟨cx₀, hx₀, -, he⟩ := old hx
    rw [hinets, hnextInet]
    exact h.inet hx₀ (he ▸ ha)
  · intro x cx y cy a hx hy hxa hya
    obtain ⟨cx₀, hx₀, -, hex⟩ := old hx
    obtain ⟨cy₀, hy₀, -, hey⟩ := old hy
    exact h.inet_inj hx₀ hy₀ (hex ▸ hxa) (hey ▸ hya)

/-- A connection whose registration is changed to its present event. -/
theorem register (h : w.ApiOk last) (hc : w.heap c = some conn)
    (hheap : w'.heap = update w.heap c (some conn.setInEpoll))
    (hfile : w'.kernel.file = w.kernel.file)
    (hint : w'.kernel.interest = update w.kernel.interest conn.fd (some conn.event))
    (hmap : w'.connMap = update w.connMap conn.fd (some c))
    (hrest : w'.inets = w.inets ∧ w'.nextConn = w.nextConn ∧ w'.nextInet = w.nextInet)
    (htr : ∀ {op fd ok}, .ctl op fd ok ∈ w'.trace → ok = true) :
    w'.ApiOk (update last c (some conn.event)) := by
  have cases : ∀ {x cx}, w'.heap x = some cx →
      x = c ∧ cx = conn.setInEpoll ∨ x ≠ c ∧ w.heap x = some cx :=
    fun hx => update_some_eq_some.mp (hheap ▸ hx)
  refine h.keep ?_ hfile hrest ?_ ?_ ?_ ?_ ?_ htr
  · intro x cx hx
    rcases cases hx with ⟨rfl, rfl⟩ | ⟨-, hx⟩
    · exact ⟨conn, hc, rfl, rfl⟩
    · exact ⟨cx, hx, rfl, rfl⟩
  · intro x hx
    rw [update_of_ne (Nat.ne_of_gt (Nat.lt_of_lt_of_le (h.conn_lt hc) hx))]
    exact h.new hx
  · intro x cx hx
    rcases cases hx with ⟨rfl, rfl⟩ | ⟨hne, hx⟩
    · rw [hint, update_self]
      exact update_self ..
    · rw [hint, update_of_ne hne, update_of_ne (h.other hc hx hne)]
      exact h.interest hx
  · intro x cx hx
    rcases cases hx with ⟨rfl, rfl⟩ | ⟨hne, hx⟩
    · rw [update_self]
      rfl
    · rw [update_of_ne hne]
      exact h.inEpoll hx
  · intro x cx hx
    rcases cases hx with ⟨rfl, rfl⟩ | ⟨hne, hx⟩
    · rw [hmap]
      exact update_self ..
    · rw [hmap, update_of_ne (h.other hc hx hne)]
      exact h.connMap hx
  · intro fd hno
    have hself : w'.heap c = some conn.setInEpoll := hheap ▸ update_self ..
    have hfd : conn.fd ≠ fd := hno c conn.setInEpoll hself
    rw [hint, hmap, update_of_ne hfd.symm, update_of_ne hfd.symm]
    refine h.free_of hc hfd ?_
    intro x cx hxc hx
    exact hno x cx (hheap ▸ (update_of_ne hxc ..).trans hx)

theorem setEvent (h : w.ApiOk last) (hc : w.heap c = some conn) (flags : Mask) :
    (w.put c (conn.setEvent flags)).ApiOk last := by
  have old : ∀ {x cx}, (w.put c (conn.setEvent flags)).heap x = some cx → ∃ cx₀,
      w.heap x = some cx₀ ∧ cx.fd = cx₀.fd ∧ cx.inetAddr = cx₀.inetAddr ∧
        cx.inEpoll = cx₀.inEpoll := by
    intro x cx hx
    rcases update_some_eq_some.mp hx with ⟨rfl, rfl⟩ | ⟨-, hx⟩
    · exact ⟨conn, hc, rfl, rfl, rfl⟩
    · exact ⟨cx, hx, rfl, rfl, rfl⟩
  refine h.keep ?_ rfl ⟨rfl, rfl, rfl⟩ h.new ?_ ?_ ?_ ?_ h.ctl
  · intro x cx hx
    obtain ⟨cx₀, hx₀, hfd, ha, -⟩ := old hx
    exact ⟨cx₀, hx₀, hfd, ha⟩
  · intro x cx hx
    obtain ⟨cx₀, hx₀, he, -⟩ := old hx
    rw [he]
    exact h.interest hx₀
  · intro x cx hx
    obtain ⟨cx₀, hx₀, -, -, he⟩ := old hx
    rw [he]
    exact h.inEpoll hx₀
  · intro x cx hx
    obtain ⟨cx₀, hx₀, hfd, -, he⟩ := old hx
    rw [he, hfd]
    exact h.connMap hx₀
  · intro fd hno
    refine h.free_of hc (hno c (conn.setEvent flags) (update_self ..)) ?_
    intro x cx hxc hx
    exact hno x cx ((update_of_ne hxc ..).trans hx)

/-- A registered connection is deleted. -/
theorem deleted (h : w.ApiOk last) (hc : w.heap c = some conn) (hin : conn.inEpoll = true) :
    (w.deleted c conn).ApiOk last := by
  have hok : w.kernel.ctlOk .EPOLL_CTL_DEL conn.fd = true := h.ctlOk hc (by simp [hin])
  have hopen : ((w.kernel.ctl .EPOLL_CTL_DEL conn.fd none).file conn.fd).isSome := by
    rw [Kernel.ctl_file]
    exact h.isOpen hc
  have hint : (w.deleted c conn).kernel.interest = update w.kernel.interest conn.fd none := by
    have hclose := Kernel.close_interest hopen
    rw [Kernel.ctl_interest hok, update_idem] at hclose
    exact hclose
  have hfile : (w.deleted c conn).kernel.file = update w.kernel.file conn.fd none := by
    have hclose := Kernel.close_file hopen
    rw [Kernel.ctl_file] at hclose
    exact hclose
  have old : ∀ {x cx}, (w.deleted c conn).heap x = some cx → x ≠ c ∧ w.heap x = some cx :=
    fun hx => update_none_eq_some.mp hx
  refine ⟨fun hx => h.conn_lt (old hx).2, h.new, ?_, fun hx hy => h.fd_inj (old hx).2 (old hy).2,
    ?_, fun hx hy => h.inet_inj (old hx).2 (old hy).2, ?_, fun hx => h.inEpoll (old hx).2, ?_, ?_, ?_⟩
  · intro x cx hx
    obtain ⟨hne, hx⟩ := old hx
    rw [hfile, update_of_ne (h.other hc hx hne)]
    exact h.isOpen hx
  · intro x cx a hx ha
    obtain ⟨hne, hx⟩ := old hx
    obtain ⟨hlive, hlt⟩ := h.inet hx ha
    refine ⟨?_, hlt⟩
    simp only [World.deleted]
    cases hca : conn.inetAddr with
    | none => exact hlive
    | some a' =>
      have hne' : a ≠ a' := fun he => hne (h.inet_inj hx hc ha (he ▸ hca))
      exact (update_of_ne hne' ..).trans hlive
  · intro x cx hx
    obtain ⟨hne, hx⟩ := old hx
    rw [hint, update_of_ne (h.other hc hx hne)]
    exact h.interest hx
  · intro x cx hx
    obtain ⟨hne, hx⟩ := old hx
    exact (update_of_ne (h.other hc hx hne) ..).trans (h.connMap hx)
  · intro fd hno
    rw [hint]
    by_cases hfd : fd = conn.fd
    · subst hfd
      exact ⟨update_self .., update_self ..⟩
    · rw [update_of_ne hfd, show (w.deleted c conn).connMap fd = _ from update_of_ne hfd ..]
      refine h.free_of hc (Ne.symm hfd) ?_
      intro x cx hxc hx
      exact hno x cx ((update_of_ne hxc ..).trans hx)
  · intro op fd ok hm
    rcases List.mem_append.mp hm with hm | hm
    · exact h.ctl hm
    · simp only [List.mem_cons, Event.ctl.injEq, reduceCtorEq, List.not_mem_nil, or_false] at hm
      rw [hm.2.2]
      exact hok

theorem lastAfter_of_not (hr : ∀ c, a.registers c = false) : w.lastAfter a last = last := by
  funext c
  rw [World.lastAfter, hr c]
  rfl

theorem lastAfter_update (hc : w.heap c = some conn) :
    w.lastAfter (.update c .ACTION_UPDATE) last = update last c (some conn.event) := by
  funext x
  by_cases hx : x = c
  · subst hx
    rw [update_self, World.lastAfter, hc]
    simp [Call.registers]
  · rw [update_of_ne hx, World.lastAfter]
    simp [Call.registers, Ne.symm hx]

theorem updated (h : w.ApiOk last) (hc : w.heap c = some conn) :
    ∃ w', w.updateConnection c .ACTION_UPDATE = .ok w' ∧
      w'.ApiOk (update last c (some conn.event)) := by
  have hctl : ∀ {op}, w.kernel.ctlOk op conn.fd = true →
      ∀ {op' fd ok}, .ctl op' fd ok ∈ w.trace ++ [.ctl op conn.fd (w.kernel.ctlOk op conn.fd)] →
        ok = true := by
    intro op hok op' fd ok hm
    rcases List.mem_append.mp hm with hm | hm
    · exact h.ctl hm
    · cases List.mem_singleton.mp hm
      exact hok
  cases hin : conn.inEpoll with
  | true =>
    have hok : w.kernel.ctlOk .EPOLL_CTL_MOD conn.fd = true := h.ctlOk hc (by simp [hin])
    refine ⟨_, World.updateConnection_mod hc hin, ?_⟩
    have hself : conn.setInEpoll = conn := by
      cases conn
      cases hin
      rfl
    have hmap : w.connMap conn.fd = some c := by rw [h.connMap hc, if_pos hin]
    refine h.register hc ?_ (Kernel.ctl_file ..) (Kernel.ctl_interest hok _) ?_ ⟨rfl, rfl, rfl⟩ (hctl hok)
    · rw [hself]
      exact (update_some_of_eq hc).symm
    · exact (update_some_of_eq hmap).symm
  | false =>
    have hok : w.kernel.ctlOk .EPOLL_CTL_ADD conn.fd = true := h.ctlOk hc (by simp [hin])
    refine ⟨_, World.updateConnection_add hc hin, ?_⟩
    exact h.register hc rfl (Kernel.ctl_file ..) (Kernel.ctl_interest hok _) rfl ⟨rfl, rfl, rfl⟩
      (hctl hok)

/-- A call that may be made succeeds and keeps the records in step. -/
theorem invoke {a : Call} (h : w.ApiOk last) (ha : w.Allowed a) :
    ∃ w', w.invoke a = .ok w' ∧ w'.ApiOk (w.lastAfter a last) := by
  cases a with
  | opened fd f =>
    rw [lastAfter_of_not fun _ => rfl]
    exact ⟨_, rfl, h.opened ha.1 f⟩
  | new fd addr junk =>
    rw [lastAfter_of_not fun _ => rfl]
    obtain ⟨hopen, hfd⟩ := ha
    have hfd : ∀ c conn, w.heap c = some conn → conn.fd ≠ fd :=
      fun c conn hc => hfd c (h.conn_lt hc) conn hc
    cases addr with
    | true =>
      refine ⟨_, rfl, h.newInetAddress.newConnection rfl hopen hfd ?_⟩
      rintro a ⟨⟩
      refine ⟨update_self .., Nat.lt_succ_self _, ?_⟩
      intro c conn hc ha
      exact Nat.lt_irrefl _ (h.inet hc ha).2
    | false =>
      refine ⟨_, rfl, h.newConnection rfl hopen hfd ?_⟩
      intro a ha
      cases ha
  | setEvent c flags =>
    rw [lastAfter_of_not fun _ => rfl]
    obtain ⟨conn, hc⟩ := Option.isSome_iff_exists.mp ha
    exact ⟨_, World.modify_of_live hc _, h.setEvent hc flags⟩
  | update c act =>
    obtain ⟨conn, hc⟩ := Option.isSome_iff_exists.mp ha
    cases act with
    | ACTION_UPDATE =>
      rw [lastAfter_update hc]
      exact h.updated hc
    | ACTION_DELETE =>
      rw [lastAfter_of_not fun _ => rfl]
      cases hin : conn.inEpoll with
      | true =>
        exact ⟨_, World.updateConnection_deleted hc hin fun a hca => (h.inet hc hca).1,
          h.deleted hc hin⟩
      | false =>
        have hi : w.kernel.interest conn.fd = none := by
          rw [h.interest hc, ← Option.isNone_iff_eq_none, ← Option.not_isSome, ← h.inEpoll hc, hin]
          rfl
        exact ⟨w, h.inStep.delete hc hi, h⟩

theorem exec {k : Kernel} {xs : List (World × Call)}
    (hx : Exec World.Invoke (World.fresh k) xs w) : w.ApiOk (lastUpdate xs) := by
  induction hx with
  | nil => exact World.fresh_apiOk k
  | @snoc xs t a u _ hst ih =>
    obtain ⟨ha, hi⟩ := hst
    obtain ⟨u', hu, hok⟩ := ih.invoke ha
    cases hi.symm.trans hu
    have hlast : lastUpdate (xs ++ [(t, a)]) = t.lastAfter a (lastUpdate xs) := by
      funext c
      simp only [lastUpdate, List.foldl_append]
      rfl
    rw [hlast]
    exact hok

end World.ApiOk

/-- After any calls the records are in step, and no call that may be made goes wrong. -/
theorem World.api_in_step {k : Kernel} {xs : List (World × Call)}
    (hx : Exec World.Invoke (World.fresh k) xs w) :
    w.InStep (lastUpdate xs) ∧ ∀ a, w.Allowed a → ∃ w', w.invoke a = .ok w' := by
  have h := World.ApiOk.exec hx
  refine ⟨h.inStep, ?_⟩
  intro a ha
  obtain ⟨w', hw, -⟩ := h.invoke ha
  exact ⟨w', hw⟩

/-- A number comes back while its entry in `connMap` is still there, with a null pointer. -/
def reuseCalls : List Call := [.opened 5 .other, .new 5 true Boot.plain.junk, .setEvent 0 EPOLLIN,
  .update 0 .ACTION_UPDATE, .setEvent 0 EPOLLOUT, .update 0 .ACTION_UPDATE,
  .update 0 .ACTION_DELETE, .opened 5 .other, .new 5 false Boot.plain.junk,
  .update 1 .ACTION_DELETE, .setEvent 1 EPOLLOUT, .update 1 .ACTION_UPDATE]

theorem World.api_in_step_reuse : ∃ w xs,
    Exec World.Invoke (World.fresh (.init (fun n => n < 4) 4)) xs w ∧ xs.map Prod.snd = reuseCalls ∧
    w.InStep (lastUpdate xs) ∧ ∀ a, w.Allowed a → ∃ w', w.invoke a = .ok w' := by
  have hrun : (Exec.runs World.invoke? (World.fresh (.init (fun n => n < 4) 4)) reuseCalls).any
      fun w => w.connMap 5 = some 1 := by decide +kernel
  obtain ⟨w, hw, -⟩ := (Option.any_eq_true ..).mp hrun
  obtain ⟨xs, hx, hacts⟩ := Exec.of_runs World.invoke_of_invoke? hw
  exact ⟨w, xs, hx, hacts, World.api_in_step hx⟩

end
end OnlineChat.Reactor
