import OpenRom.Library.Descriptors

/-!
# The select loop

The loop of `ROMProxy::Run`: `select` reports some of the descriptors of all proxies, and then
`ProcessFdSet` is called for each proxy, also for one that an event adds on the way. The set that
`select` has reported is looked at by number, while connections are closed and sockets opened. How
the calls on sockets go is up to the system (`Accepted`, `Opening`, what an event returns).

`SelectLoop.ready_iff` says when a call is made for a socket that `select` has not reported.
-/

set_option autoImplicit false

namespace OpenRom.SelectLoop

/-! ## The proxies -/

/-- A `ProxiedConnection`, by the descriptors of its clients. -/
structure Connection where
  localClient : Nat
  remoteClient : Nat
  deriving DecidableEq, Repr

/-- A `Proxy`, by the descriptors of its server and of its connections. -/
structure Proxy where
  server : Nat
  connections : List Connection
  deriving DecidableEq, Repr

def Connection.fds (c : Connection) : List Nat := [c.localClient, c.remoteClient]

/-- What `FillFdSet` adds to the set. -/
def Proxy.fds (p : Proxy) : List Nat := p.server :: p.connections.flatMap Connection.fds

/-- The functions that block on a socket that is not ready. -/
inductive Function
  | accept
  | onLocalEvent
  | onRemoteEvent
  deriving DecidableEq, Repr

/-- A call, the number it is made for, and the socket that the number stands for then. -/
structure Call where
  function : Function
  fd : Nat
  socket : Option Nat
  deriving DecidableEq, Repr

/-- How `Server::Accept` goes: `accept` fails, `Connect` to the server fails, without a socket or
with one that it closes again, or both succeed. -/
inductive Accepted
  | failed
  | refused (socket : Bool)
  | connected
  deriving DecidableEq, Repr

/-- A socket that an event opens: one that is closed again (by `Resolve`, and by `Listen` when it
fails), or the server of a new proxy. -/
inductive Opening
  | dropped
  | listens
  deriving DecidableEq, Repr

/-- What `Server::Accept` does to the descriptors, with the connection that is added. -/
def accept (d : Descriptors) : Accepted → Descriptors × Option Connection
  | .failed => (d, none)
  | .refused false => (d.alloc.close d.lowest, none)
  | .refused true => ((d.alloc.alloc.close d.alloc.lowest).close d.lowest, none)
  | .connected => (d.alloc.alloc, some ⟨d.lowest, d.alloc.lowest⟩)

/-- What an event does to the descriptors, with the proxies that are added. -/
def openAll (d : Descriptors) : List Opening → Descriptors × List Proxy
  | [] => (d, [])
  | .dropped :: os => openAll (d.alloc.close d.lowest) os
  | .listens :: os => ((openAll d.alloc os).1, ⟨d.lowest, []⟩ :: (openAll d.alloc os).2)

/-! ## An iteration -/

/-- What an iteration has done so far: the descriptors at the `select` and those it has reported,
the descriptors now, the calls, and the numbers of the sockets that have been opened and kept. -/
structure World where
  before : Descriptors
  reported : List Nat
  descriptors : Descriptors
  calls : List Call
  kept : List Nat
  deriving DecidableEq, Repr

/-- A proxy whose connections are being looked at: those behind and those ahead. -/
structure Position where
  server : Nat
  passed : List Connection
  left : List Connection
  deriving DecidableEq, Repr

/-- Where an iteration is: the proxies it has processed, the one it is processing, if any, and those
that are left. -/
structure Iteration extends World where
  done : List Proxy
  current : Option Position
  todo : List Proxy
  deriving DecidableEq, Repr

def World.call (w : World) (f : Function) (fd : Nat) : World :=
  { w with calls := w.calls ++ [⟨f, fd, w.descriptors.entry fd⟩] }

/-- `Proxy::ProcessFdSet`, up to its loop. -/
def World.processServer (w : World) (p : Proxy) (o : Accepted) : World × List Connection :=
  if p.server ∈ w.reported then
    let r := accept w.descriptors o
    let added := r.2.toList
    ({ w.call .accept p.server with
        descriptors := r.1
        kept := w.kept ++ added.flatMap Connection.fds },
      p.connections ++ added)
  else (w, p.connections)

/-- `OnLocalEvent`, when the local client has been reported. It returns `ok`. -/
def World.localEvent (w : World) (c : Connection) (ok : Bool) : World × Bool :=
  if c.localClient ∈ w.reported then (w.call .onLocalEvent c.localClient, ok) else (w, true)

/-- `OnRemoteEvent`, when the remote client has been reported. It may add proxies. -/
def World.remoteEvent (w : World) (c : Connection) (ok : Bool) (os : List Opening) :
    World × Bool × List Proxy :=
  if c.remoteClient ∈ w.reported then
    let r := openAll w.descriptors os
    ({ w.call .onRemoteEvent c.remoteClient with
        descriptors := r.1
        kept := w.kept ++ r.2.map Proxy.server },
      ok, r.2)
  else (w, true, [])

/-- The destructor of a connection: its remote client goes first. -/
def World.destroy (w : World) (c : Connection) : World :=
  { w with descriptors := (w.descriptors.close c.remoteClient).close c.localClient }

/-- The body of the loop over the connections. -/
def Iteration.visit (s : Iteration) (pos : Position) (c : Connection) (left : List Connection)
    (okLocal okRemote : Bool) (os : List Opening) : Iteration :=
  let l := s.localEvent c okLocal
  let r := l.1.remoteEvent c okRemote os
  if l.2 && r.2.1 then
    { s with
      toWorld := r.1
      current := some ⟨pos.server, pos.passed ++ [c], left⟩
      todo := s.todo ++ r.2.2 }
  else
    { s with
      toWorld := r.1.destroy c
      current := some ⟨pos.server, pos.passed, left⟩
      todo := s.todo ++ r.2.2 }

namespace Iteration

def Finished (s : Iteration) : Prop := s.current = none ∧ s.todo = []

/-- One step of the loop of `Run`. `select` may report any of the descriptors in its set. -/
inductive Step (s : Iteration) : Iteration → Prop
  | processServer {p : Proxy} {todo : List Proxy} (o : Accepted) :
      s.current = none → s.todo = p :: todo →
        Step s { s with
          toWorld := (s.toWorld.processServer p o).1
          current := some ⟨p.server, [], (s.toWorld.processServer p o).2⟩
          todo := todo }
  | visit {pos : Position} {c : Connection} {left : List Connection} (okLocal okRemote : Bool)
      (os : List Opening) :
      s.current = some pos → pos.left = c :: left →
        Step s (s.visit pos c left okLocal okRemote os)
  | next {pos : Position} : s.current = some pos → pos.left = [] →
      Step s { s with done := s.done ++ [⟨pos.server, pos.passed⟩], current := none }
  | select (reported : List Nat) : s.Finished →
      (∀ fd ∈ reported, fd ∈ s.done.flatMap Proxy.fds) →
        Step s {
          before := s.descriptors
          reported := reported
          descriptors := s.descriptors
          calls := []
          kept := []
          done := []
          current := none
          todo := s.done }

/-- The login proxy has been initialized, with the lowest number that is free. -/
def start (d : Descriptors) : Iteration where
  before := d.alloc
  reported := []
  descriptors := d.alloc
  calls := []
  kept := []
  done := [⟨d.lowest, []⟩]
  current := none
  todo := []

inductive Reachable : Iteration → Prop
  | start {d : Descriptors} : d.Used → Reachable (start d)
  | step {s s' : Iteration} : Reachable s → Step s s' → Reachable s'

end Iteration

/-- The call was made for a socket that was open at the `select`, and that it has reported. -/
def World.WasReady (w : World) (c : Call) : Prop :=
  c.fd ∈ w.reported ∧ ∃ id, w.before.entry c.fd = some id ∧ c.socket = some id

/-! ## What every step keeps -/

/-- The socket has been opened after the `select`. -/
def World.IsNew (w : World) (socket : Option Nat) : Prop :=
  ∃ id, socket = some id ∧ w.before.next ≤ id

/-- The descriptors that the proxies hold are open, and no two of them have one number. A number
that has been given out in the iteration stands for a new socket, and is still to be looked at or
has been called for, when it is in the set. -/
structure World.Keeps (w : World) (held pending : List Nat) : Prop where
  used : w.descriptors.Used
  usedBefore : w.before.Used
  next_le : w.before.next ≤ w.descriptors.next
  nodup : held.Nodup
  pending_held : ∀ fd ∈ pending, fd ∈ held
  isOpen : ∀ fd ∈ held, (w.descriptors.entry fd).isSome
  origin : ∀ fd ∈ held, w.descriptors.entry fd = w.before.entry fd ∨
    fd ∈ w.kept ∧ w.IsNew (w.descriptors.entry fd)
  calls : ∀ c ∈ w.calls, c.fd ∈ w.reported ∧
    (w.WasReady c ∨ c.fd ∈ w.kept ∧ w.IsNew c.socket)
  new : ∀ fd ∈ w.kept, fd ∈ w.reported → fd ∈ pending ∧ w.IsNew (w.descriptors.entry fd) ∨
    ∃ c ∈ w.calls, c.fd = fd ∧ w.IsNew c.socket

namespace World.Keeps

variable {w : World} {held pending : List Nat}

theorem perm (h : w.Keeps held pending) {held' : List Nat} (hheld : held.Perm held')
    (pending' : List Nat) (hpending : ∀ fd, fd ∈ pending ↔ fd ∈ pending') :
    w.Keeps held' pending' where
  used := h.used
  usedBefore := h.usedBefore
  next_le := h.next_le
  nodup := hheld.nodup_iff.1 h.nodup
  pending_held fd hfd := hheld.mem_iff.1 (h.pending_held fd ((hpending fd).2 hfd))
  isOpen fd hfd := h.isOpen fd (hheld.mem_iff.2 hfd)
  origin fd hfd := h.origin fd (hheld.mem_iff.2 hfd)
  calls := h.calls
  new fd hfd hrep := (h.new fd hfd hrep).imp_left fun hnew => ⟨(hpending fd).1 hnew.1, hnew.2⟩

/-- A number that is not in the set is passed over. -/
theorem skip {fd : Nat} (h : w.Keeps held (fd :: pending)) (hfd : fd ∉ w.reported) :
    w.Keeps held pending where
  used := h.used
  usedBefore := h.usedBefore
  next_le := h.next_le
  nodup := h.nodup
  pending_held fd' hfd' := h.pending_held fd' (List.mem_cons_of_mem _ hfd')
  isOpen := h.isOpen
  origin := h.origin
  calls := h.calls
  new fd' hkept hrep := by
    refine (h.new fd' hkept hrep).imp_left fun hnew => ⟨?_, hnew.2⟩
    rcases List.mem_cons.1 hnew.1 with rfl | hmem
    · exact absurd hrep hfd
    · exact hmem

/-- A call for a number in the set. -/
theorem call {fd : Nat} (h : w.Keeps held (fd :: pending)) (hfd : fd ∈ w.reported) (f : Function) :
    (w.call f fd).Keeps held pending where
  used := h.used
  usedBefore := h.usedBefore
  next_le := h.next_le
  nodup := h.nodup
  pending_held fd' hfd' := h.pending_held fd' (List.mem_cons_of_mem _ hfd')
  isOpen := h.isOpen
  origin := h.origin
  calls c hc := by
    rcases List.mem_append.1 hc with hc | hc
    · exact h.calls c hc
    · obtain rfl := List.mem_singleton.1 hc
      have hheld := h.pending_held fd List.mem_cons_self
      refine ⟨hfd, ?_⟩
      rcases h.origin fd hheld with hsame | hnew
      · obtain ⟨id, hid⟩ := Option.isSome_iff_exists.1 (h.isOpen fd hheld)
        exact Or.inl ⟨hfd, id, hsame ▸ hid, hid⟩
      · exact Or.inr hnew
  new fd' hkept hrep := by
    rcases h.new fd' hkept hrep with ⟨hmem, hnew⟩ | ⟨c, hc, hnew⟩
    · rcases List.mem_cons.1 hmem with rfl | hmem
      · exact Or.inr ⟨⟨f, fd', w.descriptors.entry fd'⟩, List.mem_append_right _ List.mem_cons_self,
          rfl, hnew⟩
      · exact Or.inl ⟨hmem, hnew⟩
    · exact Or.inr ⟨c, List.mem_append_left _ hc, hnew⟩

/-- Nothing has happened to the numbers. -/
theorem same (h : w.Keeps held pending) {d : Descriptors} (hused : d.Used)
    (hnext : w.descriptors.next ≤ d.next) (hentry : ∀ fd, d.entry fd = w.descriptors.entry fd) :
    { w with descriptors := d }.Keeps held pending where
  used := hused
  usedBefore := h.usedBefore
  next_le := Nat.le_trans h.next_le hnext
  nodup := h.nodup
  pending_held := h.pending_held
  isOpen fd hfd := hentry fd ▸ h.isOpen fd hfd
  origin fd hfd := hentry fd ▸ h.origin fd hfd
  calls := h.calls
  new fd hkept hrep := by
    rw [show ({ w with descriptors := d } : World).descriptors = d from rfl, hentry fd]
    exact h.new fd hkept hrep

/-- A socket is opened and closed again. -/
theorem drop (h : w.Keeps held pending) :
    { w with descriptors := w.descriptors.alloc.close w.descriptors.lowest }.Keeps held pending :=
  h.same (h.used.alloc.close _) (Nat.le_succ _) Descriptors.entry_close_alloc

/-- A socket is opened and kept. -/
theorem alloc (h : w.Keeps held pending) :
    { w with
      descriptors := w.descriptors.alloc
      kept := w.kept ++ [w.descriptors.lowest] }.Keeps (w.descriptors.lowest :: held)
        (w.descriptors.lowest :: pending) := by
  -- the lowest free descriptor is none of those that are held
  have hne : ∀ fd ∈ held, fd ≠ w.descriptors.lowest := fun fd hfd =>
    Descriptors.ne_lowest (h.isOpen fd hfd)
  have hnew : w.IsNew (w.descriptors.alloc.entry w.descriptors.lowest) :=
    ⟨_, Descriptors.entry_alloc_self, h.next_le⟩
  have hlast : w.descriptors.lowest ∈ w.kept ++ [w.descriptors.lowest] :=
    List.mem_append_right _ List.mem_cons_self
  constructor
  case used => exact h.used.alloc
  case usedBefore => exact h.usedBefore
  case next_le => exact Nat.le_succ_of_le h.next_le
  case nodup => exact List.nodup_cons.2 ⟨fun hmem => hne _ hmem rfl, h.nodup⟩
  case pending_held => exact fun fd => List.mem_cons.2 ∘ Or.imp_right (h.pending_held fd) ∘
    List.mem_cons.1
  case isOpen =>
    intro fd hfd
    rcases List.mem_cons.1 hfd with rfl | hfd
    · simp
    · simpa [Descriptors.entry_alloc_of_ne (hne fd hfd)] using h.isOpen fd hfd
  case origin =>
    intro fd hfd
    rcases List.mem_cons.1 hfd with rfl | hfd
    · exact Or.inr ⟨hlast, hnew⟩
    · simp only [Descriptors.entry_alloc_of_ne (hne fd hfd)]
      exact (h.origin fd hfd).imp_right fun hkept => ⟨List.mem_append_left _ hkept.1, hkept.2⟩
  case calls =>
    intro c hc
    exact ⟨(h.calls c hc).1, (h.calls c hc).2.imp_right fun hkept =>
      ⟨List.mem_append_left _ hkept.1, hkept.2⟩⟩
  case new =>
    intro fd hkept hrep
    rcases List.mem_append.1 hkept with hkept | hkept
    · refine (h.new fd hkept hrep).imp_left fun hpend => ⟨List.mem_cons_of_mem _ hpend.1, ?_⟩
      simp only [Descriptors.entry_alloc_of_ne (hne fd (h.pending_held fd hpend.1))]
      exact hpend.2
    · obtain rfl := List.mem_singleton.1 hkept
      exact Or.inl ⟨List.mem_cons_self, hnew⟩

/-- A descriptor is closed that is not looked at any more. -/
theorem close {fd : Nat} (h : w.Keeps (fd :: held) pending)
    (hpending : ∀ fd' ∈ pending, fd' ∈ held) :
    { w with descriptors := w.descriptors.close fd }.Keeps held pending := by
  obtain ⟨hfd, hnodup⟩ := List.nodup_cons.1 h.nodup
  have hentry : ∀ fd' ∈ held, (w.descriptors.close fd).entry fd' = w.descriptors.entry fd' :=
    fun fd' hfd' => Descriptors.entry_close_of_ne fun heq => hfd (heq ▸ hfd')
  constructor
  case used => exact h.used.close fd
  case usedBefore => exact h.usedBefore
  case next_le => exact h.next_le
  case nodup => exact hnodup
  case pending_held => exact hpending
  case isOpen =>
    intro fd' hfd'
    simpa [hentry fd' hfd'] using h.isOpen fd' (List.mem_cons_of_mem _ hfd')
  case origin =>
    intro fd' hfd'
    simp only [hentry fd' hfd']
    exact h.origin fd' (List.mem_cons_of_mem _ hfd')
  case calls => exact h.calls
  case new =>
    intro fd' hkept hrep
    refine (h.new fd' hkept hrep).imp_left fun hpend => ⟨hpend.1, ?_⟩
    simp only [hentry fd' (hpending fd' hpend.1)]
    exact hpend.2

/-! ## The calls -/

/-- The connection that `Accept` adds is new, and is still to be looked at. -/
theorem accept (h : w.Keeps held pending) (o : Accepted) :
    { w with
      descriptors := (accept w.descriptors o).1
      kept := w.kept ++ (accept w.descriptors o).2.toList.flatMap Connection.fds }.Keeps
        ((SelectLoop.accept w.descriptors o).2.toList.flatMap Connection.fds ++ held)
        ((SelectLoop.accept w.descriptors o).2.toList.flatMap Connection.fds ++ pending) := by
  cases o with
  | failed => simpa [SelectLoop.accept] using h
  | refused socket =>
      cases socket with
      | false => simpa [SelectLoop.accept] using h.drop
      | true =>
          have hentry : ∀ fd, ((w.descriptors.alloc.alloc.close w.descriptors.alloc.lowest).close
              w.descriptors.lowest).entry fd = w.descriptors.entry fd := by
            intro fd
            by_cases hfd : fd = w.descriptors.lowest
            · rw [hfd, Descriptors.entry_close_self, Descriptors.entry_lowest]
            · rw [Descriptors.entry_close_of_ne hfd, Descriptors.entry_close_alloc,
                Descriptors.entry_alloc_of_ne hfd]
          simpa [SelectLoop.accept] using h.same ((h.used.alloc.alloc.close _).close _)
            (Nat.le_add_right _ 2) hentry
  | connected =>
      have hboth := h.alloc.alloc.perm (List.Perm.swap _ _ _) _
        fun fd => (List.Perm.swap _ _ _).mem_iff
      simpa [SelectLoop.accept, Connection.fds] using hboth

/-- The servers of the proxies that an event adds are new, and are still to be looked at. -/
theorem openAll (h : w.Keeps held pending) (os : List Opening) :
    { w with
      descriptors := (SelectLoop.openAll w.descriptors os).1
      kept := w.kept ++ (SelectLoop.openAll w.descriptors os).2.map Proxy.server }.Keeps
        (held ++ (SelectLoop.openAll w.descriptors os).2.flatMap Proxy.fds)
        (pending ++ (SelectLoop.openAll w.descriptors os).2.flatMap Proxy.fds) := by
  induction os generalizing w held pending with
  | nil => simpa [SelectLoop.openAll] using h
  | cons o os ih =>
      cases o with
      | dropped => exact ih h.drop
      | listens =>
          have hrest := (ih h.alloc).perm List.perm_middle.symm _
            fun fd => List.perm_middle.symm.mem_iff
          simpa [SelectLoop.openAll, Proxy.fds] using hrest

theorem localEvent {c : Connection} (h : w.Keeps held (c.localClient :: pending)) (ok : Bool) :
    (w.localEvent c ok).1.Keeps held pending := by
  unfold World.localEvent
  split
  next hfd => exact h.call hfd .onLocalEvent
  next hfd => exact h.skip hfd

theorem remoteEvent {c : Connection} (h : w.Keeps held (c.remoteClient :: pending)) (ok : Bool)
    (os : List Opening) :
    (w.remoteEvent c ok os).1.Keeps (held ++ (w.remoteEvent c ok os).2.2.flatMap Proxy.fds)
      (pending ++ (w.remoteEvent c ok os).2.2.flatMap Proxy.fds) := by
  unfold World.remoteEvent
  split
  next hfd => exact (h.call hfd .onRemoteEvent).openAll os
  next hfd => simpa using h.skip hfd

/-- `select`, when everything that is held has been looked at. -/
theorem select (h : w.Keeps held pending) (reported : List Nat) :
    World.Keeps { w with before := w.descriptors, reported := reported, calls := [], kept := [] }
      held held where
  used := h.used
  usedBefore := h.used
  next_le := Nat.le_refl _
  nodup := h.nodup
  pending_held _ := id
  isOpen := h.isOpen
  origin _ _ := Or.inl rfl
  calls _ hc := absurd hc List.not_mem_nil
  new _ hkept := absurd hkept List.not_mem_nil

end World.Keeps

/-! ## The iterations -/

/-- The descriptors of the proxy, those that have been looked at and those that have not. -/
def Position.fds (pos : Position) : List Nat :=
  pos.server :: (pos.passed ++ pos.left).flatMap Connection.fds

def Position.ahead (pos : Position) : List Nat := pos.left.flatMap Connection.fds

namespace Iteration

/-- The descriptors of all proxies. -/
def held (s : Iteration) : List Nat :=
  s.done.flatMap Proxy.fds ++ s.current.elim [] Position.fds ++ s.todo.flatMap Proxy.fds

/-- The descriptors that the iteration has not looked at. -/
def pending (s : Iteration) : List Nat :=
  s.current.elim [] Position.ahead ++ s.todo.flatMap Proxy.fds

def Sound (s : Iteration) : Prop := s.Keeps s.held s.pending

theorem Sound.start {d : Descriptors} (hd : d.Used) : (start d).Sound where
  used := hd.alloc
  usedBefore := hd.alloc
  next_le := Nat.le_refl _
  nodup := List.nodup_cons.2 ⟨List.not_mem_nil, List.nodup_nil⟩
  pending_held _ hfd := absurd hfd List.not_mem_nil
  isOpen fd hfd := by
    obtain rfl : fd = d.lowest := List.mem_singleton.1 hfd
    exact Option.isSome_iff_exists.2 ⟨_, Descriptors.entry_alloc_self⟩
  origin _ _ := Or.inl rfl
  calls _ hc := absurd hc List.not_mem_nil
  new _ hkept := absurd hkept List.not_mem_nil

/-- `ProcessFdSet` looks at its server, and then has all connections of the proxy ahead. -/
theorem Sound.processServer {s : Iteration} (hs : s.Sound) {p : Proxy} {todo : List Proxy}
    (o : Accepted) (hcurrent : s.current = none) (htodo : s.todo = p :: todo) :
    Sound { s with
      toWorld := (s.toWorld.processServer p o).1
      current := some ⟨p.server, [], (s.toWorld.processServer p o).2⟩
      todo := todo } := by
  have hheld : s.held = s.done.flatMap Proxy.fds ++ p.server ::
      (p.connections.flatMap Connection.fds ++ todo.flatMap Proxy.fds) := by
    simp [held, hcurrent, htodo, Proxy.fds]
  have hpending : s.pending = p.server ::
      (p.connections.flatMap Connection.fds ++ todo.flatMap Proxy.fds) := by
    simp [pending, hcurrent, htodo, Proxy.fds]
  have hkeeps : s.Keeps _ _ := hs
  rw [hheld, hpending] at hkeeps
  unfold World.processServer
  split
  next hfd =>
    have haccept := (hkeeps.call hfd .accept).accept o
    refine haccept.perm ?_ _ fun fd => ?_
    · refine List.perm_iff_count.2 fun fd => ?_
      simp only [held, World.call, Option.elim, Position.fds, List.nil_append,
        List.flatMap_append, List.count_append, List.count_cons]
      omega
    · simp only [pending, Option.elim, Position.ahead, List.flatMap_append, List.mem_append]
      exact or_left_comm.trans or_assoc.symm
  next hfd =>
    have hskip := hkeeps.skip hfd
    simpa [Sound, held, pending, Position.fds, Position.ahead] using hskip

/-- The calls for a connection, and its destruction. -/
theorem Sound.visit {s : Iteration} (hs : s.Sound) {pos : Position} {c : Connection}
    {left : List Connection} (okLocal okRemote : Bool) (os : List Opening)
    (hcurrent : s.current = some pos) (hleft : pos.left = c :: left) :
    (s.visit pos c left okLocal okRemote os).Sound := by
  have hkeeps : s.Keeps s.held (c.localClient :: c.remoteClient ::
      (left.flatMap Connection.fds ++ s.todo.flatMap Proxy.fds)) := by
    -- the two sockets of the connection are the next ones to be looked at
    have hpending : s.pending = c.localClient :: c.remoteClient ::
        (left.flatMap Connection.fds ++ s.todo.flatMap Proxy.fds) := by
      simp [pending, hcurrent, Position.ahead, hleft, Connection.fds]
    exact hpending ▸ hs
  have hheld : s.held.Perm (c.remoteClient :: c.localClient :: (s.done.flatMap Proxy.fds ++
      pos.server :: (pos.passed.flatMap Connection.fds ++ left.flatMap Connection.fds) ++
      s.todo.flatMap Proxy.fds)) := by
    refine List.perm_iff_count.2 fun fd => ?_
    simp only [held, hcurrent, hleft, Option.elim, Position.fds, Connection.fds,
      List.flatMap_append, List.flatMap_cons, List.count_append, List.count_cons, List.count_nil]
    omega
  have hlook := (hkeeps.localEvent okLocal).remoteEvent okRemote os
  unfold Iteration.visit
  dsimp only
  split
  -- both calls succeed, so the connection has been passed
  next hok =>
    refine hlook.perm ?_ _ fun fd => ?_
    · refine List.perm_iff_count.2 fun fd => ?_
      simp only [held, hcurrent, hleft, Option.elim, Position.fds, Connection.fds,
        List.flatMap_append, List.flatMap_cons, List.flatMap_nil, List.count_append,
        List.count_cons, List.count_nil]
      omega
    · simp only [pending, Option.elim, Position.ahead, List.flatMap_append, List.mem_append]
      exact or_assoc
  -- one of them fails: both sockets are closed, and neither is looked at again
  next hok =>
    have hrest := hlook.perm (hheld.append_right _) _ fun fd => Iff.rfl
    have hclosed := (hrest.close fun fd hfd => ?_).close fun fd hfd => ?_
    · refine hclosed.perm ?_ _ fun fd => ?_
      · refine List.perm_iff_count.2 fun fd => ?_
        simp only [held, Option.elim, Position.fds, List.append_eq, List.flatMap_append,
          List.count_append, List.count_cons]
        omega
      · simp only [pending, Option.elim, Position.ahead, List.flatMap_append, List.mem_append]
        exact or_assoc
    · simp only [List.mem_append] at hfd
      simp only [List.append_eq, List.mem_cons, List.mem_append]
      exact hfd.imp_left fun h => Or.inr (h.imp_left fun hl => Or.inr (Or.inr (Or.inr hl)))
    · simp only [List.mem_append] at hfd
      simp only [List.append_eq, List.mem_cons, List.mem_append]
      exact hfd.imp_left (Or.imp_left fun hl => Or.inr (Or.inr (Or.inr hl)))

theorem Sound.next {s : Iteration} (hs : s.Sound) {pos : Position}
    (hcurrent : s.current = some pos) (hleft : pos.left = []) :
    Sound { s with done := s.done ++ [⟨pos.server, pos.passed⟩], current := none } := by
  have hkeeps : s.Keeps s.held s.pending := hs
  simpa [Sound, held, pending, hcurrent, hleft, Position.fds, Position.ahead, Proxy.fds]
    using hkeeps

theorem Sound.step {s s' : Iteration} (hs : s.Sound) (h : Step s s') : s'.Sound := by
  cases h with
  | processServer o hcurrent htodo => exact hs.processServer o hcurrent htodo
  | visit okLocal okRemote os hcurrent hleft => exact hs.visit okLocal okRemote os hcurrent hleft
  | next hcurrent hleft => exact hs.next hcurrent hleft
  | select reported hfinished _ =>
      have hkeeps : s.Keeps s.held s.pending := hs
      simpa [Sound, held, pending, hfinished.1, hfinished.2] using hkeeps.select reported

theorem Reachable.sound {s : Iteration} (h : Reachable s) : s.Sound := by
  induction h with
  | start hd => exact Sound.start hd
  | step _ hstep ih => exact ih.step hstep

end Iteration

/-! ## When every call is for a socket that was ready -/

/-- No socket that was opened in the iteration, and kept, got a number that `select` has reported.
-/
def World.Fresh (w : World) : Prop := ∀ fd ∈ w.kept, fd ∉ w.reported

open Iteration

theorem ready_iff {s : Iteration} (h : s.Reachable) :
    (s.Fresh → ∀ c ∈ s.calls, s.WasReady c) ∧
      (s.Finished → (∀ c ∈ s.calls, s.WasReady c) → s.Fresh) := by
  have hsound : s.Keeps s.held s.pending := h.sound
  constructor
  · intro hfresh c hc
    obtain ⟨hrep, hready | hnew⟩ := hsound.calls c hc
    · exact hready
    · exact absurd hrep (hfresh c.fd hnew.1)
  · intro hfinished hready fd hkept hrep
    have hpending : s.pending = [] := by simp [pending, hfinished.1, hfinished.2]
    rcases hsound.new fd hkept hrep with hpend | ⟨c, hc, rfl, id, hid, hle⟩
    · exact absurd (hpending ▸ hpend.1) List.not_mem_nil
    · obtain ⟨-, id', hentry, hid'⟩ := hready c hc
      obtain rfl : id = id' := Option.some.inj (hid.symm.trans hid')
      exact absurd (hsound.usedBefore c.fd id hentry) (Nat.not_lt.2 hle)

/-- The standard descriptors. -/
def standard : Descriptors := ⟨[some 0, some 1, some 2], 3⟩

theorem standard_used : standard.Used := by
  intro fd id h
  match fd with
  | 0 | 1 | 2 => cases h; decide
  | fd + 3 => simp [standard, Descriptors.entry] at h

/-- An iteration that has accepted a connection. -/
def accepted : Iteration where
  before := ⟨[some 0, some 1, some 2, some 3], 4⟩
  reported := [3]
  descriptors := ⟨[some 0, some 1, some 2, some 3, some 4, some 5], 6⟩
  calls := [⟨.accept, 3, some 3⟩]
  kept := [4, 5]
  done := [⟨3, [⟨4, 5⟩]⟩]
  current := none
  todo := []

theorem reachable_accepted : Reachable accepted := by
  have hrun := ((((Reachable.start standard_used).step (.select [3] ⟨rfl, rfl⟩ (by decide))).step
    (.processServer .connected rfl rfl)).step (.visit true true [] rfl rfl)).step (.next rfl rfl)
  exact hrun

theorem ready_iff_accepted :
    accepted.Finished ∧ accepted.Fresh ∧ accepted.WasReady ⟨.accept, 3, some 3⟩ := by
  have hfresh : accepted.Fresh := by
    unfold World.Fresh
    decide
  exact ⟨⟨rfl, rfl⟩, hfresh, (ready_iff reachable_accepted).1 hfresh _ List.mem_cons_self⟩

/-- Two connections, of which the first is closed while the second adds a proxy: its server gets the
number of the local client that was closed, which is in the set. -/
theorem calls_unready : ¬ ∀ s : Iteration, s.Reachable → ∀ c ∈ s.calls, s.WasReady c := by
  intro hall
  have hsecond := ((((reachable_accepted.step (.select [3] ⟨rfl, rfl⟩ (by decide))).step
    (.processServer .connected rfl rfl)).step (.visit true true [] rfl rfl)).step
    (.visit true true [] rfl rfl)).step (.next rfl rfl)
  have hthird := (((((hsecond.step (.select [4, 7] ⟨rfl, rfl⟩ (by decide))).step
    (.processServer .failed rfl rfl)).step (.visit false true [] rfl rfl)).step
    (.visit true true [.listens] rfl rfl)).step (.next rfl rfl)).step
    (.processServer .failed rfl rfl)
  obtain ⟨-, id, hbefore, hsocket⟩ := hall _ hthird ⟨.accept, 4, some 8⟩ (by decide)
  exact absurd (hbefore.trans hsocket.symm) (by decide)

end OpenRom.SelectLoop
