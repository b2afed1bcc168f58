import OpenRom.Library.Ownership
import OpenRom.Proxy.SelectLoop

/-!
# Descriptors over a run

What the proxies hold is all that a run has added to the descriptors it started with: nothing is
left open by a connection that has ended or by an attempt that has failed, and nothing else is
closed (`Iteration.Run.owned`). The numbers stay below a bound that depends on how much is held at
one time only, so that `FillFdSet` never goes behind the end of a set (`Iteration.Run.fillFdSets`).
-/

set_option autoImplicit false

namespace OpenRom.SelectLoop

/-! ## Sets of descriptors -/

/-- The numbers in an `fd_set` are smaller. -/
def FD_SETSIZE : Nat := 1024

/-- `FD_SET`; there is no result when it writes behind the end of the set. -/
def fdSet (fd : Nat) (fds : List Nat) : Option (List Nat) :=
  if fd < FD_SETSIZE then some (if fd ∈ fds then fds else fds ++ [fd]) else none

/-- The body of the loop of `FillFdSet`. -/
def Connection.fillFdSet (c : Connection) (max_fd : Nat) (fds : List Nat) :
    Option (Nat × List Nat) := do
  let fds ← fdSet c.localClient fds
  let fds ← fdSet c.remoteClient fds
  let max_fd := if c.localClient > max_fd then c.localClient else max_fd
  let max_fd := if c.remoteClient > max_fd then c.remoteClient else max_fd
  return (max_fd, fds)

/-- The loop of `FillFdSet`. -/
def fillConnections (max_fd : Nat) (fds : List Nat) : List Connection → Option (Nat × List Nat)
  | [] => some (max_fd, fds)
  | c :: cs => do
      let (max_fd, fds) ← c.fillFdSet max_fd fds
      fillConnections max_fd fds cs

/-- `Proxy::FillFdSet` -/
def Proxy.fillFdSet (p : Proxy) (max_fd : Nat) (fds : List Nat) : Option (Nat × List Nat) := do
  let fds ← fdSet p.server fds
  fillConnections (if p.server > max_fd then p.server else max_fd) fds p.connections

/-- The loop of `Run` in front of `select`. -/
def fillFdSets (max_fd : Nat) (fds : List Nat) : List Proxy → Option (Nat × List Nat)
  | [] => some (max_fd, fds)
  | p :: ps => do
      let (max_fd, fds) ← p.fillFdSet max_fd fds
      fillFdSets max_fd fds ps

/-- The set has these numbers more, and the maximum is that of all. -/
def Fills (added : List Nat) (max_fd : Nat) (fds : List Nat) (r : Option (Nat × List Nat)) : Prop :=
  ∃ max_fd' fds', r = some (max_fd', fds') ∧ (∀ fd, fd ∈ fds' ↔ fd ∈ fds ∨ fd ∈ added) ∧
    max_fd ≤ max_fd' ∧ ∀ fd ∈ added, fd ≤ max_fd'

theorem mem_fdSet (fds : List Nat) {fd : Nat} (hfd : fd < FD_SETSIZE) :
    ∃ fds', fdSet fd fds = some fds' ∧ ∀ fd', fd' ∈ fds' ↔ fd' ∈ fds ∨ fd' = fd := by
  refine ⟨_, if_pos hfd, fun fd' => ?_⟩
  by_cases hmem : fd ∈ fds
  · rw [if_pos hmem]
    refine ⟨Or.inl, fun h => h.elim id ?_⟩
    rintro rfl
    exact hmem
  · rw [if_neg hmem, List.mem_append, List.mem_singleton]

theorem Fills.trans {added added' : List Nat} {max_fd : Nat} {fds : List Nat}
    {r : Option (Nat × List Nat)} {next : Nat → List Nat → Option (Nat × List Nat)}
    (h : Fills added max_fd fds r)
    (hnext : ∀ max_fd fds, Fills added' max_fd fds (next max_fd fds)) :
    Fills (added ++ added') max_fd fds (r.bind fun x => next x.1 x.2) := by
  obtain ⟨max₁, fds₁, rfl, hmem₁, hle₁, hall₁⟩ := h
  obtain ⟨max₂, fds₂, hr, hmem₂, hle₂, hall₂⟩ := hnext max₁ fds₁
  refine ⟨max₂, fds₂, hr, fun fd => ?_, Nat.le_trans hle₁ hle₂, ?_⟩
  · rw [hmem₂, hmem₁, List.mem_append, or_assoc]
  · exact List.forall_mem_append.2 ⟨fun fd hfd => Nat.le_trans (hall₁ fd hfd) hle₂, hall₂⟩

theorem le_max_fd (max_fd fd : Nat) : max_fd ≤ (if fd > max_fd then fd else max_fd) ∧
    fd ≤ (if fd > max_fd then fd else max_fd) := by
  split
  next hgt => exact ⟨Nat.le_of_lt hgt, Nat.le_refl _⟩
  next hle => exact ⟨Nat.le_refl _, Nat.le_of_not_lt hle⟩

theorem Connection.fills {c : Connection} (hc : ∀ fd ∈ c.fds, fd < FD_SETSIZE) (max_fd : Nat)
    (fds : List Nat) : Fills c.fds max_fd fds (c.fillFdSet max_fd fds) := by
  obtain ⟨fds₁, h₁, hmem₁⟩ := mem_fdSet fds (hc c.localClient List.mem_cons_self)
  obtain ⟨fds₂, h₂, hmem₂⟩ := mem_fdSet fds₁
    (hc c.remoteClient (List.mem_cons_of_mem _ List.mem_cons_self))
  have hlocal := le_max_fd max_fd c.localClient
  have hremote := le_max_fd (if c.localClient > max_fd then c.localClient else max_fd)
    c.remoteClient
  refine ⟨_, fds₂, by simp [fillFdSet, h₁, h₂], fun fd => ?_,
    Nat.le_trans hlocal.1 hremote.1, ?_⟩
  · simp only [hmem₂, hmem₁, Connection.fds, List.mem_cons, List.not_mem_nil, or_false, or_assoc]
  · exact List.forall_mem_cons.2 ⟨Nat.le_trans hlocal.2 hremote.1,
      List.forall_mem_singleton.2 hremote.2⟩

theorem fills_connections {cs : List Connection}
    (hcs : ∀ fd ∈ cs.flatMap Connection.fds, fd < FD_SETSIZE) (max_fd : Nat) (fds : List Nat) :
    Fills (cs.flatMap Connection.fds) max_fd fds (fillConnections max_fd fds cs) := by
  induction cs generalizing max_fd fds with
  | nil => exact ⟨max_fd, fds, rfl, by simp, Nat.le_refl _, List.forall_mem_nil _⟩
  | cons c cs ih =>
      rw [List.flatMap_cons] at hcs ⊢
      obtain ⟨hc, hcs⟩ := List.forall_mem_append.1 hcs
      exact (c.fills hc max_fd fds).trans (ih hcs)

theorem Proxy.fills {p : Proxy} (hp : ∀ fd ∈ p.fds, fd < FD_SETSIZE) (max_fd : Nat)
    (fds : List Nat) : Fills p.fds max_fd fds (p.fillFdSet max_fd fds) := by
  obtain ⟨hserver, hcs⟩ := List.forall_mem_cons.1 hp
  obtain ⟨fds₁, h₁, hmem₁⟩ := mem_fdSet fds hserver
  have hmax := le_max_fd max_fd p.server
  have hfirst : Fills [p.server] max_fd fds
      (some (if p.server > max_fd then p.server else max_fd, fds₁)) :=
    ⟨_, fds₁, rfl, fun fd => by rw [hmem₁, List.mem_singleton], hmax.1,
      List.forall_mem_singleton.2 hmax.2⟩
  have hall := hfirst.trans (fills_connections hcs)
  simp only [fillFdSet, h₁]
  exact hall

/-- The set that is handed to `select` has the descriptors of all proxies, and `select` looks at
all of them. -/
theorem fills_proxies {ps : List Proxy} (hps : ∀ fd ∈ ps.flatMap Proxy.fds, fd < FD_SETSIZE)
    (max_fd : Nat) (fds : List Nat) :
    Fills (ps.flatMap Proxy.fds) max_fd fds (fillFdSets max_fd fds ps) := by
  induction ps generalizing max_fd fds with
  | nil => exact ⟨max_fd, fds, rfl, by simp, Nat.le_refl _, List.forall_mem_nil _⟩
  | cons p ps ih =>
      rw [List.flatMap_cons] at hps ⊢
      obtain ⟨hp, hps⟩ := List.forall_mem_append.1 hps
      exact (p.fills hp max_fd fds).trans (ih hps)

/-! ## What the calls keep -/

/-- The descriptors that are held are owned, and their numbers are smaller than the bound. -/
structure Holds (start : Descriptors) (bound : Nat) (d : Descriptors) (held : List Nat) : Prop
    extends start.Owned d held where
  lt : ∀ fd ∈ held, fd < bound

namespace Holds

variable {start d : Descriptors} {bound : Nat} {held : List Nat}

theorem perm {held' : List Nat} (h : Holds start bound d held) (hheld : held.Perm held') :
    Holds start bound d held' := ⟨h.toOwned.perm hheld, fun fd hfd => h.lt fd (hheld.mem_iff.2 hfd)⟩

theorem alloc (h : Holds start bound d held) (hlt : start.count + held.length < bound) :
    Holds start bound d.alloc (d.lowest :: held) :=
  ⟨h.toOwned.alloc, List.forall_mem_cons.2 ⟨Nat.lt_of_le_of_lt h.lowest_le hlt, h.lt⟩⟩

theorem close {fd : Nat} (h : Holds start bound d (fd :: held)) :
    Holds start bound (d.close fd) held :=
  ⟨h.toOwned.close, fun fd' hfd' => h.lt fd' (List.mem_cons_of_mem _ hfd')⟩

theorem drop (h : Holds start bound d held) :
    Holds start bound (d.alloc.close d.lowest) held := ⟨h.toOwned.drop, h.lt⟩

/-- `Server::Accept` adds a connection, or leaves nothing behind. -/
theorem accept (h : Holds start bound d held) (o : Accepted)
    (hlen : start.count + ((accept d o).2.toList.flatMap Connection.fds ++ held).length ≤ bound) :
    Holds start bound (SelectLoop.accept d o).1
      ((SelectLoop.accept d o).2.toList.flatMap Connection.fds ++ held) := by
  cases o with
  | failed => exact h
  | refused socket =>
      cases socket with
      | false => exact h.drop
      | true =>
          -- what the attempt at a connection has opened is closed before what was accepted
          exact ⟨h.toOwned.alloc.drop.close, h.lt⟩
  | connected =>
      have hlen : start.count + (held.length + 2) ≤ bound := hlen
      have hboth := (h.alloc (by omega)).alloc (by rw [List.length_cons]; omega)
      exact hboth.perm (List.Perm.swap _ _ _)

/-- An event adds the servers of new proxies, and nothing else. -/
theorem openAll (h : Holds start bound d held) (os : List Opening)
    (hlen : start.count + (held ++ (openAll d os).2.flatMap Proxy.fds).length ≤ bound) :
    Holds start bound (SelectLoop.openAll d os).1
      (held ++ (SelectLoop.openAll d os).2.flatMap Proxy.fds) := by
  induction os generalizing d held with
  | nil => simpa [SelectLoop.openAll] using h
  | cons o os ih =>
      cases o with
      | dropped => exact ih h.drop hlen
      | listens =>
          have hperm : (d.lowest :: held ++ (SelectLoop.openAll d.alloc os).2.flatMap
              Proxy.fds).Perm (held ++ (SelectLoop.openAll d (.listens :: os)).2.flatMap
                Proxy.fds) := List.perm_middle.symm
          rw [← hperm.length_eq] at hlen
          have hlt : start.count + held.length < bound := by
            rw [List.length_append, List.length_cons] at hlen
            omega
          exact (ih (h.alloc hlt) hlen).perm hperm

end Holds

/-! ## Runs -/

namespace Iteration

/-- What can happen from a table of descriptors on, as long as no more than `n` descriptors are held
at one time. -/
inductive Run (start : Descriptors) (n : Nat) : Iteration → Prop
  | start : Run start n (Iteration.start start)
  | step {s s' : Iteration} : Run start n s → Step s s' → s'.held.length ≤ n → Run start n s'

variable {start : Descriptors} {n : Nat}

theorem Run.reachable {s : Iteration} (hstart : start.Used) (h : Run start n s) : s.Reachable := by
  induction h with
  | start => exact .start hstart
  | step _ hstep _ ih => exact ih.step hstep

/-- The bound leaves room for the connection that is destroyed when its event has added proxies. -/
def Sparing (start : Descriptors) (n : Nat) (s : Iteration) : Prop :=
  Holds start (start.count + n + 2) s.descriptors s.held

theorem Sparing.processServer {s : Iteration} (h : Sparing start n s) {p : Proxy}
    {todo : List Proxy} (o : Accepted) (hcurrent : s.current = none) (htodo : s.todo = p :: todo)
    {s' : Iteration} (hs' : s' = { s with
      toWorld := (s.toWorld.processServer p o).1
      current := some ⟨p.server, [], (s.toWorld.processServer p o).2⟩
      todo := todo }) (hlen : s'.held.length ≤ n) : Sparing start n s' := by
  subst hs'
  unfold World.processServer at hlen ⊢
  split
  next hfd =>
    rw [if_pos hfd] at hlen
    have hperm : ((accept s.descriptors o).2.toList.flatMap Connection.fds ++ s.held).Perm
        (held { s with
          toWorld := { s.toWorld.call .accept p.server with
            descriptors := (accept s.descriptors o).1
            kept := s.kept ++ (accept s.descriptors o).2.toList.flatMap Connection.fds }
          current := some ⟨p.server, [], p.connections ++ (accept s.descriptors o).2.toList⟩
          todo := todo }) := by
      refine List.perm_iff_count.2 fun fd => ?_
      simp only [held, hcurrent, htodo, Option.elim, Position.fds, Proxy.fds, List.nil_append,
        List.flatMap_append, List.flatMap_cons, List.count_append, List.count_cons,
        List.count_nil]
      omega
    refine (Holds.accept h o ?_).perm hperm
    rw [hperm.length_eq]
    exact Nat.le_trans (Nat.add_le_add_left hlen _) (Nat.le_add_right _ 2)
  next hfd => simpa [Sparing, held, hcurrent, htodo, Proxy.fds, Position.fds] using h

/-- What is held when the calls for a connection have been made. -/
theorem perm_visit {s : Iteration} {pos : Position} {c : Connection} {left : List Connection}
    (added : List Proxy) (hcurrent : s.current = some pos) (hleft : pos.left = c :: left) :
    (s.held ++ added.flatMap Proxy.fds).Perm
      (c.remoteClient :: c.localClient :: (s.done.flatMap Proxy.fds ++ pos.server ::
        (pos.passed ++ left).flatMap Connection.fds ++ (s.todo ++ added).flatMap Proxy.fds)) := by
  refine List.perm_iff_count.2 fun fd => ?_
  simp only [held, hcurrent, hleft, Option.elim, Position.fds, Connection.fds,
    List.flatMap_append, List.flatMap_cons, List.count_append, List.count_cons, List.count_nil]
  omega

theorem Sparing.visit {s : Iteration} (h : Sparing start n s) {pos : Position} {c : Connection}
    {left : List Connection} (okLocal okRemote : Bool) (os : List Opening)
    (hcurrent : s.current = some pos) (hleft : pos.left = c :: left)
    (hlen : (s.visit pos c left okLocal okRemote os).held.length ≤ n) :
    Sparing start n (s.visit pos c left okLocal okRemote os) := by
  have hlocal : (s.localEvent c okLocal).1.descriptors = s.descriptors := by
    unfold World.localEvent
    split <;> rfl
  have hperm := perm_visit ((s.localEvent c okLocal).1.remoteEvent c okRemote os).2.2 hcurrent hleft
  -- everything that is held when the calls have been made
  have hcalls : start.count + (s.held ++ ((s.localEvent c okLocal).1.remoteEvent c okRemote
      os).2.2.flatMap Proxy.fds).length ≤ start.count + n + 2 →
      Holds start (start.count + n + 2)
        ((s.localEvent c okLocal).1.remoteEvent c okRemote os).1.descriptors
        (s.held ++ ((s.localEvent c okLocal).1.remoteEvent c okRemote os).2.2.flatMap
          Proxy.fds) := by
    unfold World.remoteEvent
    split
    next hfd =>
      intro hroom
      simp only [hlocal] at hroom ⊢
      exact Holds.openAll h os hroom
    next hfd =>
      intro _
      simp only [hlocal, List.flatMap_nil, List.append_nil]
      exact h
  unfold Iteration.visit at hlen ⊢
  dsimp only at hlen ⊢
  split
  next hok =>
    rw [if_pos hok] at hlen
    have hheld : (s.held ++ ((s.localEvent c okLocal).1.remoteEvent c okRemote os).2.2.flatMap
        Proxy.fds).Perm (held { s with
          toWorld := ((s.localEvent c okLocal).1.remoteEvent c okRemote os).1
          current := some ⟨pos.server, pos.passed ++ [c], left⟩
          todo := s.todo ++ ((s.localEvent c okLocal).1.remoteEvent c okRemote os).2.2 }) := by
      refine hperm.trans (List.perm_iff_count.2 fun fd => ?_)
      simp only [held, Option.elim, Position.fds, Connection.fds, List.flatMap_append,
        List.flatMap_cons, List.flatMap_nil, List.count_append, List.count_cons, List.count_nil]
      omega
    refine (hcalls ?_).perm hheld
    rw [hheld.length_eq]
    exact Nat.le_trans (Nat.add_le_add_left hlen _) (Nat.le_add_right _ 2)
  next hok =>
    rw [if_neg hok] at hlen
    refine ((hcalls ?_).perm hperm).close.close
    rw [hperm.length_eq]
    exact Nat.add_le_add_left (Nat.add_le_add_right hlen 2) _

theorem Sparing.step {s s' : Iteration} (h : Sparing start n s) (hstep : Step s s')
    (hlen : s'.held.length ≤ n) : Sparing start n s' := by
  cases hstep with
  | processServer o hcurrent htodo => exact h.processServer o hcurrent htodo rfl hlen
  | visit okLocal okRemote os hcurrent hleft =>
      exact h.visit okLocal okRemote os hcurrent hleft hlen
  | next hcurrent hleft =>
      simpa [Sparing, held, hcurrent, hleft, Position.fds, Proxy.fds] using h
  | select reported hfinished _ =>
      simpa [Sparing, held, hfinished.1, hfinished.2] using h

theorem Run.sparing {s : Iteration} (h : Run start n s) : Sparing start n s := by
  induction h with
  | start =>
      have hnone : Holds start (start.count + n + 2) start [] :=
        ⟨Descriptors.Owned.refl start, List.forall_mem_nil _⟩
      exact hnone.alloc (Nat.lt_of_le_of_lt (Nat.le_add_right _ n) (Nat.lt_add_of_pos_right
        Nat.zero_lt_two))
  | step _ hstep hlen ih => exact ih.step hstep hlen

/-- In every state of a run the proxies hold, each once, what is open now and was not at the start,
and the rest is as it was. When the bound is not above `FD_SETSIZE`, every `FillFdSet` stays inside
of the set, and `select` is given, and looks at, the descriptors of the proxies. -/
theorem Run.owns {s : Iteration} (h : Run start n s) :
    (s.held.Nodup ∧
      (∀ fd ∈ s.held, (s.descriptors.entry fd).isSome ∧ start.entry fd = none) ∧
      ∀ fd, fd ∉ s.held → s.descriptors.entry fd = start.entry fd) ∧
    (start.count + n + 2 ≤ FD_SETSIZE → s.Finished →
      ∃ max_fd fds, fillFdSets 0 [] s.done = some (max_fd, fds) ∧
        ∀ fd, fd ∈ fds ∧ fd < max_fd + 1 ↔ fd ∈ s.held) := by
  have hsparing : Holds start (start.count + n + 2) s.descriptors s.held := h.sparing
  refine ⟨⟨hsparing.nodup, fun fd hfd => ⟨hsparing.isOpen fd hfd, hsparing.isNew fd hfd⟩,
    hsparing.frame⟩, fun hbound hfinished => ?_⟩
  have hheld : s.held = s.done.flatMap Proxy.fds := by simp [held, hfinished.1, hfinished.2]
  have hlt : ∀ fd ∈ s.done.flatMap Proxy.fds, fd < FD_SETSIZE := fun fd hfd =>
    Nat.lt_of_lt_of_le (hsparing.lt fd (hheld ▸ hfd)) hbound
  obtain ⟨max_fd, fds, hfill, hmem, -, hle⟩ := fills_proxies hlt 0 []
  refine ⟨max_fd, fds, hfill, fun fd => ?_⟩
  have hin : fd ∈ fds ↔ fd ∈ s.held := by
    rw [hmem, hheld]
    exact or_iff_right List.not_mem_nil
  exact ⟨fun hfd => hin.1 hfd.1, fun hfd => ⟨hin.2 hfd, Nat.lt_succ_of_le (hle fd (hheld ▸ hfd))⟩⟩

/-- An iteration in which the connection that had been accepted has ended. -/
def ended : Iteration where
  before := accepted.descriptors
  reported := [4]
  descriptors := ⟨[some 0, some 1, some 2, some 3, none, none], 6⟩
  calls := [⟨.onLocalEvent, 4, some 4⟩]
  kept := []
  done := [⟨3, []⟩]
  current := none
  todo := []

theorem run_accepted : Run standard 3 accepted := by
  have hrun := ((((@Run.start standard 3).step (.select [3] ⟨rfl, rfl⟩ (by decide))
    (by decide)).step (.processServer .connected rfl rfl) (by decide)).step
    (.visit true true [] rfl rfl) (by decide)).step (.next rfl rfl) (by decide)
  exact hrun

theorem run_ended : Run standard 3 ended := by
  have hrun := (((run_accepted.step (.select [4] ⟨rfl, rfl⟩ (by decide)) (by decide)).step
    (.processServer .failed rfl rfl) (by decide)).step
    (.visit false true [] rfl rfl) (by decide)).step (.next rfl rfl) (by decide)
  exact hrun

theorem Run.owns_ended : ended.held = [3] ∧ ended.descriptors.entry 4 = none ∧
    ∃ max_fd fds, fillFdSets 0 [] ended.done = some (max_fd, fds) ∧
      ∀ fd, fd ∈ fds ∧ fd < max_fd + 1 ↔ fd ∈ [3] :=
  ⟨rfl, (Run.owns run_ended).1.2.2 4 (by decide), (Run.owns run_ended).2 (by decide) ⟨rfl, rfl⟩⟩

end Iteration

end OpenRom.SelectLoop
