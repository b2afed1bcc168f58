import OpenRom.Library.LittleEndian
import OpenRom.Proxy.ProxiedConnection
import Mathlib.Data.List.Nodup

/-!
# The proxies of a program run

`ROMProxy` keeps a proxy for each server that it knows of, and makes a new one, on the next port,
for an address that it does not know. The address to bind to is that of the login proxy with the
port counted up, also by attempts that fail. As long as the ports do not run out, no two proxies
share a remote address or a local port, and a known address gets the proxy that it has
(`run_distinct`).
-/

set_option autoImplicit false

namespace OpenRom

/-! ## Addresses -/

def AF_INET : Int := 2

/-- `Address`, one that has been resolved: what `m_sockaddr` holds, and how much of it counts. -/
structure Address where
  sockaddr : List UInt8
  socklen : Nat
  family : Int
  socktype : Int
  protocol : Int
  fits : socklen ≤ 16 ∧ sockaddr.length = 16
  deriving DecidableEq, Repr

namespace Address

/-- The number in some bytes in network order. -/
def ntoh (bs : List UInt8) : Nat := LittleEndian.decode bs.reverse

/-- `GetIPv4Address` -/
def getIPv4Address (a : Address) : UInt32 × UInt16 :=
  if a.family = AF_INET then
    (.ofNat (ntoh ((a.sockaddr.drop 4).take 4)), .ofNat (ntoh ((a.sockaddr.drop 2).take 2)))
  else (0, 0)

/-- `sin_port = htons(port)` -/
def withPort (a : Address) (port : UInt16) : Address where
  sockaddr := a.sockaddr.take 2 ++ (LittleEndian.encode 2 port.toNat).reverse ++ a.sockaddr.drop 4
  socklen := a.socklen
  family := a.family
  socktype := a.socktype
  protocol := a.protocol
  fits := ⟨a.fits.1, by simp [a.fits.2]⟩

/-- `SetPort`, which asserts that the address is an IPv4 address. -/
def setPort (a : Address) (port : UInt16) : Option Address :=
  if a.family = AF_INET then some (a.withPort port) else none

/-- `operator==` -/
def same (a b : Address) : Bool :=
  if a.socklen ≠ b.socklen ∨ a.family ≠ b.family ∨ a.socktype ≠ b.socktype ∨
      a.protocol ≠ b.protocol then false
  else a.sockaddr.take a.socklen == b.sockaddr.take a.socklen

/-- What `operator==` compares. -/
def value (a : Address) : Nat × Int × Int × Int × List UInt8 :=
  (a.socklen, a.family, a.socktype, a.protocol, a.sockaddr.take a.socklen)

theorem same_iff {a b : Address} : a.same b = true ↔ a.value = b.value := by
  unfold same value
  by_cases h : a.socklen ≠ b.socklen ∨ a.family ≠ b.family ∨ a.socktype ≠ b.socktype ∨
      a.protocol ≠ b.protocol
  · rw [if_pos h]
    refine iff_of_false Bool.false_ne_true fun heq => ?_
    simp only [Prod.mk.injEq] at heq
    obtain ⟨h₁, h₂, h₃, h₄, -⟩ := heq
    exact h.elim (· h₁) fun h => h.elim (· h₂) fun h => h.elim (· h₃) (· h₄)
  · rw [if_neg h]
    simp only [not_or, not_not] at h
    obtain ⟨h₁, h₂, h₃, h₄⟩ := h
    simp [h₁, h₂, h₃, h₄]

/-- The port of an IPv4 address. -/
def port (a : Address) : UInt16 := a.getIPv4Address.2

theorem port_withPort {a : Address} (h : a.family = AF_INET) (port : UInt16) :
    (a.withPort port).port = port := by
  have hbytes : ((a.withPort port).sockaddr.drop 2).take 2 =
      (LittleEndian.encode 2 port.toNat).reverse := by
    have hfits := a.fits.2
    have htake : (a.sockaddr.take 2).length = 2 := by simp [hfits]
    show (((a.sockaddr.take 2 ++ (LittleEndian.encode 2 port.toNat).reverse) ++
      a.sockaddr.drop 4).drop 2).take 2 = _
    rw [List.append_assoc, List.drop_left' htake, List.take_left' (by simp)]
  have hfamily : (a.withPort port).family = AF_INET := h
  have hnumber : ntoh (LittleEndian.encode 2 port.toNat).reverse = port.toNat := by
    rw [ntoh, List.reverse_reverse, LittleEndian.decode_encode port.toNat_lt]
  rw [Address.port, getIPv4Address, if_pos hfamily, hbytes, hnumber, UInt16.ofNat_toNat]

end Address

/-! ## The registry -/

/-- `Proxy`: where it listens, and where it connects to. -/
structure Proxy where
  localAddress : Address
  remoteAddress : Address
  deriving DecidableEq, Repr

namespace ROMProxy

/-- `m_proxies` and `m_BindAddress` -/
structure Registry where
  proxies : List Proxy
  bindAddress : Address
  deriving DecidableEq, Repr

namespace Registry

/-- What `Run` registers before its loop: the login proxy, and where it listens. -/
def start (localserverAddress loginserverAddress : Address) : Registry where
  proxies := [⟨localserverAddress, loginserverAddress⟩]
  bindAddress := localserverAddress

/-- `GetNextBindAddress` -/
def getNextBindAddress (r : Registry) : Option (Address × Registry) := do
  let (_, port) := r.bindAddress.getIPv4Address
  let bindAddress ← r.bindAddress.setPort (port + 1)
  return (bindAddress, { r with bindAddress })

/-- `GetProxyForAddress`; `initialized` is what the `Initialize` of a new proxy returns. -/
def getProxyForAddress (r : Registry) (address : Address) (initialized : Bool) :
    Option (Option Proxy × Registry) :=
  match r.proxies.find? fun proxy => proxy.remoteAddress.same address with
  | some proxy => some (some proxy, r)
  | none => do
      -- not found; make a new one
      let (bindAddress, r) ← r.getNextBindAddress
      let proxy : Proxy := ⟨bindAddress, address⟩
      if initialized then return (some proxy, { r with proxies := r.proxies ++ [proxy] })
      else return (none, r)

/-- A sequence of calls. -/
def run (r : Registry) : List (Address × Bool) → Option Registry
  | [] => some r
  | (address, initialized) :: calls =>
      match r.getProxyForAddress address initialized with
      | none => none
      | some (_, r) => r.run calls

/-- There is a proxy for the address. -/
def Proxied (r : Registry) (address : Address) : Prop :=
  ∃ proxy ∈ r.proxies, proxy.remoteAddress.same address = true

instance (r : Registry) (address : Address) : Decidable (r.Proxied address) :=
  inferInstanceAs (Decidable (∃ proxy ∈ r.proxies, proxy.remoteAddress.same address = true))

/-- How many of the calls request a new port. -/
def newPorts (r : Registry) : List (Address × Bool) → Nat
  | [] => 0
  | (address, initialized) :: calls =>
      match r.getProxyForAddress address initialized with
      | none => 0
      | some (_, r') => (if r.Proxied address then 0 else 1) + r'.newPorts calls

/-- No two proxies have the same remote address or the same local port. -/
def Distinct (r : Registry) : Prop :=
  r.proxies.Pairwise fun p q =>
    p.remoteAddress.same q.remoteAddress = false ∧ p.localAddress.port ≠ q.localAddress.port

/-! ## What every call keeps -/

/-- The remote addresses and the local ports differ, and the port to bind to is the highest. -/
structure Ordered (r : Registry) : Prop where
  family : r.bindAddress.family = AF_INET
  remotes : (r.proxies.map fun proxy => proxy.remoteAddress.value).Nodup
  ports : (r.proxies.map fun proxy => proxy.localAddress.port).Nodup
  port_le : ∀ proxy ∈ r.proxies, proxy.localAddress.port ≤ r.bindAddress.port

theorem Ordered.distinct {r : Registry} (h : r.Ordered) : r.Distinct := by
  have hremotes := List.pairwise_map.1 h.remotes
  have hports := List.pairwise_map.1 h.ports
  refine hremotes.imp₂ (fun p q hremote hport => ⟨?_, hport⟩) hports
  rw [← Bool.not_eq_true, Address.same_iff]
  exact hremote

theorem ordered_start {localserverAddress : Address} (h : localserverAddress.family = AF_INET)
    (loginserverAddress : Address) : (start localserverAddress loginserverAddress).Ordered where
  family := h
  remotes := List.nodup_singleton _
  ports := List.nodup_singleton _
  port_le := by
    intro proxy hproxy
    rw [List.mem_singleton.1 hproxy]
    exact UInt16.le_refl _

/-- An address that is known gets its proxy, and nothing changes. -/
theorem Ordered.getProxyForAddress_of_mem {r : Registry} (h : r.Ordered) {proxy : Proxy}
    (hmem : proxy ∈ r.proxies) {address : Address}
    (hsame : proxy.remoteAddress.same address = true) (initialized : Bool) :
    r.getProxyForAddress address initialized = some (some proxy, r) := by
  have hfind : r.proxies.find? (fun proxy => proxy.remoteAddress.same address) = some proxy := by
    cases hfind : r.proxies.find? fun proxy => proxy.remoteAddress.same address with
    | none => exact absurd hsame (List.find?_eq_none.1 hfind proxy hmem)
    | some found =>
        -- no other proxy has the address
        have hfound := List.find?_some hfind
        have hvalue : found.remoteAddress.value = proxy.remoteAddress.value :=
          (Address.same_iff.1 hfound).trans (Address.same_iff.1 hsame).symm
        rw [List.inj_on_of_nodup_map h.remotes (List.mem_of_find?_eq_some hfind) hmem hvalue]
  rw [getProxyForAddress, hfind]

theorem getNextBindAddress_eq {r : Registry} (h : r.bindAddress.family = AF_INET) :
    r.getNextBindAddress =
      some (r.bindAddress.withPort (r.bindAddress.port + 1),
        { r with bindAddress := r.bindAddress.withPort (r.bindAddress.port + 1) }) := by
  have hset : r.bindAddress.setPort (r.bindAddress.port + 1) =
      some (r.bindAddress.withPort (r.bindAddress.port + 1)) := if_pos h
  show (r.bindAddress.setPort (r.bindAddress.port + 1)).bind _ = _
  rw [hset]
  rfl

/-- An address that is not known is tried on the next port. -/
theorem getProxyForAddress_of_not_proxied {r : Registry} (h : r.bindAddress.family = AF_INET)
    {address : Address} (hnew : ¬ r.Proxied address) (initialized : Bool) :
    let bindAddress := r.bindAddress.withPort (r.bindAddress.port + 1)
    r.getProxyForAddress address initialized =
      if initialized then
        some (some ⟨bindAddress, address⟩, ⟨r.proxies ++ [⟨bindAddress, address⟩], bindAddress⟩)
      else some (none, ⟨r.proxies, bindAddress⟩) := by
  have hfind : r.proxies.find? (fun proxy => proxy.remoteAddress.same address) = none :=
    List.find?_eq_none.2 fun proxy hmem hsame => hnew ⟨proxy, hmem, hsame⟩
  rw [getProxyForAddress, hfind]
  dsimp only
  rw [getNextBindAddress_eq h]
  cases initialized <;> rfl

/-- A new proxy, or an attempt at one, on the next port. -/
theorem Ordered.next {r : Registry} (h : r.Ordered) {address : Address} (hnew : ¬ r.Proxied address)
    (hlt : r.bindAddress.port.toNat < 65535) (initialized : Bool) :
    let bindAddress := r.bindAddress.withPort (r.bindAddress.port + 1)
    bindAddress.port.toNat = r.bindAddress.port.toNat + 1 ∧
      (⟨if initialized then r.proxies ++ [⟨bindAddress, address⟩] else r.proxies, bindAddress⟩ :
        Registry).Ordered := by
  have hport : (r.bindAddress.withPort (r.bindAddress.port + 1)).port.toNat =
      r.bindAddress.port.toNat + 1 := by
    rw [Address.port_withPort h.family, UInt16.toNat_add]
    exact Nat.mod_eq_of_lt (Nat.succ_lt_succ hlt)
  have hbelow : ∀ proxy ∈ r.proxies, proxy.localAddress.port.toNat <
      (r.bindAddress.withPort (r.bindAddress.port + 1)).port.toNat := by
    intro proxy hmem
    have hle := UInt16.le_iff_toNat_le.1 (h.port_le proxy hmem)
    omega
  refine ⟨hport, ?_⟩
  cases initialized with
  | false =>
      -- the port is used up, and nothing else changes
      refine ⟨h.family, h.remotes, h.ports, fun proxy hmem => ?_⟩
      exact UInt16.le_iff_toNat_le.2 (Nat.le_of_lt (hbelow proxy hmem))
  | true =>
      refine ⟨h.family, ?_, ?_, fun proxy hmem => ?_⟩
      · refine (List.map_append ▸ List.nodup_append.2 ⟨h.remotes, List.nodup_singleton _, ?_⟩)
        intro v hv w hw heq
        obtain ⟨proxy, hmem, rfl⟩ := List.mem_map.1 hv
        exact hnew ⟨proxy, hmem, Address.same_iff.2 (heq.trans (List.mem_singleton.1 hw))⟩
      · refine (List.map_append ▸ List.nodup_append.2 ⟨h.ports, List.nodup_singleton _, ?_⟩)
        intro v hv w hw heq
        obtain ⟨proxy, hmem, rfl⟩ := List.mem_map.1 hv
        have hlow := hbelow proxy hmem
        rw [heq, List.mem_singleton.1 hw] at hlow
        exact Nat.lt_irrefl _ hlow
      · rcases List.mem_append.1 hmem with hmem | hmem
        · exact UInt16.le_iff_toNat_le.2 (Nat.le_of_lt (hbelow proxy hmem))
        · rw [List.mem_singleton.1 hmem]
          exact UInt16.le_refl _

/-- One call. It keeps the order as long as there is a port if it requests one. -/
theorem Ordered.step {r : Registry} (h : r.Ordered) (address : Address) (initialized : Bool) :
    ∃ result r', r.getProxyForAddress address initialized = some (result, r') ∧
      (r.bindAddress.port.toNat + (if r.Proxied address then 0 else 1) ≤ 65535 →
        r'.Ordered ∧ r'.bindAddress.port.toNat =
          r.bindAddress.port.toNat + if r.Proxied address then 0 else 1) := by
  by_cases hknown : r.Proxied address
  · obtain ⟨proxy, hmem, hsame⟩ := id hknown
    exact ⟨_, r, h.getProxyForAddress_of_mem hmem hsame initialized,
      fun _ => ⟨h, by rw [if_pos hknown]; rfl⟩⟩
  · have hcall := getProxyForAddress_of_not_proxied h.family hknown initialized
    rw [if_neg hknown]
    cases initialized with
    | false =>
        refine ⟨_, _, hcall, fun hroom => ?_⟩
        exact (h.next hknown (Nat.lt_of_succ_le hroom) false).symm
    | true =>
        refine ⟨_, _, hcall, fun hroom => ?_⟩
        exact (h.next hknown (Nat.lt_of_succ_le hroom) true).symm

theorem Ordered.run {r : Registry} (h : r.Ordered) (calls : List (Address × Bool))
    (hroom : r.bindAddress.port.toNat + r.newPorts calls ≤ 65535) :
    ∃ r', r.run calls = some r' ∧ r'.Ordered := by
  induction calls generalizing r with
  | nil => exact ⟨r, rfl, h⟩
  | cons call calls ih =>
      obtain ⟨address, initialized⟩ := call
      obtain ⟨result, r', hcall, hstep⟩ := h.step address initialized
      rw [newPorts, hcall] at hroom
      dsimp only at hroom
      obtain ⟨hr', hport⟩ := hstep (by omega)
      obtain ⟨r'', hrun, hr''⟩ := ih hr' (by omega)
      exact ⟨r'', by rw [Registry.run, hcall]; exact hrun, hr''⟩

theorem newPorts_le_append (r : Registry) (front back : List (Address × Bool)) :
    r.newPorts front ≤ r.newPorts (front ++ back) := by
  induction front generalizing r with
  | nil => exact Nat.zero_le _
  | cons call front ih =>
      obtain ⟨address, initialized⟩ := call
      rw [List.cons_append, newPorts, newPorts]
      cases r.getProxyForAddress address initialized with
      | none => exact Nat.le_refl 0
      | some result => exact Nat.add_le_add_left (ih result.2) _

/-- All through a sequence of calls that requests no more ports than there are above the one of the
login proxy, no two proxies share a remote address or a local port, and a call with the address of
one returns it and changes nothing. -/
theorem run_distinct {localserverAddress loginserverAddress : Address}
    (hfamily : localserverAddress.family = AF_INET) {calls : List (Address × Bool)}
    (hports : localserverAddress.port.toNat +
      (start localserverAddress loginserverAddress).newPorts calls ≤ 65535)
    {front : List (Address × Bool)} (hfront : front <+: calls) :
    ∃ r, (start localserverAddress loginserverAddress).run front = some r ∧ r.Distinct ∧
      ∀ proxy ∈ r.proxies, ∀ address initialized,
        proxy.remoteAddress.same address = true →
          r.getProxyForAddress address initialized = some (some proxy, r) := by
  obtain ⟨back, rfl⟩ := hfront
  have hle := newPorts_le_append (start localserverAddress loginserverAddress) front back
  have hroom : localserverAddress.port.toNat +
      (start localserverAddress loginserverAddress).newPorts front ≤ 65535 := by omega
  obtain ⟨r, hrun, hr⟩ := (ordered_start hfamily loginserverAddress).run front hroom
  exact ⟨r, hrun, hr.distinct, fun proxy hmem address initialized hsame =>
    hr.getProxyForAddress_of_mem hmem hsame initialized⟩

/-- An address in memory on a machine with the family in the first two bytes. -/
def ipv4 (a b c d : UInt8) (port : Nat) : Address where
  sockaddr := [2, 0] ++ (LittleEndian.encode 2 port).reverse ++ [a, b, c, d, 0, 0, 0, 0, 0, 0, 0, 0]
  socklen := 16
  family := AF_INET
  socktype := 1
  protocol := 6
  fits := ⟨Nat.le_refl 16, by simp⟩

/-- Calls for a server that is tried three times, of which the first attempt fails, and for the
login server. -/
def serverCalls : List (Address × Bool) :=
  [(ipv4 10 0 0 2 16402, false), (ipv4 10 0 0 2 16402, true), (ipv4 10 0 0 2 16402, false),
    (ipv4 10 0 0 1 21002, true)]

theorem run_serverCalls :
    ∃ r, (start (ipv4 127 0 0 1 21002) (ipv4 10 0 0 1 21002)).run serverCalls = some r ∧
      r.Distinct ∧ ∀ proxy ∈ r.proxies, ∀ address initialized,
        proxy.remoteAddress.same address = true →
          r.getProxyForAddress address initialized = some (some proxy, r) :=
  run_distinct rfl (by decide +kernel) (List.prefix_refl serverCalls)

end Registry

end ROMProxy

end OpenRom
