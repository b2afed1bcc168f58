import OpenRom.Library.Region
import OpenRom.Proxy.Registry
import OpenRom.RomDump.Numbers

/-!
# Redirects

A login server names the game servers in a `ServerInfo` packet, and a game server the next one in a
`Redirect` packet. `LoginProxy` and `GameProxy` look up a proxy for the server that is named, and
write the address of that proxy over it. What is printed is left out.

Over a whole run of the program (`redirects_consistent`), whatever connections the packets come
from: a packet that is rewritten names a proxy that is registered for the server it named, only the
two fields are written, and two of them name the same proxy exactly when they named the same server.
-/

set_option autoImplicit false

namespace OpenRom

open RomDump (decimal dot colon strtoul allDigits_decimal length_decimal_le)
open RomDump.File (cString?)

/-! ## Texts of addresses -/

namespace Address

/-- `inet_ntoa` -/
def inetNtoa (a : Address) : List UInt8 :=
  List.intercalate [dot] (((a.sockaddr.drop 4).take 4).map fun b => decimal b.toNat)

/-- `ToString`: the string in an array of `len` bytes. -/
def toString (a : Address) (len : Nat) : List UInt8 :=
  if a.family = AF_INET then (a.inetNtoa ++ [colon] ++ decimal a.port.toNat).take (len - 1)
  else [0x3f].take len -- '?'

end Address

/-! ## Rewriting a packet -/

/-- The packet that names a server: its length and type, and where in the data the address and the
port are. There is space for any address in front of the port. -/
structure Redirect where
  pLength : UInt32
  packetType : UInt32
  address : Nat
  port : Nat
  address_fits : address + 16 ≤ port
  port_fits : sizeofPacket + port + 4 ≤ pLength.toNat

/-- How it goes on during a packet: what is found behind the packet in memory, `Resolve`, and what
the `Initialize` of a new proxy returns. -/
structure Lookup where
  behind : List UInt8
  resolve : List UInt8 → List UInt8 → Option Address
  initialized : Bool

namespace Redirect

variable (f : Redirect)

def Matches (p : Packet) : Prop := p.pLength = f.pLength ∧ ofLe32 (p.pData.take 4) = f.packetType

instance (p : Packet) : Decidable (f.Matches p) := inferInstanceAs (Decidable (_ ∧ _))

/-- The string at the address, unless it has no end. -/
def host? (p : Packet) (behind : List UInt8) : Option (List UInt8) :=
  cString? (p.pData.drop f.address ++ behind)

def portOf (p : Packet) : UInt32 := ofLe32 (List.load f.port 4 p.pData)

/-- The server that the packet names. -/
def server? (l : Lookup) (p : Packet) : Option (Option Address) := do
  let host ← f.host? p l.behind
  return l.resolve host ((decimal (f.portOf p).toNat).take 15)

/-- The proxy for it, if there is or can be one. -/
def proxyFor (l : Lookup) (p : Packet) (r : ROMProxy.Registry) :
    Option (Option Proxy × ROMProxy.Registry) := do
  match ← f.server? l p with
  | none => return (none, r)
  | some server => r.getProxyForAddress server l.initialized

/-- The address of the proxy, written over that of the server. There is no result when the string of
the address has no colon, or is written behind the packet. -/
def rewrite (proxy : Proxy) (p : Packet) : Option Packet := do
  let proxyAddr := proxy.localAddress.toString 256
  let separator := proxyAddr.dropWhile (· ≠ colon)
  guard (separator ≠ [])
  let host := proxyAddr.takeWhile (· ≠ colon) ++ [0]
  let newPort := (strtoul 10 separator.tail).1
  guard (f.address + host.length ≤ p.pData.length ∧ f.port + 4 ≤ p.pData.length)
  return { p with
    pData := List.store f.port (le32 newPort) (List.store f.address host p.pData) }

/-- What `OnRemotePacket` does with a packet before it is sent on: the proxy that the client is sent
to, and the packet. -/
def apply (l : Lookup) (p : Packet) (r : ROMProxy.Registry) :
    Option (Option Proxy × Packet × ROMProxy.Registry) :=
  if f.Matches p then do
    match ← f.proxyFor l p r with
    | (none, r) => return (none, p, r)
    | (some proxy, r) => return (some proxy, ← f.rewrite proxy p, r)
  else some (none, p, r)

end Redirect

/-- The `ServerInfo` packet of `LoginProxiedConnection`. -/
def LoginProxiedConnection.serverInfo : Redirect where
  pLength := 0x29c
  packetType := 0x3
  address := 0x4c
  port := 0x8c
  address_fits := by decide
  port_fits := by decide

/-- The `Redirect` packet of `GameProxiedConnection`. -/
def GameProxiedConnection.redirect : Redirect where
  pLength := 0x90
  packetType := 0x78
  address := 0xc
  port := 0x2c
  address_fits := by decide
  port_fits := by decide

namespace Address

/-! ## What is written -/

/-- Four numbers, with dots between them. -/
theorem inetNtoa_eq (a : Address) : ∃ b₀ b₁ b₂ b₃ : UInt8, a.inetNtoa =
    decimal b₀.toNat ++ dot :: (decimal b₁.toNat ++ dot :: (decimal b₂.toNat ++
      dot :: decimal b₃.toNat)) := by
  have hlen : ((a.sockaddr.drop 4).take 4).length = 4 := by simp [a.fits.2]
  obtain ⟨b₀, b₁, b₂, b₃, hbytes⟩ := List.length_eq_four.1 hlen
  exact ⟨b₀, b₁, b₂, b₃, by simp [inetNtoa, hbytes, List.intercalate]⟩

theorem length_inetNtoa_le (a : Address) : a.inetNtoa.length ≤ 15 := by
  obtain ⟨b₀, b₁, b₂, b₃, heq⟩ := a.inetNtoa_eq
  have hbyte : ∀ b : UInt8, (decimal b.toNat).length ≤ 3 := fun b =>
    length_decimal_le (by decide) (Nat.lt_of_lt_of_le b.toNat_lt (by decide))
  have h₀ := hbyte b₀
  have h₁ := hbyte b₁
  have h₂ := hbyte b₂
  have h₃ := hbyte b₃
  simp only [heq, List.length_append, List.length_cons]
  omega

/-- Neither a NUL nor a colon is in the text of an address. -/
theorem ne_of_mem_inetNtoa {a : Address} {c : UInt8} (h : c ∈ a.inetNtoa) : c ≠ 0 ∧ c ≠ colon := by
  have hdigit : ∀ {n : Nat} {c : UInt8}, c ∈ decimal n → c ≠ 0 ∧ c ≠ colon := by
    intro n c hc
    obtain ⟨d, hd⟩ := allDigits_decimal n c hc
    exact (RomDump.ne_of_digit hd).2
  have hdot : dot ≠ 0 ∧ dot ≠ colon := by decide
  obtain ⟨b₀, b₁, b₂, b₃, heq⟩ := a.inetNtoa_eq
  simp only [heq, List.mem_append, List.mem_cons] at h
  rcases h with h | rfl | h | rfl | h | rfl | h
  · exact hdigit h
  · exact hdot
  · exact hdigit h
  · exact hdot
  · exact hdigit h
  · exact hdot
  · exact hdigit h

/-- The port is not in the text of the address. -/
theorem inetNtoa_withPort (a : Address) (port : UInt16) :
    (a.withPort port).inetNtoa = a.inetNtoa := by
  have hbytes : (a.withPort port).sockaddr.drop 4 = a.sockaddr.drop 4 := by
    refine List.drop_left' ?_
    simp [a.fits.2]
  rw [inetNtoa, hbytes]
  rfl

/-- The text of an address, cut at its colon. -/
theorem toString_cut {a : Address} (h : a.family = AF_INET) :
    (a.toString 256).takeWhile (· ≠ colon) = a.inetNtoa ∧
      (a.toString 256).dropWhile (· ≠ colon) = colon :: decimal a.port.toNat := by
  have hport : (decimal a.port.toNat).length ≤ 5 :=
    length_decimal_le (by decide) (Nat.lt_of_lt_of_le a.port.toNat_lt (by decide))
  have hlen := a.length_inetNtoa_le
  have htext : a.toString 256 = a.inetNtoa ++ colon :: decimal a.port.toNat := by
    rw [toString, if_pos h, List.append_assoc]
    refine List.take_of_length_le ?_
    simp only [List.length_append, List.length_cons, List.length_nil]
    omega
  rw [htext]
  exact RomDump.takeWhile_ne_append _ fun c hc => (ne_of_mem_inetNtoa hc).2

/-- The port is read from that text. -/
theorem strtoul_port (a : Address) :
    (strtoul 10 (decimal a.port.toNat)).1 = .ofNat a.port.toNat := by
  have hread : strtoul 10 (decimal a.port.toNat ++ []) =
      (RomDump.saturated (RomDump.numberFrom 10 0 (decimal a.port.toNat)), []) :=
    RomDump.strtoul_digits (by decide) (allDigits_decimal a.port.toNat)
      (List.ne_nil_of_length_pos (RomDump.length_decimal_pos _)) (fun c hc => by cases hc) nofun
  rw [List.append_nil, RomDump.numberFrom_decimal] at hread
  have hlt := a.port.toNat_lt
  rw [hread, RomDump.saturated, if_neg (by omega)]

end Address

namespace Redirect

variable (f : Redirect)

/-- Where the packet says that the server is. -/
def endpoint (p : Packet) (behind : List UInt8) : Option (List UInt8) × UInt32 :=
  (f.host? p behind, f.portOf p)

/-- The bytes of the two fields, as far as they are written. -/
def Written (i : Nat) : Prop :=
  f.address ≤ i ∧ i < f.address + 16 ∨ f.port ≤ i ∧ i < f.port + 4

/-- What a packet that is rewritten says: where the proxy is, and apart from that what it has said
before. -/
structure Names (proxy : Proxy) (p q : Packet) : Prop where
  header : q = { p with pData := q.pData }
  length : q.pData.length = p.pData.length
  endpoint : ∀ behind, f.endpoint q behind =
    (some proxy.localAddress.inetNtoa, .ofNat proxy.localAddress.port.toNat)
  kept : ∀ i, ¬ f.Written i → q.pData[i]? = p.pData[i]?

variable {f}

/-- A string with its end is found where it has been written. -/
theorem host?_of_load {host : List UInt8} (hhost : ∀ c ∈ host, c ≠ 0) {q : Packet}
    (h : List.load f.address (host ++ [0]).length q.pData = host ++ [0]) (behind : List UInt8) :
    f.host? q behind = some host := by
  have hdata : q.pData.drop f.address ++ behind =
      host ++ 0 :: ((q.pData.drop f.address).drop (host ++ [0]).length ++ behind) := by
    have hsplit := List.take_append_drop (host ++ [0]).length (q.pData.drop f.address)
    have htake : (q.pData.drop f.address).take (host ++ [0]).length = host ++ [0] := h
    rw [htake] at hsplit
    rw [← hsplit]
    simp
  rw [host?, hdata, RomDump.File.cString?_append hhost]

theorem rewrite_names {p : Packet} (hp : f.port + 4 ≤ p.pData.length) {proxy : Proxy}
    (hproxy : proxy.localAddress.family = AF_INET) :
    ∃ q, f.rewrite proxy p = some q ∧ f.Names proxy p q := by
  obtain ⟨hhost, hport⟩ := proxy.localAddress.toString_cut hproxy
  have hfits := f.address_fits
  have hlen : (proxy.localAddress.inetNtoa ++ [0]).length ≤ 16 := by
    rw [List.length_append]
    exact Nat.succ_le_succ proxy.localAddress.length_inetNtoa_le
  let newPort : UInt32 := .ofNat proxy.localAddress.port.toNat
  let data := List.store f.address (proxy.localAddress.inetNtoa ++ [0]) p.pData
  have hdata : data.length = p.pData.length := List.length_store (by omega)
  have hroom : f.port + (le32 newPort).length ≤ data.length := by
    rw [length_le32, hdata]
    exact hp
  refine ⟨{ p with pData := List.store f.port (le32 newPort) data }, ?_, rfl, ?_, ?_, ?_⟩
  · -- the colon is there, and both fields are in the packet
    have hguard : f.address + (proxy.localAddress.inetNtoa ++ [0]).length ≤ p.pData.length ∧
        f.port + 4 ≤ p.pData.length := ⟨by omega, hp⟩
    simp only [rewrite, hhost, hport, guard, List.tail_cons, Address.strtoul_port, if_pos hguard]
    rfl
  · exact (List.length_store hroom).trans hdata
  · intro behind
    refine Prod.ext ?_ ?_
    · refine host?_of_load (fun c hc => (Address.ne_of_mem_inetNtoa hc).1) ?_ behind
      -- the port is behind the string
      have hapart : List.Apart f.address (proxy.localAddress.inetNtoa ++ [0]).length f.port
          (le32 newPort).length := Or.inl (by omega)
      exact (List.load_store_of_apart hapart hroom).trans (List.load_store_self (by omega))
    · show ofLe32 (List.load f.port 4 (List.store f.port (le32 newPort) data)) = _
      rw [List.load_store_of_length (length_le32 _) (by omega), ofLe32_le32]
  · intro i hi
    simp only [Written, not_or, not_and, Nat.not_lt] at hi
    rw [List.getElem?_store hroom, List.getElem?_store (by omega), length_le32, if_pos (by omega),
      if_pos (by omega)]

end Redirect

/-! ## The registry -/

namespace ROMProxy.Registry

/-- Every proxy listens on the address of the login proxy, on some port. -/
structure Binds (host : List UInt8) (r : Registry) : Prop where
  family : r.bindAddress.family = AF_INET
  inetNtoa : r.bindAddress.inetNtoa = host
  proxies : ∀ proxy ∈ r.proxies,
    proxy.localAddress.family = AF_INET ∧ proxy.localAddress.inetNtoa = host

theorem Binds.start {localserverAddress : Address} (h : localserverAddress.family = AF_INET)
    (loginserverAddress : Address) :
    (start localserverAddress loginserverAddress).Binds localserverAddress.inetNtoa where
  family := h
  inetNtoa := rfl
  proxies := by
    intro proxy hmem
    rw [List.mem_singleton.1 hmem]
    exact ⟨h, rfl⟩

/-- An attempt on the next port, with or without success, keeps the address. -/
theorem Binds.next {host : List UInt8} {r : Registry} (h : r.Binds host) (address : Address)
    (port : UInt16) (initialized : Bool) :
    let bindAddress := r.bindAddress.withPort port
    (⟨if initialized then r.proxies ++ [⟨bindAddress, address⟩] else r.proxies, bindAddress⟩ :
      Registry).Binds host where
  family := h.family
  inetNtoa := (Address.inetNtoa_withPort _ _).trans h.inetNtoa
  proxies := by
    intro proxy hmem
    cases initialized with
    | false => exact h.proxies proxy hmem
    | true =>
        rcases List.mem_append.1 hmem with hmem | hmem
        · exact h.proxies proxy hmem
        · rw [List.mem_singleton.1 hmem]
          exact ⟨h.family, (Address.inetNtoa_withPort _ _).trans h.inetNtoa⟩

/-- What a call returns is registered for the address, and what has been registered stays. -/
theorem Binds.getProxyForAddress {host : List UInt8} {r r' : Registry} (h : r.Binds host)
    {address : Address} {initialized : Bool} {result : Option Proxy}
    (hcall : r.getProxyForAddress address initialized = some (result, r')) :
    r'.Binds host ∧ (∀ proxy ∈ r.proxies, proxy ∈ r'.proxies) ∧
      ∀ proxy ∈ result, proxy ∈ r'.proxies ∧ proxy.remoteAddress.same address = true := by
  cases hfind : r.proxies.find? fun proxy => proxy.remoteAddress.same address with
  | some found =>
      rw [Registry.getProxyForAddress, hfind] at hcall
      cases hcall
      have hsame := List.find?_some hfind
      refine ⟨h, fun proxy hmem => hmem, ?_⟩
      intro proxy hproxy
      cases hproxy
      exact ⟨List.mem_of_find?_eq_some hfind, hsame⟩
  | none =>
      have hnew : ¬ r.Proxied address := by
        rintro ⟨proxy, hmem, hsame⟩
        exact List.find?_eq_none.1 hfind proxy hmem hsame
      have hnext := h.next address (r.bindAddress.port + 1) initialized
      rw [getProxyForAddress_of_not_proxied h.family hnew initialized] at hcall
      cases initialized with
      | false =>
          cases hcall
          exact ⟨hnext, fun proxy hmem => hmem, fun proxy hproxy => by cases hproxy⟩
      | true =>
          cases hcall
          refine ⟨hnext, fun proxy hmem => List.mem_append_left _ hmem, ?_⟩
          intro proxy hproxy
          cases hproxy
          exact ⟨List.mem_append_right _ List.mem_cons_self, Address.same_iff.2 rfl⟩

end ROMProxy.Registry

/-! ## Runs -/

/-- What `OnRemotePacket` of some connection is called with. -/
structure RedirectCall where
  redirect : Redirect
  lookup : Lookup
  packet : Packet

namespace RedirectCall

variable (c : RedirectCall)

/-- The packet is a whole frame, and an address in it has an end. -/
structure WellFormed : Prop where
  length_eq : c.packet.pLength.toNat = sizeofPacket + c.packet.pData.length
  ends : c.redirect.Matches c.packet → 0 ∈ c.packet.pData.drop c.redirect.address

def server? : Option (Option Address) := c.redirect.server? c.lookup c.packet

/-- The call of `GetProxyForAddress` that is made, if any. -/
def request : List (Address × Bool) :=
  if c.redirect.Matches c.packet then
    (c.server?.join.map fun server => (server, c.lookup.initialized)).toList
  else []

end RedirectCall

/-- What becomes of a packet: it is passed on as it is, or names a proxy for its server. -/
inductive Redirected (r : ROMProxy.Registry) (c : RedirectCall) : Option Proxy × Packet → Prop
  | kept : Redirected r c (none, c.packet)
  | rewritten {proxy : Proxy} {q : Packet} {server : Address} :
      c.redirect.Matches c.packet → c.server? = some (some server) → proxy ∈ r.proxies →
        proxy.remoteAddress.same server = true → c.redirect.Names proxy c.packet q →
          Redirected r c (some proxy, q)

theorem Redirected.mono {r r' : ROMProxy.Registry} {c : RedirectCall} {x : Option Proxy × Packet}
    (h : Redirected r c x) (hle : ∀ proxy ∈ r.proxies, proxy ∈ r'.proxies) : Redirected r' c x := by
  cases h with
  | kept => exact .kept
  | rewritten hmatches hserver hmem hsame hnames =>
      exact .rewritten hmatches hserver (hle _ hmem) hsame hnames

/-- A packet that is rewritten names a proxy for its server. -/
theorem Redirected.names {r : ROMProxy.Registry} {c : RedirectCall} {proxy : Proxy} {q : Packet}
    (h : Redirected r c (some proxy, q)) {server : Address}
    (hserver : c.server? = some (some server)) :
    proxy ∈ r.proxies ∧ proxy.remoteAddress.value = server.value ∧
      c.redirect.Names proxy c.packet q := by
  cases h with
  | rewritten hmatches hserver' hmem hsame hnames =>
      rw [hserver, Option.some_inj, Option.some_inj] at hserver'
      exact ⟨hmem, hserver' ▸ Address.same_iff.1 hsame, hnames⟩

namespace ROMProxy.Registry

/-- The packets that connections of the program handle, one after the other. -/
def redirects (r : Registry) :
    List RedirectCall → Option (List (Option Proxy × Packet) × Registry)
  | [] => some ([], r)
  | c :: cs => do
      let (proxy, p, r) ← c.redirect.apply c.lookup c.packet r
      let (results, r) ← r.redirects cs
      return ((proxy, p) :: results, r)

/-- The registry can handle the calls that are left. -/
structure Ready (host : List UInt8) (calls : List (Address × Bool)) (r : Registry) : Prop where
  ordered : r.Ordered
  binds : r.Binds host
  room : r.bindAddress.port.toNat + r.newPorts calls ≤ 65535

/-- A call of `GetProxyForAddress` that is among them. -/
theorem Ready.getProxyForAddress {host : List UInt8} {address : Address} {initialized : Bool}
    {calls : List (Address × Bool)} {r : Registry}
    (h : r.Ready host ((address, initialized) :: calls)) :
    ∃ result r', r.getProxyForAddress address initialized = some (result, r') ∧
      r'.Ready host calls ∧ (∀ proxy ∈ r.proxies, proxy ∈ r'.proxies) ∧
        r'.bindAddress.port.toNat ≤ r.bindAddress.port.toNat + 1 ∧
        ∀ proxy ∈ result, proxy ∈ r'.proxies ∧ proxy.remoteAddress.same address = true := by
  obtain ⟨result, r', hcall, hstep⟩ := h.ordered.step address initialized
  obtain ⟨hbinds, hgrows, hresult⟩ := h.binds.getProxyForAddress hcall
  have hroom := h.room
  rw [newPorts, hcall] at hroom
  dsimp only at hroom
  obtain ⟨hordered, hport⟩ := hstep (by omega)
  have hnext : r'.bindAddress.port.toNat ≤ r.bindAddress.port.toNat + 1 := by
    rw [hport]
    split <;> omega
  exact ⟨result, r', hcall, ⟨hordered, hbinds, by omega⟩, hgrows, hnext, hresult⟩

/-- One packet. -/
theorem Ready.apply {host : List UInt8} {c : RedirectCall} (hc : c.WellFormed)
    {calls : List (Address × Bool)} {r : Registry} (h : r.Ready host (c.request ++ calls)) :
    ∃ proxy q r', c.redirect.apply c.lookup c.packet r = some (proxy, q, r') ∧
      r'.Ready host calls ∧ (∀ proxy ∈ r.proxies, proxy ∈ r'.proxies) ∧
        r'.bindAddress.port.toNat ≤ r.bindAddress.port.toNat +
          (if c.redirect.Matches c.packet then 1 else 0) ∧ Redirected r' c (proxy, q) := by
  by_cases hmatches : c.redirect.Matches c.packet
  · have hends : 0 ∈ c.packet.pData.drop c.redirect.address ++ c.lookup.behind :=
      List.mem_append_left _ (hc.ends hmatches)
    obtain ⟨server, hserver⟩ : ∃ server, c.server? = some server :=
      ⟨_, by
        simp only [RedirectCall.server?, Redirect.server?, Redirect.host?, cString?, if_pos hends]
        rfl⟩
    have hcalled : c.redirect.server? c.lookup c.packet = some server := hserver
    rw [RedirectCall.request, if_pos hmatches, hserver] at h
    cases server with
    | none =>
        -- the name is not known
        have hproxyFor : c.redirect.proxyFor c.lookup c.packet r = some (none, r) := by
          rw [Redirect.proxyFor, hcalled]
          rfl
        refine ⟨none, c.packet, r, ?_, h, fun proxy hmem => hmem, Nat.le_add_right _ _, .kept⟩
        simp only [Redirect.apply, if_pos hmatches, hproxyFor]
        rfl
    | some server =>
        have hproxyFor : c.redirect.proxyFor c.lookup c.packet r =
            r.getProxyForAddress server c.lookup.initialized := by
          rw [Redirect.proxyFor, hcalled]
          rfl
        obtain ⟨result, r', hcall, hready, hgrows, hport, hresult⟩ := h.getProxyForAddress
        cases result with
        | none =>
            refine ⟨none, c.packet, r', ?_, hready, hgrows, by rwa [if_pos hmatches], .kept⟩
            simp only [Redirect.apply, if_pos hmatches, hproxyFor, hcall]
            rfl
        | some proxy =>
            obtain ⟨hmem, hsame⟩ := hresult proxy rfl
            have hroom : c.redirect.port + 4 ≤ c.packet.pData.length := by
              have hfits := c.redirect.port_fits
              rw [← hmatches.1, hc.length_eq] at hfits
              omega
            obtain ⟨q, hrewrite, hnames⟩ :=
              Redirect.rewrite_names hroom (hready.binds.proxies proxy hmem).1
            refine ⟨some proxy, q, r', ?_, hready, hgrows, by rwa [if_pos hmatches],
              .rewritten hmatches hserver hmem hsame hnames⟩
            simp only [Redirect.apply, if_pos hmatches, hproxyFor, hcall, Option.bind_eq_bind,
              Option.bind_some, hrewrite]
            rfl
  · rw [RedirectCall.request, if_neg hmatches] at h
    exact ⟨none, c.packet, r, if_neg hmatches, h, fun proxy hmem => hmem, Nat.le_add_right _ _,
      .kept⟩

/-- All packets of a run. -/
theorem Ready.redirects {host : List UInt8} {cs : List RedirectCall}
    (hcs : ∀ c ∈ cs, c.WellFormed) {r : Registry}
    (h : r.Ready host (cs.flatMap RedirectCall.request)) :
    ∃ results r', r.redirects cs = some (results, r') ∧ r'.Ordered ∧ r'.Binds host ∧
      (∀ proxy ∈ r.proxies, proxy ∈ r'.proxies) ∧ List.Forall₂ (Redirected r') cs results := by
  induction cs generalizing r with
  | nil => exact ⟨[], r, rfl, h.ordered, h.binds, fun proxy hmem => hmem, .nil⟩
  | cons c cs ih =>
      rw [List.flatMap_cons] at h
      obtain ⟨proxy, q, r₁, happly, hready, hgrows, -, hfirst⟩ := h.apply (hcs c List.mem_cons_self)
      obtain ⟨results, r', hrun, hordered, hbinds, hgrows', hrest⟩ :=
        ih (fun c hc => hcs c (List.mem_cons_of_mem _ hc)) hready
      refine ⟨(proxy, q) :: results, r', ?_, hordered, hbinds,
        fun proxy hmem => hgrows' proxy (hgrows proxy hmem), .cons (hfirst.mono hgrows') hrest⟩
      simp only [Registry.redirects, happly, hrun, Option.bind_eq_bind, Option.bind_some]
      rfl

/-- Two registered proxies say that they are in one place only when they are for one server. -/
theorem Ordered.endpoint_iff {r : Registry} (h : r.Ordered) {p q : Proxy} (hp : p ∈ r.proxies)
    (hq : q ∈ r.proxies) :
    (p.localAddress.inetNtoa = q.localAddress.inetNtoa ∧
        p.localAddress.port = q.localAddress.port) ↔
      p.remoteAddress.value = q.remoteAddress.value := by
  constructor
  · rintro ⟨-, hport⟩
    rw [List.inj_on_of_nodup_map h.ports hp hq hport]
  · intro hvalue
    obtain rfl := List.inj_on_of_nodup_map h.remotes hp hq hvalue
    exact ⟨rfl, rfl⟩

/-- In every run, whatever connections the packets come from and in whatever order: each packet is
passed on as it was, or names the proxy that is registered for its server, on the address of the
login proxy; and two packets that are rewritten name one endpoint exactly when they named one
server. -/
theorem redirects_consistent {localserverAddress loginserverAddress : Address}
    (hfamily : localserverAddress.family = AF_INET) {cs : List RedirectCall}
    (hcs : ∀ c ∈ cs, c.WellFormed)
    (hports : localserverAddress.port.toNat +
      (start localserverAddress loginserverAddress).newPorts (cs.flatMap RedirectCall.request) ≤
        65535) :
    ∃ results r, (start localserverAddress loginserverAddress).redirects cs = some (results, r) ∧
      List.Forall₂ (Redirected r) cs results ∧
      (∀ proxy ∈ r.proxies, proxy.localAddress.inetNtoa = localserverAddress.inetNtoa) ∧
      ∀ c c' proxy proxy' q q' server server', (c, some proxy, q) ∈ cs.zip results →
        (c', some proxy', q') ∈ cs.zip results → c.server? = some (some server) →
          c'.server? = some (some server') → ∀ behind behind',
            (c.redirect.endpoint q behind = c'.redirect.endpoint q' behind' ↔
              server.same server' = true) := by
  have hready : (start localserverAddress loginserverAddress).Ready localserverAddress.inetNtoa
      (cs.flatMap RedirectCall.request) :=
    ⟨ordered_start hfamily _, .start hfamily _, hports⟩
  obtain ⟨results, r, hrun, hordered, hbinds, -, hall⟩ := hready.redirects hcs
  refine ⟨results, r, hrun, hall, fun proxy hmem => (hbinds.proxies proxy hmem).2, ?_⟩
  intro c c' proxy proxy' q q' server server' hc hc' hserver hserver' behind behind'
  have hzip : ∀ {c x}, (c, x) ∈ cs.zip results → Redirected r c x := (List.forall₂_iff_zip.1 hall).2
  obtain ⟨hmem, hvalue, hnames⟩ := (hzip hc).names hserver
  obtain ⟨hmem', hvalue', hnames'⟩ := (hzip hc').names hserver'
  have hword : UInt32.size = 2 ^ 32 := rfl
  have hlt := proxy.localAddress.port.toNat_lt
  have hlt' := proxy'.localAddress.port.toNat_lt
  have hport : UInt32.ofNat proxy.localAddress.port.toNat =
      .ofNat proxy'.localAddress.port.toNat ↔
        proxy.localAddress.port = proxy'.localAddress.port := by
    rw [← UInt32.toNat_inj, UInt32.toNat_ofNat_of_lt' (by omega),
      UInt32.toNat_ofNat_of_lt' (by omega), UInt16.toNat_inj]
  rw [hnames.endpoint, hnames'.endpoint, Prod.mk.injEq, Option.some_inj, hport,
    hordered.endpoint_iff hmem hmem', hvalue, hvalue', Address.same_iff]

/-- A `Redirect` packet to a host without a name, on port 16402. -/
def redirectCall : RedirectCall where
  redirect := GameProxiedConnection.redirect
  lookup := ⟨[], fun _ _ => some (ipv4 10 0 0 2 16402), true⟩
  packet := ⟨0x90, 2, 0, 0, 0, 0,
    List.store 0x2c (le32 16402) (List.store 0 (le32 0x78) (List.replicate 132 0))⟩

theorem redirects_consistent_redirectCall :
    let cs := [redirectCall, redirectCall]
    ∃ results r, (start (ipv4 127 0 0 1 21002) (ipv4 10 0 0 1 21002)).redirects cs =
        some (results, r) ∧
      List.Forall₂ (Redirected r) cs results ∧
      (∀ proxy ∈ r.proxies, proxy.localAddress.inetNtoa = (ipv4 127 0 0 1 21002).inetNtoa) ∧
      ∀ c c' proxy proxy' q q' server server', (c, some proxy, q) ∈ cs.zip results →
        (c', some proxy', q') ∈ cs.zip results → c.server? = some (some server) →
          c'.server? = some (some server') → ∀ behind behind',
            (c.redirect.endpoint q behind = c'.redirect.endpoint q' behind' ↔
              server.same server' = true) := by
  have hc : redirectCall.WellFormed := ⟨by decide +kernel, fun _ => by decide +kernel⟩
  refine redirects_consistent rfl (fun c hmem => ?_) (by decide +kernel)
  have heq : c = redirectCall := by simpa using hmem
  exact heq ▸ hc

end ROMProxy.Registry

end OpenRom
