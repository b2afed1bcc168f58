import OpenRom.Proxy.Redirect
import OpenRom.Proxy.Relay

/-!
# Connections that redirect

`LoginProxiedConnection` and `GameProxiedConnection`: a packet of the server is rewritten before it
is sent on. However the bytes of a session are cut into reads on either side of the proxy, the
client decodes what the server has sent, once and in order, with the packets that name a server
rewritten as `Registry.redirects` says (`redirecting_delivers`).
-/

set_option autoImplicit false

namespace OpenRom

open ROMConnection (IsRead fresh)
open ROMProxy (Registry)
open Reassembly

/-! ## The connections -/

/-- What decides how the calls for a packet go. -/
structure Network where
  lookup : Outside → Registry → Packet → Lookup

theorem Redirect.length_rewrite {f : Redirect} {proxy : Proxy} {p q : Packet}
    (h : f.rewrite proxy p = some q) :
    q.pLength = p.pLength ∧ q.pData.length = p.pData.length := by
  simp only [rewrite, guard, Option.bind_eq_bind, Option.bind_eq_some_iff] at h
  obtain ⟨_, -, _, hguard, hq⟩ := h
  split at hguard
  next hroom =>
    cases hq
    have hdata := List.length_store hroom.1
    refine ⟨rfl, (List.length_store ?_).trans hdata⟩
    rw [length_le32, hdata]
    exact hroom.2
  · cases hguard

/-- A packet keeps its length. -/
theorem Redirect.length_apply {f : Redirect} {l : Lookup} {p q : Packet} {r r' : Registry}
    {proxy : Option Proxy} (h : f.apply l p r = some (proxy, q, r')) :
    q.pLength = p.pLength ∧ q.pData.length = p.pData.length := by
  unfold apply at h
  split at h
  · simp only [Option.bind_eq_bind, Option.bind_eq_some_iff] at h
    obtain ⟨⟨found, r₁⟩, -, h⟩ := h
    cases found with
    | none =>
        cases h
        exact ⟨rfl, rfl⟩
    | some found =>
        simp only [Option.bind_eq_some_iff] at h
        obtain ⟨q', hrewrite, h⟩ := h
        cases h
        exact length_rewrite hrewrite
  · cases h
    exact ⟨rfl, rfl⟩

namespace ROMProxy

variable (px : ROMProxy) (net : Network)

/-- `OnRemotePacket` of a connection that redirects. -/
def redirectRemotePacket (f : Redirect) (p : Packet) (w : (Session × Outside) × Registry) :
    Option (Packet × (Session × Outside) × Registry) := do
  let (_, p, r) ← f.apply (net.lookup w.1.2 w.2 p) p w.2
  let (p, loc, out) ← px.onRemotePacket p w.1.1 w.1.2
  return (p, (loc, out), r)

/-- `LoginProxiedConnection::OnRemotePacket` -/
def loginRemotePacket (p : Packet) (w : (Session × Outside) × Registry) :
    Option (Packet × (Session × Outside) × Registry) :=
  px.redirectRemotePacket net LoginProxiedConnection.serverInfo p w

/-- `GameProxiedConnection::OnRemotePacket` -/
def gameRemotePacket (p : Packet) (w : (Session × Outside) × Registry) :
    Option (Packet × (Session × Outside) × Registry) :=
  px.redirectRemotePacket net GameProxiedConnection.redirect p w

/-- What the connection to the server calls, when its packets are rewritten. -/
def redirectingHost (f : Redirect) : Host ((Session × Outside) × Registry) where
  onRawPacketReceived p w := (px.remoteHost.onRawPacketReceived p w.1, w.2)
  onNewKey s w := (px.remoteHost.onNewKey s w.1).map fun v => (v, w.2)
  onPacket := px.redirectRemotePacket net f
  write bs w := ((px.remoteHost.write bs w.1).1, (px.remoteHost.write bs w.1).2, w.2)
  stack := px.remoteHost.stack.comap Prod.fst
  onPacket_length := by
    intro p p' w w' h
    simp only [redirectRemotePacket, Option.bind_eq_bind, Option.bind_eq_some_iff] at h
    obtain ⟨⟨proxy, q, r⟩, happly, ⟨p₂, loc, out⟩, hsend, hp⟩ := h
    cases hp
    have hlen := Redirect.length_apply happly
    have hsent := px.remoteHost.onPacket_length (w := w.1) hsend
    exact ⟨hsent.1.trans hlen.1, hsent.2.trans hlen.2⟩

end ROMProxy

/-! ## Whole streams -/

/-- The rule for all the reads of a stream of frames. -/
theorem ROMConnection.onEvents_of_frames {ω : Type} {h : Host ω} {k : Key}
    {P : Session × ω → List (Frame k) → Prop}
    (hstep : ∀ {st f fs}, P st (f :: fs) → ∃ st', look h st f.bytes = .take f.bytes.length st' ∧
      P st' fs)
    {c : ROMConnection} {w : ω} {fs : List (Frame k)} (hP : P (c.toSession, w) fs)
    (hbuffer : c.buffer = .empty) {reads : List (List UInt8)} (hreads : ∀ r ∈ reads, IsRead r)
    (hcut : reads.flatten = stream fs) :
    ∃ c' w', c.onEvents h w reads = .returned true c' w' ∧ P (c'.toSession, w') [] ∧
      c'.buffer = .empty := by
  have hs : Settled c.buffer.data := by
    rw [hbuffer]
    exact settled_nil
  -- the reads come to the same as the whole stream at once
  have htake : ∀ {st f fs}, P st (f :: fs) →
      ∃ st', (reader h).look st f.bytes = .take f.bytes.length st' ∧ P st' fs := hstep
  obtain ⟨st', hdrain, hP'⟩ := Consumer.drain_of_all_messages htake hP
  have hdrained := onEvents_eq_feed (h := h) (w := w) hs hreads
  rw [Consumer.feed_of_wait (look_eq_wait_iff.2 hs), hcut, hbuffer, Buffer.data_empty,
    List.nil_append, stream, hdrain] at hdrained
  obtain ⟨c', hout, hst, hdata⟩ := Outcome.exists_of_drained_idle hdrained
  refine ⟨c', st'.2, hout, by rw [hst]; exact hP', ?_⟩
  obtain ⟨s', ⟨data, hlt⟩⟩ := c'
  cases hdata
  rfl

/-! ## The server's side -/

namespace ROMProxy.Registry

/-- One more packet. -/
theorem redirects_snoc {r r₁ r₂ : Registry} {cs : List RedirectCall}
    {results : List (Option Proxy × Packet)} (h : r.redirects cs = some (results, r₁))
    {c : RedirectCall} {proxy : Option Proxy} {q : Packet}
    (hc : c.redirect.apply c.lookup c.packet r₁ = some (proxy, q, r₂)) :
    r.redirects (cs ++ [c]) = some (results ++ [(proxy, q)], r₂) := by
  induction cs generalizing r results with
  | nil =>
      cases h
      simp only [List.nil_append, redirects, hc, Option.bind_eq_bind, Option.bind_some]
      rfl
  | cons c' cs ih =>
      simp only [redirects, Option.bind_eq_bind, Option.bind_eq_some_iff] at h
      obtain ⟨x, happly, y, hrest, hresult⟩ := h
      cases hresult
      simp only [List.cons_append, redirects, happly, ih hrest, Option.bind_eq_bind,
        Option.bind_some]
      rfl

end ROMProxy.Registry

/-- The length and the data of a packet. -/
def Packet.payload (p : Packet) : UInt32 × List UInt8 := (p.pLength, p.pData)

/-- Whether a payload names a server depends on the payload only. -/
theorem Redirect.matches_congr {f : Redirect} {p q : Packet} (h : p.payload = q.payload) :
    f.Matches p ↔ f.Matches q := by
  obtain ⟨hlen, hdata⟩ := Prod.mk.injEq _ _ _ _ ▸ h
  rw [Matches, Matches, hlen, hdata]

/-- What a session needs: every address in its packets has an end, and for each of those there is a
port. -/
structure Redirect.Serves (f : Redirect) (host : List UInt8) (r : Registry) (ps : List Packet) :
    Prop where
  ordered : r.Ordered
  binds : r.Binds host
  ends : ∀ p ∈ ps, f.Matches p → 0 ∈ p.pData.drop f.address
  ports : r.bindAddress.port.toNat + ps.countP (fun p => f.Matches p) ≤ 65535

/-- While the connection to the server takes frames: the packets it has handled and what became of
them, those that are left, and the frames on their way to the client. -/
structure Redirects (f : Redirect) (host : List UInt8) (k : Key) (start : Registry)
    (ps : List Packet) (r : Session) (w : (Session × Outside) × Registry) (fs : List (Frame k)) :
    Prop where
  line : Line k r true fs
  sameKey : w.1.1.haveKey = r.haveKey
  localKey : w.1.1.haveKey = true → w.1.1.key = k
  handled : ∃ cs results toClient rest, start.redirects cs = some (results, w.2) ∧
    (∀ c ∈ cs, c.redirect = f ∧ c.WellFormed) ∧ cs.map (fun c => c.packet.payload) ++
      rest.map Packet.payload = ps.map Packet.payload ∧
    f.Serves host w.2 rest ∧ payloads fs = rest.map Packet.payload ∧
    Line k fresh.toSession w.1.1.haveKey toClient ∧ w.1.2.toClient = stream toClient ∧
    payloads toClient = results.map fun x => x.2.payload

theorem ROMProxy.Registry.newPorts_le_length (r : Registry) (calls : List (Address × Bool)) :
    r.newPorts calls ≤ calls.length := by
  induction calls generalizing r with
  | nil => exact Nat.le_refl 0
  | cons call calls ih =>
      obtain ⟨address, initialized⟩ := call
      rw [ROMProxy.Registry.newPorts, List.length_cons]
      cases r.getProxyForAddress address initialized with
      | none => exact Nat.zero_le _
      | some x =>
          have hrest := ih x.2
          dsimp only
          split <;> omega

/-- One packet of a session: what it needs of the registry is there, and so it stays. -/
theorem Redirect.Serves.apply {f : Redirect} {host : List UInt8} {r : Registry} {p : Packet}
    {ps : List Packet} (h : f.Serves host r (p :: ps)) {q : Packet} (hq : q.payload = p.payload)
    (hlen : q.pLength.toNat = sizeofPacket + q.pData.length) (l : Lookup) :
    (⟨f, l, q⟩ : RedirectCall).WellFormed ∧ ∃ proxy q' r', f.apply l q r = some (proxy, q', r') ∧
      f.Serves host r' ps := by
  have hmatches : f.Matches q ↔ f.Matches p := matches_congr hq
  have hdata : q.pData = p.pData := congrArg Prod.snd hq
  have hc : (⟨f, l, q⟩ : RedirectCall).WellFormed := by
    refine ⟨hlen, fun hm => ?_⟩
    show 0 ∈ q.pData.drop f.address
    rw [hdata]
    exact h.ends p List.mem_cons_self (hmatches.1 hm)
  have hports := h.ports
  rw [List.countP_cons] at hports
  have hone : (⟨f, l, q⟩ : RedirectCall).request.length ≤ if f.Matches p then 1 else 0 := by
    unfold RedirectCall.request
    by_cases hm : f.Matches p
    · rw [if_pos (hmatches.2 hm), if_pos hm]
      cases (⟨f, l, q⟩ : RedirectCall).server?.join <;> simp
    · rw [if_neg (mt hmatches.1 hm)]
      exact Nat.zero_le _
  have hnew := r.newPorts_le_length ((⟨f, l, q⟩ : RedirectCall).request ++ [])
  rw [List.append_nil] at hnew
  have hready : r.Ready host ((⟨f, l, q⟩ : RedirectCall).request ++ []) := by
    refine ⟨h.ordered, h.binds, ?_⟩
    rw [List.append_nil]
    simp only [decide_eq_true_eq] at hports
    omega
  obtain ⟨proxy, q', r', happly, hready', _, hport, _⟩ := hready.apply hc
  refine ⟨hc, proxy, q', r', happly, hready'.ordered, hready'.binds,
    fun p hp => h.ends p (List.mem_cons_of_mem _ hp), ?_⟩
  simp only [decide_eq_true_eq] at hports
  rw [if_congr hmatches rfl rfl] at hport
  omega

/-- The connection to the server takes one frame. -/
theorem Redirects.step {px : ROMProxy} (hpx : px.CompleteWrites) (net : Network) {f : Redirect}
    {host : List UInt8} {k : Key} {start : Registry} {ps : List Packet} {r : Session}
    {w : (Session × Outside) × Registry} {frame : Frame k} {fs : List (Frame k)}
    (h : Redirects f host k start ps r w (frame :: fs)) :
    ∃ r' w', look (px.redirectingHost net f) (r, w) frame.bytes =
        .take frame.bytes.length (r', w') ∧ Redirects f host k start ps r' w' fs := by
  obtain ⟨⟨l, out⟩, reg⟩ := w
  obtain ⟨hline, hsame, hlkey, cs, results, toClient, rest, hrun, hcs, hps, hserves, hpayloads,
    hclient, hstream, hresults⟩ := h
  dsimp only at hsame hlkey hrun hserves hclient hstream
  obtain ⟨-, hfs, ⟨hno, p, hp, rfl⟩ | ⟨hk, p, payload, hp, rfl⟩⟩ := hline.cases_cons
  · -- the key frame, which is sent on
    obtain ⟨g, hg, -, hnew⟩ := ROMProxy.onRemoteNewKey_eq hpx
      { r with key := k, haveKey := true } rfl l (px.onRemoteRawPacket p out)
    have hhandle := Session.handlePacket_carriesKey (h := px.redirectingHost net f) hp r
      ((l, out), reg)
    have hcall : (px.redirectingHost net f).onNewKey { r with key := k, haveKey := true }
        ((px.redirectingHost net f).onRawPacketReceived p ((l, out), reg)) =
          (px.onRemoteNewKey { r with key := k, haveKey := true } l
            (px.onRemoteRawPacket p out)).map fun v => (v, reg) := rfl
    rw [hcall, hnew] at hhandle
    rw [hsame, hno] at hclient
    cases hclient with
    | closed hcno =>
        refine ⟨_, _, look_bytes hp.fits hhandle, .data ⟨rfl, rfl⟩ hfs, rfl, fun _ => rfl, cs,
          results, [.key g.frame hg], rest, hrun, hcs, hps, hserves, hpayloads, .key hcno ?_, ?_,
          hresults⟩
        · intro f hf
          cases hf
        · rw [ROMProxy.toClient_logClient, ROMProxy.onRemoteRawPacket, ROMProxy.toClient_logServer,
            hstream, stream_singleton]
          rfl
  · -- a data frame: its packet is rewritten and sent on
    have hlhave : l.haveKey = true := hsame.trans hk.1
    obtain ⟨q, hqlen, hqdata, hhandle⟩ := Session.handlePacket_carries
      (h := px.redirectingHost net f) (hk.2.symm ▸ hp) hk.1 ((l, out), reg)
    rw [payloads_data] at hpayloads
    obtain ⟨p₀, rest, rfl⟩ : ∃ p₀ rest', rest = p₀ :: rest' := by
      cases rest with
      | nil => cases hpayloads
      | cons p₀ rest' => exact ⟨p₀, rest', rfl⟩
    rw [List.map_cons, List.cons.injEq] at hpayloads
    have hqfits := hp.fits_payload hqlen hqdata
    have hq : q.payload = p₀.payload := by
      rw [← hpayloads.1, Packet.payload, hqlen, hqdata]
    obtain ⟨hc, proxy, q', reg', happly, hserves'⟩ := hserves.apply hq hqfits.length_eq
      (net.lookup (px.onRemoteRawPacket p out) reg q)
    have hlen := Redirect.length_apply happly
    obtain ⟨g, hg, hglen, hon⟩ := ROMProxy.onRemotePacket_eq hpx
      (q := q') ⟨by rw [hlen.1, hlen.2, hqfits.length_eq], by rw [hlen.1]; exact hqfits.length_lt⟩ l
      (px.onRemoteRawPacket p out)
    have hcall : (px.redirectingHost net f).onPacket q
        ((px.redirectingHost net f).onRawPacketReceived p ((l, out), reg)) =
          some (g, (({ l with sequence := l.sequence + 1 },
            px.logClient .localRemote .localLocal g { px.onRemoteRawPacket p out with
              toClient := (px.onRemoteRawPacket p out).toClient ++ g.bytes }), reg')) := by
      show px.redirectRemotePacket net f q ((l, px.onRemoteRawPacket p out), reg) = _
      simp only [ROMProxy.redirectRemotePacket, happly, hon, Option.bind_eq_bind,
        Option.bind_some]
      rfl
    rw [hcall] at hhandle
    rw [hlkey hlhave] at hg
    rw [hlhave] at hclient
    refine ⟨_, _, look_bytes hp.fits hhandle, .data hk hfs, hsame, hlkey,
      cs ++ [⟨f, net.lookup (px.onRemoteRawPacket p out) reg q, q⟩], results ++ [(proxy, q')],
      toClient ++ [.data g q'.pData hg], rest,
      ROMProxy.Registry.redirects_snoc hrun happly, ?_, ?_, hserves', hpayloads.2, ?_, ?_, ?_⟩
    · intro c hmem
      rcases List.mem_append.1 hmem with hmem | hmem
      · exact hcs c hmem
      · rw [List.mem_singleton.1 hmem]
        exact ⟨rfl, hc⟩
    · rw [← hps, List.map_append, List.append_assoc, List.map_cons, List.map_cons, ← hq]
      rfl
    · rw [hlhave]
      exact hclient.push trivial
    · rw [ROMProxy.toClient_logClient, ROMProxy.onRemoteRawPacket, ROMProxy.toClient_logServer,
        hstream, stream_append, stream_singleton]
      rfl
    · rw [payloads_append, hresults, List.map_append, payloads_data, hglen]
      rfl

/-! ## The client's side -/

/-- A client without a key decodes what comes behind the key frame. -/
theorem onEvents_peer {k : Key} {fs : List (Frame k)} {opened : Bool}
    (hline : Line k fresh.toSession opened fs) {reads : List (List UInt8)}
    (hreads : ∀ r ∈ reads, IsRead r) (hcut : reads.flatten = stream fs) :
    ∃ c trace, fresh.onEvents peer ((), []) reads = .returned true c ((), trace) ∧
      deliveries trace = payloads fs := by
  let P (st : Session × Unit × List Event) (gs : List (Frame k)) : Prop :=
    Line k st.1 opened gs ∧ deliveries st.2.2 ++ payloads gs = payloads fs
  have hstep : ∀ {st g gs}, P st (g :: gs) → ∃ st', look peer st g.bytes =
      .take g.bytes.length st' ∧ P st' gs := by
    intro st g gs hP
    obtain ⟨c, u, trace⟩ := st
    obtain ⟨hline, hsent⟩ := hP
    obtain ⟨hopen, hgs, ⟨-, p, hp, rfl⟩ | ⟨hk, p, payload, hp, rfl⟩⟩ := hline.cases_cons
    · have hhandle := Session.handlePacket_carriesKey (h := peer) hp c (u, trace)
      refine ⟨_, look_bytes hp.fits hhandle, by rw [hopen]; exact .data ⟨rfl, rfl⟩ hgs, ?_⟩
      rw [← hsent]
      simp [peer, Host.recording, deliveries]
    · obtain ⟨w', trace', hlook, htrace⟩ := look_data (h := Host.quiet) .unused
        (fun _ _ => rfl) hk (f := .data p payload hp) trivial u trace
      refine ⟨_, hlook, by rw [hopen]; exact .data hk hgs, ?_⟩
      rw [← hsent, htrace]
      simp
  obtain ⟨c, ⟨u, trace⟩, hout, hP, -⟩ := ROMConnection.onEvents_of_frames (P := P)
    (c := fresh) (w := ((), [])) hstep ⟨hline, rfl⟩ rfl hreads hcut
  refine ⟨c, trace, hout, ?_⟩
  simpa using hP.2

/-! ## A session -/

/-- A server sends its key and then packets, through a proxy that redirects. However its stream is
cut into reads, and what the proxy writes to the client is, the client decodes every packet once and
in order, each as the registry has it rewritten. -/
theorem redirecting_delivers {px : ROMProxy} (hpx : px.CompleteWrites) (net : Network)
    (f : Redirect) {host : List UInt8} {start : Registry} (server : Session) {memory : Packet}
    (hmemory : ROM_KEY_LENGTH ≤ memory.pData.length) {ps : List Packet} (hps : ∀ p ∈ ps, p.Fits)
    (hserves : f.Serves host start ps) :
    ∃ ok p out server' sent, server.sendKey wire memory [] = some (ok, p, out) ∧
      server.sendPackets out ps = some (server', sent) ∧
      ∀ reads : List (List UInt8), (∀ r ∈ reads, IsRead r) → reads.flatten = sent →
        ∃ c loc out r cs results,
          fresh.onEvents (px.redirectingHost net f)
              ((fresh.toSession, ⟨[], [], []⟩), start) reads =
            .returned true c ((loc, out), r) ∧
          cs.map (fun c => (c.redirect, c.packet.payload)) = ps.map (fun p => (f, p.payload)) ∧
          (∀ c ∈ cs, c.WellFormed) ∧ start.redirects cs = some (results, r) ∧
          ∀ reads' : List (List UInt8), (∀ r ∈ reads', IsRead r) → reads'.flatten = out.toClient →
            ∃ c' trace, fresh.onEvents peer ((), []) reads' = .returned true c' ((), trace) ∧
              deliveries trace = results.map fun x => x.2.payload := by
  obtain ⟨p, hkey, -, hsendKey⟩ := server.sendKey_eq wire hmemory []
  obtain ⟨server', fs, hsends, hdata, hpayloads⟩ := server.sendPackets_eq p.frame.bytes hps
  refine ⟨_, p, p.frame.bytes, server', _, hsendKey, hsends, ?_⟩
  intro reads hreads hcut
  -- the key frame comes before all others
  have hstart : Redirects f host server.key start ps fresh.toSession
      ((fresh.toSession, ⟨[], [], []⟩), start) (.key p.frame hkey :: fs) :=
    ⟨.key rfl hdata, rfl, fun h => absurd h Bool.false_ne_true, [], [], [], ps, rfl,
      List.forall_mem_nil _, rfl, hserves, hpayloads, .closed rfl, rfl, rfl⟩
  let P (st : Session × (Session × Outside) × Registry) (gs : List (Frame server.key)) : Prop :=
    Redirects f host server.key start ps st.1 st.2 gs
  have hstep : ∀ {st g gs}, P st (g :: gs) → ∃ st', look (px.redirectingHost net f) st g.bytes =
      .take g.bytes.length st' ∧ P st' gs := by
    intro st g gs hP
    obtain ⟨r', w', hlook, hP'⟩ := Redirects.step hpx net hP
    exact ⟨(r', w'), hlook, hP'⟩
  have hstream : reads.flatten = stream (.key p.frame hkey :: fs) := hcut
  obtain ⟨c, ⟨⟨loc, out⟩, r⟩, hout, hP, -⟩ := ROMConnection.onEvents_of_frames (P := P)
    (c := fresh) hstep hstart rfl hreads hstream
  obtain ⟨cs, results, toClient, rest, hrun, hcs, hhandled, -, hrest, hclient, hto, hresults⟩ :=
    hP.handled
  -- no frame is left, so every packet has been handled
  rw [List.map_eq_nil_iff.1 hrest.symm, List.map_nil, List.append_nil] at hhandled
  refine ⟨c, loc, out, r, cs, results, hout, ?_, fun c hc => (hcs c hc).2, hrun, ?_⟩
  · have hsame : cs.map (fun c => (c.redirect, c.packet.payload)) =
        (cs.map fun c => c.packet.payload).map fun x => (f, x) := by
      rw [List.map_map]
      exact List.map_congr_left fun c hc => Prod.ext (hcs c hc).1 rfl
    rw [hsame, hhandled, List.map_map]
    rfl
  · intro reads' hreads' hcut'
    obtain ⟨c', trace, hout', htrace⟩ := onEvents_peer hclient hreads' (hcut'.trans hto)
    exact ⟨c', trace, hout', htrace.trans hresults⟩

/-- A session of two packets, of which one names a server. -/
def gameSession : List Packet := [Registry.redirectCall.packet, threeBytes]

theorem serves_gameSession : GameProxiedConnection.redirect.Serves
    (Registry.ipv4 127 0 0 1 21002).inetNtoa
    (Registry.start (Registry.ipv4 127 0 0 1 21002) (Registry.ipv4 10 0 0 1 21002))
    gameSession where
  ordered := Registry.ordered_start rfl _
  binds := .start rfl _
  ends := by decide +kernel
  ports := by decide +kernel

theorem redirecting_delivers_gameSession :
    let start := Registry.start (Registry.ipv4 127 0 0 1 21002) (Registry.ipv4 10 0 0 1 21002)
    let host := ROMProxy.plain.redirectingHost ⟨fun _ _ _ => Registry.redirectCall.lookup⟩
      GameProxiedConnection.redirect
    ∃ ok p out server' sent,
      fresh.toSession.sendKey wire keyMemory [] = some (ok, p, out) ∧
      fresh.toSession.sendPackets out gameSession = some (server', sent) ∧
      ∀ reads : List (List UInt8), (∀ r ∈ reads, IsRead r) → reads.flatten = sent →
        ∃ c loc out r cs results,
          fresh.onEvents host ((fresh.toSession, ⟨[], [], []⟩), start) reads =
            .returned true c ((loc, out), r) ∧
          cs.map (fun c => (c.redirect, c.packet.payload)) =
            gameSession.map (fun p => (GameProxiedConnection.redirect, p.payload)) ∧
          (∀ c ∈ cs, c.WellFormed) ∧ start.redirects cs = some (results, r) ∧
          ∀ reads' : List (List UInt8), (∀ r ∈ reads', IsRead r) → reads'.flatten = out.toClient →
            ∃ c' trace, fresh.onEvents peer ((), []) reads' = .returned true c' ((), trace) ∧
              deliveries trace = results.map fun x => x.2.payload := by
  refine redirecting_delivers ROMProxy.completeWrites_plain _ _ fresh.toSession (by decide) ?_
    serves_gameSession
  intro p hp
  rcases List.mem_cons.1 hp with rfl | hp
  · exact ⟨by decide +kernel, by decide +kernel⟩
  · rw [List.mem_singleton.1 hp]
    exact ⟨by decide, by decide⟩

end OpenRom
