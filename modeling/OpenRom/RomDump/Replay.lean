import OpenRom.Proxy.LoggedRun
import OpenRom.RomDump.LogFile

/-!
# The log of a run, read again

What `romdump` makes of the log of a proxied connection. The key comes first in the log; then every
frame that is logged is reported once and in order, with the payload that the proxy had for it,
until a flow is full (`reports_exchanges`). So the whole log is read again when every direction
stays within the largest buffer of a flow (`LoggedRun.replay_iff`), and a longer one is not
(`LoggedRun.replay_fails`).
-/

set_option autoImplicit false

namespace OpenRom

open RomDump

/-! ## Entries of the log -/

/-- What `Write` is called with, for the addresses of the sockets. -/
def LogEntry.toEntry (addr : Endpoint → IPv4Address) (e : LogEntry) : RomDump.Entry :=
  ⟨addr e.source, addr e.dest, e.packet⟩

/-- The record that is written. -/
def LogEntry.record (addr : Endpoint → IPv4Address) (e : LogEntry) : Record :=
  (e.toEntry addr).record

/-- What `AnalyzePacket` should find out about a frame: its header, the payload, and that both
checksums are right. -/
def Exchange.report (addr : Endpoint → IPv4Address) (x : Exchange Endpoint) : Report :=
  ⟨⟨addr x.source, addr x.dest⟩, { x.frame with pData := x.payload }, true, true⟩

/-- The report is about a data packet. -/
def RomDump.Report.isData (r : Report) : Bool := r.packet.pFlag == ROM_PACKET_FLAG_ENCRYPTED

theorem sendable_of_fits {e : RomDump.Entry} (he : e.packet.frame.Fits) : e.Sendable := by
  have hlen : e.packet.frame.pLength = e.packet.pLength := rfl
  have heq := he.length_eq
  have hlt := he.length_lt
  rw [hlen] at heq hlt
  refine ⟨by omega, hlt, ?_⟩
  rw [Packet.frame, List.length_take] at heq
  omega

/-! ## What is reported -/

section Analyze

variable (flags : DisplayFlags) (conn : RomDump.Connection) {k : Key}

/-- A data frame under the key is found to be right. -/
theorem analyzePacket_carries {f : Packet} {payload : List UInt8} (hf : Carries k f payload) :
    analyzePacket flags conn k f =
      some (k, some ⟨conn, { f with pData := payload }, true, true⟩) := by
  obtain ⟨key, hkey, hdata, hck⟩ := hf.decrypts
  have hskip : ¬ (f.pFlag &&& (ROM_PACKET_FLAG_ALIVE_REQUEST ||| ROM_PACKET_FLAG_ALIVE_REPLY) ≠ 0 ∧
      flags.showKeepalive = false) := fun h => h.1 (by rw [hf.flag]; rfl)
  have hplain : f.decrypt key = { f with pData := payload } := by
    rw [Packet.decrypt, ← hdata]
    rfl
  rw [analyzePacket, if_neg hskip, if_neg (key_of_encrypted hf.flag), examine, if_pos hf.flag, hkey]
  simp only [Option.map_some]
  rw [hck, hf.headerChecksum, hplain]

/-- A frame of `SendKey` sets the key, and is not reported as data. -/
theorem analyzePacket_carriesKey (key : Key) {f : Packet} (hf : CarriesKey k f)
    (hflag : f.pFlag = ROM_PACKET_FLAG_KEY ||| ROM_PACKET_FLAG_ENCRYPTED) :
    ∃ report, analyzePacket flags conn key f = some (k, report) ∧
      report.toList.filter Report.isData = [] := by
  have hskip : ¬ (f.pFlag &&& (ROM_PACKET_FLAG_ALIVE_REQUEST ||| ROM_PACKET_FLAG_ALIVE_REPLY) ≠ 0 ∧
      flags.showKeepalive = false) := fun h => h.1 (by rw [hflag]; rfl)
  have hlen : f.pData.length = ROM_KEY_LENGTH := by
    rw [← k.length_bytes, ← hf.data, List.length_map]
  have hkey : (⟨f.pData.map (unmangle 8), by rw [List.length_map, hlen]⟩ : Key) = k := by
    obtain ⟨bytes, hbytes⟩ := k
    have hdata := hf.data
    simp only at hdata
    subst hdata
    rfl
  have hplain : f.pFlag ≠ ROM_PACKET_FLAG_ENCRYPTED := by
    rw [hflag]
    decide
  rw [analyzePacket, if_neg hskip, if_pos hf.flag, dif_pos hlen, hkey]
  cases flags.key with
  | false => exact ⟨none, rfl, rfl⟩
  | true =>
      rw [if_neg (by simp), examine, if_neg hplain]
      refine ⟨_, rfl, ?_⟩
      simp [Report.isData, hplain]

end Analyze

section Visit

variable (flags : DisplayFlags) (addr : Endpoint → IPv4Address) {k : Key}

theorem total_le_capacity {d : Dump} (hd : d.Idle) (c : RomDump.Connection) :
    total c d.appended ≤ Flow.capacity := by
  rw [← hd.used c]
  exact Nat.le_trans (hd.sound c).used_le (hd.sound c).size_le

/-- The frames of the key come first. -/
theorem visit_keys {keys : List LogEntry} (hkeys : ∀ e ∈ keys, CarriesKey k e.packet.frame ∧
      e.packet.pFlag = ROM_PACKET_FLAG_KEY ||| ROM_PACKET_FLAG_ENCRYPTED) {d : Dump} (hd : d.Idle)
    (hroom : ∀ c, total c d.appended + 22 * keys.length ≤ Flow.capacity)
    (hkey : keys = [] → d.key = k) (hreports : d.reports.filter Report.isData = []) :
    ∃ d', (keys.map (LogEntry.record addr)).foldl (visit flags) d = d' ∧ d'.Idle ∧ d'.key = k ∧
      d'.reports.filter Report.isData = [] ∧
        d'.appended = d.appended ++ keys.map (LogEntry.record addr) := by
  induction keys generalizing d with
  | nil => exact ⟨d, rfl, hd, hkey rfl, hreports, (List.append_nil _).symm⟩
  | cons e keys ih =>
      obtain ⟨he, hflag⟩ := hkeys e List.mem_cons_self
      have hsend : (e.toEntry addr).Sendable := sendable_of_fits he.fits
      have hbytes : (e.record addr).data = e.packet.frame.bytes := hsend.data_record
      -- a frame of the key has 22 bytes
      have hlen : (e.record addr).data.length = 22 := by
        have hdata := congrArg List.length he.data
        rw [List.length_map, k.length_bytes] at hdata
        rw [hbytes, Packet.length_bytes, hdata]
        rfl
      have hroom' := hroom (e.record addr).connection
      rw [List.length_cons] at hroom'
      obtain ⟨report, hanalyze, hnone⟩ := analyzePacket_carriesKey flags
        (e.record addr).connection d.key he hflag
      obtain ⟨hidle, happended, hkey', hreports'⟩ := visit_of_analyzePacket flags hd he.fits
        hbytes (by rw [hlen]; omega) hanalyze
      have hroom'' : ∀ c, total c (visit flags d (e.record addr)).appended + 22 * keys.length ≤
          Flow.capacity := by
        intro c
        have hle := hroom c
        rw [List.length_cons] at hle
        rw [happended, total_append, total_singleton, hlen]
        split <;> omega
      have hnone' : (visit flags d (e.record addr)).reports.filter Report.isData = [] := by
        rw [hreports', List.filter_append, hreports, hnone]
        rfl
      obtain ⟨d', hd', hrest⟩ :=
        ih (fun e he => hkeys e (List.mem_cons_of_mem _ he)) hidle hroom'' (fun _ => hkey') hnone'
      rw [happended, List.append_assoc] at hrest
      exact ⟨d', hd', hrest⟩

/-- Behind the key, every frame is reported, as long as there is space in its flow. -/
theorem reports_exchanges {xs : List (Exchange Endpoint)}
    (hxs : ∀ x ∈ xs, Carries k x.frame x.payload) {d : Dump} (hd : d.Idle) (hkey : d.key = k) :
    ((xs.map fun x => x.entry.record addr).foldl (visit flags) d).reports.filter Report.isData =
        d.reports.filter Report.isData ++ xs.map (Exchange.report addr) ↔
      ∀ c, total c (d.appended ++ xs.map fun x => x.entry.record addr) ≤ Flow.capacity := by
  induction xs generalizing d with
  | nil =>
      refine iff_of_true (List.append_nil _).symm fun c => ?_
      rw [List.map_nil, List.append_nil]
      exact total_le_capacity hd c
  | cons x xs ih =>
      have hx := hxs x List.mem_cons_self
      have hframe : x.frame.frame = x.frame := hx.fits.frame
      have hsend : (x.entry.toEntry addr).Sendable := sendable_of_fits (by
        show x.frame.frame.Fits
        rw [hframe]
        exact hx.fits)
      have hdata : (x.entry.record addr).data = x.frame.bytes :=
        hsend.data_record.trans (congrArg Packet.bytes hframe)
      have hshort : (x.entry.record addr).data.length ≤ 131072 := by
        have hlt := hx.fits.length_lt
        unfold s_MaxPacketSize at hlt
        rw [hdata, hx.fits.length_bytes]
        omega
      rw [List.map_cons, List.map_cons, List.foldl_cons]
      by_cases hroom : total (x.entry.record addr).connection d.appended +
          (x.entry.record addr).data.length ≤ Flow.capacity
      · obtain ⟨hidle, happended, hkey', hreports⟩ := visit_of_analyzePacket flags hd hx.fits hdata
          hroom (analyzePacket_carries flags _ (hkey.symm ▸ hx))
        have hrest := ih (fun x hx => hxs x (List.mem_cons_of_mem _ hx)) hidle (hkey'.trans hkey)
        have hdata : (x.report addr).isData = true := beq_iff_eq.2 hx.flag
        have hreport : (⟨(x.entry.record addr).connection, { x.frame with pData := x.payload },
          true, true⟩ : Report) = x.report addr := rfl
        rw [happended, hreports, List.filter_append, List.append_assoc, Option.toList_some, hreport,
          List.filter_cons_of_pos hdata, List.filter_nil, List.append_assoc] at hrest
        exact hrest
      · -- the program ends, and the frame is not reported
        obtain ⟨hended, hreports⟩ := visit_full flags hd hshort (Nat.lt_of_not_le hroom)
        rw [foldl_visit_of_ended hended, hreports]
        refine iff_of_false (fun h => ?_) fun h => hroom ?_
        · have hnil := List.self_eq_append_right.1 h
          exact absurd hnil (List.cons_ne_nil _ _)
        · have hle := h (x.entry.record addr).connection
          rw [← List.singleton_append, ← List.append_assoc, total_append, total_append,
            total_singleton, if_pos rfl] at hle
          omega

end Visit

/-! ## The log of a run -/

/-- What is reported of the data frames in the log of a run is what has been exchanged, when no
direction is longer than the largest buffer of a flow. -/
theorem LogHolds.replay {px : ROMProxy} {k : Key} {log : List LogEntry}
    {exchanges : List (Exchange Endpoint)} {haveKey : Bool}
    (h : LogHolds px k log exchanges haveKey) (flags : DisplayFlags)
    (addr : Endpoint → IPv4Address) :
    (main flags (logFile (log.map (LogEntry.toEntry addr)))).reports.filter Report.isData =
        (exchanges.filter px.logs).map (Exchange.report addr) ↔
      ∀ c, total c (log.map (LogEntry.record addr)) ≤ Flow.capacity := by
  -- before there is a key, the keys are none, and so are the exchanges
  obtain ⟨keys, hsplit, hlen, hkeys, hnone⟩ : ∃ keys : List LogEntry,
      log = keys ++ (exchanges.filter px.logs).map Exchange.entry ∧ keys.length ≤ 2 ∧
        (∀ e ∈ keys, CarriesKey k e.packet.frame ∧
          e.packet.pFlag = ROM_PACKET_FLAG_KEY ||| ROM_PACKET_FLAG_ENCRYPTED) ∧
        (keys = [] → exchanges = []) := by
    cases haveKey with
    | false =>
        obtain ⟨rfl, rfl⟩ := h.before rfl
        exact ⟨[], rfl, Nat.zero_le _, nofun, fun _ => rfl⟩
    | true =>
        obtain ⟨keys, hsplit, hne, hlen, hkeys⟩ := h.after rfl
        exact ⟨keys, hsplit, hlen, hkeys, fun hnil => absurd hnil hne⟩
  have hcarries : ∀ x ∈ exchanges.filter px.logs, Carries k x.frame x.payload :=
    fun x hx => h.carries x (List.mem_filter.1 hx).1
  have hsendable : ∀ e ∈ log.map (LogEntry.toEntry addr), e.Sendable := by
    intro e he
    obtain ⟨e', he', rfl⟩ := List.mem_map.1 he
    refine sendable_of_fits ?_
    rw [hsplit] at he'
    rcases List.mem_append.1 he' with he' | he'
    · exact (hkeys e' he').1.fits
    · obtain ⟨x, hx, rfl⟩ := List.mem_map.1 he'
      have hfits := (hcarries x hx).fits
      exact hfits.frame.symm ▸ hfits
  have hrecords : (log.map (LogEntry.toEntry addr)).map Entry.record =
      keys.map (LogEntry.record addr) ++
        (exchanges.filter px.logs).map fun x => x.entry.record addr := by
    rw [hsplit, List.map_map, List.map_append, List.map_map]
    rfl
  have hlog : log.map (LogEntry.record addr) = keys.map (LogEntry.record addr) ++
      (exchanges.filter px.logs).map fun x => x.entry.record addr := by
    rw [← hrecords, List.map_map]
    rfl
  rw [main_logFile_eq flags hsendable, hrecords, hlog, process, List.foldl_append]
  by_cases hempty : keys = []
  · obtain rfl := hnone hempty
    subst hempty
    exact iff_of_true rfl fun c => Nat.zero_le _
  · obtain ⟨d', hd', hidle, hkey, hnothing, happended⟩ := visit_keys flags addr hkeys
      Dump.idle_start (fun c => by
        show 0 + 22 * keys.length ≤ Flow.capacity
        unfold Flow.capacity
        omega)
      (fun hnil => absurd hnil hempty) rfl
    have hrest := reports_exchanges flags addr hcarries hidle hkey
    rw [hnothing, happended] at hrest
    rw [hd']
    exact hrest

/-- The data packets that `romdump` reports of the log are the data frames that have been exchanged
and logged, each once and in the order of the log, with both checksums right and with the payload
that the proxy had, exactly when what was logged of no direction is longer than the largest buffer
of a flow. -/
theorem LoggedRun.replay_iff (px : ROMProxy) (hpx : px.CompleteWrites)
    (hlog : px.mustLogProxyClientTraffic = true) {s : LoggedRun} (hs : Reachable px s)
    (flags : DisplayFlags) (addr : Endpoint → IPv4Address) :
    (main flags (logFile (s.outside.log.map (LogEntry.toEntry addr)))).reports.filter
        Report.isData = (s.notes.exchanges.filter px.logs).map (Exchange.report addr) ↔
      ∀ c, total c (s.outside.log.map (LogEntry.record addr)) ≤ Flow.capacity := by
  obtain ⟨k, hsound⟩ := Sound.of_reachable hpx hlog hs
  exact hsound.log.replay flags addr

/-- A proxy with a log of the client's traffic. -/
def ROMProxy.logging : ROMProxy := { ROMProxy.plain with mustLogProxyClientTraffic := true }

theorem ROMProxy.completeWrites_logging : ROMProxy.logging.CompleteWrites := fun _ _ => ⟨rfl, rfl⟩

/-- Four addresses. -/
def addresses : Endpoint → IPv4Address
  | .localLocal => ⟨1, 1⟩
  | .localRemote => ⟨2, 2⟩
  | .remoteLocal => ⟨3, 3⟩
  | .remoteRemote => ⟨4, 4⟩

/-! ## Long logs -/

namespace LoggedRun

/-- The direction to the client. -/
def towardsClient : RomDump.Connection := ⟨addresses .localRemote, addresses .localLocal⟩

/-- After many of the longest data frames of the server. -/
structure Flooded (k : Key) (n : Nat) (s : LoggedRun) : Prop where
  reachable : Reachable .logging s
  sound : s.Sound .logging k
  opened : s.opened = true
  going : s.closed = false
  holds : s.proxy.remoteConnection.toSession.Holds k
  buffer : s.proxy.remoteConnection.buffer.data = []
  fromServer : s.fromServer = []
  total_ge : 131071 * n ≤ total towardsClient (s.outside.log.map (LogEntry.record addresses))

/-- The longest packet that is accepted. -/
def longest : Packet := ⟨131071, 0, 0, 0, 0, 0, List.replicate 131059 0⟩

theorem fits_longest : longest.Fits := by
  have hdata : longest.pData.length = 131059 := List.length_replicate
  refine ⟨?_, (by decide : 131071 < s_MaxPacketSize)⟩
  rw [hdata]
  rfl

/-- Another frame goes through. -/
theorem Flooded.next {k : Key} {n : Nat} {s : LoggedRun} (h : Flooded k n s) :
    ∃ s', Flooded k (n + 1) s' := by
  obtain ⟨f, hf, hflen, hsend⟩ := s.server.sendPacket_eq wire fits_longest s.fromServer
  rw [h.sound.server.2] at hf
  rw [h.fromServer, wire, List.nil_append] at hsend
  let s₁ : LoggedRun := { s with
    server := { s.server with sequence := s.server.sequence + 1 }
    fromServer := f.bytes }
  have hreach : Reachable .logging s₁ :=
    h.reachable.step
      (.serverSend h.opened fits_longest.length_eq (by rw [h.fromServer]; exact hsend))
  have hsound : s₁.Sound .logging k :=
    h.sound.serverSend h.opened fits_longest.length_eq (by rw [h.fromServer]; exact hsend)
  have hlkey : s.proxy.localConnection.key = k :=
    h.sound.localKey (h.sound.sameKey.trans h.holds.1)
  obtain ⟨g, hg, hglen, hlook⟩ := ROMProxy.look_remoteNoting ROMProxy.completeWrites_logging h.holds
    (l := s.proxy.localConnection.toSession) hlkey hf s.outside s.notes
  -- the whole frame is delivered in one read
  let P (st : Session × (Session × Outside) × Notes Endpoint) (fs : List (Frame k)) : Prop :=
    (fs = [.data f longest.pData hf] ∧
      st = (s.proxy.remoteConnection.toSession, (s.proxy.localConnection.toSession, s.outside),
        s.notes)) ∨
    (fs = [] ∧ st.1.Holds k ∧ st.2.1.2.log = s.outside.log ++ [⟨.localRemote, .localLocal, g⟩])
  have hstep : ∀ {st f' fs}, P st (f' :: fs) →
      ∃ st', look ROMProxy.logging.remoteNoting st f'.bytes = .take f'.bytes.length st' ∧
        P st' fs := by
    rintro st f' fs (⟨hfs, rfl⟩ | ⟨hfs, -⟩)
    · obtain ⟨rfl, rfl⟩ := List.cons.inj hfs
      exact ⟨_, hlook, Or.inr ⟨rfl, h.holds, rfl⟩⟩
    · cases hfs
  have hlen : f.bytes.length = 131071 := by
    rw [hf.fits.length_bytes, hflen]
    rfl
  have hread : ROMConnection.IsRead f.bytes := by
    refine ⟨fun hnil => ?_, by rw [hlen]; decide⟩
    rw [hnil] at hlen
    cases hlen
  have hsettled : Settled s.proxy.remoteConnection.buffer.data := by
    rw [h.buffer]
    exact settled_nil
  have hline : s.proxy.remoteConnection.buffer.data ++ (f.bytes ++ []) =
      ([Frame.data f longest.pData hf].map Frame.bytes).flatten := by
    rw [h.buffer]
    rfl
  obtain ⟨c', ⟨⟨l', out'⟩, notes'⟩, fs', hevent, hP', hstream, hsettled'⟩ :=
    ROMConnection.onEvent_of_frames (P := P) hstep (Or.inl ⟨rfl, rfl⟩) hsettled hread hline
  rw [List.append_nil] at hstream
  obtain rfl := Settled.eq_nil (hstream ▸ hsettled')
  obtain ⟨-, hholds, hlog⟩ := hP'.resolve_left fun hleft => List.cons_ne_nil _ _ hleft.1.symm
  have hnote : s₁.proxy.noteRemoteEvent .logging f.bytes s₁.outside s₁.notes =
      some (true, ⟨⟨l', s.proxy.localConnection.buffer⟩, c'⟩, out', notes') := by
    rw [ROMProxiedConnection.noteRemoteEvent, hevent]
  have hfrom : s₁.fromServer = f.bytes ++ [] := (List.append_nil _).symm
  have hstep' : Step .logging s₁ _ := .remoteEvent h.going (by rw [hlen]; decide) hfrom hnote
  refine ⟨_, hreach.step hstep', hsound.step ROMProxy.completeWrites_logging rfl hstep', h.opened,
    rfl, hholds, hstream, rfl, ?_⟩
  have hentry :
      (LogEntry.record addresses ⟨.localRemote, .localLocal, g⟩).data.length = 131071 := by
    have hsendable : (LogEntry.toEntry addresses ⟨.localRemote, .localLocal, g⟩).Sendable :=
      sendable_of_fits (hg.fits.frame.symm ▸ hg.fits)
    refine hsendable.length_record.trans ?_
    show g.pLength.toNat = 131071
    rw [hglen, hflen]
    rfl
  have htotal := h.total_ge
  show 131071 * (n + 1) ≤ total towardsClient (out'.log.map (LogEntry.record addresses))
  rw [hlog, List.map_append, total_append, List.map_singleton, total_singleton, hentry,
    if_pos (by rfl)]
  omega

/-- The key frame goes through. -/
theorem exists_flooded_zero : ∃ s, Flooded .zero 0 s := by
  have hroom : ROM_KEY_LENGTH ≤ keyMemory.pData.length := by decide
  obtain ⟨p, hp, hflag, hsend⟩ := (start .zero 1).server.sendKey_eq wire hroom []
  let s₁ : LoggedRun := { start .zero 1 with opened := true, fromServer := p.frame.bytes }
  have hreach : Reachable .logging s₁ := .step (.start .zero 1) (.sendKey rfl hsend)
  have hsound : s₁.Sound .logging .zero := (Sound.start .logging .zero 1).sendKey rfl hsend
  -- the proxy's connection takes the key frame, which is all there is
  let P (st : Session × (Session × Outside) × Notes Endpoint) (fs : List (Frame .zero)) : Prop :=
    RemoteLogs .logging .zero s₁ st.1 st.2.1.1 st.2.1.2 st.2.2 fs
  have hstep : ∀ {st f fs}, P st (f :: fs) → ∃ st', look ROMProxy.logging.remoteNoting st f.bytes =
      .take f.bytes.length st' ∧ P st' fs := by
    intro st f fs hP
    obtain ⟨r', l', out', notes', hlook, hP'⟩ :=
      RemoteLogs.step ROMProxy.completeWrites_logging rfl hP
    exact ⟨(r', (l', out'), notes'), hlook, hP'⟩
  have hstart : P (s₁.proxy.remoteConnection.toSession,
      (s₁.proxy.localConnection.toSession, s₁.outside), s₁.notes) [.key p.frame hp] := by
    refine ⟨.key rfl nofun, fun f hf => ?_, rfl, hsound.localKey, id, hsound.client, hsound.log⟩
    obtain rfl := List.mem_singleton.1 hf
    exact hflag
  have hlen : p.frame.bytes.length = 22 := by
    have hdata := congrArg List.length hp.data
    rw [List.length_map, Key.length_bytes] at hdata
    rw [Packet.length_bytes, hdata]
    rfl
  have hread : ROMConnection.IsRead p.frame.bytes := by
    refine ⟨fun hnil => ?_, by rw [hlen]; decide⟩
    rw [hnil] at hlen
    cases hlen
  have hline : s₁.proxy.remoteConnection.buffer.data ++ (p.frame.bytes ++ []) =
      ([Frame.key p.frame hp].map Frame.bytes).flatten := rfl
  obtain ⟨c', ⟨⟨l', out'⟩, notes'⟩, fs', hevent, hP', hstream, hsettled'⟩ :=
    ROMConnection.onEvent_of_frames (P := P) hstep hstart nofun hread hline
  rw [List.append_nil] at hstream
  obtain rfl := Settled.eq_nil (hstream ▸ hsettled')
  have hnote : s₁.proxy.noteRemoteEvent .logging p.frame.bytes s₁.outside s₁.notes =
      some (true, ⟨⟨l', s₁.proxy.localConnection.buffer⟩, c'⟩, out', notes') := by
    rw [ROMProxiedConnection.noteRemoteEvent, hevent]
  have hfrom : s₁.fromServer = p.frame.bytes ++ [] := (List.append_nil _).symm
  have hstep' : Step .logging s₁ _ := .remoteEvent rfl (by rw [hlen]; decide) hfrom hnote
  have hholds : c'.toSession.Holds .zero := by
    have hline : Line .zero c'.toSession true [] := hP'.line
    cases hline with
    | data hk _ => exact hk
  exact ⟨_, hreach.step hstep', hsound.step ROMProxy.completeWrites_logging rfl hstep', rfl, rfl,
    hholds, hstream, rfl, Nat.zero_le _⟩

/-- Any number of frames can follow. -/
theorem exists_flooded (n : Nat) : ∃ s, Flooded .zero n s := by
  induction n with
  | zero => exact exists_flooded_zero
  | succ n ih =>
      obtain ⟨s, hs⟩ := ih
      exact hs.next

/-- The log of a run with one of the longest frames, which is behind the key in the direction to the
client. -/
theorem replay_flooded : ∃ s : LoggedRun,
    131071 ≤ total towardsClient (s.outside.log.map (LogEntry.record addresses)) ∧
    ((main ⟨false, false⟩ (logFile (s.outside.log.map (LogEntry.toEntry addresses)))).reports.filter
        Report.isData = (s.notes.exchanges.filter ROMProxy.logging.logs).map
          (Exchange.report addresses) ↔
      ∀ c, total c (s.outside.log.map (LogEntry.record addresses)) ≤ Flow.capacity) := by
  obtain ⟨s, hs⟩ := exists_flooded 1
  exact ⟨s, hs.total_ge, replay_iff .logging ROMProxy.completeWrites_logging rfl hs.reachable
    ⟨false, false⟩ addresses⟩

/-- The server sends 32751 of the longest frames, more than fits the largest buffer of a flow. -/
theorem replay_fails :
    ¬ ∀ (px : ROMProxy), px.CompleteWrites → px.mustLogProxyClientTraffic = true →
      ∀ s, Reachable px s → ∀ (flags : DisplayFlags) (addr : Endpoint → IPv4Address),
        (main flags (logFile (s.outside.log.map (LogEntry.toEntry addr)))).reports.filter
          Report.isData = (s.notes.exchanges.filter px.logs).map (Exchange.report addr) := by
  intro hall
  obtain ⟨s, hs⟩ := exists_flooded 32751
  have hreplay := hall .logging ROMProxy.completeWrites_logging rfl s hs.reachable ⟨false, false⟩
    addresses
  have hle := (hs.sound.log.replay ⟨false, false⟩ addresses).1 hreplay towardsClient
  have hge := hs.total_ge
  unfold Flow.capacity at hle
  omega

end LoggedRun

end OpenRom
