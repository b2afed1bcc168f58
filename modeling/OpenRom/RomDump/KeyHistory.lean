import Mathlib.Data.List.Forall2
import OpenRom.Connection.Trace
import OpenRom.RomDump.Sessions

/-!
# A connection and romdump on the same stream

`OnEvent` and `AnalyzePacket` come to the same frames of a stream, and each keeps the key of the key
frames that it takes. They do not take the same ones: `AnalyzePacket` skips a key frame with a
keepalive bit, and ends the program at another one of the wrong length. So they agree about a
stream just when neither happens to matter (`reproduces_iff`).
-/

set_option autoImplicit false

namespace OpenRom

open Reassembly

variable {ω : Type}

/-! ## Keys -/

/-- The key that a key frame carries. -/
def Packet.key? (f : Packet) : Option Key :=
  if h : f.pFlag &&& ROM_PACKET_FLAG_KEY ≠ 0 ∧ f.pData.length = ROM_KEY_LENGTH then
    some ⟨f.pData.map (unmangle 8), by rw [List.length_map, h.2]⟩
  else none

theorem Packet.key?_eq_none_iff {f : Packet} :
    f.key? = none ↔ ¬ (f.pFlag &&& ROM_PACKET_FLAG_KEY ≠ 0 ∧ f.pData.length = ROM_KEY_LENGTH) := by
  unfold key?
  split
  next h => exact iff_of_false (Option.some_ne_none _) fun hnot => hnot h
  next h => exact iff_of_true rfl h

/-- The key in the last of some frames that carries one. -/
def streamKey (fs : List Packet) : Option Key := fs.reverse.findSome? Packet.key?

theorem streamKey_concat (fs : List Packet) (f : Packet) :
    streamKey (fs ++ [f]) = f.key?.or (streamKey fs) := by
  rw [streamKey, List.reverse_append, List.reverse_singleton, List.singleton_append,
    List.findSome?_cons]
  cases f.key? <;> rfl

namespace Session

/-- The key that a connection has. -/
def key? (s : Session) : Option Key := if s.haveKey then some s.key else none

/-- The session behind a frame that is flushed. -/
def keyedBy (s : Session) (f : Packet) : Session :=
  match f.key? with
  | none => s
  | some k => { s with key := k, haveKey := true }

theorem key?_keyedBy (s : Session) (f : Packet) : (s.keyedBy f).key? = f.key?.or s.key? := by
  unfold keyedBy
  cases f.key? with
  | none => rfl
  | some k => rfl

/-- The packet that the connection hands to `OnPacket` for a frame. -/
def delivered (s : Session) (f : Packet) : Option Packet :=
  match s.course f with
  | .deliver key => some (f.decrypt key)
  | _ => none

/-- The connection neither gives up at the frame nor reads behind the key. -/
def GoesOn (s : Session) (f : Packet) : Prop :=
  s.course f ≠ .badHeader ∧ s.course f ≠ .outsideKey ∧ ∀ key, s.course f ≠ .badData key

/-- Only what is encrypted is delivered. -/
theorem delivered_of_not_encrypted {s : Session} {f : Packet}
    (hflag : f.pFlag ≠ ROM_PACKET_FLAG_ENCRYPTED) : s.delivered f = none := by
  unfold delivered
  cases hc : s.course f with
  | deliver key => exact absurd (course_eq_deliver hc).1.1 hflag
  | _ => rfl

/-- An encrypted frame at which the connection goes on is delivered, once there is a key. -/
theorem delivered_of_encrypted {s : Session} {f : Packet} (hs : s.GoesOn f)
    (hflag : f.pFlag = ROM_PACKET_FLAG_ENCRYPTED) :
    match s.key? with
    | none => s.delivered f = none
    | some k => f.headerChecksumOK = true ∧ ∃ key, k.byteFor f.pKeynum = some key ∧
        (f.decrypt key).dataChecksumOK key = true ∧ s.delivered f = some (f.decrypt key) := by
  obtain ⟨hheader, houtside, hdata⟩ := hs
  unfold key? delivered
  by_cases hhave : s.haveKey = true
  · have hread : f.Readable := by
      refine ⟨hflag, Decidable.byContradiction fun hnot => hheader ?_⟩
      rw [course, if_neg (RomDump.key_of_encrypted hflag), if_pos hnot]
    have hc := course_of_readable hread hhave
    rw [if_pos hhave]
    cases hbyte : s.key.byteFor f.pKeynum with
    | none => exact absurd (by rw [hc, hbyte]) houtside
    | some key =>
        simp only [hbyte] at hc
        by_cases hok : ¬ (f.decrypt key).dataChecksumOK key
        · rw [if_pos hok] at hc
          exact absurd hc (hdata key)
        · rw [if_neg hok] at hc
          exact ⟨hread.2, key, hbyte, Decidable.not_not.1 hok, by rw [hc]⟩
  · rw [if_neg hhave]
    cases hc : s.course f with
    | deliver key =>
        rcases course_of_not_readable (f := f) (fun hall => hhave hall.2) with
          h | h | h | h | h | h <;> rw [h] at hc <;> cases hc
    | _ => rfl

end Session

/-! ## Frames that a connection takes -/

/-- The frames, with what is handed to `OnPacket` of each, by the calls that are noted: every
packet belongs to the frame that came in last. -/
def handled (trace : List Event) : List (Packet × Option Packet) :=
  trace.foldl (fun fs e =>
    match e with
    | .raw f => fs ++ [(f, none)]
    | .packet p => fs.dropLast ++ fs.getLast?.toList.map fun f => (f.1, some p)
    | .newKey _ | .keepaliveReply _ => fs) []

@[simp] theorem handled_raw (trace : List Event) (f : Packet) :
    handled (trace ++ [.raw f]) = handled trace ++ [(f, none)] := by
  rw [handled, List.foldl_append]
  rfl

@[simp] theorem handled_newKey (trace : List Event) (k : Key) :
    handled (trace ++ [.newKey k]) = handled trace := by
  rw [handled, List.foldl_append]
  rfl

@[simp] theorem handled_keepaliveReply (trace : List Event) (bs : List UInt8) :
    handled (trace ++ [.keepaliveReply bs]) = handled trace := by
  rw [handled, List.foldl_append]
  rfl

@[simp] theorem handled_packet (trace : List Event) (f p : Packet) :
    handled (trace ++ [.raw f] ++ [.packet p]) = handled trace ++ [(f, some p)] := by
  have hlast : handled (trace ++ [.raw f] ++ [.packet p]) =
      (handled (trace ++ [.raw f])).dropLast ++
        (handled (trace ++ [.raw f])).getLast?.toList.map fun f => (f.1, some p) := by
    rw [handled, List.foldl_append]
    rfl
  rw [hlast, handled_raw, List.dropLast_concat, List.getLast?_concat]
  rfl

theorem Session.keyedBy_of_course {s : Session} {f : Packet} (hc : s.course f ≠ .newKey) :
    s.keyedBy f = s := by
  have hnone : f.key? = none :=
    Packet.key?_eq_none_iff.2 fun hall => hc (course_eq_newKey_iff.2 hall)
  rw [keyedBy, hnone]

/-- What is noted of a frame that is flushed. -/
theorem Session.handled_of_flush {h : Host ω} {stack : Stack (ω × List Event)} {s s' : Session}
    {f p : Packet} {w w' : ω} {trace trace' : List Event}
    (hh : s.handlePacket (h.recording stack) f (w, trace) = .flush s' p (w', trace')) :
    s' = s.keyedBy f ∧ s.GoesOn f ∧ handled trace' = handled trace ++ [(f, s.delivered f)] := by
  have hcourse := s.handlePacket_course (h.recording stack) f (w, trace)
  -- by the way that the frame takes through the connection
  unfold GoesOn delivered
  cases hc : s.course f with
  | newKey =>
      obtain ⟨hkey, hlen⟩ := course_eq_newKey_iff.1 hc
      rw [hc] at hcourse
      obtain ⟨hlen', hhandle⟩ := hcourse
      rw [hh] at hhandle
      cases hn : (h.recording stack).onNewKey (s.installKey f.pData hlen')
          ((h.recording stack).onRawPacketReceived f (w, trace)) with
      | none => rw [hn] at hhandle; cases hhandle
      | some st =>
          rw [hn] at hhandle
          obtain ⟨w₁, hw₁, rfl⟩ := Option.map_eq_some_iff.1 hn
          cases hhandle
          refine ⟨?_, by simp, (handled_newKey _ _).trans (handled_raw _ _)⟩
          simp only [keyedBy, Packet.key?, dif_pos (And.intro hkey hlen)]
          rfl
  | badKeyLength | notEncrypted | noKey =>
      rw [hc, hh] at hcourse
      cases hcourse
      exact ⟨(keyedBy_of_course (by simp [hc])).symm, by simp,
        handled_raw trace f⟩
  | keepalive =>
      rw [hc, hh] at hcourse
      cases hr : s.sendKeepaliveReply (h.recording stack)
          ((h.recording stack).onRawPacketReceived f (w, trace)) with
      | none => rw [hr] at hcourse; cases hcourse
      | some r =>
          obtain ⟨ok, st⟩ := r
          obtain ⟨bs, rfl⟩ := sendKeepaliveReply_world hr
          simp only [hr] at hcourse
          split at hcourse
          · cases hcourse
          cases ok with
          | false => cases hcourse
          | true =>
              cases hcourse
              exact ⟨(keyedBy_of_course (by simp [hc])).symm, by simp,
                (handled_keepaliveReply _ _).trans (handled_raw _ _)⟩
  | badHeader | outsideKey | badData key =>
      rw [hc, hh] at hcourse
      cases hcourse
  | deliver key =>
      rw [hc, hh] at hcourse
      cases hp : (h.recording stack).onPacket (f.decrypt key)
          ((h.recording stack).onRawPacketReceived f (w, trace)) with
      | none => simp only [hp] at hcourse; cases hcourse
      | some r =>
          simp only [hp] at hcourse
          obtain ⟨r₁, hr₁, rfl⟩ := Option.map_eq_some_iff.1 hp
          cases hcourse
          exact ⟨(keyedBy_of_course (by simp [hc])).symm, by simp,
            handled_packet trace f (f.decrypt key)⟩

/-- A run of the loop of `OnEvent` over some frames. -/
inductive Takes (h : Host ω) : Session × ω → List Packet → Session × ω → Prop
  | nil (st : Session × ω) : Takes h st [] st
  | cons {s s' : Session} {w w' : ω} {f p : Packet} {fs : List Packet} {st : Session × ω} :
      s.handlePacket h f w = .flush s' p w' → Takes h (s', w') fs st → Takes h (s, w) (f :: fs) st

namespace RomDump

/-- The loop waits where `romdump` finds a part of a frame. -/
theorem front_of_wait {h : Host ω} {st : Session × ω} {bs : List UInt8}
    (hl : look h st bs = .wait) : front bs = .part := by
  have hs := look_eq_wait_iff.1 hl
  unfold front
  cases hr : Packet.read bs with
  | none => rfl
  | some p =>
      have hp := hs p hr
      simp only [s_MaxPacketSize] at hp
      simp only
      rw [if_neg (by omega), if_pos (Or.inr hp.2.2)]

/-- What the loop takes is a frame for `romdump`. -/
theorem front_of_take {h : Host ω} {st st' : Session × ω} {bs : List UInt8} {n : Nat}
    (hl : look h st bs = .take n st') :
    ∃ f p, front bs = .frame f ∧ n = f.pLength.toNat ∧
      st.1.handlePacket h f st.2 = .flush st'.1 p st'.2 := by
  unfold look at hl
  unfold front
  cases hr : Packet.read bs with
  | none =>
      rw [hr] at hl
      cases hl
  | some p =>
      simp only [hr] at hl ⊢
      by_cases hbound : p.pLength.toNat < sizeofPacket ∨ p.pLength.toNat ≥ s_MaxPacketSize
      · rw [if_pos hbound] at hl
        cases hl
      by_cases hshort : bs.length < p.pLength.toNat
      · rw [if_neg hbound, if_pos hshort] at hl
        cases hl
      rw [if_neg hbound, if_neg hshort] at hl
      rw [s_MaxPacketSize] at hbound
      rw [if_neg (by omega), if_neg (by omega)]
      cases hp : st.1.handlePacket h p.frame st.2 with
      | fault w => simp only [hp] at hl; cases hl
      | stop s q w => simp only [hp] at hl; cases hl
      | flush s q w =>
          simp only [hp] at hl
          cases hl
          exact ⟨p.frame, q, rfl, rfl, hp⟩

/-- A stream that is consumed without the connection giving up is the frames that `romdump` finds
in it, and these have been taken. -/
theorem takes_of_drain {h : Host ω} {st st' : Session × ω} {bs rest : List UInt8}
    (hdrain : (reader h).drain st bs = .idle st' rest) :
    (frames bs).2 = some rest ∧ Takes h st (frames bs).1 st' := by
  refine Consumer.drain_induction
    (motive := fun st bs => (frames bs).2 = some rest ∧ Takes h st (frames bs).1 st') hdrain ?_ ?_
  · intro hwait
    rw [frames_of_part (front_of_wait hwait)]
    exact ⟨rfl, .nil st'⟩
  · intro st st₁ bs n htake hbehind
    obtain ⟨f, p, hfront, rfl, hhandle⟩ := front_of_take htake
    rw [frames_of_frame hfront]
    exact ⟨hbehind.1, .cons hhandle hbehind.2⟩

/-! ## What romdump makes of the frames -/

/-- `g_DisplayFlags`, when no option is given. -/
def DisplayFlags.initial : DisplayFlags := ⟨false, false⟩

/-- `AnalyzePacket` for one frame after the other, with what it finds out about each; there is no
result when it ends the program, or reads the key behind its end. -/
def analyzePackets (flags : DisplayFlags) (conn : Connection) (key : Key) :
    List Packet → Option (List (Option Report))
  | [] => some []
  | f :: fs => do
      let (key, report) ← analyzePacket flags conn key f
      let reports ← analyzePackets flags conn key fs
      return report :: reports

/-- Every packet that was delivered is found again, with both checksums right. -/
def Reproduced (conn : Connection) (fs : List (Packet × Option Packet))
    (reports : List (Option Report)) : Prop :=
  List.Forall₂ (fun f report => ∀ p ∈ f.2, report = some ⟨conn, p, true, true⟩) fs reports

/-- The program gets to the end of the frames, and finds every packet that was delivered. -/
def Reproduces (flags : DisplayFlags) (conn : Connection) (key : Key) (fs : List Packet)
    (delivered : List (Packet × Option Packet)) : Prop :=
  ∃ reports, analyzePackets flags conn key fs = some reports ∧ Reproduced conn delivered reports

/-- The key in `g_State` behind some frames. -/
def dumpKey (flags : DisplayFlags) (fs : List Packet) : Key :=
  (streamKey (fs.filter fun f => ¬ Skipped flags f)).getD .zero

/-- What makes `AnalyzePacket` agree with `OnEvent` about a frame that comes behind others. -/
structure KeysAgree (flags : DisplayFlags) (before : List Packet) (f : Packet) : Prop where
  goesOn : ¬ EndsProgram flags f
  sameByte : f.pFlag = ROM_PACKET_FLAG_ENCRYPTED → ∀ k ∈ streamKey before,
    (dumpKey flags before).byteFor f.pKeynum = k.byteFor f.pKeynum

variable {flags : DisplayFlags} {conn : Connection}

theorem dumpKey_concat (before : List Packet) (f : Packet) :
    dumpKey flags (before ++ [f]) =
      if Skipped flags f then dumpKey flags before else f.key?.getD (dumpKey flags before) := by
  unfold dumpKey
  rw [List.filter_append]
  by_cases hskip : Skipped flags f
  · rw [if_pos hskip, List.filter_cons_of_neg (by simpa using hskip), List.filter_nil,
      List.append_nil]
  · rw [if_neg hskip, List.filter_cons_of_pos (by simpa using hskip), List.filter_nil,
      streamKey_concat]
    cases f.key? <;> rfl

/-- The key that `AnalyzePacket` leaves in `g_State`. -/
theorem key_of_analyzePacket {key key' : Key} {f : Packet} {report : Option Report}
    (h : analyzePacket flags conn key f = some (key', report)) :
    key' = if Skipped flags f then key else f.key?.getD key := by
  have hends : ¬ EndsProgram flags f := fun hends => by
    rw [analyzePacket_eq_none_iff.2 hends] at h
    cases h
  rw [analyzePacket_eq hends] at h
  cases h
  by_cases hskip : Skipped flags f
  · rw [if_pos hskip, keyAfter_of_not_hasKey fun hkey => hkey.1 hskip]
  rw [if_neg hskip]
  by_cases hkey : HasKey flags f
  · rw [keyAfter_of_hasKey hkey, Packet.key?, dif_pos hkey.2]
    rfl
  · rw [keyAfter_of_not_hasKey hkey, Packet.key?, dif_neg fun hall => hkey ⟨hskip, hall⟩]
    rfl

/-- An encrypted frame is decrypted and checked, whatever is displayed. -/
theorem analyzePacket_of_encrypted (flags : DisplayFlags) (conn : Connection) (key : Key)
    {f : Packet} (hflag : f.pFlag = ROM_PACKET_FLAG_ENCRYPTED) :
    analyzePacket flags conn key f = (key.byteFor f.pKeynum).map fun k =>
      (key, some ⟨conn, f.decrypt k, f.headerChecksumOK, (f.decrypt k).dataChecksumOK k⟩) := by
  have halive : ¬ (f.pFlag &&& (ROM_PACKET_FLAG_ALIVE_REQUEST ||| ROM_PACKET_FLAG_ALIVE_REPLY) ≠ 0 ∧
      flags.showKeepalive = false) := by
    rw [hflag]
    exact fun hall => hall.1 (by decide)
  unfold analyzePacket examine
  rw [if_neg halive, if_neg (key_of_encrypted hflag), if_pos hflag]
  cases key.byteFor f.pKeynum <;> rfl

/-- One frame, at which the connection goes on. -/
theorem keysAgree_iff (conn : Connection) {s : Session} {f : Packet} {before : List Packet}
    (hs : s.GoesOn f) (hkey : s.key? = streamKey before) :
    (∃ key' report, analyzePacket flags conn (dumpKey flags before) f = some (key', report) ∧
      ∀ p ∈ s.delivered f, report = some ⟨conn, p, true, true⟩) ↔ KeysAgree flags before f := by
  have hends : analyzePacket flags conn (dumpKey flags before) f = none ↔ EndsProgram flags f :=
    analyzePacket_eq_none_iff
  by_cases hflag : f.pFlag = ROM_PACKET_FLAG_ENCRYPTED
  · have hanalyze := analyzePacket_of_encrypted flags conn (dumpKey flags before) hflag
    have hdelivered := Session.delivered_of_encrypted hs hflag
    rw [hkey] at hdelivered
    constructor
    · rintro ⟨key', report, hreport, hsame⟩
      refine ⟨fun hend => ?_, fun _ k hk => ?_⟩
      · rw [hends.2 hend] at hreport
        cases hreport
      rw [Option.mem_def.1 hk] at hdelivered
      obtain ⟨-, key, hbyte, hok, hdelivers⟩ := hdelivered
      rw [hanalyze] at hreport
      obtain ⟨key₁, hbyte₁, heq⟩ := Option.map_eq_some_iff.1 hreport
      have hreported := hsame _ hdelivers
      cases heq
      simp only [Option.some_inj, Report.mk.injEq, true_and] at hreported
      -- the data are the same, and so are the sums over them
      obtain ⟨hpacket, -, hok₁⟩ := hreported
      rw [hpacket] at hok₁
      rw [hbyte, hbyte₁, dataChecksumOK_inj hok hok₁]
    · intro hagree
      obtain ⟨⟨key', report⟩, hreport⟩ :=
        Option.ne_none_iff_exists'.1 (mt hends.1 hagree.goesOn)
      refine ⟨key', report, hreport, fun p hp => ?_⟩
      cases hlast : streamKey before with
      | none =>
          rw [hlast] at hdelivered
          rw [hdelivered] at hp
          cases hp
      | some k =>
          rw [hlast] at hdelivered
          obtain ⟨hheader, key, hbyte, hok, hdelivers⟩ := hdelivered
          rw [hdelivers] at hp
          cases hp
          rw [hanalyze, hagree.sameByte hflag k hlast, hbyte] at hreport
          cases hreport
          rw [hheader, hok]
  · -- nothing is delivered
    rw [Session.delivered_of_not_encrypted hflag]
    constructor
    · rintro ⟨key', report, hreport, -⟩
      refine ⟨fun hend => ?_, fun henc => absurd henc hflag⟩
      rw [hends.2 hend] at hreport
      cases hreport
    · intro hagree
      obtain ⟨⟨key', report⟩, hreport⟩ :=
        Option.ne_none_iff_exists'.1 (mt hends.1 hagree.goesOn)
      exact ⟨key', report, hreport, nofun⟩

theorem reproduces_cons {key : Key} {f : Packet} {fs : List Packet}
    {d : Packet × Option Packet} {ds : List (Packet × Option Packet)} :
    Reproduces flags conn key (f :: fs) (d :: ds) ↔
      ∃ key' report, analyzePacket flags conn key f = some (key', report) ∧
        (∀ p ∈ d.2, report = some ⟨conn, p, true, true⟩) ∧ Reproduces flags conn key' fs ds := by
  unfold Reproduces Reproduced
  constructor
  · rintro ⟨reports, hreports, hfound⟩
    simp only [analyzePackets, Option.bind_eq_bind, Option.bind_eq_some_iff] at hreports
    obtain ⟨⟨key', report⟩, hreport, rest, hrest, heq⟩ := hreports
    cases heq
    obtain ⟨hhead, htail⟩ := List.forall₂_cons.1 hfound
    exact ⟨key', report, hreport, hhead, rest, hrest, htail⟩
  · rintro ⟨key', report, hreport, hhead, rest, hrest, htail⟩
    refine ⟨report :: rest, ?_, List.forall₂_cons.2 ⟨hhead, htail⟩⟩
    simp only [analyzePackets, hreport, Option.bind_eq_bind, Option.bind_some, hrest]
    rfl

/-- A condition on the elements of a list and what comes before them. -/
theorem forall_split_cons {α : Type} {P : List α → α → Prop} {a : α} {as : List α} :
    (∀ before b after, a :: as = before ++ b :: after → P before b) ↔
      P [] a ∧ ∀ before b after, as = before ++ b :: after → P (a :: before) b := by
  constructor
  · intro hall
    refine ⟨hall [] a as rfl, fun before b after heq => hall (a :: before) b after ?_⟩
    rw [heq]
    rfl
  · rintro ⟨hhead, htail⟩ before b after heq
    cases before with
    | nil =>
        cases heq
        exact hhead
    | cons a' before =>
        obtain ⟨rfl, hrest⟩ := List.cons.inj heq
        exact htail before b after hrest

/-- Frames that a connection takes, behind others that have left the two with their keys. -/
theorem reproduces_of_takes (flags : DisplayFlags) (conn : Connection) {h : Host ω}
    {stack : Stack (ω × List Event)} {st st' : Session × ω × List Event} {fs : List Packet}
    (ht : Takes (h.recording stack) st fs st') {before : List Packet}
    (hkey : st.1.key? = streamKey before) :
    ∃ ds, handled st'.2.2 = handled st.2.2 ++ ds ∧ ds.map Prod.fst = fs ∧
      (Reproduces flags conn (dumpKey flags before) fs ds ↔
        ∀ mid f after, fs = mid ++ f :: after → KeysAgree flags (before ++ mid) f) := by
  induction ht generalizing before with
  | nil st =>
      refine ⟨[], (List.append_nil _).symm, rfl, ?_⟩
      refine iff_of_true ⟨[], rfl, .nil⟩ fun mid f after heq => ?_
      exact absurd heq.symm (List.append_ne_nil_of_right_ne_nil _ (List.cons_ne_nil _ _))
  | @cons s s' w w' f p fs st' hhandle _ ih =>
      obtain ⟨w, trace⟩ := w
      obtain ⟨w', trace'⟩ := w'
      obtain ⟨rfl, hgoes, htrace⟩ := Session.handled_of_flush hhandle
      -- behind the frame the keys are those of one frame more
      have hkey' : (s.keyedBy f).key? = streamKey (before ++ [f]) := by
        rw [Session.key?_keyedBy, streamKey_concat, hkey]
      obtain ⟨ds, hhandled, hfst, hiff⟩ := ih hkey'
      refine ⟨(f, s.delivered f) :: ds, ?_, by rw [List.map_cons, hfst], ?_⟩
      · simp only at hhandled ⊢
        rw [hhandled, htrace, List.append_assoc]
        rfl
      · rw [reproduces_cons, forall_split_cons, List.append_nil,
          ← keysAgree_iff conn hgoes hkey]
        simp only [List.append_assoc, List.singleton_append] at hiff
        rw [← hiff]
        constructor
        · rintro ⟨key', report, hreport, hhead, htail⟩
          rw [key_of_analyzePacket hreport, ← dumpKey_concat] at htail
          exact ⟨⟨key', report, hreport, hhead⟩, htail⟩
        · rintro ⟨⟨key', report, hreport, hhead⟩, htail⟩
          rw [dumpKey_concat, ← key_of_analyzePacket hreport] at htail
          exact ⟨key', report, hreport, hhead, htail⟩

open ROMConnection

/-- The frames of a stream that a fresh connection consumes are those that `romdump` finds. It gets
to their end and finds all that was delivered again, exactly when no frame ends the program and the
keys agree wherever one is used. -/
theorem reproduces_iff (h : Host ω) (stack : Stack (ω × List Event)) (conn : Connection)
    {w w' : ω} {reads : List (List UInt8)} (hreads : ∀ r ∈ reads, IsRead r) {c : ROMConnection}
    {trace : List Event}
    (hrun : fresh.onEvents (h.recording stack) (w, []) reads = .returned true c (w', trace)) :
    (handled trace).map Prod.fst = (frames reads.flatten).1 ∧
      (Reproduces .initial conn .zero (frames reads.flatten).1 (handled trace) ↔
        ∀ before f after, (frames reads.flatten).1 = before ++ f :: after →
          KeysAgree .initial before f) := by
  have hs : Settled fresh.buffer.data := settled_nil
  have hwait : ∀ {st}, (reader (h.recording stack)).look st fresh.buffer.data = .wait :=
    (reader (h.recording stack)).look_nil _
  have hfeed := onEvents_eq_feed (h := h.recording stack) (w := (w, [])) hs hreads
  rw [hrun, Consumer.feed_of_wait hwait] at hfeed
  obtain ⟨-, htakes⟩ := takes_of_drain hfeed.symm
  have hkey : fresh.toSession.key? = streamKey [] := rfl
  obtain ⟨ds, hhandled, hfst, hiff⟩ := reproduces_of_takes .initial conn htakes hkey
  obtain rfl : handled trace = ds := hhandled
  exact ⟨hfst, hiff⟩

/-- The data packet behind a key packet, in one read. -/
def keyedStream (f : Packet) : List UInt8 := f.bytes ++ sealedPacket.bytes

theorem isRead_keyedStream {f : Packet} (hf : f.pData.length = ROM_KEY_LENGTH) :
    ∀ r ∈ [keyedStream f], IsRead r := by
  have hlen : (keyedStream f).length = 35 := by
    rw [keyedStream, List.length_append, Packet.length_bytes, Packet.length_bytes, hf]
    decide
  intro r hr
  obtain rfl := List.mem_singleton.1 hr
  refine ⟨fun hnil => ?_, by rw [hlen]; decide⟩
  rw [hnil] at hlen
  cases hlen

theorem reproduces_iff_keyPacket :
    ∃ (c : ROMConnection) (trace : List Event),
      fresh.onEvents (Host.quiet.recording .unused) ((), [])
        [keyedStream (keyPacket firstKey)] = .returned true c ((), trace) ∧
      (handled trace).map Prod.fst = (frames [keyedStream (keyPacket firstKey)].flatten).1 ∧
        (Reproduces .initial ⟨⟨1, 1⟩, ⟨2, 2⟩⟩ .zero
            (frames [keyedStream (keyPacket firstKey)].flatten).1 (handled trace) ↔
          ∀ before f after, (frames [keyedStream (keyPacket firstKey)].flatten).1 =
            before ++ f :: after → KeysAgree .initial before f) :=
  ⟨_, _, rfl, reproduces_iff Host.quiet _ _ (isRead_keyedStream rfl) rfl⟩

/-- A key packet that is marked as a keepalive reply as well. -/
def keepaliveKeyPacket : Packet :=
  { keyPacket firstKey with pFlag := ROM_PACKET_FLAG_KEY ||| ROM_PACKET_FLAG_ALIVE_REPLY }

/-- `OnEvent` takes its key and delivers the packet behind it; `AnalyzePacket` skips it. -/
theorem not_reproduces_keepaliveKeyPacket :
    ¬ ∀ (reads : List (List UInt8)) (c : ROMConnection) (trace : List Event) (conn : Connection),
      (∀ r ∈ reads, IsRead r) →
        fresh.onEvents (Host.quiet.recording .unused) ((), []) reads =
          .returned true c ((), trace) →
        Reproduces .initial conn .zero (frames reads.flatten).1 (handled trace) := by
  intro hall
  have hlost := hall [keyedStream keepaliveKeyPacket] _ _ ⟨⟨1, 1⟩, ⟨2, 2⟩⟩
    (isRead_keyedStream rfl) rfl
  have hfits : keepaliveKeyPacket.Fits :=
    ⟨(fits_keyPacket firstKey).length_eq, (fits_keyPacket firstKey).length_lt⟩
  have hsealed : sealedPacket.Fits := ⟨by decide, by decide⟩
  have hframes : (frames [keyedStream keepaliveKeyPacket].flatten).1 =
      [keepaliveKeyPacket, sealedPacket] := by
    rw [List.flatten_singleton, keyedStream, frames_bytes_append hfits, frames_bytes hsealed]
  rw [hframes] at hlost
  change Reproduces _ _ _ _ [(keepaliveKeyPacket, none),
    (sealedPacket, some (sealedPacket.decrypt (unmangle 8 1)))] at hlost
  obtain ⟨key, report, hskipped, -, hrest⟩ := reproduces_cons.1 hlost
  -- the key is still zero
  have hkey : key = .zero := key_of_analyzePacket hskipped
  obtain ⟨key', report', hreport, hfound, -⟩ := reproduces_cons.1 hrest
  rw [hkey, hfound _ rfl, analyzePacket_of_encrypted _ _ _ rfl] at hreport
  obtain ⟨k, hk, heq⟩ := Option.map_eq_some_iff.1 hreport
  obtain rfl : (0 : UInt8) = k := Option.some.inj hk
  have hok : (sealedPacket.decrypt 0).dataChecksumOK 0 = true :=
    congrArg Report.dataChecksumOK (Option.some.inj (congrArg Prod.snd heq))
  exact absurd hok (by decide)

end RomDump

end OpenRom
