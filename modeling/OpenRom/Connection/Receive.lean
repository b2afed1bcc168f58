import OpenRom.Connection.Course
import OpenRom.Connection.Invariants
import OpenRom.Connection.Trace
import OpenRom.Connection.Frames

/-!
# Runs of a connection

`ROMConnection.Receives` is every way in which a connection can be fed, one step of `OnEvent` at a
time. Its first result is about the buffer, which holds what was received and not yet flushed
(`receives_buffer`). The others are about the frames that the loop comes to, and hold of runs whose
frames meet a condition: the key is read inside its bounds (`receives_lookup`), and what makes the
connection act has passed the checksums (`receives_verified`).
-/

set_option autoImplicit false

namespace OpenRom

variable {ω : Type}

/-- What the other methods of a connection can make of its session. -/
inductive Session.Used (s : Session) : Session → Prop
  | sent (sequence : UInt32) : Used s { s with sequence := sequence }
  | keyCopied {conn s' : Session} : s.copyKey conn = some s' → Used s s'

/-- Where a connection is: outside of `OnEvent`, at the head of its loop, or in the loop with an
entire frame. -/
inductive Stage
  | outside
  | looping
  | handling (f : Packet)

namespace ROMConnection

/-- The runs of a connection up to the first event that does not return `true`, with the bytes
received and the frames flushed so far. Every frame that the loop comes to meets a condition. -/
inductive Receives (h : Host ω) (Meets : Session → Packet → Prop) :
    List UInt8 → List Packet → ROMConnection → ω → Stage → Prop
  | fresh (w : ω) : Receives h Meets [] [] .fresh w .outside
  | used {received : List UInt8} {flushed : List Packet} {c : ROMConnection} {w : ω} {s : Session}
      (w' : ω) : Receives h Meets received flushed c w .outside → c.toSession.Used s →
        Receives h Meets received flushed ⟨s, c.buffer⟩ w' .outside
  | read {received : List UInt8} {flushed : List Packet} {c : ROMConnection} {w : ω}
      {packet : List UInt8} {b : Buffer} : Receives h Meets received flushed c w .outside →
        IsRead packet → c.buffer.addData packet = some b →
          Receives h Meets (received ++ packet) flushed { c with buffer := b } w .looping
  | frame {received : List UInt8} {flushed : List Packet} {c : ROMConnection} {w : ω} {f : Packet} :
      Receives h Meets received flushed c w .looping → c.nextFrame = some f →
        Meets c.toSession f → Receives h Meets received flushed c w (.handling f)
  | flushed {received : List UInt8} {flushed : List Packet} {c c' : ROMConnection} {w w' : ω}
      {f : Packet} : Receives h Meets received flushed c w (.handling f) →
        turn h (c, w) = .again (c', w') →
          Receives h Meets received (flushed ++ [f]) c' w' .looping
  | returned {received : List UInt8} {flushed : List Packet} {c c' : ROMConnection} {w w' : ω} :
      Receives h Meets received flushed c w .looping →
        turn h (c, w) = .leave (.returned true c' w') →
          Receives h Meets received flushed c' w' .outside

/-! ## One turn and the frame it comes to -/

/-- The frame is the front of the buffer, and of a length that is accepted. -/
theorem nextFrame_eq_some {c : ROMConnection} {f : Packet} (hf : c.nextFrame = some f) :
    f.pLength.toNat = f.bytes.length ∧ ∃ rest, c.buffer.data = f.bytes ++ rest := by
  unfold nextFrame at hf
  cases hp : c.buffer.peekPacket with
  | none =>
      rw [hp] at hf
      cases hf
  | some p =>
      simp only [hp] at hf
      by_cases hbound : p.pLength.toNat < sizeofPacket ∨ p.pLength.toNat ≥ s_MaxPacketSize
      · rw [if_pos hbound] at hf
        cases hf
      rw [if_neg hbound] at hf
      by_cases hpeek : c.buffer.canPeek p.pLength.toNat = true
      · rw [if_neg (fun hnot => hnot hpeek), Option.some_inj] at hf
        subst hf
        have hbytes := Packet.bytes_of_read hp
        have hlong : p.pLength.toNat ≤ p.bytes.length := by
          rw [hbytes]
          exact Buffer.canPeek_iff.1 hpeek
        rw [Packet.length_bytes] at hlong
        refine ⟨?_, p.pData.drop (p.pLength.toNat - sizeofPacket), ?_⟩
        · -- the frame has as many data bytes as its length says
          rw [Packet.length_bytes, Packet.frame, List.length_take]
          show p.pLength.toNat = _
          omega
        · rw [← hbytes, Packet.bytes, Packet.bytes, List.append_assoc]
          exact congrArg (p.header ++ ·) (List.take_append_drop _ _).symm
      · rw [if_pos hpeek] at hf
        cases hf

/-- A frame that fits is found at the front of the buffer. -/
theorem nextFrame_of_fits {c : ROMConnection} {f : Packet} {rest : List UInt8} (hf : f.Fits)
    (hdata : c.buffer.data = f.bytes ++ rest) : c.nextFrame = some f := by
  have hread : c.buffer.peekPacket = some { f with pData := f.pData ++ rest } := by
    rw [Buffer.peekPacket, hdata, Packet.read_bytes]
  have hbound : ¬ (f.pLength.toNat < sizeofPacket ∨ f.pLength.toNat ≥ s_MaxPacketSize) := by
    have h₁ := hf.length_eq
    have h₂ := hf.length_lt
    omega
  have hpeek : c.buffer.canPeek f.pLength.toNat = true := by
    rw [Buffer.canPeek_iff, hdata, List.length_append, hf.length_bytes]
    exact Nat.le_add_right _ _
  simp only [nextFrame, hread]
  rw [if_neg hbound, if_neg (fun hnot => hnot hpeek),
    Packet.frame_append (Nat.le_of_eq hf.length_eq), hf.frame]

/-- What the callbacks have written is flushed with the frame, and nothing else is. -/
theorem flushData_handled {h : Host ω} {c : ROMConnection} {f p : Packet} {s : Session} {w w' : ω}
    (hf : c.nextFrame = some f) (hp : c.handlePacket h f w = .flush s p w') :
    ∃ b, (c.buffer.overwrite p.bytes).flushData p.pLength.toNat = some b ∧
      c.buffer.data = f.bytes ++ b.data := by
  obtain ⟨hlen, rest, hrest⟩ := nextFrame_eq_some hf
  have hsame := Session.handlePacket_flush hp
  have hwritten : p.bytes.length = f.bytes.length := by
    rw [Packet.length_bytes, Packet.length_bytes, hsame.2]
  have hle : p.bytes.length ≤ c.buffer.data.length := by
    rw [hwritten, hrest, List.length_append]
    exact Nat.le_add_right _ _
  obtain ⟨b, hb, hdata⟩ := c.buffer.flushData_overwrite hle
  refine ⟨b, by rw [hsame.1, hlen, ← hwritten, hb], ?_⟩
  rw [hdata, hwritten, hrest, List.drop_left]

theorem turn_of_flush {h : Host ω} {c : ROMConnection} {f p : Packet} {s : Session} {w w' : ω}
    (hf : c.nextFrame = some f) (hp : c.handlePacket h f w = .flush s p w') :
    ∃ b, turn h (c, w) = .again (⟨s, b⟩, w') ∧ c.buffer.data = f.bytes ++ b.data := by
  obtain ⟨b, hb, hdata⟩ := flushData_handled hf hp
  refine ⟨b, ?_, hdata⟩
  rw [turn_of_nextFrame h w hf]
  simp only [hp, hb]

/-- A turn that goes on has flushed the frame that it came to. -/
theorem nextFrame_of_again {h : Host ω} {c c' : ROMConnection} {w w' : ω}
    (ht : turn h (c, w) = .again (c', w')) :
    ∃ f, c.nextFrame = some f ∧ c.buffer.data = f.bytes ++ c'.buffer.data := by
  cases hf : c.nextFrame with
  | none =>
      obtain ⟨ok, hleave⟩ := turn_of_no_frame h w hf
      rw [hleave] at ht
      cases ht
  | some f =>
      rw [turn_of_nextFrame h w hf] at ht
      cases hp : c.handlePacket h f w with
      | fault w₁ => simp only [hp] at ht; cases ht
      | stop s p w₁ => simp only [hp] at ht; cases ht
      | flush s p w₁ =>
          obtain ⟨b, hturn, hdata⟩ := turn_of_flush hf hp
          rw [← turn_of_nextFrame h w hf, hturn] at ht
          cases ht
          exact ⟨f, rfl, hdata⟩

/-! ## Runs -/

/-- A read finds space in what is left between events, and the fuel of `onEvent` is enough for the
loop. -/
theorem exists_ends_of_settled {c : ROMConnection} (hs : Settled c.buffer.data) (h : Host ω)
    (w : ω) {packet : List UInt8} (hread : IsRead packet) :
    ∃ b o, c.buffer.addData packet = some b ∧
      Loop.Ends (turn h) ({ c with buffer := b }, w) o ∧ c.onEvent h packet w = o := by
  obtain ⟨b, hb, -⟩ := hs.addData hread.2
  obtain ⟨o, ho⟩ : ∃ o, Loop.Ends (turn h) ({ c with buffer := b }, w) o :=
    Loop.exists_ends length_turn_lt _
  have hrun := Loop.run_of_ends length_turn_lt ho (b.data.length + 1) (Nat.lt_succ_self _)
  refine ⟨b, o, hb, ho, ?_⟩
  rw [onEvent, if_neg (mt List.length_eq_zero_iff.1 hread.1), hb]
  simp only [hrun, Option.getD_some]

/-- The loop is left with `true` only where it would wait. -/
theorem settled_of_leave {h : Host ω} {c c' : ROMConnection} {w w' : ω}
    (ht : turn h (c, w) = .leave (.returned true c' w')) : c' = c ∧ Settled c'.buffer.data := by
  have hdrain := drained_of_ends (.leave ht)
  cases hf : c.nextFrame with
  | none =>
      obtain ⟨ok, hleave⟩ := turn_of_no_frame h w hf
      rw [hleave] at ht
      cases ht
      exact ⟨rfl, look_eq_wait_iff.1 (Reassembly.Consumer.look_of_drain hdrain.symm)⟩
  | some f =>
      -- a frame that is handled never makes it return `true`
      rw [turn_of_nextFrame h w hf] at ht
      cases hp : c.handlePacket h f w with
      | fault w₁ => simp only [hp] at ht; cases ht
      | stop s p w₁ => simp only [hp] at ht; cases ht
      | flush s p w₁ =>
          obtain ⟨b, hturn, -⟩ := turn_of_flush hf hp
          rw [← turn_of_nextFrame h w hf, hturn] at ht
          cases ht

section Runs

variable {h : Host ω} {Meets : Session → Packet → Prop} {received : List UInt8}
  {flushed : List Packet} {c : ROMConnection} {w : ω} {stage : Stage}

/-- The buffer holds what was received and not flushed. -/
theorem Receives.data_eq (hr : Receives h Meets received flushed c w stage) :
    received = (flushed.map Packet.bytes).flatten ++ c.buffer.data ∧
      (∀ f, stage = .handling f → c.nextFrame = some f) := by
  induction hr with
  | fresh w => exact ⟨rfl, nofun⟩
  | used w' _ _ ih => exact ⟨ih.1, nofun⟩
  | @read received flushed c w packet b _ _ hb ih =>
      refine ⟨?_, nofun⟩
      have hdata : b.data = c.buffer.data ++ packet := by
        unfold Buffer.addData at hb
        split at hb
        · cases hb
        · cases hb
          rfl
      rw [ih.1, List.append_assoc, hdata]
  | frame _ hf _ ih =>
      refine ⟨ih.1, ?_⟩
      rintro f ⟨⟩
      exact hf
  | @flushed received flushed c c' w w' f _ ht ih =>
      refine ⟨?_, nofun⟩
      obtain ⟨f', hf', hdata⟩ := nextFrame_of_again ht
      -- the frame that is flushed is the one being handled
      obtain rfl : f = f' := Option.some_inj.1 ((ih.2 f rfl).symm.trans hf')
      rw [ih.1, hdata, List.map_append, List.flatten_append, List.append_assoc]
      simp
  | returned _ ht ih =>
      obtain ⟨rfl, -⟩ := settled_of_leave ht
      exact ⟨ih.1, nofun⟩

/-- Between events the loop has nothing to do. -/
theorem Receives.settled (hr : Receives h Meets received flushed c w stage)
    (hstage : stage = .outside) : Settled c.buffer.data := by
  induction hr with
  | fresh w => exact nofun
  | used w' _ _ ih => exact ih rfl
  | read | frame | flushed => cases hstage
  | returned _ ht _ => exact (settled_of_leave ht).2

/-- The frame that is being handled meets the condition. -/
theorem Receives.meets {f : Packet} (hr : Receives h Meets received flushed c w (.handling f)) :
    Meets c.toSession f := by
  cases hr with
  | frame _ _ hmeets => exact hmeets

/-- What `onEvent` does is such a run, when the frames that its loop comes to meet the condition. -/
theorem Receives.onEvent {packet : List UInt8} {c' : ROMConnection} {w' : ω}
    (hr : Receives h Meets received flushed c w .outside) (hread : IsRead packet)
    (hmeets : ∀ {c₁ w₁ f}, c.Passes h packet w (c₁, w₁) → c₁.nextFrame = some f →
      Meets c₁.toSession f)
    (he : c.onEvent h packet w = .returned true c' w') :
    ∃ more, Receives h Meets (received ++ packet) (flushed ++ more) c' w' .outside := by
  obtain ⟨b, o, hb, hends, ho⟩ := exists_ends_of_settled (hr.settled rfl) h w hread
  rw [he] at ho
  subst ho
  -- every state of the loop is one of a run
  refine hends.preserves
    (P := fun st =>
      ∃ more, Receives h Meets (received ++ packet) (flushed ++ more) st.1 st.2 .looping)
    (Q := fun o => ∀ c' w', o = .returned true c' w' →
      ∃ more, Receives h Meets (received ++ packet) (flushed ++ more) c' w' .outside)
    ⟨[], by simpa using hr.read hread hb⟩ ?_ ?_ c' w' rfl
  · rintro ⟨c₁, w₁⟩ ⟨c₂, w₂⟩ hreach ⟨more, hr₁⟩ ht
    obtain ⟨f, hf, -⟩ := nextFrame_of_again ht
    refine ⟨more ++ [f], ?_⟩
    rw [← List.append_assoc]
    exact (hr₁.frame hf (hmeets ⟨b, hb, hreach⟩ hf)).flushed ht
  · rintro ⟨c₁, w₁⟩ o' hreach ⟨more, hr₁⟩ ht c₂ w₂ rfl
    exact ⟨more, hr₁.returned ht⟩

/-- The first frame of a first read. -/
theorem receives_first (h : Host ω) (Meets : Session → Packet → Prop) (w : ω) {f : Packet}
    (rest : List UInt8) (hf : f.Fits)
    (hlen : (f.bytes ++ rest).length ≤ s_MaxPacketSize) (hmeets : Meets fresh.toSession f) :
    ∃ b : Buffer, b.data = f.bytes ++ rest ∧
      Receives h Meets (f.bytes ++ rest) [] ⟨fresh.toSession, b⟩ w (.handling f) := by
  let b : Buffer := ⟨f.bytes ++ rest, Nat.lt_of_le_of_lt hlen (by decide)⟩
  have hpos : b.data ≠ [] := by
    have h₁ := f.length_bytes
    intro hnil
    rw [(List.append_eq_nil_iff.1 hnil).1, List.length_nil, sizeofPacket] at h₁
    omega
  have hadd : Buffer.empty.addData b.data = some b := by
    have hspace : ¬ (Buffer.empty.data.length + b.data.length ≥ s_BufferSize) := by
      have h₂ := b.length_lt
      rw [Buffer.data_empty, List.length_nil]
      omega
    rw [Buffer.addData, dif_neg hspace]
    rfl
  have hfresh : Receives h Meets [] [] fresh w .outside := .fresh w
  have hrun := hfresh.read ⟨hpos, hlen⟩ hadd
  rw [List.nil_append] at hrun
  exact ⟨b, rfl, hrun.frame (nextFrame_of_fits hf rfl) hmeets⟩

/-- And the frame behind one that is flushed. -/
theorem Receives.next {f g p : Packet} {s : Session} {w' : ω} {rest : List UInt8}
    (hr : Receives h Meets received flushed c w (.handling f))
    (hp : c.handlePacket h f w = .flush s p w')
    (hdata : c.buffer.data = f.bytes ++ (g.bytes ++ rest)) (hg : g.Fits) (hmeets : Meets s g) :
    ∃ b, b.data = g.bytes ++ rest ∧
      Receives h Meets received (flushed ++ [f]) ⟨s, b⟩ w' (.handling g) := by
  obtain ⟨b, hturn, hflushed⟩ := turn_of_flush (hr.data_eq.2 f rfl) hp
  rw [hdata, List.append_cancel_left_eq] at hflushed
  exact ⟨b, hflushed.symm, (hr.flushed hturn).frame (nextFrame_of_fits hg hflushed.symm) hmeets⟩

/-! ## The buffer -/

/-- What the code relies on where it is: outside, that a read finds space and the loop ends; with a
frame, that `FlushData` finds all of it. -/
def StageOK (h : Host ω) (c : ROMConnection) (w : ω) : Stage → Prop
  | .outside => c.buffer.data.length < 131071 ∧
      ∀ packet, IsRead packet → ∃ b o, c.buffer.addData packet = some b ∧
        Loop.Ends (turn h) ({ c with buffer := b }, w) o ∧ c.onEvent h packet w = o
  | .looping => True
  | .handling f => c.nextFrame = some f ∧
      ∀ s p w', c.handlePacket h f w = .flush s p w' →
        ((c.buffer.overwrite p.bytes).flushData p.pLength.toNat).isSome

/-- The buffer at every step of a run. -/
theorem receives_buffer (hr : Receives h Meets received flushed c w stage) :
    received = (flushed.map Packet.bytes).flatten ++ c.buffer.data ∧ c.StageOK h w stage := by
  obtain ⟨hdata, hnext⟩ := hr.data_eq
  refine ⟨hdata, ?_⟩
  cases stage with
  | outside =>
      have hs := hr.settled rfl
      have hlt := hs.length_lt
      rw [s_MaxPacketSize] at hlt
      exact ⟨by omega, fun packet hread => exists_ends_of_settled hs h w hread⟩
  | looping => trivial
  | handling f =>
      refine ⟨hnext f rfl, fun s p w' hp => ?_⟩
      obtain ⟨b, hb, -⟩ := flushData_handled (hnext f rfl) hp
      rw [hb]
      rfl

/-- A key frame whose header checksum is wrong. -/
def keyPacket : Packet := ⟨22, 3, 0, 0, 255, 0, [1, 2, 3, 4, 5, 6, 7, 8, 9, 10]⟩

theorem fits_keyPacket : keyPacket.Fits := ⟨rfl, by decide⟩

theorem receives_buffer_keyPacket :
    ∃ b : Buffer, keyPacket.bytes ++ [12, 0, 0] = b.data ∧
      StageOK Host.quiet ⟨fresh.toSession, b⟩ () (.handling keyPacket) := by
  obtain ⟨b, -, hr⟩ := receives_first Host.quiet (fun _ _ => True) () [12, 0, 0] fits_keyPacket
    (by decide) trivial
  exact ⟨b, receives_buffer hr⟩

/-! ## The key -/

/-- With a key, a frame that gets as far as the key names a byte of it. -/
def NamesKey (s : Session) (f : Packet) : Prop :=
  s.haveKey = true → f.Readable → f.Numbered

/-- In a run of such frames the key is only read inside. -/
theorem receives_lookup {f : Packet}
    (hr : Receives h NamesKey received flushed c w (.handling f)) :
    (∀ i, c.lookup f = some i → i < ROM_KEY_LENGTH) ∧ (¬ f.Numbered → c.lookup f = none) := by
  have hinside : ∀ i, c.lookup f = some i → f.Numbered ∧ i < ROM_KEY_LENGTH := by
    intro i hi
    obtain ⟨hread, hhave, hne, rfl⟩ := Session.lookup_eq_some_iff.1 hi
    have hnumbered := hr.meets hhave hread
    exact ⟨hnumbered, hnumbered.resolve_left hne⟩
  refine ⟨fun i hi => (hinside i hi).2, fun hnot => ?_⟩
  exact Option.eq_none_iff_forall_ne_some.2 fun i hi => hnot (hinside i hi).1

/-- The session that the key frame leads to. -/
def keyed : Session := Session.installKey fresh.toSession keyPacket.pData rfl

/-- A frame without data, whose header checksum is right. -/
def bareFrame (keynum : UInt8) : Packet := ⟨12, 2, 0, 14 + keynum, keynum, 0, []⟩

/-- A run that comes to that frame, when it has the key. -/
theorem receives_bareFrame (Meets : Session → Packet → Prop) (keynum : UInt8)
    (hkey : Meets fresh.toSession keyPacket) (hframe : Meets keyed (bareFrame keynum)) :
    ∃ received flushed b,
      Receives Host.quiet Meets received flushed ⟨keyed, b⟩ () (.handling (bareFrame keynum)) := by
  have hfits : (bareFrame keynum).Fits := ⟨rfl, show (12 : UInt32).toNat < _ by decide⟩
  have hlen : (keyPacket.bytes ++ ((bareFrame keynum).bytes ++ [])).length ≤ s_MaxPacketSize := by
    simp [keyPacket, bareFrame, sizeofPacket, s_MaxPacketSize]
  obtain ⟨b, hdata, hr⟩ := receives_first Host.quiet Meets () _ fits_keyPacket hlen hkey
  obtain ⟨b', -, hr'⟩ := hr.next (s := keyed) (p := keyPacket) rfl hdata hfits hframe
  exact ⟨_, _, b', hr'⟩

theorem receives_lookup_nine :
    (∀ i, keyed.lookup (bareFrame 9) = some i → i < ROM_KEY_LENGTH) ∧
      (¬ (bareFrame 9).Numbered → keyed.lookup (bareFrame 9) = none) := by
  obtain ⟨received, flushed, b, hr⟩ :=
    receives_bareFrame NamesKey 9 nofun fun _ _ => Or.inr (by decide)
  exact receives_lookup hr

/-- Key number ten is behind the end of the key. -/
theorem receives_lookup_ten :
    ¬ ∀ (received : List UInt8) (flushed : List Packet) (c : ROMConnection) (f : Packet),
      Receives Host.quiet (fun _ _ => True) received flushed c () (.handling f) →
        (∀ i, c.lookup f = some i → i < ROM_KEY_LENGTH) ∧
          (¬ f.Numbered → c.lookup f = none) := by
  intro hall
  obtain ⟨received, flushed, b, hr⟩ := receives_bareFrame (fun _ _ => True) 10 trivial trivial
  have hlookup : keyed.lookup (bareFrame 10) = some 10 := by decide
  exact absurd ((hall _ _ _ _ hr).1 10 hlookup) (by decide)

/-! ## The checksums -/

/-- Both checksums of the frame are right, the second when the frame is marked as encrypted. -/
def Verified (s : Session) (f : Packet) : Prop :=
  f.headerChecksumOK = true ∧
    (f.pFlag &&& ROM_PACKET_FLAG_ENCRYPTED ≠ 0 →
      ∃ key, s.key.byteFor f.pKeynum = some key ∧ (f.decrypt key).dataChecksumOK key = true)

/-- The frame makes the connection install a key, answer or call `OnPacket`. -/
def Acts (s : Session) (f : Packet) : Prop :=
  s.course f = .newKey ∨ s.course f = .keepalive ∨ ∃ key, s.course f = .deliver key

/-- A key frame has the right checksums, and a keepalive request that is marked as encrypted the
right data checksum. -/
def Checksummed (s : Session) (f : Packet) : Prop :=
  (f.pFlag &&& ROM_PACKET_FLAG_KEY ≠ 0 → f.pData.length = ROM_KEY_LENGTH → Verified s f) ∧
    (f.pFlag &&& ROM_PACKET_FLAG_KEY = 0 → f.pFlag &&& ROM_PACKET_FLAG_ALIVE_REQUEST ≠ 0 →
      f.pFlag &&& ROM_PACKET_FLAG_ENCRYPTED ≠ 0 → f.headerChecksumOK = true →
        ∃ key, s.key.byteFor f.pKeynum = some key ∧ (f.decrypt key).dataChecksumOK key = true)

/-- It is these frames that the code does not check. -/
theorem acts_verified_iff {s : Session} {f : Packet} :
    (Acts s f → Verified s f) ↔ Checksummed s f := by
  constructor
  · refine fun hgate => ⟨fun hkey hlen => ?_, fun hkey halive hencrypted hheader => ?_⟩
    · exact hgate (Or.inl (Session.course_eq_newKey_iff.2 ⟨hkey, hlen⟩))
    · have hacts : s.course f = .keepalive :=
        Session.course_eq_keepalive_iff.2 ⟨fun hnot => hnot hkey, hheader, halive⟩
      exact (hgate (Or.inr (Or.inl hacts))).2 hencrypted
  · rintro ⟨hnewKey, hrequest⟩ (hc | hc | ⟨key, hc⟩)
    · obtain ⟨hkey, hlen⟩ := Session.course_eq_newKey_iff.1 hc
      exact hnewKey hkey hlen
    · obtain ⟨hkey, hheader, halive⟩ := Session.course_eq_keepalive_iff.1 hc
      exact ⟨hheader, fun hencrypted =>
        hrequest (Decidable.not_not.1 hkey) halive hencrypted hheader⟩
    · obtain ⟨hread, hbyte, hdata⟩ := Session.course_eq_deliver hc
      exact ⟨hread.2, fun _ => ⟨key, hbyte, hdata⟩⟩

/-- In a run whose key frames and keepalive requests are rightly checksummed, so is every frame that
makes the connection act. -/
theorem receives_verified {f : Packet}
    (hr : Receives h Checksummed received flushed c w (.handling f)) (hacts : Acts c.toSession f) :
    Verified c.toSession f :=
  acts_verified_iff.2 hr.meets hacts

/-- A keepalive request with the right header checksum. -/
def keepalivePacket : Packet := ⟨12, 4, 0, 15, 255, 0, []⟩

theorem receives_verified_keepalivePacket : Verified fresh.toSession keepalivePacket := by
  have hmeets : Checksummed fresh.toSession keepalivePacket :=
    ⟨fun hkey => absurd rfl hkey, fun _ _ hencrypted => absurd rfl hencrypted⟩
  obtain ⟨b, -, hr⟩ :=
    receives_first Host.quiet Checksummed () [] ⟨rfl, by decide⟩ (by decide) hmeets
  have hacts : Acts fresh.toSession keepalivePacket := Or.inr (Or.inl (by decide))
  exact receives_verified (c := ⟨fresh.toSession, b⟩) hr hacts

/-- The key of a frame with a wrong header checksum is installed. -/
theorem receives_keyPacket :
    ¬ ∀ (received : List UInt8) (flushed : List Packet) (c : ROMConnection) (f : Packet),
      Receives Host.quiet (fun _ _ => True) received flushed c () (.handling f) →
        Acts c.toSession f → Verified c.toSession f := by
  intro hall
  obtain ⟨b, -, hr⟩ := receives_first Host.quiet (fun _ _ => True) () [] fits_keyPacket (by decide)
    trivial
  have hverified := hall _ _ _ _ hr (Or.inl rfl)
  exact absurd hverified.1 (by decide)

end Runs

end ROMConnection

end OpenRom
