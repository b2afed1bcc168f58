import OpenRom.Connection.Reassemble

/-!
# Invariants of an event

A relation between the session of a connection and the world of its host is kept by a whole event
when every callback keeps it, and every frame that brings a key does
(`ROMConnection.onEvent_satisfies`). The frames in question are those the loop comes to
(`ROMConnection.nextFrame`).
-/

set_option autoImplicit false

namespace OpenRom

variable {ω : Type}

/-- The calls that leave the session as it is keep the relation. -/
structure Host.Keeps (h : Host ω) (I : Session → ω → Prop) : Prop where
  raw : ∀ {s w} (p : Packet), I s w → I s (h.onRawPacketReceived p w)
  packet : ∀ {s w p p' w'}, I s w → h.onPacket p w = some (p', w') → I s w'
  write : ∀ {s w} (bs : List UInt8), I s w → I s (h.write bs w).2

/-- The relation holds after the frame is handled. -/
def Handled.Satisfies (I : Session → ω → Prop) : Handled ω → Prop
  | .flush s _ w => I s w
  | .stop s _ w => I s w
  | .fault _ => True

/-- The relation holds after the event. -/
def Outcome.Satisfies (I : Session → ω → Prop) : Outcome ω → Prop
  | .fault _ => True
  | .returned _ c w => I c.toSession w

/-- Taking over the key of the frame, and what the host does then, keeps the relation. -/
def Host.KeepsKey (h : Host ω) (I : Session → ω → Prop) (s : Session) (f : Packet) (w : ω) : Prop :=
  ∀ (hlen : f.pData.length = ROM_KEY_LENGTH) (w' : ω), f.pFlag &&& ROM_PACKET_FLAG_KEY ≠ 0 →
    h.onNewKey (s.installKey f.pData hlen) (h.onRawPacketReceived f w) = some w' →
      I (s.installKey f.pData hlen) w'

/-- One frame keeps the relation. -/
theorem Session.handlePacket_satisfies {h : Host ω} {I : Session → ω → Prop} (hh : h.Keeps I)
    {s : Session} {f : Packet} {w : ω} (hs : I s w) (hkey : h.KeepsKey I s f w) :
    (s.handlePacket h f w).Satisfies I := by
  have hraw := hh.raw f hs
  have hhandles := s.handles h f w
  generalize s.handlePacket h f w = r at hhandles ⊢
  cases hhandles with
  | fault => trivial
  | newKey hlen hflag hn => exact hkey hlen _ hflag hn
  | ignored | rejected => exact hraw
  | replied bs | notReplied bs => exact hh.write bs hraw
  | delivered key hp => exact hh.packet hraw hp

namespace ROMConnection

/-- The frame at the front of the buffer, when the loop goes on with it. -/
def nextFrame (c : ROMConnection) : Option Packet :=
  match c.buffer.peekPacket with
  | none => none
  | some p =>
      if p.pLength.toNat < sizeofPacket ∨ p.pLength.toNat ≥ s_MaxPacketSize then none
      else if ¬ c.buffer.canPeek p.pLength.toNat then none
      else some p.frame

/-- With an entire frame, a turn is what the code makes of the frame. -/
theorem turn_of_nextFrame (h : Host ω) {c : ROMConnection} {f : Packet} (w : ω)
    (hf : c.nextFrame = some f) :
    turn h (c, w) =
      match c.handlePacket h f w with
      | .fault w => .leave (.fault w)
      | .stop s p w => .leave (.returned false ⟨s, c.buffer.overwrite p.bytes⟩ w)
      | .flush s p w =>
          match (c.buffer.overwrite p.bytes).flushData p.pLength.toNat with
          | none => .leave (.fault w)
          | some b => .again (⟨s, b⟩, w) := by
  unfold nextFrame at hf
  unfold turn
  cases hp : c.buffer.peekPacket with
  | none =>
      rw [hp] at hf
      cases hf
  | some p =>
      simp only [hp] at hf ⊢
      by_cases hbound : p.pLength.toNat < sizeofPacket ∨ p.pLength.toNat ≥ s_MaxPacketSize
      · rw [if_pos hbound] at hf
        cases hf
      rw [if_neg hbound] at hf ⊢
      by_cases hpeek : c.buffer.canPeek p.pLength.toNat = true
      · rw [if_neg (fun hnot => hnot hpeek), Option.some_inj] at hf
        rw [if_neg (fun hnot => hnot hpeek)]
        subst hf
        rfl
      · rw [if_pos hpeek] at hf
        cases hf

/-- Without one, the loop is left. -/
theorem turn_of_no_frame (h : Host ω) {c : ROMConnection} (w : ω) (hf : c.nextFrame = none) :
    ∃ ok, turn h (c, w) = .leave (.returned ok c w) := by
  unfold nextFrame at hf
  unfold turn
  cases hp : c.buffer.peekPacket with
  | none =>
      simp only [hp]
      exact ⟨true, rfl⟩
  | some p =>
      simp only [hp] at hf ⊢
      by_cases hbound : p.pLength.toNat < sizeofPacket ∨ p.pLength.toNat ≥ s_MaxPacketSize
      · rw [if_pos hbound]
        exact ⟨false, rfl⟩
      rw [if_neg hbound] at hf ⊢
      by_cases hpeek : c.buffer.canPeek p.pLength.toNat = true
      · rw [if_neg (fun hnot => hnot hpeek)] at hf
        cases hf
      · rw [if_pos hpeek]
        exact ⟨true, rfl⟩

/-- What holds of a turn, by what is made of the frame that it comes to. -/
theorem turn_of_handled {h : Host ω} {c : ROMConnection} {w : ω} (Again : Session → ω → Prop)
    (Left : Outcome ω → Prop) (hnone : ∀ ok, Left (.returned ok c w))
    (hsome : ∀ f, c.nextFrame = some f →
      match c.handlePacket h f w with
      | .fault w' => Left (.fault w')
      | .stop s _ w' => ∀ b, Left (.returned false ⟨s, b⟩ w')
      | .flush s _ w' => Again s w' ∧ Left (.fault w')) :
    (∀ {c' w'}, turn h (c, w) = .again (c', w') → Again c'.toSession w') ∧
      ∀ {o}, turn h (c, w) = .leave o → Left o := by
  cases hf : c.nextFrame with
  | none =>
      -- there is no whole frame, and the loop is left with the connection as it is
      obtain ⟨ok, hleave⟩ := turn_of_no_frame h w hf
      rw [hleave]
      constructor
      · rintro c' w' ⟨⟩
      · rintro o ⟨⟩
        exact hnone ok
  | some f =>
      have hframe := hsome f hf
      rw [turn_of_nextFrame h w hf]
      cases hp : c.handlePacket h f w with
      | fault w' =>
          rw [hp] at hframe
          constructor
          · rintro c' w'' ⟨⟩
          · rintro o ⟨⟩
            exact hframe
      | stop s p w' =>
          rw [hp] at hframe
          constructor
          · rintro c' w'' ⟨⟩
          · rintro o ⟨⟩
            exact hframe _
      | flush s p w' =>
          rw [hp] at hframe
          -- the frame is flushed from the buffer, which is long enough for it
          simp only
          split
          · constructor
            · rintro c' w'' ⟨⟩
            · rintro o ⟨⟩
              exact hframe.2
          · constructor
            · rintro c' w'' ⟨⟩
              exact hframe.1
            · rintro o ⟨⟩

/-- What a turn leads to keeps the relation, whether the loop goes on or is left. -/
theorem turn_satisfies {h : Host ω} {I : Session → ω → Prop} (hh : h.Keeps I)
    {c : ROMConnection} {w : ω} (hs : I c.toSession w)
    (hkey : ∀ f ∈ c.nextFrame, h.KeepsKey I c.toSession f w) :
    (∀ {c' w'}, turn h (c, w) = .again (c', w') → I c'.toSession w') ∧
      ∀ {o}, turn h (c, w) = .leave o → o.Satisfies I := by
  refine turn_of_handled I (Outcome.Satisfies I) (fun _ => hs) fun f hf => ?_
  have hsat := Session.handlePacket_satisfies hh hs (hkey f hf)
  cases hp : c.handlePacket h f w with
  | fault w' => trivial
  | stop s p w' =>
      rw [hp] at hsat
      exact fun _ => hsat
  | flush s p w' =>
      rw [hp] at hsat
      exact ⟨hsat, trivial⟩

/-- The states of the loop that an event with this read comes through. -/
def Passes (h : Host ω) (c : ROMConnection) (packet : List UInt8) (w : ω)
    (st : ROMConnection × ω) : Prop :=
  ∃ b, c.buffer.addData packet = some b ∧ Loop.Reaches (turn h) ({ c with buffer := b }, w) st

/-- What every turn of an event keeps is there when it is left. -/
theorem onEvent_of_turns {h : Host ω} {c : ROMConnection} {packet : List UInt8} {w : ω}
    (I : Session → ω → Prop) (Left : Outcome ω → Prop) (hs : I c.toSession w)
    (hreturned : Left (.returned false c w))
    (hturn : ∀ {c' w'}, c.Passes h packet w (c', w') → I c'.toSession w' →
      (∀ {c'' w''}, turn h (c', w') = .again (c'', w'') → I c''.toSession w'') ∧
        ∀ {o}, turn h (c', w') = .leave o → Left o) :
    Left (c.onEvent h packet w) := by
  unfold onEvent
  split
  · exact hreturned
  cases hb : c.buffer.addData packet with
  | none => exact hreturned
  | some b =>
      obtain ⟨o, ho⟩ : ∃ o, Loop.Ends (turn h) ({ c with buffer := b }, w) o :=
        Loop.exists_ends length_turn_lt _
      have hrun := Loop.run_of_ends length_turn_lt ho (b.data.length + 1) (Nat.lt_succ_self _)
      simp only [hrun, Option.getD_some]
      -- the relation holds in every state that the loop comes through
      apply ho.preserves (P := fun st => I st.1.toSession st.2) hs
      · intro st st' hreach hst ht
        exact (hturn ⟨b, hb, hreach⟩ hst).1 ht
      · intro st o' hreach hst ht
        exact (hturn ⟨b, hb, hreach⟩ hst).2 ht

/-- A whole event keeps the relation. -/
theorem onEvent_satisfies {h : Host ω} {I : Session → ω → Prop} (hh : h.Keeps I)
    {c : ROMConnection} {packet : List UInt8} {w : ω} (hs : I c.toSession w)
    (hkey : ∀ {c' w'}, c.Passes h packet w (c', w') → I c'.toSession w' →
      ∀ f ∈ c'.nextFrame, h.KeepsKey I c'.toSession f w') :
    (c.onEvent h packet w).Satisfies I :=
  onEvent_of_turns I (Outcome.Satisfies I) hs hs fun hpasses hst =>
    turn_satisfies hh hst (hkey hpasses hst)

end ROMConnection

end OpenRom
