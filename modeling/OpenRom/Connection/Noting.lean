import OpenRom.Connection.Frames
import OpenRom.Connection.SeenAs

/-!
# Notes about the frames of a host

A host that passes packets on: to every packet that it is called with belong the frame that the
packet came in, the frame that it is passed on in, and the payload of both. `Host.noting` keeps a
list of these and is otherwise the same host (`onEvent_noting`).
-/

set_option autoImplicit false

namespace OpenRom

variable {ω ε : Type}

/-- A data frame between two endpoints, and its payload. -/
structure Exchange (ε : Type) where
  source : ε
  dest : ε
  frame : Packet
  payload : List UInt8
  deriving DecidableEq, Repr

/-- The frame that has come in last, and the frames of the packets so far. -/
structure Notes (ε : Type) where
  raw : Packet
  exchanges : List (Exchange ε)
  deriving DecidableEq, Repr

/-- A host that notes the frames of a packet: the one that came in on the way `received`, and the
packet as the callback leaves it, on the way `sent`. -/
def Host.noting (h : Host ω) (received sent : ε × ε) : Host (ω × Notes ε) where
  onRawPacketReceived p st := (h.onRawPacketReceived p st.1, { st.2 with raw := p })
  onNewKey s st := (h.onNewKey s st.1).map fun w => (w, st.2)
  onPacket p st := (h.onPacket p st.1).map fun r => (r.1, r.2, { st.2 with
    exchanges := st.2.exchanges ++
      [⟨received.1, received.2, st.2.raw, p.pData⟩, ⟨sent.1, sent.2, r.1, p.pData⟩] })
  write bs st := ((h.write bs st.1).1, (h.write bs st.1).2, st.2)
  stack := h.stack.comap Prod.fst
  onPacket_length := by
    intro p p' st st' hp
    obtain ⟨r, hr, heq⟩ := Option.map_eq_some_iff.1 hp
    cases heq
    exact h.onPacket_length hr

/-! ## The same host -/

theorem Host.noting_seenAs (h : Host ω) (received sent : ε × ε) :
    (h.noting received sent).SeenAs Prod.fst h where
  onRawPacketReceived _ _ := rfl
  onNewKey s st := by
    simp only [noting]
    cases h.onNewKey s st.1 <;> rfl
  onPacket p st := by
    simp only [noting]
    cases h.onPacket p st.1 <;> rfl
  write _ _ := rfl
  stackBytes _ := rfl
  stackSpare _ := rfl

/-- A connection does the same for the host that keeps notes. -/
theorem ROMConnection.onEvent_noting (h : Host ω) (received sent : ε × ε) (c : ROMConnection)
    (packet : List UInt8) (st : ω × Notes ε) :
    c.onEvent h packet st.1 = (c.onEvent (h.noting received sent) packet st).map Prod.fst :=
  onEvent_seenAs (h.noting_seenAs received sent) c packet st

/-! ## What is noted -/

/-- A data frame is noted with its payload, and so is what the callback makes of it. -/
theorem Session.handlePacket_noting_carries (h : Host ω) (received sent : ε × ε) {s : Session}
    {f : Packet} {payload : List UInt8} (hf : Carries s.key f payload) (hhave : s.haveKey = true)
    (st : ω × Notes ε) :
    ∃ q : Packet, q.pLength = f.pLength ∧ q.pData = payload ∧
      ∀ {p' w'}, h.onPacket q (h.onRawPacketReceived f st.1) = some (p', w') →
        s.handlePacket (h.noting received sent) f st =
          .flush s p' (w', ⟨f, st.2.exchanges ++
            [⟨received.1, received.2, f, payload⟩, ⟨sent.1, sent.2, p', payload⟩]⟩) := by
  obtain ⟨q, hlen, hdata, hhandle⟩ :=
    handlePacket_carries (h := h.noting received sent) hf hhave st
  refine ⟨q, hlen, hdata, fun {p' w'} hon => ?_⟩
  have hnoted : (h.noting received sent).onPacket q
      ((h.noting received sent).onRawPacketReceived f st) =
        some (p', w', ⟨f, st.2.exchanges ++
          [⟨received.1, received.2, f, payload⟩, ⟨sent.1, sent.2, p', payload⟩]⟩) := by
    simp only [Host.noting, hon, hdata]
    rfl
  rw [hnoted] at hhandle
  exact hhandle

end OpenRom
