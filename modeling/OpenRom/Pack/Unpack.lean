import Mathlib.Algebra.Ring.Int.Defs
import Mathlib.Algebra.Ring.Nat
import OpenRom.Library.Loop

/-!
# The unpacker as a machine

`ROMPack::Unpack` is a goto program. Its state here is the label control has reached, the read
pointer, and the bytes written to the destination; one turn of the machine runs the code of one
label up to the next `goto`. A read outside the source, or of a destination byte that is not one
already written, is a fault. `code` is an `uint32_t`, so the sums that can grow past 32 bits are
taken modulo `2 ^ 32`.
-/

set_option autoImplicit false

namespace OpenRom.Pack

/-- The value of an `uint32_t` expression. -/
def u32 (n : Nat) : Nat := n % 2 ^ 32

/-- A pointer difference stored in an `int`. -/
def int32 (n : Int) : Int := n.bmod (2 ^ 32)

/-- The read pointer `in`: the source bytes before it, nearest first, and those from it on. -/
structure Cursor where
  passed : List UInt8
  rest : List UInt8
  deriving DecidableEq, Repr

/-- `*in`, then `in++`. -/
def Cursor.next (c : Cursor) : Option (UInt8 × Cursor) :=
  match c.rest with
  | [] => none
  | b :: rest => some (b, ⟨b :: c.passed, rest⟩)

/-- `*(uint16_t*)in`, then `in += 2`. -/
def Cursor.next16 (c : Cursor) : Option (Nat × Cursor) :=
  match c.rest with
  | lo :: hi :: rest => some (lo.toNat + 256 * hi.toNat, ⟨hi :: lo :: c.passed, rest⟩)
  | _ => none

/-- The loop of `HANDLE_COUNT`: every zero byte adds 255, the byte that ends the run adds itself
and `mask`. -/
def extendCount (mask : Nat) : Nat → List UInt8 → List UInt8 → Option (Nat × Cursor)
  | _, _, [] => none
  | acc, passed, b :: rest =>
      if b = 0 then extendCount mask (u32 (acc + 255)) (b :: passed) rest
      else some (u32 (acc + (b.toNat + mask)), ⟨b :: passed, rest⟩)

/-- `HANDLE_COUNT(acc, mask)`. -/
def handleCount (acc mask : Nat) (c : Cursor) : Option (Nat × Cursor) :=
  if acc &&& mask = 0 then extendCount mask 0 c.passed c.rest else some (acc &&& mask, c)

/-- `COPY(out, in, count)`: literals from the source. -/
def copyIn : Nat → Cursor → List UInt8 → Option (Cursor × List UInt8)
  | 0, c, dst => some (c, dst)
  | n + 1, c, dst =>
      match c.next with
      | none => none
      | some (b, c) => copyIn n c (dst ++ [b])

/-- A destination byte, at an offset from `dst`. -/
def dstByte (dst : List UInt8) (i : Int) : Option UInt8 :=
  if i < 0 then none else dst[i.toNat]?

/-- `COPY(out, buf, count)`: bytes of the destination, from the offset `buf` on. -/
def copyBuf : Nat → Int → List UInt8 → Option (List UInt8)
  | 0, _, dst => some dst
  | n + 1, buf, dst =>
      match dstByte dst buf with
      | none => none
      | some b => copyBuf n (buf + 1) (dst ++ [b])

/-- The labels; control reaches `tryStandard` with a byte in `code`. -/
inductive Label
  | try00to0FStandard
  | try00to0FAlternative
  | handleOffsetCount
  | tryStandard (code : Nat)
  deriving DecidableEq, Repr

structure Machine where
  label : Label
  src : Cursor
  dst : List UInt8
  deriving DecidableEq, Repr

/-- What a call leaves behind: its return value, the destination, and `*outlen`. -/
structure Written where
  ok : Bool
  dst : List UInt8
  outlen : Int
  deriving DecidableEq, Repr

/-- How a call ends: it returns, or it touches memory outside its buffers. -/
inductive Outcome
  | fault
  | returned (r : Written)
  deriving DecidableEq, Repr

/-- One turn of the machine; no turn is a fault. -/
abbrev Turn := Loop.Turn Machine Outcome

/-- Fetch a command; `00..0F` have their standard meaning, a run of literals. -/
def try00to0FStandard (c : Cursor) (dst : List UInt8) : Option Turn := do
  let (code, c) ← c.next
  if code.toNat ≥ 0x10 then
    return .again ⟨.tryStandard code.toNat, c, dst⟩
  let (count, c) ← handleCount code.toNat 15 c
  let (c, dst) ← copyIn (u32 (count + 3)) c dst
  return .again ⟨.try00to0FAlternative, c, dst⟩

/-- Fetch a command; `00..0F` have their alternative meaning, a copy of three bytes. -/
def try00to0FAlternative (c : Cursor) (dst : List UInt8) : Option Turn := do
  let (code, c) ← c.next
  if code.toNat ≥ 0x10 then
    return .again ⟨.tryStandard code.toNat, c, dst⟩
  let (b, c) ← c.next
  let buf : Int := dst.length - (code.toNat >>> 2 : Nat) - (b.toNat * 4 : Nat) - 0x801
  let dst ← copyBuf 3 buf dst
  return .again ⟨.handleOffsetCount, c, dst⟩

/-- The low two bits of the byte two before the read pointer count literals to copy. -/
def handleOffsetCount (c : Cursor) (dst : List UInt8) : Option Turn := do
  let b ← c.passed[1]?
  let code := b.toNat &&& 3
  if code = 0 then
    return .again ⟨.try00to0FStandard, c, dst⟩
  let (c, dst) ← copyIn code c dst
  let (code, c) ← c.next
  return .again ⟨.tryStandard code.toNat, c, dst⟩

/-- Decode a code in its most common meaning. -/
def tryStandard (code : Nat) (c : Cursor) (dst : List UInt8) : Option Turn := do
  if code ≥ 0x40 then
    let (b, c) ← c.next
    let buf : Int := dst.length - ((code >>> 2) &&& 7 : Nat) - (b.toNat * 8 : Nat) - 1
    let dst ← copyBuf ((code >>> 5) + 1) buf dst
    return .again ⟨.handleOffsetCount, c, dst⟩
  if code ≥ 0x20 then
    let (count, c) ← handleCount code 31 c
    let (off, c) ← c.next16
    let buf : Int := dst.length - (off >>> 2 : Nat) - 1
    let dst ← copyBuf (u32 (count + 2)) buf dst
    return .again ⟨.handleOffsetCount, c, dst⟩
  if code < 0x10 then
    return .leave (.returned ⟨false, dst, 0⟩)
  let buf : Int := dst.length - ((code &&& 8) <<< 0xb : Nat)
  let (count, c) ← handleCount code 7 c
  let (off, c) ← c.next16
  let buf := buf - (off >>> 2 : Nat)
  if buf = dst.length then
    -- the end marker; the call succeeds only if nothing of the source is left
    return .leave (.returned ⟨c.rest.isEmpty, dst, int32 dst.length⟩)
  let dst ← copyBuf (u32 (count + 2)) (buf - 0x4000) dst
  return .again ⟨.handleOffsetCount, c, dst⟩

/-- The code of a label. -/
def Machine.exec (m : Machine) : Option Turn :=
  match m.label with
  | .try00to0FStandard => Pack.try00to0FStandard m.src m.dst
  | .try00to0FAlternative => Pack.try00to0FAlternative m.src m.dst
  | .handleOffsetCount => Pack.handleOffsetCount m.src m.dst
  | .tryStandard code => Pack.tryStandard code m.src m.dst

section

variable (c : Cursor) (dst : List UInt8)

@[simp] theorem Machine.exec_standard :
    (⟨.try00to0FStandard, c, dst⟩ : Machine).exec = Pack.try00to0FStandard c dst := rfl

@[simp] theorem Machine.exec_alternative :
    (⟨.try00to0FAlternative, c, dst⟩ : Machine).exec = Pack.try00to0FAlternative c dst := rfl

@[simp] theorem Machine.exec_tryStandard (code : Nat) :
    (⟨.tryStandard code, c, dst⟩ : Machine).exec = Pack.tryStandard code c dst := rfl

end

def Machine.turn (m : Machine) : Turn := m.exec.getD (.leave .fault)

/-- The code before the first label. The first byte is special: above `0x11` it counts literals,
and the next command is fetched where that count sends it. -/
def enter (src : List UInt8) : Option Machine := do
  let b ← src.head?
  if b.toNat > 0x11 then
    let (c, dst) ← copyIn (b.toNat - 0x11) ⟨[b], src.tail⟩ []
    if b.toNat - 0x11 < 4 then
      return ⟨.try00to0FStandard, c, dst⟩
    return ⟨.try00to0FAlternative, c, dst⟩
  return ⟨.try00to0FStandard, ⟨[], src⟩, []⟩

/-- `ROMPack::Unpack(src, srclen, dst, outlen)`. `Loop.run` has fuel for every source:
`unpack_eq_iff` needs no side condition on it. -/
def unpack (src : List UInt8) : Outcome :=
  match enter src with
  | none => .fault
  | some m => (Loop.run Machine.turn (2 * src.length + 2) m).getD .fault

end OpenRom.Pack
