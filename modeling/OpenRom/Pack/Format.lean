import Mathlib.Algebra.Ring.Int.Defs
import Mathlib.Algebra.Ring.Nat
import OpenRom.Library.SlidingWindow

/-!
# The command format

What a packed stream is, and what it means, without reference to the machine that reads it. A
stream is an optional opening run of literals, a list of commands and an end marker. A command is a
run of literals or a match; a match copies from the output so far and is followed by up to three
literals. Which commands may stand where depends on the command before (`Command.AllowedIn`):
a first byte below `0x10` is a run of literals, a three-byte match, or not allowed.

`Program.encode` gives the bytes of a stream, `Program.meaning` the output it describes.
-/

set_option autoImplicit false

namespace OpenRom.Pack

open SlidingWindow

/-- A count in a command byte. A count from 1 to `mask` stands in the byte itself. A larger one
leaves those bits zero and follows in a run of zero bytes ended by another byte. -/
inductive Count (mask : Nat)
  | short (a : Nat) (h : 1 ≤ a ∧ a ≤ mask)
  | long (zeros : Nat) (last : UInt8) (h : last ≠ 0)

namespace Count

variable {mask : Nat}

/-- The bits in the command byte. -/
def bits : Count mask → Nat
  | short a _ => a
  | long _ _ _ => 0

/-- The bytes after the command byte. -/
def tail : Count mask → List UInt8
  | short _ _ => []
  | long zeros last _ => List.replicate zeros 0 ++ [last]

def value : Count mask → Nat
  | short a _ => a
  | long zeros last _ => mask + 255 * zeros + last.toNat

end Count

/-- Two bytes, the low one first. -/
def le16 (n : Nat) : List UInt8 := [UInt8.ofNat n, UInt8.ofNat (n / 256)]

/-- What a first byte below `0x10` means: a run of literals, a three-byte match, or nothing. -/
inductive Context
  | standard
  | alternative
  | strict
  deriving DecidableEq, Repr

/-- A match: a copy of some bytes from a distance behind the write position. -/
inductive Match
  /-- `0000aaxx bbbbbbbb` -/
  | recent (aa : Fin 4) (b : UInt8)
  /-- `cccbbbxx dddddddd` with `ccc ≥ 2` -/
  | near (ccc : Nat) (h : 2 ≤ ccc ∧ ccc ≤ 7) (bbb : Fin 8) (d : UInt8)
  /-- `001aaaaa`, the rest of the count, `oooooooooooooo` and `xx` -/
  | middle (count : Count 31) (off : Fin (2 ^ 14))
  /-- `0001baaa`, the rest of the count, `oooooooooooooo` and `xx`; `b` and the offset are not both
  zero, which is the end marker -/
  | far (b : Fin 2) (count : Count 7) (off : Fin (2 ^ 14)) (h : b.val ≠ 0 ∨ off.val ≠ 0)

namespace Match

/-- How many bytes are copied. -/
def length : Match → Nat
  | recent _ _ => 3
  | near ccc _ _ _ => ccc + 1
  | middle count _ => 2 + count.value
  | far _ count _ _ => 2 + count.value

/-- From how far behind the write position. -/
def distance : Match → Nat
  | recent aa b => 0x801 + aa.val + 4 * b.toNat
  | near _ _ bbb d => 1 + bbb.val + 8 * d.toNat
  | middle _ off => 1 + off.val
  | far b _ off _ => 0x4000 * b.val + off.val + 0x4000

/-- The bytes of a match that is followed by `xx` literals. -/
def encode (xx : Nat) : Match → List UInt8
  | recent aa b => [UInt8.ofNat (4 * aa.val + xx), b]
  | near ccc _ bbb d => [UInt8.ofNat (32 * ccc + 4 * bbb.val + xx), d]
  | middle count off => UInt8.ofNat (0x20 + count.bits) :: count.tail ++ le16 (4 * off.val + xx)
  | far b count off _ =>
      UInt8.ofNat (0x10 + 8 * b.val + count.bits) :: count.tail ++ le16 (4 * off.val + xx)

def AllowedIn : Match → Context → Prop
  | recent _ _, ctx => ctx = .alternative
  | _, _ => True

end Match

inductive Command
  /-- `0000aaaa`: three literals more than the count says -/
  | literals (count : Count 15) (bytes : List UInt8) (h : bytes.length = 3 + count.value)
  /-- a match and the literals after it -/
  | copy (m : Match) (trailing : List UInt8) (h : trailing.length ≤ 3)

/-- The context after a match with these literals. -/
def trailingContext : List UInt8 → Context
  | [] => .standard
  | _ :: _ => .strict

namespace Command

def encode : Command → List UInt8
  | literals count bytes _ => UInt8.ofNat count.bits :: count.tail ++ bytes
  | copy m trailing _ => m.encode trailing.length ++ trailing

theorem length_encode_pos (c : Command) : 1 ≤ c.encode.length := by
  refine List.length_pos_iff.2 ?_
  cases c with
  | literals count bytes h => exact List.cons_ne_nil _ _
  | copy m trailing h => cases m <;> exact List.cons_ne_nil _ _

/-- The output after a command, given the output before it. -/
def meaning : Command → List UInt8 → Option (List UInt8)
  | literals _ bytes _, out => some (out ++ bytes)
  | copy m trailing _, out => (copyBack m.distance m.length out).map (· ++ trailing)

def AllowedIn : Command → Context → Prop
  | literals _ _ _, ctx => ctx = .standard
  | copy m _ _, ctx => m.AllowedIn ctx

/-- The context in which the command after this one stands. -/
def after : Command → Context
  | literals _ _ _ => .alternative
  | copy _ trailing _ => trailingContext trailing

end Command

/-- `00010aaa` with the rest of the count, and an offset that is zero but for its low two bits. -/
structure EndMarker where
  count : Count 7
  low : Fin 4

def EndMarker.encode (e : EndMarker) : List UInt8 :=
  UInt8.ofNat (0x10 + e.count.bits) :: e.count.tail ++ [UInt8.ofNat e.low.val, 0]

/-- Every command is one that its context allows. -/
def AllowedFrom : Context → List Command → Prop
  | _, [] => True
  | ctx, c :: cs => c.AllowedIn ctx ∧ AllowedFrom c.after cs

/-- The output after a list of commands. -/
def meaningFrom : List Command → List UInt8 → Option (List UInt8)
  | [], out => some out
  | c :: cs, out => (c.meaning out).bind (meaningFrom cs)

/-- The literals of an opening byte above `0x11`. -/
structure Opening where
  bytes : List UInt8
  length_bounds : 1 ≤ bytes.length ∧ bytes.length ≤ 0xff - 0x11

namespace Opening

def encode (o : Opening) : List UInt8 := UInt8.ofNat (0x11 + o.bytes.length) :: o.bytes

def after (o : Opening) : Context :=
  if o.bytes.length < 4 then .standard else .alternative

end Opening

/-- A whole stream. -/
structure Program where
  opening : Option Opening
  commands : List Command
  stop : EndMarker

namespace Program

/-- The commands and the end marker. -/
def body (p : Program) : List UInt8 := (p.commands.map Command.encode).flatten ++ p.stop.encode

def encode (p : Program) : List UInt8 :=
  match p.opening with
  | none => p.body
  | some o => o.encode ++ p.body

/-- The commands stand where they may. Without an opening the first byte is at most `0x11`, as
any larger one is an opening. -/
def WellFormed (p : Program) : Prop :=
  match p.opening with
  | none => AllowedFrom .standard p.commands ∧ ∀ b ∈ p.body.head?, b.toNat ≤ 0x11
  | some o => AllowedFrom o.after p.commands

/-- The output that the stream describes; there is none when a match reaches back before it. -/
def meaning (p : Program) : Option (List UInt8) :=
  meaningFrom p.commands (match p.opening with | none => [] | some o => o.bytes)

end Program

/-- `src` is a packed form of `out`. -/
def Describes (src out : List UInt8) : Prop :=
  ∃ p : Program, p.WellFormed ∧ p.encode = src ∧ p.meaning = some out

end OpenRom.Pack
