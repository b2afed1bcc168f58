import OpenRom.Pack.Pieces

/-!
# Streams that are read inside the buffers

Nothing in the unpacker compares the read pointer with the end of the source, or the source of a
match with the start of the destination. `Reads` says, from the bytes alone, when that does no harm:
every piece is complete, and every match starts inside what the pieces before it have written. The
unpacker returns on these streams (`unpack_returns_iff`), with the verdict and with as many bytes
as the pieces count (`unpack_returned_iff`).
-/

set_option autoImplicit false

namespace OpenRom.Pack

open SlidingWindow Loop

namespace Piece

/-- How many bytes a piece writes. -/
def size : Piece → Nat
  | literals _ bytes _ => bytes.length
  | copy m trailing _ => u32 m.length + trailing.length

/-- With so many bytes written, the piece copies from inside them. -/
def Reaches : Piece → Nat → Prop
  | literals _ _ _, _ => True
  | copy m _ _, n => u32 m.length = 0 ∨ m.distance ≤ n

theorem isSome_meaning (q : Piece) (dst : List UInt8) :
    (q.meaning dst).isSome ↔ q.Reaches dst.length := by
  cases q with
  | literals count bytes h => exact iff_of_true rfl trivial
  | copy m trailing h =>
      rw [meaning, Option.isSome_map]
      exact isSome_copyBack m.one_le_distance _ dst

theorem length_meaning {q : Piece} {dst dst' : List UInt8} (h : q.meaning dst = some dst') :
    dst'.length = dst.length + q.size := by
  cases q with
  | literals count bytes hbytes =>
      cases h
      exact List.length_append
  | copy m trailing htrailing =>
      obtain ⟨out, hout, rfl⟩ := Option.map_eq_some_iff.1 h
      rw [List.length_append, length_copyBack hout, size, Nat.add_assoc]

end Piece

/-! ## From a context on -/

/-- What is left of a stream is read inside the buffers, with so many bytes written before and after
it, and is accepted or not. -/
inductive Reads : Context → List UInt8 → Nat → Bool → Nat → Prop
  | stop (ctx : Context) (e : EndMarker) (rest : List UInt8) (n : Nat) :
      Reads ctx (e.encode ++ rest) n rest.isEmpty n
  | low {b : UInt8} (hb : b.toNat < 0x10) (rest : List UInt8) (n : Nat) :
      Reads .strict (b :: rest) n false n
  | piece {ctx : Context} {q : Piece} {rest : List UInt8} {n n' : Nat} {ok : Bool}
      (hq : q.AllowedIn ctx) (hreaches : q.Reaches n) (h : Reads q.after rest (n + q.size) ok n') :
      Reads ctx (q.encode ++ rest) n ok n'

/-- Such a stream is decoded to its end. -/
theorem Reads.endsFrom {ctx : Context} {rest : List UInt8} {k n : Nat} {ok : Bool}
    (h : Reads ctx rest k ok n) {dst : List UInt8} (hdst : dst.length = k) (passed : List UInt8) :
    ∃ r, EndsFrom ctx passed rest dst (.returned r) ∧ r.ok = ok ∧ r.dst.length = n := by
  induction h generalizing dst passed with
  | stop ctx e rest k =>
      exact ⟨_, (endsFrom_endMarker ctx e passed rest dst _).2 rfl, rfl, hdst⟩
  | low hb rest k => exact ⟨_, (endsFrom_low hb passed rest dst _).2 rfl, rfl, hdst⟩
  | @piece ctx q rest k n ok hq hreaches _ ih =>
      obtain ⟨dst', hmeaning⟩ := Option.isSome_iff_exists.1
        ((q.isSome_meaning dst).2 (hdst ▸ hreaches))
      obtain ⟨r, hends, hr⟩ := ih ((Piece.length_meaning hmeaning).trans (by rw [hdst]))
        (q.encode.reverse ++ passed)
      refine ⟨r, (endsFrom_piece hq passed rest dst _).2 ?_, hr⟩
      rw [hmeaning]
      exact hends

/-- What is decoded to its end is such a stream, and `*outlen` is set when it is accepted. -/
theorem reads_of_endsFrom {ctx : Context} {passed rest dst : List UInt8} {r : Written}
    (h : EndsFrom ctx passed rest dst (.returned r)) :
    Reads ctx rest dst.length r.ok r.dst.length ∧
      (r.ok = true → r.outlen = int32 r.dst.length) := by
  -- each piece takes at least one byte of what is left
  induction hk : rest.length using Nat.strongRecOn generalizing ctx passed rest dst with
  | ind k ih =>
      rcases piece_cases ctx rest passed dst with
        ⟨q, rest', hq, rfl⟩ | ⟨e, rest', rfl⟩ | ⟨rfl, b, rest', hb, rfl⟩ | hfault
      · rw [endsFrom_piece hq] at h
        cases hmeaning : q.meaning dst with
        | none =>
            rw [hmeaning] at h
            cases h
        | some dst' =>
            rw [hmeaning] at h
            have hpos := q.length_encode_pos
            rw [List.length_append] at hk
            obtain ⟨hrest, hout⟩ := ih rest'.length (by omega) h rfl
            rw [Piece.length_meaning hmeaning] at hrest
            refine ⟨.piece hq ((q.isSome_meaning dst).1 ?_) hrest, hout⟩
            rw [hmeaning]
            rfl
      · cases (endsFrom_endMarker ctx e passed rest' dst _).1 h
        refine ⟨.stop ctx e rest' dst.length, fun _ => ?_⟩
        dsimp only
      · cases (endsFrom_low hb passed rest' dst _).1 h
        refine ⟨.low hb rest' dst.length, fun hok => ?_⟩
        cases hok
      · cases hfault _ h

/-! ## Whole streams -/

/-- A stream is read inside the buffers, with so many bytes written, and is accepted or not. -/
inductive ReadsWhole : List UInt8 → Bool → Nat → Prop
  | plain {b : UInt8} {rest : List UInt8} {ok : Bool} {n : Nat} (hb : b.toNat ≤ 0x11)
      (h : Reads .standard (b :: rest) 0 ok n) : ReadsWhole (b :: rest) ok n
  | opening (o : Opening) {rest : List UInt8} {ok : Bool} {n : Nat}
      (h : Reads o.after rest o.bytes.length ok n) : ReadsWhole (o.encode ++ rest) ok n

theorem readsWhole_of_unpack {src : List UInt8} {r : Written} (h : unpack src = .returned r) :
    ReadsWhole src r.ok r.dst.length ∧ (r.ok = true → r.outlen = int32 r.dst.length) := by
  rw [unpack_eq_iff] at h
  rcases opening_cases src with ⟨b, rest, hb, rfl⟩ | ⟨o, rest, rfl⟩ | hnone
  · obtain ⟨m, hm, hends⟩ := h
    rw [enter_of_le hb] at hm
    cases hm
    have hends : EndsFrom .standard [] (b :: rest) [] (.returned r) := hends
    exact (reads_of_endsFrom hends).imp_left (.plain hb)
  · exact (reads_of_endsFrom ((ends_enter_opening o rest _).1 h)).imp_left (.opening o)
  · obtain ⟨m, hm, -⟩ := h
    cases hnone.symm.trans hm

/-- The unpacker returns on these streams, with this verdict and this number of bytes. -/
theorem unpack_returned_iff (src : List UInt8) (ok : Bool) (n : Nat) :
    (∃ r, unpack src = .returned r ∧ r.ok = ok ∧ r.dst.length = n) ↔ ReadsWhole src ok n := by
  constructor
  · rintro ⟨r, h, rfl, rfl⟩
    exact (readsWhole_of_unpack h).1
  · intro h
    cases h with
    | @plain b rest ok n hb h =>
        have hdst : ([] : List UInt8).length = 0 := rfl
        obtain ⟨r, hends, hr⟩ := h.endsFrom hdst []
        exact ⟨r, (unpack_eq_iff _ r).2 ⟨_, enter_of_le hb rest, hends⟩, hr⟩
    | opening o h =>
        obtain ⟨r, hends, hr⟩ := h.endsFrom rfl _
        exact ⟨r, (unpack_eq_iff _ r).2 ((ends_enter_opening o _ _).2 hends), hr⟩

/-- What is accepted ends with an end marker. -/
theorem Reads.exists_endMarker {ctx : Context} {rest : List UInt8} {k n : Nat}
    (h : Reads ctx rest k true n) : ∃ front, ∃ e : EndMarker, rest = front ++ e.encode := by
  generalize hok : true = ok at h
  induction h with
  | stop ctx e rest k =>
      obtain rfl : rest = [] := List.isEmpty_iff.1 hok.symm
      exact ⟨[], e, List.append_nil _⟩
  | low hb rest k => cases hok
  | @piece ctx q rest k n ok hq hreaches _ ih =>
      obtain ⟨front, e, rfl⟩ := ih hok
      exact ⟨q.encode ++ front, e, (List.append_assoc _ _ _).symm⟩

theorem ReadsWhole.exists_endMarker {src : List UInt8} {n : Nat} (h : ReadsWhole src true n) :
    ∃ front, ∃ e : EndMarker, src = front ++ e.encode := by
  generalize hok : true = ok at h
  cases h with
  | plain hb h => exact (hok ▸ h).exists_endMarker
  | opening o h =>
      obtain ⟨front, e, rfl⟩ := (hok ▸ h).exists_endMarker
      exact ⟨o.encode ++ front, e, (List.append_assoc _ _ _).symm⟩

/-- The unpacker returns, with all reads inside the buffers, exactly on these streams. -/
theorem unpack_returns_iff (src : List UInt8) :
    (∃ r, unpack src = .returned r) ↔ ∃ ok n, ReadsWhole src ok n := by
  constructor
  · rintro ⟨r, h⟩
    exact ⟨r.ok, r.dst.length, (unpack_returned_iff src _ _).1 ⟨r, h, rfl, rfl⟩⟩
  · rintro ⟨ok, n, h⟩
    obtain ⟨r, hr, -, -⟩ := (unpack_returned_iff src ok n).2 h
    exact ⟨r, hr⟩

/-- A source that ends inside a command is read behind its end. -/
theorem unpack_strays : ¬ ∀ src : List UInt8, src ≠ [] → ∃ r, unpack src = .returned r := by
  intro h
  have htruncated : unpack [0x10] = .fault := by decide +kernel
  obtain ⟨r, hr⟩ := h [0x10] nofun
  cases htruncated.symm.trans hr

end OpenRom.Pack
