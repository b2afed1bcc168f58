import OpenRom.RomDump.Flows
import OpenRom.RomDump.LogFile

/-!
# Any file

What `romdump` does with a file that nobody has written as a capture. The records that it finds are
bytes of the file, none is longer than the buffer of `main`, and the rest is the loop over these
records (`main_anyFile`): with a file that is no longer than the largest size of a flow, no call of
`Flow::Append` writes behind its buffer.
-/

set_option autoImplicit false

namespace OpenRom.RomDump

/-! ## Lines -/

theorem File.unread_add_fgets {f f' : File} {size : Nat} {line : List UInt8}
    (h : f.fgets size = some (line, f')) : f'.unread + line.length = f.unread := by
  have hle : ∀ (n : Nat) (cs : List UInt8), (lineOf n cs).length ≤ cs.length := by
    intro n cs
    induction cs generalizing n with
    | nil => cases n <;> exact Nat.le_refl 0
    | cons c cs ih =>
        cases n with
        | zero => exact Nat.zero_le _
        | succ n =>
            rw [lineOf]
            split
            · exact Nat.succ_le_succ (Nat.zero_le _)
            · exact Nat.succ_le_succ (ih n)
  unfold fgets at h
  split at h
  · cases h
  · cases h
    have hline := hle (size - 1) f.rest
    simp only [unread, rest_advance, List.length_drop]
    omega

namespace TCPFlowParser

theorem length_storedLine (cs : List UInt8) : (storedLine cs).length = cs.length + 1 := by
  unfold storedLine
  cases (File.cString cs).idxOf? 0x0a <;> simp

/-- Every byte that is stored takes the space of one, and has at least two digits on the line. -/
theorem length_of_parseGroups {fuel : Nat} {ptr data data' : List UInt8} {left left' : Nat}
    (h : parseGroups fuel ptr data left = some (data', left')) :
    data'.length + left' = data.length + left ∧ data'.length ≤ data.length + ptr.length := by
  induction fuel generalizing ptr data left with
  | zero =>
      cases h
      exact ⟨rfl, Nat.le_add_right _ _⟩
  | succ fuel ih =>
      rw [parseGroups] at h
      split at h
      · cases h
        exact ⟨rfl, Nat.le_add_right _ _⟩
      simp only at h
      split at h
      · cases h
        exact ⟨rfl, Nat.le_add_right _ _⟩
      split at h
      · cases h
      next hdigits hassert =>
        -- a blank behind the digits is passed over
        have hnext : ∀ next : List UInt8, (if next.head? = some 0x20 then next.tail
            else next).length ≤ next.length := by
          intro next
          split
          · rw [List.length_tail]
            exact Nat.sub_le _ _
          · exact Nat.le_refl _
        have hrest := hnext (strtoul 16 ptr).2
        -- a group of two or three digits is a byte, and one of four or five is two
        have hhigh : ∀ (n : Nat) (b : UInt8), n ≠ 0 → ¬ n > 2 →
            (if n > 1 then [b] else []).length + 1 = n := by
          intro n b hpos hmax
          split
          · rw [List.length_singleton]
            omega
          · rw [List.length_nil]
            omega
        obtain ⟨hmax, hroom⟩ := not_or.1 hassert
        have hstored := hhigh _ ((strtoul 16 ptr).1 >>> 8).toUInt8 hdigits hmax
        obtain ⟨hsum, hle⟩ := ih h
        simp only [List.length_append, List.length_singleton] at hsum hle
        omega

/-- What has been stored comes from what has been read, and is in the space there was. -/
structure Stored (unread iMaxLength : Nat) (f : File) (data : List UInt8) : Prop where
  unread_le : f.unread + data.length ≤ unread
  length_le : data.length ≤ iMaxLength

/-- `ParsePacket` stays within the space that it is given, in any file. -/
theorem stored_of_parsePacket {f f' : File} {iMaxLength : Nat} {data : List UInt8}
    (h : parsePacket f iMaxLength = .ok (data, f')) : Stored f.unread iMaxLength f' data := by
  have hends := parsePacket_ends f iMaxLength
  rw [h] at hends
  -- a turn takes from the file at least what it stores, and stores what is taken from the space
  refine hends.preserves
    (P := fun st => st.1.unread + st.2.1.length ≤ f.unread ∧ st.2.1.length + st.2.2 = iMaxLength)
    (Q := fun r => ∀ p, r = .ok p → Stored f.unread iMaxLength p.2 p.1)
    ⟨Nat.le_refl _, Nat.zero_add _⟩ ?_ ?_ _ rfl
  · rintro ⟨f₁, data₁, left₁⟩ st' - ⟨hunread, hleft⟩ ht
    unfold packetTurn at ht
    simp only at ht
    split at ht
    · cases ht
    next line f₂ hline =>
      have hread := File.unread_add_fgets hline
      have hstored := length_storedLine line
      split at ht
      · cases ht
      split at ht
      · split at ht
        · cases ht
        split at ht
        · cases ht
        next data₂ left₂ hgroups =>
          obtain ⟨hsum, hle⟩ := length_of_parseGroups hgroups
          cases ht
          rw [List.length_drop] at hle
          dsimp only at hunread hleft ⊢
          omega
      · cases ht
  · rintro ⟨f₁, data₁, left₁⟩ r - ⟨hunread, hleft⟩ ht p rfl
    unfold packetTurn at ht
    simp only at ht hunread hleft
    split at ht
    · cases ht
      exact ⟨hunread, show data₁.length ≤ iMaxLength by omega⟩
    next line f₂ hline =>
      have hread := File.unread_add_fgets hline
      split at ht
      · cases ht
        exact ⟨show f₂.unread + data₁.length ≤ f.unread by omega,
          show data₁.length ≤ iMaxLength by omega⟩
      split at ht
      · split at ht
        · cases ht
        split at ht <;> cases ht
      · cases ht

end TCPFlowParser

/-! ## Flows -/

/-- The bytes of all records. -/
def bytesOf (records : List Record) : Nat := (records.map fun r => r.data.length).sum

theorem bytesOf_append (rs rs' : List Record) : bytesOf (rs ++ rs') = bytesOf rs + bytesOf rs' := by
  rw [bytesOf, List.map_append, List.sum_append]
  rfl

theorem bytesOf_singleton (r : Record) : bytesOf [r] = r.data.length := Nat.add_zero _

/-- The program goes on, and the flows hold all bytes of their connections. -/
structure Dump.Filled (d : Dump) : Prop where
  on : d.ended = false
  sound : ∀ c, (d.flow c).Sound
  used : ∀ c, (d.flow c).dataBufferUsed = total c d.appended

theorem Dump.filled_start : Dump.start.Filled :=
  ⟨rfl, fun _ => Flow.sound_fresh, fun _ => rfl⟩

/-- `Append` writes behind its buffer only when the flow gets larger than it can be. -/
theorem Dump.Filled.append_eq_none_iff {d : Dump} (h : d.Filled) {r : Record}
    (hlen : r.data.length ≤ sizeofBuffer) :
    (d.flow r.connection).append r.data = none ↔
      Flow.capacity < total r.connection d.appended + r.data.length := by
  have happend := Flow.append_eq (h.sound r.connection) hlen
  rw [h.used r.connection] at happend
  split at happend
  next hroom =>
    obtain ⟨flow, hflow, -⟩ := happend
    rw [hflow]
    exact iff_of_false (fun hnone => by cases hnone) (Nat.not_lt.2 hroom)
  next hfull => exact iff_of_true happend (Nat.lt_of_not_le hfull)

/-- A record that does not end the program. -/
theorem Dump.Filled.visit {d : Dump} (h : d.Filled) {flags : DisplayFlags} {r : Record}
    (hlen : r.data.length ≤ sizeofBuffer) (hgoing : (visit flags d r).ended = false) :
    (visit flags d r).Filled := by
  have happend := Flow.append_eq (h.sound r.connection) hlen
  have hflow' : ({ d with appended := d.appended ++ [r] } : Dump).flow r.connection =
      d.flow r.connection := rfl
  rw [RomDump.visit, if_neg (by simp [h.on])] at hgoing ⊢
  simp only [hflow'] at hgoing ⊢
  cases hflow : (d.flow r.connection).append r.data with
  | none =>
      rw [hflow] at hgoing
      exact absurd hgoing.symm Bool.false_ne_true
  | some flow =>
      rw [hflow] at happend
      split at happend
      next =>
        obtain ⟨_, ⟨⟩, hsound, hleft, hoffset⟩ := happend
        simp only [hflow] at hgoing ⊢
        cases hdrain :
            (cutter (analyzeFrame flags r.connection)).drain (d.key, d.reports) flow.left with
        | halted st =>
            rw [hdrain] at hgoing
            exact absurd hgoing.symm Bool.false_ne_true
        | idle st rest =>
            -- what is left is the end of what there was
            obtain ⟨fs, hframes, -⟩ := frames_of_drain hdrain
            have hbytes := congrArg List.length (bytes_of_frames hframes).1
            rw [List.length_append] at hbytes
            have hrest : rest.length ≤ flow.left.length := by omega
            refine ⟨h.on, fun c => ?_, fun c => ?_⟩
            · by_cases hc : c = r.connection
              · rw [hc, Dump.flow_setFlow_self]
                exact hsound.process hrest
              · rw [Dump.flow_setFlow_of_ne _ _ hc]
                exact h.sound c
            · show _ = total c (d.appended ++ [r])
              rw [total_append, total_singleton]
              by_cases hc : c = r.connection
              · rw [hc, Dump.flow_setFlow_self, Flow.dataBufferUsed_process hrest,
                  Flow.dataBufferUsed, hleft, hoffset, List.length_append, if_pos rfl,
                  ← h.used r.connection, Flow.dataBufferUsed, Nat.add_assoc]
              · rw [Dump.flow_setFlow_of_ne _ _ hc, if_neg (Ne.symm hc), Nat.add_zero]
                exact h.used c
      next => cases happend

/-! ## Files -/

/-- The records that have been found in so many bytes. -/
structure Found (flags : DisplayFlags) (bytes : Nat) (records : List Record) : Prop where
  lengths : ∀ r ∈ records, 0 < r.data.length ∧ r.data.length ≤ sizeofBuffer
  bytes_le : bytesOf records ≤ bytes
  appends : ∀ before r after, records = before ++ r :: after →
    (((process flags before).flow r.connection).append r.data = none ↔
      Flow.capacity < total r.connection before + r.data.length)

/-- Between the turns of the loop. -/
structure Reading (flags : DisplayFlags) (bytes : Nat) (f : File) (d : Dump) : Prop where
  filled : d.Filled
  process_eq : process flags d.appended = d
  unread_le : f.unread + bytesOf d.appended ≤ bytes
  found : Found flags bytes d.appended

/-- A record that has been read. -/
theorem Reading.visit {flags : DisplayFlags} {bytes : Nat} {f f' : File} {d : Dump}
    (h : Reading flags bytes f d) {r : Record} (hpos : 0 < r.data.length)
    (hlen : r.data.length ≤ sizeofBuffer) (hread : f'.unread + r.data.length ≤ f.unread) :
    Found flags bytes (visit flags d r).appended ∧
      process flags (visit flags d r).appended = visit flags d r ∧
        ((visit flags d r).ended = false → Reading flags bytes f' (visit flags d r)) := by
  have happended := appended_visit flags h.filled.on r
  have hunread := h.unread_le
  have hprocess : process flags (RomDump.visit flags d r).appended = RomDump.visit flags d r := by
    rw [happended, process, List.foldl_append]
    exact congrArg (fun d => RomDump.visit flags d r) h.process_eq
  have hbytes : bytesOf (d.appended ++ [r]) = bytesOf d.appended + r.data.length := by
    rw [bytesOf_append, bytesOf_singleton]
  have hfound : Found flags bytes (RomDump.visit flags d r).appended := by
    rw [happended]
    refine ⟨List.forall_mem_append.2 ⟨h.found.lengths, List.forall_mem_singleton.2 ⟨hpos, hlen⟩⟩,
      by omega, fun before r' after hsplit => ?_⟩
    rcases List.eq_nil_or_concat after with rfl | ⟨after, last, rfl⟩
    · -- the record itself
      obtain ⟨rfl, hr⟩ := List.append_inj' hsplit rfl
      obtain rfl := (List.cons.inj hr).1
      rw [h.process_eq]
      exact h.filled.append_eq_none_iff hlen
    · rw [List.concat_eq_append, ← List.cons_append, ← List.append_assoc] at hsplit
      exact h.found.appends before r' after (List.append_inj' hsplit rfl).1
  refine ⟨hfound, hprocess, fun hgoing => ⟨h.filled.visit hlen hgoing, hprocess, ?_, hfound⟩⟩
  rw [happended, hbytes]
  omega

/-- The loop is left with the records that it has found, or in the middle of one. -/
structure Left (flags : DisplayFlags) (bytes : Nat) (d : Dump) : Prop where
  found : Found flags bytes d.appended
  process_eq : d = process flags d.appended ∨ d = { process flags d.appended with ended := true }

theorem Reading.left {flags : DisplayFlags} {bytes : Nat} {f : File} {d : Dump}
    (h : Reading flags bytes f d) :
    Left flags bytes d ∧ Left flags bytes { d with ended := true } :=
  ⟨⟨h.found, Or.inl h.process_eq.symm⟩, ⟨h.found, Or.inr (by rw [h.process_eq])⟩⟩

/-- What a turn comes to. -/
def AfterTurn (flags : DisplayFlags) (bytes : Nat) : Loop.Turn (File × Dump) Dump → Prop
  | .again st => Reading flags bytes st.1 st.2
  | .leave d => Left flags bytes d

/-- One turn of the loop. -/
theorem Reading.turn {flags : DisplayFlags} {bytes : Nat} {f : File} {d : Dump}
    (h : Reading flags bytes f d) (isROMLogFile : Nat) :
    AfterTurn flags bytes (turn flags isROMLogFile (f, d)) := by
  -- the part of the loop that has a record
  have hvisited : ∀ (f' : File) (r : Record), 0 < r.data.length → r.data.length ≤ sizeofBuffer →
      f'.unread + r.data.length ≤ f.unread →
        AfterTurn flags bytes (if (RomDump.visit flags d r).ended then
          .leave (RomDump.visit flags d r) else .again (f', RomDump.visit flags d r)) := by
    intro f' r hpos hlen hread
    obtain ⟨hfound, hprocess, hgoing⟩ := h.visit hpos hlen hread
    by_cases hended : (RomDump.visit flags d r).ended = true
    · rw [if_pos hended]
      exact ⟨hfound, Or.inl hprocess.symm⟩
    · rw [if_neg hended]
      exact hgoing (eq_false_of_ne_true hended)
  unfold RomDump.turn
  simp only
  by_cases hlog : isROMLogFile ≠ 0
  · rw [if_pos hlog]
    cases hheader : ROMLogParser.parseHeader f (decide (isROMLogFile ≥ 2)) with
    | none => exact h.left.1
    | some res =>
        obtain ⟨source, dest, iResult, f₁⟩ := res
        have hlt := ROMLogParser.unread_of_parseHeader hheader
        simp only
        by_cases hbounds : iResult ≤ 0 ∨ iResult > sizeofBuffer
        · rw [if_pos hbounds]
          exact h.left.1
        rw [if_neg hbounds]
        obtain ⟨hpos, hmax⟩ := not_or.1 hbounds
        cases hdata : ROMLogParser.readPacket f₁ iResult.toNat with
        | none => exact h.left.1
        | some res =>
            obtain ⟨data, f₂⟩ := res
            obtain ⟨hread, hlen⟩ := File.unread_of_fread hdata
            exact hvisited f₂ ⟨source, dest, data⟩ (show 0 < data.length by omega)
              (show data.length ≤ sizeofBuffer by omega)
              (show f₂.unread + data.length ≤ f.unread by omega)
  · rw [if_neg hlog]
    cases hheader : TCPFlowParser.parseHeader f with
    | failed => exact h.left.1
    | ended => exact h.left.2
    | ok res =>
        obtain ⟨source, dest, f₁⟩ := res
        have hlt := TCPFlowParser.unread_of_parseHeader hheader
        simp only
        cases hdata : TCPFlowParser.parsePacket f₁ sizeofBuffer with
        | failed => exact h.left.1
        | ended => exact h.left.2
        | ok res =>
            obtain ⟨data, f₂⟩ := res
            obtain ⟨hread, hlen⟩ := TCPFlowParser.stored_of_parsePacket hdata
            simp only
            by_cases hempty : data = []
            · rw [if_pos hempty]
              exact h.left.1
            · rw [if_neg hempty]
              exact hvisited f₂ ⟨source, dest, data⟩ (List.length_pos_iff.2 hempty) hlen
                (show f₂.unread + data.length ≤ f.unread by omega)

/-- The loop, from where it starts in the file. -/
theorem left_of_run (flags : DisplayFlags) (isROMLogFile : Nat) {f : File} {bytes n : Nat}
    (hn : f.unread < n) (hbytes : f.unread ≤ bytes) :
    Left flags bytes ((Loop.run (turn flags isROMLogFile) n (f, .start)).getD .start) := by
  have hstart : Reading flags bytes f .start :=
    ⟨Dump.filled_start, rfl, hbytes, List.forall_mem_nil _, Nat.zero_le _, fun before r after h =>
      absurd h.symm (List.append_ne_nil_of_right_ne_nil _ (List.cons_ne_nil _ _))⟩
  refine (run_turn flags isROMLogFile hn .start).preserves
    (P := fun st => Reading flags bytes st.1 st.2) hstart ?_ ?_
  · intro st st' _ h ht
    have hturn := h.turn isROMLogFile
    rw [ht] at hturn
    exact hturn
  · intro st d _ h ht
    have hturn := h.turn isROMLogFile
    rw [ht] at hturn
    exact hturn

/-- What `main` makes of any file: it finds records in it, none of them empty or longer than its
buffer, and together not longer than the file; it does with them what it does with the records of a
capture, but that it may end in the middle of one; and no call of `Flow::Append` writes behind its
buffer, unless its connection has more bytes than the largest buffer of a flow. -/
theorem main_anyFile (flags : DisplayFlags) (bytes : List UInt8) :
    let d := main flags bytes
    (∀ r ∈ d.appended, 0 < r.data.length ∧ r.data.length ≤ sizeofBuffer) ∧
      bytesOf d.appended ≤ bytes.length ∧
      (d = process flags d.appended ∨ d = { process flags d.appended with ended := true }) ∧
      ∀ before r after, d.appended = before ++ r :: after →
        (((process flags before).flow r.connection).append r.data = none ↔
          Flow.capacity < total r.connection before + r.data.length) := by
  have hleft : Left flags bytes.length (main flags bytes) := by
    unfold main
    simp only
    cases hread : (⟨bytes, 0⟩ : File).fread 4 with
    | none => exact left_of_run flags 0 (Nat.lt_succ_self _) (Nat.le_refl _)
    | some res =>
        obtain ⟨lh, f⟩ := res
        have hle : f.unread ≤ bytes.length :=
          Nat.le.intro (File.unread_of_fread hread).1
        exact left_of_run flags _ (Nat.lt_succ_of_le hle) hle
  exact ⟨hleft.found.lengths, hleft.found.bytes_le, hleft.process_eq, hleft.found.appends⟩

end OpenRom.RomDump
