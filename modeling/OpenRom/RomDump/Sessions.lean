import Mathlib.Logic.Function.Basic
import OpenRom.Library.Purge
import OpenRom.RomDump.Frames

/-!
# Several sessions in one capture

Every direction of a session has a flow of its own, so what is cut out of the flows of one session
does not depend on the others (`filter_steps`). The key does: there is one for the program. The
frames of a session are analysed as if it were alone exactly when no other session has put a key in
between that matters, and none has ended the program (`reports_alone_iff`).
-/

set_option autoImplicit false

namespace OpenRom.RomDump

/-! ## What is cut out of the flows -/

/-- Something that the loop of `main` comes to: a frame of a connection, or the end of the program
in `Flow::Append` or in `AnalyzeFlow`. -/
abbrev Step := Connection × Option Packet

/-- `Flow::Append` and the loop of `AnalyzeFlow`. -/
def Flow.feed (f : Flow) (data : List UInt8) : Flow × List (Option Packet) :=
  match f.append data with
  | none => (f, [none])
  | some f =>
      match frames f.left with
      | (fs, some rest) => (f.process rest, fs.map some)
      | (fs, none) => (f, fs.map some ++ [none])

/-- What the loop of `main` comes to, for as long as the program goes on. -/
def steps (flows : Connection → Flow) : List Record → List Step
  | [] => []
  | r :: records =>
      let fed := (flows r.connection).feed r.data
      fed.2.map (fun f => (r.connection, f)) ++
        steps (Function.update flows r.connection fed.1) records

/-- The flows of a session are fed by its records only. -/
theorem filter_steps (mine : Connection → Bool) (records : List Record)
    {flows flows' : Connection → Flow} (hflows : ∀ c, mine c → flows c = flows' c) :
    (steps flows records).filter (fun x => mine x.1) =
      steps flows' (records.filter fun r => mine r.connection) := by
  induction records generalizing flows flows' with
  | nil => rfl
  | cons r records ih =>
      cases hr : mine r.connection with
      | true =>
          -- the steps of a record have its connection, so all of them are kept
          have hfilter : ∀ fs : List (Option Packet),
              (fs.map fun f => (r.connection, f)).filter (fun x => mine x.1) =
                fs.map fun f => (r.connection, f) := by
            intro fs
            refine List.filter_eq_self.2 fun x hx => ?_
            obtain ⟨f, -, rfl⟩ := List.mem_map.1 hx
            exact hr
          rw [List.filter_cons_of_pos (a := r) hr, steps, steps, List.filter_append, hfilter,
            hflows _ hr]
          congr 1
          refine ih fun c hc => ?_
          by_cases heq : c = r.connection
          · rw [heq, Function.update_self, Function.update_self]
          · rw [Function.update_of_ne heq, Function.update_of_ne heq, hflows c hc]
      | false =>
          -- none of them is kept, and the flows that matter are as before
          have hfilter : ∀ fs : List (Option Packet),
              (fs.map fun f => (r.connection, f)).filter (fun x => mine x.1) = [] := by
            intro fs
            refine List.filter_eq_nil_iff.2 fun x hx => ?_
            obtain ⟨f, -, rfl⟩ := List.mem_map.1 hx
            simp [hr]
          rw [List.filter_cons_of_neg (by simp [hr]), steps, List.filter_append, hfilter,
            List.nil_append]
          refine ih fun c hc => ?_
          have hne : c ≠ r.connection := by
            rintro rfl
            rw [hr] at hc
            exact Bool.false_ne_true hc
          rw [Function.update_of_ne hne, hflows c hc]

/-! ## The loop over the steps -/

theorem handleAll_append {σ α : Type} (handle : σ → α → Option σ) (s : σ) (xs ys : List α) :
    handleAll handle s (xs ++ ys) =
      match handleAll handle s xs with
      | (s, true) => handleAll handle s ys
      | (s, false) => (s, false) := by
  induction xs generalizing s with
  | nil => rfl
  | cons x xs ih =>
      rw [List.cons_append, handleAll, handleAll]
      cases handle s x with
      | none => rfl
      | some s => exact ih s

/-- What the loop makes of a step. -/
def analyzeStep (flags : DisplayFlags) (st : Key × List Report) (x : Step) :
    Option (Key × List Report) :=
  x.2.bind (analyzeFrame flags x.1 st)

theorem handleAll_map_some (flags : DisplayFlags) (conn : Connection) (st : Key × List Report)
    (fs : List Packet) :
    handleAll (analyzeStep flags) st ((fs.map some).map fun f => (conn, f)) =
      handleAll (analyzeFrame flags conn) st fs := by
  induction fs generalizing st with
  | nil => rfl
  | cons f fs ih =>
      have hstep : analyzeStep flags st (conn, some f) = analyzeFrame flags conn st f := rfl
      rw [List.map_cons, List.map_cons, handleAll, handleAll, hstep]
      cases analyzeFrame flags conn st f with
      | none => rfl
      | some st => exact ih st

/-- A record is visited step by step. -/
theorem visit_eq_handleAll (flags : DisplayFlags) {d : Dump} (hd : d.ended = false) (r : Record) :
    let fed := (d.flow r.connection).feed r.data
    let st := handleAll (analyzeStep flags) (d.key, d.reports)
      (fed.2.map fun f => (r.connection, f))
    (visit flags d r).key = st.1.1 ∧ (visit flags d r).reports = st.1.2 ∧
      (visit flags d r).ended = !st.2 ∧
        (st.2 = true → (visit flags d r).flow = Function.update d.flow r.connection fed.1) := by
  intro fed st
  have hflow : ({ d with appended := d.appended ++ [r] } : Dump).flow r.connection =
      d.flow r.connection := rfl
  rw [visit, if_neg (by simp [hd])]
  simp only [hflow]
  cases happend : (d.flow r.connection).append r.data with
  | none =>
      have hfed : fed = (d.flow r.connection, [none]) := by
        simp only [fed, Flow.feed, happend]
      have hst : st = ((d.key, d.reports), false) := by
        simp only [st, hfed]
        rfl
      rw [hst]
      exact ⟨rfl, rfl, rfl, fun ht => absurd ht Bool.false_ne_true⟩
  | some flow =>
      have hdrain := drain_cutter (analyzeFrame flags r.connection) (d.key, d.reports) flow.left
      rcases hframes : frames flow.left with ⟨fs, _ | rest⟩
      · -- `abort`, unless a frame has ended the program before
        have hfed : fed = (flow, fs.map some ++ [none]) := by
          simp only [fed, Flow.feed, happend, hframes]
        have hst : st = ((handleAll (analyzeFrame flags r.connection) (d.key, d.reports) fs).1,
            false) := by
          simp only [st, hfed]
          rw [List.map_append, handleAll_append, handleAll_map_some]
          rcases handleAll (analyzeFrame flags r.connection) (d.key, d.reports) fs with ⟨s, _ | _⟩
            <;> rfl
        have hhalt : (cutter (analyzeFrame flags r.connection)).drain (d.key, d.reports) flow.left =
            .halted st.1 := by
          rw [hdrain, hframes, hst]
          rcases handleAll (analyzeFrame flags r.connection) (d.key, d.reports) fs with ⟨s, _ | _⟩
            <;> rfl
        simp only [hhalt]
        rw [hst]
        exact ⟨trivial, trivial, rfl, fun ht => absurd ht Bool.false_ne_true⟩
      · have hfed : fed = (flow.process rest, fs.map some) := by
          simp only [fed, Flow.feed, happend, hframes]
        have hst : st = handleAll (analyzeFrame flags r.connection) (d.key, d.reports) fs := by
          simp only [st, hfed]
          exact handleAll_map_some flags r.connection _ fs
        rw [hframes] at hdrain
        rcases hall : handleAll (analyzeFrame flags r.connection) (d.key, d.reports) fs
          with ⟨⟨key, reports⟩, _ | _⟩
        · simp only [hall] at hdrain
          simp only [hdrain]
          rw [hst, hall]
          exact ⟨rfl, rfl, rfl, fun ht => absurd ht Bool.false_ne_true⟩
        · simp only [hall] at hdrain
          simp only [hdrain]
          rw [hst, hall]
          refine ⟨rfl, rfl, hd, fun _ => funext fun c => ?_⟩
          by_cases hc : c = r.connection
          · rw [hc, Dump.flow_setFlow_self, Function.update_self, hfed]
          · rw [Dump.flow_setFlow_of_ne _ _ hc, Function.update_of_ne hc]
            rfl

/-- All records are visited step by step. -/
theorem foldl_visit_eq (flags : DisplayFlags) (records : List Record) {d : Dump}
    (hd : d.ended = false) :
    (records.foldl (visit flags) d).reports =
      (handleAll (analyzeStep flags) (d.key, d.reports) (steps d.flow records)).1.2 := by
  induction records generalizing d with
  | nil => rfl
  | cons r records ih =>
      have hvisit := visit_eq_handleAll flags hd r
      rw [List.foldl_cons, steps, handleAll_append]
      rcases hall : handleAll (analyzeStep flags) (d.key, d.reports)
        (((d.flow r.connection).feed r.data).2.map fun f => (r.connection, f))
        with ⟨⟨key, reports⟩, _ | _⟩
      · simp only [hall] at hvisit
        rw [foldl_visit_of_ended hvisit.2.2.1, hvisit.2.1]
      · simp only [hall, Bool.not_true, forall_const] at hvisit
        obtain ⟨hkey, hreports, hended, hflow⟩ := hvisit
        rw [ih hended, hkey, hreports, hflow]

/-! ## What comes out at a step -/

instance (f : Packet) : Decidable f.Numbered := inferInstanceAs (Decidable (_ ∨ _))

instance (flags : DisplayFlags) (f : Packet) : Decidable (EndsProgram flags f) :=
  inferInstanceAs (Decidable (_ ∧ (_ ∧ _ ∨ _ ∧ _)))

/-- The program ends at the step. -/
def Step.Ends (flags : DisplayFlags) (x : Step) : Prop :=
  match x.2 with
  | none => True
  | some f => EndsProgram flags f

instance (flags : DisplayFlags) : DecidablePred (Step.Ends flags)
  | (_, none) => inferInstanceAs (Decidable True)
  | (_, some f) => inferInstanceAs (Decidable (EndsProgram flags f))

/-- Key packets are reported only if they are to be displayed, and keepalives too. -/
def Reported (flags : DisplayFlags) (f : Packet) : Prop :=
  ¬ Skipped flags f ∧ ¬ EndsProgram flags f ∧
    (f.pFlag &&& ROM_PACKET_FLAG_KEY ≠ 0 → flags.key = true)

instance (flags : DisplayFlags) (f : Packet) : Decidable (Reported flags f) :=
  inferInstanceAs (Decidable (_ ∧ _ ∧ (_ → _)))

/-- The packet has a new key for `g_State`. -/
def HasKey (flags : DisplayFlags) (f : Packet) : Prop :=
  ¬ Skipped flags f ∧ f.pFlag &&& ROM_PACKET_FLAG_KEY ≠ 0 ∧ f.pData.length = ROM_KEY_LENGTH

instance (flags : DisplayFlags) (f : Packet) : Decidable (HasKey flags f) :=
  inferInstanceAs (Decidable (_ ∧ _ ∧ _))

/-- `g_State.m_Key` after a step. -/
def keyAfter (flags : DisplayFlags) (key : Key) (x : Step) : Key :=
  match x.2 with
  | none => key
  | some f =>
      if h : HasKey flags f then ⟨f.pData.map (unmangle 8), by rw [List.length_map, h.2.2]⟩
      else key

theorem keyAfter_of_hasKey {flags : DisplayFlags} {f : Packet} (h : HasKey flags f) (key : Key)
    (conn : Connection) :
    keyAfter flags key (conn, some f) =
      ⟨f.pData.map (unmangle 8), by rw [List.length_map, h.2.2]⟩ := dif_pos h

theorem keyAfter_of_not_hasKey {flags : DisplayFlags} {f : Packet} (h : ¬ HasKey flags f)
    (key : Key) (conn : Connection) : keyAfter flags key (conn, some f) = key := dif_neg h

/-- The key in the last key packet. -/
def lastKey (flags : DisplayFlags) (past : List Step) : Key := past.foldl (keyAfter flags) .zero

theorem lastKey_append (flags : DisplayFlags) (past : List Step) (x : Step) :
    lastKey flags (past ++ [x]) = keyAfter flags (lastKey flags past) x := by
  rw [lastKey, List.foldl_append]
  rfl

/-- What is reported of a frame that does not end the program. -/
theorem analyzePacket_eq {flags : DisplayFlags} {conn : Connection} {key : Key} {f : Packet}
    (hends : ¬ EndsProgram flags f) :
    analyzePacket flags conn key f =
      some (keyAfter flags key (conn, some f),
        if Reported flags f then examine conn key f else none) := by
  have hexamine : ∀ k, ¬ Skipped flags f → examine conn k f ≠ none := fun k hskip hnone => by
    rw [examine_eq_none_iff] at hnone
    exact hends ⟨hskip, Or.inr hnone⟩
  unfold analyzePacket
  by_cases hskip : Skipped flags f
  · have hreported : ¬ Reported flags f := fun h => h.1 hskip
    rw [keyAfter_of_not_hasKey fun h => h.1 hskip, if_neg hreported]
    exact if_pos hskip
  have hcheck := hskip
  rw [Skipped] at hcheck
  rw [if_neg hcheck]
  by_cases hkey : f.pFlag &&& ROM_PACKET_FLAG_KEY ≠ 0
  · have hlen : f.pData.length = ROM_KEY_LENGTH := by
      by_contra hlen
      exact hends ⟨hskip, Or.inl ⟨hkey, hlen⟩⟩
    -- a key packet is not encrypted, and looks the same with any key
    have hplain : ∀ k, examine conn k f = some ⟨conn, f, f.headerChecksumOK, true⟩ := fun k => by
      rw [examine, if_neg fun h => key_of_encrypted h hkey]
    rw [if_pos hkey, dif_pos hlen, keyAfter_of_hasKey ⟨hskip, hkey, hlen⟩]
    by_cases hshow : flags.key = false
    · have hreported : ¬ Reported flags f := fun h => by
        rw [h.2.2 hkey] at hshow
        exact Bool.false_ne_true hshow.symm
      rw [if_neg hreported]
      exact if_pos hshow
    · rw [if_neg hshow, if_pos ⟨hskip, hends, fun _ => eq_true_of_ne_false hshow⟩,
        hplain, hplain]
      rfl
  · rw [if_neg hkey, keyAfter_of_not_hasKey fun h => hkey h.2.1,
      if_pos ⟨hskip, hends, fun h => absurd h hkey⟩]
    cases hreport : examine conn key f with
    | none => exact absurd hreport (hexamine key hskip)
    | some report => rfl

/-- What is reported at a step, by what came before it. -/
def reportAt (flags : DisplayFlags) (past : List Step) (x : Step) : Option Report :=
  if ∃ y ∈ past, Step.Ends flags y then none
  else x.2.bind fun f => if Reported flags f then examine x.1 (lastKey flags past) f else none

theorem reportAt_of_going {flags : DisplayFlags} {past : List Step}
    (hpast : ∀ y ∈ past, ¬ Step.Ends flags y) (x : Step) :
    reportAt flags past x =
      x.2.bind fun f => if Reported flags f then examine x.1 (lastKey flags past) f else none :=
  if_neg fun ⟨y, hy, hends⟩ => hpast y hy hends

theorem reportAt_of_not_reported {flags : DisplayFlags} {past : List Step} {x : Step}
    (hx : ∀ f, x.2 = some f → ¬ Reported flags f) : reportAt flags past x = none := by
  unfold reportAt
  split
  · rfl
  · cases hf : x.2 with
    | none => rfl
    | some f => exact if_neg (hx f hf)

theorem reportAt_eq_some {flags : DisplayFlags} {past : List Step} {x : Step} {b : Report}
    (hb : reportAt flags past x = some b) :
    (∀ y ∈ past, ¬ Step.Ends flags y) ∧
      ∃ f, x.2 = some f ∧ Reported flags f ∧ examine x.1 (lastKey flags past) f = some b := by
  unfold reportAt at hb
  split at hb
  · cases hb
  next hgoing =>
    refine ⟨fun y hy hends => hgoing ⟨y, hy, hends⟩, ?_⟩
    obtain ⟨f, hf, hreport⟩ := Option.bind_eq_some_iff.1 hb
    split at hreport
    · exact ⟨f, hf, ‹_›, hreport⟩
    · cases hreport

theorem connection_examine {conn : Connection} {key : Key} {f : Packet} {b : Report}
    (hb : examine conn key f = some b) : b.connection = conn := by
  unfold examine at hb
  split at hb
  · split at hb <;> cases hb
    rfl
  · cases hb
    rfl

theorem handleAll_eq_reportAt (flags : DisplayFlags) (past : List Step)
    (hpast : ∀ y ∈ past, ¬ Step.Ends flags y) (reports : List Report) (xs : List Step) :
    (handleAll (analyzeStep flags) (lastKey flags past, reports) xs).1.2 =
      reports ++ (Purge.splits past xs).filterMap fun s => reportAt flags s.1 s.2 := by
  induction xs generalizing past reports with
  | nil => exact (List.append_nil reports).symm
  | cons x xs ih =>
      rw [Purge.splits, handleAll, List.filterMap_cons]
      obtain ⟨conn, f⟩ := x
      by_cases hends : Step.Ends flags (conn, f)
      · -- nothing comes out here, nor at a later step
        have hstop : analyzeStep flags (lastKey flags past, reports) (conn, f) = none := by
          cases f with
          | none => rfl
          | some f =>
              have hnone : analyzePacket flags conn (lastKey flags past) f = none :=
                analyzePacket_eq_none_iff.2 hends
              rw [analyzeStep, Option.bind_some, analyzeFrame, hnone]
              rfl
        have hhere : reportAt flags past (conn, f) = none := by
          rw [reportAt_of_going hpast]
          cases f with
          | none => rfl
          | some f => exact if_neg fun h : Reported flags f => h.2.1 hends
        have hlater : (Purge.splits (past ++ [(conn, f)]) xs).filterMap
            (fun s => reportAt flags s.1 s.2) = [] := by
          refine List.filterMap_eq_nil_iff.2 fun s hs => ?_
          obtain ⟨pre, post, hs, -⟩ := Purge.mem_splits.1 hs
          refine if_pos ⟨(conn, f), ?_, hends⟩
          rw [hs]
          simp
        rw [hstop, hhere, hlater]
        exact (List.append_nil reports).symm
      · cases f with
        | none => exact absurd trivial hends
        | some f =>
            have hstep : analyzeStep flags (lastKey flags past, reports) (conn, some f) =
                some (lastKey flags (past ++ [(conn, some f)]),
                  reports ++ (reportAt flags past (conn, some f)).toList) := by
              rw [analyzeStep, Option.bind_some, analyzeFrame, analyzePacket_eq hends,
                reportAt_of_going hpast, lastKey_append]
              rfl
            have hpast' : ∀ y ∈ past ++ [(conn, some f)], ¬ Step.Ends flags y := by
              intro y hy
              rcases List.mem_append.1 hy with hy | hy
              · exact hpast y hy
              · exact List.mem_singleton.1 hy ▸ hends
            rw [hstep]
            dsimp only
            rw [ih _ hpast', List.append_assoc]
            cases reportAt flags past (conn, some f) <;> rfl

/-- What `romdump` reports of a capture. -/
theorem reports_process (flags : DisplayFlags) (records : List Record) :
    (process flags records).reports =
      Purge.run (reportAt flags) (steps (fun _ => .fresh) records) := by
  rw [process, foldl_visit_eq flags records rfl]
  exact handleAll_eq_reportAt flags [] (fun _ h => absurd h List.not_mem_nil) [] _

/-! ## Two sessions -/

/-- The connections between two endpoints, in both directions. -/
def Connection.between (a₁ a₂ : IPv4Address) (c : Connection) : Bool :=
  c == ⟨a₁, a₂⟩ || c == ⟨a₂, a₁⟩

/-- Two keys do the same to a frame: its key byte in them is the same, or unmangles the data the
same and fits the data checksum with neither. -/
def Alike (f : Packet) (key key' : Key) : Prop :=
  ∀ k k', key.byteFor f.pKeynum = some k → key'.byteFor f.pKeynum = some k' →
    k = k' ∨ (∀ b ∈ f.pData, unmangle k b = unmangle k' b) ∧
      (f.decrypt k).dataChecksumOK k = false ∧ (f.decrypt k').dataChecksumOK k' = false

/-- With one plaintext, at most one byte fits the data checksum. -/
theorem dataChecksumOK_inj {p : Packet} {k k' : UInt8} (hk : p.dataChecksumOK k = true)
    (hk' : p.dataChecksumOK k' = true) : k = k' := by
  simp only [Packet.dataChecksumOK, beq_iff_eq] at hk hk'
  have hsum := hk.trans hk'.symm
  grind

theorem examine_eq_examine_iff {conn : Connection} {f : Packet} {key key' : Key}
    (hflag : f.pFlag = ROM_PACKET_FLAG_ENCRYPTED) (hnum : f.Numbered) :
    examine conn key f = examine conn key' f ↔ Alike f key key' := by
  have hbyte : ∀ key : Key, ∃ k, key.byteFor f.pKeynum = some k := fun key =>
    Option.ne_none_iff_exists'.1 fun hnone => Key.byteFor_eq_none_iff.1 hnone hnum
  obtain ⟨k, hk⟩ := hbyte key
  obtain ⟨k', hk'⟩ := hbyte key'
  have halike : Alike f key key' ↔ k = k' ∨ (∀ b ∈ f.pData, unmangle k b = unmangle k' b) ∧
      (f.decrypt k).dataChecksumOK k = false ∧ (f.decrypt k').dataChecksumOK k' = false := by
    refine ⟨fun h => h k k' hk hk', fun h j j' hj hj' => ?_⟩
    rw [hk] at hj
    rw [hk'] at hj'
    cases hj
    cases hj'
    exact h
  rw [examine, examine, if_pos hflag, if_pos hflag, hk, hk', halike]
  simp only [Option.some.injEq, Report.mk.injEq, true_and]
  constructor
  · rintro ⟨hplain, hverdict⟩
    have hdata : ∀ b ∈ f.pData, unmangle k b = unmangle k' b :=
      List.map_inj_left.1 (congrArg Packet.pData hplain)
    by_cases hok : (f.decrypt k).dataChecksumOK k = true
    · have hok' := hverdict ▸ hok
      exact Or.inl (dataChecksumOK_inj hok (hplain ▸ hok'))
    · have hbad := eq_false_of_ne_true hok
      exact Or.inr ⟨hdata, hbad, hverdict ▸ hbad⟩
  · rintro (rfl | ⟨hdata, hk, hk'⟩)
    · exact ⟨rfl, rfl⟩
    · refine ⟨?_, by rw [hk, hk']⟩
      rw [Packet.decrypt, Packet.decrypt, List.map_congr_left hdata]

/-- No other session has disturbed this one: at none of its frames that would be reported, the
program has ended because of another session, or has a key that makes a difference. -/
def Undisturbed (flags : DisplayFlags) (mine : Connection → Bool) (xs : List Step) : Prop :=
  ∀ pre c f post, xs = pre ++ (c, some f) :: post → mine c → Reported flags f →
    (∀ y ∈ pre, mine y.1 → ¬ Step.Ends flags y) →
      (∀ y ∈ pre, ¬ Step.Ends flags y) ∧
        (f.pFlag = ROM_PACKET_FLAG_ENCRYPTED →
          Alike f (lastKey flags pre) (lastKey flags (pre.filter fun y => mine y.1)))

theorem examine_isSome {flags : DisplayFlags} {f : Packet} (hf : Reported flags f)
    (conn : Connection) (key : Key) : (examine conn key f).isSome := by
  rw [← Option.ne_none_iff_isSome, ne_eq, examine_eq_none_iff]
  exact fun h => hf.2.1 ⟨hf.1, Or.inr h⟩

/-- What is reported at a frame is the same without the other sessions. -/
theorem reportAt_filter_iff {flags : DisplayFlags} {mine : Connection → Bool} {pre : List Step}
    {x : Step} :
    reportAt flags pre x = reportAt flags (pre.filter fun y => mine y.1) x ↔
      ∀ f, x.2 = some f → Reported flags f → (∀ y ∈ pre, mine y.1 → ¬ Step.Ends flags y) →
        (∀ y ∈ pre, ¬ Step.Ends flags y) ∧
          (f.pFlag = ROM_PACKET_FLAG_ENCRYPTED →
            Alike f (lastKey flags pre) (lastKey flags (pre.filter fun y => mine y.1))) := by
  obtain ⟨c, f⟩ := x
  have hown : (∀ y ∈ pre.filter fun y => mine y.1, ¬ Step.Ends flags y) ↔
      ∀ y ∈ pre, mine y.1 → ¬ Step.Ends flags y := by
    simp only [List.mem_filter, and_imp]
  by_cases hgoing : ∀ y ∈ pre, mine y.1 → ¬ Step.Ends flags y
  · rw [reportAt_of_going (hown.2 hgoing)]
    cases f with
    | none => exact iff_of_true (reportAt_of_not_reported nofun) nofun
    | some f =>
        by_cases hf : Reported flags f
        · have hsome := examine_isSome hf c (lastKey flags (pre.filter fun y => mine y.1))
          simp only [Option.bind_some, Option.some.injEq, forall_eq', hf, if_true, forall_const]
          rw [imp_iff_right hgoing]
          by_cases hall : ∀ y ∈ pre, ¬ Step.Ends flags y
          · rw [reportAt_of_going hall, Option.bind_some, if_pos hf, and_iff_right hall]
            by_cases hflag : f.pFlag = ROM_PACKET_FLAG_ENCRYPTED
            · have hnum : f.Numbered := by
                by_contra hnum
                exact hf.2.1 ⟨hf.1, Or.inr ⟨hflag, hnum⟩⟩
              rw [examine_eq_examine_iff hflag hnum]
              exact ⟨fun h _ => h, fun h => h hflag⟩
            · rw [examine, examine, if_neg hflag, if_neg hflag]
              exact iff_of_true rfl fun h => absurd h hflag
          · -- another session has ended the program
            have hnone : reportAt flags pre (c, some f) = none := by
              simp only [not_forall, not_not] at hall
              obtain ⟨y, hy, hends⟩ := hall
              exact if_pos ⟨y, hy, hends⟩
            rw [hnone]
            refine iff_of_false (fun hsame => ?_) fun h => hall h.1
            rw [← hsame] at hsome
            exact absurd hsome Bool.false_ne_true
        · rw [Option.bind_some, if_neg hf]
          refine iff_of_true (reportAt_of_not_reported ?_) ?_
          · rintro g ⟨⟩
            exact hf
          · rintro g ⟨⟩ hg
            exact absurd hg hf
  · -- the session has ended the program itself
    refine iff_of_true ?_ fun f _ _ h => absurd h hgoing
    simp only [not_forall, not_not] at hgoing
    obtain ⟨y, hy, hmine, hends⟩ := hgoing
    rw [reportAt, reportAt, if_pos ⟨y, hy, hends⟩,
      if_pos ⟨y, List.mem_filter.2 ⟨hy, hmine⟩, hends⟩]

/-- What is reported of a session is the same as when its records are processed alone exactly when
no other session has disturbed it. -/
theorem reports_alone_iff (flags : DisplayFlags) (a₁ a₂ : IPv4Address) (records : List Record) :
    ((process flags records).reports.filter fun r => r.connection.between a₁ a₂) =
        (process flags (records.filter fun r => r.connection.between a₁ a₂)).reports ↔
      Undisturbed flags (Connection.between a₁ a₂) (steps (fun _ => .fresh) records) := by
  rw [reports_process, reports_process,
    ← filter_steps (Connection.between a₁ a₂) records fun _ _ => rfl]
  refine (Purge.filter_run_iff (fun x : Step => x.1.between a₁ a₂)
    (fun r : Report => r.connection.between a₁ a₂) ?_ ?_ _).trans ?_
  · -- what is reported at a step is of its connection
    intro past x b hb
    obtain ⟨-, f, -, -, hexamine⟩ := reportAt_eq_some hb
    rw [connection_examine hexamine]
  · intro past x _ hsome
    obtain ⟨b, hb⟩ := Option.isSome_iff_exists.1 hsome
    obtain ⟨hpast, f, hx, hf, -⟩ := reportAt_eq_some hb
    rw [reportAt_of_going fun y hy => hpast y (List.mem_of_mem_filter hy), hx, Option.bind_some,
      if_pos hf]
    exact examine_isSome hf _ _
  · constructor
    · intro hall pre c f post hxs hc
      exact reportAt_filter_iff.1 (hall pre (c, some f) post hxs hc) f rfl
    · intro hall pre x post hxs hx
      refine reportAt_filter_iff.2 fun f hf => ?_
      obtain ⟨c, g⟩ := x
      cases hf
      exact hall pre c f post hxs hx

/-- The first record is a key packet. -/
def StartsWithKey (records : List Record) : Prop :=
  ∃ (r : Record) (rest : List Record) (f : Packet),
    records = r :: rest ∧ r.data = f.bytes ∧ f.Fits ∧ f.pFlag = ROM_PACKET_FLAG_KEY ∧
      f.pData.length = ROM_KEY_LENGTH

def keyPacket (key : Key) : Packet := ⟨22, ROM_PACKET_FLAG_KEY, 0, 0, 0, 0, key.bytes⟩

theorem fits_keyPacket (key : Key) : (keyPacket key).Fits :=
  ⟨by rw [keyPacket, key.length_bytes]; rfl, (by decide : 22 < s_MaxPacketSize)⟩

def firstKey : Key := ⟨[1, 2, 3, 4, 5, 6, 7, 8, 9, 10], rfl⟩

def secondKey : Key := ⟨[11, 12, 13, 14, 15, 16, 17, 18, 19, 20], rfl⟩

/-- A data packet of the first session. -/
def sealedPacket : Packet :=
  (⟨13, ROM_PACKET_FLAG_ENCRYPTED, 0, 0, 0, 0, [7]⟩ : Packet).sealWith (unmangle 8 1)

/-- The key packets of two sessions, and then the data packet. -/
def interleaved : List Record :=
  [⟨⟨1, 1⟩, ⟨2, 2⟩, (keyPacket firstKey).bytes⟩, ⟨⟨3, 3⟩, ⟨4, 4⟩, (keyPacket secondKey).bytes⟩,
    ⟨⟨1, 1⟩, ⟨2, 2⟩, sealedPacket.bytes⟩]

/-- The data packet is read with the key of the other session. -/
theorem sessions_disturbed :
    ¬ ∀ (flags : DisplayFlags) (a₁ a₂ b₁ b₂ : IPv4Address) (records : List Record),
      a₁ ≠ b₁ → a₁ ≠ b₂ → a₂ ≠ b₁ → a₂ ≠ b₂ →
      (∀ r ∈ records, r.connection.between a₁ a₂ ∨ r.connection.between b₁ b₂) →
      StartsWithKey (records.filter fun r => r.connection.between a₁ a₂) →
      StartsWithKey (records.filter fun r => r.connection.between b₁ b₂) →
      ((process flags records).reports.filter fun r => r.connection.between a₁ a₂) =
        (process flags (records.filter fun r => r.connection.between a₁ a₂)).reports := by
  intro hall
  let flags : DisplayFlags := ⟨false, false⟩
  have hsame := hall flags ⟨1, 1⟩ ⟨2, 2⟩ ⟨3, 3⟩ ⟨4, 4⟩ interleaved
    (by decide) (by decide) (by decide) (by decide) (by decide)
    ⟨_, _, keyPacket firstKey, rfl, rfl, fits_keyPacket _, rfl, rfl⟩
    ⟨_, _, keyPacket secondKey, rfl, rfl, fits_keyPacket _, rfl, rfl⟩
  have hsealed : sealedPacket.Fits := ⟨by decide, by decide⟩
  let r₁ : Record := ⟨⟨1, 1⟩, ⟨2, 2⟩, (keyPacket firstKey).bytes⟩
  let r₂ : Record := ⟨⟨3, 3⟩, ⟨4, 4⟩, (keyPacket secondKey).bytes⟩
  let r₃ : Record := ⟨⟨1, 1⟩, ⟨2, 2⟩, sealedPacket.bytes⟩
  obtain ⟨hidle₁, happended₁, hkey₁, hreports₁⟩ :=
    visit_of_analyzePacket flags Dump.idle_start (r := r₁) (fits_keyPacket firstKey) rfl
      (by decide) rfl
  -- the first session alone
  obtain ⟨-, -, -, halone⟩ :=
    visit_of_analyzePacket flags hidle₁ (r := r₃) hsealed rfl
      (by rw [happended₁]; decide) (by rw [hkey₁]; rfl)
  -- both sessions
  obtain ⟨hidle₂, happended₂, hkey₂, hreports₂⟩ :=
    visit_of_analyzePacket flags hidle₁ (r := r₂) (fits_keyPacket secondKey) rfl
      (by rw [happended₁]; decide) rfl
  obtain ⟨-, -, -, hboth⟩ :=
    visit_of_analyzePacket flags hidle₂ (r := r₃) hsealed rfl
      (by rw [happended₂, happended₁]; decide) (by rw [hkey₂]; rfl)
  rw [hreports₁] at halone
  rw [hreports₂, hreports₁] at hboth
  have hfilter : interleaved.filter (fun r => r.connection.between ⟨1, 1⟩ ⟨2, 2⟩) = [r₁, r₃] := rfl
  rw [hfilter, show process flags [r₁, r₃] = visit flags (visit flags .start r₁) r₃ from rfl,
    show process flags interleaved =
      visit flags (visit flags (visit flags .start r₁) r₂) r₃ from rfl, halone, hboth] at hsame
  exact absurd hsame (by decide)

end OpenRom.RomDump
