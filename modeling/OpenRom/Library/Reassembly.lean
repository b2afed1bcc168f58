/-!
# Messages in a stream

A consumer works on a buffer that a stream is appended to in pieces. `look` inspects the front of
the buffer: it waits for more, takes a message off the front, or halts. When more input never
changes a decision that was made (`take_append`, `halt_append`), the pieces in which the stream
arrives do not matter: `feed_cons` and `feed_of_wait` turn any sequence of pieces into one.

`drain_of_messages` is the induction over a stream that is a concatenation of messages, of which
any number of bytes have arrived.
-/

set_option autoImplicit false

namespace Reassembly

universe u v w w'

/-- What the consumer makes of the buffer. -/
inductive Verdict (σ : Type u) (ρ : Type v) where
  | wait
  | take (n : Nat) (s : σ)
  | halt (r : ρ)

/-- How a pass over the buffer ends: nothing more to take, with the rest of the buffer, or
halted. -/
inductive Drained (σ : Type u) (α : Type w) (ρ : Type v) where
  | idle (s : σ) (buf : List α)
  | halted (r : ρ)

/-- Go on unless halted. -/
def Drained.andThen {σ : Type u} {α : Type w} {ρ : Type v} (d : Drained σ α ρ)
    (f : σ → List α → Drained σ α ρ) : Drained σ α ρ :=
  match d with
  | .idle s buf => f s buf
  | .halted r => .halted r

/-- A consumer whose decisions stand when more input arrives. -/
@[ext] structure Consumer (σ : Type u) (α : Type w) (ρ : Type v) where
  look : σ → List α → Verdict σ ρ
  look_nil : ∀ s, look s [] = .wait
  take_pos : ∀ {s s' buf n}, look s buf = .take n s' → 1 ≤ n ∧ n ≤ buf.length
  take_append : ∀ {s s' buf n} more, look s buf = .take n s' → look s (buf ++ more) = .take n s'
  halt_append : ∀ {s buf r} more, look s buf = .halt r → look s (buf ++ more) = .halt r

variable {σ : Type u} {α : Type w} {ρ : Type v} (c : Consumer σ α ρ)

namespace Consumer

/-- Take messages until the consumer waits or halts. -/
def drain (s : σ) (buf : List α) : Drained σ α ρ :=
  match _h : c.look s buf with
  | .wait => .idle s buf
  | .take n s' =>
      drain s' (buf.drop n)
  | .halt r => .halted r
  termination_by buf.length
  decreasing_by
    have hn := c.take_pos _h
    rw [List.length_drop]
    omega

/-- Append the pieces one at a time, draining after each. -/
def feed (s : σ) (buf : List α) : List (List α) → Drained σ α ρ
  | [] => .idle s buf
  | p :: ps => (c.drain s (buf ++ p)).andThen fun s buf => feed s buf ps

variable {c}

theorem drain_of_wait {s : σ} {buf : List α} (h : c.look s buf = .wait) :
    c.drain s buf = .idle s buf := by
  unfold drain
  split <;> simp_all

theorem drain_of_take {s s' : σ} {buf : List α} {n : Nat} (h : c.look s buf = .take n s') :
    c.drain s buf = c.drain s' (buf.drop n) := by
  rw [drain]
  split <;> simp_all

theorem drain_of_halt {s : σ} {buf : List α} {r : ρ} (h : c.look s buf = .halt r) :
    c.drain s buf = .halted r := by
  unfold drain
  split <;> simp_all

/-- A message at the front of the input is taken first. -/
theorem drain_append_of_take {s s' : σ} {msg : List α} (h : c.look s msg = .take msg.length s')
    (more : List α) : c.drain s (msg ++ more) = c.drain s' more := by
  rw [drain_of_take (c.take_append more h), List.drop_left]

theorem drain_append_of_halt {s : σ} {msg : List α} {r : ρ} (h : c.look s msg = .halt r)
    (more : List α) : c.drain s (msg ++ more) = .halted r :=
  drain_of_halt (c.halt_append more h)

/-- The rule for a buffer that was drained: what holds where the consumer waits, and before a
message when it does behind it, holds of the buffer. -/
theorem drain_induction {motive : σ → List α → Prop} {s s' : σ} {buf buf' : List α}
    (hidle : c.drain s buf = .idle s' buf') (hwait : c.look s' buf' = .wait → motive s' buf')
    (htake : ∀ {s s₁ buf n}, c.look s buf = .take n s₁ → motive s₁ (buf.drop n) → motive s buf) :
    motive s buf := by
  induction hk : buf.length using Nat.strongRecOn generalizing s buf with
  | ind k ih =>
      cases hl : c.look s buf with
      | wait =>
          rw [drain_of_wait hl] at hidle
          cases hidle
          exact hwait hl
      | take n s₁ =>
          have hn := c.take_pos hl
          rw [drain_of_take hl] at hidle
          exact htake hl (ih (buf.drop n).length (by rw [List.length_drop]; omega) hidle rfl)
      | halt r =>
          rw [drain_of_halt hl] at hidle
          cases hidle

/-- Draining stops where the consumer waits. -/
theorem look_of_drain {s s' : σ} {buf buf' : List α} (h : c.drain s buf = .idle s' buf') :
    c.look s' buf' = .wait :=
  drain_induction (motive := fun _ _ => c.look s' buf' = .wait) h id fun _ hwait => hwait

/-- What arrives later can be appended before or after draining. -/
theorem drain_append {s : σ} (buf more : List α) :
    c.drain s (buf ++ more) = (c.drain s buf).andThen fun s buf => c.drain s (buf ++ more) := by
  induction hk : buf.length using Nat.strongRecOn generalizing s buf with
  | ind k ih =>
      cases hl : c.look s buf with
      | wait => rw [drain_of_wait hl, Drained.andThen]
      | take n s₁ =>
          have hn := c.take_pos hl
          have hdrop : (buf ++ more).drop n = buf.drop n ++ more :=
            List.drop_append_of_le_length hn.2
          -- the same message is taken off the front of the longer buffer
          rw [drain_of_take hl, drain_of_take (c.take_append more hl), hdrop]
          exact ih (buf.drop n).length (by rw [List.length_drop]; omega) _ rfl
      | halt r => rw [drain_of_halt hl, drain_of_halt (c.halt_append more hl), Drained.andThen]

/-- Feeding pieces is draining all of them at once. -/
theorem feed_cons (s : σ) (buf p : List α) (ps : List (List α)) :
    c.feed s buf (p :: ps) = c.drain s (buf ++ (p :: ps).flatten) := by
  induction ps generalizing s buf p with
  | nil =>
      rw [feed, List.flatten_cons, List.flatten_nil, List.append_nil]
      cases c.drain s (buf ++ p) <;> rfl
  | cons q qs ih =>
      -- drain the first piece apart from the others
      rw [feed, List.flatten_cons, ← List.append_assoc, drain_append (buf ++ p)]
      cases c.drain s (buf ++ p) with
      | idle s' buf' => exact ih s' buf' q
      | halted r => rfl

theorem feed_of_wait {s : σ} {buf : List α} (h : c.look s buf = .wait) (ps : List (List α)) :
    c.feed s buf ps = c.drain s (buf ++ ps.flatten) := by
  cases ps with
  | nil => rw [feed, List.flatten_nil, List.append_nil, drain_of_wait h]
  | cons p ps => exact feed_cons s buf p ps

/-- A part of a message is not taken for one. -/
theorem look_of_part {s s' : σ} {part rest : List α}
    (h : c.look s (part ++ rest) = .take (part ++ rest).length s') (hrest : rest ≠ []) :
    c.look s part = .wait := by
  have hlen : part.length < (part ++ rest).length := by
    have := List.length_pos_iff.2 hrest
    rw [List.length_append]
    omega
  cases hl : c.look s part with
  | wait => rfl
  | take n s₁ =>
      have hn := c.take_pos hl
      -- more input would not change the decision, but the message is longer than the part
      rw [c.take_append rest hl, Verdict.take.injEq] at h
      omega
  | halt r =>
      rw [c.halt_append rest hl] at h
      cases h

/-- A part of a message that halts the consumer waits for the rest, or halts it as well. -/
theorem look_of_halting_part {s : σ} {part rest : List α} {r : ρ}
    (h : c.look s (part ++ rest) = .halt r) : c.look s part = .wait ∨ c.look s part = .halt r := by
  cases hl : c.look s part with
  | wait => exact Or.inl rfl
  | take n s₁ =>
      rw [c.take_append rest hl] at h
      cases h
  | halt r' =>
      rw [c.halt_append rest hl] at h
      exact Or.inr h

section Messages

variable {μ : Type w'} {enc : μ → List α} {P : σ → List μ → Prop}

/-- The rule for streams of messages. `P s ms` relates the state to the messages that are still to
be taken; if taking one keeps it, then draining any part of the stream does, and leaves in the
buffer less than the next message. Unless a message halts the consumer, or what is behind the
messages, which is never taken: then `R` is of the state and the result. -/
theorem drain_of_messages_or_halt {R : σ → ρ → Prop} {tail : List α}
    (hstep : ∀ {s m ms}, P s (m :: ms) →
      (∃ s', c.look s (enc m) = .take (enc m).length s' ∧ P s' ms) ∨
        ∃ r, c.look s (enc m) = .halt r ∧ R s r)
    (htail : ∀ {s part later}, P s [] → part ++ later = tail →
      c.look s part = .wait ∨ ∃ r, c.look s part = .halt r ∧ R s r)
    {s : σ} {ms : List μ} (hP : P s ms) {buf later : List α}
    (hbuf : buf ++ later = (ms.map enc).flatten ++ tail) :
    (∃ s' buf' ms', c.drain s buf = .idle s' buf' ∧ P s' ms' ∧
      buf' ++ later = (ms'.map enc).flatten ++ tail ∧
        ∀ m ∈ ms'.head?, buf'.length < (enc m).length) ∨
      ∃ s' r, c.drain s buf = .halted r ∧ R s' r := by
  induction ms generalizing s buf with
  | nil =>
      rcases htail hP hbuf with hl | ⟨r, hl, hr⟩
      · exact Or.inl ⟨s, buf, [], drain_of_wait hl, hP, hbuf, by simp⟩
      · exact Or.inr ⟨s, r, drain_of_halt hl, hr⟩
  | cons m ms ih =>
      have hwhole := hbuf
      rw [List.map_cons, List.flatten_cons, List.append_assoc, List.append_eq_append_iff] at hbuf
      by_cases hlt : buf.length < (enc m).length
      · -- the first message has not arrived whole
        rcases hbuf with ⟨part, hm, -⟩ | ⟨part, hm, -⟩
        · have hpart : part ≠ [] := by
            rintro rfl
            rw [hm, List.append_nil] at hlt
            exact Nat.lt_irrefl _ hlt
          have hidle (hl : c.look s buf = .wait) := drain_of_wait hl
          rcases hstep hP with ⟨s₁, hl, -⟩ | ⟨r, hl, hr⟩
          · rw [hm] at hl
            exact Or.inl ⟨s, buf, m :: ms, hidle (look_of_part hl hpart), hP, hwhole,
              by simpa using hlt⟩
          · -- it halts the consumer when it has, or a part of it does
            rw [hm] at hl
            rcases look_of_halting_part hl with hwait | hhalt
            · exact Or.inl ⟨s, buf, m :: ms, hidle hwait, hP, hwhole, by simpa using hlt⟩
            · exact Or.inr ⟨s, r, drain_of_halt hhalt, hr⟩
        · rw [hm, List.length_append] at hlt
          omega
      · -- the first message is there, and the rest of the buffer is a part of the rest
        obtain ⟨rest, rfl, hrest⟩ : ∃ rest, buf = enc m ++ rest ∧
            rest ++ later = (ms.map enc).flatten ++ tail := by
          rcases hbuf with ⟨part, hm, hlater⟩ | ⟨part, hm, hlater⟩
          · obtain rfl : part = [] := by
              rw [hm, List.length_append] at hlt
              exact List.eq_nil_of_length_eq_zero (by omega)
            exact ⟨[], by simpa using hm.symm, by simpa using hlater⟩
          · exact ⟨part, hm, hlater.symm⟩
        rcases hstep hP with ⟨s₁, hl, hP₁⟩ | ⟨r, hl, hr⟩
        · rw [drain_append_of_take hl]
          exact ih hP₁ hrest
        · exact Or.inr ⟨s, r, drain_append_of_halt hl rest, hr⟩

/-- The rule for messages that are all taken, with something behind them. -/
theorem drain_of_messages_tail {R : σ → ρ → Prop} {tail : List α}
    (hstep : ∀ {s m ms}, P s (m :: ms) → ∃ s', c.look s (enc m) = .take (enc m).length s' ∧ P s' ms)
    (htail : ∀ {s part later}, P s [] → part ++ later = tail →
      c.look s part = .wait ∨ ∃ r, c.look s part = .halt r ∧ R s r)
    {s : σ} {ms : List μ} (hP : P s ms) {buf later : List α}
    (hbuf : buf ++ later = (ms.map enc).flatten ++ tail) :
    (∃ s' buf' ms', c.drain s buf = .idle s' buf' ∧ P s' ms' ∧
      buf' ++ later = (ms'.map enc).flatten ++ tail ∧
        ∀ m ∈ ms'.head?, buf'.length < (enc m).length) ∨
      ∃ s' r, c.drain s buf = .halted r ∧ P s' [] ∧ R s' r := by
  have htail' : ∀ {s part later}, P s [] → part ++ later = tail →
      c.look s part = .wait ∨ ∃ r, c.look s part = .halt r ∧ P s [] ∧ R s r := by
    intro s part later hnil hpart
    exact (htail hnil hpart).imp_right fun ⟨r, hl, hr⟩ => ⟨r, hl, hnil, hr⟩
  exact drain_of_messages_or_halt (P := P) (R := fun s r => P s [] ∧ R s r)
    (fun hP => Or.inl (hstep hP)) htail' hP hbuf

/-- The rule for a stream of messages and nothing else. -/
theorem drain_of_messages
    (hstep : ∀ {s m ms}, P s (m :: ms) → ∃ s', c.look s (enc m) = .take (enc m).length s' ∧ P s' ms)
    {s : σ} {ms : List μ} (hP : P s ms) {buf later : List α}
    (hbuf : buf ++ later = (ms.map enc).flatten) :
    ∃ s' buf' ms', c.drain s buf = .idle s' buf' ∧ P s' ms' ∧
      buf' ++ later = (ms'.map enc).flatten ∧ ∀ m ∈ ms'.head?, buf'.length < (enc m).length := by
  have htail : ∀ {s part later}, P s [] → part ++ later = [] →
      c.look s part = .wait ∨ ∃ r, c.look s part = .halt r ∧ False := by
    intro s part later _ hpart
    obtain ⟨rfl, -⟩ := List.append_eq_nil_iff.1 hpart
    exact Or.inl (c.look_nil s)
  rw [← List.append_nil (ms.map enc).flatten] at hbuf
  rcases drain_of_messages_tail (R := fun _ _ => False) hstep htail hP hbuf with
    ⟨s', buf', ms', hdrain, hP', heq, hhead⟩ | ⟨-, -, -, -, hR⟩
  · exact ⟨s', buf', ms', hdrain, hP', by rw [heq, List.append_nil], hhead⟩
  · exact absurd hR id

/-- When the whole stream has arrived, every message is taken. -/
theorem drain_of_all_messages
    (hstep : ∀ {s m ms}, P s (m :: ms) → ∃ s', c.look s (enc m) = .take (enc m).length s' ∧ P s' ms)
    {s : σ} {ms : List μ} (hP : P s ms) :
    ∃ s', c.drain s (ms.map enc).flatten = .idle s' [] ∧ P s' [] := by
  obtain ⟨s', buf', ms', hdrain, hP', heq, hhead⟩ :=
    drain_of_messages hstep hP (List.append_nil (ms.map enc).flatten)
  rw [List.append_nil] at heq
  cases ms' with
  | nil =>
      rw [heq] at hdrain
      exact ⟨s', hdrain, hP'⟩
  | cons m ms' =>
      -- the buffer would hold the whole next message
      have hlt := hhead m rfl
      rw [heq, List.map_cons, List.flatten_cons, List.length_append] at hlt
      omega

end Messages

end Consumer

end Reassembly
