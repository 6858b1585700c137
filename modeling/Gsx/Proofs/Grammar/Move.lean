import Mathlib.Logic.Relation
import Mathlib.Order.Nat
import Gsx.Grammar.Capture
import Gsx.Proofs.Lexer.Progress
/-!
# Moves of a token stream

All that reading does to a stream is one of three moves: it advances by a
token, it goes behind the braces at the current token and reads the lookahead
anew, or it stays where it is and takes notes. What holds of the three moves
holds of every path, and so of all reading: the source stays the same, the
stream stays in order, and the current token never moves to the left.
-/

namespace Gsx

namespace TokenStream

/-- What stays the same while a stream takes notes. A note of a number that
could not be computed tells of a numeral that is too long. -/
structure Stays (s s' : TokenStream) : Prop where
  source : s'.lexer.source = s.lexer.source
  cursor : s'.lexer.cursor = s.lexer.cursor
  current : s'.current = s.current
  peek : s'.peek = s.peek
  exhausted : s'.exhausted = s.exhausted
  interruption : ∀ i, s'.interruption = some i → s.interruption = some i
    ∨ ∃ n, Numeral.maxDigits < n ∧ i.cause = .tooManyDigits n

/-- One move of a stream. -/
inductive Move : TokenStream → TokenStream → Prop
  | advance (s : TokenStream) : Move s s.advanced
  | braces {s s' : TokenStream} {code : String} :
      Parse.behindBraces s = .ok (code, s') → Move s s'
  | stay {s s' : TokenStream} : Stays s s' → Move s s'

/-- Any number of moves. -/
abbrev Path : TokenStream → TokenStream → Prop :=
  Relation.ReflTransGen Move

/-- **A stream in order.** Its cursor stands in its source, behind its two
tokens; a token starts behind the one before it, and the end of the input is
where it should be. -/
structure InOrder (s : TokenStream) : Prop where
  cursor : s.lexer.cursor.IsIn s.lexer.source
  current_le : s.current.start ≤ s.peek.start
  peek_le : s.peek.start ≤ s.lexer.cursor.offset
  current_lt : s.current.kind ≠ .endOfInput → s.current.start < s.peek.start
  peek_lt : s.peek.kind ≠ .endOfInput → s.peek.start < s.lexer.cursor.offset
  current_end : s.current.kind = .endOfInput → s.current.start = s.lexer.source.length
  peek_end : s.peek.kind = .endOfInput → s.peek.start = s.lexer.source.length

/-- How much of the source is left from the current token on. -/
def remaining (s : TokenStream) : Nat :=
  s.lexer.source.length - s.current.start

theorem remaining_lt_rounds (s : TokenStream) : s.remaining < s.rounds := by
  rw [remaining, rounds]
  omega

variable {s s' : TokenStream}

namespace InOrder

theorem current_le_length (h : s.InOrder) : s.current.start ≤ s.lexer.source.length :=
  (h.current_le.trans h.peek_le).trans h.cursor.offset_le

/-- What is left shrinks as the current token moves to the right. -/
theorem remaining_lt (h' : s'.InOrder) (hsource : s'.lexer.source = s.lexer.source)
    (hlt : s.current.start < s'.current.start) : s'.remaining < s.remaining := by
  have := h'.current_le_length
  rw [hsource] at this
  rw [remaining, remaining, hsource]
  omega

end InOrder

/-- **Two tokens read from a cursor in its source** are in order, and the first
starts at the cursor or further on. -/
theorem inOrder_of_next {l : Lexer} (hl : l.cursor.IsIn l.source)
    (hcurrent : s.current = l.next.1) (hpeek : s.peek = l.next.2.next.1)
    (hlexer : s.lexer = l.next.2.next.2) :
    s.InOrder ∧ s.lexer.source = l.source ∧ l.cursor.offset ≤ s.current.start := by
  have h1 := Lexer.reads_next hl
  have h2 := Lexer.reads_next (h1.source_eq ▸ h1.cursor)
  have hsource : s.lexer.source = l.source := by rw [hlexer, h2.source_eq, h1.source_eq]
  -- the current token is the first one read and the next token the second, so each
  -- fact comes from the read it is about
  refine ⟨⟨?_, ?_, ?_, fun hne => ?_, fun hne => ?_, fun heq => ?_, fun heq => ?_⟩, hsource, ?_⟩
  · rw [hsource, hlexer, ← h1.source_eq]
    exact h2.cursor
  · rw [hcurrent, hpeek]
    exact h1.start_le.trans h2.le_start
  · rw [hpeek, hlexer]
    exact h2.start_le
  · rw [hcurrent] at hne ⊢
    rw [hpeek]
    exact (h1.start_lt hne).trans_le h2.le_start
  · rw [hpeek] at hne ⊢
    rw [hlexer]
    exact h2.start_lt hne
  · rw [hcurrent] at heq ⊢
    rw [hsource]
    exact h1.start_end heq
  · rw [hpeek] at heq ⊢
    rw [hsource, ← h1.source_eq]
    exact h2.start_end heq
  · rw [hcurrent]
    exact h1.le_start

theorem inOrder_ofSource (name source : String) : (ofSource name source).InOrder :=
  (inOrder_of_next (l := Lexer.ofSource name source) (Cursor.IsIn.start _) rfl rfl rfl).1

/-! ## Behind braces -/

/-- The stream behind braces is read from a lexer that stands there. -/
theorem behindBraces_eq {code : String} (h : Parse.behindBraces s = .ok (code, s')) :
    ∃ l, s.lexer.readBraces s.current.start = .ok (code, l)
      ∧ s' = { s with
          lexer := l.next.2.next.2
          current := l.next.1
          peek := l.next.2.next.1
          comments := s.comments.filter fun c =>
            !(decide (s.current.start < c.offset) && decide (c.offset < l.cursor.offset)) } := by
  rw [Parse.behindBraces] at h
  cases hb : s.lexer.readBraces s.current.start with
  | error f =>
    rw [hb] at h
    cases h
  | ok r =>
    rw [hb] at h
    cases h
    exact ⟨r.2, rfl, rfl⟩

theorem behindBraces_eq_error_iff {f : BraceFault} :
    Parse.behindBraces s = .error f ↔ s.lexer.readBraces s.current.start = .error f := by
  rw [Parse.behindBraces]
  cases s.lexer.readBraces s.current.start <;> simp

/-! ## What a move keeps -/

theorem advanced_spec (h : s.InOrder) :
    s.advanced.InOrder ∧ s.advanced.lexer.source = s.lexer.source := by
  have hr := Lexer.reads_next h.cursor
  refine ⟨⟨?_, ?_, hr.start_le, fun hne => ?_, hr.start_lt, fun heq => ?_, fun heq => ?_⟩,
    hr.source_eq⟩
  · change s.lexer.next.2.cursor.IsIn s.lexer.next.2.source
    rw [hr.source_eq]
    exact hr.cursor
  · exact h.peek_le.trans hr.le_start
  · exact (h.peek_lt hne).trans_le hr.le_start
  · exact (h.peek_end heq).trans (congrArg List.length hr.source_eq.symm)
  · exact (hr.start_end heq).trans (congrArg List.length hr.source_eq.symm)

/-- **Going behind braces** leaves the current token behind the opening one. -/
theorem behindBraces_spec {code : String} (h : Parse.behindBraces s = .ok (code, s')) :
    s'.InOrder ∧ s'.lexer.source = s.lexer.source ∧ s.current.start < s'.current.start
      ∧ s'.exhausted = s.exhausted ∧ s'.interruption = s.interruption := by
  obtain ⟨l, hl, hs'⟩ := behindBraces_eq h
  obtain ⟨hsource, hcursor, hlt⟩ := Lexer.readBraces_spec hl
  obtain ⟨hin, hsource', hle⟩ : s'.InOrder ∧ s'.lexer.source = l.source
      ∧ l.cursor.offset ≤ s'.current.start := by
    subst hs'
    exact inOrder_of_next (hsource ▸ hcursor) rfl rfl rfl
  exact ⟨hin, hsource'.trans hsource, hlt.trans_le hle, hs' ▸ rfl, hs' ▸ rfl⟩

theorem Stays.refl : Stays s s :=
  ⟨rfl, rfl, rfl, rfl, rfl, fun _ => .inl⟩

theorem Stays.trans {s'' : TokenStream} (h : Stays s s') (h' : Stays s' s'') : Stays s s'' where
  source := h'.source.trans h.source
  cursor := h'.cursor.trans h.cursor
  current := h'.current.trans h.current
  peek := h'.peek.trans h.peek
  exhausted := h'.exhausted.trans h.exhausted
  interruption i hi := (h'.interruption i hi).elim (h.interruption i) .inr

theorem Stays.inOrder (hs : Stays s s') (h : s.InOrder) : s'.InOrder where
  cursor := by rw [hs.cursor, hs.source]; exact h.cursor
  current_le := by rw [hs.current, hs.peek]; exact h.current_le
  peek_le := by rw [hs.peek, hs.cursor]; exact h.peek_le
  current_lt := by rw [hs.current, hs.peek]; exact h.current_lt
  peek_lt := by rw [hs.peek, hs.cursor]; exact h.peek_lt
  current_end := by rw [hs.current, hs.source]; exact h.current_end
  peek_end := by rw [hs.peek, hs.source]; exact h.peek_end

namespace Move

theorem inOrder (hm : Move s s') (h : s.InOrder) : s'.InOrder := by
  cases hm with
  | advance => exact (advanced_spec h).1
  | braces hb => exact (behindBraces_spec hb).1
  | stay hs => exact hs.inOrder h

theorem source_eq (hm : Move s s') (h : s.InOrder) : s'.lexer.source = s.lexer.source := by
  cases hm with
  | advance => exact (advanced_spec h).2
  | braces hb => exact (behindBraces_spec hb).2.1
  | stay hs => exact hs.source

/-- **The current token never moves to the left.** -/
theorem start_le (hm : Move s s') (h : s.InOrder) : s.current.start ≤ s'.current.start := by
  cases hm with
  | advance => exact h.current_le
  | braces hb => exact (behindBraces_spec hb).2.2.1.le
  | stay hs => exact (congrArg Token.start hs.current).ge

/-- No move reaches a bound. -/
theorem exhausted_eq (hm : Move s s') : s'.exhausted = s.exhausted := by
  cases hm with
  | advance => rfl
  | braces hb => exact (behindBraces_spec hb).2.2.2.1
  | stay hs => exact hs.exhausted

theorem interruption (hm : Move s s') (i : Interruption) (hi : s'.interruption = some i) :
    s.interruption = some i ∨ ∃ n, Numeral.maxDigits < n ∧ i.cause = .tooManyDigits n := by
  cases hm with
  | advance => exact .inl hi
  | braces hb => exact .inl ((behindBraces_spec hb).2.2.2.2 ▸ hi)
  | stay hs => exact hs.interruption i hi

end Move

/-! ## What a path keeps -/

namespace Path

theorem inOrder (hp : s.Path s') (h : s.InOrder) : s'.InOrder := by
  induction hp with
  | refl => exact h
  | tail _ hm ih => exact hm.inOrder ih

theorem source_eq (hp : s.Path s') (h : s.InOrder) : s'.lexer.source = s.lexer.source := by
  induction hp with
  | refl => rfl
  | tail hp hm ih => exact (hm.source_eq (Path.inOrder hp h)).trans ih

theorem start_le (hp : s.Path s') (h : s.InOrder) : s.current.start ≤ s'.current.start := by
  induction hp with
  | refl => exact le_rfl
  | tail hp hm ih => exact ih.trans (hm.start_le (Path.inOrder hp h))

theorem remaining_le (hp : s.Path s') (h : s.InOrder) : s'.remaining ≤ s.remaining := by
  have := hp.start_le h
  rw [remaining, remaining, hp.source_eq h]
  omega

theorem exhausted_eq (hp : s.Path s') : s'.exhausted = s.exhausted := by
  induction hp with
  | refl => rfl
  | tail _ hm ih => exact hm.exhausted_eq.trans ih

theorem interruption (hp : s.Path s') (i : Interruption) (hi : s'.interruption = some i) :
    s.interruption = some i ∨ ∃ n, Numeral.maxDigits < n ∧ i.cause = .tooManyDigits n := by
  induction hp with
  | refl => exact .inl hi
  | tail _ hm ih => exact (hm.interruption i hi).elim ih .inr

end Path

end TokenStream

/-! ## Text between braces -/

theorem Parse.run_bracedText_ok {s s' : TokenStream} {code : String}
    (h : behindBraces s = .ok (code, s')) : bracedText.run s = (some code, s') := by
  rw [bracedText, StateT.run_bind]
  simp only [StateT.run_get, pure_bind, h]
  rfl

theorem Parse.run_bracedText_error {s : TokenStream} {f : BraceFault}
    (h : behindBraces s = .error f) : bracedText.run s = (passBrace f).run s := by
  rw [bracedText, StateT.run_bind]
  simp only [StateT.run_get, pure_bind, h]

end Gsx
