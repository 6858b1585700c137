import Gsx.Proofs.Lexer.Closing
import Gsx.Proofs.Lexer.Coordinates
import Gsx.Proofs.Lexer.Skipping
/-!
# Lexer calls — coordinates after any of them

What can be asked of a lexer is a `Call`, and a run is any list of calls on one
lexer. Tokens and comments get their coordinates from the cursor, which moves
by single steps but is also put behind a brace anywhere in the source, by calls
that may come in any order. `Lexer.Placed` is what every call keeps: the cursor
stands in the source, and each pending comment covers the text it claims to
cover.
-/

namespace Gsx

variable {source : List Char}

/-! ## Comments and tokens in their places -/

/-- **A comment in its place**: it starts and ends at the positions of its
offsets, and its text is the source between them. -/
structure Comment.IsIn (source : List Char) (c : Comment) : Prop where
  inside : c.offset + c.text.toList.length ≤ source.length
  position_eq : c.position = .ofOffset source c.offset
  text_eq : c.text.toList = (source.drop c.offset).take c.text.toList.length
  stop_eq : c.stop = .ofOffset source (c.offset + c.text.toList.length)

/-- **A token in its place**: where it starts inside the source, it has the
position of its start. -/
structure Token.IsIn (source : List Char) (t : Token) : Prop where
  start_le : t.start ≤ source.length
  position_eq : t.start < source.length → t.position = .ofOffset source t.start

namespace Lexer

/-- What every call keeps. -/
structure Placed (source : List Char) (l : Lexer) : Prop where
  source_eq : l.source = source
  cursor : l.cursor.IsIn source
  pending : ∀ c ∈ l.pending, c.IsIn source

variable {l : Lexer}

theorem placed_ofSource (name source : String) :
    (ofSource name source).Placed source.toList :=
  ⟨rfl, Cursor.IsIn.start _, fun _ h => absurd h List.not_mem_nil⟩

namespace Placed

theorem report (h : l.Placed source) (p : Position) (f : LexicalFault) :
    (l.report p f).Placed source :=
  ⟨h.source_eq, h.cursor, h.pending⟩

theorem step (h : l.Placed source) (n : Nat) : (l.step n).Placed source :=
  ⟨h.source_eq, h.cursor.advance n, h.pending⟩

theorem startToken (h : l.Placed source) : l.startToken.Placed source :=
  ⟨h.source_eq, h.cursor, h.pending⟩

/-! ## Comments -/

/-- A comment that is collected covers what the cursor moves over. -/
theorem collect (h : l.Placed source) (isBlock : Bool) {length : Nat}
    (hne : l.cursor.rest ≠ []) (hlen : length ≤ l.cursor.rest.length) :
    (l.collect isBlock length).Placed source := by
  have hlt := h.cursor.offset_lt hne
  have hrest := h.cursor.length_rest
  refine ⟨h.source_eq, h.cursor.advance length, fun c hc => ?_⟩
  rcases List.mem_append.1 hc with hc | hc
  · exact h.pending c hc
  · rw [List.mem_singleton.1 hc]
    have htext : (l.cursor.rest.take length).length = length := by
      rw [List.length_take]
      omega
    refine ⟨?_, h.cursor.position_eq hlt, ?_, ?_⟩
    · simp only [String.toList_ofList, htext]
      omega
    · simp only [String.toList_ofList, htext]
      rw [h.cursor.rest_eq]
    · simp only [String.toList_ofList, htext]
      exact Cursor.position_advance h.cursor hlt hlen

theorem skipOne? (h : l.Placed source) {l' : Lexer} (hs : l.skipOne? = some l') :
    l'.Placed source := by
  cases skips_of_skipOne? hs with
  | blank => exact h.step 1
  | line hrest => exact h.collect false (hrest ▸ List.cons_ne_nil _ _) (length_line_le hrest)
  | block hrest hlength =>
    exact h.collect true (hrest ▸ List.cons_ne_nil _ _) (length_block_le hrest hlength)
  | openBlock => exact (h.report _ _).step _

theorem skipUpTo (h : l.Placed source) (fuel : Nat) : (skipUpTo fuel l).Placed source :=
  skipUpTo_induction (fun hm hs => hm.skipOne? hs) h fuel

theorem skipTrivia (h : l.Placed source) : l.skipTrivia.Placed source :=
  h.skipUpTo _

/-! ## Tokens -/

/-- A token that is read at its marked start is in its place. -/
theorem emit (h : l.Placed source) (hstart : l.tokenStart = l.cursor.position) (x : Lexeme) :
    (l.emit x).1.IsIn source ∧ (l.emit x).2.Placed source := by
  refine ⟨⟨h.cursor.offset_le, fun hlt => ?_⟩, ?_, h.cursor.advance _, ?_⟩
  · exact hstart.trans (h.cursor.position_eq hlt)
  · rw [Lexer.emit]
    cases x.fault <;> exact h.source_eq
  · rw [Lexer.emit]
    cases x.fault <;> exact h.pending

/-- **Reading a token.** -/
theorem next (h : l.Placed source) : l.next.1.IsIn source ∧ l.next.2.Placed source :=
  h.skipTrivia.startToken.emit rfl _

/-- Errors about an expression move nothing. -/
theorem reportAll (h : l.Placed source) (hstart : l.tokenStart = l.cursor.position)
    (fs : List LexicalFault) :
    (fs.foldl reportHere l).Placed source
      ∧ (fs.foldl reportHere l).tokenStart = (fs.foldl reportHere l).cursor.position := by
  induction fs generalizing l with
  | nil => exact ⟨h, hstart⟩
  | cons f fs ih => exact ih (h.report _ f) hstart

/-- **Reading an expression.** -/
theorem readExpression (h : l.Placed source) :
    l.readExpression.1.IsIn source ∧ l.readExpression.2.Placed source := by
  obtain ⟨hplaced, hstart⟩ := h.startToken.reportAll rfl (bracketFaults l.startToken.cursor.rest)
  exact hplaced.emit hstart _

/-- **Reading between braces**, wherever the opening one is. -/
theorem readBraces (h : l.Placed source) {start : Int} {text : String} {l' : Lexer}
    (hb : l.readBraces start = .ok (text, l')) : l'.Placed source := by
  cases start with
  | negSucc n => cases hb
  | ofNat n =>
    obtain ⟨_, _, _, _, _, rfl⟩ := exists_of_readBraces hb
    -- the cursor starts over from the first character, and the comments only get fewer
    refine ⟨h.source_eq, ?_, fun c hc => h.pending c (List.mem_filter.1 hc).1⟩
    simp only [h.source_eq]
    exact (Cursor.IsIn.start source).advance _

end Placed

/-! ## Calls -/

/-- What can be asked of a lexer. -/
inductive Call where
  | next
  | expression
  | braces (start : Int)
  | comments
  | range (start stop : Int)
  deriving DecidableEq, Repr

/-- What a lexer answers. -/
inductive Answer where
  | token (t : Token)
  | text (s : String)
  | failure (f : BraceFault)
  | comments (cs : List Comment)
  deriving DecidableEq, Repr

/-- One call: the answer, and the lexer after it. -/
def answer (l : Lexer) : Call → Answer × Lexer
  | .next => (.token l.next.1, l.next.2)
  | .expression => (.token l.readExpression.1, l.readExpression.2)
  | .braces start =>
    match l.readBraces start with
    | .ok (text, l') => (.text text, l')
    | .error f => (.failure f, l)
  | .comments => (.comments l.takeComments.1, l.takeComments.2)
  | .range start stop => (.text (l.sourceRange start stop), l)

/-- A run: calls one after the other. -/
def run : List Call → Lexer → List Answer × Lexer
  | [], l => ([], l)
  | call :: calls, l =>
    let (a, l) := l.answer call
    let (as, l) := run calls l
    (a :: as, l)

/-- An answer whose tokens and comments are in their places. -/
def Answer.IsIn (source : List Char) : Answer → Prop
  | .token t => t.IsIn source
  | .comments cs => ∀ c ∈ cs, c.IsIn source
  | .text _ | .failure _ => True

/-- **Every call keeps the places.** -/
theorem Placed.answer (h : l.Placed source) (call : Call) :
    (l.answer call).1.IsIn source ∧ (l.answer call).2.Placed source := by
  cases call with
  | next => exact h.next
  | expression => exact h.readExpression
  | braces start =>
    cases hb : l.readBraces start with
    | error f =>
      simp only [Lexer.answer, hb]
      exact ⟨trivial, h⟩
    | ok r =>
      simp only [Lexer.answer, hb]
      exact ⟨trivial, h.readBraces hb⟩
  | comments => exact ⟨h.pending, h.source_eq, h.cursor, fun _ hc => absurd hc List.not_mem_nil⟩
  | range start stop => exact ⟨trivial, h⟩

/-- And so does every run. -/
theorem Placed.run (h : l.Placed source) (calls : List Call) :
    (∀ a ∈ (Lexer.run calls l).1, a.IsIn source) ∧ (Lexer.run calls l).2.Placed source := by
  induction calls generalizing l with
  | nil => exact ⟨fun _ ha => absurd ha List.not_mem_nil, h⟩
  | cons call calls ih =>
    obtain ⟨hanswer, hplaced⟩ := h.answer call
    obtain ⟨hanswers, hrun⟩ := ih hplaced
    refine ⟨fun a ha => ?_, hrun⟩
    rcases List.mem_cons.1 ha with rfl | ha
    · exact hanswer
    · exact hanswers a ha

/-- **Coordinates are those of a rescan**, after any calls in any order. The
cursor does not pass the end, it sees the character at its offset, its line is
that of a rescan, and so is its column before the end; at the end its column is
at least that. Every token that starts inside the source has the position of
its start, and every comment, pending or taken, starts and ends at the positions
of its offsets and is the text between them. -/
theorem coordinates_of_run (name source : String) (calls : List Call) :
    let text := source.toList
    let (answers, l) := Lexer.run calls (ofSource name source)
    let place := Position.ofOffset text l.cursor.offset
    l.cursor.offset ≤ text.length
      ∧ l.cursor.current? = text[l.cursor.offset]?
      ∧ l.cursor.position.line = place.line
      ∧ (if l.cursor.offset < text.length then l.cursor.position.column = place.column
        else place.column ≤ l.cursor.position.column)
      ∧ (∀ t, .token t ∈ answers → t.start < text.length →
        t.position = .ofOffset text t.start)
      ∧ (∀ cs, .comments cs ∈ answers → ∀ c ∈ cs, c.IsIn text)
      ∧ ∀ c ∈ l.pending, c.IsIn text := by
  obtain ⟨hanswers, hplaced⟩ := (placed_ofSource name source).run calls
  have hcursor := hplaced.cursor
  refine ⟨hcursor.offset_le, hcursor.current?_eq, hcursor.line_eq, ?_,
    fun t ht => (hanswers _ ht).position_eq, fun cs hcs => hanswers _ hcs, hplaced.pending⟩
  split
  · next hlt => exact hcursor.column_eq hlt
  · exact hcursor.le_column

end Lexer

end Gsx
