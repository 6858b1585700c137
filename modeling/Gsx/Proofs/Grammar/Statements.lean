import Gsx.Proofs.Grammar.Following
import Gsx.Proofs.Grammar.Readers
import Gsx.Proofs.Grammar.Trees
/-!
# Where a Go statement ends

A Go statement in a body is captured up to the first line end or semicolon at
bracket depth zero. The depth is one signed number for all kinds of brackets,
and only these two kinds of token are asked for it. So the capture is balanced
exactly where such a token comes before any closing bracket that the statement
does not open; where the bracket that closes the block stands on the line of
the statement, it becomes part of the statement, and so does what follows.
-/

namespace Gsx

/-- What a token adds to the depth of brackets. -/
def TokenKind.bracket (k : TokenKind) : Int :=
  if k.isOpener then 1 else if k.isCloser then -1 else 0

namespace Lexer

/-- The depth of brackets in front of a token. -/
def bracketDepth (l : Lexer) : Nat → Int
  | 0 => 0
  | n + 1 => l.bracketDepth n + (l.token n).kind.bracket

/-- **Balanced from the left**: no beginning of the first `n` tokens closes more
brackets than it opens. -/
def IsBalanced (l : Lexer) (n : Nat) : Prop :=
  ∀ m ≤ n, 0 ≤ l.bracketDepth m

theorem IsBalanced.mono {l : Lexer} {m n : Nat} (h : l.IsBalanced n) (hle : m ≤ n) :
    l.IsBalanced m :=
  fun k hk => h k (hk.trans hle)

/-- Whether a token stands in the header of a `for` that the first token
starts. -/
def inHeader (l : Lexer) : Nat → Bool
  | 0 => (l.token 0).kind == .forWord
  | n + 1 => l.inHeader n && (l.token n).kind != .leftBrace

/-- **A token that ends a statement**: a line end outside brackets, or a
semicolon outside brackets and headers. -/
def EndsStatement (l : Lexer) (n : Nat) : Prop :=
  l.bracketDepth n = 0
    ∧ ((l.token n).kind = .newline ∨ (l.token n).kind = .semicolon ∧ l.inHeader n = false)

end Lexer

namespace Parse

open Lexer TokenStream

variable {l : Lexer} {s : TokenStream} {n : Nat}

/-! ## The capture of one statement -/

/-- What the capture knows in front of a token. -/
def statementState (l : Lexer) (n : Nat) : StatementState :=
  ⟨l.bracketDepth n, l.inHeader n⟩

theorem statementStep_of_endsStatement (h : l.EndsStatement n) :
    statementStep (statementState l n) (l.token n) = none := by
  obtain ⟨hdepth, hkind | ⟨hkind, hheader⟩⟩ := h
  · simp [statementStep, statementState, hkind, hdepth]
  · simp [statementStep, statementState, hkind, hdepth, hheader]

theorem statementStep_of_not_endsStatement (h : ¬ l.EndsStatement n) :
    statementStep (statementState l n) (l.token n) = some (statementState l (n + 1)) := by
  simp only [statementState, bracketDepth, inHeader]
  cases hkind : (l.token n).kind
  case newline =>
    have hdepth : l.bracketDepth n ≠ 0 := fun hzero => h ⟨hzero, .inl hkind⟩
    simp [statementStep, hkind, hdepth, TokenKind.bracket, TokenKind.isOpener, TokenKind.isCloser]
  case semicolon =>
    have hgo : ¬ (l.bracketDepth n = 0 ∧ l.inHeader n = false) := fun hend =>
      h ⟨hend.1, .inr ⟨hkind, hend.2⟩⟩
    simp [statementStep, hkind, hgo, TokenKind.bracket, TokenKind.isOpener, TokenKind.isCloser]
  all_goals
    simp [statementStep, hkind, TokenKind.bracket, TokenKind.isOpener, TokenKind.isCloser,
      Int.sub_eq_add_neg]

/-- **A captured statement**: the text, without blank ends, from its first token
up to the first token that ends it, or to the end of the input. -/
structure Captures (l : Lexer) (code : String) (p : Position) (n : Nat) : Prop where
  position : p = (l.token 0).position
  stops : StopsAt l l.EndsStatement n
  code : code = Text.trim (String.ofList (l.slice (l.token 0).start (l.token n).start))

theorem run_goStatement (s : TokenStream) :
    let r := (scan statementStep ⟨0, s.current.kind == .forWord⟩).run s
    (goStatement.run s).1.position = s.current.position
      ∧ (goStatement.run s).1.code = Text.trim (String.ofList (r.2.lexer.slice s.current.start
          (if r.2.current.kind = .endOfInput then r.2.lexer.cursor.offset else r.2.current.start)))
    := by
  intro r
  by_cases hend : r.2.current.kind = .endOfInput
  · have hrun : (goStatement.run s).1 = ⟨Text.trim (String.ofList
        (r.2.lexer.slice s.current.start r.2.lexer.cursor.offset)), s.current.position, none⟩ := by
      change ((ite (r.2.current.kind = .endOfInput) _ _ : Parse GoCode) r.2).1 = _
      rw [if_pos hend]
      rfl
    rw [hrun, if_pos hend]
    exact ⟨rfl, rfl⟩
  · have hrun : (goStatement.run s).1 = ⟨Text.trim (String.ofList
        (r.2.lexer.slice s.current.start r.2.current.start)), s.current.position, none⟩ := by
      change ((ite (r.2.current.kind = .endOfInput) _ _ : Parse GoCode) r.2).1 = _
      rw [if_neg hend]
      rfl
    rw [hrun, if_neg hend]
    exact ⟨rfl, rfl⟩

/-- **What `goStatement` gives** in front of the tokens of the source. -/
theorem exists_captures (h : s.Follows l) :
    ∃ n, Captures l (goStatement.run s).1.code (goStatement.run s).1.position n := by
  obtain ⟨hposition, hcode⟩ := run_goStatement s
  obtain ⟨n, hstops, hrun⟩ := exists_stopsAt_scan (statementState l)
    (fun _ => statementStep_of_endsStatement) (fun _ => statementStep_of_not_endsStatement) h
  have hstart : statementState l 0 = ⟨0, s.current.kind == .forWord⟩ := by rw [h.current]; rfl
  have hfollows : ((scan statementStep ⟨0, s.current.kind == .forWord⟩).run s).2.Follows
      (after n l) := by
    rw [← hstart, hrun]
    exact h.advancedBy n
  generalize (scan statementStep ⟨0, s.current.kind == .forWord⟩).run s = r at hcode hfollows
  have hcurrent : r.2.current = l.token n := by rw [hfollows.current, token_after, Nat.add_zero]
  have hsource : r.2.lexer.source = l.source := hfollows.source.trans (isIn_after h.isIn n).1
  -- at the end of the input the lexer has nothing more to read
  have hstop : (if r.2.current.kind = .endOfInput then r.2.lexer.cursor.offset
      else r.2.current.start) = (l.token n).start := by
    split
    · next hend => rw [hfollows.lexedOffset_eq hend, hcurrent]
    · rw [hcurrent]
  rw [hstop, slice, hsource, h.current] at hcode
  exact ⟨n, by rw [hposition, h.current], hstops, hcode⟩

/-- **A capture is balanced from the left** exactly where a token that ends a
statement comes before any bracket that closes too much. -/
theorem Captures.isBalanced_iff {code : String} {p : Position} (h : Captures l code p n)
    (hthere : (l.token n).kind ≠ .endOfInput) :
    l.bracketDepth n = 0 ∧ (l.IsBalanced n ↔ ∃ i, l.EndsStatement i ∧ l.IsBalanced i) := by
  have hends : l.EndsStatement n := h.stops.stop.resolve_left hthere
  refine ⟨hends.1, fun hbalanced => ⟨n, hends, hbalanced⟩, ?_⟩
  rintro ⟨i, hi, hbalanced⟩
  refine hbalanced.mono (Nat.le_of_not_lt fun hlt => ?_)
  exact (h.stops.goes i hlt).2 hi

/-! ## All statements of a source -/

theorem Captures.congr {m : Lexer} {code : String} {p : Position} (h : Captures l code p n)
    (hcursor : m.cursor = l.cursor) (hsource : m.source = l.source) : Captures m code p n := by
  have htoken : ∀ i, m.token i = l.token i := token_congr hcursor
  have hdepth : ∀ i, m.bracketDepth i = l.bracketDepth i := fun i => by
    induction i with
    | zero => rfl
    | succ i ih => rw [bracketDepth, bracketDepth, ih, htoken]
  have hheader : ∀ i, m.inHeader i = l.inHeader i := fun i => by
    induction i with
    | zero => rw [inHeader, inHeader, htoken]
    | succ i ih => rw [inHeader, inHeader, ih, htoken]
  have hends : ∀ i, m.EndsStatement i ↔ l.EndsStatement i := fun i => by
    rw [EndsStatement, EndsStatement, htoken, hdepth, hheader]
  refine ⟨by rw [h.position, htoken], ⟨fun i hi => ?_, ?_⟩, ?_⟩
  · rw [htoken, hends]
    exact h.stops.goes i hi
  · rw [htoken, hends]
    exact h.stops.stop
  · rw [h.code, htoken, htoken, slice, slice, hsource]

/-- A lexer that has something left to read stands where one does that has come
there by single steps. -/
theorem cursor_step_offset {source : String} (hsource : l.source = source.toList)
    (h : l.cursor.IsIn l.source) (hthere : (l.token 0).kind ≠ .endOfInput) :
    ((Lexer.ofSource "" source).step l.cursor.offset).cursor = l.cursor := by
  have hlt : l.cursor.offset < source.toList.length := by
    have hreads := reads_next h
    have hoffset := hreads.start_lt hthere
    have hle := hreads.cursor.offset_le
    have hstart := hreads.le_start
    rw [hsource] at hle
    omega
  have hstart : (Cursor.start source.toList).IsIn source.toList := .start _
  have hle : 0 + l.cursor.offset ≤ source.toList.length := by omega
  have hmove : (Cursor.start source.toList).advance l.cursor.offset = l.cursor.advance 0 :=
    Cursor.advance_eq_advance hstart (hsource ▸ h) (Nat.zero_lt_of_lt hlt) hlt (Nat.zero_add _) hle
  exact hmove

/-- A stream of a source follows a lexer on it. -/
def FollowsIn (source : String) (s : TokenStream) : Prop :=
  ∃ l : Lexer, l.source = source.toList ∧ s.Follows l

/-- A statement of a source is a capture from one of its offsets. -/
def CapturedIn (source code : String) (p : Position) : Prop :=
  ∃ start n, Captures ((Lexer.ofSource "" source).step start) code p n

namespace FollowsIn

variable {source : String} {s' : TokenStream}

theorem noted (hnote : s.Annotates s') (h : FollowsIn source s) : FollowsIn source s' := by
  obtain ⟨l, hsource, h⟩ := h
  exact ⟨l, hsource, hnote.source.trans h.source, h.isIn, hnote.current.trans h.current,
    hnote.peek.trans h.peek, hnote.cursor.trans h.cursor⟩

theorem advanced (h : FollowsIn source s) : FollowsIn source s.advanced := by
  obtain ⟨l, hsource, h⟩ := h
  exact ⟨after 1 l, (isIn_after h.isIn 1).1.trans hsource, h.advanced⟩

theorem braces {code : String} (hb : behindBraces s = .ok (code, s')) (h : FollowsIn source s) :
    FollowsIn source s' := by
  obtain ⟨l, hsource, h⟩ := h
  obtain ⟨m, hm, hfollows⟩ := h.behindBraces hb
  exact ⟨m, hm.trans hsource, hfollows⟩

theorem converted (_ : s.current.kind = .int) (h : FollowsIn source s) :
    FollowsIn source ((intValue s.current.literal).run s).2 := by
  obtain ⟨l, hsource, h⟩ := h
  have hstays := keeps_intValue s.current.literal s
  exact ⟨l, hsource, hstays.source.trans h.source, h.isIn, hstays.current.trans h.current,
    hstays.peek.trans h.peek, hstays.cursor.trans h.cursor⟩

theorem captured (hstart : s.current.kind.startsStatement) (h : FollowsIn source s) :
    CapturedIn source (goStatement.run s).1.code (goStatement.run s).1.position := by
  obtain ⟨l, hsource, h⟩ := h
  obtain ⟨n, hn⟩ := exists_captures h
  have hthere : (l.token 0).kind ≠ .endOfInput := h.current ▸ isThere_of_startsStatement hstart
  exact ⟨l.cursor.offset, n, hn.congr (cursor_step_offset hsource h.isIn hthere) hsource.symm⟩

end FollowsIn

/-- **Statements are captures**: an invariant of reading a source. -/
def capturedStatements (source : String) : Invariant where
  stream := FollowsIn source
  value _ _ := True
  statement := CapturedIn source
  noted := FollowsIn.noted
  advanced := FollowsIn.advanced
  braces := FollowsIn.braces
  converted := FollowsIn.converted
  quoted _ _ := trivial
  plain _ := trivial
  captured := FollowsIn.captured

end Parse

/-- **Every statement is a capture, and balanced where its line is.** A Go
statement of a file is the text from its first token up to the first line end
or semicolon outside brackets. Unless it runs to the end of the input it opens
as many brackets as it closes; and it is balanced from the left exactly where a
line end or semicolon outside brackets comes before any bracket that closes
more than the statement has opened. -/
theorem SourceFile.isBalanced_statement_iff {name source : String} {r : Reading}
    (hread : SourceFile.read name source = .ok r) {f : SourceFile} (hfile : r.file = some f)
    {g : GoCode} (hg : g ∈ f.statements) :
    ∃ start n, let l := (Lexer.ofSource "" source).step start
      Parse.Captures l g.code g.position n
        ∧ ((l.token n).kind ≠ .endOfInput → l.bracketDepth n = 0
          ∧ (l.IsBalanced n ↔ ∃ i, l.EndsStatement i ∧ l.IsBalanced i)) := by
  have hsound : Parse.Sound (Parse.capturedStatements source) Parse.sourceFile _ := .sourceFile
  obtain ⟨-, htree⟩ := hsound (.ofSource name source)
    ⟨Lexer.ofSource name source, rfl, .ofSource name source⟩
  have hf : f ∈ (Parse.sourceFile.run (.ofSource name source)).1 := by
    rcases hrun : Parse.sourceFile.run (.ofSource name source) with ⟨file, s⟩
    rw [read, hrun] at hread
    cases hi : s.interruption with
    | some i => simp only [hi, reduceCtorEq] at hread
    | none =>
      simp only [hi, Except.ok.injEq] at hread
      rw [← hread] at hfile
      exact hfile
  obtain ⟨c, hc, hgc⟩ := List.mem_flatMap.1 hg
  obtain ⟨start, n, hcaptures⟩ := (htree f hf c hc).statements g hgc
  exact ⟨start, n, hcaptures, hcaptures.isBalanced_iff⟩

/-- A statement with the brace that closes its component on its line. -/
def closingOnTheLine : String :=
  "package x\n\n@component A() \x7b\n\tx := 1 \x7d\n\n@component B() \x7b\n\x7d\n"

/-- The statement takes in the brace, and the head of the next component. -/
theorem SourceFile.isBalanced_statement_iff_closingOnTheLine :
    ∃ f g, SourceFile.read "" closingOnTheLine = .ok ⟨some f, [], []⟩
      ∧ f.components.map (·.name) = ["A"] ∧ f.statements = [g]
      ∧ g.code = "x := 1 \x7d\n\n@component B() \x7b"
      ∧ ∃ start n, let l := (Lexer.ofSource "" closingOnTheLine).step start
        Parse.Captures l g.code g.position n
          ∧ ((l.token n).kind ≠ .endOfInput → l.bracketDepth n = 0
            ∧ (l.IsBalanced n ↔ ∃ i, l.EndsStatement i ∧ l.IsBalanced i)) := by
  obtain ⟨f, hread, hnames, g, hstatements, hcode⟩ :
      ∃ f, SourceFile.read "" closingOnTheLine = .ok ⟨some f, [], []⟩
        ∧ f.components.map (·.name) = ["A"]
        ∧ ∃ g, f.statements = [g] ∧ g.code = "x := 1 \x7d\n\n@component B() \x7b" :=
    ⟨_, rfl, rfl, _, rfl, rfl⟩
  exact ⟨f, g, hread, hnames, hstatements, hcode,
    isBalanced_statement_iff hread rfl (hstatements ▸ List.mem_singleton_self g)⟩

end Gsx
