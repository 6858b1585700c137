import Gsx.Grammar.SourceFile
/-!
# Invariants of reading

What holds of a stream at every point of reading it: of the stream at the
start, and of every stream after a move or a note if it held before. Such an
invariant is stated together with what follows from it for the leaves of the
tree, the values of attributes and the Go statements, for these are where a
token or a capture comes into the tree. A reader is sound for an invariant if
it keeps it; the readers that every other reader is made of are sound for all
of them.
-/

namespace Gsx

/-- **A stream takes notes**: of comments, of errors, of restarts, of a bound
that was reached. The place where it reads does not change. -/
structure TokenStream.Annotates (s s' : TokenStream) : Prop where
  source : s'.lexer.source = s.lexer.source
  cursor : s'.lexer.cursor = s.lexer.cursor
  current : s'.current = s.current
  peek : s'.peek = s.peek
  interruption : s'.interruption = s.interruption
  lexical : s'.lexer.diagnostics = s.lexer.diagnostics
  grammatical : ∃ ds, s'.diagnostics = s.diagnostics ++ ds ∧ ∀ d ∈ ds, d.isError

namespace TokenStream.Annotates

variable {s s' : TokenStream}

/-- A note that is no error. -/
theorem of_eq (hsource : s'.lexer.source = s.lexer.source)
    (hcursor : s'.lexer.cursor = s.lexer.cursor) (hcurrent : s'.current = s.current)
    (hpeek : s'.peek = s.peek) (hinterruption : s'.interruption = s.interruption)
    (hlexical : s'.lexer.diagnostics = s.lexer.diagnostics)
    (hgrammatical : s'.diagnostics = s.diagnostics) : s.Annotates s' :=
  ⟨hsource, hcursor, hcurrent, hpeek, hinterruption, hlexical, [],
    hgrammatical.trans (List.append_nil _).symm, fun _ hd => absurd hd List.not_mem_nil⟩

theorem collected (s : TokenStream) : s.Annotates s.collected :=
  of_eq rfl rfl rfl rfl rfl rfl rfl

theorem withComments (s : TokenStream) (cs : List Comment) :
    s.Annotates { s with comments := cs } :=
  of_eq rfl rfl rfl rfl rfl rfl rfl

theorem withError (s : TokenStream) (p : Position) (f : GrammarFault) :
    s.Annotates (s.withError p f) := by
  refine ⟨rfl, rfl, rfl, rfl, rfl, rfl, _, rfl, fun d hd => ?_⟩
  rw [List.mem_singleton.1 hd]
  rfl

theorem exhausted (s : TokenStream) : s.Annotates { s with exhausted := true } :=
  of_eq rfl rfl rfl rfl rfl rfl rfl

theorem recovered (s : TokenStream) (rs : List Recovery) :
    s.Annotates { s with recoveries := rs } :=
  of_eq rfl rfl rfl rfl rfl rfl rfl

end TokenStream.Annotates

/-- Whether a value is no string. -/
def AttributeValue.isPlain : AttributeValue → Bool
  | .string _ _ => false
  | _ => true

namespace Parse

/-- **An invariant of reading**: what holds of the stream, and what it says of
the values and the statements that are read. It is kept by notes, by moves, and
by the conversion of an integer. -/
structure Invariant where
  stream : TokenStream → Prop
  /-- What holds of the value of an attribute and the position where its text
  starts. -/
  value : AttributeValue → Position → Prop
  /-- What holds of the code of a statement and its position. -/
  statement : String → Position → Prop
  noted : ∀ {s s' : TokenStream}, s.Annotates s' → stream s → stream s'
  advanced : ∀ {s : TokenStream}, stream s → stream s.advanced
  braces : ∀ {s s' : TokenStream} {code : String},
    behindBraces s = .ok (code, s') → stream s → stream s'
  converted : ∀ {s : TokenStream}, s.current.kind = .int → stream s →
    stream ((intValue s.current.literal).run s).2
  quoted : ∀ {s : TokenStream}, s.current.kind = .string → stream s →
    value (.string s.current.literal s.current.position) (s.current.position.shifted 1)
  plain : ∀ {v : AttributeValue} {p : Position}, v.isPlain → value v p
  captured : ∀ {s : TokenStream}, s.current.kind.startsStatement → stream s →
    statement (goStatement.run s).1.code (goStatement.run s).1.position

variable {α β σ : Type} {I : Invariant} {p p' : α → Prop} {q q' : β → Prop}

/-! ## Readers -/

/-- What a reader does to one stream: it keeps the invariant, and `p` holds of
what it gives. -/
def SoundAt (I : Invariant) (s : TokenStream) (r : Parse α) (p : α → Prop) : Prop :=
  I.stream (r.run s).2 ∧ p (r.run s).1

/-- **A reader is sound** for an invariant: it keeps it, and `p` holds of what
it gives. -/
def Sound (I : Invariant) (r : Parse α) (p : α → Prop) : Prop :=
  ∀ s : TokenStream, I.stream s → SoundAt I s r p

/-- A reader that is sound, whatever it gives. -/
abbrev Safe (I : Invariant) (r : Parse α) : Prop :=
  Sound I r fun _ => True

namespace Sound

theorem pure {a : α} (h : p a) : Sound I (pure a) p :=
  fun _ hs => ⟨hs, h⟩

theorem safe {a : α} : Safe I (Pure.pure a : Parse α) :=
  .pure trivial

/-- A reader that gives nothing. -/
theorem nothing : Sound I (Pure.pure none : Parse (Option α)) fun r => ∀ a ∈ r, p a :=
  .pure fun _ h => absurd h (Option.not_mem_none _)

/-- A reader that gives something. -/
theorem something {a : α} (h : p a) :
    Sound I (Pure.pure (some a) : Parse (Option α)) fun r => ∀ a ∈ r, p a :=
  .pure fun _ ha => Option.mem_some.1 ha ▸ h

theorem bindAt {s : TokenStream} {r : Parse α} {f : α → Parse β} (hr : SoundAt I s r p)
    (hf : ∀ a, p a → Sound I (f a) q) : SoundAt I s (r >>= f) q :=
  hf _ hr.2 _ hr.1

theorem bind {r : Parse α} {f : α → Parse β} (hr : Sound I r p)
    (hf : ∀ a, p a → Sound I (f a) q) : Sound I (r >>= f) q :=
  fun s hs => bindAt (hr s hs) hf

/-- Composition behind a reader of whose result nothing is known. -/
theorem next {r : Parse α} {f : α → Parse β} (hr : Safe I r) (hf : ∀ a, Sound I (f a) q) :
    Sound I (r >>= f) q :=
  hr.bind fun a _ => hf a

theorem mono {r : Parse α} (h : Sound I r p) (hpp : ∀ a, p a → p' a) : Sound I r p' :=
  fun s hs => ⟨(h s hs).1, hpp _ (h s hs).2⟩

theorem toSafe {r : Parse α} (h : Sound I r p) : Safe I r :=
  h.mono fun _ _ => trivial

theorem ite {c : Prop} [Decidable c] {r r' : Parse α} (hr : Sound I r p) (hr' : Sound I r' p) :
    Sound I (if c then r else r') p := by
  split
  · exact hr
  · exact hr'

/-! ### Moves and notes -/

/-- What changes a stream as the invariant allows. -/
theorem change {f : TokenStream → TokenStream} (hf : ∀ s, I.stream s → I.stream (f s)) :
    Safe I (modify f) :=
  fun s hs => ⟨hf s hs, trivial⟩

/-- What takes notes. -/
theorem note {f : TokenStream → TokenStream} (hf : ∀ s : TokenStream, s.Annotates (f s)) :
    Safe I (modify f) :=
  .change fun s hs => I.noted (hf s) hs

/-- What a reader does that looks at the current token first. -/
theorem ofCurrent {f : Token → Parse α} (hf : ∀ s, I.stream s → SoundAt I s (f s.current) p) :
    Sound I (current >>= f) p :=
  fun s hs => hf s hs

/-- Or at its kind. -/
theorem ofKind {f : TokenKind → Parse α}
    (hf : ∀ s, I.stream s → SoundAt I s (f s.current.kind) p) : Sound I (kind >>= f) p :=
  fun s hs => hf s hs

theorem current : Safe I current :=
  fun _ hs => ⟨hs, trivial⟩

theorem kind : Safe I kind :=
  fun _ hs => ⟨hs, trivial⟩

theorem position : Safe I position :=
  fun _ hs => ⟨hs, trivial⟩

theorem get : Sound I (get : Parse TokenStream) I.stream :=
  fun _ hs => ⟨hs, hs⟩

theorem set {s : TokenStream} (hs : I.stream s) : Safe I (set s) :=
  fun _ _ => ⟨hs, trivial⟩

theorem advance : Safe I advance :=
  .change fun _ => I.advanced

theorem reportAt (place : Position) (f : GrammarFault) : Safe I (reportAt place f) :=
  .note fun s => .withError s place f

theorem report (f : GrammarFault) : Safe I (report f) :=
  .next .position fun _ => .reportAt _ f

theorem exhaust : Safe I exhaust :=
  .note .exhausted

theorem sourceText (start stop : Nat) : Safe I (sourceText start stop) :=
  fun _ hs => ⟨hs, trivial⟩

theorem trimmedText (start stop : Nat) : Safe I (trimmedText start stop) :=
  fun _ hs => ⟨hs, trivial⟩

theorem lexedOffset : Safe I lexedOffset :=
  fun _ hs => ⟨hs, trivial⟩

/-! ### Loops -/

theorem scanUpTo (step : σ → Token → Option σ) (fuel : Nat) (a : σ) :
    Safe I (scanUpTo step fuel a) := by
  have hround : ∀ a, Safe I (scanRound step a) := fun a =>
    .next .current fun t => .ite .safe <| by
      cases step a t with
      | none => exact .safe
      | some a' => exact .next .advance fun _ => .safe
  induction fuel generalizing a with
  | zero => exact .next .exhaust fun _ => .safe
  | succ fuel ih =>
    refine .next (hround a) fun r => ?_
    cases r with
    | none => exact .safe
    | some a' => exact ih a'

theorem scan (step : σ → Token → Option σ) (a : σ) : Safe I (scan step a) :=
  .bind .get fun s _ => .scanUpTo step s.rounds a

theorem skipWhile (f : Token → Bool) : Safe I (skipWhile f) :=
  .scan _ _

theorem skipNewlines : Safe I skipNewlines :=
  .skipWhile _

theorem advanceLine : Safe I advanceLine :=
  .next .advance fun _ => .skipNewlines

theorem expect (want : TokenKind) : Safe I (expect want) :=
  .next .kind fun _ => .ite (.next .advance fun _ => .safe) (.next (.report _) fun _ => .safe)

theorem expectLine (want : TokenKind) : Safe I (expectLine want) :=
  .next (.expect want) fun _ => .ite (.next .skipNewlines fun _ => .safe) .safe

/-- **A repetition** gives items that satisfy what those of each round do. -/
theorem repeated {round : Parse (Round α)} (h : Sound I round fun r => ∀ a ∈ r.items, p a) :
    Sound I (repeated round) fun items => ∀ a ∈ items, p a := by
  have hfuel : ∀ fuel, Sound I (repeatUpTo round fuel) fun items => ∀ a ∈ items, p a := fun fuel => by
    induction fuel with
    | zero => exact .next .exhaust fun _ => .pure fun _ ha => absurd ha List.not_mem_nil
    | succ fuel ih =>
      refine .bind h fun r hr => .ite (.bind ih fun rest hrest => .pure fun a ha => ?_) (.pure hr)
      exact (List.mem_append.1 ha).elim (hr a) (hrest a)
  exact .bind .get fun s _ => hfuel s.rounds

theorem safeRepeated {round : Parse (Round α)} (h : Safe I round) : Safe I (Parse.repeated round) :=
  (Sound.repeated (p := fun _ => True) (h.mono fun _ _ _ _ => trivial)).toSafe

/-! ### Comments -/

theorem leadingComments : Safe I leadingComments :=
  .next (.note .collected) fun _ => .bind .get fun s hs =>
    .ite .safe (.next (.set (I.noted (.withComments s _) hs)) fun _ => .safe)

theorem trailingComment (line : Nat) : Safe I (trailingComment line) := by
  refine .next (.note .collected) fun _ => .bind .get fun s hs => ?_
  cases s.comments with
  | nil => exact .safe
  | cons c rest => exact .ite (.next (.set (I.noted (.withComments s _) hs)) fun _ => .safe) .safe

theorem orphanComments : Safe I orphanComments :=
  .next .leadingComments fun g => by cases g <;> exact .safe

/-! ### Captures -/

theorem recover : Safe I recover :=
  .next .current fun _ => .next (.skipWhile _) fun _ => .note fun s => .recovered s _

theorem goFunc (start : Nat) (place : Position) : Safe I (goFunc start place) :=
  .next (.scan _ _) fun _ => .next .current fun _ => .ite
    (.next (.reportAt _ _) fun _ => .next .lexedOffset fun _ => .next (.sourceText _ _) fun _ => .safe)
    (.next (.sourceText _ _) fun _ => .next .advanceLine fun _ => .safe)

theorem goDecl : Safe I goDecl := by
  refine .next .current fun first => .next (.scan _ _) fun _ => .next .current fun t => ?_
  split
  · exact .next .lexedOffset fun _ => .next (.sourceText _ _) fun _ => .safe
  · exact .next (.sourceText _ _) fun _ => .next .skipNewlines fun _ => .safe
  · exact .next (.sourceText _ _) fun _ => .next .advanceLine fun _ => .safe

theorem goType : Safe I goType :=
  .next .current fun _ => .next (.scan _ _) fun _ => .next .current fun _ =>
    .ite (.next .lexedOffset fun _ => .trimmedText _ _) (.trimmedText _ _)

theorem goStatement : Safe I goStatement :=
  .next .current fun _ => .next (.scan _ _) fun _ => .next .current fun _ =>
    .ite (.next .lexedOffset fun _ => .next (.trimmedText _ _) fun _ => .safe)
      (.next (.trimmedText _ _) fun _ => .next .advance fun _ => .safe)

theorem goHeader : Safe I goHeader :=
  .next .current fun _ => .next (.skipWhile _) fun _ => .next .current fun _ => .trimmedText _ _

theorem goArguments : Safe I goArguments :=
  .next .current fun _ => .next (.scan _ _) fun _ => .next .current fun _ => .trimmedText _ _

/-- Reading the text between braces goes behind them, or passes the first one. -/
theorem bracedText : Safe I bracedText := by
  refine .bind .get fun s hs => ?_
  cases hb : behindBraces s with
  | ok r => exact .next (.set (I.braces hb hs)) fun _ => .safe
  | error f => exact .next (.report _) fun _ => .next .advance fun _ => .safe

theorem goExpr : Safe I goExpr :=
  .next .position fun _ => .next .bracedText fun code => by cases code <;> exact .safe

end Sound

end Parse

end Gsx
