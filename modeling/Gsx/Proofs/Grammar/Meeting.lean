import Mathlib.Order.MinMax
import Gsx.Proofs.Grammar.Move
import Gsx.Proofs.Grammar.Plain
import Gsx.Proofs.Lexer.Window
/-!
# Two streams at one place

A text is read on its own by one stream and in its place by another. `Meets`
says that the two are at one place of the text: their tokens are the same but
for where they stand, and so is all that they have found. Every move that keeps
the first stream within the text keeps them together. Unless the text goes up to
the end of the source, the stream in the source may already look beyond the
text: its next token is then the first one of what follows.
-/

namespace Gsx

namespace TokenStream

/-! ## What a reader leads to -/

/-- **A stream in order whose tokens are lines' ends where lines end.** -/
structure Lined (s : TokenStream) : Prop extends InOrder s where
  current_newline : s.lexer.source[s.current.start]? = some '\n' → s.current.kind = .newline
  peek_newline : s.lexer.source[s.peek.start]? = some '\n' → s.peek.kind = .newline

/-- **The gap behind the last comment is filled** where the next token fills it, and
where the current one does, unless a comment may stand between the two. -/
structure Filled (s : TokenStream) : Prop where
  peek : Lexer.fillsGap s.peek.kind → s.lexer.lastCommentLine = 0
  current : Lexer.fillsGap s.current.kind → s.lexer.lastCommentLine = 0
    ∨ ∃ n, s.current.start ≤ n ∧ n < s.lexer.cursor.offset ∧ s.lexer.source[n]? = some '/'

/-- Nothing has been found wrong. -/
structure Clean (s : TokenStream) : Prop where
  diagnostics : s.diagnostics = []
  lexer : s.lexer.diagnostics = []
  interruption : s.interruption = none

instance (s : TokenStream) : Decidable s.Clean :=
  decidable_of_iff (s.diagnostics = [] ∧ s.lexer.diagnostics = [] ∧ s.interruption = none)
    ⟨fun ⟨hs, hlexer, hnone⟩ => ⟨hs, hlexer, hnone⟩, fun h => ⟨h.diagnostics, h.lexer, h.interruption⟩⟩

/-- **Where reading may lead**: it goes on in one source, and what has been found
wrong stays found. -/
structure Leads (s t : TokenStream) : Prop where
  lined : s.Lined → t.Lined
  source_eq : s.Lined → t.lexer.source = s.lexer.source
  start_le : s.Lined → s.current.start ≤ t.current.start
  exhausted : t.exhausted = false → s.exhausted = false
  clean : t.Clean → s.Clean
  filled : s.Lined → s.Filled → t.Filled

variable {s s' t t' : TokenStream}

/-- Whether a stream is in order depends on its tokens and on where its lexer
stands. -/
theorem InOrder.of_eq (h : s.InOrder) (hsource : t.lexer.source = s.lexer.source)
    (hcursor : t.lexer.cursor = s.lexer.cursor) (hcurrent : t.current = s.current)
    (hpeek : t.peek = s.peek) : t.InOrder where
  cursor := by rw [hcursor, hsource]; exact h.cursor
  current_le := by rw [hcurrent, hpeek]; exact h.current_le
  peek_le := by rw [hpeek, hcursor]; exact h.peek_le
  current_lt := by rw [hcurrent, hpeek]; exact h.current_lt
  peek_lt := by rw [hpeek, hcursor]; exact h.peek_lt
  current_end := by rw [hcurrent, hsource]; exact h.current_end
  peek_end := by rw [hpeek, hsource]; exact h.peek_end

theorem Lined.of_eq (h : s.Lined) (hsource : t.lexer.source = s.lexer.source)
    (hcursor : t.lexer.cursor = s.lexer.cursor) (hcurrent : t.current = s.current)
    (hpeek : t.peek = s.peek) : t.Lined where
  toInOrder := h.toInOrder.of_eq hsource hcursor hcurrent hpeek
  current_newline := by rw [hcurrent, hsource]; exact h.current_newline
  peek_newline := by rw [hpeek, hsource]; exact h.peek_newline

theorem Lined.advanced (h : s.Lined) : s.advanced.Lined where
  toInOrder := (advanced_spec h.toInOrder).1
  current_newline hline := by
    rw [(advanced_spec h.toInOrder).2] at hline
    exact h.peek_newline hline
  peek_newline hline := by
    rw [(advanced_spec h.toInOrder).2] at hline
    exact Lexer.newline_next h.cursor hline

/-- The gap behind a token that fills it, and the comments of the next one. -/
theorem Filled.of_next {l : Lexer} (hl : l.cursor.IsIn l.source)
    (hfills : Lexer.fillsGap s.current.kind → l.lastCommentLine = 0)
    (hstart : s.current.start ≤ l.cursor.offset) (hpeek : s.peek = l.next.1)
    (hlexer : s.lexer = l.next.2) : s.Filled := by
  have hfinds := Lexer.Finds.next hl
  refine ⟨fun h => ?_, fun h => ?_⟩
  · rw [hpeek] at h
    rw [hlexer]
    exact Lexer.lastCommentLine_next_of_fillsGap h
  · rw [hlexer]
    rcases hfinds.line with heq | hzero | ⟨n, hle, hlt, hslash⟩
    · exact .inl (heq.trans (hfills h))
    · exact .inl hzero
    · exact .inr ⟨n, hstart.trans hle, hlt, hfinds.source_eq.symm ▸ hslash⟩

theorem Filled.advanced (hs : s.Lined) (h : s.Filled) : s.advanced.Filled :=
  .of_next hs.cursor h.peek hs.peek_le rfl rfl

/-- Two tokens read one after the other from a cursor in its source. -/
theorem filled_of_next {l : Lexer} (hl : l.cursor.IsIn l.source) (hcurrent : s.current = l.next.1)
    (hpeek : s.peek = l.next.2.next.1) (hlexer : s.lexer = l.next.2.next.2) : s.Filled := by
  have hreads := Lexer.reads_next hl
  refine .of_next (hreads.source_eq.symm ▸ hreads.cursor) (fun h => ?_) ?_ hpeek hlexer
  · rw [hcurrent] at h
    exact Lexer.lastCommentLine_next_of_fillsGap h
  · rw [hcurrent]
    exact hreads.start_le

/-- Two tokens read from a cursor in its source. -/
theorem lined_of_next {l : Lexer} (hl : l.cursor.IsIn l.source)
    (hcurrent : s.current = l.next.1) (hpeek : s.peek = l.next.2.next.1)
    (hlexer : s.lexer = l.next.2.next.2) : s.Lined := by
  obtain ⟨hin, hsource, -⟩ := inOrder_of_next hl hcurrent hpeek hlexer
  have hreads := Lexer.reads_next hl
  refine ⟨hin, fun hline => ?_, fun hline => ?_⟩
  · rw [hsource, hcurrent] at hline
    rw [hcurrent]
    exact Lexer.newline_next hl hline
  · rw [hsource, hpeek, ← hreads.source_eq] at hline
    rw [hpeek]
    exact Lexer.newline_next (hreads.source_eq.symm ▸ hreads.cursor) hline

namespace Leads

theorem refl : Leads s s :=
  ⟨id, fun _ => rfl, fun _ => le_rfl, id, id, fun _ => id⟩

theorem trans (h : Leads s s') (h' : Leads s' t) : Leads s t where
  lined hs := h'.lined (h.lined hs)
  source_eq hs := (h'.source_eq (h.lined hs)).trans (h.source_eq hs)
  start_le hs := (h.start_le hs).trans (h'.start_le (h.lined hs))
  exhausted ht := h.exhausted (h'.exhausted ht)
  clean ht := h.clean (h'.clean ht)
  filled hs hfilled := h'.filled (h.lined hs) (h.filled hs hfilled)

/-- A note changes neither the tokens nor the lexer. -/
theorem of_note (hlexer : t.lexer = s.lexer) (hcurrent : t.current = s.current)
    (hpeek : t.peek = s.peek) (hexhausted : t.exhausted = false → s.exhausted = false)
    (hdiagnostics : t.diagnostics = [] → s.diagnostics = [])
    (hinterruption : t.interruption = none → s.interruption = none) : Leads s t where
  lined hs := hs.of_eq (congrArg _ hlexer) (congrArg _ hlexer) hcurrent hpeek
  source_eq _ := by rw [hlexer]
  start_le _ := by rw [hcurrent]
  exhausted := hexhausted
  clean ht := ⟨hdiagnostics ht.diagnostics, by rw [← hlexer]; exact ht.lexer,
    hinterruption ht.interruption⟩
  filled _ hs := by
    obtain ⟨hnext, hthis⟩ := hs
    rw [← hpeek, ← hlexer] at hnext
    rw [← hcurrent, ← hlexer] at hthis
    exact ⟨hnext, hthis⟩

theorem advanced (s : TokenStream) : Leads s s.advanced where
  lined hs := hs.advanced
  source_eq hs := (advanced_spec hs.toInOrder).2
  start_le hs := hs.current_le
  exhausted := id
  clean ht := ⟨ht.diagnostics, Lexer.diagnostics_of_next ht.lexer, ht.interruption⟩
  filled hs h := h.advanced hs

theorem collected (s : TokenStream) : Leads s s.collected where
  lined hs := hs.of_eq rfl rfl rfl rfl
  source_eq _ := rfl
  start_le _ := le_rfl
  exhausted := id
  clean ht := ⟨ht.diagnostics, ht.lexer, ht.interruption⟩
  filled _ h := ⟨h.peek, h.current⟩

end Leads

theorem Leads.braces {code : String} (h : Parse.behindBraces s = .ok (code, t)) : Leads s t := by
  obtain ⟨m, hm, rfl⟩ := behindBraces_eq h
  obtain ⟨hsource, hcursor, -⟩ := Lexer.readBraces_spec hm
  refine ⟨fun _ => lined_of_next (l := m) (hsource ▸ hcursor) rfl rfl rfl,
    fun _ => (behindBraces_spec h).2.1, fun _ => (behindBraces_spec h).2.2.1.le, id,
    fun ht => ⟨ht.diagnostics, ?_, ht.interruption⟩,
    fun _ _ => filled_of_next (l := m) (hsource ▸ hcursor) rfl rfl rfl⟩
  rw [← Lexer.diagnostics_readBraces hm]
  exact Lexer.diagnostics_of_next (Lexer.diagnostics_of_next ht.lexer)

/-! ## Within the text -/

/-- **A stream within its text**, one that has met no bound. Unless the text goes
up to the end of the source, nothing is wrong and the stream is not at the end;
where comments count, it is not even at the last line end. -/
structure Within (o : Window) (s : TokenStream) : Prop where
  exhausted : s.exhausted = false
  clean : o.whole = false → s.Clean
  inside : o.whole = false → s.current.start + (if o.tidy then 1 else 0) < o.text.length

variable {o : Window}

theorem Leads.within (h : Leads s t) (hs : s.Lined) (ht : Within o t) : Within o s where
  exhausted := h.exhausted ht.exhausted
  clean hcut := h.clean (ht.clean hcut)
  inside hcut := Nat.lt_of_le_of_lt (Nat.add_le_add_right (h.start_le hs) _) (ht.inside hcut)

/-- Comments play no part in it. -/
theorem Within.of_comments {cs : List Comment} (h : Within o { s with comments := cs }) :
    Within o s :=
  ⟨h.exhausted, fun hcut => ⟨(h.clean hcut).diagnostics, (h.clean hcut).lexer,
    (h.clean hcut).interruption⟩, h.inside⟩

theorem Within.start_lt (h : Within o s) (hcut : o.whole = false) :
    s.current.start < o.text.length :=
  Nat.lt_of_le_of_lt (Nat.le_add_right _ _) (h.inside hcut)

/-! ## Two streams -/

/-- The tokens to come are the same: all of the next one stands in the text. -/
structure LooksInside (o : Window) (s s' : TokenStream) : Prop where
  fits : s.lexer.Fits o s'.lexer
  peek_eq : s'.peek = o.token s.peek
  kind_ne : o.whole = false → s.peek.kind ≠ .endOfInput
  last : o.whole = false → s.lexer.cursor.rest = [] → s.peek.start + 1 = o.text.length
  newline : o.whole = false → s.peek.start + 1 = o.text.length → s.peek.kind = .newline
  comments : o.tidy = true → List.Forall₂ o.SameComment s.comments s'.comments

/-- The current token is the last line end of the text, and the stream in the
source has its next token from behind the text. -/
structure LooksBeyond (o : Window) (s s' : TokenStream) : Prop where
  cut : o.whole = false
  last : s.current.start + 1 = o.text.length
  kind_eq : s.current.kind = .newline
  peek_kind : s.peek.kind = .endOfInput
  lexer : ∃ l l' : Lexer, l.Fits o l' ∧ l.cursor.rest = []
    ∧ s.lexer.diagnostics = l.next.2.diagnostics ∧ s'.peek = l'.next.1
    ∧ s'.lexer.cursor = l'.next.2.cursor ∧ s'.lexer.diagnostics = l'.next.2.diagnostics
    ∧ s'.lexer.lastCommentLine = l'.next.2.lastCommentLine

/-- **Two streams at one place of the text**: the first has read the text alone,
the second the text in its place. -/
structure Meets (o : Window) (s s' : TokenStream) : Prop where
  lined : s.Lined
  source_eq : s.lexer.source = o.text
  source_eq' : s'.lexer.source = o.source
  current_eq : s'.current = o.token s.current
  kind_ne : o.whole = false → s.current.kind ≠ .endOfInput
  messages_eq : s'.diagnostics.map (·.message) = o.notes ++ s.diagnostics.map (·.message)
  cause_eq : s'.interruption.map (·.cause) = s.interruption.map (·.cause)
  marks : ∀ c ∈ s'.comments ++ s'.lexer.pending, o.source[c.offset]? = some '/'
    ∧ c.offset < max (o.before.length + o.text.length) s'.lexer.cursor.offset
  ahead : LooksInside o s s' ∨ LooksBeyond o s s'

namespace Meets

/-- The current tokens are of one kind. -/
theorem same_kind (h : Meets o s s') : s'.current.kind = s.current.kind := by
  rw [h.current_eq]
  rfl

theorem start_le (h : Meets o s s') : s.current.start ≤ o.text.length :=
  h.source_eq ▸ h.lined.current_le_length

theorem start_lt (h : Meets o s s') (hne : s.current.kind ≠ .endOfInput) :
    s.current.start < o.text.length := by
  have := h.lined.cursor.offset_le
  rw [h.source_eq] at this
  exact (h.lined.current_lt hne).trans_le (h.lined.peek_le.trans this)

/-- Where comments count, both streams hold the same ones. -/
theorem comments_same (h : Meets o s s') (hin : Within o s) (htidy : o.tidy = true) :
    List.Forall₂ o.SameComment s.comments s'.comments := by
  rcases h.ahead with hinside | hbeyond
  · exact hinside.comments htidy
  · have hlt := hin.inside hbeyond.cut
    rw [if_pos htidy, hbeyond.last] at hlt
    exact absurd hlt (Nat.lt_irrefl _)

/-! ### Notes -/

/-- Comments are taken or left. -/
theorem withComments (h : Meets o s s') {cs cs' : List Comment} (hsub : cs' ⊆ s'.comments)
    (hsame : o.tidy = true → List.Forall₂ o.SameComment s.comments s'.comments →
      List.Forall₂ o.SameComment cs cs') :
    Meets o { s with comments := cs } { s' with comments := cs' } where
  lined := h.lined.of_eq rfl rfl rfl rfl
  source_eq := h.source_eq
  source_eq' := h.source_eq'
  current_eq := h.current_eq
  kind_ne := h.kind_ne
  messages_eq := h.messages_eq
  cause_eq := h.cause_eq
  marks c hc := h.marks c <| List.mem_append.2 <|
    (List.mem_append.1 hc).imp_left fun hmem => hsub hmem
  ahead := h.ahead.imp
    (fun hi => ⟨hi.fits, hi.peek_eq, hi.kind_ne, hi.last, hi.newline,
      fun htidy => hsame htidy (hi.comments htidy)⟩)
    (fun hb => ⟨hb.cut, hb.last, hb.kind_eq, hb.peek_kind, hb.lexer⟩)

theorem collected (h : Meets o s s') : Meets o s.collected s'.collected where
  lined := (Leads.collected s).lined h.lined
  source_eq := h.source_eq
  source_eq' := h.source_eq'
  current_eq := h.current_eq
  kind_ne := h.kind_ne
  messages_eq := h.messages_eq
  cause_eq := h.cause_eq
  marks c hc := h.marks c (by simpa [TokenStream.collected, Lexer.takeComments] using hc)
  ahead := h.ahead.imp
    (fun hi => ⟨⟨hi.fits.source_eq, hi.fits.source_eq', hi.fits.inside, hi.fits.inside',
        hi.fits.exact, hi.fits.cursor, hi.fits.messages_eq,
        fun htidy => ⟨.nil, (hi.fits.held htidy).2⟩⟩,
      hi.peek_eq, hi.kind_ne, hi.last, hi.newline,
      fun htidy => List.rel_append (hi.comments htidy) (hi.fits.held htidy).1⟩)
    (fun hb => ⟨hb.cut, hb.last, hb.kind_eq, hb.peek_kind, hb.lexer⟩)

/-- Both streams note the same fault. -/
theorem withError (h : Meets o s s') (p p' : Position) (f : GrammarFault) :
    Meets o (s.withError p f) (s'.withError p' f) where
  lined := h.lined.of_eq rfl rfl rfl rfl
  source_eq := h.source_eq
  source_eq' := h.source_eq'
  current_eq := h.current_eq
  kind_ne := h.kind_ne
  messages_eq := by
    simp only [TokenStream.withError, List.map_append, h.messages_eq, List.append_assoc]
    rfl
  cause_eq := h.cause_eq
  marks := h.marks
  ahead := h.ahead.imp
    (fun hi => ⟨hi.fits, hi.peek_eq, hi.kind_ne, hi.last, hi.newline, hi.comments⟩)
    (fun hb => ⟨hb.cut, hb.last, hb.kind_eq, hb.peek_kind, hb.lexer⟩)

/-- Both streams note the same interruption. -/
theorem interrupted (h : Meets o s s') (cause : NumberError) :
    Meets o { s with interruption := s.interruption <|> some ⟨cause, s.recoveries⟩ }
      { s' with interruption := s'.interruption <|> some ⟨cause, s'.recoveries⟩ } where
  lined := h.lined.of_eq rfl rfl rfl rfl
  source_eq := h.source_eq
  source_eq' := h.source_eq'
  current_eq := h.current_eq
  kind_ne := h.kind_ne
  messages_eq := h.messages_eq
  cause_eq := by
    have hcause := h.cause_eq
    cases hi : s.interruption with
    | none =>
      cases hi' : s'.interruption with
      | none => rfl
      | some i' =>
        rw [hi, hi'] at hcause
        cases hcause
    | some i =>
      cases hi' : s'.interruption with
      | none =>
        rw [hi, hi'] at hcause
        cases hcause
      | some i' =>
        rw [hi, hi'] at hcause
        exact hcause
  marks := h.marks
  ahead := h.ahead.imp
    (fun hi => ⟨hi.fits, hi.peek_eq, hi.kind_ne, hi.last, hi.newline, hi.comments⟩)
    (fun hb => ⟨hb.cut, hb.last, hb.kind_eq, hb.peek_kind, hb.lexer⟩)

/-- Restarts are not compared. -/
theorem recovered (h : Meets o s s') (rs rs' : List Recovery) :
    Meets o { s with recoveries := rs } { s' with recoveries := rs' } where
  lined := h.lined.of_eq rfl rfl rfl rfl
  source_eq := h.source_eq
  source_eq' := h.source_eq'
  current_eq := h.current_eq
  kind_ne := h.kind_ne
  messages_eq := h.messages_eq
  cause_eq := h.cause_eq
  marks := h.marks
  ahead := h.ahead.imp
    (fun hi => ⟨hi.fits, hi.peek_eq, hi.kind_ne, hi.last, hi.newline, hi.comments⟩)
    (fun hb => ⟨hb.cut, hb.last, hb.kind_eq, hb.peek_kind, hb.lexer⟩)

/-! ### Tokens -/

theorem offset_le {l l' : Lexer} (h : l.Fits o l') :
    l'.cursor.offset ≤ o.before.length + o.text.length := by
  have := h.inside.offset_le
  rw [h.cursor.offset_eq]
  omega

/-- **Two streams whose current tokens are at one place** of the text, and whose
next tokens are read from two lexers there. -/
theorem of_next {l l' : Lexer} (h : l.Fits o l') (hlined : t.Lined)
    (hpeek : t.peek = l.next.1) (hlexer : t.lexer = l.next.2)
    (hpeek' : t'.peek = l'.next.1) (hlexer' : t'.lexer = l'.next.2)
    (hcurrent : t'.current = o.token t.current)
    (hkind : o.whole = false → t.current.kind ≠ .endOfInput)
    (hlast : o.whole = false → l.cursor.rest = [] →
      t.current.start + 1 = o.text.length ∧ t.current.kind = .newline)
    (hclean : o.whole = false → t.lexer.diagnostics = [])
    (hmessages : t'.diagnostics.map (·.message) = o.notes ++ t.diagnostics.map (·.message))
    (hcause : t'.interruption.map (·.cause) = t.interruption.map (·.cause))
    (hmarks : ∀ c ∈ t'.comments ++ l'.pending, o.source[c.offset]? = some '/'
      ∧ c.offset < o.before.length + o.text.length)
    (hcomments : o.tidy = true → List.Forall₂ o.SameComment t.comments t'.comments) :
    Meets o t t' := by
  have hreads := Lexer.reads_next (l := l) (h.source_eq.symm ▸ h.inside)
  have hfinds := Lexer.Finds.next (l := l') (h.source_eq'.symm ▸ h.inside')
  refine ⟨hlined, ?_, ?_, hcurrent, hkind, hmessages, hcause, fun c hc => ?_, ?_⟩
  · rw [hlexer, hreads.source_eq, h.source_eq]
  · rw [hlexer', hfinds.source_eq, h.source_eq']
  · have hold : c ∈ t'.comments ++ l'.pending → o.source[c.offset]? = some '/'
        ∧ c.offset < max (o.before.length + o.text.length) t'.lexer.cursor.offset :=
      fun hmem => (hmarks c hmem).imp_right lt_max_of_lt_left
    rcases List.mem_append.1 hc with hc | hc
    · exact hold (List.mem_append_left _ hc)
    · rw [hlexer'] at hc
      rcases hfinds.pending c hc with hpending | ⟨hslash, hlt⟩
      · exact hold (List.mem_append_right _ hpending)
      · rw [h.source_eq'] at hslash
        exact ⟨hslash, lt_max_of_lt_right (hlexer'.symm ▸ hlt)⟩
  · by_cases hgo : o.whole = true ∨ l.cursor.rest ≠ []
    · have hnext : Lexer.SameNext o l l' := by
        refine h.next ?_
        cases hwhole : o.whole with
        | true => exact .inl rfl
        | false =>
          refine .inr ⟨hgo.resolve_left (Bool.eq_false_iff.1 hwhole), ?_⟩
          rw [← hlexer]
          exact hclean hwhole
      refine .inl ⟨?_, ?_, fun hcut => ?_, fun hcut hnil => ?_, fun hcut hend => ?_, hcomments⟩
      · rw [hlexer, hlexer']
        exact hnext.fits
      · rw [hpeek, hpeek']
        exact hnext.token_eq
      · rw [hpeek]
        exact hnext.kind_ne hcut
      · rw [hpeek]
        rw [hlexer] at hnil
        exact hnext.last hcut hnil
      · rw [hpeek] at hend ⊢
        exact hnext.newline hcut hend
    · obtain ⟨hcut, hnil⟩ := not_or.1 hgo
      have hcut := Bool.eq_false_iff.2 hcut
      have hnil := not_not.1 hnil
      obtain ⟨hstart, hnewline⟩ := hlast hcut hnil
      refine .inr ⟨hcut, hstart, hnewline, ?_, l, l', h, hnil, ?_, hpeek', ?_, ?_, ?_⟩
      · rw [hpeek]
        exact Lexer.kind_next_of_nil hnil
      · rw [hlexer]
      all_goals rw [hlexer']

/-- **Two streams that read their tokens at one place** of the text. Within the
text the first token is never beyond its end. -/
theorem of_fits {m m' k' : Lexer} (h : m.Fits o m') (hwithin : Within o t)
    (hcurrent : t.current = m.next.1) (hpeek : t.peek = m.next.2.next.1)
    (hlexer : t.lexer = m.next.2.next.2) (hcurrent' : t'.current = m'.next.1)
    (hk : m.next.2.Fits o m'.next.2 → m.next.2.Fits o k')
    (hpeek' : t'.peek = k'.next.1) (hlexer' : t'.lexer = k'.next.2)
    (hmessages : t'.diagnostics.map (·.message) = o.notes ++ t.diagnostics.map (·.message))
    (hcause : t'.interruption.map (·.cause) = t.interruption.map (·.cause))
    (hmarks : m.next.2.Fits o k' → ∀ c ∈ t'.comments ++ k'.pending,
      o.source[c.offset]? = some '/' ∧ c.offset < o.before.length + o.text.length)
    (hcomments : o.tidy = true → List.Forall₂ o.SameComment t.comments t'.comments) :
    Meets o t t' := by
  have hin : m.cursor.IsIn m.source := h.source_eq.symm ▸ h.inside
  have hclean : o.whole = false → t.lexer.diagnostics = [] :=
    fun hcut => (hwithin.clean hcut).lexer
  have hfirst : Lexer.SameNext o m m' := by
    refine h.next ?_
    cases hwhole : o.whole with
    | true => exact .inl rfl
    | false =>
      refine .inr ⟨fun hnil => ?_, ?_⟩
      -- the first token is in the text, so something of the text is left in front of it
      · have hlt := hwithin.start_lt hwhole
        have hle := (Lexer.reads_next hin).le_start
        rw [hcurrent] at hlt
        rw [h.inside.offset_eq hnil] at hle
        exact absurd hlt (Nat.not_lt.2 hle)
      · refine Lexer.diagnostics_of_next ?_
        rw [← hlexer]
        exact hclean hwhole
  refine of_next (hk hfirst.fits) (lined_of_next hin hcurrent hpeek hlexer) hpeek hlexer hpeek'
    hlexer' ?_ (fun hcut => ?_) (fun hcut hnil => ?_) hclean hmessages hcause
    (hmarks (hk hfirst.fits)) hcomments
  · rw [hcurrent', hcurrent]
    exact hfirst.token_eq
  · rw [hcurrent]
    exact hfirst.kind_ne hcut
  · rw [hcurrent]
    exact ⟨hfirst.last hcut hnil, hfirst.newline hcut (hfirst.last hcut hnil)⟩

/-- Comments that both streams hold stand in the text, unless the second looks
beyond it. -/
theorem marks_inside (h : Meets o s s') (hinside : LooksInside o s s') :
    ∀ c ∈ s'.comments ++ s'.lexer.pending, o.source[c.offset]? = some '/'
      ∧ c.offset < o.before.length + o.text.length := by
  intro c hc
  have hmark := h.marks c hc
  rwa [max_eq_left (offset_le hinside.fits)] at hmark

/-- **One token further**, within the text. -/
theorem advanced (h : Meets o s s') (hwithin : Within o s.advanced) :
    Meets o s.advanced s'.advanced := by
  rcases h.ahead with hinside | hbeyond
  · exact of_next hinside.fits h.lined.advanced rfl rfl rfl rfl hinside.peek_eq
      hinside.kind_ne
      (fun hcut hnil => ⟨hinside.last hcut hnil, hinside.newline hcut (hinside.last hcut hnil)⟩)
      (fun hcut => (hwithin.clean hcut).lexer) h.messages_eq h.cause_eq
      (h.marks_inside hinside) hinside.comments
  · -- the token behind the last line end is the end of the text
    have hlt := hwithin.start_lt hbeyond.cut
    have hend := h.lined.peek_end hbeyond.peek_kind
    change s.peek.start < _ at hlt
    rw [hend, h.source_eq] at hlt
    exact absurd hlt (Nat.lt_irrefl _)

/-- **Behind braces** that close in the text. -/
theorem behindBraces (h : Meets o s s') {code : String}
    (hs : Parse.behindBraces s = .ok (code, t)) (hwithin : Within o t) :
    ∃ t', Parse.behindBraces s' = .ok (code, t') ∧ Meets o t t' := by
  obtain ⟨m, hm, ht⟩ := behindBraces_eq hs
  rcases h.ahead with hinside | hbeyond
  · obtain ⟨m', hm', hfits⟩ := hinside.fits.readBraces hm
    have hm'' : s'.lexer.readBraces s'.current.start = .ok (code, m') := by
      rw [h.current_eq]
      exact hm'
    have hpending : m'.pending ⊆ s'.lexer.pending := Lexer.pending_readBraces hm''
    refine ⟨_, by rw [Parse.behindBraces, hm''], ?_⟩
    have hcurrent : s'.current.start = o.before.length + s.current.start := by
      rw [h.current_eq]
      rfl
    have hold : ∀ c ∈ s'.comments ++ m'.pending, o.source[c.offset]? = some '/'
        ∧ c.offset < o.before.length + o.text.length := fun c hc =>
      h.marks_inside hinside c <| List.mem_append.2 <|
        (List.mem_append.1 hc).imp_right fun hmem => hpending hmem
    subst ht
    refine of_fits hfits hwithin rfl rfl rfl rfl id rfl rfl h.messages_eq h.cause_eq
      (fun hnext c hc => ?_) (fun htidy => ?_)
    · have hfinds := Lexer.Finds.next (l := m') (hfits.source_eq'.symm ▸ hfits.inside')
      rcases List.mem_append.1 hc with hc | hc
      · exact hold c (List.mem_append_left _ (List.mem_filter.1 hc).1)
      · rcases hfinds.pending c hc with hc | ⟨hslash, hlt⟩
        · exact hold c (List.mem_append_right _ hc)
        · rw [hfits.source_eq'] at hslash
          exact ⟨hslash, hlt.trans_le (offset_le hnext)⟩
    · refine Lexer.Fits.filter_sameComment (hinside.comments htidy)
        (fun n => !(decide (s.current.start < n) && decide (n < m.cursor.offset)))
        (fun n => !(decide (s'.current.start < n) && decide (n < m'.cursor.offset))) fun n => ?_
      rw [hcurrent, hfits.cursor.offset_eq]
      simp
  · -- no brace stands at the last line end
    obtain ⟨cs, hcs⟩ := o.text_line hbeyond.cut
    have hstart : s.current.start = cs.length := by
      have := hbeyond.last
      rw [hcs, List.length_append, List.length_singleton] at this
      omega
    have hdrop : s.lexer.source.drop s.current.start = ['\n'] := by
      rw [h.source_eq, hcs, hstart, List.drop_left]
    rw [Lexer.readBraces_of_ne hdrop (by decide)] at hm
    cases hm

/-- Braces that do not close in the source. -/
theorem behindBraces_error (h : Meets o s s') (hwhole : o.whole = true) {f : BraceFault}
    (hs : Parse.behindBraces s = .error f) : Parse.behindBraces s' = .error f := by
  rw [behindBraces_eq_error_iff] at hs ⊢
  rcases h.ahead with hinside | hbeyond
  · rw [h.current_eq]
    exact hinside.fits.readBraces_error hwhole h.start_le hs
  · exact absurd hwhole (Bool.eq_false_iff.1 hbeyond.cut)

end Meets

end TokenStream

end Gsx
