import Gsx.Proofs.Lexer.Calls
/-!
# Between two tokens

What a lexer moves over on its way to a token is accounted for, character by
character: it is blank, it belongs to a comment that the lexer collects, or it
is in a block comment that never ends and is reported. The comments that are
collected stand in a row, so no character belongs to two of them.
-/

namespace Gsx

/-! ## Comments in a row -/

namespace Comment

/-- The offset behind a comment. -/
def endOffset (c : Comment) : Nat :=
  c.offset + c.text.toList.length

/-- Whether a comment has the character at an offset. -/
def covers (p : Nat) (c : Comment) : Bool :=
  decide (c.offset ≤ p) && decide (p < c.endOffset)

theorem covers_iff {p : Nat} {c : Comment} : c.covers p ↔ c.offset ≤ p ∧ p < c.endOffset := by
  rw [covers, Bool.and_eq_true, decide_eq_true_iff, decide_eq_true_iff]

/-- **Comments in a row** from one offset up to another: each of them starts
behind the end of the one before it. -/
def InRow (start : Nat) : List Comment → Nat → Prop
  | [], stop => start ≤ stop
  | c :: cs, stop => start ≤ c.offset ∧ InRow c.endOffset cs stop

namespace InRow

variable {start mid stop p : Nat} {cs cs' : List Comment}

theorem le (h : InRow start cs stop) : start ≤ stop := by
  induction cs generalizing start with
  | nil => exact h
  | cons c cs ih =>
    have hstart : start ≤ c.offset := h.1
    have hrest : c.endOffset ≤ stop := ih h.2
    have hend : c.offset ≤ c.endOffset := Nat.le_add_right _ _
    omega

/-- A row may start earlier. -/
theorem of_le (h : InRow mid cs stop) (hle : start ≤ mid) : InRow start cs stop := by
  cases cs with
  | nil => exact Nat.le_trans hle h
  | cons c cs => exact ⟨Nat.le_trans hle h.1, h.2⟩

theorem append (h : InRow start cs mid) (h' : InRow mid cs' stop) :
    InRow start (cs ++ cs') stop := by
  induction cs generalizing start with
  | nil => exact h'.of_le h
  | cons c cs ih => exact ⟨h.1, ih h.2⟩

theorem of_mem (h : InRow start cs stop) {c : Comment} (hc : c ∈ cs) :
    start ≤ c.offset ∧ c.endOffset ≤ stop := by
  induction cs generalizing start with
  | nil => exact absurd hc List.not_mem_nil
  | cons d cs ih =>
    rcases List.mem_cons.1 hc with rfl | hc
    · exact ⟨h.1, h.2.le⟩
    · have hstart : start ≤ d.offset := h.1
      have hend : d.offset ≤ d.endOffset := Nat.le_add_right _ _
      obtain ⟨hge, hle⟩ := ih h.2 hc
      exact ⟨by omega, hle⟩

/-- No comment of a row has a character before the row. -/
theorem countP_eq_zero (h : InRow start cs stop) (hp : p < start) :
    cs.countP (covers p) = 0 := by
  refine List.countP_eq_zero.2 fun c hc hcovers => ?_
  have hge := (h.of_mem hc).1
  have hle := (covers_iff.1 hcovers).1
  omega

/-- No character belongs to two comments of a row. -/
theorem countP_le_one (h : InRow start cs stop) (p : Nat) : cs.countP (covers p) ≤ 1 := by
  induction cs generalizing start with
  | nil => exact Nat.zero_le _
  | cons c cs ih =>
    rw [List.countP_cons]
    split
    · next hcovers =>
      have hrest := countP_eq_zero h.2 (covers_iff.1 hcovers).2
      omega
    · exact ih h.2

/-- The comment that has a character is the only one. -/
theorem countP_eq_one (h : InRow start cs stop) {c : Comment} (hc : c ∈ cs)
    (hcovers : c.covers p) : cs.countP (covers p) = 1 := by
  have hpos : 0 < cs.countP (covers p) := List.countP_pos_iff.2 ⟨c, hc, hcovers⟩
  have hle := h.countP_le_one p
  omega

end InRow

end Comment

/-! ## Unclosed comments -/

/-- **A block comment that never ends** starts at an offset. -/
def IsOpenComment (source : List Char) (q : Nat) : Prop :=
  ∃ rest, source.drop q = '/' :: '*' :: rest ∧ ¬['*', '/'] <:+: rest

/-- Whether the character at an offset is blank. -/
def IsBlankAt (source : List Char) (p : Nat) : Prop :=
  source[p]? = some ' ' ∨ source[p]? = some '\t' ∨ source[p]? = some '\r'

namespace Lexer

/-- A comment that is not closed has no closing marker. -/
theorem not_infix_of_blockLength? {cs : List Char} (h : blockLength? cs = none) :
    ¬['*', '/'] <:+: cs := by
  fun_induction blockLength? cs with
  | case1 => exact fun hin => absurd (List.infix_nil.1 hin) (List.cons_ne_nil _ _)
  | case2 => cases h
  | case3 c rest hne ih =>
    intro hin
    rcases List.infix_cons_iff.1 hin with hprefix | hin
    · obtain ⟨tail, htail⟩ := hprefix
      obtain ⟨rfl, hrest⟩ := List.cons.inj htail
      exact hne tail rfl hrest.symm
    · exact ih (Option.map_eq_none_iff.1 h) hin

/-- **A lexer that has met an unclosed comment**: it has reported it where it
starts, and nothing is left to read. -/
structure EndsOpen (l : Lexer) (q : Nat) : Prop where
  isOpen : IsOpenComment l.source q
  reported : .error l.name (.ofOffset l.source q) LexicalFault.unterminatedComment.message
    ∈ l.diagnostics
  rest_eq : l.cursor.rest = []

variable {l m n : Lexer}

/-- **A lexer that has gone on**: it may have found more comments, all of them
between the two places of its cursor, and more errors, which nothing else is. -/
structure Grows (l m : Lexer) : Prop where
  name_eq : m.name = l.name
  source_eq : m.source = l.source
  cursor : m.cursor.IsIn l.source
  pending : ∃ cs, m.pending = l.pending ++ cs
    ∧ Comment.InRow l.cursor.offset cs m.cursor.offset
  diagnostics : ∃ ds, m.diagnostics = l.diagnostics ++ ds ∧ ∀ d ∈ ds, d.isError

namespace Grows

theorem le_offset (h : Grows l m) : l.cursor.offset ≤ m.cursor.offset :=
  h.pending.choose_spec.2.le

theorem pending_subset (h : Grows l m) : l.pending ⊆ m.pending := by
  obtain ⟨cs, hcs, -⟩ := h.pending
  rw [hcs]
  exact List.subset_append_left _ _

theorem diagnostics_subset (h : Grows l m) : l.diagnostics ⊆ m.diagnostics := by
  obtain ⟨ds, hds, -⟩ := h.diagnostics
  rw [hds]
  exact List.subset_append_left _ _

theorem refl (h : l.cursor.IsIn l.source) : Grows l l :=
  ⟨rfl, rfl, h, ⟨[], (List.append_nil _).symm, Nat.le_refl _⟩, [], (List.append_nil _).symm,
    fun _ hd => absurd hd List.not_mem_nil⟩

theorem trans (h : Grows l m) (h' : Grows m n) : Grows l n := by
  obtain ⟨cs, hcs, hrow⟩ := h.pending
  obtain ⟨cs', hcs', hrow'⟩ := h'.pending
  obtain ⟨ds, hds, herrors⟩ := h.diagnostics
  obtain ⟨ds', hds', herrors'⟩ := h'.diagnostics
  exact ⟨h'.name_eq.trans h.name_eq, h'.source_eq.trans h.source_eq, h.source_eq ▸ h'.cursor,
    ⟨cs ++ cs', by rw [hcs', hcs, List.append_assoc], hrow.append hrow'⟩,
    ⟨ds ++ ds', by rw [hds', hds, List.append_assoc], fun d hd =>
      (List.mem_append.1 hd).elim (herrors d) (herrors' d)⟩⟩

/-- Steps over what is no comment. -/
theorem of_advance (h : l.cursor.IsIn l.source) {k : Nat} (hname : m.name = l.name)
    (hsource : m.source = l.source) (hcursor : m.cursor = l.cursor.advance k)
    (hpending : m.pending = l.pending)
    (hdiagnostics : ∃ ds, m.diagnostics = l.diagnostics ++ ds ∧ ∀ d ∈ ds, d.isError) :
    Grows l m := by
  refine ⟨hname, hsource, hcursor ▸ h.advance k,
    ⟨[], hpending.trans (List.append_nil _).symm, ?_⟩, hdiagnostics⟩
  rw [hcursor, Cursor.offset_advance]
  exact Nat.le_add_right _ _

end Grows

/-- **What lies between two places of a lexer** that has read no token in
between. -/
structure Crosses (l m : Lexer) : Prop extends Grows l m where
  quiet : m.pending = l.pending → m.lastCommentLine = l.lastCommentLine
  accounted : ∀ p, l.cursor.offset ≤ p → p < m.cursor.offset →
    IsBlankAt l.source p ∨ (∃ c ∈ m.pending, c.covers p) ∨ ∃ q ≤ p, m.EndsOpen q

namespace Crosses

theorem refl (h : l.cursor.IsIn l.source) : Crosses l l :=
  ⟨.refl h, fun _ => rfl, fun _ hle hlt => absurd hlt (Nat.not_lt.2 hle)⟩

/-- An unclosed comment that was met stays the last thing. -/
theorem endsOpen (h : Crosses l m) {q : Nat} (hq : l.EndsOpen q) (hl : l.cursor.IsIn l.source) :
    m.EndsOpen q := by
  refine ⟨h.source_eq ▸ hq.isOpen, ?_, ?_⟩
  · rw [h.name_eq, h.source_eq]
    exact h.diagnostics_subset hq.reported
  · have hend := hl.offset_eq hq.rest_eq
    have hle := h.le_offset
    rw [h.cursor.rest_eq, List.drop_eq_nil_iff]
    omega

theorem trans (h : Crosses l m) (h' : Crosses m n) : Crosses l n := by
  refine ⟨h.toGrows.trans h'.toGrows, fun hsame => ?_, fun p hle hlt => ?_⟩
  · obtain ⟨cs, hcs, -⟩ := h.pending
    obtain ⟨cs', hcs', -⟩ := h'.pending
    have hnone : cs ++ cs' = [] := by
      rw [hcs', hcs, List.append_assoc] at hsame
      exact List.append_right_eq_self.1 hsame
    obtain ⟨rfl, rfl⟩ := List.append_eq_nil_iff.1 hnone
    exact (h'.quiet (hcs'.trans (List.append_nil _))).trans (h.quiet (hcs.trans (List.append_nil _)))
  · by_cases hp : p < m.cursor.offset
    · rcases h.accounted p hle hp with hblank | ⟨c, hc, hcovers⟩ | ⟨q, hq, hopen⟩
      · exact .inl hblank
      · exact .inr (.inl ⟨c, h'.pending_subset hc, hcovers⟩)
      · exact .inr (.inr ⟨q, hq, h'.endsOpen hopen (h.source_eq ▸ h.cursor)⟩)
    · exact h.source_eq ▸ h'.accounted p (Nat.not_lt.1 hp) hlt

/-- A blank. -/
theorem blank (h : l.cursor.IsIn l.source) {c : Char} {rest : List Char}
    (hrest : l.cursor.rest = c :: rest) (hblank : c = ' ' ∨ c = '\t' ∨ c = '\r') :
    Crosses l (l.step 1) := by
  have hoffset : (l.step 1).cursor.offset = l.cursor.offset + 1 := by
    rw [step, Cursor.offset_advance, hrest, List.length_cons]
    omega
  have hchar : l.source[l.cursor.offset]? = some c := by
    rw [← h.current?_eq, Cursor.current?, hrest]
    rfl
  refine ⟨.of_advance h rfl rfl rfl rfl ⟨[], (List.append_nil _).symm,
    fun _ hd => absurd hd List.not_mem_nil⟩, fun _ => rfl, fun p hle hlt => .inl ?_⟩
  obtain rfl : p = l.cursor.offset := by omega
  rw [IsBlankAt, hchar]
  rcases hblank with rfl | rfl | rfl
  · exact .inl rfl
  · exact .inr (.inl rfl)
  · exact .inr (.inr rfl)

/-- A comment takes up all the characters that are moved over. -/
theorem collect (h : l.cursor.IsIn l.source) (isBlock : Bool) {n : Nat}
    (hn : n ≤ l.cursor.rest.length) : Crosses l (l.collect isBlock n) := by
  have hoffset : (l.collect isBlock n).cursor.offset = l.cursor.offset + n := by
    change (l.cursor.advance n).offset = _
    rw [Cursor.offset_advance, Nat.min_eq_left hn]
  have hlength : (String.ofList (l.cursor.rest.take n)).toList.length = n := by
    rw [String.toList_ofList, List.length_take, Nat.min_eq_left hn]
  refine ⟨⟨rfl, rfl, h.advance n, ⟨_, rfl, Nat.le_refl _, ?_⟩, [], (List.append_nil _).symm,
    fun _ hd => absurd hd List.not_mem_nil⟩, fun hsame => ?_, fun p hle hlt => .inr (.inl
      ⟨_, List.mem_append_right _ (List.mem_singleton.2 rfl), ?_⟩)⟩
  · rw [hoffset]
    exact Nat.le_of_eq (congrArg (l.cursor.offset + ·) hlength)
  · exact absurd (List.append_right_eq_self.1 hsame) (List.cons_ne_nil _ _)
  · refine Comment.covers_iff.2 ⟨hle, ?_⟩
    rw [hoffset] at hlt
    exact Nat.lt_of_lt_of_eq hlt (congrArg (l.cursor.offset + ·) hlength.symm)

/-- An unclosed comment is reported where it starts. -/
theorem unclosed (h : l.cursor.IsIn l.source) {rest : List Char}
    (hrest : l.cursor.rest = '/' :: '*' :: rest) (hopen : blockLength? rest = none) :
    Crosses l ((l.report l.cursor.position .unterminatedComment).step (rest.length + 2)) := by
  have hlt : l.cursor.offset < l.source.length :=
    h.offset_lt (by rw [hrest]; exact List.cons_ne_nil _ _)
  have hends : ((l.report l.cursor.position .unterminatedComment).step
      (rest.length + 2)).EndsOpen l.cursor.offset := by
    refine ⟨⟨rest, h.rest_eq ▸ hrest, not_infix_of_blockLength? hopen⟩, ?_, ?_⟩
    · refine List.mem_append_right _ (List.mem_singleton.2 ?_)
      change Diagnostic.error l.name (.ofOffset l.source l.cursor.offset) _ = _
      rw [h.position_eq hlt]
    · change (l.cursor.advance (rest.length + 2)).rest = []
      rw [Cursor.rest_advance, hrest]
      exact List.drop_of_length_le (Nat.le_refl _)
  refine ⟨.of_advance h rfl rfl rfl rfl ⟨_, rfl, fun d hd => ?_⟩, fun _ => rfl,
    fun p hp _ => .inr (.inr ⟨_, hp, hends⟩)⟩
  rw [List.mem_singleton.1 hd]
  rfl

/-- One move over blanks or a comment. -/
theorem skipOne? (h : l.cursor.IsIn l.source) (hs : l.skipOne? = some m) : Crosses l m := by
  cases skips_of_skipOne? hs with
  | blank hrest hblank => exact .blank h hrest hblank
  | line hrest => exact .collect h false (length_line_le hrest)
  | block hrest hlength => exact .collect h true (length_block_le hrest hlength)
  | openBlock hrest hopen => exact .unclosed h hrest hopen

theorem skipUpTo (h : l.cursor.IsIn l.source) (fuel : Nat) :
    Crosses l (Lexer.skipUpTo fuel l) :=
  skipUpTo_induction (fun hm hs => hm.trans (.skipOne? (hm.source_eq ▸ hm.cursor) hs)) (.refl h) fuel

/-- **On the way to the next token.** -/
theorem skipTrivia (h : l.cursor.IsIn l.source) : Crosses l l.skipTrivia :=
  .skipUpTo h _

end Crosses

/-! ## The token itself -/

/-- What reading a lexeme leaves alone; errors only get more. -/
theorem emit_spec (l : Lexer) (x : Lexeme) :
    (l.emit x).2.name = l.name ∧ (l.emit x).2.source = l.source
      ∧ (l.emit x).2.pending = l.pending
      ∧ ∃ ds, (l.emit x).2.diagnostics = l.diagnostics ++ ds ∧ ∀ d ∈ ds, d.isError := by
  rw [Lexer.emit]
  cases x.fault with
  | none =>
    exact ⟨rfl, rfl, rfl, [], (List.append_nil _).symm, fun _ hd => absurd hd List.not_mem_nil⟩
  | some f =>
    refine ⟨rfl, rfl, rfl, _, rfl, fun d hd => ?_⟩
    rw [List.mem_singleton.1 hd]
    rfl

/-- A token finds no comments; they are found in front of it. -/
theorem grows_emit (h : l.skipTrivia.cursor.IsIn l.skipTrivia.source) :
    Grows l.skipTrivia l.next.2 := by
  obtain ⟨hname, hsource, hpending, hdiagnostics⟩ := emit_spec l.skipTrivia.startToken
    (lexemeAt l.skipTrivia.cursor.rest)
  exact .of_advance h hname hsource rfl hpending hdiagnostics

/-- **Reading a token.** -/
theorem grows_next (h : l.cursor.IsIn l.source) : Grows l l.next.2 :=
  have hcrosses := Crosses.skipTrivia h
  hcrosses.toGrows.trans (grows_emit (hcrosses.source_eq ▸ hcrosses.cursor))

end Lexer

end Gsx
