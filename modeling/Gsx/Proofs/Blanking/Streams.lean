import Gsx.Proofs.Blanking.Lexers
import Gsx.Proofs.Blanking.Ranges
import Gsx.Proofs.Grammar.Meeting
import Gsx.Proofs.Lexer.Closing
/-!
# Two streams, one of them without the comments

A stream in a source and a stream in the source with comments made blank go side
by side: their tokens are alike and they note the same faults. What keeps them
together is what the first one does with these comments. Each of them is found in
front of a token, and stays with the stream until it is attached to a node. So it
is looked at from behind: where a comment that stands in front of the lexer is
held or attached, it has been held or attached all the way.
-/

namespace Gsx

/-- The brace that closes is a brace. -/
theorem Braces.getElem?_of_closingFrom {fuel depth : Nat} {cs : List Char} {n : Nat}
    (h : closingFrom fuel depth cs = some n) : cs[n]? = some '}' := by
  induction fuel generalizing depth cs n with
  | zero => cases h
  | succ fuel ih =>
    cases cs with
    | nil => cases h
    | cons c rest =>
      have hskip : ∀ {d k : Nat}, (closingFrom fuel d (rest.drop k)).map (· + (k + 1)) = some n →
          (c :: rest)[n]? = some '}' := fun hmap => by
        obtain ⟨i, hi, rfl⟩ := Option.map_eq_some_iff.1 hmap
        have hget := ih hi
        rw [List.getElem?_drop, Nat.add_comm] at hget
        rw [← Nat.add_assoc, List.getElem?_cons_succ]
        exact hget
      unfold closingFrom at h
      split at h
      · exact hskip (k := 0) h
      · split at h
        · cases h
          rfl
        · exact hskip (k := 0) h
      · exact hskip h
      · exact hskip h
      · exact hskip h
      · exact hskip (k := 0) h

namespace Lexer

variable {l : Lexer}

/-- The lexer behind the braces at an offset, when the text between them has some
length. -/
def behind (l : Lexer) (o n : Nat) : Lexer :=
  { l with
    pending := l.pending.filter (·.offset < o)
    cursor := (Cursor.start l.source).advance (o + n + 2) }

theorem offset_behind {o n : Nat} (h : o + n + 2 ≤ l.source.length) :
    (l.behind o n).cursor.offset = o + n + 2 := by
  rw [behind, Cursor.offset_advance]
  change 0 + min _ l.source.length = _
  omega

/-- A lexer at the start of a token reads this token and those behind it. -/
theorem token_at (h : l.cursor.IsIn l.source) (hlt : (l.token 0).start < l.source.length) (n : Nat) :
    (Lexer.at l.source (l.token 0).start).token n = l.token n := by
  have hskip := Crosses.skipTrivia h
  have hcursor : (Lexer.at l.source (l.token 0).start).cursor = l.skipTrivia.cursor :=
    show _ = Cursor.advance 0 l.skipTrivia.cursor from
      Cursor.advance_eq_advance (.start _) hskip.cursor (Nat.zero_lt_of_lt hlt) hlt
        (Nat.zero_add _) ((Nat.zero_add _).trans_le hlt.le)
  rw [token_congr hcursor, token, token]
  cases n with
  | zero => exact congrArg Prod.fst (next_skipTrivia l)
  | succ n =>
    rw [after, after, next_skipTrivia]

/-- Behind an opening brace a lexer has read up to where one looks ahead. -/
theorem offset_after_brace (h : l.cursor.IsIn l.source) {rest : List Char}
    (hbrace : l.source.drop (l.token 0).start = '{' :: rest) :
    (after 2 l).cursor.offset = lookahead l.source (l.token 0).start := by
  have hskip := Crosses.skipTrivia h
  have hlt : (l.token 0).start < l.source.length := by
    have := congrArg List.length hbrace
    rw [List.length_drop, List.length_cons] at this
    omega
  have hone : l.next.2.cursor = l.skipTrivia.cursor.advance 1 := by
    have hrest : l.skipTrivia.cursor.rest = '{' :: rest := hskip.cursor.rest_eq.trans hbrace
    have hsteps : (lexemeAt l.skipTrivia.cursor.rest).steps = 1 := by
      rw [hrest]
      rfl
    change l.skipTrivia.cursor.advance (lexemeAt l.skipTrivia.cursor.rest).steps = _
    rw [hsteps]
  have hcursor : l.next.2.cursor = (Lexer.at l.source ((l.token 0).start + 1)).cursor :=
    hone.trans (Cursor.advance_eq_advance hskip.cursor (.start _) hlt (Nat.zero_lt_of_lt hlt)
      (Nat.zero_add _).symm hlt)
  exact congrArg Cursor.offset (next_congr hcursor).2

end Lexer

namespace Blanking

open TokenStream

variable {w : Blanking} {s s' t : TokenStream} {P Q : List Comment}

/-- Nothing in some ranges is made blank. -/
def Clear (w : Blanking) (rs : List SourceRange) : Prop :=
  ∀ r ∈ rs, ∀ i, r.start ≤ i → i < r.stop → ¬w.Hides i

theorem clear_append {rs rs' : List SourceRange} :
    w.Clear (rs ++ rs') ↔ w.Clear rs ∧ w.Clear rs' :=
  List.forall_mem_append

theorem clear_cons {r : SourceRange} {rs : List SourceRange} :
    w.Clear (r :: rs) ↔ w.Clear [r] ∧ w.Clear rs :=
  show w.Clear ([r] ++ rs) ↔ _ from clear_append

theorem clear_nil : w.Clear [] :=
  fun _ h => absurd h List.not_mem_nil

theorem Clear.mono {rs rs' : List SourceRange} (h : w.Clear rs) (hsub : rs' ⊆ rs) : w.Clear rs' :=
  fun r hr => h r (hsub hr)

/-! ## One stream -/

/-- The comments that a stream and its lexer have. -/
def held (s : TokenStream) : List Comment :=
  s.comments ++ s.lexer.pending

/-- **A stream in the source**, when some comments are attached to nodes. All
comments are such as a lexer finds, and those that are to be blank stand in front
of the lexer. -/
structure Stands (w : Blanking) (P : List Comment) (s : TokenStream) : Prop where
  source_eq : s.lexer.source = w.source
  isIn : s.lexer.cursor.IsIn w.source
  marked : ∀ c ∈ P ++ held s, c.IsMarked w.source
  placed : ∀ c ∈ w.comments, c ∈ P ++ held s → c.offset < s.lexer.cursor.offset

/-- The message for braces that never close. -/
def neverClosed : String :=
  (GrammarFault.unreadableBraces .neverClosed).message

/-- **Nothing is lost**: the comments that are to be blank and stand in front of
the lexer are attached or held, and braces of which it is noted that they never
close do not close when the comments are blank. -/
structure Kept (w : Blanking) (P : List Comment) (s : TokenStream) : Prop where
  found : ∀ c ∈ w.comments, c.offset < s.lexer.cursor.offset → c ∈ P ++ held s
  unclosed : ∀ d ∈ s.diagnostics, d.message = neverClosed →
    ∀ o, d.position = .ofOffset w.source o → Braces.closing? (w.result.drop (o + 1)) = none

/-- Comments change hands. -/
theorem Stands.of_held (h : w.Stands P s) (hsource : t.lexer.source = s.lexer.source)
    (hcursor : t.lexer.cursor = s.lexer.cursor) (hsub : Q ++ held t ⊆ P ++ held s) :
    w.Stands Q t where
  source_eq := hsource.trans h.source_eq
  isIn := hcursor ▸ h.isIn
  marked c hc := h.marked c (hsub hc)
  placed c hc hmem := hcursor ▸ h.placed c hc (hsub hmem)

theorem Kept.of_held (h : w.Kept Q t) (hcursor : t.lexer.cursor = s.lexer.cursor)
    (hdiagnostics : s.diagnostics ⊆ t.diagnostics) (hsub : Q ++ held t ⊆ P ++ held s) :
    w.Kept P s where
  found c hc hlt := hsub (h.found c hc (hcursor ▸ hlt))
  unclosed d hd := h.unclosed d (hdiagnostics hd)

/-! ## One token further -/

theorem Stands.isIn' (h : w.Stands P s) : s.lexer.cursor.IsIn s.lexer.source :=
  h.source_eq ▸ h.isIn

/-- What a stream has one token further: what it had, and what its lexer finds. -/
theorem Stands.held_advanced (h : w.Stands P s) {c : Comment} (hc : c ∈ P ++ held s.advanced) :
    c ∈ P ++ held s ∨ s.lexer.cursor.offset ≤ c.offset ∧ c ∈ s.lexer.next.2.pending := by
  obtain ⟨cs, hcs, hrow⟩ := (Lexer.grows_next h.isIn').pending
  have hheld : held s.advanced = s.comments ++ (s.lexer.pending ++ cs) :=
    congrArg (s.comments ++ ·) hcs
  rw [hheld, ← List.append_assoc s.comments, ← List.append_assoc P] at hc
  refine (List.mem_append.1 hc).imp_right fun hnew => ⟨(hrow.of_mem hnew).1, ?_⟩
  rw [hcs]
  exact List.mem_append_right _ hnew

theorem Stands.advanced (h : w.Stands P s) : w.Stands P s.advanced where
  source_eq := (Lexer.reads_next h.isIn').source_eq.trans h.source_eq
  isIn := h.source_eq ▸ (Lexer.reads_next h.isIn').cursor
  marked c hc := by
    rcases h.held_advanced hc with hold | ⟨-, hnew⟩
    · exact h.marked c hold
    · refine (Lexer.isMarked_next h.isIn' c hnew).elim (fun hold => ?_) fun hm => h.source_eq ▸ hm
      exact h.marked c (List.mem_append_right _ (List.mem_append_right _ hold))
  placed c hc hmem := by
    rcases h.held_advanced hmem with hold | ⟨hge, hnew⟩
    · exact (h.placed c hc hold).trans_le (Lexer.grows_next h.isIn').le_offset
    · refine ((Lexer.Finds.next h.isIn').pending c hnew).elim (fun hold => ?_) And.right
      have hlt := h.placed c hc (List.mem_append_right _ (List.mem_append_right _ hold))
      omega

theorem Kept.of_advanced (h : w.Kept P s.advanced) (hs : w.Stands P s) : w.Kept P s where
  found c hc hlt := by
    refine (hs.held_advanced (h.found c hc
      (hlt.trans_le (Lexer.grows_next hs.isIn').le_offset))).resolve_right fun hnew => ?_
    exact absurd hnew.1 (Nat.not_le.2 hlt)
  unclosed := h.unclosed

/-- The lexer finds the comments in front of the token that it reads. -/
theorem Kept.found_advanced (h : w.Kept P s.advanced) (hs : w.Stands P s) : w.Found s.lexer where
  old c hc hmem := hs.placed c hc (List.mem_append_right _ (List.mem_append_right _ hmem))
  new c hc hle hlt := by
    refine ((hs.held_advanced (h.found c hc hlt)).resolve_left fun hold => ?_).2
    exact absurd (hs.placed c hc hold) (Nat.not_lt.2 hle)

/-! ## Two streams -/

/-- **Two streams that go side by side**, the second one in the source with
comments made blank. -/
structure Twins (w : Blanking) (s s' : TokenStream) : Prop where
  beside : w.Beside s.lexer s'.lexer
  current : s.current.Alike s'.current
  peek : s.peek.Alike s'.peek
  whole : w.Whole s.current.start
  whole_peek : w.Whole s.peek.start
  said_eq : s'.diagnostics.map Diagnostic.plain = s.diagnostics.map Diagnostic.plain
  goes_iff : s'.interruption = none ↔ s.interruption = none

namespace Twins

/-- Two tokens are read, from two lexers beside each other. -/
theorem of_next {l l' : Lexer} (h : w.Beside l l') (hfound : w.Found l) (hfound' : w.Found l.next.2)
    (hcurrent : s.current = l.next.1) (hpeek : s.peek = l.next.2.next.1)
    (hlexer : s.lexer = l.next.2.next.2) (hcurrent' : s'.current = l'.next.1)
    (hpeek' : s'.peek = l'.next.2.next.1) (hlexer' : s'.lexer = l'.next.2.next.2)
    (hsaid : s'.diagnostics.map Diagnostic.plain = s.diagnostics.map Diagnostic.plain)
    (hgoes : s'.interruption = none ↔ s.interruption = none) : w.Twins s s' := by
  obtain ⟨htoken, hbeside, hwhole⟩ := h.next hfound
  obtain ⟨htoken', hbeside', hwhole'⟩ := hbeside.next hfound'
  rw [← hcurrent, ← hcurrent'] at htoken
  rw [← hpeek, ← hpeek'] at htoken'
  rw [← hlexer, ← hlexer'] at hbeside'
  exact ⟨hbeside', htoken, htoken', hcurrent ▸ hwhole, hpeek ▸ hwhole', hsaid, hgoes⟩

theorem advanced (h : w.Twins s s') (hs : w.Stands P s) (hkept : w.Kept P s.advanced) :
    w.Twins s.advanced s'.advanced := by
  obtain ⟨htoken, hbeside, hwhole⟩ := h.beside.next (hkept.found_advanced hs)
  exact ⟨hbeside, h.peek, htoken, h.whole_peek, hwhole, h.said_eq, h.goes_iff⟩

/-- Comments play no part in it. -/
theorem withComments (h : w.Twins s s') {cs cs' ps ps' : List Comment} :
    w.Twins { s with comments := cs, lexer := { s.lexer with pending := ps } }
      { s' with comments := cs', lexer := { s'.lexer with pending := ps' } } :=
  ⟨h.beside.of_eq rfl rfl rfl rfl rfl rfl rfl rfl, h.current, h.peek, h.whole, h.whole_peek,
    h.said_eq, h.goes_iff⟩

/-- Both streams note the same fault. -/
theorem withError (h : w.Twins s s') (p p' : Position) (f : GrammarFault) :
    w.Twins (s.withError p f) (s'.withError p' f) :=
  ⟨h.beside, h.current, h.peek, h.whole, h.whole_peek, by
    simp only [TokenStream.withError, List.map_append, h.said_eq, h.beside.name_eq]
    rfl, h.goes_iff⟩

end Twins

/-- A lexer that finds the comments in front of two tokens finds those in front
of each. -/
theorem Found.twice {l : Lexer} (hin : l.cursor.IsIn l.source)
    (hold : ∀ c ∈ w.comments, c ∈ l.pending → c.offset < l.cursor.offset)
    (hnew : ∀ c ∈ w.comments, l.cursor.offset ≤ c.offset →
      c.offset < l.next.2.next.2.cursor.offset → c ∈ l.next.2.next.2.pending) :
    w.Found l ∧ w.Found l.next.2 := by
  have hone := Lexer.Finds.next hin
  have hin' : l.next.2.cursor.IsIn l.next.2.source := hone.source_eq.symm ▸ hone.cursor
  refine ⟨⟨hold, fun c hc hge hlt => ?_⟩, fun c hc hmem => ?_, fun c hc hge hlt => ?_⟩
  · obtain ⟨cs, hcs, hrow⟩ := (Lexer.grows_next hin').pending
    have hmem := hnew c hc hge (hlt.trans_le (Lexer.grows_next hin').le_offset)
    rw [hcs] at hmem
    exact (List.mem_append.1 hmem).resolve_right fun hlate =>
      absurd (hrow.of_mem hlate).1 (Nat.not_le.2 hlt)
  · exact (hone.pending c hmem).elim (fun hmem => (hold c hc hmem).trans_le hone.le_offset)
      And.right
  · exact hnew c hc (hone.le_offset.trans hge) hlt

/-! ## Text between braces -/

/-- **A stream that goes behind braces**, the text between them being of some
length. Its lexer goes on from the one behind the closing brace. -/
structure Jumps (w : Blanking) (s t : TokenStream) (n : Nat) (m : Lexer) : Prop where
  opening : ∃ rest, w.source.drop s.current.start = '{' :: rest ∧ Braces.closing? rest = some n
  looked : s.lexer.cursor.offset = lookahead w.source s.current.start
  source_eq : m.source = w.source
  isIn : m.cursor.IsIn w.source
  stop_eq : m.cursor.offset = s.current.start + n + 2
  pending : ∀ c ∈ m.pending, c ∈ s.lexer.pending
  comments : ∀ c ∈ t.comments, c ∈ s.comments
  current : t.current = m.next.1
  peek : t.peek = m.next.2.next.1
  lexer : t.lexer = m.next.2.next.2
  diagnostics : t.diagnostics = s.diagnostics
  interruption : t.interruption = s.interruption

namespace Jumps

variable {n : Nat} {m : Lexer}

theorem isIn' (h : Jumps w s t n m) : m.cursor.IsIn m.source :=
  h.source_eq ▸ h.isIn

theorem grows (h : Jumps w s t n m) : m.Grows t.lexer := by
  have hone := Lexer.grows_next h.isIn'
  exact h.lexer ▸ hone.trans (Lexer.grows_next (hone.source_eq.symm ▸ hone.cursor))

theorem finds (h : Jumps w s t n m) : m.Finds t.lexer := by
  have hone := Lexer.Finds.next h.isIn'
  exact h.lexer ▸ hone.trans (Lexer.Finds.next (hone.source_eq.symm ▸ hone.cursor))

theorem mem_of_pending (h : Jumps w s t n m) {c : Comment} (hc : c ∈ m.pending) :
    c ∈ P ++ held s :=
  List.mem_append_right _ (List.mem_append_right _ (h.pending c hc))

/-- What a stream has behind braces it had before, or finds there. -/
theorem held_or (h : Jumps w s t n m) {c : Comment} (hc : c ∈ P ++ held t) :
    c ∈ P ++ held s ∨ m.cursor.offset ≤ c.offset ∧ c ∈ t.lexer.pending := by
  obtain ⟨cs, hcs, hrow⟩ := h.grows.pending
  rcases List.mem_append.1 hc with hc | hc
  · exact .inl (List.mem_append_left _ hc)
  rcases List.mem_append.1 hc with hc | hc
  · exact .inl (List.mem_append_right _ (List.mem_append_left _ (h.comments c hc)))
  · rcases List.mem_append.1 (hcs ▸ hc) with hold | hnew
    · exact .inl (h.mem_of_pending hold)
    · exact .inr ⟨(hrow.of_mem hnew).1, hc⟩

/-- No comment in front of the lexer stands behind the closing brace. -/
theorem offset_lt (h : Jumps w s t n m) {c : Comment} (hc : c ∈ w.comments)
    (hlt : c.offset < s.lexer.cursor.offset) : c.offset < s.current.start + n + 1 := by
  obtain ⟨rest, hopening, hclosing⟩ := h.opening
  rcases Nat.lt_or_ge s.current.start c.offset with hbehind | hle
  · exact (w.closings _ n rest hopening hclosing c hc hbehind (h.looked ▸ hlt)).2
  · omega

theorem stands (h : Jumps w s t n m) (hs : w.Stands P s) : w.Stands P t where
  source_eq := h.grows.source_eq.trans h.source_eq
  isIn := h.source_eq ▸ h.grows.cursor
  marked c hc := by
    rcases h.held_or hc with hold | ⟨-, hnew⟩
    · exact hs.marked c hold
    · have hone := Lexer.grows_next h.isIn'
      rw [h.lexer] at hnew
      rcases Lexer.isMarked_next (hone.source_eq.symm ▸ hone.cursor) c hnew with hnew | hm
      · rcases Lexer.isMarked_next h.isIn' c hnew with hold | hm
        · exact hs.marked c (h.mem_of_pending hold)
        · exact h.source_eq ▸ hm
      · exact (hone.source_eq.trans h.source_eq) ▸ hm
  placed c hc hmem := by
    have hold : c ∈ P ++ held s → c.offset < t.lexer.cursor.offset := fun hold => by
      have hlt := h.offset_lt hc (hs.placed c hc hold)
      have hle := h.grows.le_offset
      have hstop := h.stop_eq
      omega
    rcases h.held_or hmem with hmem | ⟨-, hnew⟩
    · exact hold hmem
    · exact (h.finds.pending c hnew).elim (fun hmem => hold (h.mem_of_pending hmem)) And.right

/-- Up to the closing brace nothing new is found. -/
theorem mem_of_lt (h : Jumps w s t n m) {c : Comment} (hc : c ∈ P ++ held t)
    (hlt : c.offset < s.current.start + n + 2) : c ∈ P ++ held s :=
  (h.held_or hc).resolve_right fun hnew => absurd hnew.1 (Nat.not_le.2 (h.stop_eq ▸ hlt))

theorem kept (h : Jumps w s t n m) (hkept : w.Kept P t) : w.Kept P s where
  found c hc hlt := by
    have hbefore := h.offset_lt hc hlt
    have hle := h.grows.le_offset
    have hstop := h.stop_eq
    exact h.mem_of_lt (hkept.found c hc (by omega)) (by omega)
  unclosed d hd := hkept.unclosed d (h.diagnostics ▸ hd)

/-- The comments up to the closing brace are those in front of the lexer. -/
theorem lt_of_kept (h : Jumps w s t n m) (hs : w.Stands P s) (hkept : w.Kept P t) {c : Comment}
    (hc : c ∈ w.comments) (hlt : c.offset < s.current.start + n + 2) :
    c.offset < s.lexer.cursor.offset := by
  have hle := h.grows.le_offset
  have hstop := h.stop_eq
  exact hs.placed c hc (h.mem_of_lt (hkept.found c hc (by omega)) hlt)

theorem whole_succ (h : Jumps w s t n m) (hwhole : w.Whole s.current.start) :
    w.Whole (s.current.start + 1) := by
  obtain ⟨rest, hopening, -⟩ := h.opening
  refine hwhole.move (fun c hc hle hlt => ?_) (Nat.le_succ _)
  -- no comment starts with a brace
  have hslash := (w.marked c hc).slash
  have heq : c.offset = s.current.start := by omega
  rw [heq, ← List.head?_drop, hopening] at hslash
  exact absurd (Option.some.inj hslash) (by decide)

/-- **With the comments blank the same brace closes.** -/
theorem closing_result (h : Jumps w s t n m) (hs : w.Stands P s) (hkept : w.Kept P t)
    (hwhole : w.Whole s.current.start) :
    Braces.closing? (w.result.drop (s.current.start + 1)) = some n := by
  obtain ⟨rest, hopening, hclosing⟩ := h.opening
  by_cases hsome : ∃ c ∈ w.comments, s.current.start < c.offset
      ∧ c.offset < s.current.start + n + 2
  · obtain ⟨c, hc, hbehind, hlt⟩ := hsome
    refine (w.closings _ n rest hopening hclosing c hc hbehind ?_).1
    exact h.looked ▸ h.lt_of_kept hs hkept hc hlt
  · have hrest : w.source.drop (s.current.start + 1) = rest := by
      rw [← List.tail_drop, hopening, List.tail_cons]
    have hsame : (w.result.drop (s.current.start + 1)).take (n + 1) = rest.take (n + 1) := by
      rw [← hrest]
      refine take_drop_result (not_hides (h.whole_succ hwhole) fun c hc hle => ?_)
      refine Nat.le_of_not_lt fun hlt => hsome ⟨c, hc, hle, by omega⟩
    have hlength : n < (rest.take (n + 1)).length := by
      rw [List.length_take]
      have := Braces.closing?_lt hclosing
      omega
    rw [← List.take_append_drop (n + 1) rest] at hclosing
    rw [← List.take_append_drop (n + 1) (w.result.drop _), hsame]
    exact Braces.closing?_of_append hclosing hlength _

theorem whole_stop (h : Jumps w s t n m) (hs : w.Stands P s) (hkept : w.Kept P t)
    (hwhole : w.Whole s.current.start) : w.Whole (s.current.start + n + 2) := by
  refine (h.whole_succ hwhole).move (fun c hc hle hlt => Nat.le_of_not_lt fun hlate => ?_) (by omega)
  have hbefore := h.offset_lt hc (h.lt_of_kept hs hkept hc hlt)
  -- the closing brace would be blank
  have hbrace := Braces.getElem?_of_closingFrom (h.closing_result hs hkept hwhole)
  rw [List.getElem?_drop] at hbrace
  have hin : s.current.start + 1 + n < w.source.length := by
    rw [← length_result]
    exact (List.getElem?_eq_some_iff.1 hbrace).1
  rw [getElem?_of_hides ⟨c, hc, Comment.covers_iff.2 ⟨by omega, by omega⟩⟩ hin] at hbrace
  exact absurd (Option.some.inj hbrace) (by decide)

/-- Behind the braces the comments are found. -/
theorem found (h : Jumps w s t n m) (hs : w.Stands P s) (hkept : w.Kept P t) :
    w.Found m ∧ w.Found m.next.2 := by
  refine Found.twice h.isIn' (fun c hc hmem => ?_) fun c hc hge hlt => ?_
  · have hlt := h.offset_lt hc (hs.placed c hc (h.mem_of_pending hmem))
    have hstop := h.stop_eq
    omega
  · -- what comes behind the closing brace is found anew
    rw [← h.lexer] at hlt ⊢
    refine ((h.held_or (hkept.found c hc hlt)).resolve_left fun hmem => ?_).2
    have hbefore := h.offset_lt hc (hs.placed c hc hmem)
    have hstop := h.stop_eq
    omega

end Jumps

/-- Going behind braces is a jump. -/
theorem jumps_of_behindBraces (hs : w.Stands P s) {l : Lexer} (hl : s.Follows l) {code : String}
    (h : Parse.behindBraces s = .ok (code, t)) :
    ∃ n, w.Jumps s t n (s.lexer.behind s.current.start n)
      ∧ code = String.ofList ((w.source.drop (s.current.start + 1)).take n) := by
  obtain ⟨m, hm, rfl⟩ := behindBraces_eq h
  obtain ⟨rest, n, hopening, hclosing, hcode, hbehind⟩ := Lexer.exists_of_readBraces hm
  obtain rfl : m = s.lexer.behind s.current.start n := hbehind
  have hlength := congrArg List.length hopening
  rw [List.length_drop, List.length_cons] at hlength
  have hlt := Braces.closing?_lt hclosing
  have hlooked : s.lexer.cursor.offset = lookahead s.lexer.source s.current.start := by
    rw [hl.cursor, hl.source, hl.current]
    exact Lexer.offset_after_brace hl.isIn (by rw [← hl.source, ← hl.current, hopening])
  have hin : (s.lexer.behind s.current.start n).cursor.IsIn s.lexer.source :=
    (Cursor.IsIn.start _).advance _
  refine ⟨n, ⟨⟨rest, hs.source_eq ▸ hopening, hclosing⟩, hs.source_eq ▸ hlooked, hs.source_eq,
    hs.source_eq ▸ hin, Lexer.offset_behind (by omega), fun c hc => (List.mem_filter.1 hc).1,
    fun c hc => (List.mem_filter.1 hc).1, rfl, rfl, rfl, rfl, rfl⟩, ?_⟩
  rw [hcode, ← hs.source_eq, ← List.tail_drop, hopening, List.tail_cons]

/-- An opening brace is no part of a comment. -/
theorem drop_result_brace {p : Nat} {rest : List Char} (hwhole : w.Whole p)
    (h : w.source.drop p = '{' :: rest) : w.result.drop p = '{' :: w.result.drop (p + 1) := by
  have hbrace : w.source[p]? = some '{' := by
    rw [← List.head?_drop, h]
    rfl
  have hnone : ∀ i, p ≤ i → i < p + 1 → ¬w.Hides i := not_hides hwhole fun c hc hle => by
    refine Nat.lt_of_le_of_ne hle fun heq => ?_
    have hslash := (w.marked c hc).slash
    rw [← heq, hbrace] at hslash
    exact absurd (Option.some.inj hslash) (by decide)
  have hresult : w.result[p]? = some '{' :=
    (getElem?_of_not_hides (hnone p le_rfl (Nat.lt_succ_self p))).trans hbrace
  obtain ⟨hlt, hget⟩ := List.getElem?_eq_some_iff.1 hresult
  rw [List.drop_eq_getElem_cons hlt, hget]

/-- **Behind braces two streams stay side by side**, and the text is the same
where no comment in it is blank. -/
theorem Twins.behindBraces (h : w.Twins s s') (hs : w.Stands P s) {l : Lexer} (hl : s.Follows l)
    {code : String} (hb : Parse.behindBraces s = .ok (code, t)) (hkept : w.Kept P t) :
    ∃ code' t', Parse.behindBraces s' = .ok (code', t') ∧ w.Twins t t'
      ∧ (w.Clear (SourceRange.ofBraces w.source s.current.start) → code' = code) := by
  obtain ⟨n, hjump, hcode⟩ := jumps_of_behindBraces hs hl hb
  obtain ⟨hfound, hfound'⟩ := hjump.found hs hkept
  obtain ⟨rest, hopening, hclosing⟩ := hjump.opening
  have hread : s'.lexer.readBraces s'.current.start
      = .ok (String.ofList ((w.result.drop (s.current.start + 1)).take n),
        s'.lexer.behind s.current.start n) := by
    rw [← h.beside.source_eq', h.current.start_eq]
    refine Lexer.readBraces_of_closing? ?_ ?_ <;> rw [h.beside.source_eq']
    · exact drop_result_brace h.whole hopening
    · exact hjump.closing_result hs hkept h.whole
  have hle : s.current.start + n + 2 ≤ w.source.length := hjump.stop_eq ▸ hjump.isIn.offset_le
  have hbeside : w.Beside (s.lexer.behind s.current.start n) (s'.lexer.behind s.current.start n) :=
    { name_eq := h.beside.name_eq
      source_eq := h.beside.source_eq
      source_eq' := h.beside.source_eq'
      cursor := hjump.isIn
      cursor' := h.beside.source_eq' ▸ (Cursor.IsIn.start _).advance _
      offset_eq := by
        rw [hjump.stop_eq, Lexer.offset_behind (by rw [h.beside.source_eq', length_result]; exact hle)]
      whole := hjump.stop_eq ▸ hjump.whole_stop hs hkept h.whole
      said_eq := h.beside.said_eq }
  refine ⟨_, _, by rw [Parse.behindBraces, hread], ?_, fun hclear => ?_⟩
  · refine Twins.of_next hbeside hfound hfound' hjump.current hjump.peek hjump.lexer rfl rfl rfl ?_ ?_
    · rw [hjump.diagnostics]
      exact h.said_eq
    · rw [hjump.interruption]
      exact h.goes_iff
  · rw [hcode, take_drop_result fun i hle hlt => ?_]
    rw [SourceRange.ofBraces, hopening] at hclear
    simp only [hclosing] at hclear
    exact hclear _ (List.mem_singleton_self _) i (Nat.le_of_succ_le hle) (by simp only; omega)

/-- Braces that cannot be read cannot be read with the comments blank, unless they
close there. -/
theorem Twins.behindBraces_error (h : w.Twins s s') {f : BraceFault}
    (hb : Parse.behindBraces s = .error f) (hopen : f = .neverClosed →
      Braces.closing? (w.result.drop (s.current.start + 1)) = none) :
    Parse.behindBraces s' = .error f := by
  rw [behindBraces_eq_error_iff] at hb ⊢
  rw [h.current.start_eq]
  by_cases hbrace : ∃ rest, w.source.drop s.current.start = '{' :: rest
  · obtain ⟨rest, hbrace⟩ := hbrace
    cases hclosing : Braces.closing? rest with
    | some n =>
      rw [Lexer.readBraces_of_closing? (h.beside.source_eq ▸ hbrace) hclosing] at hb
      cases hb
    | none =>
      rw [Lexer.readBraces_of_not_closed (h.beside.source_eq ▸ hbrace) hclosing] at hb
      cases hb
      exact Lexer.readBraces_of_not_closed
        (h.beside.source_eq' ▸ drop_result_brace h.whole hbrace) (hopen rfl)
  · rw [not_exists] at hbrace
    rw [Lexer.readBraces_of_no_brace (h.beside.source_eq ▸ hbrace)] at hb
    cases hb
    refine Lexer.readBraces_of_no_brace fun rest hrest => ?_
    -- what is made blank is no brace
    rw [h.beside.source_eq'] at hrest
    have hget : w.result[s.current.start]? = some '{' := by
      rw [← List.head?_drop, hrest]
      rfl
    rcases getElem?_result w s.current.start with heq | ⟨-, heq⟩
    · obtain ⟨hlt, hchar⟩ := List.getElem?_eq_some_iff.1 (heq.symm.trans hget)
      exact hbrace _ (by rw [List.drop_eq_getElem_cons hlt, hchar])
    · exact absurd (Option.some.inj (heq.symm.trans hget)) (by decide)

end Blanking

end Gsx
