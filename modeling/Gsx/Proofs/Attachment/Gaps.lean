import Gsx.Proofs.Blanking.Streams
/-!
# Comments in front of tokens

The comments that a lexer finds on its way to a token depend on nothing but the
offset from which it reads. So a source has them in front of each of its tokens,
whoever reads it and whatever comments are pending by then. They start between the
offset and the token, further and further to the right.
-/

namespace Gsx

open Lexer

/-! ## Gathering -/

namespace Lexer

variable {l l' l'' m m' : Lexer} {xs ys : List Nat}

/-- Two lexers with the same text in front of them. -/
structure Abeam (l m : Lexer) : Prop where
  rest : m.cursor.rest = l.cursor.rest
  offset : m.cursor.offset = l.cursor.offset

/-- **A lexer gathers comments**, those that start at some offsets. -/
structure Gathers (l : Lexer) (xs : List Nat) (l' : Lexer) : Prop where
  pending : l'.pending.map Comment.offset = l.pending.map Comment.offset ++ xs
  le_offset : l.cursor.offset ≤ l'.cursor.offset
  inside : ∀ x ∈ xs, l.cursor.offset ≤ x ∧ x < l'.cursor.offset
  sorted : xs.Pairwise (· < ·)

namespace Gathers

theorem nothing (hpending : l'.pending = l.pending) (hle : l.cursor.offset ≤ l'.cursor.offset) :
    Gathers l [] l' :=
  ⟨by rw [hpending, List.append_nil], hle, fun _ h => absurd h List.not_mem_nil, .nil⟩

theorem trans (h : Gathers l xs l') (h' : Gathers l' ys l'') : Gathers l (xs ++ ys) l'' := by
  have hle := h.le_offset
  have hle' := h'.le_offset
  refine ⟨?_, hle.trans hle', ?_, ?_⟩
  · rw [h'.pending, h.pending, List.append_assoc]
  · intro x hx
    rcases List.mem_append.1 hx with hx | hx
    · have := h.inside x hx
      omega
    · have := h'.inside x hx
      omega
  · refine List.pairwise_append.2 ⟨h.sorted, h'.sorted, fun x hx y hy => ?_⟩
    have hleft := h.inside x hx
    have hright := h'.inside y hy
    omega

/-- One comment. -/
theorem collect (isBlock : Bool) {n : Nat} (hn : 0 < n) (hrest : l.cursor.rest ≠ []) :
    Gathers l [l.cursor.offset] (l.collect isBlock n) := by
  have hlength := List.length_pos_iff.2 hrest
  have hoffset : (l.collect isBlock n).cursor.offset
      = l.cursor.offset + min n l.cursor.rest.length :=
    Cursor.offset_advance n l.cursor
  refine ⟨?_, by omega, fun x hx => ?_, List.pairwise_singleton _ _⟩
  · simp only [Lexer.collect, List.map_append, List.map_cons, List.map_nil]
  · rw [List.mem_singleton.1 hx]
    omega

end Gathers

theorem Abeam.advance (h : Abeam l m) {n : Nat} (hl : l'.cursor = l.cursor.advance n)
    (hm : m'.cursor = m.cursor.advance n) : Abeam l' m' := by
  refine ⟨?_, ?_⟩
  · rw [hl, hm, Cursor.rest_advance, Cursor.rest_advance, h.rest]
  · rw [hl, hm, Cursor.offset_advance, Cursor.offset_advance, h.rest, h.offset]

/-- Two lexers that gather the same. -/
structure GatherAlike (l m l' m' : Lexer) : Prop where
  abeam : Abeam l' m'
  gathers : ∃ xs, Gathers l xs l' ∧ Gathers m xs m'

theorem GatherAlike.step (h : Abeam l m) (n : Nat) (hl : l'.cursor = l.cursor.advance n)
    (hm : m'.cursor = m.cursor.advance n) (hpending : l'.pending = l.pending)
    (hpending' : m'.pending = m.pending) : GatherAlike l m l' m' := by
  refine ⟨h.advance hl hm, [], .nothing hpending ?_, .nothing hpending' ?_⟩
  · rw [hl, Cursor.offset_advance]
    omega
  · rw [hm, Cursor.offset_advance]
    omega

theorem GatherAlike.collect (h : Abeam l m) (isBlock : Bool) {n : Nat} (hn : 0 < n)
    (hrest : l.cursor.rest ≠ []) :
    GatherAlike l m (l.collect isBlock n) (m.collect isBlock n) := by
  have hgathers : Gathers m [m.cursor.offset] (m.collect isBlock n) :=
    .collect isBlock hn (h.rest ▸ hrest)
  rw [h.offset] at hgathers
  exact ⟨h.advance rfl rfl, _, .collect isBlock hn hrest, hgathers⟩

theorem GatherAlike.trans {l'' m'' : Lexer} (h : GatherAlike l m l' m')
    (h' : GatherAlike l' m' l'' m'') : GatherAlike l m l'' m'' := by
  obtain ⟨xs, hl, hm⟩ := h.gathers
  obtain ⟨ys, hl', hm'⟩ := h'.gathers
  exact ⟨h'.abeam, xs ++ ys, hl.trans hl', hm.trans hm'⟩

theorem gatherAlike_skipUpTo (h : Abeam l m) (fuel : Nat) :
    GatherAlike l m (skipUpTo fuel l) (skipUpTo fuel m) :=
  rel_skipUpTo (r := GatherAlike l m)
    (fun hsame => rel_skipOne? hsame.abeam.rest
      (fun n => hsame.trans (.step hsame.abeam n rfl rfl rfl rfl))
      (fun isBlock _ hrest hn => hsame.trans (.collect hsame.abeam isBlock hn hrest))
      fun n => hsame.trans (.step hsame.abeam n rfl rfl rfl rfl))
    (.step h 0 rfl rfl rfl rfl) fuel

end Lexer

/-! ## In front of a token -/

/-- **Where comments start in front of the token** that is read from an offset. -/
def commentsAt (source : List Char) (o : Nat) : List Nat :=
  (Lexer.at source o).skipTrivia.pending.map Comment.offset

/-- The token that is read from an offset. -/
def tokenAt (source : List Char) (o : Nat) : Token :=
  (Lexer.at source o).next.1

/-- The offset behind it. -/
def behindToken (source : List Char) (o : Nat) : Nat :=
  (Lexer.at source o).next.2.cursor.offset

/-- **What a lexer reads from where it stands**: a token, with the comments in front
of it. Its position need not be that of the source behind the end of the input. -/
structure Lexer.ReadsAt (l : Lexer) (o : Nat) : Prop where
  kind : l.next.1.kind = (tokenAt l.source o).kind
  start : l.next.1.start = (tokenAt l.source o).start
  cursor : l.next.2.cursor.offset = behindToken l.source o
  pending : l.next.2.pending.map Comment.offset
    = l.pending.map Comment.offset ++ commentsAt l.source o

theorem offset_at {source : List Char} {o : Nat} (h : o ≤ source.length) :
    (Lexer.at source o).cursor.offset = o := by
  rw [Lexer.at, Cursor.offset_advance]
  change 0 + min o source.length = o
  omega

theorem isIn_at (source : List Char) (o : Nat) :
    (Lexer.at source o).cursor.IsIn (Lexer.at source o).source :=
  (Cursor.IsIn.start source).advance o

/-- **A lexer reads what its source has from there on.** -/
theorem Lexer.readsAt {l : Lexer} (h : l.cursor.IsIn l.source) : l.ReadsAt l.cursor.offset := by
  have habeam : Abeam l (Lexer.at l.source l.cursor.offset) := by
    have hoffset : (Lexer.at l.source l.cursor.offset).cursor.offset = l.cursor.offset :=
      offset_at h.offset_le
    refine ⟨?_, hoffset⟩
    rw [(isIn_at _ _).rest_eq, hoffset, h.rest_eq]
    rfl
  obtain ⟨hend, xs, hl, hm⟩ := gatherAlike_skipUpTo habeam l.cursor.rest.length
  have hskip : Lexer.skipUpTo l.cursor.rest.length (Lexer.at l.source l.cursor.offset)
      = (Lexer.at l.source l.cursor.offset).skipTrivia := by
    rw [skipTrivia, habeam.rest]
  rw [hskip] at hend hm
  -- what is read depends on the text and the offset at which trivia end
  have hkind : ∀ k : Lexer, k.next.1.kind = (lexemeAt k.skipTrivia.cursor.rest).kind := fun _ => rfl
  have hstop : ∀ k : Lexer, k.next.2.cursor
      = k.skipTrivia.cursor.advance (lexemeAt k.skipTrivia.cursor.rest).steps := fun _ => rfl
  have hrest : (Lexer.at l.source l.cursor.offset).skipTrivia.cursor.rest
      = l.skipTrivia.cursor.rest := hend.rest
  have hoffset : (Lexer.at l.source l.cursor.offset).skipTrivia.cursor.offset
      = l.skipTrivia.cursor.offset := hend.offset
  refine ⟨?_, hend.offset.symm, ?_, ?_⟩
  · rw [tokenAt, hkind, hkind, hrest]
  · rw [behindToken, hstop, hstop, Cursor.offset_advance, Cursor.offset_advance, hrest, hoffset]
  · have hxs : commentsAt l.source l.cursor.offset = xs := hm.pending
    rw [pending_next, hxs]
    exact hl.pending

/-- **Comments stand in a row** in front of their token. -/
theorem commentsAt_spec {source : List Char} {o : Nat} (h : o ≤ source.length) :
    (∀ x ∈ commentsAt source o, o ≤ x ∧ x < (tokenAt source o).start)
      ∧ (commentsAt source o).Pairwise (· < ·) := by
  obtain ⟨-, xs, hgathers, -⟩ := gatherAlike_skipUpTo (l := Lexer.at source o)
    (m := Lexer.at source o) ⟨rfl, rfl⟩ (Lexer.at source o).cursor.rest.length
  have hxs : commentsAt source o = xs := hgathers.pending
  have hinside := hgathers.inside
  rw [offset_at h] at hinside
  rw [hxs]
  exact ⟨hinside, hgathers.sorted⟩

theorem le_start_tokenAt {source : List Char} {o : Nat} (h : o ≤ source.length) :
    o ≤ (tokenAt source o).start :=
  (offset_at h).ge.trans (reads_next (isIn_at source o)).le_start

theorem start_le_behindToken (source : List Char) (o : Nat) :
    (tokenAt source o).start ≤ behindToken source o :=
  (reads_next (isIn_at source o)).start_le

theorem start_lt_behindToken {source : List Char} {o : Nat}
    (hthere : (tokenAt source o).kind ≠ .endOfInput) :
    (tokenAt source o).start < behindToken source o :=
  (reads_next (isIn_at source o)).start_lt hthere

theorem behindToken_le_length (source : List Char) (o : Nat) :
    behindToken source o ≤ source.length :=
  (reads_next (isIn_at source o)).cursor.offset_le

theorem start_tokenAt_end {source : List Char} {o : Nat}
    (hend : (tokenAt source o).kind = .endOfInput) : (tokenAt source o).start = source.length :=
  (reads_next (isIn_at source o)).start_end hend

/-- Where a brace opens it is a token of its own. -/
theorem tokenAt_brace {source rest : List Char} {o : Nat}
    (hbrace : source.drop (tokenAt source o).start = '{' :: rest) :
    (tokenAt source o).kind = .leftBrace
      ∧ behindToken source o = (tokenAt source o).start + 1 := by
  have hskip := Crosses.skipTrivia (isIn_at source o)
  have hrest : (Lexer.at source o).skipTrivia.cursor.rest = '{' :: rest :=
    hskip.cursor.rest_eq.trans hbrace
  have hlexeme : lexemeAt (Lexer.at source o).skipTrivia.cursor.rest = lexemeAt ('{' :: rest) :=
    congrArg lexemeAt hrest
  constructor
  · change (lexemeAt (Lexer.at source o).skipTrivia.cursor.rest).kind = _
    rw [hlexeme]
    rfl
  · change ((Lexer.at source o).skipTrivia.cursor.advance
      (lexemeAt (Lexer.at source o).skipTrivia.cursor.rest).steps).offset = _
    rw [hlexeme, Cursor.offset_advance, hrest]
    change _ + min 1 (rest.length + 1) = _
    have hstart : (tokenAt source o).start
        = (Lexer.at source o).skipTrivia.cursor.offset := rfl
    omega

end Gsx
