import Mathlib.Data.List.Nodup
import Gsx.Proofs.Attachment.Course
import Gsx.Proofs.Attachment.Gaps
/-!
# The ledger of a course

A course told in offsets: from where in the source reading goes on, where the
comments start that it holds, and what each deed does to both. Of the streams nothing
else counts. A token brings in the comments in front of the next but one, and going
behind braces those in front of the two tokens there; what is held inside the braces
is crossed out.
-/

namespace Gsx

open Blanking (held)

/-! ## Braces -/

theorem SourceRange.mem_ofBraces {source : List Char} {i : Nat} {r : SourceRange} :
    r ∈ SourceRange.ofBraces source i ↔ ∃ rest n, source.drop i = '{' :: rest
      ∧ Braces.closing? rest = some n ∧ r = ⟨i, i + n + 2⟩ := by
  unfold ofBraces
  constructor
  · intro h
    split at h
    · next rest hopening =>
      split at h
      · next n hclosing => exact ⟨rest, n, hopening, hclosing, List.mem_singleton.1 h⟩
      · exact absurd h List.not_mem_nil
    · exact absurd h List.not_mem_nil
  · rintro ⟨rest, n, hopening, hclosing, rfl⟩
    rw [hopening]
    simp only [hclosing]
    exact List.mem_singleton_self _

/-- Braces stand in their source. -/
theorem SourceRange.ofBraces_spec {source : List Char} {i : Nat} {r : SourceRange}
    (h : r ∈ SourceRange.ofBraces source i) :
    r.start = i ∧ i + 1 < r.stop ∧ r.stop ≤ source.length := by
  obtain ⟨rest, n, hopening, hclosing, rfl⟩ := mem_ofBraces.1 h
  have hlength := congrArg List.length hopening
  have hlt := Braces.closing?_lt hclosing
  rw [List.length_drop, List.length_cons] at hlength
  refine ⟨rfl, ?_, ?_⟩ <;> dsimp only <;> omega

/-- And there is one token in front of what is in them. -/
theorem SourceRange.tokenAt_of_mem {source : List Char} {o : Nat} {r : SourceRange}
    (h : r ∈ SourceRange.ofBraces source (tokenAt source o).start) :
    (tokenAt source o).kind = .leftBrace ∧ behindToken source o = r.start + 1 := by
  obtain ⟨rest, n, hopening, -, rfl⟩ := mem_ofBraces.1 h
  exact tokenAt_brace hopening

/-! ## Ledgers -/

/-- The token that is read from an offset of a source. -/
structure Token.IsReadAt (t : Token) (source : List Char) (o : Nat) : Prop where
  kind : t.kind = (tokenAt source o).kind
  start : t.start = (tokenAt source o).start
  position : t.kind ≠ .endOfInput → t.position = .ofOffset source t.start

/-- **What is crossed out** behind braces: nothing in front of them, and all that is
inside. -/
structure SourceRange.Clears (r : SourceRange) (xs left : List Nat) : Prop where
  sublist : left.Sublist xs
  before : ∀ x ∈ xs, x < r.start → x ∈ left
  outside : ∀ x ∈ left, x ≤ r.start ∨ r.stop ≤ x

/-- **The ledger of a course** over deeds, from an offset of a source to another, with
the offsets of the comments that are held here and there. -/
inductive Ledger (source : List Char) : Nat → List Nat → List Deed → Nat → List Nat → Prop
  | done (o : Nat) (xs : List Nat) : Ledger source o xs [] o xs
  | token {o p : Nat} {xs ys : List Nat} {t : Token} {ds : List Deed} :
      t.IsReadAt source o →
      Ledger source (behindToken source o)
        (xs ++ commentsAt source (behindToken source (behindToken source o))) ds p ys →
      Ledger source o xs (.token t :: ds) p ys
  | braces {o p : Nat} {xs ys left : List Nat} {t : Token} {ds : List Deed} {r : SourceRange} :
      t.IsReadAt source o → r ∈ SourceRange.ofBraces source t.start → r.Clears xs left →
      Ledger source r.stop
        (left ++ (commentsAt source r.stop ++ commentsAt source (behindToken source r.stop)))
        ds p ys →
      Ledger source o xs (.braces t :: ds) p ys
  | take {o p : Nat} {xs ys : List Nat} {t : Token} {kept : Bool} {cs : List Comment}
      {ds : List Deed} :
      t.IsReadAt source o → cs.map Comment.offset = xs.filter (· < t.start) →
      Ledger source o (xs.filter fun x => !(decide (x < t.start))) ds p ys →
      Ledger source o xs (.take t kept cs :: ds) p ys
  | trail {o p : Nat} {xs ys left : List Nat} {cs : List Comment} {ds : List Deed} :
      xs = cs.map Comment.offset ++ left → Ledger source o left ds p ys →
      Ledger source o xs (.trail cs :: ds) p ys

/-! ## Streams -/

/-- What a lexer holds behind two tokens. -/
theorem Lexer.pending_after_two {m : Lexer} (h : m.cursor.IsIn m.source) :
    (after 2 m).pending.map Comment.offset
      = m.pending.map Comment.offset ++ (commentsAt m.source m.cursor.offset
        ++ commentsAt m.source (behindToken m.source m.cursor.offset)) := by
  obtain ⟨hsource, hin⟩ := isIn_after h 1
  have hone := readsAt h
  have htwo := (readsAt (hsource.symm ▸ hin)).pending
  have hcursor : (after 1 m).cursor.offset = behindToken m.source m.cursor.offset := hone.cursor
  have hpending : (after 1 m).pending.map Comment.offset
      = m.pending.map Comment.offset ++ commentsAt m.source m.cursor.offset := hone.pending
  rw [hsource, hcursor, hpending, List.append_assoc] at htwo
  exact htwo

/-- Going behind braces crosses out what is inside. -/
theorem SourceRange.clears (r : SourceRange) (cs ps : List Comment) :
    r.Clears ((cs ++ ps).map Comment.offset)
      ((cs.filter (fun c => !(decide (r.start < c.offset) && decide (c.offset < r.stop)))
        ++ ps.filter (·.offset < r.start)).map Comment.offset) := by
  refine ⟨(List.filter_sublist.append List.filter_sublist).map _, fun x hx hlt => ?_,
    fun x hx => ?_⟩
  · obtain ⟨c, hc, rfl⟩ := List.mem_map.1 hx
    refine List.mem_map_of_mem ?_
    rcases List.mem_append.1 hc with hc | hc
    · refine List.mem_append_left _ (List.mem_filter.2 ⟨hc, ?_⟩)
      rw [decide_eq_false (Nat.not_lt.2 hlt.le)]
      rfl
    · exact List.mem_append_right _ (List.mem_filter.2 ⟨hc, decide_eq_true hlt⟩)
  · obtain ⟨c, hc, rfl⟩ := List.mem_map.1 hx
    rcases List.mem_append.1 hc with hc | hc
    · have hout := (List.mem_filter.1 hc).2
      simp only [Bool.not_eq_true', Bool.and_eq_false_iff, decide_eq_false_iff_not] at hout
      omega
    · have hlt := of_decide_eq_true (List.mem_filter.1 hc).2
      exact .inl hlt.le

/-- **A stream that goes on from an offset** of a source. -/
def TokenStream.GoesFrom (s : TokenStream) (source : List Char) (o : Nat) : Prop :=
  ∃ l : Lexer, s.Follows l ∧ l.source = source ∧ l.cursor.offset = o

/-- Where the comments start that a stream has. -/
def heldAt (s : TokenStream) : List Nat :=
  (held s).map Comment.offset

namespace TokenStream.GoesFrom

open TokenStream Lexer

variable {s s' : TokenStream} {source : List Char} {o : Nat}

theorem isReadAt (h : s.GoesFrom source o) : s.current.IsReadAt source o := by
  obtain ⟨l, hl, rfl, rfl⟩ := h
  have hreads := readsAt hl.isIn
  refine ⟨?_, ?_, fun hthere => ?_⟩
  · rw [hl.current]
    exact hreads.kind
  · rw [hl.current]
    exact hreads.start
  · rw [hl.current] at hthere ⊢
    exact position_token hl.isIn (start_token_lt_length hl.isIn hthere)

/-- The lexer of the stream stands two tokens further. -/
theorem lexer (h : s.GoesFrom source o) :
    s.lexer.source = source ∧ s.lexer.cursor.IsIn s.lexer.source
      ∧ s.lexer.cursor.offset = behindToken source (behindToken source o) := by
  obtain ⟨l, hl, rfl, rfl⟩ := h
  obtain ⟨hsource, hin⟩ := isIn_after hl.isIn 1
  have hone : (after 1 l).cursor.offset = behindToken l.source l.cursor.offset :=
    (readsAt hl.isIn).cursor
  have htwo := (readsAt (hsource.symm ▸ hin)).cursor
  rw [hsource, hone] at htwo
  refine ⟨hl.source, ?_, ?_⟩
  · rw [hl.cursor, hl.source]
    exact (isIn_after hl.isIn 2).2
  · rw [hl.cursor]
    exact htwo

theorem advanced (h : s.GoesFrom source o) :
    s.advanced.GoesFrom source (behindToken source o)
      ∧ heldAt s.advanced
        = heldAt s ++ commentsAt source (behindToken source (behindToken source o)) := by
  obtain ⟨hsource, hin, hoffset⟩ := h.lexer
  have hpending := (readsAt hin).pending
  rw [hsource, hoffset] at hpending
  obtain ⟨l, hl, rfl, rfl⟩ := h
  refine ⟨⟨_, hl.advanced, (isIn_after hl.isIn 1).1, (readsAt hl.isIn).cursor⟩, ?_⟩
  change (s.comments ++ s.lexer.next.2.pending).map _ = (s.comments ++ s.lexer.pending).map _ ++ _
  rw [List.map_append, List.map_append, hpending, List.append_assoc]

/-- **Behind braces** the lookahead is new. -/
theorem behindBraces (h : s.GoesFrom source o) {code : String}
    (hb : Parse.behindBraces s = .ok (code, s')) :
    ∃ r ∈ SourceRange.ofBraces source s.current.start, s'.GoesFrom source r.stop
      ∧ ∃ left, r.Clears (heldAt s) left
        ∧ heldAt s' = left ++ (commentsAt source r.stop
          ++ commentsAt source (behindToken source r.stop)) := by
  obtain ⟨hsource, -, -⟩ := h.lexer
  obtain ⟨m, hm, rfl⟩ := behindBraces_eq hb
  obtain ⟨rest, n, hopening, hclosing, -, hbehind⟩ := exists_of_readBraces hm
  obtain ⟨r, hr⟩ : ∃ r : SourceRange, r = ⟨s.current.start, s.current.start + n + 2⟩ := ⟨_, rfl⟩
  have hmem : r ∈ SourceRange.ofBraces source s.current.start :=
    SourceRange.mem_ofBraces.2 ⟨rest, n, hsource ▸ hopening, hclosing, hr⟩
  have hstop : r.stop ≤ source.length := (SourceRange.ofBraces_spec hmem).2.2
  have hmsource : m.source = source := by
    rw [hbehind]
    exact hsource
  have hmin : m.cursor.IsIn m.source := by
    rw [hbehind]
    exact (Cursor.IsIn.start _).advance _
  have hmoffset : m.cursor.offset = r.stop := by
    rw [hr] at hstop ⊢
    rw [hbehind, Cursor.offset_advance, hsource]
    exact (Nat.zero_add _).trans (Nat.min_eq_left hstop)
  have hmpending : m.pending = s.lexer.pending.filter (·.offset < r.start) := by
    rw [hbehind, hr]
  have htwo := pending_after_two hmin
  rw [hmsource, hmoffset, hmpending] at htwo
  refine ⟨r, hmem, ⟨m, .of_next hmin rfl rfl rfl, hmsource, hmoffset⟩, _,
    r.clears s.comments s.lexer.pending, ?_⟩
  change (s.comments.filter _ ++ (after 2 m).pending).map Comment.offset = _
  rw [List.map_append, htwo, List.map_append, List.append_assoc, hmoffset, hr]

theorem stays (h : s.GoesFrom source o) (hstays : s.Stays s') : s'.GoesFrom source o := by
  obtain ⟨l, hl, hrest⟩ := h
  exact ⟨l, hl.of_eq hstays.source hstays.cursor hstays.current hstays.peek, hrest⟩

/-- At the start of a source. -/
theorem ofSource (name source : String) :
    (TokenStream.ofSource name source).GoesFrom source.toList 0
      ∧ heldAt (TokenStream.ofSource name source) = commentsAt source.toList 0
        ++ commentsAt source.toList (behindToken source.toList 0) := by
  refine ⟨⟨_, .ofSource name source, rfl, rfl⟩, ?_⟩
  rw [TokenStream.ofSource_eq]
  exact pending_after_two (m := Lexer.ofSource name source) (.start _)

end TokenStream.GoesFrom

/-! ## Courses -/

/-- **A course has a ledger.** -/
theorem Course.ledger {s s' : TokenStream} {ds : List Deed} {source : List Char} {o : Nat}
    (h : Course s ds s') (hs : s.GoesFrom source o) :
    ∃ p, s'.GoesFrom source p ∧ Ledger source o (heldAt s) ds p (heldAt s') := by
  induction h generalizing o with
  | done s => exact ⟨o, hs, .done o _⟩
  | note hstays hheld _ ih =>
    obtain ⟨p, hp, hledger⟩ := ih (hs.stays hstays)
    unfold heldAt at hledger ⊢
    rw [hheld] at hledger
    exact ⟨p, hp, hledger⟩
  | token _ ih =>
    obtain ⟨hnext, hheld⟩ := hs.advanced
    obtain ⟨p, hp, hledger⟩ := ih hnext
    rw [hheld] at hledger
    exact ⟨p, hp, .token hs.isReadAt hledger⟩
  | braces hb _ ih =>
    obtain ⟨r, hr, hnext, left, hclears, hheld⟩ := hs.behindBraces hb
    obtain ⟨p, hp, hledger⟩ := ih hnext
    rw [hheld] at hledger
    exact ⟨p, hp, .braces hs.isReadAt hr hclears hledger⟩
  | take kept hstays htaken hleft _ ih =>
    obtain ⟨p, hp, hledger⟩ := ih (hs.stays hstays)
    refine ⟨p, hp, .take hs.isReadAt ?_ ?_⟩
    · rw [htaken, heldAt, List.filter_map]
      rfl
    · unfold heldAt at hledger
      rw [hleft] at hledger
      rw [heldAt, List.filter_map]
      exact hledger
  | trail hstays hheld _ ih =>
    obtain ⟨p, hp, hledger⟩ := ih (hs.stays hstays)
    refine ⟨p, hp, .trail ?_ hledger⟩
    rw [heldAt, hheld, List.map_append, heldAt]

end Gsx
