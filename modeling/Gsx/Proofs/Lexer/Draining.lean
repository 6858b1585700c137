import Mathlib.Data.List.Induction
import Gsx.Proofs.Grammar.Following
import Gsx.Proofs.Lexer.Lookahead
/-!
# Taking comments while tokens are read

Comments may be taken from the lexer at any time between two tokens. Whenever
that is done, the comments are the same, in the same order and at the same
places. Only the note on a blank line before a comment may differ: as long as
the comment before it is pending, code between the two does not count, and once
that comment has been taken, code fills the gap. `Watches` says what a lexer
knows of the last comment, and every move keeps it.
-/

namespace Gsx

namespace Comment

/-! ## Comments in turn -/

/-- At least one line lies between a comment and an earlier one. -/
def IsFar (c d : Comment) : Prop :=
  c.stop.line + 1 < d.position.line

/-- What holds of every comment of a list, of the comment before it and of how
many there are before it. -/
def InTurn (P : Option Comment → Comment → Nat → Prop) (last : Option Comment)
    (cs : List Comment) : Prop :=
  ∀ front d back, cs = front ++ d :: back → P (front.getLast?.or last) d front.length

variable {P Q : Option Comment → Comment → Nat → Prop} {last : Option Comment} {c d : Comment}
  {cs cs' : List Comment}

theorem getLast?_cons_or (d : Comment) (cs : List Comment) (last : Option Comment) :
    (d :: cs).getLast?.or last = cs.getLast?.or (some d) := by
  rw [List.getLast?_cons]
  cases cs.getLast? <;> rfl

theorem inTurn_nil : InTurn P last [] :=
  fun front d back h => absurd h (by simp)

theorem inTurn_cons : InTurn P last (d :: cs)
    ↔ P last d 0 ∧ InTurn (fun last d j => P last d (j + 1)) (some d) cs := by
  refine ⟨fun h => ⟨h [] d cs rfl, fun front d' back hcs => ?_⟩, fun h front d' back hcs => ?_⟩
  · have hd' := h (d :: front) d' back (congrArg (d :: ·) hcs)
    rwa [getLast?_cons_or] at hd'
  · cases front with
    | nil =>
      obtain ⟨rfl, -⟩ := List.cons.inj hcs
      exact h.1
    | cons e front =>
      obtain ⟨rfl, hrest⟩ := List.cons.inj hcs
      rw [getLast?_cons_or]
      exact h.2 front d' back hrest

theorem InTurn.mono (h : InTurn P last cs)
    (himp : ∀ last d j, j < cs.length → P last d j → Q last d j) : InTurn Q last cs := by
  intro front d back hcs
  refine himp _ d _ ?_ (h front d back hcs)
  rw [hcs, List.length_append, List.length_cons]
  omega

theorem InTurn.append (h : InTurn P last cs)
    (h' : InTurn (fun last d j => P last d (cs.length + j)) (cs.getLast?.or last) cs') :
    InTurn P last (cs ++ cs') := by
  induction cs generalizing P last with
  | nil => simpa using h'
  | cons d cs ih =>
    obtain ⟨hd, hcs⟩ := inTurn_cons.1 h
    rw [getLast?_cons_or] at h'
    refine inTurn_cons.2 ⟨hd, ih hcs (h'.mono fun last d j _ hj => ?_)⟩
    rwa [List.length_cons, Nat.add_right_comm] at hj

end Comment

namespace Lexer

open Comment

/-- **The note on a comment**: it is far from the one before, and nothing fills
the gap between the two. -/
def IsNoted (filled : Nat → Prop) (last : Option Comment) (d : Comment) (j : Nat) : Prop :=
  d.blankBefore = true ↔ ∃ c ∈ last, c.IsFar d ∧ ¬ filled j

/-! ## What a lexer knows of the last comment -/

/-- **A lexer watches the last comment**: whether it has been taken since, and
whether code has followed it. -/
structure Watches (l : Lexer) (last : Option Comment) (taken coded : Prop) : Prop where
  pending_taken : taken → l.pending = []
  pending_kept : ¬ taken → l.pending.getLast? = last
  line_coded : coded → l.lastCommentLine = 0
  line_open : ¬ coded → l.lastCommentLine = last.elim 0 fun c => c.stop.line
  line_pos : ∀ c ∈ last, 0 < c.stop.line

variable {l m : Lexer} {last : Option Comment} {taken coded : Prop}

namespace Watches

theorem congr {taken' coded' : Prop} (h : Watches l last taken coded) (htaken : taken' ↔ taken)
    (hcoded : coded' ↔ coded) : Watches l last taken' coded' := by
  rw [propext htaken, propext hcoded]
  exact h

/-- Only where the last comment has been taken does code behind it count. -/
theorem isAfterBlankLine_iff (h : Watches l last taken coded) (line : Nat) :
    l.isAfterBlankLine line ↔ ∃ c ∈ last, c.stop.line + 1 < line ∧ ¬ (taken ∧ coded) := by
  rw [isAfterBlankLine]
  by_cases htaken : taken
  · rw [h.pending_taken htaken]
    by_cases hcoded : coded
    · simp [h.line_coded hcoded, htaken, hcoded]
    · rw [h.line_open hcoded]
      cases last with
      | none => simp
      | some c =>
        have hpos : 0 < c.stop.line := h.line_pos c rfl
        change (decide (0 < c.stop.line) && decide (c.stop.line + 1 < line)) = true ↔ _
        simp [hpos, hcoded]
  · rw [h.pending_kept htaken]
    cases last with
    | none =>
      have hline : l.lastCommentLine = 0 := by
        by_cases hcoded : coded
        · exact h.line_coded hcoded
        · exact h.line_open hcoded
      simp [hline]
    | some c => simp [htaken]

/-- A comment that is collected is the last one, and nothing has followed it. -/
theorem collect (h : Watches l last taken coded) (hin : l.cursor.IsIn l.source) (isBlock : Bool)
    (n : Nat) : ∃ d, (l.collect isBlock n).pending = l.pending ++ [d]
      ∧ IsNoted (fun _ => taken ∧ coded) last d 0
      ∧ Watches (l.collect isBlock n) (some d) False False := by
  refine ⟨_, rfl, h.isAfterBlankLine_iff _, nofun, fun _ => ?_, nofun, fun _ => rfl, fun c hc => ?_⟩
  · exact List.getLast?_concat
  · obtain rfl := Option.some.inj hc
    change 0 < (l.cursor.advance n).position.line
    rw [(hin.advance n).line_eq]
    exact Nat.add_pos_left Nat.one_pos _

/-- One move over blanks or a comment. -/
theorem skipOne? (h : Watches l last taken coded) (hin : l.cursor.IsIn l.source)
    (hs : l.skipOne? = some m) :
    (m.pending = l.pending ∧ Watches m last taken coded)
      ∨ ∃ d, m.pending = l.pending ++ [d] ∧ IsNoted (fun _ => taken ∧ coded) last d 0
        ∧ Watches m (some d) False False := by
  have hsame : m.pending = l.pending → m.lastCommentLine = l.lastCommentLine →
      m.pending = l.pending ∧ Watches m last taken coded := fun hpending hline =>
    ⟨hpending, hpending ▸ h.pending_taken, hpending ▸ h.pending_kept, hline ▸ h.line_coded,
      hline ▸ h.line_open, h.line_pos⟩
  cases skips_of_skipOne? hs with
  | line => exact .inr (h.collect hin false _)
  | block => exact .inr (h.collect hin true _)
  | _ => exact .inl (hsame rfl rfl)

/-- **On the way to the next token** comments are noted in turn: what has
happened before counts for the first one only. -/
theorem skipUpTo (h : Watches l last taken coded) (hin : l.cursor.IsIn l.source) (fuel : Nat) :
    ∃ cs, (skipUpTo fuel l).pending = l.pending ++ cs
      ∧ InTurn (IsNoted fun j => j = 0 ∧ taken ∧ coded) last cs
      ∧ Watches (skipUpTo fuel l) (cs.getLast?.or last) (cs = [] ∧ taken) (cs = [] ∧ coded) := by
  induction fuel generalizing l last taken coded with
  | zero => exact ⟨[], (List.append_nil _).symm, inTurn_nil, h.congr (by simp) (by simp)⟩
  | succ fuel ih =>
    rw [Lexer.skipUpTo]
    cases hs : l.skipOne? with
    | none => exact ⟨[], (List.append_nil _).symm, inTurn_nil, h.congr (by simp) (by simp)⟩
    | some m =>
      have hm := Crosses.skipOne? hin hs
      rcases h.skipOne? hin hs with ⟨hpending, hwatch⟩ | ⟨d, hpending, hnoted, hwatch⟩
      · obtain ⟨cs, hcs, hturn, hlast⟩ := ih hwatch (hm.source_eq ▸ hm.cursor)
        exact ⟨cs, hpending ▸ hcs, hturn, hlast⟩
      · obtain ⟨cs, hcs, hturn, hlast⟩ := ih hwatch (hm.source_eq ▸ hm.cursor)
        refine ⟨d :: cs, ?_, inTurn_cons.2 ⟨?_, hturn.mono ?_⟩, ?_⟩
        · rw [hcs, hpending, List.append_assoc, List.singleton_append]
        · simpa [IsNoted] using hnoted
        · intro last d j _ hj
          simpa [IsNoted] using hj
        · rw [getLast?_cons_or]
          exact hlast.congr (by simp) (by simp)

/-- **One token.** It fills the gap behind the last comment, the ones in front
of it included, unless it is a line end or the end. -/
theorem next (h : Watches l last taken coded) (hin : l.cursor.IsIn l.source) :
    ∃ cs, l.next.2.pending = l.pending ++ cs
      ∧ InTurn (IsNoted fun j => j = 0 ∧ taken ∧ coded) last cs
      ∧ Watches l.next.2 (cs.getLast?.or last) (cs = [] ∧ taken)
        (fillsGap l.next.1.kind ∨ cs = [] ∧ coded) := by
  obtain ⟨cs, hcs, hturn, hwatch⟩ := h.skipUpTo hin l.cursor.rest.length
  have hpending : l.next.2.pending = l.skipTrivia.pending := pending_next l
  have hline : l.next.2.lastCommentLine
      = if fillsGap l.next.1.kind then 0 else l.skipTrivia.lastCommentLine := rfl
  refine ⟨cs, hpending.trans hcs, hturn, hpending ▸ hwatch.pending_taken,
    hpending ▸ hwatch.pending_kept, ?_, fun hopen => ?_, hwatch.line_pos⟩
  · rw [hline]
    rintro (hfills | hcoded)
    · exact if_pos hfills
    · split
      · rfl
      · exact hwatch.line_coded hcoded
  · rw [not_or] at hopen
    rw [hline, if_neg hopen.1]
    exact hwatch.line_open hopen.2

/-- Comments that are taken are pending no more. -/
theorem take (h : Watches l last taken coded) : Watches l.takeComments.2 last True coded :=
  ⟨fun _ => rfl, fun hnot => absurd trivial hnot, h.line_coded, h.line_open, h.line_pos⟩

end Watches

/-! ## Comments in any way -/

/-- **Two lexers find the same**: they are at one place, and the comments that
they have found since they had `p` and `p'` differ in their notes only. -/
structure FindsSame (p p' : List Comment) (l l' : Lexer) : Prop where
  cursor_eq : l'.cursor = l.cursor
  found : ∃ cs cs', l.pending = p ++ cs ∧ l'.pending = p' ++ cs'
    ∧ cs'.map (shownComment false) = cs.map (shownComment false)

variable {p p' : List Comment} {l' : Lexer}

namespace FindsSame

theorem start (h : l'.cursor = l.cursor) : FindsSame l.pending l'.pending l l' :=
  ⟨h, [], [], (List.append_nil _).symm, (List.append_nil _).symm, rfl⟩

theorem collect (h : FindsSame p p' l l') (isBlock : Bool) (n : Nat) :
    FindsSame p p' (l.collect isBlock n) (l'.collect isBlock n) := by
  obtain ⟨cs, cs', hcs, hcs', hsame⟩ := h.found
  obtain ⟨d, d', hd, hd', hshown⟩ : ∃ d d', (l.collect isBlock n).pending = l.pending ++ [d]
      ∧ (l'.collect isBlock n).pending = l'.pending ++ [d']
      ∧ shownComment false d' = shownComment false d :=
    ⟨_, _, rfl, rfl, by rw [h.cursor_eq]; rfl⟩
  refine ⟨congrArg (Cursor.advance n) h.cursor_eq, cs ++ [d], cs' ++ [d'], ?_, ?_, ?_⟩
  · rw [hd, hcs, List.append_assoc]
  · rw [hd', hcs', List.append_assoc]
  · rw [List.map_append, List.map_append, hsame, List.map_singleton, List.map_singleton, hshown]

theorem step (h : FindsSame p p' l l') (n : Nat) : FindsSame p p' (l.step n) (l'.step n) :=
  ⟨congrArg (Cursor.advance n) h.cursor_eq, h.found⟩

theorem skipOne? (h : FindsSame p p' l l') :
    Option.Rel (FindsSame p p') l.skipOne? l'.skipOne? :=
  rel_skipOne? (congrArg Cursor.rest h.cursor_eq) h.step (fun isBlock n _ _ => h.collect isBlock n)
    fun n => ⟨congrArg (Cursor.advance n) h.cursor_eq, h.found⟩

theorem skipUpTo (h : FindsSame p p' l l') (fuel : Nat) :
    FindsSame p p' (Lexer.skipUpTo fuel l) (Lexer.skipUpTo fuel l') :=
  rel_skipUpTo skipOne? h fuel

end FindsSame

/-- In front of the next token two lexers at one place find the same comments. -/
theorem exists_found_next (h : l'.cursor = l.cursor) :
    ∃ cs cs', l.next.2.pending = l.pending ++ cs ∧ l'.next.2.pending = l'.pending ++ cs'
      ∧ cs'.map (shownComment false) = cs.map (shownComment false) := by
  have hfound := ((FindsSame.start h).skipUpTo l.cursor.rest.length).found
  rw [pending_next, pending_next, skipTrivia, skipTrivia, h]
  exact hfound

/-! ## Comments taken in a run -/

/-- The comments in an answer. -/
def Answer.given : Answer → List Comment
  | .comments cs => cs
  | .token _ | .text _ | .failure _ => []

/-- **All comments of a run**: those that were taken, and those that are pending
at its end. -/
def gathered (calls : List Call) (l : Lexer) : List Comment :=
  (run calls l).1.flatMap Answer.given ++ (run calls l).2.pending

/-- Tokens are read and comments taken, nothing else. -/
def IsTokenization (calls : List Call) : Prop :=
  ∀ c ∈ calls, c = .next ∨ c = .comments

instance : DecidablePred IsTokenization :=
  fun calls => inferInstanceAs (Decidable (∀ c ∈ calls, c = .next ∨ c = .comments))

/-- **A take falls behind `j` comments**: the comments are taken when so many
have been found. -/
def TakenBehind (calls : List Call) (l : Lexer) (j : Nat) : Prop :=
  ∃ before behind, calls = before ++ .comments :: behind
    ∧ (after (before.count .next) l).pending.length = j

/-- **Code stands behind `j` comments**: a token fills the gap behind that many. -/
def CodeBehind (l : Lexer) (j : Nat) : Prop :=
  ∃ k, fillsGap (l.token k).kind ∧ (after (k + 1) l).pending.length = j

/-- Code that is one of the first tokens. -/
def CodeUpTo (n : Nat) (l : Lexer) (j : Nat) : Prop :=
  ∃ k < n, fillsGap (l.token k).kind ∧ (after (k + 1) l).pending.length = j

theorem run_append (calls calls' : List Call) (l : Lexer) :
    run (calls ++ calls') l = ((run calls l).1 ++ (run calls' (run calls l).2).1,
      (run calls' (run calls l).2).2) := by
  induction calls generalizing l with
  | nil => rfl
  | cons call calls ih =>
    simp only [List.cons_append, run, ih]

theorem gathered_next (calls : List Call) (l : Lexer) :
    gathered (calls ++ [.next]) l
      = (run calls l).1.flatMap Answer.given ++ (run calls l).2.next.2.pending := by
  rw [gathered, run_append]
  simp [run, answer, Answer.given]

theorem gathered_comments (calls : List Call) (l : Lexer) :
    gathered (calls ++ [.comments]) l = gathered calls l := by
  rw [gathered, gathered, run_append]
  simp [run, answer, Answer.given, takeComments]

/-- **Where a run has come to**: to the place of a lexer that only reads tokens,
with the comments that one has found, each noted as taking and code were up to
it. -/
structure Tokenizes (calls : List Call) (l : Lexer) : Prop where
  source_eq : (run calls l).2.source = l.source
  cursor_eq : (run calls l).2.cursor = (after (calls.count .next) l).cursor
  found : (gathered calls l).map (shownComment false)
    = (after (calls.count .next) l).pending.map (shownComment false)
  watches : Watches (run calls l).2 (gathered calls l).getLast?
    (TakenBehind calls l (gathered calls l).length)
    (CodeUpTo (calls.count .next) l (gathered calls l).length)
  noted : InTurn (IsNoted fun j => TakenBehind calls l j ∧ CodeBehind l j) none (gathered calls l)

variable {calls : List Call} {j : Nat}

theorem length_pending_mono (hin : l.cursor.IsIn l.source) {m n : Nat} (hle : m ≤ n) :
    (after m l).pending.length ≤ (after n l).pending.length := by
  obtain ⟨cs, hcs, -⟩ := (grows_after_of_le hin hle).pending
  rw [hcs, List.length_append]
  exact Nat.le_add_right _ _

theorem takenBehind_append {call : Call} : TakenBehind (calls ++ [call]) l j
    ↔ TakenBehind calls l j
      ∨ call = .comments ∧ (after (calls.count .next) l).pending.length = j := by
  constructor
  · rintro ⟨before, behind, hcalls, hlength⟩
    rcases List.eq_nil_or_concat behind with rfl | ⟨behind, last, rfl⟩
    · obtain ⟨rfl, hcall⟩ := List.append_inj' hcalls rfl
      exact .inr ⟨List.singleton_inj.1 hcall, hlength⟩
    · rw [List.concat_eq_append, ← List.cons_append, ← List.append_assoc] at hcalls
      exact .inl ⟨before, behind, (List.append_inj' hcalls rfl).1, hlength⟩
  · rintro (⟨before, behind, rfl, hlength⟩ | ⟨rfl, hlength⟩)
    · exact ⟨before, behind ++ [call], by rw [List.append_assoc, List.cons_append], hlength⟩
    · exact ⟨calls, [], rfl, hlength⟩

/-- A token is no take. -/
theorem takenBehind_next : TakenBehind (calls ++ [.next]) l j ↔ TakenBehind calls l j := by
  rw [takenBehind_append]
  simp

/-- No take falls behind more comments than have been found. -/
theorem TakenBehind.le (h : TakenBehind calls l j) (hin : l.cursor.IsIn l.source) :
    j ≤ (after (calls.count .next) l).pending.length := by
  obtain ⟨before, behind, rfl, rfl⟩ := h
  exact length_pending_mono hin (by rw [List.count_append]; exact Nat.le_add_right _ _)

theorem codeUpTo_succ {n : Nat} : CodeUpTo (n + 1) l j
    ↔ CodeUpTo n l j ∨ fillsGap (l.token n).kind ∧ (after (n + 1) l).pending.length = j := by
  constructor
  · rintro ⟨k, hk, hcode⟩
    rcases Nat.lt_succ_iff_lt_or_eq.1 hk with hk | rfl
    · exact .inl ⟨k, hk, hcode⟩
    · exact .inr hcode
  · rintro (⟨k, hk, hcode⟩ | hcode)
    · exact ⟨k, Nat.lt_succ_of_lt hk, hcode⟩
    · exact ⟨n, Nat.lt_succ_self n, hcode⟩

theorem CodeUpTo.le {n : Nat} (h : CodeUpTo n l j) (hin : l.cursor.IsIn l.source) :
    j ≤ (after n l).pending.length := by
  obtain ⟨k, hk, -, rfl⟩ := h
  exact length_pending_mono hin hk

/-- Code in front of the last comments is among the tokens up to them. -/
theorem codeBehind_iff {n : Nat} (hin : l.cursor.IsIn l.source)
    (hj : j < (after n l).pending.length) : CodeBehind l j ↔ CodeUpTo n l j := by
  refine ⟨fun ⟨k, hfills, hlength⟩ => ⟨k, Nat.lt_of_not_le fun hle => ?_, hfills, hlength⟩,
    fun ⟨k, _, hcode⟩ => ⟨k, hcode⟩⟩
  have := length_pending_mono hin (hle.trans (Nat.le_add_right k 1))
  omega

/-- What holds up to the last of some comments holds behind them only where none
follow. -/
theorem length_append_iff {P : Nat → Prop} {g cs : List Comment}
    (h : ∀ j, P j → j ≤ g.length) : P (g ++ cs).length ↔ cs = [] ∧ P g.length := by
  cases cs with
  | nil => simp
  | cons c cs =>
    refine ⟨fun hP => absurd (h _ hP) ?_, fun hP => absurd hP.1 (List.cons_ne_nil _ _)⟩
    rw [List.length_append, List.length_cons]
    omega

namespace Tokenizes

theorem length_eq (h : Tokenizes calls l) :
    (gathered calls l).length = (after (calls.count .next) l).pending.length := by
  simpa only [List.length_map] using congrArg List.length h.found

theorem taken_le (h : Tokenizes calls l) (hin : l.cursor.IsIn l.source) {j : Nat}
    (hj : TakenBehind calls l j) : j ≤ (gathered calls l).length :=
  h.length_eq ▸ hj.le hin

theorem code_le (h : Tokenizes calls l) (hin : l.cursor.IsIn l.source) {j : Nat}
    (hj : CodeUpTo (calls.count .next) l j) : j ≤ (gathered calls l).length :=
  h.length_eq ▸ hj.le hin

/-- Of the comments in front of the next token only the first has takes and
earlier code in front of it. -/
theorem filled_iff (h : Tokenizes calls l) (hin : l.cursor.IsIn l.source) {j : Nat}
    (hj : (gathered calls l).length + j < (after (calls.count .next + 1) l).pending.length) :
    TakenBehind (calls ++ [.next]) l ((gathered calls l).length + j)
        ∧ CodeBehind l ((gathered calls l).length + j)
      ↔ j = 0 ∧ TakenBehind calls l (gathered calls l).length
        ∧ CodeUpTo (calls.count .next) l (gathered calls l).length := by
  rw [takenBehind_next, codeBehind_iff hin hj, codeUpTo_succ]
  cases j with
  | zero =>
    have hne : (after (calls.count .next + 1) l).pending.length ≠ (gathered calls l).length :=
      (Nat.ne_of_lt hj).symm
    simp [hne]
  | succ j =>
    have hnot : ¬ TakenBehind calls l ((gathered calls l).length + (j + 1)) := fun htake =>
      absurd (h.taken_le hin htake) (by omega)
    simp [hnot]

/-- **One token more.** -/
theorem next (h : Tokenizes calls l) (hin : l.cursor.IsIn l.source) :
    Tokenizes (calls ++ [.next]) l := by
  have hrun : (run (calls ++ [.next]) l).2 = (run calls l).2.next.2 := by
    rw [run_append]
    rfl
  have hcount : (calls ++ [Call.next]).count .next = calls.count .next + 1 := by
    rw [List.count_append]
    rfl
  have hrunIn : (run calls l).2.cursor.IsIn (run calls l).2.source := by
    rw [h.source_eq, h.cursor_eq]
    exact (isIn_after hin (calls.count .next)).2
  obtain ⟨htoken, hcursor⟩ := next_congr h.cursor_eq
  obtain ⟨cs, hcs, hturn, hwatch⟩ := h.watches.next hrunIn
  obtain ⟨ds, ds', hds, hds', hsame⟩ := exists_found_next h.cursor_eq
  obtain rfl : ds' = cs := List.append_cancel_left (hds'.symm.trans hcs)
  have hgathered : gathered (calls ++ [.next]) l = gathered calls l ++ ds' := by
    rw [gathered_next, hcs, ← List.append_assoc, gathered]
  have hfound : (gathered calls l ++ ds').map (shownComment false)
      = (after (calls.count .next + 1) l).pending.map (shownComment false) := by
    rw [List.map_append, h.found, hsame, ← List.map_append, ← hds, after_succ]
  have hlength : (after (calls.count .next + 1) l).pending.length
      = (gathered calls l ++ ds').length := by
    simpa only [List.length_map] using (congrArg List.length hfound).symm
  -- what was noted stays, for a token takes nothing; the new comments are noted in turn
  refine ⟨?_, ?_, ?_, ?_, ?_⟩
  · rw [hrun, (reads_next hrunIn).source_eq, h.source_eq]
  · rw [hrun, hcount, after_succ, hcursor]
  · rw [hgathered, hcount, hfound]
  · rw [hrun, hgathered, hcount, List.getLast?_append]
    refine hwatch.congr ?_ ?_
    · rw [takenBehind_next, length_append_iff fun _ => h.taken_le hin]
    · rw [codeUpTo_succ, length_append_iff fun _ => h.code_le hin, htoken, hlength, or_comm]
      simp [token]
  · rw [hgathered]
    refine InTurn.append (h.noted.mono fun last d j _ hd => ?_) ?_
    · rwa [IsNoted, takenBehind_next]
    · rw [Option.or_none]
      refine hturn.mono fun last d j hj hd => ?_
      rw [List.length_append] at hlength
      rwa [IsNoted, h.filled_iff hin (by omega)]

/-- **Comments taken.** -/
theorem comments (h : Tokenizes calls l) : Tokenizes (calls ++ [.comments]) l := by
  have hrun : (run (calls ++ [.comments]) l).2 = (run calls l).2.takeComments.2 := by
    rw [run_append]
    rfl
  have hcount : (calls ++ [Call.comments]).count .next = calls.count .next := by
    rw [List.count_append]
    rfl
  refine ⟨?_, ?_, ?_, ?_, ?_⟩
  · rw [hrun]
    exact h.source_eq
  · rw [hrun, hcount]
    exact h.cursor_eq
  · rw [gathered_comments, hcount, h.found]
  · rw [hrun, gathered_comments, hcount]
    refine h.watches.take.congr ?_ Iff.rfl
    rw [takenBehind_append, h.length_eq]
    simp
  · rw [gathered_comments]
    refine h.noted.mono fun last d j hj hd => ?_
    have hne : (after (calls.count .next) l).pending.length ≠ j := by
      rw [← h.length_eq]
      exact Nat.ne_of_gt hj
    rw [IsNoted, takenBehind_append]
    simpa [IsNoted, hne] using hd

theorem ofSource (name source : String) : Tokenizes [] (ofSource name source) := by
  refine ⟨rfl, rfl, rfl, ⟨fun _ => rfl, fun _ => rfl, fun _ => rfl, fun _ => rfl, nofun⟩, inTurn_nil⟩

end Tokenizes

theorem tokenizes (name source : String) (hcalls : IsTokenization calls) :
    Tokenizes calls (ofSource name source) := by
  -- a run goes on behind its last call
  induction calls using List.reverseRecOn with
  | nil => exact .ofSource name source
  | append_singleton calls call ih =>
    obtain ⟨hall, hlast⟩ := List.forall_mem_append.1 hcalls
    rcases hlast call List.mem_cons_self with rfl | rfl
    · exact (ih hall).next (.start _)
    · exact (ih hall).comments

/-! ## Two ways of taking comments -/

theorem isFar_congr {c c' d d' : Comment} (hc : shownComment false c = shownComment false c')
    (hd : shownComment false d = shownComment false d') : c.IsFar d ↔ c'.IsFar d' := by
  have hstop := congrArg Comment.stop hc
  have hposition := congrArg Comment.position hd
  simp only [shownComment, Bool.false_eq_true, if_false] at hstop hposition
  rw [IsFar, IsFar, hstop, hposition]

theorem eq_iff_blankBefore {d d' : Comment} (h : shownComment false d = shownComment false d') :
    d = d' ↔ (d.blankBefore = true ↔ d'.blankBefore = true) := by
  rw [← Bool.eq_iff_iff]
  refine ⟨congrArg Comment.blankBefore, fun hnote => ?_⟩
  cases d
  cases d'
  simp_all [shownComment]

/-- Comments that differ in their notes only are the same, if what fills the gaps
between those far apart is the same. -/
theorem eq_iff_of_isNoted {filled filled' : Nat → Prop} {last last' : Option Comment}
    {cs cs' : List Comment} (h : InTurn (IsNoted filled) last cs)
    (h' : InTurn (IsNoted filled') last' cs')
    (hlast : last.map (shownComment false) = last'.map (shownComment false))
    (hshown : cs.map (shownComment false) = cs'.map (shownComment false)) :
    cs = cs' ↔ InTurn (fun last d j => ∀ c ∈ last, c.IsFar d → (filled j ↔ filled' j)) last cs := by
  induction cs generalizing cs' last last' filled filled' with
  | nil =>
    rw [List.map_nil, eq_comm, List.map_eq_nil_iff] at hshown
    simp [hshown, inTurn_nil]
  | cons d cs ih =>
    obtain ⟨d', cs', rfl, hd, hcs⟩ := List.map_eq_cons_iff.1 hshown.symm
    obtain ⟨hnoted, hrest⟩ := inTurn_cons.1 h
    obtain ⟨hnoted', hrest'⟩ := inTurn_cons.1 h'
    rw [IsNoted] at hnoted hnoted'
    rw [inTurn_cons, List.cons.injEq, eq_iff_blankBefore hd.symm, hnoted, hnoted']
    refine and_congr ?_ (ih hrest hrest' (congrArg some hd.symm) hcs.symm)
    cases last with
    | none =>
      rw [Option.map_none, eq_comm, Option.map_eq_none_iff] at hlast
      simp [hlast]
    | some c =>
      obtain ⟨c', rfl, hc⟩ := Option.map_eq_some_iff.1 hlast.symm
      have hfar := isFar_congr hc hd
      simp only [Option.mem_some_iff, exists_eq_left', forall_eq']
      tauto

/-- **Comments do not depend on when they are taken, but for one note.** Read the
tokens of a source and take the comments at any times. All comments together are
those that are pending where none has been taken, with the same texts and places.
A comment is noted as behind a blank line exactly if it is far from the one before
it, unless the comments were taken between the two and code stands between them as
well. So two ways of taking the comments give the same, notes included, exactly if
wherever code stands between two comments far apart both of them or none took the
first one before the second was found. -/
theorem gathered_independent (name source : String) {calls calls' : List Call}
    (hcalls : IsTokenization calls) (hcalls' : IsTokenization calls')
    (hcount : calls'.count .next = calls.count .next) :
    let l := ofSource name source
    (gathered calls l).map (shownComment false)
        = (after (calls.count .next) l).pending.map (shownComment false)
      ∧ InTurn (IsNoted fun j => TakenBehind calls l j ∧ CodeBehind l j) none (gathered calls l)
      ∧ (gathered calls l = gathered calls' l
        ↔ InTurn (fun last d j => ∀ c ∈ last, c.IsFar d → CodeBehind l j →
          (TakenBehind calls l j ↔ TakenBehind calls' l j)) none (gathered calls l)) := by
  intro l
  have htok := tokenizes name source hcalls
  have htok' := tokenizes name source hcalls'
  refine ⟨htok.found, htok.noted, ?_⟩
  rw [eq_iff_of_isNoted htok.noted htok'.noted rfl (by rw [htok.found, htok'.found, hcount])]
  have hsame : ∀ j, (CodeBehind l j → (TakenBehind calls l j ↔ TakenBehind calls' l j))
      ↔ (TakenBehind calls l j ∧ CodeBehind l j ↔ TakenBehind calls' l j ∧ CodeBehind l j) :=
    fun j => by tauto
  simp only [hsame]
  exact Iff.rfl

/-- Two comments far apart with a word between them. -/
def wordBetween : String := "// a\nx\n\n// b\n"

/-- Taking the first comment early changes the note on the second one, and
nothing else. -/
theorem gathered_independent_wordBetween :
    let l := ofSource "a.gsx" wordBetween
    let early := gathered [.next, .comments, .next, .next, .next, .next, .next] l
    let late := gathered [.next, .next, .next, .next, .next, .next] l
    early.map (·.blankBefore) = [false, false] ∧ late.map (·.blankBefore) = [false, true]
      ∧ early.map (shownComment false) = late.map (shownComment false) := by
  have htok : IsTokenization [.next, .comments, .next, .next, .next, .next, .next] := by
    decide
  have htok' : IsTokenization [.next, .next, .next, .next, .next, .next] := by
    decide
  refine ⟨by decide, by decide, ?_⟩
  exact (gathered_independent "a.gsx" wordBetween htok htok' rfl).1.trans
    (gathered_independent "a.gsx" wordBetween htok' htok rfl).1.symm

end Lexer

end Gsx
