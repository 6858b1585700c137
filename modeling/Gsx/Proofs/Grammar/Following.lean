import Gsx.Proofs.Grammar.Forward
import Gsx.Proofs.Lexer.Lossless
/-!
# Streams and the tokens of the source

The tokens that reading meets are tokens of the source: a stream holds the
first two tokens that some lexer reads from where it stands, and its own lexer
stands behind them. A token depends on nothing but the place where it is read,
so a scan can be told in terms of the tokens of the source alone.
-/

namespace Gsx

/-! ## Tokens and places -/

namespace Lexer

variable {l m : Lexer}

theorem cursor_skipUpTo (h : m.cursor = l.cursor) (fuel : Nat) :
    (skipUpTo fuel m).cursor = (skipUpTo fuel l).cursor := by
  refine rel_skipUpTo (r := fun l m => m.cursor = l.cursor) (fun {l m} h => ?_) h fuel
  have hadvance : ∀ n, m.cursor.advance n = l.cursor.advance n := fun n =>
    congrArg (Cursor.advance n) h
  exact rel_skipOne? (congrArg Cursor.rest h) hadvance (fun _ n _ _ => hadvance n) hadvance

/-- **A token is read off the place where the lexer stands.** -/
theorem next_congr (h : m.cursor = l.cursor) :
    m.next.1 = l.next.1 ∧ m.next.2.cursor = l.next.2.cursor := by
  have htrivia : m.skipTrivia.cursor = l.skipTrivia.cursor := by
    rw [Lexer.skipTrivia, Lexer.skipTrivia, h]
    exact cursor_skipUpTo h _
  simp only [Lexer.next, Lexer.emit, Lexer.startToken, htrivia, and_self]

/-- And so are those behind it. -/
theorem cursor_after (h : m.cursor = l.cursor) (n : Nat) :
    (after n m).cursor = (after n l).cursor := by
  induction n generalizing l m with
  | zero => exact h
  | succ n ih => exact ih (next_congr h).2

theorem token_congr (h : m.cursor = l.cursor) (n : Nat) : m.token n = l.token n :=
  (next_congr (cursor_after h n)).1

theorem token_after (l : Lexer) (m n : Nat) : (after m l).token n = l.token (m + n) := by
  rw [token, token, after_add]

theorem isIn_after (h : l.cursor.IsIn l.source) (n : Nat) :
    (after n l).source = l.source ∧ (after n l).cursor.IsIn l.source :=
  ⟨(grows_after h n).source_eq, (grows_after h n).cursor⟩

end Lexer

/-! ## Streams -/

namespace TokenStream

open Lexer

/-- The stream a number of tokens further. -/
def advancedBy : Nat → TokenStream → TokenStream
  | 0, s => s
  | n + 1, s => advancedBy n s.advanced

theorem advancedBy_add (m n : Nat) (s : TokenStream) :
    advancedBy (m + n) s = advancedBy n (advancedBy m s) := by
  induction m generalizing s with
  | zero => rw [Nat.zero_add]; rfl
  | succ m ih =>
    rw [Nat.add_right_comm]
    exact ih s.advanced

/-- Going on changes nothing but the place. -/
theorem advancedBy_notes (n : Nat) (s : TokenStream) :
    (advancedBy n s).comments = s.comments ∧ (advancedBy n s).diagnostics = s.diagnostics
      ∧ (advancedBy n s).recoveries = s.recoveries
      ∧ (advancedBy n s).interruption = s.interruption := by
  induction n generalizing s with
  | zero => exact ⟨rfl, rfl, rfl, rfl⟩
  | succ n ih => exact ih s.advanced

/-- The stream at the start of a source holds its first two tokens. -/
theorem ofSource_eq (name source : String) :
    TokenStream.ofSource name source
      = ⟨(Lexer.ofSource name source).next.2.next.2, (Lexer.ofSource name source).next.1,
        (Lexer.ofSource name source).next.2.next.1, [], [], [], none, false⟩ := by
  rw [TokenStream.ofSource]

/-- **A stream follows a lexer**: it has read the first two tokens from where
the lexer stands. -/
structure Follows (s : TokenStream) (l : Lexer) : Prop where
  source : s.lexer.source = l.source
  isIn : l.cursor.IsIn l.source
  current : s.current = l.token 0
  peek : s.peek = l.token 1
  cursor : s.lexer.cursor = (after 2 l).cursor

variable {s s' : TokenStream} {l : Lexer}

namespace Follows

theorem of_next (h : l.cursor.IsIn l.source) (hcurrent : s.current = l.next.1)
    (hpeek : s.peek = l.next.2.next.1) (hlexer : s.lexer = l.next.2.next.2) : s.Follows l :=
  ⟨(congrArg Lexer.source hlexer).trans (isIn_after h 2).1, h, hcurrent, hpeek,
    congrArg Lexer.cursor hlexer⟩

theorem ofSource (name source : String) :
    (TokenStream.ofSource name source).Follows (Lexer.ofSource name source) := by
  rw [ofSource_eq]
  exact .of_next (.start _) rfl rfl rfl

/-- Behind some tokens of a source this can be computed. -/
theorem of_after {name source : String} {n : Nat}
    (h : let l := after n (.ofSource name source)
      (s.lexer.source = l.source ∧ s.lexer.cursor = (after 2 l).cursor)
        ∧ s.current = l.token 0 ∧ s.peek = l.token 1) :
    s.Follows (after n (.ofSource name source)) := by
  obtain ⟨⟨hsource, hcursor⟩, hcurrent, hpeek⟩ := h
  obtain ⟨hsame, hin⟩ := isIn_after (l := .ofSource name source) (.start _) n
  exact ⟨hsource, hsame ▸ hin, hcurrent, hpeek, hcursor⟩

theorem inOrder (h : s.Follows l) : s.InOrder := by
  obtain ⟨horder, -, -⟩ := inOrder_of_next (s := { s with lexer := after 2 l }) h.isIn
    h.current h.peek rfl
  obtain ⟨hsource, -⟩ := isIn_after h.isIn 2
  -- of its lexer only the place and the source count
  have hcursor := horder.cursor
  refine ⟨?_, horder.current_le, ?_, horder.current_lt, fun hne => ?_, fun heq => ?_, fun heq => ?_⟩
  · rw [h.cursor, h.source, ← hsource]
    exact horder.cursor
  · rw [h.cursor]
    exact horder.peek_le
  · rw [h.cursor]
    exact horder.peek_lt hne
  · rw [h.source, ← hsource]
    exact horder.current_end heq
  · rw [h.source, ← hsource]
    exact horder.peek_end heq

/-- At the end of the input the lexer has read on to where the current token
starts. -/
theorem lexedOffset_eq (h : s.Follows l) (hend : s.current.kind = .endOfInput) :
    s.lexer.cursor.offset = s.current.start := by
  have horder := h.inOrder
  have hstart := horder.current_end hend
  have hle := horder.cursor.offset_le
  have hcurrent := horder.current_le
  have hpeek := horder.peek_le
  omega

theorem advanced (h : s.Follows l) : s.advanced.Follows (after 1 l) := by
  obtain ⟨hsource, hin⟩ := isIn_after h.isIn 1
  have hlexer : s.lexer.cursor.IsIn s.lexer.source := by
    rw [h.cursor, h.source]
    exact (isIn_after h.isIn 2).2
  obtain ⟨htoken, hcursor⟩ := next_congr h.cursor
  exact ⟨(reads_next hlexer).source_eq.trans (h.source.trans hsource.symm), hsource ▸ hin,
    h.peek, htoken, hcursor⟩

theorem advancedBy (h : s.Follows l) (n : Nat) : (s.advancedBy n).Follows (after n l) := by
  induction n generalizing s l with
  | zero => exact h
  | succ n ih => exact ih h.advanced

/-- Notes leave a stream where it is. -/
theorem of_eq (h : s.Follows l) (hsource : s'.lexer.source = s.lexer.source)
    (hcursor : s'.lexer.cursor = s.lexer.cursor) (hcurrent : s'.current = s.current)
    (hpeek : s'.peek = s.peek) : s'.Follows l :=
  ⟨hsource.trans h.source, h.isIn, hcurrent.trans h.current, hpeek.trans h.peek,
    hcursor.trans h.cursor⟩

/-- Each token takes something of the source. -/
theorem lt_rounds (h : s.Follows l) {n : Nat} (hthere : ∀ i < n, (l.token i).kind ≠ .endOfInput) :
    n < s.rounds := by
  suffices n ≤ s.remaining from this.trans_lt s.remaining_lt_rounds
  induction n generalizing s l with
  | zero => exact Nat.zero_le _
  | succ n ih =>
    have hless : s.advanced.remaining < s.remaining :=
      (advanced_spec h.inOrder).1.remaining_lt (advanced_spec h.inOrder).2
        (h.inOrder.current_lt (h.current ▸ hthere 0 n.succ_pos))
    refine Nat.lt_of_le_of_lt (ih h.advanced fun i hi => ?_) hless
    rw [token_after, Nat.add_comm]
    exact hthere (i + 1) (Nat.succ_lt_succ hi)

theorem behindBraces {code : String} (h : s.Follows l)
    (hb : Parse.behindBraces s = .ok (code, s')) :
    ∃ m : Lexer, m.source = l.source ∧ s'.Follows m := by
  obtain ⟨m, hm, rfl⟩ := behindBraces_eq hb
  obtain ⟨hsource, hcursor, -⟩ := Lexer.readBraces_spec hm
  exact ⟨m, hsource.trans h.source, .of_next (hsource ▸ hcursor) rfl rfl rfl⟩

end Follows

end TokenStream

/-! ## Scans -/

namespace Parse

open Lexer TokenStream

variable {α β σ : Type} {l : Lexer}

/-- **Where a scan stops**: at the end of the input, or at a token that does
not suit it, and at no such token before. -/
structure StopsAt (l : Lexer) (stops : Nat → Prop) (n : Nat) : Prop where
  goes : ∀ i < n, (l.token i).kind ≠ .endOfInput ∧ ¬ stops i
  stop : (l.token n).kind = .endOfInput ∨ stops n

instance (l : Lexer) (stops : Nat → Prop) [DecidablePred stops] (n : Nat) :
    Decidable (StopsAt l stops n) :=
  decidable_of_iff ((∀ i < n, (l.token i).kind ≠ .endOfInput ∧ ¬ stops i)
    ∧ ((l.token n).kind = .endOfInput ∨ stops n)) ⟨fun h => ⟨h.1, h.2⟩, fun h => ⟨h.1, h.2⟩⟩

theorem StopsAt.unique {stops : Nat → Prop} {m n : Nat} (hm : StopsAt l stops m)
    (hn : StopsAt l stops n) : m = n := by
  have hle : ∀ {m n}, StopsAt l stops m → StopsAt l stops n → n ≤ m := fun hm hn =>
    Nat.le_of_not_lt fun hlt => hm.stop.elim (hn.goes _ hlt).1 (hn.goes _ hlt).2
  exact Nat.le_antisymm (hle hn hm) (hle hm hn)

/-- A scan that has gone through some tokens goes on from there. -/
theorem exists_stopsAt_scanUpTo {step : σ → Token → Option σ} {state : Nat → σ} {stops : Nat → Prop}
    (hstop : ∀ n, stops n → step (state n) (l.token n) = none)
    (hgo : ∀ n, ¬ stops n → step (state n) (l.token n) = some (state (n + 1)))
    {fuel n : Nat} {s : TokenStream} (hs : s.Follows (after n l)) (hfuel : s.remaining < fuel)
    (hpast : ∀ i < n, (l.token i).kind ≠ .endOfInput ∧ ¬ stops i) :
    ∃ k, StopsAt l stops (n + k)
      ∧ (scanUpTo step fuel (state n)).run s = (state (n + k), s.advancedBy k) := by
  induction fuel generalizing n s with
  | zero => exact absurd hfuel (Nat.not_lt_zero _)
  | succ fuel ih =>
    have hcurrent : s.current = l.token n := by rw [hs.current, token_after, Nat.add_zero]
    by_cases hend : (l.token n).kind = .endOfInput ∨ stops n
    · have hnone : s.current.kind = .endOfInput ∨ step (state n) s.current = none := by
        rw [hcurrent]
        exact hend.imp_right (hstop n)
      rw [run_scanUpTo_stop fuel hnone]
      exact ⟨0, ⟨hpast, hend⟩, rfl⟩
    · rw [not_or] at hend
      have hthere : s.current.kind ≠ .endOfInput := hcurrent ▸ hend.1
      have hsome : step (state n) s.current = some (state (n + 1)) := hcurrent ▸ hgo n hend.2
      rw [run_scanUpTo_succ fuel hthere hsome]
      have hnext : s.advanced.Follows (after (n + 1) l) := by
        rw [after_add]
        exact hs.advanced
      have hless : s.advanced.remaining < s.remaining :=
        (advanced_spec hs.inOrder).1.remaining_lt (advanced_spec hs.inOrder).2
          (hs.inOrder.current_lt hthere)
      obtain ⟨k, hstops, hrun⟩ := ih hnext (by omega) fun i hi => by
        rcases Nat.lt_succ_iff_lt_or_eq.1 hi with hi | rfl
        · exact hpast i hi
        · exact hend
      have hadd : n + 1 + k = n + (k + 1) := by omega
      rw [hadd] at hstops hrun
      exact ⟨k + 1, hstops, hrun⟩

/-- **A scan** over the tokens of the source: with the state that it has in
front of each token. -/
theorem exists_stopsAt_scan {step : σ → Token → Option σ} (state : Nat → σ) {stops : Nat → Prop}
    (hstop : ∀ n, stops n → step (state n) (l.token n) = none)
    (hgo : ∀ n, ¬ stops n → step (state n) (l.token n) = some (state (n + 1)))
    {s : TokenStream} (hs : s.Follows l) :
    ∃ k, StopsAt l stops k ∧ (scan step (state 0)).run s = (state k, s.advancedBy k) := by
  obtain ⟨k, hstops, hrun⟩ := exists_stopsAt_scanUpTo hstop hgo (n := 0) hs s.remaining_lt_rounds
    fun _ hi => absurd hi (Nat.not_lt_zero _)
  rw [Nat.zero_add] at hstops hrun
  exact ⟨k, hstops, hrun⟩

/-! ## Passing tokens -/

/-- **A reader passes tokens**: in front of the tokens of `l` it gives `a`, moves
over `n` of them and does nothing else. -/
def Passes (l : Lexer) (n : Nat) (r : Parse α) (a : α) : Prop :=
  ∀ s : TokenStream, s.Follows l → r.run s = (a, s.advancedBy n)

namespace Passes

theorem pure (a : α) : Passes l 0 (Pure.pure a) a :=
  fun _ _ => rfl

theorem bind {m n : Nat} {r : Parse α} {f : α → Parse β} {a : α} {b : β} (hr : Passes l m r a)
    (hf : Passes (after m l) n (f a) b) : Passes l (m + n) (r >>= f) b := fun s hs => by
  change (f (r.run s).1).run (r.run s).2 = _
  rw [hr s hs, advancedBy_add]
  exact hf _ (hs.advancedBy m)

/-- Behind a reader that stays where it is. -/
theorem stay {n : Nat} {r : Parse α} {f : α → Parse β} {a : α} {b : β} (hr : Passes l 0 r a)
    (hf : Passes l n (f a) b) : Passes l n (r >>= f) b := by
  have hboth := hr.bind (f := f) hf
  rwa [Nat.zero_add] at hboth

theorem current : Passes l 0 current (l.token 0) :=
  fun _ hs => congrArg (·, _) hs.current

theorem kind : Passes l 0 kind (l.token 0).kind :=
  fun _ hs => congrArg (fun t : Token => (t.kind, _)) hs.current

theorem sourceText (start stop : Nat) :
    Passes l 0 (sourceText start stop) (String.ofList (l.slice start stop)) := fun s hs => by
  have hslice : s.lexer.slice start stop = l.slice start stop := by rw [slice, slice, hs.source]
  exact congrArg (fun cs => (String.ofList cs, s)) hslice

theorem trimmedText (start stop : Nat) :
    Passes l 0 (trimmedText start stop) (Text.trim (String.ofList (l.slice start stop))) :=
  (sourceText start stop).stay (.pure _)

theorem advance : Passes l 1 advance () :=
  fun _ _ => rfl

theorem expect {want : TokenKind} (h : (l.token 0).kind = want) :
    Passes l 1 (expect want) true :=
  kind.stay (by rw [if_pos h]; exact bind (n := 0) advance (.pure true))

theorem scan {step : σ → Token → Option σ} (state : Nat → σ) {stops : Nat → Prop} {n : Nat}
    (hstop : ∀ n, stops n → step (state n) (l.token n) = none)
    (hgo : ∀ n, ¬ stops n → step (state n) (l.token n) = some (state (n + 1)))
    (h : StopsAt l stops n) : Passes l n (scan step (state 0)) (state n) := fun s hs => by
  obtain ⟨k, hk, hrun⟩ := exists_stopsAt_scan state hstop hgo hs
  rwa [hk.unique h] at hrun

end Passes

end Parse

end Gsx
