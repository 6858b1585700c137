import Gsx.Proofs.Recovery.Pieces
/-!
# Reading on after an error

A reader that reports an error reads on, and from then on its stream differs from
one that has met no trouble in what it has noted, and in nothing else. So a stream
is followed through a source piece by piece: it stands in front of what is left of
the source, as if it had just come there, but for the messages noted so far. What is
read alone without trouble is read without a further note.
-/

namespace Gsx

open Parse TokenStream

/-- The same text in its place, with the messages noted so far. -/
def Window.noting (o : Window) (ns : List String) : Window :=
  { o with notes := ns }

namespace TokenStream

variable {o : Window} {s s' : TokenStream}

/-- What has been noted plays no part in where two lexers stand. -/
theorem fits_noting {l l' : Lexer} (h : l.Fits o l') (ns : List String) :
    l.Fits (o.noting ns) l' := by
  have hsame : ∀ {c c' : Comment}, o.SameComment c c' → (o.noting ns).SameComment c c' := fun hc =>
    ⟨hc.text_eq, hc.isBlock_eq, hc.blankBefore_eq, hc.offset_eq, hc.position_eq, hc.stop_eq⟩
  exact ⟨h.source_eq, h.source_eq', h.inside, h.inside', h.exact,
    ⟨h.cursor.rest_eq, h.cursor.offset_eq, h.cursor.position_eq⟩, h.messages_eq,
    fun htidy => ⟨(h.held htidy).1.imp fun _ _ => hsame, (h.held htidy).2⟩⟩

/-- **Only the stream in the source notes a fault**: to the other one that message is
from before the text. -/
theorem Meets.noting (h : s.Meets o s') (hs : s.diagnostics = []) (place : Position)
    (f : GrammarFault) : s.Meets (o.noting (o.notes ++ [f.message])) (s'.withError place f) where
  lined := h.lined
  source_eq := h.source_eq
  source_eq' := h.source_eq'
  current_eq := h.current_eq
  kind_ne := h.kind_ne
  messages_eq := by
    have hmessages := h.messages_eq
    rw [hs] at hmessages ⊢
    rw [List.map_nil, List.append_nil] at hmessages ⊢
    rw [TokenStream.withError, List.map_append, hmessages]
    rfl
  cause_eq := h.cause_eq
  marks := h.marks
  ahead := by
    refine h.ahead.imp (fun hi => ?_) fun hb => ?_
    · exact ⟨fits_noting hi.fits _, hi.peek_eq, hi.kind_ne, hi.last, hi.newline, fun htidy =>
        (hi.comments htidy).imp fun _ _ hc =>
          ⟨hc.text_eq, hc.isBlock_eq, hc.blankBefore_eq, hc.offset_eq, hc.position_eq, hc.stop_eq⟩⟩
    · obtain ⟨l, l', hfits, hrest⟩ := hb.lexer
      exact ⟨hb.cut, hb.last, hb.kind_eq, hb.peek_kind, l, l', fits_noting hfits _, hrest⟩

/-- Up to its first token a text has no grammatical faults. -/
theorem diagnostics_entry (w : List Char) : (entry w).diagnostics = [] := by
  have hscan : ∀ (fuel : Nat) (s : TokenStream), s.diagnostics = [] →
      ((scanUpTo newlineStep fuel ()).run s).2.diagnostics = [] := by
    intro fuel
    induction fuel with
    | zero => exact fun _ => id
    | succ fuel ih =>
      intro s hs
      by_cases hstop : s.current.kind = .endOfInput ∨ newlineStep () s.current = none
      · rwa [run_scanUpTo_stop fuel hstop]
      · obtain ⟨hthere, hstep⟩ := not_or.1 hstop
        obtain ⟨a, ha⟩ := Option.ne_none_iff_exists'.1 hstep
        rw [run_scanUpTo_succ fuel hthere ha]
        exact ih _ hs
  rw [entry, run_skipNewlines]
  exact hscan _ _ (by rw [start_eq])

theorem Stands.noting (h : Stands o s') (place : Position) (f : GrammarFault) :
    Stands (o.noting (o.notes ++ [f.message])) (s'.withError place f) where
  meets o2 hf hwithin := by
    have hold := h.meets (o2.noting o.notes) ⟨hf.before_eq, hf.after_eq, hf.tidy_eq, rfl⟩
      ⟨hwithin.exhausted, hwithin.clean, hwithin.inside⟩
    have hnew : Meets (o2.noting (o.notes ++ [f.message])) (entry o2.text) (s'.withError place f) :=
      hold.noting (diagnostics_entry _) place f
    have hnotes : o2.notes = o.notes ++ [f.message] := hf.notes_eq
    rw [← hnotes] at hnew
    exact hnew
  marked := h.marked

end TokenStream

namespace Recovery

open Rendering

variable {α γ : Type} {o : Window} {source cs rest text : List Char} {ns : List String}
  {s s' : TokenStream} {q : α → Prop} {e : α → γ} {m m' : Parse α}

/-! ## Streams with notes -/

/-- **A stream in front of a text** that has noted some messages: it stands where
reading the text alone would start. -/
structure Holds (source : List Char) (ns : List String) (cs : List Char) (s' : TokenStream) :
    Prop where
  lined : s'.Lined
  filled : s'.Filled
  stands : ∃ o : Window, o.whole = false ∧ o.source = source ∧ o.after = cs ∧ o.notes = ns ∧ Stands o s'

/-- **A window on a piece** of a source, with the messages about what stands before
it. -/
structure Cuts (o : Window) (source : List Char) (ns : List String) (text rest : List Char) :
    Prop where
  cut : o.whole = false
  tidy : o.tidy = false
  source_eq : o.source = source
  text_eq : o.text = text
  after_eq : o.after = rest
  notes_eq : o.notes = ns

theorem Cuts.holds (hc : Cuts o source ns text rest) (hlined : s'.Lined) (hfilled : s'.Filled)
    (h : Stands o s') : Holds source ns rest s' :=
  ⟨hlined, hfilled, o, hc.cut, hc.source_eq, hc.after_eq, hc.notes_eq, h⟩

/-- Up to its last token a piece is within its window. -/
theorem Cuts.within (hc : Cuts o source ns text rest) (hs : s.Lined) (hsource : s.lexer.source = text)
    (hfine : Fine s) (hthere : s.current.kind ≠ .endOfInput) : Within o s := by
  refine ⟨hfine.exhausted, fun _ => hfine.clean, fun _ => ?_⟩
  rw [hc.tidy]
  exact start_lt hs (hsource.trans hc.text_eq.symm) hthere

theorem kind_token (t : Token) : (o.token t).kind = t.kind := rfl

theorem literal_token (t : Token) : (o.token t).literal = t.literal := rfl

theorem ends_token (c : Bool) (t : Token) : ends c (o.token t) = ends c t := by
  cases c <;> rfl

namespace Holds

/-- All that is left is read like alone. -/
theorem meets (h : Holds source ns cs s') :
    ∃ o : Window, o.whole = true ∧ o.tidy = false ∧ o.source = source ∧ o.text = cs ∧ o.notes = ns
      ∧ (entry cs).Meets o s' := by
  obtain ⟨-, -, o, hcut, rfl, rfl, rfl, hstands⟩ := h
  exact ⟨o.rest hcut, rfl, rfl, (o.follows_rest hcut).source_eq, rfl, rfl, meets_rest hcut hstands⟩

theorem current_eq (h : Holds source ns cs s') : ∃ o : Window, s'.current = o.token (entry cs).current := by
  obtain ⟨o, -, -, -, -, -, hmeets⟩ := h.meets
  exact ⟨o, hmeets.current_eq⟩

theorem kind_eq (h : Holds source ns cs s') : s'.current.kind = (entry cs).current.kind := by
  obtain ⟨o, hcurrent⟩ := h.current_eq
  rw [hcurrent, kind_token]

theorem ends_eq (h : Holds source ns cs s') (c : Bool) :
    ends c s'.current = ends c (entry cs).current := by
  obtain ⟨o, hcurrent⟩ := h.current_eq
  rw [hcurrent, ends_token]

theorem kind_ne (h : Holds source ns cs s') : s'.current.kind ≠ .newline := by
  rw [h.kind_eq]
  exact kind_entry_ne cs

theorem remaining_eq (h : Holds source ns cs s') : s'.remaining = left cs := by
  obtain ⟨o, hwhole, -, -, rfl, -, hmeets⟩ := h.meets
  have hstart := congrArg Token.start hmeets.current_eq
  change _ = o.before.length + (entry o.text).current.start at hstart
  rw [remaining, hmeets.source_eq', left_eq, hstart, Window.source, o.after_eq hwhole,
    List.append_nil, List.length_append]
  omega

theorem left_lt_rounds (h : Holds source ns cs s') : left cs < s'.rounds :=
  h.remaining_eq ▸ remaining_lt_rounds s'

theorem depth_le (h : Holds source ns cs s') : 4 * left cs + 8 ≤ s'.depth := by
  have hlt := h.left_lt_rounds
  rw [rounds] at hlt
  rw [depth]
  omega

/-- One message more is noted. -/
theorem withError (h : Holds source ns cs s') (place : Position) (f : GrammarFault) :
    Holds source (ns ++ [f.message]) cs (s'.withError place f) := by
  obtain ⟨hlined, hfilled, o, hcut, hsource, hafter, rfl, hstands⟩ := h
  exact ⟨hlined.of_eq rfl rfl rfl rfl, ⟨hfilled.peek, hfilled.current⟩,
    o.noting (o.notes ++ [f.message]), hcut, hsource, hafter, rfl, hstands.noting place f⟩

/-- The comments in front are taken. -/
theorem leadingComments (h : Holds source ns cs s') :
    Holds source ns cs (leadingComments.run s').2 := by
  obtain ⟨hlined, hfilled, o, hcut, hsource, hafter, hnotes, hstands⟩ := h
  have hleads := Leading.leadingComments s'
  exact ⟨hleads.lined hlined, hleads.filled hlined hfilled, o, hcut, hsource, hafter, hnotes,
    stands_leadingComments hstands⟩

theorem orphanComments (h : Holds source ns cs s') :
    Holds source ns cs (orphanComments.run s').2 := by
  rw [stream_orphanComments]
  exact h.leadingComments

/-! ## Pieces -/

/-- At the first token of a piece the streams are at one place. -/
theorem meets_piece (h : Holds source ns (text ++ rest) s') (hb : Begins text) :
    ∃ o, Cuts o source ns text rest ∧ (entry text).Meets o s' := by
  obtain ⟨-, -, o, hcut, rfl, hafter, rfl, hstands⟩ := h
  let o2 : Window :=
    { before := o.before ++ o.text, text := text, after := rest, whole := false, tidy := false
      notes := o.notes, before_line := o.before_line_rest hcut, text_line := fun _ => hb.line
      after_eq := fun h => absurd h Bool.false_ne_true }
  have hf : o.Follows o2 := ⟨rfl, hafter.symm, rfl, rfl⟩
  have hcuts : Cuts o2 o.source o.notes text rest := ⟨rfl, rfl, hf.source_eq, rfl, rfl, rfl⟩
  exact ⟨o2, hcuts, hstands.meets o2 hf <|
    hcuts.within (lined_entry text) (source_entry text) ⟨(entry_keeps text).2, hb.clean⟩ hb.there⟩

/-- **What is read alone is read in its place**, up to what follows. -/
theorem run (h : Holds source ns (text ++ rest) s') (halone : Alone m q text)
    (hthere : (entry text).current.kind ≠ .endOfInput) (hm' : Leading m')
    (hcross : ∀ o : Window, o.whole = false → o.tidy = false → o.after = rest →
      Crosses o (fun _ => True) q e m m') :
    e (m.run (entry text)).1 = e (m'.run s').1 ∧ Holds source ns rest (m'.run s').2 := by
  have hleads := hm' s'
  obtain ⟨o, hcuts, hmeets⟩ := h.meets_piece
    ⟨halone.line, ((hcross (fileWindow text rest halone.line) rfl rfl rfl).leads.ends halone.ends).2, hthere⟩
  obtain ⟨heq, hstands⟩ := (hcross o hcuts.cut hcuts.tidy hcuts.after_eq).meets _ _ hmeets trivial
    halone.ends halone.gives
  exact ⟨heq, hcuts.holds (hleads.lined h.lined) (hleads.filled h.lined h.filled) hstands⟩

end Holds

end Recovery

end Gsx
