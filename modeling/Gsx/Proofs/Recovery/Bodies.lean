import Gsx.Proofs.Recovery.Frames
import Gsx.Proofs.Recovery.Noting
/-!
# Bodies with notes

How the lines of a body are read when something is noted on the way. What is noted
while a node is read is noted while its body is read: a loop over the lines adds up the
notes of its rounds, and an element or a directive adds those of its closing tag to
those of what it holds.
-/

namespace Gsx.Recovery

open Parse TokenStream
open Rendering (ends opensMarkup readBody readBody_succ readNode)

variable {α : Type} {source cs cs' cs'' rest text : List Char} {ms ms' ns : List String} {c : Bool}
  {d D depth : Nat} {o : Window} {s s' : TokenStream}

/-- **A reader that notes messages** between two texts. -/
def Notes (source cs : List Char) (m : Parse α) (ms : List String) (cs' : List Char) : Prop :=
  ∀ ns s', Holds source ns cs s' → Holds source (ns ++ ms) cs' (m.run s').2

/-- **What is noted over some lines of a body**, up to a text at which the rounds over
its nodes stop. -/
def NotesNodes (source : List Char) (c : Bool) (depth : Nat) (cs : List Char) (ms : List String)
    (cs' : List Char) : Prop :=
  ∀ ns s' fuel, Holds source ns cs s' → left cs < fuel →
    Holds source (ns ++ ms) cs'
      ((repeatUpTo (bodyRound (ends c) (readNode c depth)) fuel).run s').2

/-- A text whose first line is no else branch. -/
def IsLine (cs : List Char) : Prop := (entry cs).current.kind ≠ .atElse

/-- A text at the end of a body, or of the content of an element. -/
def Stops (c : Bool) (cs : List Char) : Prop :=
  (entry cs).current.kind = .rightBrace ∨ c = true ∧ (entry cs).current.kind = .angleSlash

theorem Stops.isLine (h : Stops c cs) : IsLine cs := by
  rcases h with h | ⟨-, h⟩ <;> rw [IsLine, h] <;> decide

theorem Stops.mono (h : Stops false cs) (c : Bool) : Stops c cs :=
  .inl (h.resolve_right fun hc => absurd hc.1 Bool.false_ne_true)

theorem Stops.ends_eq (h : Stops c cs) : ends c (entry cs).current = true := by
  have hbrace : (entry cs).current.kind = .rightBrace → (entry cs).current.endsBody = true := by
    intro h
    rw [Token.endsBody, h]
    rfl
  cases c with
  | false => exact hbrace (h.resolve_right fun hc => absurd hc.1 Bool.false_ne_true)
  | true =>
    change ((entry cs).current.kind == .angleSlash || (entry cs).current.endsBody) = true
    rcases h with h | ⟨-, h⟩
    · rw [hbrace h, Bool.or_true]
    · rw [h]
      rfl

/-! ## Rounds -/

theorem run_bodyRound_last (node : Parse (Option Node)) (hline : s.current.kind ≠ .newline)
    (hends : ends c s.current = true) :
    (bodyRound (ends c) node).run s = (Round.last [], s) := by
  rw [bodyRound, run_bind_eq rfl, skipNewlines_eq hline, run_current_bind, if_pos hends]
  rfl

theorem run_bodyRound_more (node : Parse (Option Node)) (hline : s.current.kind ≠ .newline)
    (hends : ends c s.current = false) :
    ∃ ps, (bodyRound (ends c) node).run s = (Round.more ps, (node.run (leadingComments.run s).2).2) := by
  rw [bodyRound, run_bind_eq rfl, skipNewlines_eq hline, run_current_bind,
    if_neg (Bool.eq_false_iff.1 hends)]
  exact ⟨_, rfl⟩

/-- The rounds stop where the body ends. -/
theorem notesNodes_stop (h : Stops c cs) : NotesNodes source c depth cs [] cs := by
  intro ns s' fuel hs hfuel
  obtain ⟨fuel, rfl⟩ := Nat.exists_eq_add_one.2 (Nat.zero_lt_of_lt hfuel)
  have hround := run_bodyRound_last (readNode c depth) hs.kind_ne
    ((hs.ends_eq c).trans h.ends_eq)
  rw [repeatUpTo_last fuel (by rw [hround]; rfl), hround, List.append_nil]
  exact hs

/-- **A node and the lines behind it.** -/
theorem NotesNodes.cons (hends : ends c (entry cs).current = false) (hlt : left rest < left cs)
    (hnode : Notes source cs (readNode c depth) ms rest)
    (hs : NotesNodes source c depth rest ms' cs') : NotesNodes source c depth cs (ms ++ ms') cs' := by
  intro ns s' fuel hheld hfuel
  obtain ⟨fuel, rfl⟩ := Nat.exists_eq_add_one.2 (Nat.zero_lt_of_lt hfuel)
  obtain ⟨ps, hround⟩ := run_bodyRound_more (readNode c depth) hheld.kind_ne
    ((hheld.ends_eq c).trans hends)
  rw [repeatUpTo_again fuel (by rw [hround]; rfl), hround, ← List.append_assoc]
  exact hs _ _ fuel (hnode _ _ hheld.leadingComments) (by omega)

/-! ## Whole lines -/

theorem run_readNode_eq (h : c = false → opensMarkup s.current.kind) :
    (readNode c (d + 1)).run s = (contentNode (d + 1)).run s := by
  cases c with
  | true => rfl
  | false => exact (run_readNode_markup (h rfl)).trans (run_readNode_markup (c := true) (h rfl)).symm

section

variable (hcut : o.whole = false) (htidy : o.tidy = false)

include htidy

/-- A comment in front of a node is taken in the source only. -/
theorem joined_leadingComments (h : Joined o s s') : Joined o s (leadingComments.run s').2 := by
  refine ⟨h.lined, h.source_eq, fun hne => ?_, fun hend => stands_leadingComments (h.stands hend)⟩
  rw [run_leadingComments]
  refine (h.meets hne).taking htidy fun c hc => ?_
  rw [List.append_nil] at hc
  exact (List.mem_filter.1 hc).1

include hcut

/-- **A round over a node** of a text that is read alone. -/
theorem joined_round (helse : IsLine o.after) (hle : d ≤ D) (h : Joined o s s')
    (hstart : StartsNode c s) (hline : s.current.kind ≠ .newline) (hfine : Fine (behindNode d s)) :
    ∃ ps u, (bodyRound (ends c) (readNode c D)).run s' = (Round.more ps, u)
      ∧ Joined o (behindNode d s) (skipNewlines.run u).2
      ∧ u = ((readNode c D).run (leadingComments.run s').2).2 := by
  have hmeets := h.meets hstart.there
  have hnode : Fine ((contentNode d).run s).2 := Leading.skipNewlines.fine hfine
  have hends : ends c s'.current = false := by
    rw [hmeets.current_eq, ← hstart.ends_eq]
    cases c <;> rfl
  obtain ⟨ps, hround⟩ := run_bodyRound_more (readNode c D) (hmeets.same_kind ▸ hline) hends
  refine ⟨ps, _, hround, ?_, rfl⟩
  obtain ⟨d, rfl⟩ : ∃ k, d = k + 1 := by
    cases d with
    | zero => exact absurd hnode.exhausted.symm Bool.false_ne_true
    | succ d => exact ⟨d, rfl⟩
  obtain ⟨D, rfl⟩ : ∃ k, D = k + 1 := ⟨D - 1, by omega⟩
  have hx := joined_leadingComments htidy h
  rw [run_readNode_eq fun hc => (hx.meets hstart.there).same_kind ▸ hstart.markup hc]
  exact (hx.contentNode hcut htidy helse hle ⟨hstart.there, hline⟩ hstart.block hnode).skipNewlines hcut
    htidy hfine

end

theorem remaining_leadingComments (s : TokenStream) :
    (leadingComments.run s).2.remaining = s.remaining
      ∧ (leadingComments.run s).2.current = s.current := by
  rw [run_leadingComments]
  exact ⟨rfl, rfl⟩

/-- Behind a node less is left. -/
theorem remaining_round (hlined : s'.Lined) (hthere : IsThere s'.current)
    (hdepth : 4 * s'.remaining + 3 ≤ D) :
    (skipNewlines.run ((readNode c D).run (leadingComments.run s').2).2).2.remaining
      < s'.remaining := by
  obtain ⟨hleft, hcurrent⟩ := remaining_leadingComments s'
  have hx := (Leading.leadingComments s').lined hlined
  have hnode : Consumes IsThere (leadingComments.run s').2.remaining (readNode c D) := by
    cases c with
    | false => exact (reaches _ _).bodyNode (hleft ▸ hdepth)
    | true => exact (reaches _ _).contentNode (hleft ▸ hdepth)
  obtain ⟨hin, hlt⟩ := Moves.remaining_lt hnode hx.toInOrder (hcurrent ▸ hthere) trivial
  have hle := (forward_skipNewlines _ hin le_rfl trivial).1.remaining_le hin
  omega

theorem ReadsNodes.fine (h : ReadsNodes c d s) : Fine s := by
  have hback : ∀ {s}, Fine (behindNode d s) → Fine s := fun hfine =>
    (leading_readNode true d).fine (Leading.skipNewlines.fine hfine)
  induction h with
  | last _ hends => exact hback ⟨hends.exhausted, hends.clean⟩
  | more _ _ ih => exact hback ih

theorem ReadsNodes.begins (h : ReadsNodes c d (entry text)) (hline : ∃ cs, text = cs ++ ['\n']) :
    Begins text :=
  ⟨hline, h.fine.clean, h.start.there⟩

section

variable (hcut : o.whole = false) (htidy : o.tidy = false) (helse : IsLine o.after) (hle : d ≤ D)

include hcut htidy helse hle

/-- The rounds from a node on are those from behind it on. -/
theorem exists_joined_behind (hstart : StartsNode c s) (hfine : Fine (behindNode d s))
    (hjoined : Joined o s s') (hline : s.current.kind ≠ .newline) (hlined : s'.Lined)
    (hfilled : s'.Filled) (hdepth : 4 * s'.remaining + 3 ≤ D) {fuel : Nat}
    (hfuel : s'.remaining < fuel) :
    ∃ t fuel', Joined o (behindNode d s) t ∧ t.Lined ∧ t.Filled ∧ t.remaining < s'.remaining
      ∧ t.remaining < fuel' ∧ ((repeatUpTo (bodyRound (ends c) (readNode c D)) fuel).run s').2
        = ((repeatUpTo (bodyRound (ends c) (readNode c D)) fuel').run t).2 := by
  obtain ⟨ps, u, hrun, hjoined', rfl⟩ := joined_round hcut htidy helse hle hjoined hstart hline hfine
  have hleads : Leading (leadingComments >>= fun _ => readNode c D >>= fun _ => skipNewlines) :=
    .bind .leadingComments fun _ => .bind (leading_readNode c D) fun _ => .skipNewlines
  have hthere : IsThere s'.current := (hjoined.meets hstart.there).same_kind.trans_ne hstart.there
  have hlt := remaining_round (c := c) hlined hthere hdepth
  obtain ⟨fuel, rfl⟩ : ∃ k, fuel = k + 2 := ⟨fuel - 2, by omega⟩
  refine ⟨_, fuel + 1, hjoined', (hleads s').lined hlined, (hleads s').filled hlined hfilled, hlt,
    by omega, ?_⟩
  rw [repeatUpTo_again (fuel + 1) (by rw [hrun]; rfl), hrun, run_rounds_skipNewlines]
  by_cases hend : (behindNode d s).current.kind = .endOfInput
  · rw [hjoined'.kind_eq hcut hend]
    exact kind_entry_ne _
  · rw [(hjoined'.meets hend).same_kind]
    exact kind_skipNewlines hfine.exhausted

/-- **The rounds over whole nodes** lead to where the text behind them starts. -/
theorem ReadsNodes.exists_stands (h : ReadsNodes c d s) (hjoined : Joined o s s')
    (hline : s.current.kind ≠ .newline) (hlined : s'.Lined) (hfilled : s'.Filled)
    (hdepth : 4 * s'.remaining + 3 ≤ D) {fuel : Nat} (hfuel : s'.remaining < fuel) :
    ∃ t fuel', Stands o t ∧ t.Lined ∧ t.Filled ∧ t.remaining < fuel'
      ∧ ((repeatUpTo (bodyRound (ends c) (readNode c D)) fuel).run s').2
          = ((repeatUpTo (bodyRound (ends c) (readNode c D)) fuel').run t).2 := by
  induction h generalizing s' fuel with
  | last hstart hends =>
    obtain ⟨t, fuel', hjoined', hlined', hfilled', -, hfuel', hrun⟩ :=
      exists_joined_behind hcut htidy helse hle hstart ⟨hends.exhausted, hends.clean⟩ hjoined hline
        hlined hfilled hdepth hfuel
    exact ⟨t, fuel', hjoined'.stands hends.kind_eq, hlined', hfilled', hfuel', hrun⟩
  | more hstart hs ih =>
    obtain ⟨t, fuel', hjoined', hlined', hfilled', hlt, hfuel', hrun⟩ :=
      exists_joined_behind hcut htidy helse hle hstart hs.fine hjoined hline hlined hfilled hdepth hfuel
    obtain ⟨t', fuel'', h⟩ := ih hjoined' (kind_skipNewlines hs.fine.exhausted) hlined' hfilled'
      (by omega) hfuel'
    exact ⟨t', fuel'', hrun ▸ h⟩

end

/-- **Whole lines are read without a note.** -/
theorem IsLines.notesNodes (h : IsLines c text) (hrest : IsLine rest)
    (hdepth : 4 * left (text ++ rest) + 3 ≤ depth)
    (hs : NotesNodes source c depth rest ms cs') :
    NotesNodes source c depth (text ++ rest) ms cs' := by
  cases h with
  | nil => exact hs
  | lines hline helse h =>
    intro ns s' fuel hheld hfuel
    have hbegins := h.begins hline
    obtain ⟨o, hcuts, hmeets⟩ := hheld.meets_piece hbegins
    have hle : room text ≤ depth := by
      rw [room]
      have := hbegins.left_append rest
      omega
    have hjoined : Joined o (entry text) s' :=
      ⟨lined_entry text, (source_entry text).trans hcuts.text_eq.symm, fun _ => hmeets,
        fun hend => absurd hend hbegins.there⟩
    rw [← hheld.remaining_eq] at hdepth hfuel
    obtain ⟨t, fuel', hstands, hlined, hfilled, hlt, hrun⟩ := h.exists_stands hcuts.cut hcuts.tidy
      (hcuts.after_eq.symm ▸ hrest) hle hjoined (kind_entry_ne text) hheld.lined hheld.filled hdepth hfuel
    have hheld' := hcuts.holds hlined hfilled hstands
    rw [hrun]
    exact hs ns t fuel' hheld' (hheld'.remaining_eq ▸ hlt)

/-- Behind the lines of a body the comments that no node has claimed are taken. -/
theorem NotesNodes.exists_readBody (h : NotesNodes source c d cs ms cs')
    (hs : Holds source ns cs s') : ∃ t, Holds source (ns ++ ms) cs' t
      ∧ ((readBody c (d + 1)).run s').2 = (orphanComments.run t).2 := by
  refine ⟨_, h ns s' _ hs hs.left_lt_rounds, ?_⟩
  rw [readBody_succ, nodes, run_bind_eq rfl, run_repeated]
  rfl

/-- **A body is read with the notes over its lines.** -/
theorem NotesNodes.readBody (h : NotesNodes source c d cs ms cs') :
    Notes source cs (readBody c (d + 1)) ms cs' := by
  intro ns s' hs
  obtain ⟨t, ht, hbehind⟩ := h.exists_readBody hs
  exact hbehind ▸ ht.orphanComments

/-! ## Closing tags -/

/-- What is noted at a closing tag of whatever name. -/
def mismatches (want got : String) : List String :=
  if got = want then [] else [(GrammarFault.mismatchedClosingTag want got).message]

/-- Where no closing tag stands it is missing. -/
theorem notes_closingTag_missing (h : Stops false cs) (want : String) :
    Notes source cs (closingTag want) [(GrammarFault.expectedClosingTag want).message] cs := by
  intro ns s' hs
  have hbrace := h.resolve_right fun hc => absurd hc.1 Bool.false_ne_true
  rw [closingTag, run_kind_bind, hs.kind_eq, hbrace, if_neg (by decide)]
  exact hs.withError _ _

/-- **A stream at a closing tag**, of whatever name. -/
structure IsTagged (got : String) (s : TokenStream) : Prop where
  sign : s.current.kind = .angleSlash
  name : s.advanced.current.kind = .identifier
  literal : s.advanced.current.literal = got
  closes : s.advanced.advanced.current.kind = .rightAngle

theorem not_clean_withError (place : Position) (f : GrammarFault) : ¬ (s.withError place f).Clean :=
  fun h => absurd h.diagnostics (List.append_ne_nil_of_right_ne_nil _ (List.cons_ne_nil _ _))

theorem run_closingName {got : String} (hname : s.current.kind = .identifier)
    (hliteral : s.current.literal = got) : (closingName got).run s = ((), s.advanced) := by
  rw [closingName, run_current_bind, if_pos (by simp [hname, hliteral])]
  rfl

theorem run_closingName_of_ne {want got : String} (hname : s.current.kind = .identifier)
    (hliteral : s.current.literal = got) (hne : got ≠ want) :
    (closingName want).run s
      = ((), (s.withError s.current.position (.mismatchedClosingTag want got)).advanced) := by
  rw [closingName, run_current_bind, if_neg (by simp [hliteral, hne]), run_bind_eq rfl,
    if_pos hname, hliteral]
  rfl

theorem IsTagged.run_eq {got : String} (h : IsTagged got s) :
    (closingTag got).run s = closingSign.run s.advanced.advanced := by
  rw [closingTag, run_kind_bind, if_pos h.sign, run_bind_eq rfl]
  change (closingName got >>= fun _ => closingSign).run s.advanced = _
  rw [StateT.run_bind, run_closingName h.name h.literal]
  rfl

/-- A tag of another name is closed as well, with a note. -/
theorem IsTagged.run_of_ne {want got : String} (h : IsTagged got s) (hne : got ≠ want) :
    (closingTag want).run s = closingSign.run (s.advanced.withError s.advanced.current.position
      (.mismatchedClosingTag want got)).advanced := by
  rw [closingTag, run_kind_bind, if_pos h.sign, run_bind_eq rfl]
  change (closingName want >>= fun _ => closingSign).run s.advanced = _
  rw [StateT.run_bind, run_closingName_of_ne h.name h.literal hne]
  rfl

theorem leading_closingSign : Leading closingSign :=
  (Crosses.closingSign (o := lineWindow) (p := fun _ => True) rfl rfl).leads

/-- A closing tag that is read without trouble. -/
theorem IsTagged.of_ends {got : String} (h : Ends ((closingTag got).run s).2) : IsTagged got s := by
  have hsign : s.current.kind = .angleSlash := by
    by_contra hne
    rw [closingTag, run_kind_bind, if_neg hne] at h
    exact not_clean_withError _ _ h.clean
  rw [closingTag, run_kind_bind, if_pos hsign, run_bind_eq rfl] at h
  change Ends ((closingName got >>= fun _ => closingSign).run s.advanced).2 at h
  rw [run_bind_eq rfl] at h
  have hname : s.advanced.current.kind = .identifier ∧ s.advanced.current.literal = got := by
    by_contra hne
    rw [closingName, run_current_bind, if_neg (by simpa using hne), run_bind_eq rfl] at h
    have hleads : Leading (if s.advanced.current.kind = .identifier then advance else pure ()) :=
      .ite .advance (.pure _)
    exact not_clean_withError _ _ ((hleads _).clean (leading_closingSign.ends h).2)
  rw [run_closingName hname.1 hname.2] at h
  refine ⟨hsign, hname.1, hname.2, ?_⟩
  by_contra hne
  have hends : Ends (closingSign.run s.advanced.advanced).2 := h
  rw [closingSign, run_bind_eq (m := position) rfl, run_position,
    run_bind_eq (congrArg Prod.fst (run_expect_of_ne hne)), if_neg Bool.false_ne_true,
    run_expect_of_ne hne] at hends
  exact not_clean_withError _ _ hends.clean

theorem leading_closingTag (tag : String) : Leading (closingTag tag) :=
  (Crosses.closingTag (o := lineWindow) (p := fun _ => True) rfl rfl tag).leads

theorem IsClosing.begins {tag : String} (h : IsClosing tag text) : Begins text := by
  refine Alone.begins h (leading_closingTag tag) ?_
  rw [(IsTagged.of_ends h.ends).sign]
  decide

/-- **A closing line closes whatever element is open**, with a note if that is another
one. -/
theorem IsClosing.notes {got : String} (h : IsClosing got text) (want : String) :
    Notes source (text ++ rest) (closingTag want) (mismatches want got) rest := by
  intro ns s' hs
  have htagged := IsTagged.of_ends h.ends
  rw [mismatches]
  by_cases hsame : got = want
  · rw [if_pos hsame, List.append_nil, ← hsame]
    exact (hs.run h h.begins.there (leading_closingTag got) fun o hcut htidy _ => Crosses.closingTag hcut htidy got).2
  · rw [if_neg hsame]
    obtain ⟨o, hcuts, hmeets⟩ := hs.meets_piece h.begins
    -- the two go alike up to the name, and again from behind it
    have hends : Ends (closingSign.run (entry text).advanced.advanced).2 := htagged.run_eq ▸ h.ends
    have hfine : Fine (entry text).advanced.advanced :=
      have h := leading_closingSign.ends hends
      ⟨h.1, h.2⟩
    have hfine' : Fine (entry text).advanced := Leading.advance.fine hfine
    have hsource : (entry text).advanced.lexer.source = text :=
      ((Leads.advanced _).source_eq (lined_entry text)).trans (source_entry text)
    have hname : Within o (entry text).advanced := by
      refine hcuts.within (lined_entry text).advanced hsource hfine' ?_
      rw [htagged.name]
      decide
    have hsign : Within o (entry text).advanced.advanced := by
      refine hcuts.within (lined_entry text).advanced.advanced
        (((Leads.advanced _).source_eq (lined_entry text).advanced).trans hsource) hfine ?_
      rw [htagged.closes]
      decide
    have hbehind := hmeets.advanced hname
    have hnoted := hbehind.noting hfine'.clean.diagnostics s'.advanced.current.position
      (.mismatchedClosingTag want got)
    have htagged' : IsTagged got s' := by
      refine ⟨hmeets.same_kind.trans htagged.sign, hbehind.same_kind.trans htagged.name, ?_,
        (hbehind.advanced hsign).same_kind.trans htagged.closes⟩
      rw [hbehind.current_eq, literal_token]
      exact htagged.literal
    have hcuts' : Cuts (o.noting (o.notes ++ [(GrammarFault.mismatchedClosingTag want got).message]))
        source (ns ++ [(GrammarFault.mismatchedClosingTag want got).message]) text rest :=
      ⟨hcuts.cut, hcuts.tidy, hcuts.source_eq, hcuts.text_eq, hcuts.after_eq,
        congrArg (· ++ _) hcuts.notes_eq⟩
    have hstands := ((Crosses.closingSign (p := fun _ => True) hcuts'.cut hcuts'.tidy).meets _ _
      (hnoted.advanced ⟨hsign.exhausted, hsign.clean, hsign.inside⟩) trivial hends trivial).2
    have hleads := leading_closingTag want s'
    rw [htagged'.run_of_ne hsame] at hleads ⊢
    exact hcuts'.holds (hleads.lined hs.lined) (hleads.filled hs.lined hs.filled) hstands

/-! ## Elements and frames -/

theorem leading_elementOpening : Leading elementOpening :=
  (alike_elementOpening (o := lineWindow)).leads

theorem IsOpening.begins {tag : String} (h : IsOpening tag text) : Begins text := by
  refine Alone.begins h leading_elementOpening fun hend => ?_
  have hgives := h.gives
  rw [elementOpening, run_kind_bind, hend] at hgives
  cases hgives

/-- The opening line of an element opens a node of any body. -/
theorem IsOpening.opens {tag : String} (h : IsOpening tag text) :
    opensMarkup (entry text).current.kind := by
  have hgives := h.gives
  rw [elementOpening, run_kind_bind] at hgives
  split at hgives
  · next hkind => rw [hkind]; rfl
  · next hkind => rw [hkind]; rfl
  · cases hgives

/-- **An element is read with the notes of its content and its closing tag.** -/
theorem IsOpening.notes {tag : String} (h : IsOpening tag text)
    (hcontent : NotesNodes source true d cs ms cs')
    (hclosing : Notes source cs' (closingTag tag) ms' cs'') :
    Notes source (text ++ cs) (readNode c (d + 4)) (ms ++ ms') cs'' := by
  intro ns s' hs
  have hsome : ∀ head : Option ElementHead, head.map ElementHead.tag = some tag → head.isSome :=
    fun head hhead => by rw [← Option.isSome_map, hhead]; rfl
  obtain ⟨heq, hs'⟩ := hs.run h h.begins.there leading_elementOpening fun o hcut _ _ =>
    (crosses_elementOpening hcut).of (fun _ => id) hsome
  rw [h.gives] at heq
  obtain ⟨head, hhead, htag⟩ := Option.map_eq_some_iff.1 heq.symm
  rw [stream_readNode_opening hs.lined hhead hs'.kind_ne, htag, ← List.append_assoc]
  exact hclosing _ _ (hcontent.readBody _ _ hs')

/-- No body ends where a node of any body starts. -/
theorem ends_eq_false {t : Token} (h : opensMarkup t.kind) : ends c t = false := by
  have hcontent : t.endsContent = false := by
    rw [Token.endsContent, Token.endsBody, Token.startsDeclaration, Token.isDeclWord]
    revert h
    cases t.kind <;> first | exact fun h => absurd h Bool.false_ne_true | simp
  cases c with
  | true => exact hcontent
  | false => exact (Bool.or_eq_false_iff.1 hcontent).2

theorem leading_start (f : Frame) (D : Nat) : Leading (f.start D) :=
  (crosses_frameStart (o := lineWindow) (p := fun _ => True) rfl rfl f le_rfl).leads

theorem leading_stop (f : Frame) (D : Nat) : Leading (f.stop D) :=
  have helse : (entry lineWindow.after).current.kind ≠ .atElse := by decide
  (crosses_frameStop (o := lineWindow) (p := fun _ => True) rfl rfl helse f le_rfl).leads

section

variable {opening inner closing : List Char} {f : Frame} (h : IsFrame opening closing f)

include h

theorem IsFrame.begins : Begins opening :=
  h.opens.begins (leading_start f _) (h.word ▸ f.word_ne)

theorem IsFrame.opensMarkup : opensMarkup (entry opening).current.kind := by
  rw [h.word]
  cases f <;> rfl

theorem IsFrame.stops (rest : List Char) : Stops false (closing ++ rest) := by
  have hbegins : Begins closing := h.closes.begins (leading_stop f _) (by rw [h.brace]; decide)
  exact .inl ((hbegins.kind_eq rest).trans h.brace)

theorem IsFrame.closing_pos : 0 < closing.length := by
  obtain ⟨cs, hcs⟩ := h.closes.line
  rw [hcs, List.length_append]
  exact Nat.succ_pos _

/-- **The depth for the body of a block is enough** for what is left. -/
theorem IsFrame.le_depth (hs : Holds source ns (opening ++ cs) s')
    (hdepth : 4 * left (opening ++ cs) + 3 ≤ D + 2) (hstart : ((f.start D).run s').1 = true)
    (hs' : Holds source ns cs ((f.start D).run s').2) : 4 * left cs + 4 ≤ f.depth D := by
  have hleft := h.begins.left_append cs
  have htwo := h.begins.two_le_left
  have hle := left_le cs
  cases f with
  | loop =>
    rw [Frame.depth]
    omega
  | call =>
    rw [Frame.depth]
    omega
  | branch b =>
    rw [← hs'.remaining_eq]
    refine b.le_depth hs.lined.toInOrder ?_ hstart (by rw [hs.remaining_eq]; omega)
    rw [IsThere, hs.kind_eq, h.begins.kind_eq, h.word]
    exact Frame.word_ne _

/-- **A directive is read with the notes over the lines of its block.** -/
theorem IsFrame.notes (hrest : IsLine rest)
    (hdepth : 4 * left (opening ++ (inner ++ (closing ++ rest))) + 3 ≤ depth)
    (hinner : ∀ d, 4 * left (inner ++ (closing ++ rest)) + 3 ≤ d →
      NotesNodes source false d (inner ++ (closing ++ rest)) ms (closing ++ rest)) :
    Notes source (opening ++ (inner ++ (closing ++ rest))) (readNode c depth) ms rest := by
  intro ns s' hs
  have hleft := h.begins.left_append (inner ++ (closing ++ rest))
  have htwo := h.begins.two_le_left
  have hlength : closing.length ≤ (inner ++ (closing ++ rest)).length := by
    simp only [List.length_append]
    omega
  have hpos := h.closing_pos
  obtain ⟨D, rfl⟩ : ∃ k, depth = k + 2 := ⟨depth - 2, by omega⟩
  have hroom : room opening ≤ D := by
    rw [room]
    omega
  obtain ⟨hstart, hs'⟩ := hs.run h.opens h.begins.there (leading_start f D) fun o hcut htidy _ =>
    crosses_frameStart hcut htidy f hroom
  rw [h.opens.gives] at hstart
  have henough := h.le_depth hs hdepth hstart.symm hs'
  obtain ⟨d, hd⟩ : ∃ k, f.depth D = k + 1 := ⟨f.depth D - 1, by omega⟩
  have hbody := (hinner d (by omega)).readBody _ _ hs'
  have hthere : (entry closing).current.kind ≠ .endOfInput := by
    rw [h.brace]
    decide
  rw [f.stream_readNode ?_ hstart.symm hd]
  · refine (hbody.run h.closes hthere (leading_stop f D) fun o hcut htidy hafter =>
      crosses_frameStop hcut htidy (hafter.symm ▸ hrest) f ?_).2
    have := left_le closing
    rw [room]
    omega
  · rw [hs.kind_eq, h.begins.kind_eq, h.word]

end

end Gsx.Recovery
