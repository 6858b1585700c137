import Gsx.Proofs.Grammar.Errors
import Gsx.Proofs.Grammar.Heads
import Gsx.Proofs.Recovery.Components
/-!
# Files with a tear

A file in which the closing line of one element is missing is read like the file
without the tear, but for the component with the tear. The declarations in front of it
are the same, since both files start alike up to the lines of the component. Those
behind it are the same, since the brace that closes the component is where reading goes
on in both. Only of a comment behind that brace, on its line, it may be told apart
whether a blank line stands in front of it: that depends on what has been claimed of the
comments before the brace.
-/

namespace Gsx

open Parse TokenStream

namespace Recovery

variable {source inner head tail : List Char} {ms ns : List String} {o : Window} {name : String}
  {ps : List Param} {s t x : TokenStream} {keep : Bool}

/-! ## From the brace on -/

/-- **No comment behind a brace**: no slash stands from the brace that a text starts
with to the end of the next token. -/
def IsQuiet (tail : List Char) : Prop :=
  ∀ k < (entry tail).lexer.cursor.offset, (entry tail).current.start ≤ k → tail[k]? ≠ some '/'

instance (tail : List Char) : Decidable (IsQuiet tail) :=
  inferInstanceAs (Decidable (∀ k < _, _ → _))

/-- The same stream with no comment from before it. -/
def settled (s : TokenStream) : TokenStream :=
  { s with comments := [], lexer := { s.lexer with pending := [], lastCommentLine := 0 } }

/-- No comment is left from before a stream. -/
structure IsSettled (s : TokenStream) : Prop where
  comments : s.comments = []
  pending : s.lexer.pending = []
  line : s.lexer.lastCommentLine = 0

/-- Where no comment from before is left comments count from there on. -/
theorem meets_settled (h : s.Meets o x) (hwhole : o.whole = true) (hx : keep = true → IsSettled x) :
    (settled s).Meets { o with tidy := keep } x where
  lined := h.lined.of_eq rfl rfl rfl rfl
  source_eq := h.source_eq
  source_eq' := h.source_eq'
  current_eq := h.current_eq
  kind_ne := h.kind_ne
  messages_eq := h.messages_eq
  cause_eq := h.cause_eq
  marks := h.marks
  ahead := by
    obtain ⟨hfits, hpeek, hkind, hlast, hnewline, -⟩ := looksInside_of_whole h hwhole
    refine .inl ⟨⟨hfits.source_eq, hfits.source_eq', hfits.inside, hfits.inside', hfits.exact,
      ⟨hfits.cursor.rest_eq, hfits.cursor.offset_eq, hfits.cursor.position_eq⟩, hfits.messages_eq,
      fun hkeep => ?_⟩, hpeek, hkind, hlast, hnewline, fun hkeep => ?_⟩
    · rw [(hx hkeep).pending, (hx hkeep).line]
      exact ⟨.nil, rfl⟩
    · rw [(hx hkeep).comments]
      exact .nil

/-- In front of a brace with no comment behind it no comment is left once those before
it are taken. -/
theorem Holds.isSettled (h : Holds source ns tail t)
    (hbrace : (entry tail).current.kind = .rightBrace) (hquiet : IsQuiet tail) :
    IsSettled (Parse.orphanComments.run t).2 := by
  obtain ⟨-, hfilled, o, hcut, rfl, rfl, -, hstands⟩ := h
  have hmeets := meets_rest hcut hstands
  have hcursor := (looksInside_of_whole hmeets rfl).fits.cursor.offset_eq
  have hcurrent := congrArg Token.start hmeets.current_eq
  have hfills : Lexer.fillsGap t.current.kind := by
    rw [hmeets.same_kind, hbrace]
    rfl
  change t.lexer.cursor.offset = (o.before ++ o.text).length + _ at hcursor
  change t.current.start = (o.before ++ o.text).length + _ at hcurrent
  -- a slash behind the brace would be one of the text
  have hnone : ∀ n, t.current.start ≤ n → n < t.lexer.cursor.offset →
      t.lexer.source[n]? ≠ some '/' := by
    intro n hle hlt
    obtain ⟨k, rfl⟩ := Nat.exists_eq_add_of_le ((Nat.le_add_right _ _).trans (hcurrent ▸ hle))
    rw [hmeets.source_eq', (o.follows_rest hcut).source_eq, Window.source, ← List.append_assoc,
      List.getElem?_append_right (Nat.le_add_right _ _), Nat.add_sub_cancel_left]
    exact hquiet k (by omega) (by omega)
  have hbefore : ∀ c ∈ t.comments ++ t.lexer.pending, c.offset < t.current.start := by
    intro c hc
    obtain ⟨hslash, hlt⟩ := hstands.marked c hc
    rw [← List.length_append] at hlt
    by_contra hge
    exact hnone c.offset (by omega) (by omega) hslash
  have hline : t.lexer.lastCommentLine = 0 := by
    refine (hfilled.current hfills).resolve_right ?_
    rintro ⟨n, hle, hlt, hslash⟩
    exact hnone n hle hlt hslash
  rw [stream_orphanComments, run_leadingComments]
  refine ⟨List.filter_eq_nil_iff.2 fun c hc => ?_, rfl, hline⟩
  simpa using hbefore c hc

/-- What a text gives from its brace on, with no comment from before it. -/
def alone (tail : List Char) : List Declaration × TokenStream :=
  (expectLine .rightBrace >>= fun _ => declarations).run (settled (entry tail))

/-- **What the declarations behind a component give** in the end, but for the messages
from before its brace: what they do alone. Comments count if none stands behind the
brace. -/
structure GivesAlone (ns : List String) (tail : List Char) (r : List Declaration × TokenStream) :
    Prop where
  declarations_eq : ∀ keep, (keep = true → IsQuiet tail) →
    r.1.map (Declaration.plain keep) = (alone tail).1.map (Declaration.plain keep)
  messages_eq : messages r.2 = ns ++ messages (alone tail).2
  cause_eq : r.2.interruption.map (·.cause) = (alone tail).2.interruption.map (·.cause)

theorem lined_settled (h : s.Lined) : (settled s).Lined :=
  h.of_eq rfl rfl rfl rfl

theorem exhausted_settled (s : TokenStream) : (settled s).exhausted = s.exhausted := rfl

theorem run_alone (tail : List Char) : alone tail
    = (expectLine .rightBrace >>= fun _ => repeatUpTo declarationRound (tail.length + 1)).run
        (settled (entry tail)) := by
  have hsource : ((expectLine .rightBrace).run (settled (entry tail))).2.lexer.source = tail :=
    (((Alike.expectLine (o := lineWindow) _).leads _).source_eq (lined_settled (lined_entry tail))).trans
      (source_entry tail)
  rw [alone, run_bind_eq rfl, run_bind_eq rfl, declarations, run_repeated, rounds, hsource]

theorem forward_alone {n : Nat} : Forward n (expectLine .rightBrace >>= fun _ => declarations) :=
  .bind (forward_expectLine _) fun _ => forward_declarations

theorem exhausted_alone (tail : List Char) : (alone tail).2.exhausted = false := by
  rw [alone]
  exact (forward_keeps forward_alone (lined_settled (lined_entry tail)).toInOrder
    ((exhausted_settled _).trans (entry_keeps tail).2)).2

/-- **The declarations behind a component** are those that its brace is in front of. -/
theorem Holds.givesAlone {fuel : Nat} (h : Holds source ns tail t)
    (hbrace : (entry tail).current.kind = .rightBrace) (hfuel : tail.length < fuel) :
    GivesAlone ns tail ((repeatUpTo declarationRound fuel).run
      ((expectLine .rightBrace).run (Parse.orphanComments.run t).2).2) := by
  have hgo : ∀ keep, (keep = true → IsQuiet tail) → ∃ o : Window, o.whole = true ∧ o.notes = ns
      ∧ (alone tail).1.map (Declaration.plain keep) = ((repeatUpTo declarationRound fuel).run
          ((expectLine .rightBrace).run (Parse.orphanComments.run t).2).2).1.map (Declaration.plain keep)
      ∧ (alone tail).2.Meets o ((repeatUpTo declarationRound fuel).run
          ((expectLine .rightBrace).run (Parse.orphanComments.run t).2).2).2 := by
    intro keep hkeep
    obtain ⟨o, hwhole, -, -, rfl, rfl, hmeets⟩ := h.orphanComments.meets
    have hsettled := meets_settled hmeets hwhole fun hk => h.isSettled hbrace (hkeep hk)
    have halike : Alike { o with tidy := keep } (List.map (Declaration.plain keep))
        (expectLine .rightBrace >>= fun _ => repeatUpTo declarationRound (o.text.length + 1))
        (expectLine .rightBrace >>= fun _ => repeatUpTo declarationRound fuel) :=
      (Alike.expectLine _).next fun _ => .repeatUpTo Alike.declarationRound hfuel
    have hwithin := within_of_whole (o := { o with tidy := keep }) hwhole (exhausted_alone o.text)
    rw [run_alone] at hwithin ⊢
    have hall := halike.meets _ _ hsettled hwithin
    rw [run_bind_eq (show ((expectLine .rightBrace).run (Parse.orphanComments.run t).2).1 = _ from rfl)]
      at hall
    exact ⟨{ o with tidy := keep }, hwhole, rfl, hall⟩
  refine ⟨fun keep hkeep => ?_, ?_, ?_⟩
  · obtain ⟨o, -, -, heq, -⟩ := hgo keep hkeep
    exact heq.symm
  · obtain ⟨o, hwhole, rfl, -, hmeets⟩ := hgo false nofun
    exact messages_of_meets hmeets hwhole
  · obtain ⟨o, -, -, -, hmeets⟩ := hgo false nofun
    exact hmeets.cause_eq

/-- Nothing is found wrong behind the last declaration. -/
theorem GivesAlone.behind {ds : List Declaration}
    (h : GivesAlone ns tail (ds, (declarations.run s).2)) :
    GivesAlone ns tail (ds, behindDeclarations s) := by
  have hbehind : behindDeclarations s = (leadingComments.run (declarations.run s).2).2 :=
    stream_orphanComments _
  rw [hbehind, run_leadingComments]
  exact ⟨h.declarations_eq, h.messages_eq, h.cause_eq⟩

/-! ## The whole file -/

theorem filled_ofSource (path source : String) : (TokenStream.ofSource path source).Filled := by
  refine filled_of_next (l := .ofSource path source) (.start _) ?_ ?_ ?_ <;> rw [ofSource_eq]

/-- Behind a file a stream is in front of what follows it. -/
theorem holds_behindRounds {path other file text : String} {n : Nat}
    {hline : ∃ cs, file.toList = cs ++ ['\n']}
    (hend : (behindRounds n (ofSource path file)).current.kind = .endOfInput)
    (hjoined : Joined (fileWindow file.toList text.toList hline)
      (behindRounds n (ofSource path file)) (behindRounds n (ofSource other (file ++ text)))) :
    Holds (file.toList ++ text.toList) [] text.toList
      (behindRounds n (ofSource other (file ++ text))) :=
  have hleads := leads_behindRounds n (ofSource other (file ++ text))
  ⟨hleads.lined (lined_ofSource _ _), hleads.filled (lined_ofSource _ _) (filled_ofSource _ _),
    fileWindow file.toList text.toList hline, rfl, rfl, rfl, rfl, hjoined.stands hend⟩

section

variable {path src : String} {n : Nat}

/-- **The declarations of a source with a component in it**: those in front of the
component, the component, and those behind its brace. -/
theorem exists_declarations
    (h : Holds source [] (head ++ (inner ++ tail)) (behindRounds n (ofSource path src)))
    (hn : n + (head ++ (inner ++ tail)).length ≤ src.toList.length)
    (hagain : ∀ r ∈ firstRounds n (ofSource path src), r.again = true)
    (hhead : IsHead name ps head) (hbrace : (entry tail).current.kind = .rightBrace)
    (hinner : ∀ d, 4 * left (inner ++ tail) + 3 ≤ d →
      NotesNodes source false d (inner ++ tail) ms tail) :
    ∃ c ds, IsTitled name ps c
      ∧ (declarations.run (atDeclarations (ofSource path src))).1
        = (firstRounds n (ofSource path src)).flatMap Round.items ++ .component c :: ds
      ∧ GivesAlone ms tail (ds, (declarations.run (atDeclarations (ofSource path src))).2) := by
  obtain ⟨c, t, hc, ht, hround⟩ := hhead.exists_declarationRound h (.inl hbrace) hinner
  obtain ⟨fuel, hfuel⟩ : ∃ k, n + (k + 1) = src.toList.length + 1 :=
    ⟨src.toList.length - n, by omega⟩
  have htwo := hhead.begins.two_le_left
  have hle := left_le head
  simp only [List.length_append] at hn
  have hgives := Holds.givesAlone ht hbrace (show tail.length < fuel by omega)
  have hmore : (declarationRound.run (behindRounds n (ofSource path src))).1.again = true := by
    rw [hround]
    rfl
  rw [run_declarations_eq hfuel hagain h.kind_ne, repeatUpTo_again fuel hmore, hround]
  exact ⟨c, _, hc, rfl, hgives⟩

/-- What a file with a component in it gives. -/
theorem exists_reading
    (h : Holds source [] (head ++ (inner ++ tail)) (behindRounds n (ofSource path src)))
    (hname : (packageName.run (atPackage (ofSource path src))).1.isSome)
    (hn : n + (head ++ (inner ++ tail)).length ≤ src.toList.length)
    (hagain : ∀ r ∈ firstRounds n (ofSource path src), r.again = true)
    (hhead : IsHead name ps head) (hbrace : (entry tail).current.kind = .rightBrace)
    (hinner : ∀ d, 4 * left (inner ++ tail) + 3 ≤ d →
      NotesNodes source false d (inner ++ tail) ms tail) :
    ∃ g c ds t, SourceFile.read path src = told (some g, t)
      ∧ g.components = ((firstRounds n (ofSource path src)).flatMap Round.items).filterMap
          Declaration.component? ++ c :: ds.filterMap Declaration.component?
      ∧ IsTitled name ps c ∧ GivesAlone ms tail (ds, t) := by
  obtain ⟨c, ds, hc, hrun, hgives⟩ := exists_declarations h hn hagain hhead hbrace hinner
  obtain ⟨package, hpackage⟩ := Option.isSome_iff_exists.1 hname
  obtain ⟨g, hfile, -, hcomponents, -, -⟩ := sourceFile_of_some hpackage
  refine ⟨g, c, ds, behindDeclarations (atDeclarations (ofSource path src)),
    by rw [read_eq, hfile], ?_, hc, hgives.behind⟩
  rw [hcomponents, hrun, List.filterMap_append]
  rfl

end

/-- **The components of two files are the same but for one**, which has the same name
and the same parameters in both: as many as `n` stand in front of it. Where something
stands does not count; comments do if they are to be kept. -/
inductive SameBut (keep : Bool) (n : Nat) (name : String) (ps : List Param) : List Component →
    List Component → Prop
  | intro {earlier earlier' later later' : List Component} {c c' : Component}
      (hn : earlier.length = n) (hearlier : earlier.map (·.plain keep) = earlier'.map (·.plain keep))
      (hc : IsTitled name ps c) (hc' : IsTitled name ps c')
      (hlater : later.map (·.plain keep) = later'.map (·.plain keep)) :
      SameBut keep n name ps (earlier ++ c :: later) (earlier' ++ c' :: later')

/-- The components that the first rounds show. -/
def shownComponents (keep : Bool) (n : Nat) (s : TokenStream) : List Component :=
  ((shownRounds keep n s).flatMap Prod.fst).filterMap Declaration.component?

/-- The declarations of the first rounds show what the rounds show. -/
theorem components_firstRounds (keep : Bool) (n : Nat) (s : TokenStream) :
    (((firstRounds n s).flatMap Round.items).filterMap Declaration.component?).map (·.plain keep)
      = shownComponents keep n s := by
  rw [filterMap_plain (Declaration.component?_plain keep), List.map_flatMap, shownComponents,
    shownRounds, List.flatMap_map]
  rfl

theorem shownComponents_eq {n : Nat} (h : shownRounds keep n s = shownRounds keep n t) :
    shownComponents keep n s = shownComponents keep n t := by
  rw [shownComponents, h, shownComponents]

/-- The first rounds find all components of a file that they lead to the end of. -/
theorem components_eq {path file : String} {n : Nat} {f : SourceFile}
    {restarts : List Recovery} (hread : SourceFile.read path file = .ok ⟨some f, [], restarts⟩)
    (hn : n ≤ file.toList.length)
    (hend : (behindRounds n (ofSource path file)).current.kind = .endOfInput)
    (hagain : ∀ r ∈ firstRounds n (ofSource path file), r.again = true) :
    f.components
      = ((firstRounds n (ofSource path file)).flatMap Round.items).filterMap
          Declaration.component? := by
  obtain ⟨package, -, -, hcomponents, -, -⟩ := declarations_of_read hread
  obtain ⟨fuel, hfuel⟩ : ∃ k, n + (k + 1) = file.toList.length + 1 :=
    ⟨file.toList.length - n, by omega⟩
  have hkind : (behindRounds n (ofSource path file)).current.kind ≠ .newline := by
    rw [hend]
    decide
  have hround := declarationRound_last (s := behindRounds n (ofSource path file))
    (by rw [skipNewlines_eq hkind]; exact hend)
  rw [hcomponents, run_declarations_eq hfuel hagain hkind,
    repeatUpTo_last fuel (by rw [hround]; rfl), hround, Round.last, List.append_nil]

/-- A component can stand behind a file. -/
theorem Begins.toOpens (h : Begins head) : Opens head := by
  refine ⟨h.clean, ?_⟩
  have htwo := h.two_le_left
  rw [left_eq] at htwo
  omega

/-- **What a file gives with a component behind it.** The components in front are those
of the file, and they do not depend on what follows the head of the component. -/
theorem exists_reading_behind {path file : String} {f : SourceFile} {restarts : List Recovery}
    (hread : SourceFile.read path file = .ok ⟨some f, [], restarts⟩)
    (hline : ∃ cs, file.toList = cs ++ ['\n']) (hdecls : f.decls = [])
    (hhead : IsHead name ps head) :
    ∃ shown : Bool → List Component, (shown false).length = f.components.length
      ∧ ∀ inner tail ms, (entry tail).current.kind = .rightBrace →
        (∀ d, 4 * left (inner ++ tail) + 3 ≤ d →
          NotesNodes (file.toList ++ (head ++ (inner ++ tail))) false d (inner ++ tail) ms tail) →
        ∃ g earlier c ds t,
          SourceFile.read path (file ++ String.ofList (head ++ (inner ++ tail))) = told (some g, t)
          ∧ g.components = earlier ++ c :: ds.filterMap Declaration.component?
          ∧ (∀ keep, earlier.map (·.plain keep) = shown keep) ∧ IsTitled name ps c
          ∧ GivesAlone ms tail (ds, t) := by
  obtain ⟨n, hn, hfine, hend, hagain, hjoins⟩ :=
    exists_joined_rounds hread hline (by rw [hdecls]; exact fun _ h => absurd h List.not_mem_nil)
  have hfront : (String.ofList head).toList = head := String.toList_ofList
  have halone := hhead.kind_ne_import []
  rw [List.append_nil] at halone
  obtain ⟨hname₀, hshown₀, hjoined₀⟩ := hjoins path (String.ofList head) (by rwa [hfront])
  refine ⟨fun keep => shownComponents keep n (ofSource path (file ++ String.ofList head)), ?_,
    fun inner tail ms hbrace hinner => ?_⟩
  · have hlength := congrArg List.length (components_firstRounds false n (ofSource path file))
    rw [← components_eq hread hn hend hagain, List.length_map] at hlength
    exact (congrArg List.length (shownComponents_eq hshown₀)).symm.trans hlength.symm
  · obtain ⟨hname, hshown, hjoined⟩ :=
      hjoins path (String.ofList (head ++ (inner ++ tail)))
        (by rw [String.toList_ofList]; exact hhead.kind_ne_import _)
    have hholds := holds_behindRounds hend hjoined
    rw [String.toList_ofList] at hholds
    have hlength : n + (head ++ (inner ++ tail)).length
        ≤ (file ++ String.ofList (head ++ (inner ++ tail))).toList.length := by
      rw [String.toList_append, String.toList_ofList]
      exact (Nat.add_le_add_right hn _).trans_eq List.length_append.symm
    obtain ⟨g, c, ds, t, hg, hcomponents, hc, hgives⟩ := exists_reading hholds hname hlength
      (again_of_shownRounds hshown hagain) hhead hbrace hinner
    refine ⟨g, _, c, ds, t, hg, hcomponents, fun keep => ?_, hc, hgives⟩
    rw [components_firstRounds]
    cases keep with
    | false => exact shownComponents_eq (hshown.symm.trans hshown₀)
    | true =>
      rw [String.ofList_append]
      exact shownComponents_eq <| shownRounds_head hn hfine hend hline (hfront.symm ▸ hhead.line)
        (hfront.symm ▸ hhead.begins.toOpens) hname₀ (again_of_shownRounds hshown₀ hagain) hjoined₀
        (String.ofList (inner ++ tail))

end Recovery

open Recovery in
/-- **A tear is contained.** A file that is read without a diagnostic is read as well
without the line that closes an element of a component, at whatever depth. The components
are the same, but for the one with the tear, and that has the same name and parameters;
their comments are the same if none stands behind the brace that closes it. One closing
tag is found missing, and what else is noted is a closing tag of another name. -/
theorem SourceFile.contains_tear {path file name : String} {head inner torn tail : List Char}
    {ps : List Param} {f g : SourceFile} {restarts restarts' : List Recovery}
    (hread : SourceFile.read path file = .ok ⟨some f, [], restarts⟩)
    (hline : ∃ cs, file.toList = cs ++ ['\n']) (hdecls : f.decls = [])
    (hhead : IsHead name ps head) (htorn : IsTorn false inner torn)
    (hbrace : (entry tail).current.kind = .rightBrace)
    (hwhole : SourceFile.read path (file ++ String.ofList (head ++ (inner ++ tail)))
      = .ok ⟨some g, [], restarts'⟩) :
    ∃ g' notes restarts'' ms tag,
      SourceFile.read path (file ++ String.ofList (head ++ (torn ++ tail)))
        = .ok ⟨some g', notes, restarts''⟩
      ∧ (∀ keep, (keep = true → IsQuiet tail) →
        SameBut keep f.components.length name ps g.components g'.components)
      ∧ notes.map (·.message) = ms ++ [missing tag] ∧ Mismatches ms ∧ ∀ d ∈ notes, d.isError := by
  obtain ⟨shown, hshown, hgo⟩ := exists_reading_behind hread hline hdecls hhead
  have hstop : Stops false tail := .inl hbrace
  obtain ⟨g₁, earlier, c, ds, t, hg, hcomponents, hearlier, hc, hgives⟩ :=
    hgo inner tail [] hbrace fun d hd =>
      htorn.notesNodes_whole hstop.isLine hd (notesNodes_stop hstop)
  obtain ⟨ms, tag, hms, hnotes⟩ := htorn.notesNodes
  obtain ⟨g', earlier', c', ds', t', hg', hcomponents', hearlier', hc', hgives'⟩ :=
    hgo torn tail _ hbrace fun d hd => hnotes tail d hstop hd
  -- nothing is wrong with the whole file, so nothing is with what stands behind the lines
  obtain ⟨hsame, hdiagnostics, hnone⟩ := of_told (hg.symm.trans hwhole)
  cases Option.some.inj hsame
  have hmessages : messages t = [] := by
    rw [messages, ← hdiagnostics]
    rfl
  have hrest := hgives.messages_eq.symm.trans hmessages
  rw [List.nil_append] at hrest
  have hcause := hgives.cause_eq
  rw [hnone] at hcause
  have hnone' : t'.interruption = none :=
    Option.map_eq_none_iff.1 (hgives'.cause_eq.trans hcause.symm)
  have hnotes' := hgives'.messages_eq
  rw [hrest, List.append_nil] at hnotes'
  have htold : SourceFile.read path (file ++ String.ofList (head ++ (torn ++ tail)))
      = .ok ⟨some g', t'.diagnostics ++ t'.lexer.diagnostics, t'.recoveries⟩ := by
    rw [hg', told, hnone']
  refine ⟨g', _, _, ms, tag, htold, fun keep hkeep => ?_, hnotes', hms,
    SourceFile.isError_of_read htold⟩
  have hlength : earlier.length = f.components.length := by
    rw [← hshown, ← hearlier, List.length_map]
  rw [hcomponents, hcomponents']
  refine .intro hlength ((hearlier keep).trans (hearlier' keep).symm) hc hc' ?_
  rw [filterMap_plain (Declaration.component?_plain keep),
    filterMap_plain (Declaration.component?_plain keep), hgives.declarations_eq keep hkeep,
    hgives'.declarations_eq keep hkeep]

namespace Recovery

/-- A file with one component. -/
def firstFile : String := "package p\n@component First() \x7b\n\x7d\n"

/-- The head of a second one. -/
def noteHead : List Char := "\n// A note.\n@component Note(text string) \x7b\n".toList

/-- Its lines: a paragraph with an item and a comment, closed by a line of its own or
not. -/
def noteLines (line : List Char) : List Char :=
  "\t<div>\n".toList ++ (("\t\t<p>\n".toList ++ ("\t\t\t- \x7btext\x7d\n\t\t\t// why\n".toList ++ line))
    ++ "\t</div>\n".toList)

/-- Its end, and a third component. -/
def noteTail : List Char := "\x7d\n\n// Last.\n@component Last() \x7b\n\x7d\n".toList

theorem exists_of_isClean (path source : String)
    (h : (SourceFile.read path source).toOption.any fun r => r.diagnostics.isEmpty && r.file.isSome) :
    ∃ g restarts, SourceFile.read path source = .ok ⟨some g, [], restarts⟩ := by
  cases hr : SourceFile.read path source with
  | error i =>
    rw [hr] at h
    cases h
  | ok r =>
    obtain ⟨_ | g, _ | ⟨d, ds⟩, restarts⟩ := r
    all_goals rw [hr] at h
    · cases h
    · cases h
    · exact ⟨g, restarts, rfl⟩
    · cases h

theorem isLines_item : IsLines true "\t\t\t- \x7btext\x7d\n\t\t\t// why\n".toList := by
  refine .lines ⟨"\t\t\t- \x7btext\x7d\n\t\t\t// why".toList, rfl⟩ (by decide +kernel) ?_
  exact .more (by decide +kernel) (.last (by decide +kernel) (by decide +kernel))

theorem isTorn_noteLines : IsTorn false (noteLines "\t\t</p>\n".toList) (noteLines []) := by
  have hdiv : IsOpening "div" "\t<div>\n".toList :=
    ⟨⟨"\t<div>".toList, rfl⟩, by decide +kernel, by decide +kernel⟩
  have hclose : IsClosing "div" "\t</div>\n".toList :=
    ⟨⟨"\t</div>".toList, rfl⟩, by decide +kernel, trivial⟩
  have hp : IsOpening "p" "\t\t<p>\n".toList :=
    ⟨⟨"\t\t<p>".toList, rfl⟩, by decide +kernel, by decide +kernel⟩
  have hline : IsClosing "p" "\t\t</p>\n".toList :=
    ⟨⟨"\t\t</p>".toList, rfl⟩, by decide +kernel, trivial⟩
  have htorn := IsTorn.inElement (c := false) .nil hdiv (.here .nil hp isLines_item hline .nil) hclose .nil
  simp only [List.nil_append, List.append_nil] at htorn
  unfold noteLines
  rw [List.append_nil]
  exact htorn

end Recovery

open Recovery in
/-- The closing line of the paragraph is missing, and so that of the element around it is
taken for it. -/
theorem SourceFile.contains_tear_note :
    ∃ (g g' : SourceFile) (notes : List Diagnostic) (restarts restarts' : List Recovery)
      (ms : List String) (tag : String),
      SourceFile.read "n.gsx" (firstFile
          ++ String.ofList (noteHead ++ (noteLines "\t\t</p>\n".toList ++ noteTail)))
        = .ok ⟨some g, [], restarts⟩
      ∧ SourceFile.read "n.gsx" (firstFile ++ String.ofList (noteHead ++ (noteLines [] ++ noteTail)))
        = .ok ⟨some g', notes, restarts'⟩
      ∧ SameBut true 1 "Note" [⟨"text", "string", .nowhere⟩] g.components g'.components
      ∧ notes.map (·.message) = ms ++ [missing tag] ∧ Mismatches ms := by
  have hhead : IsHead "Note" [⟨"text", "string", .nowhere⟩] noteHead :=
    ⟨⟨"\n// A note.\n@component Note(text string) \x7b".toList, rfl⟩, by decide +kernel,
      by decide +kernel⟩
  have hread : SourceFile.read "n.gsx" firstFile = .ok ⟨some ⟨"n.gsx", "p", [], [],
      [⟨"First", [], [], false, ⟨2, 1⟩, none, none, []⟩], [], ⟨1, 1⟩, none, []⟩, [], []⟩ := rfl
  obtain ⟨g, restarts, hwhole⟩ := exists_of_isClean "n.gsx" (firstFile
    ++ String.ofList (noteHead ++ (noteLines "\t\t</p>\n".toList ++ noteTail))) (by decide +kernel)
  obtain ⟨g', notes, restarts', ms, tag, htold, hsame, hnotes, hms, -⟩ :=
    contains_tear hread ⟨"package p\n@component First() \x7b\n\x7d".toList, rfl⟩ rfl hhead
      isTorn_noteLines (by decide +kernel) hwhole
  exact ⟨g, g', notes, restarts, restarts', ms, tag, hwhole, htold,
    hsame true fun _ => by decide +kernel, hnotes, hms⟩

end Gsx
