import Gsx.Proofs.Grammar.Outline
import Gsx.Proofs.Grammar.Statements
/-!
# What readers account for

The readers of the grammar, one by one: what each goes over accounts for what it
gives. A reader that gives nothing has passed a fault, unless what it has passed
means nothing where it stands.
-/

namespace Gsx.Parse

open Lexer

variable {α : Type} {l m : Lexer} {is : List Item} {q : List Item → α → Prop}

/-! ## Captured Go -/

theorem slice_after_token (h : l.cursor.IsIn l.source) (n start stop : Nat) :
    (after n l).slice start stop = l.slice start stop := by
  rw [slice, slice, (isIn_after h n).1]

theorem slice_ne_nil {start stop : Nat} (hlt : start < stop) (hin : start < l.source.length) :
    l.slice start stop ≠ [] := by
  rw [slice, ← List.length_pos_iff, List.length_take, List.length_drop]
  omega

/-- What has been gone over is told as one stretch. -/
theorem ToursFrom.asCapture {t : Token} {text : List Char} {r : Parse α}
    (hroute : Route l [.capture t text] m) (h : ToursFrom l [.capture t text] m r q) :
    ToursFrom l is m r q :=
  .retell (fun _ => hroute) (fun hfault => nomatch List.mem_singleton.1 hfault) h

/-- The text of a stretch. -/
theorem ToursFrom.ofStretch (hin : l.cursor.IsIn l.source) {n start stop : Nat}
    {f : String → Parse α}
    (h : ToursFrom l is (after n l) (f (String.ofList (l.slice start stop))) q) :
    ToursFrom l is (after n l) (sourceText start stop >>= f) q := by
  refine .ofSourceText ?_
  rwa [slice_after_token hin]

/-- A stretch up to the current token. -/
theorem ToursFrom.stretch (hin : l.cursor.IsIn l.source) {n : Nat} {f : String → Parse α}
    (h : ToursFrom l [.capture (l.token 0) (l.slice (l.token 0).start (l.token n).start)] (after n l)
      (f (Text.trim (String.ofList (l.slice (l.token 0).start (l.token n).start)))) q) :
    ToursFrom l is (after n l)
      (trimmedText (l.token 0).start ((after n l).token 0).start >>= f) q := by
  refine .ofTrimmedText ?_
  rw [slice_after_token hin, token_after, Nat.add_zero]
  exact .asCapture (.captureTo hin n) h

theorem ToursFrom.lastStretch (hin : l.cursor.IsIn l.source) {n : Nat}
    {q : List Item → String → Prop}
    (h : q [.capture (l.token 0) (l.slice (l.token 0).start (l.token n).start)]
      (Text.trim (String.ofList (l.slice (l.token 0).start (l.token n).start)))) :
    ToursFrom l is (after n l)
      (trimmedText (l.token 0).start ((after n l).token 0).start) q := by
  have hpure : ToursFrom l is (after n l)
      (trimmedText (l.token 0).start ((after n l).token 0).start >>= Pure.pure) q :=
    .stretch hin (.pure h)
  rwa [bind_pure] at hpure

/-- A stretch through the current token, and the line ends behind it. -/
theorem ToursFrom.stretchLine (hin : l.cursor.IsIn l.source) {n : Nat} {f : Unit → Parse α}
    (hthere : (l.token n).kind ≠ .endOfInput)
    (h : ∀ e js, TokensOf (· = .newline) js → ToursFrom l
      ([.capture (l.token 0) (l.slice (l.token 0).start ((l.token n).start + 1))] ++ js) e (f ()) q) :
    ToursFrom l is (after n l) (Parse.advanceLine >>= f) q := by
  have hline : (Parse.advanceLine >>= f)
      = Parse.advance >>= fun u => skipNewlines >>= f := bind_assoc ..
  have hroute := Route.captureThrough hin hthere
  rw [after_add] at hroute
  rw [hline]
  exact .advance (.asCapture hroute
    (.bind (tours_skipNewlines _) fun e js _ _ hjs => h e js hjs))

/-- A capture that is one item, and what it is kept as. -/
def IsHeader (js : List Item) (code : String) : Prop :=
  ∃ first text, js = [.capture first text] ∧ code = Text.trim (String.ofList text)

theorem IsHeader.accounts {js : List Item} {code : String} (h : IsHeader js code) :
    Accounts js [.header code] := by
  obtain ⟨first, text, rfl, hcode⟩ := h
  exact .header hcode

theorem tours_goType : Tours goType IsHeader := fun _ =>
  .ofIsIn fun hin => .ofCurrent <| .scan fun _ _ => .ofCurrent <| .ite
    (fun hend => .ofLexedOffset hend (.lastStretch hin ⟨_, _, rfl, rfl⟩))
    fun _ => .lastStretch hin ⟨_, _, rfl, rfl⟩

theorem tours_goHeader : Tours goHeader IsHeader := fun _ =>
  .ofIsIn fun hin => .ofCurrent <| .scan fun _ _ => .ofCurrent <|
    .lastStretch hin ⟨_, _, rfl, rfl⟩

theorem tours_goArguments : Tours goArguments IsHeader := fun _ =>
  .ofIsIn fun hin => .ofCurrent <| .scan fun _ _ => .ofCurrent <|
    .lastStretch hin ⟨_, _, rfl, rfl⟩

/-! ### Statements -/

theorem statementStep_isSome {s : StatementState} {t : Token} (h : t.kind.startsStatement) :
    statementStep s t ≠ none := by
  cases hkind : t.kind <;> simp_all [TokenKind.startsStatement, statementStep, TokenKind.isOpener,
    TokenKind.isCloser]

theorem kind_of_statementStep {s : StatementState} {t : Token} (h : statementStep s t = none) :
    t.kind = .newline ∨ t.kind = .semicolon := by
  rw [statementStep] at h
  split at h
  case h_2 hkind => exact .inl hkind
  case h_3 hkind => exact .inr hkind
  case h_1 => cases h
  case h_4 =>
    split at h
    · cases h
    · split at h <;> cases h

/-- A scan goes over a first token that suits it. -/
theorem StopsAt.pos {stops : Nat → Prop} {n : Nat} (h : StopsAt l stops n)
    (hthere : (l.token 0).kind ≠ .endOfInput) (hfirst : ¬ stops 0) : 0 < n := by
  refine Nat.pos_of_ne_zero ?_
  rintro rfl
  exact h.stop.elim hthere hfirst

theorem isThere_of_startsStatement' {k : TokenKind} (h : k.startsStatement) : k ≠ .endOfInput := by
  rintro rfl
  cases h

/-- The stretch from a token that is there. -/
theorem slice_token_ne_nil (hin : l.cursor.IsIn l.source) (hthere : (l.token 0).kind ≠ .endOfInput)
    {stop : Nat} (hlt : (l.token 0).start < stop) : l.slice (l.token 0).start stop ≠ [] :=
  slice_ne_nil hlt (start_token_lt_length hin hthere)

theorem toursAt_goStatement (hstart : (l.token 0).kind.startsStatement) :
    ToursAt l goStatement fun js c => Accounts js [.node ⟨.statement, c.position, c.code⟩] := by
  refine .ofIsIn fun hin => .ofCurrent <| .scan fun n hn => .ofCurrent ?_
  have hthere := isThere_of_startsStatement' hstart
  have hpos : 0 < n := hn.pos hthere (statementStep_isSome hstart)
  have hcapture : Accounts [.capture (l.token 0) (l.slice (l.token 0).start (l.token n).start)]
      [.node ⟨.statement, (l.token 0).position,
        Text.trim (String.ofList (l.slice (l.token 0).start (l.token n).start))⟩] :=
    .captured ⟨rfl, slice_token_ne_nil hin hthere (start_token_lt_of_lt hin hpos hthere), hstart, rfl⟩
  refine .ite (fun hend => .ofLexedOffset hend (.stretch hin (.pure hcapture))) fun hmore => ?_
  refine .stretch hin (.advance (.pure (hcapture.skip (.token ?_))))
  -- what ends a statement is no tag
  rw [token_after, Nat.add_zero] at hmore ⊢
  obtain hkind | hkind := kind_of_statementStep (hn.stop.resolve_left hmore) <;> rw [hkind] <;> rfl

/-! ### Declarations and functions -/

theorem declStep_isSome {d : Int × Int} {t : Token} (h : t.kind = .identifier) :
    declStep d t ≠ none := by
  rw [declStep, h]
  exact Option.some_ne_none _

theorem toursAt_goDecl (hfirst : (l.token 0).isDeclWord) :
    ToursAt l goDecl fun js d => Accounts js [.node ⟨.declaration, d.position, d.code⟩] := by
  have hkind : (l.token 0).kind = .identifier := by
    rw [Token.isDeclWord, Bool.and_eq_true, beq_iff_eq] at hfirst
    exact hfirst.1
  have hthere : (l.token 0).kind ≠ .endOfInput := by
    rw [hkind]
    exact nofun
  refine .ofIsIn fun hin => .ofCurrent <| .scan fun n hn => .ofCurrent ?_
  have hpos : 0 < n := hn.pos hthere (declStep_isSome hkind)
  have hcapture : ∀ stop, (l.token 0).start < stop →
      Accounts [.capture (l.token 0) (l.slice (l.token 0).start stop)]
        [.node ⟨.declaration, (l.token 0).position,
          String.ofList (l.slice (l.token 0).start stop)⟩] := fun stop hstop =>
    .captured ⟨rfl, slice_token_ne_nil hin hthere hstop, hfirst, rfl⟩
  have hlt := start_token_lt_of_lt hin hpos hthere
  split
  · next hend =>
    refine .ofLexedOffset hend (.ofStretch hin (.asCapture ?_ (.pure (hcapture _ ?_))))
    all_goals rw [token_after, Nat.add_zero]
    · exact .captureTo hin n
    · exact hlt
  · refine .ofStretch hin (.asCapture ?_ (.bind (tours_skipNewlines _) fun e js _ _ hjs =>
      .pure ((hcapture _ ?_).skip (.lines hjs))))
    all_goals rw [token_after, Nat.add_zero]
    · exact .captureTo hin n
    · exact hlt
  · next hend _ =>
    rw [token_after, Nat.add_zero] at hend
    refine .ofStretch hin (.stretchLine hin hend fun e js hjs => .pure ?_)
    rw [token_after, Nat.add_zero]
    exact (hcapture _ (Nat.lt_succ_of_lt hlt)).skip (.lines hjs)

/-- **A function is told from its first token on**, whatever has been read of it
as a head before. -/
theorem toursFrom_goFunc (hin : l.cursor.IsIn l.source) (hfirst : (l.token 0).kind = .funcWord)
    {n : Nat} (hpos : 0 < n) :
    ToursFrom l is (after n l) (goFunc (l.token 0).start (l.token 0).position) fun js g =>
      Accounts js [.node ⟨.function, g.position, g.code⟩] := by
  have hthere : (l.token 0).kind ≠ .endOfInput := by
    rw [hfirst]
    exact nofun
  have hcapture : ∀ stop, (l.token 0).start < stop →
      Accounts [.capture (l.token 0) (l.slice (l.token 0).start stop)]
        [.node ⟨.function, (l.token 0).position,
          String.ofList (l.slice (l.token 0).start stop)⟩] := fun stop hstop =>
    .captured ⟨rfl, slice_token_ne_nil hin hthere hstop, hfirst, rfl⟩
  refine .scan fun k _ => .ofCurrent ?_
  rw [← after_add, token_after, Nat.add_zero]
  have hlt := start_token_lt_of_lt hin (Nat.add_pos_left hpos k) hthere
  refine .ite (fun hend => ?_) fun hend => ?_
  · refine .bind (tours_reportAt _ _ _) fun e js _ hroute hjs => ?_
    subst hjs
    cases hroute with
    | fault hroute =>
      cases hroute
      refine .ofLexedOffset (by rwa [token_after, Nat.add_zero]) (.ofStretch hin ?_)
      rw [token_after, Nat.add_zero]
      -- the fault is told before the stretch
      refine .retell
        (fun _ => (.fault (.captureTo hin _) : Route l [.fault, .capture (l.token 0) _] _))
        (fun _ => List.mem_append_right _ (List.mem_singleton_self _)) (.pure ?_)
      exact Accounts.append (.fault (List.mem_singleton_self _)) (hcapture _ hlt)
  · refine .ofStretch hin (.stretchLine hin hend fun e js hjs => .pure ?_)
    exact (hcapture _ (Nat.lt_succ_of_lt hlt)).skip (.lines hjs)

/-! ### Text between braces -/

/-- What text between braces accounts for: one item, or a fault. -/
def IsBraced (t : Token) (js : List Item) : Option String → Prop
  | some code => ∃ text, js = [.braces t text] ∧ code = String.ofList text
  | none => .fault ∈ js

theorem toursAt_passBrace (f : BraceFault) : ToursAt l (passBrace f) (IsBraced (l.token 0)) :=
  .bind (tours_report _ l) fun _ _ _ _ hjs => .advance (.pure
    (List.mem_append_left _ (hjs ▸ List.mem_singleton_self _)))

theorem toursAt_bracedText : ToursAt l bracedText (IsBraced (l.token 0)) := fun s hs => by
  cases hb : behindBraces s with
  | error f =>
    rw [run_bracedText_error hb]
    exact toursAt_passBrace f s hs
  | ok r =>
    rw [run_bracedText_ok hb]
    obtain ⟨code, s'⟩ := r
    obtain ⟨b, hr, rfl⟩ := TokenStream.behindBraces_eq hb
    obtain ⟨rest, n, hopening, hclosing, htext, hbehind⟩ := exists_of_readBraces hr
    rw [hs.follows.source, hs.follows.current] at hopening
    have hsource : b.source = l.source := by rw [hbehind, ← hs.follows.source]
    have hcursor : b.cursor = (Cursor.start l.source).advance ((l.token 0).start + n + 2) := by
      rw [hbehind, ← hs.follows.source, ← hs.follows.current]
    refine ⟨_, b, ⟨.braces hopening hclosing hsource hcursor (.nil b),
      .of_next (Route.isIn_behind hsource hcursor) rfl rfl rfl,
      fun hfault => Item.noConfusion (List.mem_singleton.1 hfault)⟩, id, _, rfl, htext⟩

/-- What an expression in braces accounts for. -/
def IsExpression (t : Token) (js : List Item) : Option GoExpr → Prop
  | some e => ∃ text, js = [.braces t text] ∧ t.position = e.position
    ∧ e.code = Text.trim (String.ofList text)
  | none => .fault ∈ js

theorem toursAt_goExpr : ToursAt l goExpr (IsExpression (l.token 0)) := by
  refine .ofPosition <| .bind toursAt_bracedText fun _ js code _ hcode => ?_
  cases code with
  | none => exact .pure hcode
  | some code =>
    obtain ⟨text, rfl, rfl⟩ := hcode
    exact .pure ⟨text, rfl, rfl, rfl⟩

/-! ## Attributes and text -/

/-- What the value of an attribute accounts for. -/
def AccountsValue (js : List Item) (v : AttributeValue) : Prop :=
  Accounts js (v.expression?.toList.map GoExpr.value)

theorem tours_floatValue (literal : String) :
    Tours (floatValue literal) fun js _ => js = [] ∨ js = [.fault] := fun l => by
  rw [floatValue]
  cases FloatLiteral.value? literal with
  | some x => exact .pure (.inl rfl)
  | none => exact .bind (tours_report _ l) fun _ _ _ _ hjs => .pure (.inr hjs)

theorem tours_attributeValue : Tours attributeValue fun js r =>
    match r with
    | some v => AccountsValue js v.1
    | none => .fault ∈ js := fun l => by
  refine .ofCurrent ?_
  split
  · next hkind => exact .advance (.pure (.token (hkind ▸ rfl)))
  · next hkind =>
    refine .bind (tours_intValue _ l) fun e js _ hroute hjs => ?_
    subst hjs
    cases hroute
    exact .advance (.pure (.token (hkind ▸ rfl)))
  · next hkind =>
    refine .bind (tours_floatValue _ l) fun e js _ hroute hjs => .advance (.pure ?_)
    have htoken : ∀ next, Accounts [.token (l.token 0) next] [] := fun _ => .token (hkind ▸ rfl)
    obtain rfl | rfl := hjs
    · cases hroute
      exact htoken _
    · exact Accounts.fault List.mem_cons_self
  · refine .bind toursAt_goExpr fun _ js e _ he => ?_
    cases e with
    | none => exact .pure he
    | some e =>
      obtain ⟨text, rfl, hposition, hcode⟩ := he
      exact .pure (Accounts.bracedValue ⟨hposition, hcode⟩)
  · next hkind =>
    refine .advance (.ite (fun _ => .pure (.token (hkind ▸ rfl))) fun _ =>
      .ite (fun _ => .pure (.token (hkind ▸ rfl))) fun _ => .pure ?_)
    exact Accounts.namedValue ⟨hkind, rfl, rfl⟩
  · exact .bind (tours_report _ l) fun _ _ _ _ hjs => .pure (by
      rw [hjs]
      exact List.mem_singleton_self _)

theorem tours_attr (hname : (l.token 0).kind = .identifier) : ToursAt l attr fun js r =>
    match r with
    | some a => AccountsValue js a.value
    | none => .fault ∈ js := by
  have htoken : ∀ next, Accounts [.token (l.token 0) next] [] := fun _ => .token (hname ▸ rfl)
  refine .ofCurrent <| .advance <| .ofKind <| .ite (fun hequals => .advance ?_) fun _ =>
    .pure (htoken _)
  refine .bind (tours_attributeValue _) fun _ js v _ hv => ?_
  cases v with
  | none => exact .pure (List.mem_append_right _ hv)
  | some v => exact .pure (((htoken _).append (.token (hequals ▸ rfl))).append hv)

/-- The expressions among the values of attributes. -/
def expressionsOf (as : List Attribute) : List GoExpr :=
  as.filterMap (·.value.expression?)

theorem tours_attributes : Tours attributes fun js as =>
    Accounts js ((expressionsOf as).map GoExpr.value) := by
  refine Tours.repeated (.fault (List.mem_singleton_self _)) (fun is js as bs has hbs => ?_)
    fun l => ?_
  · rw [expressionsOf, List.filterMap_append, List.map_append]
    exact has.append hbs
  · refine .bind (tours_skipNewlines l) fun e js _ _ hjs => .ofKind <| .ite (fun hname => ?_)
      fun _ => .pure (.lines hjs)
    refine .bind (tours_attr hname) fun _ ks a _ ha => .pure ?_
    cases a with
    | none => exact .fault (List.mem_append_right _ ha)
    | some a =>
      have hvalue : expressionsOf [a] = a.value.expression?.toList := by
        rw [expressionsOf, List.filterMap_cons, List.filterMap_nil]
        cases a.value.expression? <;> rfl
      have hboth := (Accounts.lines hjs).append ha
      rw [← hvalue] at hboth
      exact hboth

/-- The key comes out of the attributes; no expression is lost. -/
theorem perm_splitKey (as : List Attribute) :
    (expressionsOf as).Perm ((splitKey as).1.toList ++ expressionsOf (splitKey as).2) := by
  induction as with
  | nil => exact .refl _
  | cons a rest ih =>
    rw [splitKey]
    split
    · next e _ hvalue =>
      rw [expressionsOf, List.filterMap_cons, hvalue]
      exact .refl _
    · rw [expressionsOf, List.filterMap_cons, expressionsOf, List.filterMap_cons]
      cases a.value.expression? with
      | none => exact ih
      | some e => exact (ih.cons e).trans List.perm_middle.symm

theorem kind_of_textStep {a : TextState} {t : Token} (h : textStep a t ≠ none) : t.kind.isText := by
  rw [textStep] at h
  split at h
  · next ht => exact ht
  · exact absurd rfl h

theorem startsTag_of_isText {k : TokenKind} (h : k.isText) : k.startsTag = false := by
  cases k <;> first | rfl | cases h

/-- Text only grows. -/
theorem prefix_textStep {a b : TextState} {t : Token} (h : textStep a t = some b) :
    a.text.toList <+: b.text.toList := by
  rw [textStep] at h
  split at h
  · cases h
    simp only [String.toList_append, List.append_assoc]
    exact List.prefix_append _ _
  · cases h

/-- **Text starts with its first token.** -/
theorem prefix_scanState_textStep (hfirst : ¬ ScanStops textStep l ⟨"", .newline⟩ 0) (n : Nat) :
    (l.token 0).literal.toList
      <+: (scanState textStep l ⟨"", .newline⟩ (n + 1)).text.toList := by
  induction n with
  | zero =>
    have htext := kind_of_textStep hfirst
    have hspace : ((l.token 0).kind.isWord
        && (TokenKind.newline.isWord || TokenKind.newline.wantsSpace)) = false := Bool.and_false _
    have hstep := step_scanState hfirst
    rw [scanState, textStep, if_pos htext, hspace] at hstep
    rw [← Option.some.inj hstep]
    exact List.prefix_rfl
  | succ n ih =>
    by_cases hstops : ScanStops textStep l ⟨"", .newline⟩ (n + 1)
    · rw [scanState, hstops, Option.getD_none]
      exact ih
    · exact ih.trans (prefix_textStep (step_scanState hstops))

theorem toursAt_text (htext : (l.token 0).kind.isText) :
    ToursAt l text fun js t => Accounts js [.node ⟨.text, t.position, t.text⟩] := by
  refine .ofPosition <| .scan fun n hn => .pure ?_
  have hthere : (l.token 0).kind ≠ .endOfInput := by
    intro hend
    rw [hend] at htext
    cases htext
  have hfirst : ¬ ScanStops textStep l ⟨"", .newline⟩ 0 := by
    rw [ScanStops, textStep, if_pos htext]
    exact Option.some_ne_none _
  obtain ⟨k, rfl⟩ := Nat.exists_eq_succ_of_ne_zero (hn.pos hthere hfirst).ne'
  rw [List.nil_append, passed_cons]
  have hnode : ∀ next, Accounts [.token (l.token 0) next] [.node ⟨.text, (l.token 0).position,
      (scanState textStep l ⟨"", .newline⟩ (k + 1)).text⟩] := fun _ =>
    .node (fun h => Sign.noConfusion h) (startsTag_of_isText htext) ⟨rfl, htext, prefix_scanState_textStep hfirst k⟩
  refine (hnode _).skip (.tokens fun i hi => ?_)
  obtain ⟨j, hj, rfl⟩ := mem_passed.1 hi
  rw [token_after, token_after]
  exact ⟨_, _, rfl, startsTag_of_isText
    (kind_of_textStep (hn.goes (1 + j) (by omega)).2)⟩

end Gsx.Parse
