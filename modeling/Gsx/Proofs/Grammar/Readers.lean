import Gsx.Proofs.Grammar.Forward
/-!
# Every reader moves on

The readers of the grammar one by one: each moves on, and those that are called
at a token which they have to read move the current token to the right. Bodies,
nodes and directives call each other; there the bound on the depth of calls is
compared with what is left of the source.
-/

namespace Gsx.Parse

open TokenStream

variable {p : Token → Prop} {b : Nat}

theorem isThere_of_eq {t : Token} {k : TokenKind} (h : t.kind = k) (hk : k ≠ .endOfInput) :
    IsThere t :=
  fun heq => hk (h.symm.trans heq)

/-! ## Captured Go -/

theorem forward_goFunc (start : Nat) (place : Position) : Forward b (goFunc start place) := by
  refine .bind (forward_scan _ _) fun _ => .bind forward_current fun t => ?_
  split
  · exact .bind (keeps_reportAt _ _).forward fun _ => .bind (keeps_lexedOffset).forward fun _ =>
      .bind (keeps_sourceText _ _).forward fun _ => .pure
  · exact .bind (keeps_sourceText _ _).forward fun _ => .bind forward_advanceLine fun _ => .pure

/-- A declaration is captured from its first word on. -/
theorem consumes_goDecl (hp : ∀ t, p t → t.kind = .identifier) : Consumes p b goDecl := by
  refine .current fun first hfirst => ?_
  have hkind := hp first hfirst
  have hscan : Consumes (· = first) b (scan declStep (0, 0)) := by
    refine consumes_scan ?_
    rintro _ rfl
    refine ⟨isThere_of_eq hkind nofun, ?_⟩
    rw [declStep, hkind]
    rfl
  refine hscan.bind fun _ _ _ => .bind forward_current fun t => ?_
  split
  · exact .bind keeps_lexedOffset.forward fun _ =>
      .bind (keeps_sourceText _ _).forward fun _ => .pure
  · exact .bind (keeps_sourceText _ _).forward fun _ => .bind forward_skipNewlines fun _ => .pure
  · exact .bind (keeps_sourceText _ _).forward fun _ => .bind forward_advanceLine fun _ => .pure

theorem forward_goType : Forward b goType := by
  refine .bind forward_current fun first => .bind (forward_scan _ _) fun _ =>
    .bind forward_current fun t => ?_
  split
  · exact .bind keeps_lexedOffset.forward fun _ => (keeps_trimmedText _ _).forward
  · exact (keeps_trimmedText _ _).forward

theorem isSome_statementStep {k : StatementState} {t : Token} (h : t.kind.startsStatement) :
    (statementStep k t).isSome := by
  unfold TokenKind.startsStatement at h
  split at h
  case h_6 => exact absurd h nofun
  all_goals next hkind => rw [statementStep, hkind]; rfl

theorem isThere_of_startsStatement {t : Token} (h : t.kind.startsStatement) : IsThere t := by
  intro hend
  rw [hend] at h
  exact absurd h nofun

/-- A statement is captured from its first token on. -/
theorem consumes_goStatement (hp : ∀ t, p t → t.kind.startsStatement) :
    Consumes p b goStatement := by
  refine .current fun first hfirst => ?_
  have hkind := hp first hfirst
  have hscan : Consumes (· = first) b (scan statementStep ⟨0, first.kind == .forWord⟩) := by
    refine consumes_scan ?_
    rintro _ rfl
    exact ⟨isThere_of_startsStatement hkind, isSome_statementStep hkind⟩
  refine hscan.bind fun _ _ _ => .bind forward_current fun t => ?_
  split
  · exact .bind keeps_lexedOffset.forward fun _ =>
      .bind (keeps_trimmedText _ _).forward fun _ => .pure
  · exact .bind (keeps_trimmedText _ _).forward fun _ => .bind forward_advance fun _ => .pure

theorem forward_goHeader : Forward b goHeader :=
  .bind forward_current fun _ => .bind (forward_skipWhile _) fun _ =>
    .bind forward_current fun _ => (keeps_trimmedText _ _).forward

theorem forward_goArguments : Forward b goArguments :=
  .bind forward_current fun _ => .bind (forward_scan _ _) fun _ =>
    .bind forward_current fun _ => (keeps_trimmedText _ _).forward

/-- Text between braces is read if the braces close, and the opening brace is
passed if they do not. -/
theorem moves_bracedText {q : Option String → Prop} (h : ∀ f, Moves p b (passBrace f) q) :
    Moves p b bracedText q := by
  intro s hs hle ht
  cases hb : behindBraces s with
  | ok r =>
    rw [run_bracedText_ok hb]
    exact ⟨.single (.braces hb), fun _ => (behindBraces_spec hb).2.2.1⟩
  | error f =>
    rw [run_bracedText_error hb]
    exact h f s hs hle ht

/-- **Reading between braces leaves the opening one behind**, whether they close
or not. -/
theorem consumes_bracedText (hp : ∀ t, p t → IsThere t) : Consumes p b bracedText :=
  moves_bracedText fun _ => (keeps_report _).bind fun _ =>
    (consumes_advance hp).bind fun _ _ _ => .pure

theorem forward_bracedText : Forward b bracedText :=
  moves_bracedText fun _ => .bind (keeps_report _).forward fun _ =>
    .bind forward_advance fun _ => .pure

theorem consumes_goExpr (hp : ∀ t, p t → IsThere t) : Consumes p b goExpr := by
  refine .position fun t ht => (consumes_bracedText ?_).bind fun code _ _ => ?_
  · rintro _ rfl
    exact hp _ ht
  · cases code with
    | some code => exact .pure
    | none => exact .pure

theorem forward_goExpr : Forward b goExpr := by
  refine .bind forward_position fun place => .bind forward_bracedText fun code => ?_
  cases code with
  | some code => exact .pure
  | none => exact .pure

/-! ## Attributes and text -/

theorem forward_attributeValue : Forward b attributeValue := by
  refine .bind forward_current fun t => ?_
  split
  · exact .bind forward_advance fun _ => .pure
  · exact .bind (keeps_intValue _).forward fun _ => .bind forward_advance fun _ => .pure
  · exact .bind (keeps_floatValue _).forward fun _ => .bind forward_advance fun _ => .pure
  · refine .bind forward_goExpr fun e => ?_
    cases e with
    | some e => exact .pure
    | none => exact .pure
  · refine .bind forward_advance fun _ => ?_
    split
    · exact .pure
    · split <;> exact .pure
  · exact .bind (keeps_report _).forward fun _ => .pure

theorem consumes_attr (hp : ∀ t, p t → IsThere t) : Consumes p b attr := by
  refine .current fun t ht => ?_
  have hadvance : Consumes (· = t) b advance := consumes_advance (by rintro _ rfl; exact hp _ ht)
  refine hadvance.bind fun _ _ _ => .bind forward_kind fun k => ?_
  split
  · refine .bind forward_advance fun _ => .bind forward_attributeValue fun v => ?_
    cases v with
    | some v => exact .pure
    | none => exact .pure
  · exact .pure

/-- An attribute follows where its name stands. -/
theorem moves_attributeRound : Moves (fun _ => True) b attributeRound fun r => r.again := by
  refine .bind forward_skipNewlines fun _ => .kind fun t _ => ?_
  split
  · next hkind =>
    have hattr : Consumes (· = t) b attr :=
      consumes_attr (by rintro _ rfl; exact isThere_of_eq hkind nofun)
    exact hattr.bind fun _ _ _ => .pure
  · exact .done nofun

theorem forward_attributes : Forward b attributes :=
  forward_repeated moves_attributeRound

theorem isThere_of_isText {t : Token} (h : t.kind.isText) : IsThere t := by
  intro hend
  rw [hend] at h
  exact absurd h nofun

theorem consumes_text (hp : ∀ t, p t → t.kind.isText) : Consumes p b text := by
  refine .position fun t ht => ?_
  have hscan : Consumes (· = t) b (scan textStep ⟨"", .newline⟩) := by
    refine consumes_scan ?_
    rintro _ rfl
    refine ⟨isThere_of_isText (hp _ ht), ?_⟩
    rw [textStep, if_pos (hp _ ht)]
    rfl
  exact hscan.bind fun _ _ _ => .pure

/-! ## Heads -/

theorem forward_loopVariable (f : GrammarFault) : Forward b (loopVariable f) := by
  refine .bind forward_current fun t => ?_
  split
  · exact .bind forward_advance fun _ => .pure
  · exact .bind (keeps_report _).forward fun _ => .pure

theorem forward_loopVariables : Forward b loopVariables := by
  refine .bind (forward_loopVariable _) fun first => ?_
  cases first with
  | none => exact .pure
  | some first =>
    refine .bind forward_kind fun k => ?_
    split
    · refine .bind forward_advance fun _ => .bind (forward_loopVariable _) fun second => ?_
      cases second with
      | none => exact .pure
      | some second => exact .pure
    · exact .pure

theorem consumes_forHead (hp : ∀ t, p t → IsThere t) : Consumes p b forHead := by
  refine .position fun t ht => ?_
  have hadvance : Consumes (· = t) b advance := consumes_advance (by rintro _ rfl; exact hp _ ht)
  refine hadvance.bind fun _ _ _ => .bind forward_loopVariables fun names => ?_
  cases names with
  | none => exact .pure
  | some names =>
    refine .bind (forward_expect _) fun found => ?_
    split
    · refine .bind forward_kind fun k => ?_
      split
      · exact .bind forward_advance fun _ => .bind forward_goHeader fun _ =>
          .bind forward_skipNewlines fun _ => .pure
      · exact .bind (keeps_report _).forward fun _ => .pure
    · exact .pure

theorem consumes_callHead (hp : ∀ t, p t → IsThere t) : Consumes p b callHead := by
  refine .current fun t ht => ?_
  have hadvance : Consumes (· = t) b advance := consumes_advance (by rintro _ rfl; exact hp _ ht)
  refine hadvance.bind fun _ _ _ => .bind (forward_expect _) fun opened => ?_
  split
  · refine .bind forward_goArguments fun _ => .bind (forward_expect _) fun closed => ?_
    split
    · exact .bind forward_skipNewlines fun _ => .pure
    · exact .pure
  · exact .pure

theorem consumes_letHead (hp : ∀ t, p t → IsThere t) : Consumes p b letHead := by
  refine .position fun t ht => ?_
  have hadvance : Consumes (· = t) b advance := consumes_advance (by rintro _ rfl; exact hp _ ht)
  refine hadvance.bind fun _ _ _ => .bind forward_current fun name => ?_
  split
  · refine .bind forward_advance fun _ => .bind (forward_expectLine _) fun found => ?_
    split <;> exact .pure
  · exact .bind (keeps_report _).forward fun _ => .pure

theorem forward_refName : Forward b refName := by
  refine .bind forward_kind fun k => ?_
  split
  · refine .bind forward_advance fun _ => .bind forward_current fun t => ?_
    split
    · exact .bind forward_advance fun _ => .pure
    · exact .bind (keeps_report _).forward fun _ => .pure
  · exact .pure

theorem consumes_elementHead (hp : ∀ t, p t → IsThere t) : Consumes p b elementHead := by
  refine .position fun t ht => ?_
  have hadvance : Consumes (· = t) b advance := consumes_advance (by rintro _ rfl; exact hp _ ht)
  refine hadvance.bind fun _ _ _ => .bind forward_current fun name => ?_
  split
  · refine .bind forward_advance fun _ => .bind forward_refName fun ref => ?_
    cases ref with
    | none => exact .pure
    | some ref => exact .bind forward_attributes fun _ => .pure
  · exact .bind (keeps_report _).forward fun _ => .pure

theorem forward_closingName (tag : String) : Forward b (closingName tag) := by
  refine .bind forward_current fun t => ?_
  split
  · exact forward_advance
  · refine .bind (keeps_report _).forward fun _ => ?_
    split
    · exact forward_advance
    · exact .pure

theorem forward_closingTag (tag : String) : Forward b (closingTag tag) := by
  refine .bind forward_kind fun k => ?_
  split
  · refine .bind forward_advance fun _ => .bind (forward_closingName _) fun _ =>
      .bind forward_position fun place => .bind (forward_expect _) fun found => ?_
    split
    · exact .bind (keeps_trailingComment _).forward fun _ =>
        .bind forward_skipNewlines fun _ => .pure
    · exact .pure
  · exact .bind (keeps_report _).forward fun _ => .pure

/-! ## Bodies -/

/-- **A round of a body** that goes on has read a token, if its nodes do. -/
theorem moves_bodyRound {ends : Token → Bool} {node : Parse (Option Node)}
    (hends : ∀ t : Token, t.kind = .endOfInput → ends t) (hnode : Consumes IsThere b node) :
    Moves (fun _ => True) b (bodyRound ends node) fun r => r.again := by
  refine .bind forward_skipNewlines fun _ => .current fun t _ => ?_
  split
  · exact .done nofun
  · next hgo =>
    have hthere : IsThere t := fun hend => hgo (hends t hend)
    have hnode' : Consumes (· = t) b node := hnode.of (by rintro _ rfl; exact hthere)
    exact keeps_leadingComments.bind fun _ => hnode'.bind fun _ _ _ => .pure

theorem forward_nodes {ends : Token → Bool} {node : Parse (Option Node)}
    (hends : ∀ t : Token, t.kind = .endOfInput → ends t) (hnode : Consumes IsThere b node) :
    Forward b (nodes ends node) :=
  .bind (forward_repeated (moves_bodyRound hends hnode)) fun _ =>
    .bind forward_orphanComments fun _ => .pure

theorem endsBody_of_end (t : Token) (h : t.kind = .endOfInput) : t.endsBody := by
  rw [Token.endsBody, h]
  rfl

theorem endsContent_of_end (t : Token) (h : t.kind = .endOfInput) : t.endsContent := by
  rw [Token.endsContent, endsBody_of_end t h, Bool.or_true]

theorem consumes_expressionNode (hp : ∀ t, p t → IsThere t) : Consumes p b expressionNode := by
  refine (consumes_goExpr hp).bind fun e _ _ => ?_
  split
  · split <;> exact .pure
  · exact .pure

end Gsx.Parse
