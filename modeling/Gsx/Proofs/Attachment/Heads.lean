import Gsx.Proofs.Attachment.Stations
import Gsx.Proofs.Grammar.Accounting
/-!
# The courses of heads

Go that is captured token by token is gone over and nothing else, and so are the
heads of loops, calls and bindings. The head of an element also goes behind braces,
those of its attributes. No head takes comments; only behind the tags of an element,
and behind an opening brace, a comment may be taken.
-/

namespace Gsx.Parse

open TokenStream

variable {α β : Type} {s : TokenStream}

/-- What a reader does that gives something. -/
def Given (q : List Deed → α → Prop) (ds : List Deed) : Option α → Prop
  | some a => q ds a
  | none => False

/-- Nothing is given. -/
theorem Does.nothing {p : List Deed → α → Prop} {k : List Deed → List Deed → Option β → Prop} :
    Does s (Pure.pure none) fun es b => ∀ ds, Given p ds none → k ds es b :=
  .pure fun _ h => h.elim

/-! ## Captured Go -/

namespace Does

theorem goFunc (start : Nat) (p : Position) :
    Does s (Parse.goFunc start p) fun ds f => OverTokens ds ∧ f.leading = none := by
  refine (scan _ _).bind fun s₁ _ => .ofCurrent <| .ite (fun _ => ?_) fun _ => ?_
  · exact (reportAt _ _).bind fun _ _ => .ofLexedOffset fun _ => .ofSourceText fun _ =>
      .pure fun _ h => h.elim
  · refine .ofSourceText fun _ => advanceLine.bind fun _ _ => .pure ?_
    rintro _ ⟨es, rfl, hes⟩ ds hds
    exact ⟨hds.append (hes.cons.append .nil), rfl⟩

theorem goDecl : Does s Parse.goDecl fun ds d => OverTokens ds ∧ d.leading = none := by
  refine .ofCurrent <| (scan _ _).bind fun s₁ _ => .ofCurrent ?_
  split
  · exact .ofLexedOffset fun _ => .ofSourceText fun _ => .pure fun ds hds => ⟨hds.append .nil, rfl⟩
  · exact .ofSourceText fun _ => skipNewlines.bind fun _ _ => .pure fun es hes ds hds =>
      ⟨hds.append (hes.append .nil), rfl⟩
  · refine .ofSourceText fun _ => advanceLine.bind fun _ _ => .pure ?_
    rintro _ ⟨es, rfl, hes⟩ ds hds
    exact ⟨hds.append (hes.cons.append .nil), rfl⟩

theorem goType : Does s Parse.goType fun ds _ => OverTokens ds := by
  refine .ofCurrent <| (scan _ _).bind fun s₁ _ => .ofCurrent <| .ite (fun _ => ?_) fun _ => ?_
  · exact .ofLexedOffset fun _ => .trimmedText fun _ ds hds => hds.append .nil
  · exact .trimmedText fun _ ds hds => hds.append .nil

theorem goStatement : Does s Parse.goStatement fun ds c =>
    OverTokens ds ∧ c.position = s.current.position ∧ c.leading = none := by
  refine .ofCurrent <| (scan _ _).bind fun s₁ _ => .ofCurrent <| .ite (fun _ => ?_) fun _ => ?_
  · exact .ofLexedOffset fun _ => .ofTrimmedText fun _ => .pure fun ds hds =>
      ⟨hds.append .nil, rfl, rfl⟩
  · exact .ofTrimmedText fun _ => .advance <| .pure fun ds hds =>
      ⟨hds.append OverTokens.nil.cons, rfl, rfl⟩

theorem goHeader : Does s Parse.goHeader fun ds _ => OverTokens ds :=
  .ofCurrent <| (skipWhile _).bind fun _ _ => .ofCurrent <| .trimmedText fun _ _ hds =>
    hds.append .nil

theorem goArguments : Does s Parse.goArguments fun ds _ => OverTokens ds :=
  .ofCurrent <| (scan _ _).bind fun _ _ => .ofCurrent <| .trimmedText fun _ _ hds =>
    hds.append .nil

/-- **Text between braces** is gone behind. -/
theorem bracedText : Does s Parse.bracedText (Given fun ds _ => ds = [.braces s.current]) := by
  cases hb : behindBraces s with
  | error f =>
    have hpass : Does s (passBrace f) (Given fun ds _ => ds = [.braces s.current]) :=
      (report _).bind fun _ _ => .advance <| .pure fun _ h => h.elim
    have hrun := run_bracedText_error hb
    refine ⟨?_, ?_⟩ <;> rw [hrun]
    · exact hpass.troubled
    · exact hpass.course
  | ok r =>
    obtain ⟨code, s₁⟩ := r
    have hrun := run_bracedText_ok hb
    obtain ⟨-, -, -, hexhausted, -⟩ := behindBraces_spec hb
    refine ⟨fun h => ?_, fun _ => ?_⟩ <;> rw [hrun]
    · rw [IsTroubled, hexhausted]
      have hdiagnostics : s₁.diagnostics = s.diagnostics := by
        obtain ⟨m, -, rfl⟩ := behindBraces_eq hb
        rfl
      rwa [hdiagnostics]
    · exact ⟨_, .braces hb (.done _), rfl⟩

theorem goExpr : Does s Parse.goExpr (Given fun ds e =>
    ds = [.braces s.current] ∧ e.position = s.current.position ∧ e.leading = none) := by
  refine .ofPosition <| bracedText.bind fun s₁ code => ?_
  cases code with
  | none => exact .nothing
  | some code => exact .pure fun ds hds => ⟨by rw [hds]; rfl, rfl, rfl⟩

end Does

/-! ## Attributes -/

/-- Expressions in a tag tell a course. -/
def ToldBy (ds : List Deed) (es : List GoExpr) : Prop :=
  Told ds (es.flatMap (commentsIn ·.leading)) (es.map GoExpr.station)

theorem ToldBy.append {ds ds' : List Deed} {es es' : List GoExpr} (h : ToldBy ds es)
    (h' : ToldBy ds' es') : ToldBy (ds ++ ds') (es ++ es') := by
  unfold ToldBy
  rw [List.flatMap_append, List.map_append]
  exact Told.append h h'

theorem ToldBy.perm {ds : List Deed} {es es' : List GoExpr} (h : ToldBy ds es) (hp : es.Perm es') :
    ToldBy ds es' :=
  Told.perm h (hp.flatMap_right _) (hp.map _)

/-- A single expression. -/
theorem ToldBy.single {ds : List Deed} {e : GoExpr} (hbare : e.leading = none)
    (h : Told ds [] [e.station]) : ToldBy ds [e] := by
  unfold ToldBy
  rw [List.flatMap_singleton, hbare]
  exact h

namespace Does

theorem floatValue (literal : String) :
    Does s (Parse.floatValue literal) fun ds _ => ds = [] := by
  unfold Parse.floatValue
  cases FloatLiteral.value? literal with
  | some x => exact .pure rfl
  | none => exact reportLast

theorem attributeValue : Does s Parse.attributeValue (Given fun ds v =>
    ToldBy ds v.1.expression?.toList) := by
  refine .ofCurrent ?_
  split
  · exact .advance (.pure (.token _))
  · refine (intValue _).bind fun s₁ n => .advance (.pure ?_)
    rintro _ rfl
    exact .token _
  · refine (floatValue _).bind fun s₁ x => .advance (.pure ?_)
    rintro _ rfl
    exact .token _
  · refine goExpr.bind fun s₁ e => ?_
    cases e with
    | none => exact .nothing
    | some e =>
      refine .pure ?_
      rintro _ ⟨rfl, hposition, hbare⟩
      refine ToldBy.single hbare ?_
      rw [GoExpr.station, hposition]
      exact .embedded _
  · next hkind =>
    refine .advance (.ite (fun _ => .pure (.token _)) fun _ => .ite (fun _ => .pure (.token _))
      fun _ => .pure ?_)
    exact ToldBy.single rfl (.named hkind)
  · exact reportLast

theorem attr : Does s Parse.attr (Given fun ds a => ToldBy ds a.value.expression?.toList) := by
  refine .ofCurrent <| .advance <| .ofKind <| .ite (fun _ => .advance ?_) fun _ => .pure (.token _)
  refine attributeValue.bind fun s₁ v => ?_
  cases v with
  | none => exact .nothing
  | some v =>
    refine .pure fun ds hds => ?_
    rw [List.append_nil]
    exact (Told.cons _ (Told.cons _ hds))

theorem attributes : Does s Parse.attributes fun ds as => ToldBy ds (expressionsOf as) := by
  refine repeated (fun ds es as bs has hbs => ?_) fun s => ?_
  · unfold expressionsOf
    rw [List.filterMap_append]
    exact has.append hbs
  · refine skipNewlines.bind fun s₁ _ => .ofKind <| .ite (fun _ => ?_) fun _ => .pure fun ds hds =>
      .tokens (hds.append .nil)
    refine attr.bind fun s₂ a => ?_
    cases a with
    | none => exact .pure fun _ h => h.elim
    | some a =>
      refine .pure fun es hes ds hds => ?_
      have hvalue : expressionsOf [a] = a.value.expression?.toList := by
        unfold expressionsOf
        rw [List.filterMap_cons, List.filterMap_nil]
        cases a.value.expression? <;> rfl
      change ToldBy _ (expressionsOf [a])
      rw [List.append_nil, hvalue]
      exact (Told.tokens hds).append hes

/-! ## Heads -/

theorem loopVariable (f : GrammarFault) :
    Does s (Parse.loopVariable f) (Given fun ds _ => OverTokens ds) :=
  .ofCurrent <| .ite (fun _ => .advance (.pure OverTokens.nil.cons)) fun _ => reportLast

theorem loopVariables : Does s Parse.loopVariables (Given fun ds _ => OverTokens ds) := by
  refine (loopVariable _).bind fun s₁ first => ?_
  cases first with
  | none => exact .nothing
  | some first =>
    refine .ofKind <| .ite (fun _ => .advance ?_) fun _ => .pure fun ds hds => hds.append .nil
    refine (loopVariable _).bind fun s₂ second => ?_
    cases second with
    | none => exact .nothing
    | some second => exact .pure fun es hes ds hds => hds.append (hes.append .nil).cons

theorem forHead : Does s Parse.forHead (Given fun ds h =>
    OverTokens ds ∧ h.position = s.current.position ∧ h.leading = none) := by
  refine .ofPosition <| .advance <| loopVariables.bind fun s₁ v => ?_
  cases v with
  | none => exact .nothing
  | some v =>
    obtain ⟨index, value⟩ := v
    refine (expect _).bind fun s₂ found => .ite (fun _ => ?_) fun hno => .pure fun es hes =>
      absurd hes.1 hno
    refine .ofKind <| .ite (fun _ => .advance ?_) fun _ => reportLast
    refine goHeader.bind fun s₃ code => skipNewlines.bind fun s₄ _ => .pure ?_
    rintro hs hhs fs hfs es ⟨-, rfl⟩ ds hds
    refine ⟨OverTokens.cons (hds.append (OverTokens.nil.cons.append ?_)), rfl, rfl⟩
    exact (hfs.append (hhs.append .nil)).cons

theorem callHead : Does s Parse.callHead (Given fun ds h =>
    OverTokens ds ∧ h.position = s.current.position ∧ h.leading = none ∧ h.orphans = []) := by
  refine .ofCurrent <| .advance <| (expect _).bind fun s₁ found => .ite (fun _ => ?_) fun hno =>
    .pure fun ds hds => absurd hds.1 hno
  refine goArguments.bind fun s₂ args => (expect _).bind fun s₃ found' => .ite (fun _ => ?_)
    fun hno => .pure fun es hes => absurd hes.1 hno
  refine skipNewlines.bind fun s₄ _ => .pure ?_
  rintro hs hhs fs ⟨-, rfl⟩ es hes ds ⟨-, rfl⟩
  refine ⟨OverTokens.cons (OverTokens.nil.cons.append (hes.append ?_)), rfl, rfl, rfl⟩
  exact OverTokens.nil.cons.append (hhs.append .nil)

theorem letHead : Does s Parse.letHead (Given fun ds h =>
    OverTokens ds ∧ h.position = s.current.position ∧ h.leading = none) := by
  refine .ofPosition <| .advance <| .ofCurrent <| .ite (fun _ => .advance ?_) fun _ => reportLast
  refine (expectLine _).bind fun s₁ found => .ite (fun _ => ?_) fun hno => .pure fun ds hds =>
    absurd hds.1 hno
  exact .pure fun ds hds => ⟨(hds.2.append .nil).cons.cons, rfl, rfl⟩

theorem refName : Does s Parse.refName (Given fun ds _ => OverTokens ds) :=
  .ofKind <| .ite (fun _ => .advance <| .ofCurrent <| .ite
    (fun _ => .advance (.pure OverTokens.nil.cons.cons)) fun _ => reportLast) fun _ => .pure .nil

/-- **An opening tag**, up to the sign that ends it. -/
theorem elementHead : Does s Parse.elementHead (Given fun ds h =>
    ToldBy ds h.expressions ∧ h.position = s.current.position ∧ h.leading = none
      ∧ h.trailing = none ∧ h.orphans = []) := by
  refine .ofPosition <| .advance <| .ofCurrent <| .ite (fun _ => .advance ?_) fun _ => reportLast
  refine refName.bind fun s₁ ref => ?_
  cases ref with
  | none => exact .nothing
  | some ref =>
    refine attributes.bind fun s₂ as => .pure fun es hes ds hds => ⟨?_, rfl, rfl, rfl, rfl⟩
    rw [List.append_nil]
    have hname : Told (.token s.current :: .token s.advanced.current :: ds) [] [] :=
      Told.tokens (OverTokens.cons (OverTokens.cons hds))
    exact hname.append (ToldBy.perm hes (perm_splitKey as))

/-! ## Closing tags -/

theorem closingName (tag : String) : Does s (Parse.closingName tag) fun ds _ => OverTokens ds :=
  .ofCurrent <| .ite (fun _ => .lastAdvance OverTokens.nil.cons) fun _ =>
    (report _).bind fun _ _ => .ite (fun _ => .lastAdvance fun _ h => h.elim) fun _ =>
      .pure fun _ h => h.elim

/-- **A closing tag**, and the comment behind it. -/
theorem closingTag (tag : String) : Does s (Parse.closingTag tag) fun ds g =>
    Told ds (commentsIn g) [] := by
  refine .ofKind <| .ite (fun _ => .advance ?_) fun _ => reportLast
  refine (closingName tag).bind fun s₁ _ => .ofPosition <| (expect _).bind fun s₂ found =>
    .ite (fun _ => ?_) fun hno => .pure fun ds hds => absurd hds.1 hno
  refine (trailingComment _).bind fun s₃ g => skipNewlines.bind fun s₄ _ => .pure ?_
  rintro hs hhs fs rfl es ⟨-, rfl⟩ ds hds
  rw [List.append_nil]
  exact Told.cons _ ((Told.tokens hds).append ((Told.token _).append
    ((Told.trail _).skip (.tokens hhs))))

end Does

end Gsx.Parse
