import Gsx.Grammar.SourceFile
import Gsx.Proofs.Grammar.ReadersAlike
/-!
# Captured Go, attributes and heads go alike

The readers that do not call each other. Captured Go is source text between two
tokens, so its offsets differ by what stands before the text; where it goes up
to the end of the input, so does the text.
-/

namespace Gsx.Parse

open TokenStream

variable {o : Window}

/-! ## Captured Go -/

namespace Alike

/-- Only a text that goes up to the end of the source has an end of input. -/
theorem InText.whole {t : Token} (h : InText o t) (hend : t.kind = .endOfInput) :
    o.whole = true := by
  rw [← Bool.not_eq_false]
  exact fun hcut => h.kind_ne hcut hend

theorem goFunc (start : Nat) (p p' : Position) :
    Alike o (GoFunc.plain o.tidy) (Parse.goFunc start p)
      (Parse.goFunc (o.before.length + start) p') := by
  refine (scan (fun _ _ => rfl) _).next fun _ => currentIn (fun t => ?_) fun t ht => ?_
  · exact .ite (.bind (.reportAt _ _) fun _ => .bind .lexedOffset fun _ =>
      .bind (.sourceText _ _) fun _ => .pure _)
      (.bind (.sourceText _ _) fun _ => .bind .advanceLine fun _ => .pure _)
  · refine ite (fun hend => ?_) fun hne => ?_
    · exact (reportAt _ _ _).next fun _ => lexedOffset (ht.whole hend) fun _ =>
        (sourceText _ (.inr (ht.whole hend))).next fun _ => .pure rfl
    · exact (sourceText _ (.inl (ht.start_lt hne))).next fun _ =>
        advanceLine.next fun _ => .pure rfl

theorem goDecl : Alike o (GoDecl.plain o.tidy) Parse.goDecl Parse.goDecl := by
  refine current fun first => (scan (fun _ _ => rfl) _).next fun _ =>
    currentIn (fun t => ?_) fun t ht => ?_
  · split
    · exact .bind .lexedOffset fun _ => .bind (.sourceText _ _) fun _ => .pure _
    · exact .bind (.sourceText _ _) fun _ => .bind .skipNewlines fun _ => .pure _
    · exact .bind (.sourceText _ _) fun _ => .bind .advanceLine fun _ => .pure _
  · simp only [Window.token]
    split
    · next hend =>
      exact lexedOffset (ht.whole hend) fun _ =>
        (sourceText _ (.inr (ht.whole hend))).next fun _ => .pure rfl
    · exact (sourceText _ (.inl ht.start_le)).next fun _ => skipNewlines.next fun _ => .pure rfl
    · next hne _ =>
      exact (sourceText _ (.inl (ht.start_lt hne))).next fun _ =>
        advanceLine.next fun _ => .pure rfl

theorem goType : Alike o id Parse.goType Parse.goType := by
  refine current fun first => (scan (fun _ _ => rfl) _).next fun _ =>
    currentIn (fun t => ?_) fun t ht => ?_
  · exact .ite (.bind .lexedOffset fun _ => .trimmedText _ _) (.trimmedText _ _)
  · refine ite (fun hend => ?_) fun _ => trimmedText _ (.inl ht.start_le)
    exact lexedOffset (ht.whole hend) fun _ => trimmedText _ (.inr (ht.whole hend))

theorem goStatement : Alike o (GoCode.plain o.tidy) Parse.goStatement Parse.goStatement := by
  refine current fun first => (scan (fun _ _ => rfl) _).next fun _ =>
    currentIn (fun t => ?_) fun t ht => ?_
  · exact .ite (.bind .lexedOffset fun _ => .bind (.trimmedText _ _) fun _ => .pure _)
      (.bind (.trimmedText _ _) fun _ => .bind .advance fun _ => .pure _)
  · refine ite (fun hend => ?_) fun _ => ?_
    · exact lexedOffset (ht.whole hend) fun _ =>
        (trimmedText _ (.inr (ht.whole hend))).next fun _ => .pure rfl
    · exact (trimmedText _ (.inl ht.start_le)).next fun _ => advance.next fun _ => .pure rfl

theorem goHeader : Alike o id Parse.goHeader Parse.goHeader :=
  current fun _ => (skipWhile fun _ => rfl).next fun _ =>
    currentIn (fun _ => .trimmedText _ _) fun _ ht => trimmedText _ (.inl ht.start_le)

theorem goArguments : Alike o id Parse.goArguments Parse.goArguments :=
  current fun _ => (scan (fun _ _ => rfl) _).next fun _ =>
    currentIn (fun _ => .trimmedText _ _) fun _ ht => trimmedText _ (.inl ht.start_le)

/-! ## Text between braces -/

theorem passBrace (f : BraceFault) : Alike o id (Parse.passBrace f) (Parse.passBrace f) :=
  (report _).next fun _ => advance.next fun _ => .pure rfl

theorem bracedText : Alike o id Parse.bracedText Parse.bracedText := by
  refine ⟨fun s => ?_, fun s s' hs hwithin => ?_⟩
  · cases hb : behindBraces s with
    | ok r =>
      rw [run_bracedText_ok hb]
      exact .braces hb
    | error f =>
      rw [run_bracedText_error hb]
      exact (passBrace (o := o) f).leads s
  · cases hb : behindBraces s with
    | ok r =>
      rw [run_bracedText_ok hb] at hwithin ⊢
      obtain ⟨t', hb', ht'⟩ := hs.behindBraces hb hwithin
      rw [run_bracedText_ok hb']
      exact ⟨rfl, ht'⟩
    | error f =>
      rw [run_bracedText_error hb] at hwithin ⊢
      cases hwhole : o.whole with
      | true =>
        rw [run_bracedText_error (hs.behindBraces_error hwhole hb)]
        exact (passBrace f).meets s s' hs hwithin
      | false =>
        -- the fault is noted, so something is wrong
        have hclean := (Leads.advanced _).clean (hwithin.clean hwhole)
        exact absurd hclean.diagnostics (List.append_ne_nil_of_right_ne_nil _ (List.cons_ne_nil _ _))

theorem goExpr :
    Alike o (Option.map (GoExpr.plain o.tidy)) Parse.goExpr Parse.goExpr :=
  position fun _ => bracedText.next fun code => by
    cases code with
    | some code => exact .pure rfl
    | none => exact .pure rfl

/-! ## Attributes and text -/

theorem intValue (literal : String) :
    Alike o id (Parse.intValue literal) (Parse.intValue literal) := by
  rw [Parse.intValue]
  split
  · exact .pure rfl
  · next cause _ =>
    refine ⟨fun s => .of_note rfl rfl rfl id id fun h => ?_,
      fun s s' hs _ => ⟨rfl, hs.interrupted cause⟩⟩
    change (s.interruption <|> some ⟨cause, s.recoveries⟩) = none at h
    cases hi : s.interruption with
    | none => rfl
    | some i =>
      rw [hi] at h
      cases h

theorem floatValue (literal : String) :
    Alike o id (Parse.floatValue literal) (Parse.floatValue literal) := by
  rw [Parse.floatValue]
  split
  · exact .pure rfl
  · exact (report _).next fun _ => .pure rfl

/-- What shows of an attribute value. -/
abbrev showValue (o : Window) (r : AttributeValue × Position) : AttributeValue :=
  r.1.plain o.tidy

theorem attributeValue :
    Alike o (Option.map (showValue o)) Parse.attributeValue Parse.attributeValue := by
  refine current fun t => ?_
  simp only [Window.token]
  split
  · exact advance.next fun _ => .pure rfl
  · exact (intValue _).next fun _ => advance.next fun _ => .pure rfl
  · exact (floatValue _).next fun _ => advance.next fun _ => .pure rfl
  · exact goExpr.option (.pure rfl) fun e e' he =>
      .pure (congrArg (fun e => some (AttributeValue.expression e)) he)
  · exact advance.next fun _ => ite (fun _ => .pure rfl) fun _ =>
      ite (fun _ => .pure rfl) fun _ => .pure rfl
  · exact (report _).next fun _ => .pure rfl

theorem attr : Alike o (Option.map (Attribute.plain o.tidy)) Parse.attr Parse.attr := by
  refine current fun t => advance.next fun _ => kind fun k => ite (fun _ => ?_) fun _ => .pure rfl
  exact advance.next fun _ => attributeValue.option (.pure rfl) fun v v' hv =>
    .pure (congrArg (fun v => some (Attribute.mk t.literal v .nowhere .nowhere)) hv)

theorem toList_map_eq {α γ : Type} {e : α → γ} {a a' : Option α} (h : a.map e = a'.map e) :
    a.toList.map e = a'.toList.map e := by
  rw [← Option.toList_map, ← Option.toList_map, h]

theorem attributeRound :
    Alike o (showRound (Attribute.plain o.tidy)) Parse.attributeRound Parse.attributeRound :=
  skipNewlines.next fun _ => kind fun _ => ite
    (fun _ => attr.bind fun _ _ h => .pure (congrArg (·, true) (toList_map_eq h)))
    fun _ => .pure rfl

theorem attributes :
    Alike o (List.map (Attribute.plain o.tidy)) Parse.attributes Parse.attributes :=
  repeated attributeRound

/-- What shows of text. -/
abbrev showText (t : TextContent) : String :=
  t.text

theorem text : Alike o showText Parse.text Parse.text :=
  position fun _ => (scan (fun _ _ => rfl) _).next fun _ => .pure rfl

/-! ## Heads -/

theorem loopVariable (f : GrammarFault) :
    Alike o id (Parse.loopVariable f) (Parse.loopVariable f) :=
  current fun _ => ite (fun _ => advance.next fun _ => .pure rfl)
    fun _ => (report _).next fun _ => .pure rfl

theorem loopVariables : Alike o id Parse.loopVariables Parse.loopVariables := by
  refine (loopVariable _).next fun first => ?_
  cases first with
  | none => exact .pure rfl
  | some first =>
    refine kind fun _ => ite (fun _ => ?_) fun _ => .pure rfl
    refine advance.next fun _ => (loopVariable _).next fun second => ?_
    cases second with
    | none => exact .pure rfl
    | some second => exact .pure rfl

theorem forHead : Alike o (Option.map (ForHead.plain o.tidy)) Parse.forHead Parse.forHead := by
  refine position fun _ => advance.next fun _ => loopVariables.next fun names => ?_
  cases names with
  | none => exact .pure rfl
  | some names =>
    refine (expect _).next fun _ => ite (fun _ => kind fun _ => ite (fun _ => ?_) fun _ => ?_)
      fun _ => .pure rfl
    · exact advance.next fun _ => goHeader.next fun _ => skipNewlines.next fun _ => .pure rfl
    · exact (report _).next fun _ => .pure rfl

theorem callHead : Alike o (Option.map (CallHead.plain o.tidy)) Parse.callHead Parse.callHead := by
  refine current fun t => advance.next fun _ => (expect _).next fun _ => ite (fun _ => ?_)
    fun _ => .pure rfl
  exact goArguments.next fun _ => (expect _).next fun _ => ite
    (fun _ => skipNewlines.next fun _ => .pure rfl) fun _ => .pure rfl

theorem letHead : Alike o (Option.map (LetHead.plain o.tidy)) Parse.letHead Parse.letHead := by
  refine position fun _ => advance.next fun _ => current fun t => ite (fun _ => ?_) fun _ =>
    (report _).next fun _ => .pure rfl
  exact advance.next fun _ => (expectLine _).next fun _ => ite (fun _ => .pure rfl)
    fun _ => .pure rfl

theorem refName : Alike o id Parse.refName Parse.refName :=
  kind fun _ => ite
    (fun _ => advance.next fun _ => current fun _ => ite
      (fun _ => advance.next fun _ => .pure rfl) fun _ => (report _).next fun _ => .pure rfl)
    fun _ => .pure rfl

theorem elementHead :
    Alike o (Option.map (ElementHead.plain o.tidy)) Parse.elementHead Parse.elementHead := by
  refine position fun _ => advance.next fun _ => current fun t => ite (fun _ => ?_) fun _ =>
    (report _).next fun _ => .pure rfl
  refine advance.next fun _ => refName.next fun ref => ?_
  cases ref with
  | none => exact .pure rfl
  | some ref =>
    refine attributes.bind fun as as' has => .pure ?_
    have hsplit : (Option.map (GoExpr.plain o.tidy) (splitKey as).1,
          List.map (Attribute.plain o.tidy) (splitKey as).2)
        = (Option.map (GoExpr.plain o.tidy) (splitKey as').1,
          List.map (Attribute.plain o.tidy) (splitKey as').2) := by
      rw [← splitKey_plain, ← splitKey_plain]
      exact congrArg splitKey has
    obtain ⟨hkey, hattributes⟩ := Prod.mk.inj hsplit
    simp only [Option.map_some, ElementHead.plain, hkey, hattributes, Window.token]

theorem closingName (tag : String) :
    Alike o id (Parse.closingName tag) (Parse.closingName tag) :=
  current fun _ => ite (fun _ => advance) fun _ => (report _).next fun _ =>
    ite (fun _ => advance) fun _ => .pure rfl

theorem closingTag (tag : String) :
    Alike o (showGroup o) (Parse.closingTag tag) (Parse.closingTag tag) := by
  refine kind fun _ => ite (fun _ => ?_) fun _ => (report _).next fun _ => .pure rfl
  refine advance.next fun _ => (closingName tag).next fun _ => position fun p =>
    (expect _).next fun _ => ite (fun _ => ?_) fun _ => .pure rfl
  exact (trailingComment p.line).bind fun _ _ h => skipNewlines.next fun _ => .pure h

end Alike

end Gsx.Parse
