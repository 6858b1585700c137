import Gsx.Grammar.SourceFile
import Gsx.Proofs.Blanking.Rules
import Gsx.Proofs.Grammar.Accounting
/-!
# Captured Go, attributes and heads side by side

The readers that do not call each other. Go that is captured as text is the same
where no comment in it is made blank; a head knows from its position where that
text stands.
-/

namespace Gsx

namespace Parse

open TokenStream Blanking

variable {α β : Type} {w : Blanking} {l : Lexer} {G P : List Comment}
variable {e : Show α} {s : TokenStream}

namespace Show

variable (w : Blanking)

def func : Show GoFunc :=
  of (GoFunc.plain false) (commentsIn ·.leading)
    fun f => [.ofText w.source (f.position.offset w.source) f.code]

def decl : Show GoDecl :=
  of (GoDecl.plain false) (commentsIn ·.leading)
    fun d => [.ofText w.source (d.position.offset w.source) d.code]

def statement : Show GoCode :=
  of (GoCode.plain false) (commentsIn ·.leading)
    fun c => [.ofText w.source (c.position.offset w.source) c.code]

def expression : Show GoExpr :=
  of (GoExpr.plain false) (commentsIn ·.leading)
    fun e => SourceRange.ofBraces w.source (e.position.offset w.source)

/-- A value with the place of its text. -/
def value : Show (AttributeValue × Position) :=
  of (fun v => v.1.plain false) (fun v => v.1.expression?.elim [] (expression w).comments)
    fun v => v.1.expression?.elim [] (expression w).ranges

def attr : Show Attribute :=
  of (Attribute.plain false) (fun a => a.value.expression?.elim [] (expression w).comments)
    fun a => a.value.expression?.elim [] (expression w).ranges

/-- The tag of an element counts, since it has to be closed. -/
def elementHead : Show ElementHead :=
  ⟨String, ElementHead, ElementHead.tag, ElementHead.plain false, ElementHead.comments,
    ElementHead.ranges w.source⟩

def forHead : Show ForHead :=
  of (ForHead.plain false)
    (fun h => commentsIn h.leading ++ (commentsIn h.trailing ++ commentsAmong h.orphans))
    fun h => [h.range w.source]

def callHead : Show CallHead :=
  of (CallHead.plain false) (fun h => commentsIn h.leading ++ commentsAmong h.orphans)
    fun h => [.ofText w.source (startBehind w.source h.position 2) h.args]

def letHead : Show LetHead :=
  of (LetHead.plain false) (commentsIn ·.leading) fun _ => []

def text : Show TextContent :=
  of (fun t => t.text) (fun _ => []) fun _ => []

end Show

namespace Parallel

/-! ## Captured Go -/

theorem goFunc {start : Nat} {p : Position} (hp : p.offset w.source = start) (p' : Position) :
    Parallel w l P P (.func w) (Parse.goFunc start p) (Parse.goFunc start p') := by
  have hfunc : ∀ text text', SameText w start text text' →
      (Show.func w).Agree w ⟨text, p, none⟩ ⟨text', p', none⟩ := fun text text' h =>
    ⟨rfl, fun hclear => congrArg (GoFunc.mk · .nowhere none) (h (.inr (hp ▸ hclear)))⟩
  refine (scan (fun _ _ _ => rfl) _).next fun k _ => current fun q _ => ite (fun _ => ?_) fun _ => ?_
  · exact (reportAt _ _ _).next fun _ _ => lexedOffset fun _ => sourceText fun text text' h =>
      .pure (List.nil_subset _) (hfunc text text' h)
  · exact sourceText fun text text' h => advanceLine.next fun _ _ =>
      .pure (List.nil_subset _) (hfunc text text' h)

theorem goDecl (hthere : (l.token 0).kind ≠ .endOfInput) :
    Parallel w l P P (.decl w) Parse.goDecl Parse.goDecl := by
  refine ofPlace hthere fun hplace _ => current fun p _ => (scan (fun _ _ _ => rfl) _).next fun k _ =>
    current fun q _ => ?_
  have hdecl : ∀ text text', SameText w (l.token 0).start text text' → (Show.decl w).Agree w
      ⟨(l.token 0).literal, text, (l.token 0).position, none⟩ ⟨(l.token 0).literal, text', p, none⟩ :=
    fun text text' h => ⟨rfl, fun hclear =>
      congrArg (GoDecl.mk (l.token 0).literal · .nowhere none) (h (.inr (hplace ▸ hclear)))⟩
  dsimp only [Token.movedTo]
  split
  · exact lexedOffset fun _ => sourceText fun text text' h =>
      .pure (List.nil_subset _) (hdecl text text' h)
  · exact sourceText fun text text' h => skipNewlines.next fun _ _ =>
      .pure (List.nil_subset _) (hdecl text text' h)
  · exact sourceText fun text text' h => advanceLine.next fun _ _ =>
      .pure (List.nil_subset _) (hdecl text text' h)

theorem goStatement (hthere : (l.token 0).kind ≠ .endOfInput) :
    Parallel w l P P (.statement w) Parse.goStatement Parse.goStatement := by
  refine ofPlace hthere fun hplace _ => current fun p _ => (scan (fun _ _ _ => rfl) _).next fun k _ =>
    current fun q _ => ite (fun _ => ?_) fun _ => ?_
  all_goals
    have hcode : ∀ text text', SameText w (l.token 0).start text text' → (Show.statement w).Agree w
        ⟨text, (l.token 0).position, none⟩ ⟨text', p, none⟩ := fun text text' h =>
      ⟨rfl, fun hclear => congrArg (GoCode.mk · .nowhere none) (h (.inr (hplace ▸ hclear)))⟩
  · exact lexedOffset fun _ => trimmedText fun text text' h =>
      .pure (List.nil_subset _) (hcode text text' h)
  · exact trimmedText fun text text' h => advance.next fun _ _ =>
      .pure (List.nil_subset _) (hcode text text' h)

/-- Behind a type, which starts where the lexer stands. -/
theorem goType_bind {f f' : String → Parse α} (hf : ∀ k text text',
      SameText w (l.token 0).start text text' → Parallel w k G P e (f text) (f' text')) :
    Parallel w l G P e (Parse.goType >>= f) (Parse.goType >>= f') := by
  simp only [Parse.goType, bind_assoc]
  refine current fun p _ => (scan (fun _ _ _ => rfl) _).next fun k _ => current fun q _ => ?_
  dsimp only [Token.movedTo]
  split
  · rw [bind_assoc, bind_assoc]
    exact lexedOffset fun _ => trimmedText fun text text' h => hf k text text' h
  · exact trimmedText fun text text' h => hf k text text' h

theorem goHeader_bind {f f' : String → Parse α} (hf : ∀ k text text',
      SameText w (l.token 0).start text text' → Parallel w k G P e (f text) (f' text')) :
    Parallel w l G P e (Parse.goHeader >>= f) (Parse.goHeader >>= f') := by
  simp only [Parse.goHeader, bind_assoc]
  exact current fun p _ => (skipWhile fun _ _ => rfl).next fun k _ => current fun q _ =>
    trimmedText fun text text' h => hf k text text' h

theorem goArguments_bind {f f' : String → Parse α} (hf : ∀ k text text',
      SameText w (l.token 0).start text text' → Parallel w k G P e (f text) (f' text')) :
    Parallel w l G P e (Parse.goArguments >>= f) (Parse.goArguments >>= f') := by
  simp only [Parse.goArguments, bind_assoc]
  exact current fun p _ => (scan (fun _ _ _ => rfl) _).next fun k _ => current fun q _ =>
    trimmedText fun text text' h => hf k text text' h

/-! ## Text between braces -/

theorem run_goExpr_ok {s t : TokenStream} {code : String}
    (h : behindBraces s = .ok (code, t)) :
    Parse.goExpr.run s = (some ⟨Text.trim code, s.current.position, none⟩, t) := by
  rw [Parse.goExpr, Parse.position, StateT.run_bind, StateT.run_bind, StateT.run_get]
  simp only [pure_bind, StateT.run_pure]
  rw [StateT.run_bind, run_bracedText_ok h]
  rfl

theorem run_goExpr_error {s : TokenStream} {f : BraceFault} (h : behindBraces s = .error f) :
    Parse.goExpr.run s
      = (Parse.report (.unreadableBraces f) >>= fun _ => Parse.advance >>= fun _ =>
          (Pure.pure none : Parse (Option GoExpr))).run s := by
  rw [Parse.goExpr, Parse.position, StateT.run_bind, StateT.run_bind, StateT.run_get]
  simp only [pure_bind, StateT.run_pure]
  rw [StateT.run_bind, run_bracedText_error h]
  rfl

/-- The current token, where it opens braces, has its place. -/
theorem position_current (hs : s.Follows l) (hstands : w.Stands P s)
    (hlt : s.current.start < w.source.length) :
    s.current.position = .ofOffset w.source s.current.start := by
  have hsource : l.source = w.source := hs.source.symm.trans hstands.source_eq
  rw [hs.current] at hlt ⊢
  rw [Lexer.position_token hs.isIn (hsource ▸ hlt), hsource]

theorem goExpr : Parallel w l P P (Show.expression w).option Parse.goExpr Parse.goExpr := by
  intro hG s hs hstands
  cases hb : behindBraces s with
  | ok r =>
    obtain ⟨code, t⟩ := r
    obtain ⟨n, hjump, -⟩ := jumps_of_behindBraces hstands hs hb
    obtain ⟨m, -, hm⟩ := hs.behindBraces hb
    constructor <;> rw [run_goExpr_ok hb]
    · exact ⟨m, hm⟩
    · exact (List.append_nil P).symm ▸ hjump.stands hstands
    · exact fun hkept => hjump.kept ((List.append_nil P) ▸ hkept)
    · intro hkept s' hs'
      obtain ⟨code', t', hb', htwins, hcode⟩ :=
        hs'.behindBraces hstands hs hb ((List.append_nil P) ▸ hkept)
      rw [run_goExpr_ok hb']
      refine ⟨⟨rfl, fun hclear => ?_⟩, htwins⟩
      have hlt : s.current.start < w.source.length := by
        have hstop := hjump.stop_eq ▸ hjump.isIn.offset_le
        omega
      have hoffset : s.current.position.offset w.source = s.current.start := by
        rw [position_current hs hstands hlt, Position.offset_ofOffset hlt.le]
      have hsame := hcode (hoffset ▸ hclear)
      exact congrArg (fun code => some (GoExpr.mk (Text.trim code) .nowhere none)) hsame
  | error f =>
    have hpass : Parallel w l P P (Show.expression w).option
        (Parse.report (.unreadableBraces f) >>= fun _ => Parse.advance >>= fun _ => Pure.pure none)
        (Parse.report (.unreadableBraces f) >>= fun _ => Parse.advance >>= fun _ => Pure.pure none) :=
      (report _).next fun _ _ => advance.next fun _ _ => .pure (List.nil_subset _) (.refl _)
    obtain ⟨hfollows, hstands', hkept, hagrees⟩ := hpass hG s hs hstands
    constructor <;> rw [run_goExpr_error hb]
    · exact hfollows
    · exact hstands'
    · exact hkept
    · intro hk s' hs'
      have hopen : f = .neverClosed →
          Braces.closing? (w.result.drop (s.current.start + 1)) = none := by
        rintro rfl
        rcases Nat.lt_or_ge s.current.start w.source.length with hlt | hge
        · exact hk.unclosed _ (List.mem_append_right _ (List.mem_singleton_self _)) rfl _
            (position_current hs hstands hlt)
        · rw [List.drop_eq_nil_of_le (by rw [length_result]; omega)]
          rfl
      rw [run_goExpr_error (hs'.behindBraces_error hb hopen)]
      exact hagrees hk s' hs'

/-! ## Attributes and text -/

/-- A numeral that is too long interrupts both readings. -/
theorem intValue (literal : String) :
    Parallel w l P P .same (Parse.intValue literal) (Parse.intValue literal) := by
  rw [Parse.intValue]
  split
  · exact .done _
  · next cause _ =>
    intro _ s hs hstands
    have hheld : (P ++ []) ++ held s ⊆ P ++ held s := by
      rw [List.append_nil]
      exact List.Subset.refl _
    refine ⟨⟨l, hs.of_eq rfl rfl rfl rfl⟩, hstands.of_held rfl rfl hheld,
      fun hk => hk.of_held rfl (List.Subset.refl _) hheld, fun _ s' hs' => ⟨.refl _, ?_⟩⟩
    refine ⟨hs'.beside, hs'.current, hs'.peek, hs'.whole, hs'.whole_peek, hs'.said_eq, ?_⟩
    have hsome : ∀ s : TokenStream, ∀ i : Interruption, (s.interruption <|> some i) ≠ none :=
      fun s i => by cases s.interruption <;> simp
    exact iff_of_false (hsome _ _) (hsome _ _)

theorem floatValue (literal : String) :
    Parallel w l P P .same (Parse.floatValue literal) (Parse.floatValue literal) := by
  rw [Parse.floatValue]
  split
  · exact .done _
  · exact (report _).next fun _ _ => .done _

theorem attributeValue :
    Parallel w l P P (Show.value w).option Parse.attributeValue Parse.attributeValue := by
  refine current fun p _ => ?_
  dsimp only [Token.movedTo]
  split
  · exact advance.next fun _ _ => .pure (List.nil_subset _) ⟨rfl, fun _ => rfl⟩
  · exact (intValue _).next fun _ _ => advance.next fun _ _ =>
      .pure (List.nil_subset _) ⟨rfl, fun _ => rfl⟩
  · exact (floatValue _).next fun _ _ => advance.next fun _ _ =>
      .pure (List.nil_subset _) ⟨rfl, fun _ => rfl⟩
  · exact goExpr.option (fun _ => .pure (List.nil_subset _) (.refl _)) fun k e e' he =>
      .pure (List.subset_append_right _ _) ⟨rfl, fun hclear =>
        congrArg (fun e => some (AttributeValue.expression e)) (he.view_eq hclear)⟩
  · exact advance.next fun _ _ => ite
      (fun _ => .pure (List.nil_subset _) ⟨rfl, fun _ => rfl⟩) fun _ => ite
        (fun _ => .pure (List.nil_subset _) ⟨rfl, fun _ => rfl⟩)
        fun _ => .pure (List.nil_subset _) ⟨rfl, fun _ => rfl⟩
  · exact (report _).next fun _ _ => .pure (List.nil_subset _) (.refl _)

theorem attr : Parallel w l P P (Show.attr w).option Parse.attr Parse.attr := by
  refine current fun p _ => advance.next fun _ _ => kind <| ite (fun _ => ?_)
    fun _ => .pure (List.nil_subset _) ⟨rfl, fun _ => rfl⟩
  exact advance.next fun _ _ => attributeValue.option
    (fun _ => .pure (List.nil_subset _) (.refl _)) fun k v v' hv =>
      .pure (List.subset_append_right _ _) ⟨rfl, fun hclear =>
        congrArg (fun v => some (Attribute.mk (l.token 0).literal v .nowhere .nowhere))
          (hv.view_eq hclear)⟩

/-- The results of a round that may have one. -/
theorem round_agree {e : Show α} {a a' : Option α} {again : Bool} (h : e.option.Agree w a a') :
    e.round.Agree w ⟨a.toList, again⟩ ⟨a'.toList, again⟩ := by
  refine ⟨rfl, fun hclear => ?_⟩
  have hview : e.option.view a' = e.option.view a := h.view_eq <| by
    cases a with
    | none => exact clear_nil
    | some a => exact (List.append_nil (e.ranges a)) ▸ hclear
  change a'.toList.map e.view = a.toList.map e.view
  rw [← Option.toList_map, ← Option.toList_map]
  exact congrArg Option.toList hview

theorem comments_round {e : Show α} (a : Option α) (again : Bool) :
    e.round.comments ⟨a.toList, again⟩ = e.option.comments a := by
  cases a with
  | none => rfl
  | some a => exact List.append_nil _

theorem attributeRound :
    Parallel w l P P (Show.attr w).round Parse.attributeRound Parse.attributeRound := by
  refine skipNewlines.next fun _ _ => kind <| ite (fun _ => attr.bind fun k a a' h => ?_)
    fun _ => .pure (List.nil_subset _) (.refl _)
  exact .pure (comments_round a true ▸ List.subset_append_right _ _) (round_agree h)

theorem attributes :
    Parallel w l P P (Show.attr w).list Parse.attributes Parse.attributes :=
  repeated fun _ _ => attributeRound

theorem text : Parallel w l P P .text Parse.text Parse.text :=
  position fun _ => (scan (fun _ _ _ => rfl) _).next fun _ _ =>
    .pure (List.nil_subset _) ⟨rfl, fun _ => rfl⟩

/-! ## Heads -/

theorem literal_ne_empty (hin : l.cursor.IsIn l.source)
    (hkind : (l.token 0).kind = .underscore ∨ (l.token 0).kind = .identifier) :
    (l.token 0).literal ≠ "" := by
  intro hempty
  have hspelled := Lexer.isSpelled_token hin 0
  have hthere : (l.token 0).kind ≠ .endOfInput := by
    rcases hkind with hkind | hkind <;> simp [hkind]
  have hspan : l.span 0 ≠ [] :=
    slice_token_ne_nil hin hthere ((Lexer.reads_token hin 0).start_lt hthere)
  rw [hempty] at hspelled
  rcases hkind with hkind | hkind <;> rw [hkind] at hspelled <;> exact hspan hspelled

/-- Behind a loop variable, which has a name. -/
theorem loopVariable_bind {fault : GrammarFault} {f f' : Option String → Parse α}
    (hsome : (l.token 0).literal ≠ "" → Parallel w (Lexer.after 1 l) G P e
      (f (some (l.token 0).literal)) (f' (some (l.token 0).literal)))
    (hnone : ∀ k, Parallel w k G P e (f none) (f' none)) :
    Parallel w l G P e (Parse.loopVariable fault >>= f) (Parse.loopVariable fault >>= f') := by
  simp only [Parse.loopVariable, bind_assoc]
  refine ofIsIn fun _ hin => current fun p _ => ?_
  dsimp only [Token.movedTo]
  by_cases hkind : (l.token 0).kind = .underscore ∨ (l.token 0).kind = .identifier
  · rw [if_pos (by simpa using hkind)]
    simp only [bind_assoc, pure_bind]
    exact advance_bind (hsome (literal_ne_empty hin hkind))
  · rw [if_neg (by simpa using hkind)]
    simp only [bind_assoc, pure_bind]
    exact (report _).next fun k _ => hnone k

/-- The end of the head of a loop, whose iterable stands behind some tokens. -/
theorem forHead_end {p p' : Position} {index value : String} {n : Nat}
    (hplace : startBehind w.source p (if index = "" then 4 else 6) = n)
    (hstart : ((Lexer.after 2 l).token 0).start = n) :
    Parallel w l P P (Show.forHead w).option
      (Parse.expect .colonEquals >>= fun found => if found = true then do
        if (← Parse.kind) = .rangeWord then
          Parse.advance
          let iterable ← Parse.goHeader
          Parse.skipNewlines
          return some ⟨index, value, iterable, p, none, none, []⟩
        else
          Parse.report .expectedRange
          return none
      else return none)
      (Parse.expect .colonEquals >>= fun found => if found = true then do
        if (← Parse.kind) = .rangeWord then
          Parse.advance
          let iterable ← Parse.goHeader
          Parse.skipNewlines
          return some ⟨index, value, iterable, p', none, none, []⟩
        else
          Parse.report .expectedRange
          return none
      else return none) := by
  refine expect_bind (fun _ => kind <| ite (fun _ => ?_) fun _ => ?_)
    fun _ => .pure (List.nil_subset _) (.refl _)
  · refine advance_bind <| goHeader_bind fun k text text' h => skipNewlines.next fun _ _ =>
      .pure (List.nil_subset _) ⟨rfl, fun hclear => ?_⟩
    have hrange : w.Clear [SourceRange.ofText w.source n text] := hplace ▸ hclear
    exact congrArg (fun text => some (ForHead.mk index value text .nowhere none none []))
      (h (.inr (hstart ▸ hrange)))
  · exact (report _).next fun _ _ => .pure (List.nil_subset _) (.refl _)

theorem forHead (hthere : (l.token 0).kind ≠ .endOfInput) :
    Parallel w l P P (Show.forHead w).option Parse.forHead Parse.forHead := by
  refine ofPlace hthere fun _ hbehind => position fun p => advance_bind ?_
  simp only [Parse.loopVariables, bind_assoc]
  refine loopVariable_bind (fun hfirst => ?_) fun _ => .pure (List.nil_subset _) (.refl _)
  simp only [bind_assoc]
  refine kind ?_
  by_cases hcomma : ((Lexer.after 1 (Lexer.after 1 l)).token 0).kind = .comma
  · simp only [if_pos hcomma, bind_assoc]
    refine advance_bind <| loopVariable_bind (fun _ => ?_)
      fun _ => .pure (List.nil_subset _) (.refl _)
    exact forHead_end rfl ((if_neg hfirst).symm ▸ (hbehind 6).symm)
  · simp only [if_neg hcomma, pure_bind]
    exact forHead_end rfl (hbehind 4).symm

theorem callHead (hthere : (l.token 0).kind ≠ .endOfInput) :
    Parallel w l P P (Show.callHead w).option Parse.callHead Parse.callHead := by
  refine ofPlace hthere fun _ hbehind => current fun p _ => advance_bind <| expect_bind
    (fun _ => goArguments_bind fun k text text' h => ?_)
    fun _ => .pure (List.nil_subset _) (.refl _)
  refine (expect _).next fun _ _ => ite (fun _ => skipNewlines.next fun _ _ =>
    .pure (List.nil_subset _) ⟨rfl, fun hclear => ?_⟩) fun _ => .pure (List.nil_subset _) (.refl _)
  have hsame := h (.inr (hbehind 2 ▸ hclear))
  exact congrArg (fun text => some (CallHead.mk (l.token 0).literal text .nowhere none [])) hsame

theorem letHead : Parallel w l P P Show.letHead.option Parse.letHead Parse.letHead := by
  refine position fun p => advance.next fun _ _ => current fun q _ => ite (fun _ => ?_) fun _ =>
    (report _).next fun _ _ => .pure (List.nil_subset _) (.refl _)
  exact advance.next fun _ _ => (expectLine _).next fun _ _ => ite
    (fun _ => .pure (List.nil_subset _) ⟨rfl, fun _ => rfl⟩)
    fun _ => .pure (List.nil_subset _) (.refl _)

theorem refName : Parallel w l P P .same Parse.refName Parse.refName :=
  kind <| ite
    (fun _ => advance.next fun _ _ => current fun _ _ => ite
      (fun _ => advance.next fun _ _ => .done _) fun _ => (report _).next fun _ _ => .done _)
    fun _ => .done _

/-- The expressions in a tag are those of its attributes. -/
theorem mem_splitKey (as : List Attribute) {γ : Type} (g : GoExpr → List γ) (c : γ) :
    c ∈ ((splitKey as).1.toList ++ (splitKey as).2.filterMap (·.value.expression?)).flatMap g
      ↔ c ∈ as.flatMap fun a => a.value.expression?.elim [] g := by
  refine (((perm_splitKey as).flatMap_right g).mem_iff (a := c)).symm.trans ?_
  simp only [expressionsOf, List.mem_flatMap, List.mem_filterMap]
  constructor
  · rintro ⟨e, ⟨a, ha, hvalue⟩, hc⟩
    exact ⟨a, ha, by rw [hvalue]; exact hc⟩
  · rintro ⟨a, ha, hc⟩
    cases hvalue : a.value.expression? with
    | none =>
      rw [hvalue] at hc
      cases hc
    | some e =>
      rw [hvalue] at hc
      exact ⟨e, ⟨a, ha, hvalue⟩, hc⟩

theorem elementHead :
    Parallel w l P P (Show.elementHead w).option Parse.elementHead Parse.elementHead := by
  refine position fun p => advance.next fun m _ => current fun q _ => ite (fun _ => ?_) fun _ =>
    (report _).next fun _ _ => .pure (List.nil_subset _) (.refl _)
  refine advance.next fun _ _ => refName.next fun _ ref => ?_
  cases ref with
  | none => exact .pure (List.nil_subset _) (.refl _)
  | some ref =>
    refine attributes.bind fun k as as' has => .pure ?_ ⟨rfl, fun hclear => ?_⟩
    · intro c hc
      rcases List.mem_append.1 hc with hc | hc
      · exact List.mem_append_right _ ((mem_splitKey as _ c).1 hc)
      · cases hc
    · have hsame : as'.map (Attribute.plain false) = as.map (Attribute.plain false) :=
        has.view_eq (hclear.mono fun c hc => (mem_splitKey as _ c).2 hc)
      have hsplit := congrArg splitKey hsame
      rw [splitKey_plain, splitKey_plain] at hsplit
      obtain ⟨hkey, hattributes⟩ := Prod.mk.inj hsplit
      exact congrArg₂ (fun key attrs => some (ElementHead.mk (m.token 0).literal
        attrs false ref key .nowhere none none [])) hkey hattributes

theorem closingName (tag : String) :
    Parallel w l P P .same (Parse.closingName tag) (Parse.closingName tag) :=
  current fun _ _ => ite (fun _ => advance) fun _ => (report _).next fun _ _ =>
    ite (fun _ => advance) fun _ => .done _

theorem closingTag (tag : String) :
    Parallel w l P P .group (Parse.closingTag tag) (Parse.closingTag tag) := by
  refine kind <| ite (fun _ => ?_) fun _ => (report _).next fun _ _ =>
    .pure (List.nil_subset _) (.refl _)
  refine advance.next fun _ _ => (closingName tag).next fun _ _ => position fun p =>
    (expect _).next fun _ _ => ite (fun _ => ?_) fun _ => .pure (List.nil_subset _) (.refl _)
  exact (trailingComment _ _).bind fun _ g g' h => skipNewlines.next fun _ _ =>
    .pure (List.subset_append_right _ _) h

end Parallel

end Parse

end Gsx
