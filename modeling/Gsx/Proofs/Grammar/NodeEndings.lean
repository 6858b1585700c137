import Gsx.Proofs.Grammar.Appending
import Gsx.Proofs.Lexer.Items
/-!
# How nodes end

An element, a directive or a call with a block ends with a closing tag, `/>` or a
brace, and its reader moves over the comment and the line ends behind it: so it
crosses the end of a text of which it is the last node. Free text ends with its line
and an expression with its brace, and both readers stop there, still in the text.
What a directive is goes on where the next line starts with `@else`; so the text
behind it may not.
-/

namespace Gsx

open TokenStream

variable {o : Window} {s s' : TokenStream}

namespace TokenStream

/-! ## Comments behind a text -/

/-- Where comments do not count, those that the stream in the source holds may be
taken. -/
theorem Meets.taking (h : Meets o s s') (htidy : o.tidy = false) {cs ps : List Comment}
    (hsub : cs ++ ps ⊆ s'.comments ++ s'.lexer.pending) :
    Meets o s { s' with comments := cs, lexer := { s'.lexer with pending := ps } } where
  lined := h.lined
  source_eq := h.source_eq
  source_eq' := h.source_eq'
  current_eq := h.current_eq
  kind_ne := h.kind_ne
  messages_eq := h.messages_eq
  cause_eq := h.cause_eq
  marks c hc := h.marks c (hsub hc)
  ahead := by
    have hcount : ¬ o.tidy = true := Bool.eq_false_iff.1 htidy
    refine h.ahead.imp (fun hi => ?_) fun hb => ⟨hb.cut, hb.last, hb.kind_eq, hb.peek_kind, hb.lexer⟩
    exact ⟨⟨hi.fits.source_eq, hi.fits.source_eq', hi.fits.inside, hi.fits.inside', hi.fits.exact,
      hi.fits.cursor, hi.fits.messages_eq, fun h => absurd h hcount⟩, hi.peek_eq, hi.kind_ne, hi.last,
      hi.newline, fun h => absurd h hcount⟩

theorem Stands.taking (h : Stands o s') {cs ps : List Comment}
    (hsub : cs ++ ps ⊆ s'.comments ++ s'.lexer.pending) :
    Stands o { s' with comments := cs, lexer := { s'.lexer with pending := ps } } where
  meets o2 hf hwithin := (h.meets o2 hf hwithin).taking hf.tidy_eq hsub
  marked c hc := h.marked c (hsub hc)

end TokenStream

namespace Parse

variable {α β γ δ σ : Type} {p : Token → Prop}

/-- Comments are taken behind a text. -/
theorem stands_trailingComment (h : Stands o s') (line : Nat) :
    Stands o ((trailingComment line).run s').2 := by
  rw [run_trailingComment]
  refine h.taking fun c hc => ?_
  rw [List.append_nil] at hc
  exact firstOn_subset _ _ hc

theorem stands_leadingComments (h : Stands o s') : Stands o (leadingComments.run s').2 := by
  rw [run_leadingComments]
  refine h.taking fun c hc => ?_
  rw [List.append_nil] at hc
  exact (List.mem_filter.1 hc).1

/-! ## Failing -/

theorem Fails.isSome {m : Parse (Option α)} (hm : Fails m) (hends : Ends (m.run s).2) :
    (m.run s).1.isSome :=
  Option.isSome_iff_ne_none.2 fun hnone => hm s hnone hends.exhausted hends.clean

/-- Where an expected token is missing something is wrong. -/
theorem expectLine_of_clean {want : TokenKind} (h : ((expectLine want).run s).2.Clean) :
    ((expectLine want).run s).1 = true := by
  rw [expectLine, StateT.run_bind] at h ⊢
  by_cases hkind : s.current.kind = want
  · rw [run_expect hkind]
    rfl
  · rw [run_expect_of_ne hkind] at h
    exact absurd h.diagnostics (List.append_ne_nil_of_right_ne_nil _ (List.cons_ne_nil _ _))

theorem fails_letHead : Fails letHead := by
  refine .bind fun _ => .bind fun _ => .bind fun t => .ite (.bind fun _ => ?_) (.report _)
  intro s hnone _ hclean
  have hfound : ((expectLine .equals).run s).1 = true := by
    refine of_not_not fun hne => hne (expectLine_of_clean ?_)
    rwa [run_bind_eq rfl, if_neg hne] at hclean
  rw [run_bind_eq hfound] at hnone
  exact Option.some_ne_none _ hnone

theorem fails_callHead : Fails callHead :=
  .bind fun _ => .bind fun _ => .expect _ <| .bind fun _ => .expect _ <| .bind fun _ => .some _

theorem fails_loopVariable (f : GrammarFault) : Fails (loopVariable f) :=
  .bind fun _ => .ite (.bind fun _ => .some _) (.report _)

theorem fails_loopVariables : Fails loopVariables :=
  .option (fails_loopVariable _) rfl fun _ => .bind fun _ => .ite
    (.bind fun _ => .option (fails_loopVariable _) rfl fun _ => .some _) (.some _)

theorem fails_forHead : Fails forHead :=
  .bind fun _ => .bind fun _ => .option fails_loopVariables rfl fun _ => .expect _ <| .bind fun _ =>
    .ite (.bind fun _ => .bind fun _ => .bind fun _ => .some _) (.report _)

theorem fails_refName : Fails refName :=
  .bind fun _ => .ite (.bind fun _ => .bind fun _ => .ite (.bind fun _ => .some _) (.report _)) (.some _)

theorem fails_elementHead : Fails elementHead :=
  .bind fun _ => .bind fun _ => .bind fun _ => .ite
    (.bind fun _ => .option fails_refName rfl fun _ => .bind fun _ => .some _) (.report _)

/-- Reads the block of a call from its brace on. -/
def callBlock (depth : Nat) (head : CallHead) : Parse (Option Node) := do
  advanceLine
  let inner ← body depth
  if ← expectLine .rightBrace then
    return some (.call { head with orphans := inner.orphans } inner.nodes)
  else return none

/-- Reads a closing tag from behind its name on. -/
def closingSign : Parse (Option CommentGroup) := do
  let line := (← position).line
  if ← expect .rightAngle then
    let trailing ← trailingComment line
    skipNewlines
    return trailing
  else return none

/-- Where no else branch stands none is read. -/
theorem run_elseBranch_of_ne {d : Nat} (h : s.current.kind ≠ .atElse) :
    (elseBranch (d + 1)).run s = (.onlyComments [], s) := by
  rw [elseBranch]
  change StateT.run (ite _ _ _) s = _
  rw [if_neg h]
  rfl

theorem isSome_of_map_eq {e : α → γ} {a a' : Option α} (h : a.map e = a'.map e) (ha : a.isSome) :
    a'.isSome := by
  rwa [← Option.isSome_map, ← h, Option.isSome_map]

/-! ## Readers that do not cross the end -/

theorem Alike.toOver {m m' : Parse α} {e : α → γ} (h : Alike o e m m') : Alike o (fun _ => ()) m m' :=
  ⟨h.leads, fun s s' hs hwithin => ⟨rfl, (h.meets s s' hs hwithin).2⟩⟩

namespace Crosses

variable {q : β → Prop} {e : α → γ} {e' : β → δ}

/-- A reader that crosses the end, whatever it gives. -/
abbrev Over (o : Window) (p : Token → Prop) (m m' : Parse α) : Prop :=
  Crosses o p (fun _ => True) (fun _ => ()) m m'

/-- A reader that does not come to the end. -/
theorem of_never (hcut : o.whole = false) {m m' : Parse β} (hm : Leading m)
    (h : ∀ s s' : TokenStream, s.Meets o s' → IsLast s.current → ¬ Ends (m.run s).2) :
    Crosses o IsLast q e' m m' where
  leads := hm
  before _ hs hsource hlast _ _ := before_of_isLast hcut hs hsource hlast
  meets s s' hs hlast hends _ := absurd hends (h s s' hs hlast)

/-- A reader at a token that is not there. -/
theorem of_none {m m' : Parse β} (hm : Leading m) (h : ∀ t, ¬ p t) : Crosses o p q e' m m' :=
  ⟨hm, fun _ _ _ ht => absurd ht (h _), fun _ _ _ ht => absurd ht (h _)⟩

/-- A reader that stays where the text goes on. -/
theorem stays (htidy : o.tidy = false) {a : β} {m' : Parse β} :
    Crosses o (·.kind ≠ .endOfInput) q e' (Pure.pure a) m' where
  leads := .pure a
  before _ hs hsource hthere _ _ := by
    rw [htidy]
    exact start_lt hs hsource hthere
  meets _ _ _ hthere hends _ := absurd hends.kind_eq hthere

/-- What is asked for is there unless something is wrong. -/
theorem of_ends {r : β → Prop} {m m' : Parse β} (h : Crosses o p r e' m m')
    (hr : ∀ s : TokenStream, Ends (m.run s).2 → r (m.run s).1) :
    Crosses o p (fun _ => True) e' m m' :=
  ⟨h.leads, fun s hs hsource ht hends _ => h.before s hs hsource ht hends (hr s hends),
    fun s s' hs ht hends _ => h.meets s s' hs ht hends (hr s hends)⟩

theorem toOver {m m' : Parse β} (h : Crosses o p (fun _ => True) e' m m') : Over o p m m' :=
  ⟨h.leads, h.before, fun s s' hs ht hends hq => ⟨rfl, (h.meets s s' hs ht hends hq).2⟩⟩

/-- Behind the head of a node, which is there unless something is wrong. -/
theorem head {m m' : Parse (Option α)} {f f' : Option α → Parse β} (hm : Alike o (Option.map e) m m')
    (hfails : Fails m) (hnone : ∃ b, f none = Pure.pure b)
    (hsome : ∀ a a', e a = e a' → Crosses o (fun _ => True) q e' (f (some a)) (f' (some a'))) :
    Crosses o p q e' (m >>= f) (m' >>= f') := by
  obtain ⟨b, hb⟩ := hnone
  have hlead : ∀ a, Leading (f a) := fun a => by
    cases a with
    | none => exact hb ▸ .pure b
    | some a => exact (hsome a a rfl).leads
  have hhead : ∀ s, Ends ((m >>= f).run s).2 → ∃ a, (m.run s).1 = some a := by
    intro s hends
    refine Option.ne_none_iff_exists'.1 fun hnone => ?_
    rw [run_bind_eq hnone, hb] at hends
    exact hfails s hnone hends.exhausted hends.clean
  refine ⟨.bind hm.leads hlead, fun s hs hsource _ hends hq => ?_, fun s s' hs _ hends hq => ?_⟩
  · obtain ⟨a, ha⟩ := hhead s hends
    have hleads := hm.leads s
    rw [run_bind_eq ha] at hends hq
    exact Nat.lt_of_le_of_lt (Nat.add_le_add_right (hleads.start_le hs) _)
      ((hsome a a rfl).before _ (hleads.lined hs) ((hleads.source_eq hs).trans hsource) trivial hends
        hq)
  · obtain ⟨a, ha⟩ := hhead s hends
    have hleads := hm.leads s
    rw [run_bind_eq ha] at hends hq ⊢
    have hlt := (hsome a a rfl).before _ (hleads.lined hs.lined)
      ((hleads.source_eq hs.lined).trans hs.source_eq) trivial hends hq
    obtain ⟨heq, hs'⟩ := hm.meets s s' hs (within_of_lt (hsome a a rfl).leads hends hlt)
    cases ha' : (m'.run s').1 with
    | none =>
      rw [ha, ha'] at heq
      cases heq
    | some a' =>
      rw [ha, ha'] at heq
      rw [run_bind_eq ha']
      exact (hsome a a' (Option.some.inj heq)).meets _ _ hs' trivial hends hq

/-- What is given is only wrapped up. -/
theorem wrap {m m' : Parse α} {f f' : α → Parse β} {γ : Type} {e : α → γ}
    (hm : Crosses o p (fun _ => True) e m m') (hf : ∀ a, ∃ b, f a = Pure.pure b)
    (hf' : ∀ a, ∃ b, f' a = Pure.pure b) : Over o p (m >>= f) (m' >>= f') := by
  refine andThen hm (fun a => ?_) (fun _ _ _ => trivial) fun a a' _ _ => ?_
  · obtain ⟨b, hb⟩ := hf a
    exact hb ▸ .pure b
  · obtain ⟨b, hb⟩ := hf a
    obtain ⟨b', hb'⟩ := hf' a'
    exact ⟨b, b', hb, hb', rfl⟩

section

variable (hcut : o.whole = false) (htidy : o.tidy = false)

include hcut htidy

/-! ### Text and expressions -/

/-- A scan that does not take line ends stays in the text. -/
theorem not_ends_scanUpTo {step : σ → Token → Option σ} (hstep : ∀ a t, step a t ≠ none → IsLast t)
    (fuel : Nat) (a : σ) (hs : s.Meets o s') (hthere : s.current.kind ≠ .endOfInput) :
    ¬ Ends ((scanUpTo step fuel a).run s).2 := by
  intro hends
  induction fuel generalizing a s s' with
  | zero => exact absurd hends.exhausted.symm Bool.false_ne_true
  | succ fuel ih =>
    by_cases hstop : step a s.current = none
    · rw [run_scanUpTo_stop fuel (.inr hstop)] at hends
      exact hthere hends.kind_eq
    · obtain ⟨a', ha'⟩ := Option.ne_none_iff_exists'.1 hstop
      rw [run_scanUpTo_succ fuel hthere ha'] at hends
      have hlast := hstep a s.current hstop
      have hinside : LooksInside o s s' := hs.ahead.resolve_right fun hb => hlast.2 hb.kind_eq
      have hnext := hinside.kind_ne hcut
      have hwithin : Within o s.advanced := by
        refine within_of_lt (.scanUpTo step fuel a') hends ?_
        rw [htidy]
        exact start_lt hs.lined.advanced ((advanced_spec hs.lined.toInOrder).2.trans hs.source_eq)
          hnext
      exact ih a' (hs.advanced hwithin) hnext hends

omit hcut htidy in
theorem isLast_of_isText {t : Token} (h : t.kind.isText) : IsLast t := by
  refine ⟨fun hend => ?_, fun hend => ?_⟩ <;> rw [hend] at h <;> cases h

theorem textNode : Over o IsLast
    (Parse.text >>= fun t => Pure.pure (some (Node.text t)))
    (Parse.text >>= fun t => Pure.pure (some (Node.text t))) := by
  refine of_never hcut (.bind (Alike.text (o := o)).leads fun _ => .pure _)
    fun s s' hs hlast hends => ?_
  have hstep : ∀ a t, textStep a t ≠ none → IsLast t := by
    intro a t ht
    refine isLast_of_isText (of_not_not fun hno => ht ?_)
    rw [textStep, if_neg hno]
  exact not_ends_scanUpTo hcut htidy hstep s.rounds ⟨"", .newline⟩ hs hlast.1 hends

omit htidy in
/-- Something of the text is left behind a brace. -/
theorem rest_ne_of_readBraces {l l' m : Lexer} {start : Nat} {code : String} (h : l.Fits o l')
    (hm : l.readBraces start = .ok (code, m)) : m.cursor.rest ≠ [] := by
  obtain ⟨rest, n, hdrop, hclosing, -, rfl⟩ := Lexer.exists_of_readBraces hm
  obtain ⟨c, behind, hrest, -, hlength⟩ := Braces.closing?_eq_some_iff.1 hclosing
  obtain ⟨cs, hcs⟩ := o.text_line hcut
  change ((Cursor.start l.source).advance (start + n + 2)).rest ≠ []
  rw [Cursor.rest_advance]
  change l.source.drop (start + n + 2) ≠ []
  intro hnil
  have hbehind : l.source.drop start = ('{' :: c ++ ['}']) ++ behind := by
    rw [hdrop, hrest]
    simp
  have hend : behind = [] := by
    rw [← hnil, Nat.add_assoc, ← List.drop_drop, hbehind]
    refine (List.drop_left' ?_).symm
    simp [hlength]
  -- then the brace would be the last character
  have hlast := congrArg List.getLast? hbehind
  have hlt : start < l.source.length := by
    refine Nat.lt_of_not_le fun hle => ?_
    rw [List.drop_eq_nil_of_le hle] at hdrop
    cases hdrop
  rw [hend, List.append_nil, List.getLast?_concat, List.getLast?_drop, if_neg (by omega), h.source_eq,
    hcs, List.getLast?_concat] at hlast
  cases hlast

omit hcut htidy in
/-- Behind braces nothing more is read. -/
theorem stream_expressionNode (s : TokenStream) :
    (Parse.expressionNode.run s).2 = (bracedText.run s).2 := by
  have hexpr : (goExpr.run s).2 = (bracedText.run s).2 := by
    rw [goExpr, run_bind_eq rfl, run_position, run_bind_eq rfl]
    cases (bracedText.run s).1 <;> rfl
  rw [Parse.expressionNode, run_bind_eq rfl, ← hexpr]
  cases (goExpr.run s).1 with
  | none => rfl
  | some e =>
    simp only
    split <;> rfl

omit htidy in
theorem expressionNode : Over o IsLast Parse.expressionNode Parse.expressionNode := by
  refine of_never hcut (Alike.expressionNode (o := o)).leads fun s s' hs hlast hends => ?_
  have hinside : LooksInside o s s' := hs.ahead.resolve_right fun hb => hlast.2 hb.kind_eq
  rw [stream_expressionNode] at hends
  cases hb : behindBraces s with
  | error f =>
    rw [run_bracedText_error hb] at hends
    have hclean := (Leads.advanced _).clean hends.clean
    exact absurd hclean.diagnostics (List.append_ne_nil_of_right_ne_nil _ (List.cons_ne_nil _ _))
  | ok r =>
    obtain ⟨code, t⟩ := r
    rw [run_bracedText_ok hb] at hends
    obtain ⟨m, hm, rfl⟩ := behindBraces_eq hb
    obtain ⟨m', -, hfits⟩ := hinside.fits.readBraces hm
    have hclean : m.next.2.diagnostics = [] := Lexer.diagnostics_of_next hends.clean.lexer
    exact (hfits.next (.inr ⟨rest_ne_of_readBraces hcut hinside.fits hm, hclean⟩)).kind_ne hcut
      hends.kind_eq

/-! ### Elements -/

omit hcut htidy in
theorem isLast_of_kind {t : Token} {k : TokenKind} (h : t.kind = k) (hend : k ≠ .endOfInput)
    (hline : k ≠ .newline) : IsLast t := by
  rw [IsLast, h]
  exact ⟨hend, hline⟩

theorem closingSign : Over o p Parse.closingSign Parse.closingSign := by
  refine position fun place => ?_
  refine expectOf (.pure _) ((advance hcut htidy ?_).of
    (fun _ ht => isLast_of_kind ht (by decide) (by decide)) fun _ => id)
  refine bindOf (·.kind ≠ .endOfInput) (Alike.trailingComment place.line) (fun s hs _ => ?_)
    fun _ _ _ => skipNewlines hcut htidy rfl
  rw [run_trailingComment]
  exact hs

theorem closingTag (tag : String) : Over o p (Parse.closingTag tag) (Parse.closingTag tag) :=
  kind fun _ => ite (fun _ => next Alike.advance fun _ => next (Alike.closingName tag) fun _ =>
    closingSign hcut htidy) fun _ => report fun _ => .pure _

omit hcut htidy in
/-- A comment may be taken behind the text. -/
theorem thenTrailing {m m' : Parse α} (hm : Over o p m m') (line line' : Nat)
    {f f' : Option CommentGroup → Parse β} (hf : ∀ g, ∃ b, f g = Pure.pure b)
    (hf' : ∀ g, ∃ b, f' g = Pure.pure b) :
    Over o p (m >>= fun _ => Parse.trailingComment line >>= f)
      (m' >>= fun _ => Parse.trailingComment line' >>= f') := by
  have hrun : ∀ {m : Parse α} {line : Nat} {f : Option CommentGroup → Parse β},
      (∀ g, ∃ b, f g = Pure.pure b) → ∀ s, ((m >>= fun _ => Parse.trailingComment line >>= f).run s).2
        = ((Parse.trailingComment line).run (m.run s).2).2 := by
    intro m line f hf s
    rw [run_bind_eq rfl, run_bind_eq rfl]
    obtain ⟨b, hb⟩ := hf ((Parse.trailingComment line).run (m.run s).2).1
    rw [hb]
    rfl
  have hends : ∀ s, Ends ((m >>= fun _ => Parse.trailingComment line >>= f).run s).2 →
      Ends (m.run s).2 := by
    intro s h
    rw [hrun hf, run_trailingComment] at h
    exact ⟨h.exhausted, ⟨h.clean.diagnostics, h.clean.lexer, h.clean.interruption⟩, h.kind_eq⟩
  have hlead : ∀ g, Leading (f g) := fun g => by
    obtain ⟨b, hb⟩ := hf g
    exact hb ▸ .pure b
  refine ⟨.bind hm.leads fun _ => .bind (.trailingComment line) hlead,
    fun s hs hsource ht h _ => hm.before s hs hsource ht (hends s h) trivial,
    fun s s' hs ht h _ => ⟨rfl, ?_⟩⟩
  rw [hrun hf']
  exact stands_trailingComment (hm.meets s s' hs ht (hends s h) trivial).2 line'

omit hcut htidy in
/-- The current token, which stays known. -/
theorem currentEq {f f' : Token → Parse β}
    (hf : ∀ t, Crosses o (fun t' => p t' ∧ t' = t) q e' (f t) (f' (o.token t))) :
    Crosses o p q e' (Parse.current >>= f) (Parse.current >>= f') where
  leads := .bind .current fun t => (hf t).leads
  before s hs hsource ht hends hq := (hf _).before s hs hsource ⟨ht, rfl⟩ hends hq
  meets s s' hs ht hends hq := by
    have hrun : (Parse.current >>= f').run s' = (f' (o.token s.current)).run s' := by
      rw [← hs.current_eq]
      rfl
    rw [hrun]
    exact (hf _).meets s s' hs ⟨ht, rfl⟩ hends hq

omit hcut htidy in
theorem kindEq {f f' : TokenKind → Parse β}
    (hf : ∀ k, Crosses o (fun t => p t ∧ t.kind = k) q e' (f k) (f' k)) :
    Crosses o p q e' (Parse.kind >>= f) (Parse.kind >>= f') :=
  show Crosses o p q e' (Parse.current >>= fun t => f t.kind) (Parse.current >>= fun t => f' t.kind)
    from currentEq fun t => (hf t.kind).of (fun _ ht => ht.imp_right (congrArg Token.kind)) fun _ => id

theorem element {d d' : Nat} (hle : d ≤ d') : Over o p (Parse.element d) (Parse.element d') := by
  cases d with
  | zero => exact exhaust
  | succ d =>
    obtain ⟨d', rfl⟩ : ∃ n, d' = n + 1 := ⟨d' - 1, by omega⟩
    rw [Parse.element, Parse.element]
    refine head Alike.elementHead fails_elementHead ⟨_, rfl⟩ fun h h' hh =>
      currentEq fun t => ite (fun hkind => ?_) fun _ => ?_
    · have hclosed : Over o IsLast Parse.advanceLine Parse.advanceLine :=
        bind_pure_unit (x := Parse.advanceLine) ▸ advanceLine hcut rfl
      exact (thenTrailing hclosed _ _ (fun _ => ⟨_, rfl⟩) fun _ => ⟨_, rfl⟩).of
        (fun t' ht => ht.2 ▸ isLast_of_kind hkind (by decide) (by decide)) fun _ => id
    · have htag : h.tag = h'.tag := by
        have hplain := congrArg ElementHead.tag hh
        exact hplain
      refine expectOf (.pure _) (next Alike.advance fun _ =>
        bind (alikeAt o (Nat.le_of_succ_le_succ hle)).content fun _ _ _ => ?_)
      rw [htag]
      exact wrap (closingTag hcut htidy _) (fun _ => ⟨_, rfl⟩) fun _ => ⟨_, rfl⟩

/-! ### Directives -/

omit htidy in
theorem forLoop {d d' : Nat} (hle : d ≤ d') : Over o p (Parse.forLoop d) (Parse.forLoop d') := by
  cases d with
  | zero => exact exhaust
  | succ d =>
    obtain ⟨d', rfl⟩ : ∃ n, d' = n + 1 := ⟨d' - 1, by omega⟩
    rw [Parse.forLoop, Parse.forLoop]
    refine head Alike.forHead fails_forHead ⟨_, rfl⟩ fun _ _ _ => ?_
    refine wrap (of_ends (block hcut (Nat.le_of_succ_le_succ hle)) fun s => (fails_block _).isSome) ?_ ?_ <;>
      exact fun b => by cases b <;> exact ⟨_, rfl⟩

omit hcut htidy in
/-- Behind the end of a text a reader may go on, if it does nothing there. -/
theorem thenMaybe {r : α → Prop} {m m' : Parse α} (halike : Alike o e m m')
    (hm : Crosses o p r e m m') {f f' : α → Parse β} (hlead : ∀ a, Leading (f a))
    (hr : ∀ s : TokenStream, Ends ((m >>= f).run s).2 → r (m.run s).1)
    (hgo : ∀ a a', r a → e a = e a' → Over o (·.kind ≠ .endOfInput) (f a) (f' a'))
    (hstop : ∀ a a' (s s' : TokenStream), r a → e a = e a' → Ends ((f a).run s).2 → Stands o s' →
      ((f' a').run s').2 = s') :
    Over o p (m >>= f) (m' >>= f') := by
  have hlt : ∀ s : TokenStream, s.Lined → s.lexer.source = o.text → Ends ((m >>= f).run s).2 →
      (m.run s).2.current.kind ≠ .endOfInput →
        (m.run s).2.current.start + (if o.tidy then 1 else 0) < o.text.length :=
    fun s hs hsource hends hend =>
      have hleads := hm.leads s
      (hgo _ _ (hr s hends) rfl).before _ (hleads.lined hs) ((hleads.source_eq hs).trans hsource) hend
        hends trivial
  have hback : ∀ s : TokenStream, Ends ((m >>= f).run s).2 →
      (m.run s).2.current.kind = .endOfInput → Ends (m.run s).2 := fun s hends hend =>
    ⟨(hlead _ _).exhausted hends.exhausted, (hlead _ _).clean hends.clean, hend⟩
  refine ⟨.bind hm.leads hlead, fun s hs hsource ht hends _ => ?_, fun s s' hs ht hends _ => ⟨rfl, ?_⟩⟩
  · by_cases hend : (m.run s).2.current.kind = .endOfInput
    · exact hm.before s hs hsource ht (hback s hends hend) (hr s hends)
    · exact Nat.lt_of_le_of_lt (Nat.add_le_add_right ((hm.leads s).start_le hs) _)
        (hlt s hs hsource hends hend)
  · by_cases hend : (m.run s).2.current.kind = .endOfInput
    · obtain ⟨heq, hstands⟩ := hm.meets s s' hs ht (hback s hends hend) (hr s hends)
      rw [run_bind_eq rfl, hstop _ _ (m.run s).2 _ (hr s hends) heq hends hstands]
      exact hstands
    · have hwithin := within_of_lt (hlead _) hends (hlt s hs.lined hs.source_eq hends hend)
      obtain ⟨heq, hs'⟩ := halike.meets s s' hs hwithin
      exact ((hgo _ _ (hr s hends) heq).meets _ _ hs' hend hends trivial).2

section

variable (helse : (entry o.after).current.kind ≠ .atElse)

include helse

/-- **A conditional and its else branches.** -/
theorem conditional_elseBranch {d d' : Nat} (hle : d ≤ d') :
    (∀ p, Over o p (Parse.conditional d) (Parse.conditional d'))
      ∧ Over o (·.kind ≠ .endOfInput) (Parse.elseBranch d) (Parse.elseBranch d') := by
  induction d generalizing d' with
  | zero => exact ⟨fun _ => exhaust, exhaust⟩
  | succ d ih =>
    obtain ⟨d', rfl⟩ : ∃ n, d' = n + 1 := ⟨d' - 1, by omega⟩
    have hle := Nat.le_of_succ_le_succ hle
    obtain ⟨hconditional, hbranch⟩ := ih hle
    have hd := alikeAt o hle
    refine ⟨fun p => ?_, ?_⟩
    · rw [Parse.conditional, Parse.conditional]
      refine position fun _ => next Alike.advance fun _ => next Alike.goHeader fun _ =>
        next Alike.skipNewlines fun _ => ?_
      refine thenMaybe hd.block (block hcut hle) (fun b => ?_) (fun s hends => ?_) (fun b b' hb h => ?_)
        fun b b' s s' hb h hends hstands => ?_
      · cases b with
        | none => exact .pure _
        | some b => exact .bind hd.elseBranch.leads fun _ => .pure _
      · refine Option.isSome_iff_ne_none.2 fun hnone => ?_
        rw [run_bind_eq hnone] at hends
        exact fails_block d s hnone hends.exhausted hends.clean
      · obtain ⟨b, rfl⟩ := Option.isSome_iff_exists.1 hb
        obtain ⟨b', rfl⟩ := Option.isSome_iff_exists.1 (isSome_of_map_eq h hb)
        exact wrap hbranch (fun _ => ⟨_, rfl⟩) fun _ => ⟨_, rfl⟩
      · obtain ⟨b, rfl⟩ := Option.isSome_iff_exists.1 hb
        obtain ⟨b', rfl⟩ := Option.isSome_iff_exists.1 (isSome_of_map_eq h hb)
        cases d with
        | zero => exact absurd hends.exhausted.symm Bool.false_ne_true
        | succ d =>
          obtain ⟨d', rfl⟩ : ∃ n, d' = n + 1 := ⟨d' - 1, by omega⟩
          have hkind : s'.current.kind ≠ .atElse := by
            rw [(meets_rest hcut hstands).same_kind]
            exact helse
          simp only [StateT.run_bind, run_elseBranch_of_ne hkind]
          rfl
    · rw [Parse.elseBranch, Parse.elseBranch]
      refine kindEq fun k => ite (fun _ => ?_) fun hne => ?_
      · refine next Alike.advanceLine fun _ => kind fun _ => ite (fun _ => ?_) fun _ => ?_
        · exact wrap (hconditional _) (fun _ => ⟨_, rfl⟩) fun _ => ⟨_, rfl⟩
        · refine expectOf (.pure _) (next Alike.advance fun _ => next Alike.skipNewlines fun _ =>
            bind hd.body fun _ _ _ => ?_)
          have hbrace : Crosses o (fun _ => True) (fun _ => True) id
              (Parse.expectLine .rightBrace >>= fun found => Pure.pure found)
              (Parse.expectLine .rightBrace >>= fun found => Pure.pure found) :=
            expectLine hcut (by decide) (by decide) rfl (.pure _) rfl rfl
          exact wrap hbrace (fun _ => ⟨_, rfl⟩) fun _ => ⟨_, rfl⟩
      · exact (stays htidy).of (fun _ h => h.1) fun _ => id

/-! ### Nodes -/

/-- **A node of any body**, other than a call. -/
theorem markup {d d' : Nat} (hle : d ≤ d') :
    Over o (fun t => IsLast t ∧ t.kind ≠ .atCall) (Parse.markup d) (Parse.markup d') := by
  cases d with
  | zero => exact exhaust
  | succ d =>
    obtain ⟨d', rfl⟩ : ∃ n, d' = n + 1 := ⟨d' - 1, by omega⟩
    have hle := Nat.le_of_succ_le_succ hle
    rw [Parse.markup, Parse.markup]
    refine kindEq fun k => ?_
    split
    · refine wrap (element hcut htidy hle) ?_ ?_ <;> rintro (_ | ⟨_, _⟩) <;> exact ⟨_, rfl⟩
    · refine head Alike.letHead fails_letHead ⟨_, rfl⟩ fun h h' hh => kind fun _ =>
        ite (fun _ => ?_) fun _ => report fun _ => .pure _
      refine wrap (element hcut htidy hle) ?_ ?_ <;> rintro (_ | ⟨_, _⟩) <;> exact ⟨_, rfl⟩
    · exact forLoop hcut hle
    · exact (conditional_elseBranch hcut htidy helse hle).1 _
    · exact of_none (alikeAt o hle).call.leads fun t ht => ht.1.2 ht.2
    · exact (expressionNode hcut).of (fun _ ht => ht.1.1) fun _ => id

/-- **A node of the content of an element**, other than a call. -/
theorem contentNode {d d' : Nat} (hle : d ≤ d') :
    Over o (fun t => IsLast t ∧ t.kind ≠ .atCall) (Parse.contentNode d) (Parse.contentNode d') := by
  cases d with
  | zero => exact exhaust
  | succ d =>
    obtain ⟨d', rfl⟩ : ∃ n, d' = n + 1 := ⟨d' - 1, by omega⟩
    have hmarkup := markup hcut htidy helse (Nat.le_of_succ_le_succ hle)
    rw [Parse.contentNode, Parse.contentNode]
    refine kindEq fun k => ?_
    split
    case h_7 =>
      refine ite (fun _ => ?_) fun _ => ?_
      · exact (textNode hcut htidy).of (fun _ ht => ht.1.1) fun _ => id
      · exact (advance hcut htidy (stays htidy)).of (fun _ ht => ht.1.1) fun _ => id
    all_goals exact hmarkup.of (fun _ ht => ht.1) fun _ => id

end

omit htidy in
/-- **A call with a block**, from its brace on. -/
theorem callBlock {d d' : Nat} (hle : d ≤ d') (h h' : CallHead) :
    Over o (·.kind = .leftBrace) (Parse.callBlock d h) (Parse.callBlock d' h') :=
  next Alike.advanceLine fun _ => bind (alikeAt o hle).body fun _ _ _ =>
    expectLine hcut (by decide) (by decide) rfl (.pure _) rfl rfl

end

end Crosses

/-! ## Nodes of a text -/

/-- If a call starts here, it has a block. -/
def HasBlock (s : TokenStream) : Prop :=
  s.current.kind = .atCall → (callHead.run s).2.current.kind = .leftBrace

instance (s : TokenStream) : Decidable (HasBlock s) :=
  inferInstanceAs (Decidable (_ → _))

theorem run_call {d : Nat} {h : CallHead} (ha : (callHead.run s).1 = some h)
    (hblock : (callHead.run s).2.current.kind = .leftBrace) :
    (call (d + 1)).run s = (callBlock d h).run (callHead.run s).2 := by
  rw [call, run_bind_eq ha]
  simp only
  rw [run_bind_eq (show (kind.run _).1 = _ from hblock), if_pos rfl]
  rfl

theorem run_contentNode_call {d : Nat} (h : s.current.kind = .atCall) :
    (contentNode (d + 1)).run s = (markup d).run s
      ∧ (contentNode (d + 2)).run s = (call d).run s := by
  have hkind : kind.run s = (.atCall, s) := congrArg (·, s) h
  have hmarkup : ∀ d, (contentNode (d + 1)).run s = (markup d).run s := fun d => by
    rw [contentNode, StateT.run_bind, hkind]
    rfl
  refine ⟨hmarkup d, (hmarkup (d + 1)).trans ?_⟩
  rw [markup, StateT.run_bind, hkind]
  rfl

section

variable (hcut : o.whole = false) (htidy : o.tidy = false)

include hcut

/-- **A call with a block crosses the end of its text.** -/
theorem stands_call {d d' : Nat} (hle : d ≤ d') (hs : s.Meets o s')
    (hblock : (callHead.run s).2.current.kind = .leftBrace) (hends : Ends ((call d).run s).2) :
    Stands o ((call d').run s').2 := by
  cases d with
  | zero => exact absurd hends.exhausted.symm Bool.false_ne_true
  | succ d =>
    obtain ⟨d', rfl⟩ : ∃ n, d' = n + 1 := ⟨d' - 1, by omega⟩
    have hle := Nat.le_of_succ_le_succ hle
    have hleads := (Alike.callHead (o := o)).leads s
    cases ha : (callHead.run s).1 with
    | none =>
      rw [call, run_bind_eq ha] at hends
      exact absurd hends.clean (fails_callHead s ha hends.exhausted)
    | some h =>
      have hcross := fun h' => Crosses.callBlock hcut hle h h'
      rw [run_call ha hblock] at hends
      have hlt := (hcross h).before _ (hleads.lined hs.lined)
        ((hleads.source_eq hs.lined).trans hs.source_eq) hblock hends trivial
      obtain ⟨heq, hs'⟩ := Alike.callHead.meets s s' hs (within_of_lt (hcross h).leads hends hlt)
      cases ha' : (callHead.run s').1 with
      | none =>
        rw [ha, ha'] at heq
        cases heq
      | some h' =>
        rw [run_call ha' (hs'.same_kind.trans hblock)]
        exact ((hcross h').meets _ _ hs' hblock hends trivial).2

include htidy

/-- **A node of the content of an element** is read on its own like in the source. If
it is the last one, the stream in the source then stands behind the text. -/
theorem Joined.contentNode (helse : (entry o.after).current.kind ≠ .atElse) {d d' : Nat}
    (hle : d ≤ d') (h : Joined o s s') (hlast : IsLast s.current) (hblock : HasBlock s)
    (hfine : Fine ((Parse.contentNode d).run s).2) :
    Joined o ((Parse.contentNode d).run s).2 ((Parse.contentNode d').run s').2 := by
  have halike := (alikeAt o hle).contentNode
  by_cases hcall : s.current.kind = .atCall
  · by_cases hend : ((Parse.contentNode d).run s).2.current.kind = .endOfInput
    · have hleads := halike.leads s
      refine ⟨hleads.lined h.lined, (hleads.source_eq h.lined).trans h.source_eq,
        fun hne => absurd hend hne, fun _ => ?_⟩
      have hmeets := h.meets hlast.1
      obtain _ | _ | d := d
      · exact absurd hfine.exhausted.symm Bool.false_ne_true
      · rw [(run_contentNode_call hcall).1] at hfine
        exact absurd hfine.exhausted.symm Bool.false_ne_true
      · obtain ⟨d', rfl⟩ : ∃ n, d' = n + 2 := ⟨d' - 2, by omega⟩
        rw [(run_contentNode_call hcall).2] at hfine hend
        rw [(run_contentNode_call (hmeets.same_kind.trans hcall)).2]
        exact stands_call hcut (by omega) hmeets (hblock hcall) ⟨hfine.exhausted, hfine.clean, hend⟩
    · exact (h.alike htidy hlast.1 halike hfine hend).2
  · have hcross := Crosses.contentNode hcut htidy helse hle
    exact (h.step htidy hlast.1 halike.toOver hcross ⟨hlast, hcall⟩ hfine trivial).2

end

end Parse

end Gsx
