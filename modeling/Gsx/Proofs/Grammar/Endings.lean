import Gsx.Proofs.Grammar.Crossing
/-!
# How declarations end

A complete declaration ends with a brace, a parenthesis or a line end, and its
reader moves over the line ends behind it. So each reader of declarations crosses
the end of a text of which it reads the last one. The exception is a Go
declaration that only the end of the input ends: it would go on in the source.
-/

namespace Gsx

/-- The code of a Go declaration goes up to the end of the text: only the end of the
input ends it. -/
def GoDecl.RunsOut (text : List Char) (d : GoDecl) : Prop :=
  d.code.toList <:+ text

namespace Declaration

/-- A declaration that only the end of the input ends. -/
def RunsOut (text : List Char) : Declaration → Prop
  | .decl d => d.RunsOut text
  | _ => False

theorem runsOut_withLeading {text : List Char} {g : Option CommentGroup} {d : Declaration} :
    (d.withLeading g).RunsOut text ↔ d.RunsOut text := by
  cases d <;> exact Iff.rfl

end Declaration

namespace Parse

open TokenStream

variable {α β γ δ σ : Type} {o : Window} {p : Token → Prop}

/-! ## Failing -/

/-- Where a reader gives nothing, something is wrong. -/
def Fails (m : Parse (Option α)) : Prop :=
  ∀ s : TokenStream, (m.run s).1 = none → (m.run s).2.exhausted = false → ¬ (m.run s).2.Clean

namespace Fails

theorem some (a : α) : Fails (Pure.pure (some a)) :=
  fun _ h => absurd h (Option.some_ne_none a)

theorem report (f : GrammarFault) : Fails (Parse.report f >>= fun _ => Pure.pure (none : Option α)) :=
  fun _ _ _ hclean => absurd hclean.diagnostics (List.append_ne_nil_of_right_ne_nil _ (List.cons_ne_nil _ _))

theorem bind {m : Parse β} {f : β → Parse (Option α)} (hf : ∀ a, Fails (f a)) :
    Fails (m >>= f) :=
  fun s => hf (m.run s).1 (m.run s).2

theorem option {m : Parse (Option β)} {f : Option β → Parse (Option α)} (hm : Fails m)
    (hnone : f none = Pure.pure none) (hsome : ∀ a, Fails (f (Option.some a))) :
    Fails (m >>= f) := by
  intro s
  cases hr : (m.run s).1 with
  | none =>
    rw [run_bind_eq hr, hnone]
    exact fun _ => hm s hr
  | some a =>
    rw [run_bind_eq hr]
    exact hsome a _

theorem ite {c : Prop} [Decidable c] {m n : Parse (Option α)} (hm : Fails m) (hn : Fails n) :
    Fails (if c then m else n) := by
  split
  · exact hm
  · exact hn

theorem expect (want : TokenKind) {m : Parse (Option α)} (hm : Fails m) :
    Fails (Parse.expect want >>= fun found => if found then m else Pure.pure none) := by
  intro s
  rw [StateT.run_bind]
  by_cases hkind : s.current.kind = want
  · rw [run_expect hkind]
    exact hm s.advanced
  · rw [run_expect_of_ne hkind]
    exact fun _ _ hclean =>
      absurd hclean.diagnostics (List.append_ne_nil_of_right_ne_nil _ (List.cons_ne_nil _ _))

end Fails

theorem fails_params : Fails params :=
  .expect _ <| .bind fun _ => .expect _ (.some _)

theorem fails_block (d : Nat) : Fails (block d) := by
  cases d with
  | zero => exact fun _ _ h => absurd h.symm Bool.false_ne_true
  | succ d =>
    rw [block]
    refine .bind fun place => .expect _ <| .bind fun g => .bind fun _ => .bind fun b => ?_
    intro s
    rw [expectLine, StateT.run_bind, StateT.run_bind]
    by_cases hkind : s.current.kind = .rightBrace
    · rw [run_expect hkind]
      exact fun h => absurd h (Option.some_ne_none _)
    · rw [run_expect_of_ne hkind]
      exact fun _ _ hclean =>
        absurd hclean.diagnostics (List.append_ne_nil_of_right_ne_nil _ (List.cons_ne_nil _ _))

theorem fails_componentBlock (name : String) (ps : List Param) (place : Position) :
    Fails (componentBlock name ps place) :=
  .bind fun _ => .option (fails_block _) rfl fun _ => .some _

theorem fails_component : Fails component :=
  .bind fun _ => .bind fun _ => .bind fun _ => .ite
    (.bind fun _ => .option fails_params rfl fun _ => .bind fun _ => fails_componentBlock _ _ _)
    (.report _)

theorem fails_map {m : Parse (Option α)} (hm : Fails m) (f : α → β) :
    Fails (m >>= fun a => Pure.pure (a.map f)) :=
  .option hm rfl fun _ => .some _

theorem fails_funcDeclaration : Fails funcDeclaration := by
  refine .bind fun f => .bind fun _ => .bind fun t => .ite (.bind fun _ => .some _) (.ite ?_ ?_)
  · exact .bind fun _ => .option fails_params rfl fun ps => .bind fun _ => .bind fun _ =>
      .bind fun _ => .ite (fails_map (fails_componentBlock _ _ _) _) (.bind fun _ => .some _)
  · exact .report _

theorem fails_declaration : Fails declaration := by
  refine .bind fun t => ?_
  split
  · exact fails_map fails_component _
  · exact fails_funcDeclaration
  · exact .ite (.bind fun _ => .some _) (.report _)

/-! ## Crossing the end -/

/-- A scan stops at the end of the input, or at a token that its step does not take. -/
theorem scanUpTo_stops {step : σ → Token → Option σ} {fuel : Nat} {a : σ} {s : TokenStream}
    (h : ((scanUpTo step fuel a).run s).2.exhausted = false) :
    ((scanUpTo step fuel a).run s).2.current.kind = .endOfInput
      ∨ step ((scanUpTo step fuel a).run s).1 ((scanUpTo step fuel a).run s).2.current = none := by
  induction fuel generalizing a s with
  | zero => exact absurd h.symm Bool.false_ne_true
  | succ fuel ih =>
    by_cases hstop : s.current.kind = .endOfInput ∨ step a s.current = none
    · rw [run_scanUpTo_stop fuel hstop]
      exact hstop
    · obtain ⟨hthere, hstep⟩ := not_or.1 hstop
      obtain ⟨a', ha'⟩ := Option.ne_none_iff_exists'.1 hstep
      rw [run_scanUpTo_succ fuel hthere ha'] at h ⊢
      exact ih h

/-- The token at which a function ends is the brace that closes it. -/
theorem kind_of_functionStep {depth : Int × Bool} {t : Token} (h : functionStep depth t = none) :
    t.kind = .rightBrace := by
  rw [functionStep] at h
  split at h
  · cases h
  · assumption
  · cases h

/-- Go code up to the end of the input is the end of the text. -/
theorem suffix_of_end {s : TokenStream} (hs : s.Lined) (hsource : s.lexer.source = o.text)
    (hend : s.current.kind = .endOfInput) (start : Nat) :
    s.lexer.slice start s.lexer.cursor.offset <:+ o.text := by
  have hoffset : s.lexer.source.length ≤ s.lexer.cursor.offset := by
    rw [← hs.current_end hend]
    exact hs.current_le.trans hs.peek_le
  rw [Lexer.slice, List.take_of_length_le, hsource]
  · exact List.drop_suffix _ _
  · rw [List.length_drop]
    omega

namespace Crosses

variable {q : β → Prop} {e : α → γ} {e' : β → δ}

section

variable (hcut : o.whole = false)

include hcut

theorem packageName : Crosses o p (fun _ => True) id Parse.packageName Parse.packageName := by
  refine kind fun _ => ite (fun _ => next Alike.advance fun _ => ?_) fun _ => report fun _ => .pure _
  refine currentIn (fun t => ?_) fun t _ _ _ => ite (fun hkind => ?_) fun _ => report fun _ => .pure _
  · exact .ite (.bind .advanceLine fun _ => .pure _)
      (.bind (Alike.report (o := o) _).leads fun _ => .pure _)
  · refine (advanceLine hcut rfl).of (fun t' ht => ?_) fun _ => id
    rw [ht, IsLast, hkind]
    decide

/-- An import ends with its path; what crosses the end stands behind that. -/
theorem importEntry (htidy : o.tidy = false) {f f' : Option Import → Parse β}
    (hnone : Leading (f none)) (hsome : ∀ i i', Alike.showImport i = Alike.showImport i' →
      Crosses o (·.kind ≠ .endOfInput) q e' (f (some i)) (f' (some i'))) :
    Crosses o p q e' (Parse.importEntry >>= f) (Parse.importEntry >>= f') := by
  have hlead : ∀ i, Leading (f i) := fun i => by
    cases i with
    | none => exact hnone
    | some i => exact (hsome i i rfl).leads
  simp only [Parse.importEntry, bind_assoc]
  refine position fun place => next Alike.importName fun name => currentIn (fun t => ?_)
    fun t _ _ _ => ?_
  · split
    · simp only [bind_assoc]
      exact .bind .advance fun _ => .bind (.trailingComment _) fun _ => .bind (.pure _) hlead
    · simp only [bind_assoc]
      exact .bind (Alike.report (o := o) _).leads fun _ => .bind (.pure _) hlead
  · by_cases hkind : t.kind = .string
    · have hkind' : (o.token t).kind = .string := hkind
      simp only [if_pos hkind, if_pos hkind', bind_assoc, pure_bind]
      refine (advance hcut htidy ?_).of (fun t' ht => ?_) fun _ => id
      · refine bindOf _ (Alike.trailingComment t.position.line) (fun s hs _ => ?_)
          fun _ _ _ => hsome _ _ rfl
        rw [run_trailingComment]
        exact hs
      · rw [ht, IsLast, hkind]
        decide
    · simp only [if_neg hkind, bind_assoc, pure_bind]
      exact report fun _ => hnone

theorem importRound (htidy : o.tidy = false) :
    Crosses o p (·.again) (Alike.showRound Alike.showImport) Parse.importRound Parse.importRound := by
  refine kind fun _ => ite (fun _ => next Alike.advanceLine fun _ => kind fun _ =>
    ite (fun _ => ?_) fun _ => ?_) fun _ => pure_of_not Bool.false_ne_true
  · refine next Alike.advanceLine fun _ => bind (Alike.repeated Alike.groupRound) fun _ _ h => ?_
    refine expect hcut (by decide) (by decide) ?_ (.bind .skipNewlines fun _ => .pure _) rfl rfl
    exact congrArg (·, true) h
  · exact importEntry hcut htidy (.bind .skipNewlines fun _ => .pure _) fun i i' h =>
      skipNewlines hcut htidy (congrArg (fun i => ([i], true)) h)

theorem goFunc (start : Nat) (place place' : Position) :
    Crosses o p (fun _ => True) (GoFunc.plain o.tidy) (Parse.goFunc start place)
      (Parse.goFunc (o.before.length + start) place') := by
  refine bindOf (fun t => t.kind = .endOfInput ∨ t.kind = .rightBrace)
    (Alike.scan (o := o) (fun _ _ => rfl) _) (fun s _ h => ?_) fun _ _ _ => ?_
  · exact (scanUpTo_stops h).imp_right kind_of_functionStep
  · refine currentIn (fun t => ?_) fun t ht _ hlt => ite (fun _ => ?_) fun hne => ?_
    · exact .ite (.bind (.reportAt _ _) fun _ => .bind .lexedOffset fun _ =>
        .bind (.sourceText _ _) fun _ => .pure _)
        (.bind (.sourceText _ _) fun _ => .bind .advanceLine fun _ => .pure _)
    · exact reportAt (fun _ => .bind .lexedOffset fun _ => .bind (.sourceText _ _) fun _ => .pure _)
    · have hbrace := ht.resolve_left hne
      refine bindOf IsLast (Alike.sourceText _ (.inl (hlt hne))) (fun s hs _ => ?_)
        fun code code' hcode => advanceLine hcut ?_
      · change IsLast s.current
        rw [hs, IsLast, hbrace]
        decide
      · cases (show code = code' from hcode)
        rfl

theorem block {d d' : Nat} (hle : d ≤ d') :
    Crosses o p (·.isSome) (Option.map (Block.plain o.tidy)) (Parse.block d) (Parse.block d') := by
  cases d with
  | zero => exact .exhaust
  | succ d =>
    obtain ⟨d', rfl⟩ : ∃ n, d' = n + 1 := ⟨d' - 1, by omega⟩
    rw [Parse.block, Parse.block]
    refine position fun place => next (Alike.expect _) fun _ => ite (fun _ => ?_)
      fun _ => pure_of_not Bool.false_ne_true
    refine bind (Alike.trailingComment place.line) fun g g' hg => next Alike.skipNewlines fun _ =>
      bind (alikeAt o (Nat.le_of_succ_le_succ hle)).body fun b b' hb =>
        expectLine hcut (by decide) (by decide) ?_ (.pure _) rfl rfl
    exact congrArg₂ (fun g b => some (Block.mk g b)) hg hb

theorem componentBlock (name : String) {ps ps' : List Param}
    (hps : ps.map Param.plain = ps'.map Param.plain) (place place' : Position) :
    Crosses o p (·.isSome) (Alike.showComponent o) (Parse.componentBlock name ps place)
      (Parse.componentBlock name ps' place') := by
  refine depth fun _ _ hle => ?_
  refine mapSome (block hcut hle) rfl (fun _ => rfl) (fun _ => rfl) Bool.false_ne_true fun b b' hb => ?_
  exact congrArg₂ (fun ps (b : Block) => some (Component.mk name ps b.body.nodes false .nowhere
    (plainGroup o.tidy none) b.trailing b.body.orphans)) hps hb

theorem component :
    Crosses o p (·.isSome) (Alike.showComponent o) Parse.component Parse.component :=
  position fun _ => next Alike.advance fun _ => currentAny fun _ => ite
    (fun _ => next Alike.advance fun _ => option Alike.params (fun _ => pure_of_not Bool.false_ne_true)
      fun _ _ h => next Alike.skipNewlines fun _ => componentBlock hcut _ h _ _)
    fun _ => report (fun _ => .pure _)

theorem goDecl (htidy : o.tidy = false) :
    Crosses o p (fun d => ¬ d.RunsOut o.text) (GoDecl.plain o.tidy) Parse.goDecl Parse.goDecl := by
  have hmk : ∀ {word code code' : String} {place place' : Position}, code = code' →
      GoDecl.plain o.tidy ⟨word, code, place, none⟩
        = GoDecl.plain o.tidy ⟨word, code', place', none⟩ := fun h => by
    cases h
    rfl
  refine currentAny fun first => next (Alike.scan (o := o) (fun _ _ => rfl) _) fun _ =>
    currentIn (fun t => ?_) fun t _ hle hlt => ?_
  · split
    · exact .bind .lexedOffset fun _ => .bind (.sourceText _ _) fun _ => .pure _
    · exact .bind (.sourceText _ _) fun _ => .bind .skipNewlines fun _ => .pure _
    · exact .bind (.sourceText _ _) fun _ => .bind .advanceLine fun _ => .pure _
  · simp only [Window.token]
    split
    · next hend =>
      refine of_not (.bind .lexedOffset fun _ => .bind (.sourceText _ _) fun _ => .pure _) ?_
      intro s hs hsource ht hq
      refine hq ?_
      have hcode := suffix_of_end hs hsource (by rw [ht, hend]) first.start
      rw [← String.toList_ofList (l := s.lexer.slice _ _)] at hcode
      exact hcode
    · next hend =>
      refine bindOf (·.kind ≠ .endOfInput) (Alike.sourceText _ (.inl hle))
        (fun s hs _ => ?_) fun code code' hcode => skipNewlines hcut htidy (hmk hcode)
      change s.current.kind ≠ _
      rw [hs, hend]
      decide
    · next hthere hnewline =>
      refine bindOf IsLast (Alike.sourceText _ (.inl (hlt hthere)))
        (fun s hs _ => ?_) fun code code' hcode => advanceLine hcut (hmk hcode)
      change IsLast s.current
      rw [hs]
      exact ⟨hthere, hnewline⟩

theorem func (start : Nat) (place place' : Position) {q : Option Declaration → Prop} :
    Crosses o p q (Alike.showDeclaration o)
      (Parse.goFunc start place >>= fun f => Pure.pure (some (Declaration.func f)))
      (Parse.goFunc (o.before.length + start) place' >>= fun f =>
        Pure.pure (some (Declaration.func f))) :=
  andPure (goFunc hcut start place place')
    (fun _ _ h => congrArg (fun f => some (Declaration.func f)) h) fun _ _ => trivial

theorem funcDeclaration {q : Option Declaration → Prop} (hq : ¬ q none) :
    Crosses o p q (Alike.showDeclaration o) Parse.funcDeclaration Parse.funcDeclaration := by
  refine currentAny fun f => next Alike.advance fun _ => currentAny fun t =>
    ite (fun _ => func hcut _ _ _) fun _ => ite (fun _ => ?_) fun _ => report fun _ => .pure _
  refine next Alike.advance fun _ => option Alike.params (fun _ => pure_of_not hq) fun ps ps' hps =>
    next Alike.skipNewlines fun _ => next Alike.resultName fun _ => next Alike.skipNewlines fun _ =>
      ite (fun _ => ?_) fun _ => func hcut _ _ _
  refine mapSome (componentBlock hcut _ hps _ _) rfl (fun _ => rfl) (fun _ => rfl) hq fun c c' hc => ?_
  exact congrArg (fun c => some (Declaration.component c)) hc

/-- What is asked of a declaration at the end of a text: that it is there, and does
not run out. -/
def EndsWell (o : Window) (d : Option Declaration) : Prop :=
  ∃ x, d = some x ∧ ¬ x.RunsOut o.text

theorem declaration (htidy : o.tidy = false) :
    Crosses o p (EndsWell o) (Alike.showDeclaration o) Parse.declaration Parse.declaration := by
  have hnone : ¬ EndsWell o none := fun h => Option.some_ne_none _ h.choose_spec.1.symm
  refine currentAny fun t => ?_
  simp only [Window.token]
  split
  · exact mapSome (component hcut) rfl (fun _ => rfl) (fun _ => rfl) hnone fun _ _ hc =>
      congrArg (fun c => some (Declaration.component c)) hc
  · exact funcDeclaration hcut hnone
  · refine ite (fun _ => ?_) fun _ => report fun _ => .pure _
    refine andPure (goDecl hcut htidy)
      (fun _ _ h => congrArg (fun d => some (Declaration.decl d)) h) fun d hd => ?_
    obtain ⟨x, hx, hends⟩ := hd
    cases hx
    exact hends

/-- What is asked of a round of declarations at the end of a text. -/
def RoundEndsWell (o : Window) (r : Round Declaration) : Prop :=
  r.again = true ∧ ∀ x ∈ r.items, ¬ x.RunsOut o.text

theorem declarationRound (htidy : o.tidy = false) :
    Crosses o p (RoundEndsWell o) (Alike.showRound (Declaration.plain o.tidy))
      Parse.declarationRound Parse.declarationRound := by
  refine next Alike.skipNewlines fun _ => kind fun _ => ite
    (fun _ => pure_of_not fun h => Bool.false_ne_true h.1) fun _ =>
      bind Alike.leadingComments fun g g' hg => ?_
  refine andThen (declaration hcut htidy) (fun d => ?_) (fun s hends hq => ?_)
    fun d d' hd h => ?_
  · cases d with
    | none => exact .bind (Alike.recover (o := o)).leads fun _ => .pure _
    | some d => exact .pure _
  · cases hr : (Parse.declaration.run s).1 with
    | none =>
      have hlead : Leading (Parse.recover >>= fun _ =>
          Pure.pure (Round.more ([] : List Declaration))) :=
        .bind (Alike.recover (o := o)).leads fun _ => .pure _
      rw [run_bind_eq hr] at hends
      exact absurd ((hlead _).clean hends.clean)
        (fails_declaration s hr ((hlead _).exhausted hends.exhausted))
    | some x =>
      rw [run_bind_eq hr] at hq
      exact ⟨x, rfl, mt Declaration.runsOut_withLeading.2 (hq.2 _ (List.mem_singleton_self _))⟩
  · obtain ⟨x, rfl, -⟩ := hd
    cases d' with
    | none => cases h
    | some x' =>
      refine ⟨_, _, rfl, rfl, ?_⟩
      simp only [Alike.showRound, Round.more, List.map_cons, Declaration.plain_withLeading,
        Option.some.inj h, hg, List.map_nil]

end

end Crosses

end Parse

end Gsx
