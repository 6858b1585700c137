import Gsx.Proofs.Grammar.AccountedBodies
import Gsx.Proofs.Grammar.Appending
/-!
# What files account for

The outer grammar: what reading a file goes over accounts for its declarations,
one after the other. A function is told from its first token on, though its head
is read like that of a component; so what its head has gone over must not have
gone behind braces. Reading a file ends at the end of the input.
-/

namespace Gsx.Parse

open Lexer TokenStream

variable {α β : Type} {l m : Lexer} {is js : List Item}

/-! ## Package and imports -/

theorem tours_packageName : Tours packageName (AccountsSome nowhere) := fun _ =>
  .ofKind <| .ite (fun hpackage => .advance <| .ofCurrent <| .ite
    (fun hname => .advanceLine fun _ _ hjs => .pure
      (((Accounts.token (hpackage ▸ rfl)).append (.token (hname ▸ rfl))).skip (.lines hjs)))
    fun _ => .reportLast fun _ h => h) fun _ => .reportLast fun _ h => h

theorem tours_importName : Tours importName fun js _ => Accounts js [] := fun _ =>
  .ofCurrent <| .ite (fun hkind => .advance (.pure (.token (by
    simp only [Bool.or_eq_true, decide_eq_true_eq] at hkind
    obtain (hkind | hkind) | hkind := hkind <;> rw [hkind] <;> rfl)))) fun _ => .pure .nil

theorem tours_importEntry : Tours importEntry (AccountsSome nowhere) := fun l =>
  .ofPosition <| .bind (tours_importName l) fun e js _ _ hjs => .ofCurrent <| .ite
    (fun hkind => .advance <| .bind (tours_trailingComment _ _) fun _ ks _ _ hks => .pure (by
      rw [hks, List.append_nil]
      exact Accounts.skip hjs (.token (hkind ▸ rfl))))
    fun _ => .reportLast fun _ h => h

theorem tours_groupRound : Tours groupRound fun js _ => Accounts js [] := fun l => by
  refine .ofKind <| .ite (fun _ => .pure .nil) fun _ =>
    .bind (tours_importEntry l) fun e js entry _ hentry => ?_
  cases entry with
  | none =>
    refine .advanceLine fun _ ks _ => .pure (.fault ?_)
    exact List.mem_append_left _ (List.mem_append_left _ hentry)
  | some entry =>
    exact .bind (tours_skipNewlines e) fun _ ks _ _ hks => .pure (Accounts.skip hentry (.lines hks))

theorem tours_importRound : Tours importRound fun js _ => Accounts js [] := fun l => by
  refine .ofKind <| .ite (fun himport => .advanceLine fun e js hjs => .ofKind ?_) fun _ => .pure .nil
  have hfront : ∀ next, Accounts ([.token (l.token 0) next] ++ js) [] := fun _ =>
    (Accounts.token (himport ▸ rfl)).skip (.lines hjs)
  have hgroup : Tours (repeated groupRound) fun js _ => Accounts js [] :=
    .repeated (.fault (List.mem_singleton_self _)) (fun _ _ _ _ h h' => h.skip h') tours_groupRound
  refine .ite (fun hparen => .advanceLine fun e ks hks => ?_) fun _ =>
    .bind (tours_importEntry e) fun e ks entry _ hentry =>
      .bind (tours_skipNewlines e) fun _ ns _ _ hns => .pure ?_
  · refine .bind (hgroup e) fun e hs _ _ hhs => .bind (tours_expect_quiet rfl e) fun e rs found _ hrs =>
      .bind (tours_skipNewlines e) fun _ ns _ _ hns => .pure ?_
    have hquiet : Accounts rs [] := by
      cases found with
      | true => exact hrs
      | false => exact .fault hrs
    exact (((((hfront (l.token 1)).skip (.token (hparen ▸ rfl))).skip (.lines hks)).skip hhs).skip
      hquiet).skip (.lines hns)
  · have hquiet : Accounts ks [] := by
      cases entry with
      | none => exact .fault hentry
      | some entry => exact hentry
    exact ((hfront (l.token 1)).skip hquiet).skip (.lines hns)

theorem tours_imports : Tours imports fun js _ => Accounts js [] :=
  .repeated (.fault (List.mem_singleton_self _)) (fun _ _ _ _ h h' => h.skip h') tours_importRound

/-! ## Heads of components and functions -/

/-- **Items of a head**: none of them goes behind braces, and they account for an
outline. -/
structure AccountsPlainly (js : List Item) (es : List Event) : Prop where
  accounts : Accounts js es
  plain : ∀ i ∈ js, i.isPlain = true

namespace AccountsPlainly

variable {es fs : List Event} {t next : Token}

theorem nil : AccountsPlainly [] [] :=
  ⟨.nil, fun _ hi => absurd hi List.not_mem_nil⟩

theorem append (h : AccountsPlainly is es) (h' : AccountsPlainly js fs) :
    AccountsPlainly (is ++ js) (es ++ fs) :=
  ⟨h.accounts.append h'.accounts, fun i hi => (List.mem_append.1 hi).elim (h.plain i) (h'.plain i)⟩

theorem skip (h : AccountsPlainly is es) (h' : AccountsPlainly js []) :
    AccountsPlainly (is ++ js) es :=
  ⟨h.accounts.skip h'.accounts, (h.append h').plain⟩

theorem tokens (h : TokensOf (·.startsTag = false) is) : AccountsPlainly is [] :=
  ⟨.tokens h, fun i hi => by
    obtain ⟨t, next, rfl, -⟩ := h i hi
    rfl⟩

theorem token (h : t.kind.startsTag = false) : AccountsPlainly [.token t next] [] :=
  tokens (.token h)

theorem lines (h : TokensOf (· = .newline) is) : AccountsPlainly is [] :=
  tokens fun i hi => by
    obtain ⟨t, next, hi, ht⟩ := h i hi
    exact ⟨t, next, hi, ht ▸ rfl⟩

theorem fault : AccountsPlainly [.fault] [] :=
  ⟨.fault (List.mem_singleton_self _), fun _ hi => List.mem_singleton.1 hi ▸ rfl⟩

end AccountsPlainly

theorem IsHeader.accountsPlainly {code : String} (h : IsHeader js code) :
    AccountsPlainly js [.header code] := by
  refine ⟨h.accounts, ?_⟩
  obtain ⟨first, text, rfl, -⟩ := h
  exact fun i hi => List.mem_singleton.1 hi ▸ rfl

/-- A capture of nothing but blanks. -/
theorem IsHeader.blank (h : IsHeader js "") : AccountsPlainly js [] := by
  refine ⟨?_, h.accountsPlainly.plain⟩
  obtain ⟨first, text, rfl, hblank⟩ := h
  refine .quiet (fun i hi => List.mem_singleton.1 hi ▸ rfl) fun i hi => ?_
  rw [List.mem_singleton.1 hi]
  exact if_pos hblank.symm

theorem tours_expect_plain {want : TokenKind} (h : want.startsTag = false) :
    Tours (expect want) fun js found => AccountsPlainly js [] ∧ (found = false → .fault ∈ js) :=
  fun l => (tours_expect want l).mono fun js found hjs => by
    cases found with
    | false =>
      obtain rfl : js = [.fault] := hjs
      exact ⟨.fault, fun _ => List.mem_singleton_self _⟩
    | true =>
      obtain ⟨t, next, hkind, rfl⟩ := hjs
      exact ⟨.token (hkind ▸ h), nofun⟩

/-- The outline of some parameters. -/
def paramOutline (ps : List Param) : List Event :=
  ps.map fun p => .header p.type

theorem tours_param : Tours param fun js p => AccountsPlainly js (paramOutline p.toList) := fun l => by
  refine .ofCurrent <| .ite (fun hname => .advance ?_) fun _ =>
    .bind (tours_report _ l) fun _ js _ _ hjs => .pure (hjs ▸ .fault)
  have htoken : ∀ next, AccountsPlainly [.token (l.token 0) next] [] := fun _ =>
    .token (hname ▸ rfl)
  refine .bind (tours_goType _) fun _ js type _ htype => .ite (fun hblank => .pure ?_) fun _ =>
    .pure ((htoken _).append htype.accountsPlainly)
  subst hblank
  exact (htoken _).skip htype.blank

theorem tours_paramRound : Tours paramRound fun js r =>
    AccountsPlainly js (paramOutline r.items) := fun l => by
  refine .ofKind <| .ite (fun _ => .pure .nil) fun _ =>
    .bind (tours_param l) fun e js p _ hp => .ofKind <| .ite
      (fun hcomma => .advanceLine fun _ ks hks => .pure ?_) fun _ => .pure hp
  exact (hp.skip (.token (hcomma ▸ rfl))).skip (.lines hks)

theorem tours_params : Tours params fun js r =>
    AccountsPlainly js (paramOutline (r.getD [])) ∧ (r = none → .fault ∈ js) := fun l => by
  have hround : Tours (repeated paramRound) fun js ps => AccountsPlainly js (paramOutline ps) :=
    .repeated .fault (fun _ _ as bs h h' => by
      rw [paramOutline, List.map_append]
      exact h.append h') tours_paramRound
  refine .bind (tours_expect_plain rfl l) fun e js found _ hfound => .ite (fun _ => ?_) fun hno =>
    .pure ⟨hfound.1, fun _ => hfound.2 (Bool.eq_false_iff.2 hno)⟩
  refine .bind (hround e) fun e ks ps _ hps => .bind (tours_expect_plain rfl e)
    fun _ hs found' _ hfound' => .ite (fun _ => .pure ⟨?_, nofun⟩) fun hno => .pure ⟨?_, fun _ => ?_⟩
  · exact (hfound.1.append hps).skip hfound'.1
  · refine ⟨.fault ?_, ((hfound.1.append hps).append hfound'.1).plain⟩
    exact List.mem_append_right _ (hfound'.2 (Bool.eq_false_iff.2 hno))
  · exact List.mem_append_right _ (hfound'.2 (Bool.eq_false_iff.2 hno))

theorem tours_resultName : Tours resultName fun js _ => AccountsPlainly js [] := fun _ =>
  .ofCurrent <| .ite (fun hname => .advance (.pure (.token (hname ▸ rfl)))) fun _ => .pure .nil

/-! ## Declarations -/

/-- The block of a component, behind its head. -/
theorem tours_componentBlock (name : String) (ps : List Param) (p : Position) :
    Tours (componentBlock name ps p) fun js r =>
      AccountsSome (fun c => Node.outlineOf c.body) js r
        ∧ ∀ c ∈ r, c.params = ps ∧ c.position = p := fun l => by
  refine .ofGet fun s => .bind ((accountsNest _).block l) fun _ js b _ hb => ?_
  cases b with
  | none => exact .pure ⟨hb, nofun⟩
  | some b =>
    refine .pure ⟨hb, ?_⟩
    rintro c ⟨⟩
    exact ⟨rfl, rfl⟩

/-- A component behind what its head has gone over. -/
theorem AccountsSome.component {r : Option Component} {t : Token} (next : Token) {p : Position}
    {ps : List Param} (hkind : t.kind = .atComponent ∨ t.kind = .funcWord) (hp : t.position = p)
    (hhead : Accounts is (paramOutline ps))
    (hbody : AccountsSome (fun c => Node.outlineOf c.body) js r)
    (hfields : ∀ c ∈ r, c.params = ps ∧ c.position = p) :
    AccountsSome Component.outline ([.token t next] ++ is ++ js) r := by
  cases r with
  | none => exact List.mem_append_right _ hbody
  | some c =>
    obtain ⟨hps, hposition⟩ := hfields c rfl
    have hnode : Accounts [.token t next] [.node ⟨.component, c.position, c.name⟩] := by
      refine .node nofun ?_ ⟨hp.trans hposition.symm, hkind⟩
      obtain hkind | hkind := hkind <;> rw [hkind] <;> rfl
    rw [← hps] at hhead
    exact (hnode.append hhead).append hbody

theorem toursAt_component (hkind : (l.token 0).kind = .atComponent) :
    ToursAt l component (AccountsSome Component.outline) := by
  refine .ofPosition <| .advance <| .ofCurrent <| .ite (fun hname => .advance ?_)
    fun _ => .reportLast fun _ h => h
  refine .bind (tours_params _) fun e js ps _ hps => ?_
  cases ps with
  | none => exact .pure (List.mem_append_right _ (hps.2 rfl))
  | some ps =>
    refine .bind (tours_skipNewlines e) fun e ks _ _ hks =>
      .last (tours_componentBlock _ _ _ e) fun hs r hr => ?_
    have htoken : ∀ next, Accounts [.token ((after 1 l).token 0) next] [] := fun _ =>
      .token (hname ▸ rfl)
    have hhead := ((htoken ((after 1 l).token 1)).append hps.1.accounts).skip (.lines hks)
    have hwhole := hr.1.component (l.token 1) (.inl hkind) rfl hhead hr.2
    simpa only [List.append_assoc, List.nil_append] using hwhole

/-- A component as a declaration. -/
theorem AccountsSome.map_component {r : Option Component}
    (h : AccountsSome Component.outline js r) :
    AccountsSome Declaration.outline js (r.map Declaration.component) := by
  cases r with
  | none => exact h
  | some c => exact h

/-- **What `func` declares** is a component, told by its parts, or a function,
told as one stretch. -/
theorem toursAt_funcDeclaration (hkind : (l.token 0).kind = .funcWord) :
    ToursAt l funcDeclaration (AccountsSome Declaration.outline) := by
  refine .ofIsIn fun hin => ?_
  have hfunc : ∀ {is n}, 0 < n → ToursFrom l is (after n l)
      (do return some (.func (← goFunc (l.token 0).start (l.token 0).position)))
      (AccountsSome Declaration.outline) := fun hpos =>
    .andThen (toursFrom_goFunc hin hkind hpos) fun _ _ _ hg => .pure hg
  refine .ofCurrent <| .advance <| .ofCurrent <| .ite (fun _ => hfunc Nat.one_pos) fun _ =>
    .ite (fun hname => .advance ?_) fun _ => .reportLast fun _ h => h
  refine .bind (tours_params _) fun e₁ js ps hroute₁ hps => ?_
  cases ps with
  | none => exact .pure (List.mem_append_right _ (hps.2 rfl))
  | some ps =>
    refine .bind (tours_skipNewlines e₁) fun e₂ ks _ hroute₂ hks =>
      .bind (tours_resultName e₂) fun e₃ ns result hroute₃ hns =>
        .bind (tours_skipNewlines e₃) fun e₄ hs _ hroute₄ hhs => .ite (fun _ => ?_) fun _ => ?_
    · refine .bind (tours_componentBlock _ _ _ _) fun _ rs r _ hr => .pure (.map_component ?_)
      have htoken : ∀ next, Accounts [.token ((after 1 l).token 0) next] [] := fun _ =>
        .token (hname ▸ rfl)
      have hhead := ((((htoken ((after 1 l).token 1)).append hps.1.accounts).skip (.lines hks)).skip
        hns.accounts).skip (.lines hhs)
      have hwhole := hr.1.component (l.token 1) (.inr hkind) rfl hhead hr.2
      simpa only [List.append_assoc, List.nil_append] using hwhole
    · -- behind a head without braces the tokens are still those from the first on
      have hall := ((hroute₁.append hroute₂).append hroute₃).append hroute₄
      have hplain := ((hps.1.skip (.lines hks)).skip hns).skip (.lines hhs)
      obtain ⟨n, hn⟩ := hall.exists_after hplain.plain
      rw [hn, ← after_add, ← after_add]
      exact hfunc (by omega)

theorem tours_declaration : Tours declaration (AccountsSome Declaration.outline) := fun l => by
  refine .ofCurrent ?_
  split
  · next hkind =>
    exact .bind (toursAt_component hkind) fun _ js c _ hc => .pure (.map_component hc)
  · next hkind => exact toursAt_funcDeclaration hkind
  · exact .ite (fun hword => .bind (toursAt_goDecl hword) fun _ js d _ hd => .pure hd)
      fun _ => .reportLast fun _ h => h

/-- Starting over goes over whatever stands in the way. -/
theorem tours_recover : Tours recover fun _ _ => True := fun l =>
  .ofCurrent <| .bind (tours_skipWhile _ l) fun _ _ _ _ _ =>
    .last (ToursAt.note (p := fun _ => True) fun _ =>
      ⟨⟨rfl, rfl, rfl, rfl, rfl, fun _ => .inl⟩, rfl, trivial⟩) fun _ _ _ => trivial

theorem tours_declarations : Tours declarations fun js ds =>
    Accounts js (ds.flatMap Declaration.outline) := by
  refine .repeated (.fault (List.mem_singleton_self _)) (fun _ _ as bs h h' => by
    rw [List.flatMap_append]
    exact h.append h') fun l => ?_
  refine .bind (tours_skipNewlines l) fun e js _ _ hjs => .ofKind <| .ite
    (fun _ => .pure (.lines hjs)) fun _ => .bind (tours_leadingComments e) fun e' ks leading _ hks => ?_
  refine .bind (tours_declaration e') fun e'' ns d _ hd => ?_
  cases d with
  | none =>
    exact .bind (tours_recover e'') fun _ hs _ _ _ =>
      .pure (.fault (List.mem_append_left _ (List.mem_append_right _ hd)))
  | some d =>
    refine .pure ?_
    change Accounts _ ([d.withLeading leading].flatMap Declaration.outline)
    rw [List.flatMap_singleton, Declaration.outline_withLeading, hks, List.append_nil]
    exact (Accounts.lines hjs).append hd

/-- **A file accounts for its declarations**, in the order of the source. -/
def AccountsFile (js : List Item) (f : SourceFile) : Prop :=
  ∃ ds : List Declaration, Accounts js (ds.flatMap Declaration.outline)
    ∧ f.components = ds.filterMap Declaration.component?
    ∧ f.funcs = ds.filterMap Declaration.func?
    ∧ f.decls = ds.filterMap Declaration.decl?

theorem tours_sourceFile : Tours sourceFile fun js r =>
    (∀ f ∈ r, AccountsFile js f) ∧ (r = none → .fault ∈ js) := fun l => by
  refine .ofPosition <| .bind (tours_skipNewlines l) fun e js _ _ hjs =>
    .bind (tours_leadingComments e) fun e ks leading _ hks => .bind (tours_packageName e)
      fun e ns package _ hpackage => ?_
  cases package with
  | none => exact .pure ⟨nofun, fun _ => List.mem_append_right _ hpackage⟩
  | some package =>
    refine .bind (tours_skipNewlines e) fun e js₁ _ _ hjs₁ => .bind (tours_imports e)
      fun e js₂ _ _ hjs₂ => .bind (tours_skipNewlines e) fun e js₃ _ _ hjs₃ =>
        .bind (tours_declarations e) fun e js₄ ds _ hds => .bind (tours_orphanComments e)
          fun e js₅ _ _ hjs₅ => .ofGet fun s => .pure ⟨?_, nofun⟩
    rintro f ⟨⟩
    refine ⟨ds, ?_, rfl, rfl, rfl⟩
    rw [hks, hjs₅, List.append_nil, List.append_nil]
    exact (((((Accounts.lines hjs).skip hpackage).skip (.lines hjs₁)).skip hjs₂).skip
      (.lines hjs₃)).append hds

/-! ## The end of the input -/

/-- A stream at the end of the input, or one that has reached a bound. -/
def IsDone (s : TokenStream) : Prop :=
  s.exhausted = true ∨ s.current.kind = .endOfInput

/-- Declarations are read up to the end of the input. -/
theorem isDone_repeatUpTo (fuel : Nat) (s : TokenStream) :
    IsDone ((repeatUpTo declarationRound fuel).run s).2 := by
  induction fuel generalizing s with
  | zero => exact .inl rfl
  | succ fuel ih =>
    by_cases hend : (skipNewlines.run s).2.current.kind = .endOfInput
    · rw [repeatUpTo, run_bind_eq (congrArg Prod.fst (declarationRound_last hend)),
        declarationRound_last hend]
      exact .inr hend
    · rw [repeatUpTo, run_bind_eq rfl, if_pos (again_declarationRound hend)]
      exact ih _

/-- A reader that has read everything where it gives something. -/
def Finishes (r : Parse (Option α)) : Prop :=
  ∀ s : TokenStream, (r.run s).1.isSome → IsDone (r.run s).2

theorem Finishes.bind {r : Parse β} {f : β → Parse (Option α)} (h : ∀ b, Finishes (f b)) :
    Finishes (r >>= f) :=
  fun s => h (r.run s).1 (r.run s).2

theorem keeps_orphanComments : Keeps orphanComments := fun s => by
  have hsame : (orphanComments.run s).2 = (leadingComments.run s).2 := by
    rw [orphanComments, run_bind_eq rfl]
    cases (leadingComments.run s).1 <;> rfl
  rw [hsame]
  exact keeps_leadingComments s

theorem IsDone.stays {s s' : TokenStream} (h : IsDone s) (hstays : s.Stays s') : IsDone s' := by
  rw [IsDone, hstays.exhausted, hstays.current]
  exact h

/-- **A file is read up to the end of the input.** -/
theorem finishes_sourceFile : Finishes sourceFile := by
  refine .bind fun p => .bind fun _ => .bind fun leading => .bind fun package => ?_
  cases package with
  | none => exact fun _ (h : false = true) => Bool.noConfusion h
  | some package =>
    refine .bind fun _ => .bind fun imports => .bind fun _ => fun s _ => ?_
    have hdone : IsDone (declarations.run s).2 := isDone_repeatUpTo s.rounds s
    exact hdone.stays (keeps_orphanComments _)

end Gsx.Parse

namespace Gsx

open Lexer Parse

/-- **The route of a file**: from the start of its source on, along items that
account for its declarations. Where nothing was found wrong it has no fault, and
leads to the end of the input. -/
theorem SourceFile.exists_route {name source : String} {r : Reading}
    (h : SourceFile.read name source = .ok r) :
    ∃ is m, Route (Lexer.ofSource name source) is m ∧ (∀ f ∈ r.file, AccountsFile is f)
      ∧ (r.diagnostics = [] →
        .fault ∉ is ∧ r.file.isSome ∧ (m.token 0).kind = .endOfInput) := by
  obtain ⟨hfile, hdiagnostics⟩ := eq_of_read h
  obtain ⟨is, m, harrives, -, haccounts, hnone⟩ := tours_sourceFile (Lexer.ofSource name source)
    (.ofSource name source) (TokenStream.Follows.ofSource name source).arrives
  refine ⟨is, m, harrives.route, hfile ▸ haccounts, fun hclean => ?_⟩
  have hexhausted := (reading_ends name source).2.1
  have hfault : .fault ∉ is := fun hin => by
    rcases harrives.troubled hin with hbound | herror
    · rw [hexhausted] at hbound
      cases hbound
    · rw [hclean] at hdiagnostics
      exact herror (List.subset_nil.1 hdiagnostics)
  have hsome : (sourceFile.run (.ofSource name source)).1.isSome :=
    Option.isSome_iff_ne_none.2 fun heq => hfault (hnone heq)
  refine ⟨hfault, hfile ▸ hsome, ?_⟩
  rw [← harrives.follows.current]
  refine (finishes_sourceFile _ hsome).resolve_left ?_
  rw [hexhausted]
  exact nofun

end Gsx
