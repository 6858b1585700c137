import Gsx.Proofs.Grammar.Nesting
/-!
# Reading ends

The outer readers move on as well, so every loop of the grammar makes progress:
a round after which there is another one moves the current token to the right.
No source makes reading stop at one of its bounds, so the bounds do not matter.
-/

namespace Gsx.Parse

open TokenStream

variable {p : Token → Prop} {b : Nat}

/-! ## Package and imports -/

theorem forward_packageName : Forward b packageName := by
  refine .bind forward_kind fun k => ?_
  split
  · refine .bind forward_advance fun _ => .bind forward_current fun t => ?_
    split
    · exact .bind forward_advanceLine fun _ => .pure
    · exact .bind (keeps_report _).forward fun _ => .pure
  · exact .bind (keeps_report _).forward fun _ => .pure

/-- Whether a token may start the name of an import. -/
def NamesImport (t : Token) : Prop :=
  t.kind = .identifier ∨ t.kind = .underscore ∨ t.kind = .dot

theorem forward_importName : Forward b importName := by
  refine .bind forward_current fun t => ?_
  split
  · exact .bind forward_advance fun _ => .pure
  · exact .pure

theorem forward_importEntry : Forward b importEntry := by
  refine .bind forward_position fun place => .bind forward_importName fun _ =>
    .bind forward_current fun t => ?_
  split
  · exact .bind forward_advance fun _ => .bind (keeps_trailingComment _).forward fun _ => .pure
  · exact .bind (keeps_report _).forward fun _ => .pure

theorem consumes_importName (hp : ∀ t, p t → NamesImport t) : Consumes p b importName := by
  refine .current fun t ht => ?_
  have hname := hp t ht
  have hthere : IsThere t := by
    rcases hname with h | h | h <;> exact isThere_of_eq h nofun
  have hadvance : Consumes (· = t) b advance := consumes_advance (by rintro _ rfl; exact hthere)
  rw [if_pos (by simpa [NamesImport, or_assoc] using hname)]
  exact hadvance.bind fun _ _ _ => .pure

theorem gives_importName (hp : ∀ t, p t → ¬ NamesImport t) : Gives p importName "" := by
  refine .current fun t ht => ?_
  have hname := hp t ht
  rw [if_neg (by simpa [NamesImport, or_assoc] using hname)]
  exact .pure

/-- A token that makes no sense in a group of imports is left for the group to
skip. -/
theorem gives_importEntry (hp : ∀ t, p t → ¬ NamesImport t ∧ t.kind ≠ .string) :
    Gives p importEntry none := by
  refine .position fun t ht => ?_
  obtain ⟨hname, hstring⟩ := hp t ht
  refine (gives_importName (by rintro _ rfl; exact hname)).andThen (.current ?_)
  rintro _ rfl
  rw [if_neg hstring]
  exact (keeps_report _).gives.andThen .pure

theorem consumes_importEntry (hp : ∀ t, p t → NamesImport t ∨ t.kind = .string) :
    Consumes p b importEntry := by
  refine .position fun t ht => ?_
  by_cases hname : NamesImport t
  · have himport : Consumes (· = t) b importName :=
      consumes_importName (by rintro _ rfl; exact hname)
    refine himport.bind fun _ _ _ => .bind forward_current fun t' => ?_
    split
    · exact .bind forward_advance fun _ => .bind (keeps_trailingComment _).forward fun _ => .pure
    · exact .bind (keeps_report _).forward fun _ => .pure
  · have hstring := (hp t ht).resolve_left hname
    have himport : Gives (· = t) importName "" := gives_importName (by rintro _ rfl; exact hname)
    refine himport.bind (.current fun t' ht' => ?_)
    subst ht'
    have hadvance : Consumes (· = t') b advance :=
      consumes_advance (by rintro _ rfl; exact isThere_of_eq hstring nofun)
    rw [if_pos hstring]
    exact hadvance.bind fun _ _ _ => .bind (keeps_trailingComment _).forward fun _ => .pure

/-- **Each round in a group of imports reads a token**: an import, or a token
that is skipped. -/
theorem moves_groupRound : Moves (fun _ => True) b groupRound fun r => r.again := by
  refine .kind fun t _ => ?_
  split
  · exact .done nofun
  · next hgo =>
    have hthere : IsThere t := fun hend => hgo (by rw [hend]; rfl)
    by_cases hentry : NamesImport t ∨ t.kind = .string
    · have himport : Consumes (· = t) b importEntry :=
        consumes_importEntry (by rintro _ rfl; exact hentry)
      refine himport.bind fun entry _ _ => ?_
      cases entry with
      | some entry => exact .bind forward_skipNewlines fun _ => .pure
      | none => exact .bind forward_advanceLine fun _ => .pure
    · have himport : Gives (· = t) importEntry none :=
        gives_importEntry (by rintro _ rfl; exact not_or.1 hentry)
      have hadvance : Consumes (· = t) b advanceLine :=
        consumes_advanceLine (by rintro _ rfl; exact hthere)
      exact himport.bind (hadvance.bind fun _ _ _ => .pure)

theorem moves_importRound : Moves (fun _ => True) b importRound fun r => r.again := by
  refine .kind fun t _ => ?_
  split
  · next hkind =>
    have hadvance : Consumes (· = t) b advanceLine :=
      consumes_advanceLine (by rintro _ rfl; exact isThere_of_eq hkind nofun)
    refine hadvance.bind fun _ _ _ => .bind forward_kind fun k => ?_
    split
    · exact .bind forward_advanceLine fun _ => .bind (forward_repeated moves_groupRound) fun _ =>
        .bind (forward_expect _) fun _ => .bind forward_skipNewlines fun _ => .pure
    · exact .bind forward_importEntry fun _ => .bind forward_skipNewlines fun _ => .pure
  · exact .done nofun

theorem forward_imports : Forward b imports :=
  forward_repeated moves_importRound

/-! ## Components and functions -/

theorem forward_param : Forward b param := by
  refine .bind forward_current fun t => ?_
  split
  · refine .bind forward_advance fun _ => .bind forward_goType fun type => ?_
    split <;> exact .pure
  · exact .bind (keeps_report _).forward fun _ => .pure

/-- Another parameter follows only behind a comma. -/
theorem moves_paramRound : Moves (fun _ => True) b paramRound fun r => r.again := by
  refine .kind fun t _ => ?_
  split
  · exact .done nofun
  · refine .bind forward_param fun _ => .kind fun t' _ => ?_
    split
    · next hcomma =>
      have hadvance : Consumes (· = t') b advanceLine :=
        consumes_advanceLine (by rintro _ rfl; exact isThere_of_eq hcomma nofun)
      exact hadvance.bind fun _ _ _ => .pure
    · exact .done nofun

theorem forward_params : Forward b params := by
  refine .bind (forward_expect _) fun opened => ?_
  split
  · refine .bind (forward_repeated moves_paramRound) fun _ =>
      .bind (forward_expect _) fun closed => ?_
    split <;> exact .pure
  · exact .pure

/-- The depth that a source gets is deep enough. -/
theorem forward_componentBlock (name : String) (ps : List Param) (place : Position) :
    Forward b (componentBlock name ps place) := by
  refine .get fun s => .bind ((reaches _ _).block ?_) fun inner => ?_
  · have hle : min b s.remaining ≤ s.lexer.source.length :=
      (min_le_right _ _).trans (Nat.sub_le _ _)
    rw [depth]
    omega
  · cases inner with
    | some inner => exact .pure
    | none => exact .pure

theorem consumes_component (hp : ∀ t, p t → IsThere t) : Consumes p b component := by
  refine .position fun t ht => ?_
  have hadvance : Consumes (· = t) b advance := consumes_advance (by rintro _ rfl; exact hp _ ht)
  refine hadvance.bind fun _ _ _ => .bind forward_current fun name => ?_
  split
  · refine .bind forward_advance fun _ => .bind forward_params fun ps => ?_
    cases ps with
    | some ps => exact .bind forward_skipNewlines fun _ => forward_componentBlock _ _ _
    | none => exact .pure
  · exact .bind (keeps_report _).forward fun _ => .pure

theorem forward_resultName : Forward b resultName := by
  refine .bind forward_current fun t => ?_
  split
  · exact .bind forward_advance fun _ => .pure
  · exact .pure

theorem consumes_funcDeclaration (hp : ∀ t, p t → IsThere t) : Consumes p b funcDeclaration := by
  refine .current fun f hf => ?_
  have hadvance : Consumes (· = f) b advance := consumes_advance (by rintro _ rfl; exact hp _ hf)
  refine hadvance.bind fun _ _ _ => .bind forward_current fun t => ?_
  split
  · exact .bind (forward_goFunc _ _) fun _ => .pure
  · split
    · refine .bind forward_advance fun _ => .bind forward_params fun ps => ?_
      cases ps with
      | none => exact .pure
      | some ps =>
        refine .bind forward_skipNewlines fun _ => .bind forward_resultName fun result =>
          .bind forward_skipNewlines fun _ => ?_
        split
        · exact .bind (forward_componentBlock _ _ _) fun _ => .pure
        · exact .bind (forward_goFunc _ _) fun _ => .pure
    · exact .bind (keeps_report _).forward fun _ => .pure

/-! ## Declarations -/

theorem isThere_of_isRestart {t : Token} (h : t.isRestart) : IsThere t := by
  intro hend
  rw [Token.isRestart, Token.isDeclWord, hend] at h
  exact absurd h nofun

theorem kind_of_isDeclWord {t : Token} (h : t.isDeclWord) : t.kind = .identifier := by
  rw [Token.isDeclWord, Bool.and_eq_true, beq_iff_eq] at h
  exact h.1

/-- Where reading can start over, a declaration reads a token. -/
theorem consumes_declaration (hp : ∀ t, p t → t.isRestart) : Consumes p b declaration := by
  refine .current fun t ht => ?_
  have hrestart := hp t ht
  have hof : ∀ t', t' = t → IsThere t' := by
    rintro _ rfl
    exact isThere_of_isRestart hrestart
  split
  · exact (consumes_component hof).bind fun _ _ _ => .pure
  · exact consumes_funcDeclaration hof
  · next hcomponent hfunc =>
    have hword : t.isDeclWord := by
      rw [Token.isRestart, Bool.or_eq_true, Bool.or_eq_true, beq_iff_eq, beq_iff_eq] at hrestart
      rcases hrestart with (h | h) | h
      · exact (hfunc h).elim
      · exact (hcomponent h).elim
      · exact h
    have hdecl : Consumes (· = t) b goDecl :=
      consumes_goDecl (by rintro _ rfl; exact kind_of_isDeclWord hword)
    rw [if_pos hword]
    exact hdecl.bind fun _ _ _ => .pure

/-- Elsewhere it reads none. -/
theorem gives_declaration (hp : ∀ t, p t → ¬ t.isRestart) : Gives p declaration none := by
  refine .current fun t ht => ?_
  have hrestart := hp t ht
  split
  · next h => exact absurd (by simp [Token.isRestart, h]) hrestart
  · next h => exact absurd (by simp [Token.isRestart, h]) hrestart
  · have hword : ¬ t.isDeclWord := fun h => hrestart (by simp [Token.isRestart, h])
    rw [if_neg hword]
    exact (keeps_report _).gives.andThen .pure

theorem forward_recover : Forward b recover :=
  .bind forward_current fun _ => .bind (forward_skipWhile _) fun _ =>
    Keeps.forward fun _ => ⟨rfl, rfl, rfl, rfl, rfl, fun _ => .inl⟩

/-- Recovery skips the token that stands in the way. -/
theorem consumes_recover (hp : ∀ t, p t → IsThere t ∧ ¬ t.isRestart) : Consumes p b recover := by
  refine .current fun t ht => ?_
  have hskip : Consumes (· = t) b (skipWhile (!·.isRestart)) := by
    refine consumes_scan ?_
    rintro _ rfl
    refine ⟨(hp _ ht).1, ?_⟩
    simp [(hp _ ht).2]
  exact hskip.bind fun _ _ _ => Keeps.forward fun _ => ⟨rfl, rfl, rfl, rfl, rfl, fun _ => .inl⟩

/-- **Each round of declarations reads a token**: a declaration from its first
token on, or what stands in the way of the next one. -/
theorem moves_declarationRound : Moves (fun _ => True) b declarationRound fun r => r.again := by
  refine .bind forward_skipNewlines fun _ => .kind fun t _ => ?_
  split
  · exact .done nofun
  · next hthere =>
    refine keeps_leadingComments.bind fun _ => ?_
    -- a declaration that starts here reads its first word; if none does, recovery skips
    by_cases hrestart : t.isRestart
    · have hdeclaration : Consumes (· = t) b declaration :=
        consumes_declaration (by rintro _ rfl; exact hrestart)
      refine hdeclaration.bind fun d _ _ => ?_
      cases d with
      | some d => exact .pure
      | none => exact .bind forward_recover fun _ => .pure
    · have hdeclaration : Gives (· = t) declaration none :=
        gives_declaration (by rintro _ rfl; exact hrestart)
      have hrecover : Consumes (· = t) b recover :=
        consumes_recover (by rintro _ rfl; exact ⟨hthere, hrestart⟩)
      exact hdeclaration.bind (hrecover.bind fun _ _ _ => .pure)

theorem forward_declarations : Forward b declarations :=
  forward_repeated moves_declarationRound

/-- **Reading a file moves on.** -/
theorem forward_sourceFile : Forward b sourceFile := by
  refine .bind forward_position fun place => .bind forward_skipNewlines fun _ =>
    .bind keeps_leadingComments.forward fun _ => .bind forward_packageName fun package => ?_
  cases package with
  | none => exact .pure
  | some package =>
    exact .bind forward_skipNewlines fun _ => .bind forward_imports fun _ =>
      .bind forward_skipNewlines fun _ => .bind forward_declarations fun _ =>
        .bind forward_orphanComments fun _ => .bind forward_get fun _ => .pure

/-! ## Loops -/

/-- **One round of a loop** on a stream: whether another round follows, and the
stream after it. Scans are the loops that pass over line ends, text and captured
Go, and over what stands in the way of the next declaration. The nodes of bodies
and of element content are read by readers that are deep enough for what is left. -/
inductive LoopRound : TokenStream → Bool → TokenStream → Prop
  | scan {σ : Type} (step : σ → Token → Option σ) (a : σ) (s : TokenStream) :
      LoopRound s ((scanRound step a).run s).1.isSome ((scanRound step a).run s).2
  | attributes (s : TokenStream) :
      LoopRound s (attributeRound.run s).1.again (attributeRound.run s).2
  | group (s : TokenStream) : LoopRound s (groupRound.run s).1.again (groupRound.run s).2
  | imports (s : TokenStream) : LoopRound s (importRound.run s).1.again (importRound.run s).2
  | params (s : TokenStream) : LoopRound s (paramRound.run s).1.again (paramRound.run s).2
  | body {depth : Nat} (s : TokenStream) (h : 4 * s.remaining + 3 ≤ depth) :
      LoopRound s ((bodyRound Token.endsBody (bodyNode depth)).run s).1.again
        ((bodyRound Token.endsBody (bodyNode depth)).run s).2
  | content {depth : Nat} (s : TokenStream) (h : 4 * s.remaining + 3 ≤ depth) :
      LoopRound s ((bodyRound Token.endsContent (contentNode depth)).run s).1.again
        ((bodyRound Token.endsContent (contentNode depth)).run s).2
  | declarations (s : TokenStream) :
      LoopRound s (declarationRound.run s).1.again (declarationRound.run s).2

variable {s s' : TokenStream} {again : Bool}

theorem LoopRound.spec (hr : LoopRound s again s') (hs : s.InOrder) :
    s.Path s' ∧ (again → s.current.start < s'.current.start) := by
  cases hr with
  | scan step a => exact moves_scanRound step a s hs le_rfl trivial
  | attributes => exact moves_attributeRound s hs le_rfl trivial
  | group => exact moves_groupRound s hs le_rfl trivial
  | imports => exact moves_importRound s hs le_rfl trivial
  | params => exact moves_paramRound s hs le_rfl trivial
  | body _ h =>
    exact moves_bodyRound endsBody_of_end ((reaches _ _).bodyNode h) s hs le_rfl trivial
  | content _ h =>
    exact moves_bodyRound endsContent_of_end ((reaches _ _).contentNode h) s hs le_rfl trivial
  | declarations => exact moves_declarationRound s hs le_rfl trivial

/-- At the end of the input no loop goes on. -/
theorem LoopRound.isThere (hr : LoopRound s true s') (hs : s.InOrder) : IsThere s.current := by
  intro hend
  obtain ⟨hpath, hlt⟩ := hr.spec hs
  have hlast := (hpath.inOrder hs).current_le_length
  rw [hpath.source_eq hs, ← hs.current_end hend] at hlast
  exact absurd (hlt rfl) (Nat.not_lt.2 hlast)

/-- **Reading ends on every source.** From its start to its end reading is a path
of moves, along which the current token never goes back, and none of its bounds
is reached. Wherever such a path may lead, a loop goes on only if its round has
moved the current token to the right, so not at the end of the input, and
reading between braces leaves the opening one behind. What interrupts a reading
is a numeral that is too long, and nothing else. -/
theorem reading_ends (name source : String) :
    (ofSource name source).Path (sourceFile.run (.ofSource name source)).2
    ∧ (sourceFile.run (.ofSource name source)).2.exhausted = false
    ∧ (∀ s, (ofSource name source).Path s →
        (∀ s', s.Path s' → s.current.start ≤ s'.current.start)
        ∧ (∀ again s', LoopRound s again s' → s.Path s' ∧
            (again → s.current.start < s'.current.start ∧ s.current.kind ≠ .endOfInput))
        ∧ (s.current.kind = .leftBrace →
            s.current.start < (bracedText.run s).2.current.start))
    ∧ (∀ i, SourceFile.read name source = .error i →
        ∃ n, Numeral.maxDigits < n ∧ i.cause = .tooManyDigits n) := by
  have hstart := inOrder_ofSource name source
  have hpath : (ofSource name source).Path (sourceFile.run (.ofSource name source)).2 :=
    (forward_sourceFile _ hstart le_rfl trivial).1
  refine ⟨hpath, hpath.exhausted_eq, fun s hreach => ?_, fun i hi => ?_⟩
  · have hs := hreach.inOrder hstart
    refine ⟨fun s' hp => hp.start_le hs, fun again s' hround => ?_, fun hbrace => ?_⟩
    · obtain ⟨hp, hlt⟩ := hround.spec hs
      refine ⟨hp, fun hagain => ⟨hlt hagain, ?_⟩⟩
      subst hagain
      exact hround.isThere hs
    · have hread : Consumes (·.kind = .leftBrace) s.remaining bracedText :=
        consumes_bracedText fun t ht => isThere_of_eq ht nofun
      exact (hread s hs le_rfl hbrace).2 trivial
  -- only an interruption makes a reading fail
  · have hinterruption : (sourceFile.run (.ofSource name source)).2.interruption = some i := by
      rw [SourceFile.read] at hi
      rcases hrun : sourceFile.run (.ofSource name source) with ⟨file, s⟩
      simp only [hrun] at hi
      cases hj : s.interruption with
      | none =>
        rw [hj] at hi
        cases hi
      | some j =>
        rw [hj] at hi
        cases hi
        rfl
    exact (hpath.interruption i hinterruption).resolve_left nofun

end Gsx.Parse
