import Gsx.Proofs.Grammar.Crossing
import Gsx.Proofs.Grammar.Statements
/-!
# Where the components of a file come from

Every component of a file has been read at some place of its source: its name
stands behind the word that declares it, its parameters are what the list behind
the name gives, and its nodes are those of the body behind the brace that opens
its block (`SourceFile.exists_isReadFrom`).
-/

namespace Gsx

open TokenStream Lexer

namespace Parse

variable {I : Invariant} {s : TokenStream} {c : Component}

/-! ## Blocks -/

/-- The stream behind a brace, the comment on its line and the line ends. -/
def insideBrace (s : TokenStream) : TokenStream :=
  (skipNewlines.run ((trailingComment s.current.position.line).run s.advanced).2).2

/-- A brace that is found stands there. -/
theorem kind_of_expectLine {want : TokenKind} (h : ((expectLine want).run s).1 = true) :
    s.current.kind = want := by
  by_contra hne
  have hexpect := run_expect_of_ne hne
  rw [expectLine, run_bind_eq (congrArg Prod.fst hexpect), hexpect, if_neg Bool.false_ne_true] at h
  cases h

/-- A block that is read starts with its brace, its body is read behind it, and then
comes the other brace. -/
theorem body_of_block {d : Nat} {b : Block} (h : ((block (d + 1)).run s).1 = some b) :
    s.current.kind = .leftBrace ∧ b.body = ((body d).run (insideBrace s)).1
      ∧ ((body d).run (insideBrace s)).2.current.kind = .rightBrace := by
  have hposition : (position.run s).2 = s := rfl
  rw [block, run_bind_eq rfl, hposition] at h
  by_cases hkind : s.current.kind = .leftBrace
  · refine ⟨hkind, ?_⟩
    rw [run_bind_eq rfl, run_expect hkind, if_pos rfl, run_bind_eq rfl, run_bind_eq rfl,
      run_bind_eq rfl, run_bind_eq rfl] at h
    split at h
    · next hcloses =>
      cases h
      exact ⟨rfl, kind_of_expectLine hcloses⟩
    · cases h
  · rw [run_bind_eq rfl, run_expect_of_ne hkind, if_neg Bool.false_ne_true] at h
    cases h

/-- The depth that is left for the nodes of a component. -/
def nodeDepth (s : TokenStream) : Nat :=
  4 * s.lexer.source.length + 6

/-- The parts of a component that is read. -/
theorem component_of_block {name : String} {ps : List Param} {p : Position}
    (h : ((componentBlock name ps p).run s).1 = some c) :
    c.name = name ∧ c.params = ps ∧ c.position = p ∧ s.current.kind = .leftBrace
      ∧ c.body = ((body (nodeDepth s + 1)).run (insideBrace s)).1.nodes
      ∧ ((body (nodeDepth s + 1)).run (insideBrace s)).2.current.kind = .rightBrace := by
  have hget : ((get : Parse TokenStream).run s) = (s, s) := rfl
  rw [componentBlock, run_bind_eq (congrArg Prod.fst hget), hget, run_bind_eq rfl] at h
  have hdepth : s.depth = nodeDepth s + 1 + 1 := by
    rw [depth, nodeDepth]
    omega
  cases hblock : ((block s.depth).run s).1 with
  | none =>
    rw [hblock] at h
    cases h
  | some b =>
    rw [hblock] at h
    cases h
    rw [hdepth] at hblock
    obtain ⟨hkind, hbody, hcloses⟩ := body_of_block hblock
    exact ⟨rfl, rfl, rfl, hkind, congrArg Body.nodes hbody, hcloses⟩

/-! ## Heads -/

/-- **A component as it is read** from a stream at the word that declares it:
its name and its parameters come next, and then the stream at its block, behind
the result if that is what makes a function a component. -/
structure IsReadFrom (s t : TokenStream) (c : Component) : Prop where
  word : s.current.kind = .atComponent ∨ s.current.kind = .funcWord
  position : c.position = s.current.position
  named : s.peek.kind = .identifier
  name : c.name = s.peek.literal
  params : (params.run (s.advancedBy 2)).1 = some c.params
  block : t = (skipNewlines.run (Parse.params.run (s.advancedBy 2)).2).2
    ∨ t = (skipNewlines.run (resultName.run
        (skipNewlines.run (Parse.params.run (s.advancedBy 2)).2).2).2).2
  brace : t.current.kind = .leftBrace
  body : c.body = ((Parse.body (nodeDepth t + 1)).run (insideBrace t)).1.nodes
  closes : ((Parse.body (nodeDepth t + 1)).run (insideBrace t)).2.current.kind = .rightBrace

theorem isReadFrom_component (hword : s.current.kind = .atComponent)
    (h : (component.run s).1 = some c) :
    IsReadFrom s (skipNewlines.run (params.run (s.advancedBy 2)).2).2 c := by
  change ((ite (s.peek.kind = .identifier) _ _ : Parse (Option Component)).run s.advanced).1
    = some c at h
  have hbehind : (advance.run s.advanced).2 = s.advancedBy 2 := rfl
  by_cases hname : s.peek.kind = .identifier
  · rw [if_pos hname] at h
    rw [run_bind_eq rfl, hbehind, run_bind_eq rfl] at h
    cases hparams : (params.run (s.advancedBy 2)).1 with
    | none =>
      rw [hparams] at h
      cases h
    | some ps =>
      rw [hparams] at h
      simp only at h
      rw [run_bind_eq rfl] at h
      obtain ⟨hc, hps, hp, hkind, hbody, hcloses⟩ := component_of_block h
      exact ⟨.inl hword, hp, hname, hc, hps ▸ hparams, .inl rfl, hkind, hbody, hcloses⟩
  · rw [if_neg hname] at h
    cases h

/-- A component that is given as a declaration. -/
theorem run_of_map_component {r : Parse (Option Component)}
    (h : ((do return (← r).map Declaration.component : Parse (Option Declaration)).run s).1
      = some (.component c)) : (r.run s).1 = some c := by
  change (r.run s).1.map Declaration.component = _ at h
  obtain ⟨c', hc', heq⟩ := Option.map_eq_some_iff.1 h
  cases heq
  exact hc'

/-- A function is no component. -/
theorem run_func_ne (r : Parse GoFunc) :
    ((do return some (Declaration.func (← r)) : Parse (Option Declaration)).run s).1
      ≠ some (.component c) := by
  change some (Declaration.func _) ≠ _
  exact nofun

theorem isReadFrom_funcDeclaration (hword : s.current.kind = .funcWord)
    (h : (funcDeclaration.run s).1 = some (.component c)) : ∃ t, IsReadFrom s t c := by
  change ((ite (s.peek.kind = .leftParen) _ (ite (s.peek.kind = .identifier) _ _) :
    Parse (Option Declaration)).run s.advanced).1 = _ at h
  have hbehind : (advance.run s.advanced).2 = s.advancedBy 2 := rfl
  by_cases hparen : s.peek.kind = .leftParen
  · rw [if_pos hparen] at h
    exact absurd h (run_func_ne _)
  by_cases hname : s.peek.kind = .identifier
  · rw [if_neg hparen, if_pos hname] at h
    rw [run_bind_eq rfl, hbehind, run_bind_eq rfl] at h
    cases hparams : (params.run (s.advancedBy 2)).1 with
    | none =>
      rw [hparams] at h
      cases h
    | some ps =>
      rw [hparams] at h
      simp only at h
      rw [run_bind_eq rfl, run_bind_eq rfl, run_bind_eq rfl] at h
      split at h
      · obtain ⟨hc, hps, hp, hkind, hbody, hcloses⟩ := component_of_block (run_of_map_component h)
        exact ⟨_, .inr hword, hp, hname, hc, hps ▸ hparams, .inr rfl, hkind, hbody, hcloses⟩
      · exact absurd h (run_func_ne _)
  · rw [if_neg hparen, if_neg hname] at h
    cases h

/-! ## Declarations -/

/-- A declaration that is a component is read from the stream in front of it. -/
theorem isReadFrom_declaration {d : Declaration} (h : (declaration.run s).1 = some d)
    (hc : d.component? = some c) : ∃ t, IsReadFrom s t c := by
  cases d with
  | component c' =>
    cases hc
    have hcurrent : current.run s = (s.current, s) := rfl
    rw [declaration, run_bind_eq (congrArg Prod.fst hcurrent), hcurrent] at h
    dsimp only at h
    split at h
    · next hkind => exact ⟨_, isReadFrom_component hkind (run_of_map_component h)⟩
    · next hkind => exact isReadFrom_funcDeclaration hkind h
    · split at h
      · change some (Declaration.decl _) = _ at h
        exact absurd h nofun
      · exact absurd h nofun
  | func f => cases hc
  | decl g => cases hc

/-- A component of a declaration is read from a stream of the invariant. -/
def IsReadIn (I : Invariant) (d : Declaration) : Prop :=
  ∀ c ∈ d.component?, ∃ s t, I.stream s ∧ IsReadFrom s t c

theorem IsReadIn.withLeading {d : Declaration} (h : IsReadIn I d) (g : Option CommentGroup) :
    IsReadIn I (d.withLeading g) := by
  cases d with
  | component c =>
    rintro c' hc'
    cases hc'
    obtain ⟨s, t, hs, h⟩ := h c rfl
    exact ⟨s, t, hs, h.word, h.position, h.named, h.name, h.params, h.block, h.brace, h.body,
      h.closes⟩
  | func f => exact nofun
  | decl f => exact nofun

theorem isReadIn_sourceFile : Sound I sourceFile fun r =>
    ∀ f ∈ r, ∀ c ∈ f.components, ∃ s t, I.stream s ∧ IsReadFrom s t c := by
  have hdeclaration : Sound I declaration fun r => ∀ d ∈ r, IsReadIn I d := fun s hs =>
    ⟨(Sound.declaration s hs).1, fun d hd c hc => by
      obtain ⟨t, ht⟩ := isReadFrom_declaration hd hc
      exact ⟨s, t, hs, ht⟩⟩
  refine (Sound.sourceFile_of (fun d g hd => hd.withLeading g) hdeclaration).mono
    fun r hr f hf c hc => ?_
  obtain ⟨d, hd, hdc⟩ := hr f hf c hc
  exact hd c hdc

/-- The streams at the block of a component and in it are of the invariant as well. -/
theorem IsReadFrom.stream {t : TokenStream} (h : IsReadFrom s t c) (hs : I.stream s) :
    I.stream t ∧ I.stream (insideBrace t) := by
  have hparams : I.stream (Parse.params.run (s.advancedBy 2)).2 :=
    (Sound.params _ (I.advanced (I.advanced hs))).1
  have ht : I.stream t := by
    rcases h.block with rfl | rfl
    · exact (Sound.skipNewlines _ hparams).1
    · exact (Sound.skipNewlines _ (Sound.resultName _ (Sound.skipNewlines _ hparams).1).1).1
  exact ⟨ht, (Sound.skipNewlines _ (Sound.trailingComment _ _ (I.advanced ht)).1).1⟩

end Parse

open Parse in
/-- **Every component of a file is read somewhere in its source.** -/
theorem SourceFile.exists_isReadFrom {name source : String} {r : Reading}
    (hread : SourceFile.read name source = .ok r) {f : SourceFile} (hfile : r.file = some f)
    {c : Component} (hc : c ∈ f.components) : ∃ s t, FollowsIn source s ∧ IsReadFrom s t c :=
  of_read hread (isReadIn_sourceFile (I := capturedStatements source))
    ⟨_, rfl, .ofSource name source⟩ f hfile c hc

/-! ## Sources with a component behind the package clause -/

namespace Parse

variable (source : String)

/-- The stream behind a package clause and two line ends. -/
def behindClause : TokenStream :=
  (TokenStream.ofSource "" source).advancedBy 4

/-- The stream at the block of the component there. -/
def behindHead : TokenStream :=
  (skipNewlines.run (params.run ((behindClause source).advancedBy 2)).2).2

theorem follows_behindClause : (behindClause source).Follows (after 4 (.ofSource "" source)) :=
  (Follows.ofSource "" source).advancedBy 4

theorem followsIn_behindClause : FollowsIn source (behindClause source) :=
  ⟨_, (isIn_after (.start _) 4).1, follows_behindClause source⟩

end Parse

end Gsx
