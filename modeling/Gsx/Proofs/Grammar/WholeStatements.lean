import Gsx.Proofs.Grammar.Components
import Gsx.Proofs.Grammar.Functions
import Gsx.Proofs.Grammar.Rounds
/-!
# Statements in a body

A line of a body that starts a Go statement gives one node with the whole of its
text, up to the first line end outside brackets, unless a semicolon outside
brackets cuts it short. The semicolons in the header of a `for` do not, up to its
first brace (`SourceFile.takes_statement`). No other word has a header: an `if`
with a statement in front of its condition is cut in two. The nodes in front of
the statement are those of the rounds before, and those behind it are what the
rest of the body gives.
-/

namespace Gsx

open TokenStream Lexer

/-! ## Bodies -/

namespace Body

theorem nodes_push (p : Part) (b : Body) :
    (push p b).nodes = (push p (onlyComments [])).nodes ++ b.nodes := by
  obtain ⟨leading, node⟩ := p
  cases node <;> cases leading <;> rfl

/-- The nodes of a body are those of its first parts and then those of the others. -/
theorem nodes_ofParts_append (ps qs : List Part) (orphans : List CommentGroup) :
    (ofParts (ps ++ qs) orphans).nodes = (ofParts ps []).nodes ++ (ofParts qs orphans).nodes := by
  induction ps with
  | nil => rfl
  | cons p ps ih =>
    change (push p (ofParts (ps ++ qs) orphans)).nodes = (push p (ofParts ps [])).nodes ++ _
    rw [nodes_push, ih, nodes_push p (ofParts ps []), List.append_assoc]

end Body

namespace Parse

variable {α : Type} {b m n d : Nat} {s : TokenStream} {l : Lexer}

/-- One round of a body between braces. -/
abbrev statementRound (d : Nat) : Parse (Round Body.Part) :=
  bodyRound Token.endsBody (bodyNode d)

theorem nodes_body (d : Nat) (s : TokenStream) :
    ((body (d + 1)).run s).1.nodes
      = (Body.ofParts ((repeated (statementRound d)).run s).1 []).nodes := by
  have hnodes (parts : List Body.Part) (orphans : List CommentGroup) :
      (Body.ofParts parts orphans).nodes = (Body.ofParts parts []).nodes := by
    have happend := Body.nodes_ofParts_append parts [] orphans
    rw [List.append_nil] at happend
    exact happend.trans (List.append_nil _)
  rw [body, nodes, run_bind_eq rfl, run_bind_eq rfl]
  exact hnodes _ _

/-- The rounds of a body move on, if it is deep enough. -/
theorem moves_statementRound (hd : 4 * b + 3 ≤ d) :
    Moves (fun _ => True) b (statementRound d) fun r => r.again :=
  moves_bodyRound endsBody_of_end ((reaches _ _).bodyNode hd)

/-- **A body goes on** behind some rounds that say so as it would have begun there. -/
theorem nodes_body_roundsOf (hs : s.InOrder) (hd : 4 * s.remaining + 3 ≤ d)
    (hagain : ∀ r ∈ ((roundsOf (statementRound d) m).run s).1, r.again = true) :
    ((body (d + 1)).run s).1.nodes
      = (Body.ofParts (((roundsOf (statementRound d) m).run s).1.flatMap Round.items) []).nodes
        ++ ((body (d + 1)).run ((roundsOf (statementRound d) m).run s).2).1.nodes := by
  rw [nodes_body, nodes_body, run_repeated_roundsOf (moves_statementRound hd) hs le_rfl hagain,
    Body.nodes_ofParts_append]

/-- And behind one. -/
theorem nodes_body_again (hs : s.InOrder) (hd : 4 * s.remaining + 3 ≤ d)
    (hagain : ((statementRound d).run s).1.again = true) :
    ((body (d + 1)).run s).1.nodes
      = (Body.ofParts ((statementRound d).run s).1.items []).nodes
        ++ ((body (d + 1)).run ((statementRound d).run s).2).1.nodes := by
  rw [nodes_body, nodes_body, run_repeated_again (moves_statementRound hd) hs le_rfl hagain,
    Body.nodes_ofParts_append]

/-! ## The round of a statement -/

/-- The statement that starts at the first token and ends in front of another. -/
def statementTo (l : Lexer) (n : Nat) (leading : Option CommentGroup) : GoCode :=
  ⟨Text.trim (String.ofList (l.slice (l.token 0).start (l.token n).start)), (l.token 0).position,
    leading⟩

/-- **A statement is captured** up to the token that ends it, which is passed. -/
theorem Passes.goStatement (hin : l.cursor.IsIn l.source) (h : StopsAt l l.EndsStatement n)
    (hthere : (l.token n).kind ≠ .endOfInput) :
    Passes l (n + 1) goStatement (statementTo l n none) := by
  have hnext : (after n l).token 0 = l.token n := by rw [token_after, Nat.add_zero]
  have hslice : (after n l).slice = l.slice := by
    funext start stop
    exact slice_after hin n start stop
  refine Passes.current.stay ((scan (statementState l) (fun _ => statementStep_of_endsStatement)
    (fun _ => statementStep_of_not_endsStatement) h).bind (current.stay ?_))
  rw [hnext, if_neg hthere, statementTo, ← hslice]
  exact (trimmedText _ _).stay (advance.bind (n := 0) (.pure _))

theorem run_bodyNode_of_startsStatement (h : s.current.kind.startsStatement = true) :
    (bodyNode (d + 1)).run s
      = (some (.goCode (goStatement.run s).1), (goStatement.run s).2) := by
  have hkinds : kind.run s = (s.current.kind, s) := rfl
  rw [bodyNode, run_bind_eq (congrArg Prod.fst hkinds), hkinds]
  dsimp only
  cases hkind : s.current.kind
  case identifier | ifWord | forWord | funcWord | returnWord => rfl
  all_goals
    rw [hkind] at h
    exact absurd h (by decide)

/-- **A round of a body** over a statement. -/
theorem run_statementRound (hs : (skipNewlines.run s).2.Follows l)
    (hstart : (l.token 0).kind.startsStatement) (hgoes : (l.token 0).endsBody = false)
    (h : StopsAt l l.EndsStatement n) (hthere : (l.token n).kind ≠ .endOfInput) :
    let t := leadingComments.run (skipNewlines.run s).2
    (statementRound (d + 1)).run s
      = (Round.more [⟨t.1, some (.goCode (statementTo l n none))⟩], t.2.advancedBy (n + 1)) := by
  intro t
  have hkept : t.2.Follows l := by
    simp only [t, run_leadingComments]
    exact hs.of_eq rfl rfl rfl rfl
  have hends : (skipNewlines.run s).2.current.endsBody = false := by rw [hs.current, hgoes]
  have hrun : goStatement.run t.2 = (statementTo l n none, t.2.advancedBy (n + 1)) :=
    Passes.goStatement hs.isIn h hthere _ hkept
  have hnode : (bodyNode (d + 1)).run t.2
      = (some (.goCode (statementTo l n none)), t.2.advancedBy (n + 1)) := by
    rw [run_bodyNode_of_startsStatement (by rw [hkept.current, hstart]), hrun]
  rw [statementRound, bodyRound, run_bind_eq rfl, run_bind_eq rfl]
  change ((ite ((skipNewlines.run s).2.current.endsBody = true) _ _ : Parse (Round Body.Part)).run
    (skipNewlines.run s).2) = _
  rw [hends, if_neg Bool.false_ne_true, run_bind_eq rfl, run_bind_eq (congrArg Prod.fst hnode),
    hnode]
  rfl

end Parse

/-! ## Lines that are statements -/

namespace Lexer

variable {l : Lexer} {n : Nat}

/-- **A line that starts a statement of a body**, up to the first line end outside
brackets: the brackets in front of it are balanced. -/
structure StatementLine (l : Lexer) (n : Nat) : Prop where
  starts : (l.token 0).kind.startsStatement = true
  inside : ∀ i < n, (l.token i).kind ≠ .endOfInput
    ∧ ((l.token i).kind = .newline → l.bracketDepth i ≠ 0)
  ends : (l.token n).kind = .newline
  balanced : l.bracketDepth n = 0

instance (l : Lexer) (n : Nat) : Decidable (l.StatementLine n) :=
  decidable_of_iff ((l.token 0).kind.startsStatement = true
    ∧ (∀ i < n, (l.token i).kind ≠ .endOfInput
      ∧ ((l.token i).kind = .newline → l.bracketDepth i ≠ 0))
    ∧ (l.token n).kind = .newline ∧ l.bracketDepth n = 0)
    ⟨fun h => ⟨h.1, h.2.1, h.2.2.1, h.2.2.2⟩, fun h => ⟨h.1, h.2, h.3, h.4⟩⟩

/-- A semicolon outside brackets. -/
def IsSeparator (l : Lexer) (i : Nat) : Prop :=
  (l.token i).kind = .semicolon ∧ l.bracketDepth i = 0

instance (l : Lexer) : DecidablePred l.IsSeparator :=
  fun _ => inferInstanceAs (Decidable (_ ∧ _))

/-- **The only semicolons outside brackets are those of the header of a `for`**, in
front of its first brace. -/
def OnlyHeads (l : Lexer) (n : Nat) : Prop :=
  ∀ i < n, l.IsSeparator i → l.inHeader i = true

instance (l : Lexer) : DecidablePred l.OnlyHeads :=
  fun n => inferInstanceAs (Decidable (∀ i < n, _))

/-- **Up to the first semicolon outside brackets**, or to the end of the line. -/
structure UpToSeparator (l : Lexer) (n k : Nat) : Prop where
  before : ∀ i < k, ¬ l.IsSeparator i
  reaches : k = n ∨ l.IsSeparator k

/-- A statement that no `for` starts has no header. -/
theorem inHeader_eq_false (h : (l.token 0).kind ≠ .forWord) (i : Nat) : l.inHeader i = false := by
  induction i with
  | zero => exact beq_false_of_ne h
  | succ i ih => rw [inHeader, ih, Bool.false_and]

/-- **Where the statement of a line ends**: at the end of the line, or at a semicolon
outside brackets and headers. -/
theorem StatementLine.exists_stopsAt (h : l.StatementLine n) :
    ∃ k ≤ n, Parse.StopsAt l l.EndsStatement k ∧ (l.token k).kind ≠ .endOfInput
      ∧ (l.OnlyHeads n → k = n) ∧ ((l.token 0).kind ≠ .forWord → l.UpToSeparator n k) := by
  obtain ⟨k, hk, hstops, hend⟩ := Parse.exists_stopsAt_le l.EndsStatement
    ⟨h.balanced, .inl h.ends⟩ fun i hi => (h.inside i hi).1
  have hends : k = n ∨ l.IsSeparator k ∧ l.inHeader k = false := by
    refine hk.eq_or_lt.imp_right fun hlt => ?_
    rcases hend.2 with hkind | ⟨hkind, hheader⟩
    · exact absurd hend.1 ((h.inside k hlt).2 hkind)
    · exact ⟨⟨hkind, hend.1⟩, hheader⟩
  refine ⟨k, hk, hstops, ?_, fun honly => hends.resolve_right ?_, fun hword => ⟨fun i hi hcut => ?_,
    hends.imp_right And.left⟩⟩
  · rcases hend.2 with hkind | ⟨hkind, -⟩ <;> rw [hkind] <;> exact nofun
  · rintro ⟨hcut, hheader⟩
    have hlt : k < n := hk.lt_of_ne fun heq => by
      rw [heq] at hcut
      exact absurd (h.ends.symm.trans hcut.1) nofun
    rw [honly k hlt hcut] at hheader
    cases hheader
  · exact (hstops.goes i hi).2 ⟨hcut.2, .inr ⟨hcut.1, inHeader_eq_false hword i⟩⟩

end Lexer

namespace Parse

variable {b m n d : Nat} {s : TokenStream} {l : Lexer}

/-- The stream behind some rounds of a body and the line ends that follow. -/
def behindNodes (d m : Nat) (s : TokenStream) : TokenStream :=
  (skipNewlines.run ((roundsOf (statementRound d) m).run s).2).2

theorem current_orphanComments (s : TokenStream) :
    (orphanComments.run s).2.current = s.current := by
  have hcurrent : (leadingComments.run s).2.current = s.current := by
    rw [run_leadingComments]
    rfl
  rw [orphanComments, run_bind_eq rfl]
  cases (leadingComments.run s).1 <;> exact hcurrent

/-- In a body that ends at its brace no line of a statement ends it: not even one in
the first column, where `func` declares a function. -/
theorem endsBody_eq_false (hs : s.InOrder) (hd : 4 * s.remaining + 3 ≤ d)
    (hagain : ∀ r ∈ ((roundsOf (statementRound d) m).run s).1, r.again = true)
    (hfollows : (behindNodes d m s).Follows l) (hstart : (l.token 0).kind.startsStatement)
    (hcloses : ((body (d + 1)).run s).2.current.kind = .rightBrace) :
    (l.token 0).endsBody = false := by
  by_contra hends
  rw [Bool.not_eq_false] at hends
  have hlast : (statementRound d).run ((roundsOf (statementRound d) m).run s).2
      = (Round.last [], behindNodes d m s) := by
    rw [statementRound, bodyRound, run_bind_eq rfl]
    change ((ite ((behindNodes d m s).current.endsBody = true) _ _ : Parse (Round Body.Part)).run
      (behindNodes d m s)) = _
    rw [hfollows.current, if_pos hends]
    rfl
  have hrun : ((body (d + 1)).run s).2 = (orphanComments.run (behindNodes d m s)).2 := by
    rw [body, nodes, run_bind_eq rfl, run_bind_eq rfl,
      run_repeated_roundsOf (moves_statementRound hd) hs le_rfl hagain, run_repeated_last hlast]
    rfl
  rw [hrun, current_orphanComments, hfollows.current] at hcloses
  rw [hcloses] at hstart
  exact absurd hstart (by decide)

/-- **A statement among the nodes of a body.** -/
theorem nodes_body_statement (hs : s.InOrder) (hd : 4 * s.remaining + 3 ≤ d)
    (hagain : ∀ r ∈ ((roundsOf (statementRound d) m).run s).1, r.again = true)
    (hfollows : (behindNodes d m s).Follows l) (h : l.StatementLine n)
    (hcloses : ((body (d + 1)).run s).2.current.kind = .rightBrace) :
    let t := leadingComments.run (behindNodes d m s)
    ∃ k ≤ n, (l.OnlyHeads n → k = n) ∧ ((l.token 0).kind ≠ .forWord → l.UpToSeparator n k)
      ∧ ((body (d + 1)).run s).1.nodes
        = (Body.ofParts (((roundsOf (statementRound d) m).run s).1.flatMap Round.items) []).nodes
          ++ .goCode (statementTo l k t.1)
            :: ((body (d + 1)).run (t.2.advancedBy (k + 1))).1.nodes := by
  intro t
  obtain ⟨k, hk, hstops, hthere, hwhole, hcut⟩ := h.exists_stopsAt
  have hstays := endsBody_eq_false hs hd hagain hfollows h.starts hcloses
  refine ⟨k, hk, hwhole, hcut, ?_⟩
  obtain ⟨d, rfl⟩ : ∃ d', d = d' + 1 := ⟨d - 1, by omega⟩
  obtain ⟨horder, hle⟩ := inOrder_roundsOf (m := m) (moves_statementRound hd) hs le_rfl
  have hround := run_statementRound (d := d) hfollows h.starts hstays hstops hthere
  rw [nodes_body_roundsOf hs hd hagain,
    nodes_body_again horder (by omega) (by rw [hround]; rfl), hround]
  refine congrArg _ ?_
  change (Body.push ⟨t.1, some (.goCode (statementTo l k none))⟩
    (Body.onlyComments [])).nodes ++ _ = _
  cases t.1 <;> rfl

end Parse

open Parse in
/-- **Statements are taken whole.** A component of a file is read somewhere in its
source, and its nodes behind the brace of its block. Wherever between two of them
reading comes to a line that starts a statement, and the brackets up to the end of
the line are balanced: one node is the statement. Its code is the text up to the end
of the line, if no semicolon outside brackets stands there but those of the header of
a `for`, in front of its first brace. If it does not start with `for`, its code is the
text up to the first semicolon outside brackets, if there is one. The nodes before it
are those that have been read, and the nodes behind it are read behind the token that
ends it. -/
theorem SourceFile.takes_statement {name source : String} {r : Reading}
    (hread : SourceFile.read name source = .ok r) {f : SourceFile} (hfile : r.file = some f)
    {c : Component} (hc : c ∈ f.components) :
    (∃ s t, FollowsIn source s ∧ IsReadFrom s t c)
      ∧ ∀ s t, FollowsIn source s → IsReadFrom s t c → ∀ m l n,
        let rounds := (roundsOf (statementRound (nodeDepth t)) m).run (insideBrace t)
        let u := leadingComments.run (behindNodes (nodeDepth t) m (insideBrace t))
        (∀ r ∈ rounds.1, r.again = true) → (behindNodes (nodeDepth t) m (insideBrace t)).Follows l →
        l.StatementLine n →
        ∃ k ≤ n, (l.OnlyHeads n → k = n) ∧ ((l.token 0).kind ≠ .forWord → l.UpToSeparator n k)
          ∧ c.body = (Body.ofParts (rounds.1.flatMap Round.items) []).nodes
            ++ .goCode ⟨Text.trim (String.ofList (l.slice (l.token 0).start (l.token k).start)),
                (l.token 0).position, u.1⟩
              :: ((body (nodeDepth t + 1)).run (u.2.advancedBy (k + 1))).1.nodes := by
  refine ⟨exists_isReadFrom hread hfile hc, fun s t hs hfrom m l n => ?_⟩
  intro rounds u hagain hfollows hline
  obtain ⟨⟨lt, hsource, ht⟩, lb, hsource', hb⟩ := hfrom.stream (I := capturedStatements source) hs
  have hd : 4 * (insideBrace t).remaining + 3 ≤ nodeDepth t := by
    rw [remaining, nodeDepth, hb.source, ht.source, hsource, hsource']
    omega
  obtain ⟨k, hk, hwhole, hcut, hnodes⟩ := nodes_body_statement hb.inOrder hd hagain hfollows hline
    hfrom.closes
  exact ⟨k, hk, hwhole, hcut, hfrom.body.trans hnodes⟩

/-! Two components, with a loop and with a branch. -/

/-- A loop with a header. -/
def countingLoop : String :=
  "package x\n\n@component A() \x7b\n\tfor i := 0; i < 3; i++ \x7b\x7d\n\x7d\n"

/-- Its component. -/
def counting : Component :=
  ⟨"A", [], [.goCode ⟨"for i := 0; i < 3; i++ \x7b\x7d", ⟨4, 2⟩, none⟩], false, ⟨3, 1⟩, none,
    none, []⟩

/-- A branch with a statement in front of its condition. -/
def initialisedBranch : String :=
  "package x\n\n@component A() \x7b\n\tif x := f(); x \x7b\n\t\tg()\n\t\x7d\n\x7d\n"

/-- Its component. -/
def branching : Component :=
  ⟨"A", [], [.goCode ⟨"if x := f()", ⟨4, 2⟩, none⟩,
    .goCode ⟨"x \x7b\n\t\tg()\n\t\x7d", ⟨4, 15⟩, none⟩],
    false, ⟨3, 1⟩, none, none, []⟩

namespace Parse

/-- The lexer in front of the statement of such a component. -/
def behindBrace (source : String) : Lexer := after 10 (.ofSource "" source)

theorem isReadFrom_counting :
    IsReadFrom (behindClause countingLoop) (behindHead countingLoop) counting :=
  isReadFrom_component rfl rfl

theorem isReadFrom_branching :
    IsReadFrom (behindClause initialisedBranch) (behindHead initialisedBranch) branching :=
  isReadFrom_component rfl rfl

/-- The lexer in front of the loop. -/
def atLoop : Lexer := behindBrace countingLoop

theorem follows_atLoop : (behindNodes (nodeDepth (behindHead countingLoop)) 0
    (insideBrace (behindHead countingLoop))).Follows atLoop :=
  .of_after (by decide +kernel)

theorem statementLine_atLoop : atLoop.StatementLine 14 := by
  decide +kernel

/-- The lexer in front of the branch. -/
def atBranch : Lexer := behindBrace initialisedBranch

theorem follows_atBranch : (behindNodes (nodeDepth (behindHead initialisedBranch)) 0
    (insideBrace (behindHead initialisedBranch))).Follows atBranch :=
  .of_after (by decide +kernel)

theorem statementLine_atBranch : atBranch.StatementLine 15 := by
  decide +kernel

end Parse

open Parse in
/-- The loop is a statement of the component, with its header and its braces. -/
theorem SourceFile.takes_statement_countingLoop :
    ∃ f, SourceFile.read "" countingLoop = .ok ⟨some f, [], []⟩ ∧ counting ∈ f.components
      ∧ atLoop.StatementLine 14 ∧ atLoop.OnlyHeads 14
      ∧ ∃ g later, counting.body = .goCode g :: later
        ∧ g.code = "for i := 0; i < 3; i++ \x7b\x7d" := by
  obtain ⟨f, hread, hcomponents⟩ : ∃ f, SourceFile.read "" countingLoop = .ok ⟨some f, [], []⟩
      ∧ f.components = [counting] := ⟨_, rfl, rfl⟩
  have hmem : counting ∈ f.components := hcomponents ▸ List.mem_singleton_self _
  have honly : atLoop.OnlyHeads 14 := by decide +kernel
  obtain ⟨-, htakes⟩ := takes_statement hread rfl hmem
  obtain ⟨k, -, hwhole, -, hbody⟩ := htakes _ _ (followsIn_behindClause _) isReadFrom_counting
    0 _ _ nofun
    follows_atLoop statementLine_atLoop
  obtain rfl := hwhole honly
  exact ⟨f, hread, hmem, statementLine_atLoop, honly, _, _, hbody, by decide +kernel⟩

open Parse in
/-- **A branch is not taken whole**: its only semicolon outside brackets is that of
its header, its text can be lexed on its own, and no node of the component has that
text. -/
theorem SourceFile.splits_initialisedBranch :
    ∃ f, SourceFile.read "" initialisedBranch = .ok ⟨some f, [], []⟩ ∧ f.components = [branching]
      ∧ (FollowsIn initialisedBranch (behindClause initialisedBranch)
        ∧ IsReadFrom (behindClause initialisedBranch) (behindHead initialisedBranch) branching
        ∧ (behindNodes (nodeDepth (behindHead initialisedBranch)) 0
          (insideBrace (behindHead initialisedBranch))).Follows atBranch)
      ∧ (atBranch.StatementLine 15 ∧ (atBranch.token 0).kind = .ifWord
        ∧ ∀ i < 15, atBranch.IsSeparator i → ∀ j ≤ i, (atBranch.token j).kind ≠ .leftBrace)
      ∧ let text := "if x := f(); x \x7b\n\t\tg()\n\t\x7d"
        text.toList = atBranch.slice (atBranch.token 0).start (atBranch.token 15).start
          ∧ (Lexer.ofSource "" text).tokenize.2.diagnostics = []
          ∧ ∀ node ∈ branching.body, ∀ g, node = .goCode g → g.code ≠ text := by
  refine ⟨_, rfl, rfl, ⟨followsIn_behindClause _, isReadFrom_branching, follows_atBranch⟩,
    ⟨statementLine_atBranch, by decide +kernel, by decide +kernel⟩, by decide +kernel,
    by decide +kernel, ?_⟩
  simp [branching]

end Gsx
