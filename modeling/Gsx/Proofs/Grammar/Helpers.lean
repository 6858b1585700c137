import Gsx.Proofs.Grammar.Functions
/-!
# Helper functions in a source

A Go function that reading comes to between declarations, and that is captured
whole, becomes one function of the file, with its text from `func` to the brace that
closes its body. Nothing is found wrong with it, and reading goes on behind it with
all that it held in front of it but the comments before the function.
-/

namespace Gsx

open TokenStream Lexer

namespace Parse

variable {l : Lexer} {n k : Nat} {s : TokenStream}

theorem follows_leadingComments (h : s.Follows l) : (leadingComments.run s).2.Follows l := by
  rw [run_leadingComments]
  exact h.of_eq rfl rfl rfl rfl

theorem kind_of_isHelper (h : l.IsHelper n) : (l.token 0).kind = .funcWord := by
  cases h <;> assumption

/-- The function that tokens up to a closing brace are read as. -/
def helperOf (l : Lexer) (n : Nat) (leading : Option CommentGroup) : GoFunc :=
  ⟨String.ofList (l.slice (l.token 0).start ((l.token n).start + 1)), (l.token 0).position, leading⟩

/-- The stream behind the tokens of a function and the line ends that follow: but for
the comments before the function, only its place is another. -/
def behindHelper (n k : Nat) (s : TokenStream) : TokenStream :=
  (leadingComments.run s).2.advancedBy (n + 1 + k)

theorem passes_declaration (hin : l.cursor.IsIn l.source) (h : l.IsHelper n)
    (hk : LineEnds (after (n + 1) l) k) :
    Passes l (n + 1 + k) declaration (some (.func (helperOf l n none))) := by
  refine Passes.current.stay ?_
  rw [kind_of_isHelper h]
  exact .funcDeclaration hin h hk

/-- **A round of declarations** over a function. -/
theorem run_declarationRound_helper (hs : s.Follows l) (h : l.IsHelper n)
    (hk : LineEnds (after (n + 1) l) k) : declarationRound.run s
      = (Round.more [.func (helperOf l n (leadingComments.run s).1)], behindHelper n k s) := by
  have hkind : s.current.kind = .funcWord := by rw [hs.current, kind_of_isHelper h]
  have hskip : skipNewlines.run s = ((), s) := skipNewlines_eq (by rw [hkind]; decide)
  have hkinds : kind.run s = (.funcWord, s) := congrArg (·, s) hkind
  have hthere : TokenKind.funcWord ≠ .endOfInput := by decide
  have hrun := passes_declaration hs.isIn h hk _ (follows_leadingComments hs)
  rw [declarationRound, run_bind_eq rfl, hskip, run_bind_eq (congrArg Prod.fst hkinds), hkinds,
    if_neg hthere, run_bind_eq rfl, run_bind_eq (congrArg Prod.fst hrun), hrun]
  rfl

/-- More rounds than are needed change nothing. -/
theorem repeatUpTo_declarationRound_le {fuel fuel' : Nat} (hle : fuel ≤ fuel')
    (h : ((repeatUpTo declarationRound fuel).run s).2.exhausted = false) :
    (repeatUpTo declarationRound fuel').run s = (repeatUpTo declarationRound fuel).run s := by
  induction fuel generalizing s fuel' with
  | zero => cases h
  | succ fuel ih =>
    obtain ⟨fuel', rfl⟩ : ∃ n, fuel' = n + 1 := ⟨fuel' - 1, by omega⟩
    by_cases hend : (skipNewlines.run s).2.current.kind = .endOfInput
    · have hlast : (declarationRound.run s).1.again = false := by
        rw [declarationRound_last hend]
        rfl
      rw [repeatUpTo_last fuel hlast, repeatUpTo_last fuel' hlast]
    · have hagain := again_declarationRound hend
      rw [repeatUpTo_again fuel hagain] at h
      rw [repeatUpTo_again fuel hagain, repeatUpTo_again fuel' hagain,
        ih (Nat.le_of_succ_le_succ hle) h]

/-! ## The first rounds of a source -/

/-- Fewer rounds are the first of more. -/
theorem mem_roundsOf {α : Type} {round : Parse (Round α)} {m n : Nat} (hle : m ≤ n) {r : Round α}
    (h : r ∈ ((roundsOf round m).run s).1) : r ∈ ((roundsOf round n).run s).1 := by
  induction m generalizing n s with
  | zero => cases h
  | succ m ih =>
    obtain ⟨n, rfl⟩ : ∃ k, n = k + 1 := ⟨n - 1, by omega⟩
    rw [run_roundsOf_succ] at h ⊢
    exact List.mem_cons.2 ((List.mem_cons.1 h).imp_right (ih (Nat.le_of_succ_le_succ hle)))

/-- A source is not read in as many rounds as are allowed. -/
theorem lt_of_again {m : Nat} {name source : String}
    (hname : (packageName.run (atPackage (ofSource name source))).1.isSome)
    (hagain : ∀ r ∈ firstRounds m (ofSource name source), r.again = true) :
    m < source.toList.length + 1 := by
  refine Nat.lt_of_not_le fun hle => ?_
  have hall := fun r hr => hagain r (mem_roundsOf hle hr)
  have hexhausted := exhausted_declarations hname
  rw [declarations, run_repeated, rounds_atDeclarations, ← Nat.add_zero (source.toList.length + 1),
    repeatUpTo_roundsOf 0 hall] at hexhausted
  cases hexhausted

variable {m : Nat} {name source : String}

/-- **The declarations of a source with a function among them**: those in front of it,
the function, and those that are read from the stream behind it. -/
theorem run_declarations_helper
    (hname : (packageName.run (atPackage (ofSource name source))).1.isSome)
    (hagain : ∀ r ∈ firstRounds m (ofSource name source), r.again = true)
    (hs : (behindRounds m (ofSource name source)).Follows l) (h : l.IsHelper n)
    (hk : LineEnds (after (n + 1) l) k) :
    let s := behindRounds m (ofSource name source)
    declarations.run (atDeclarations (ofSource name source))
      = ((firstRounds m (ofSource name source)).flatMap Round.items
          ++ .func (helperOf l n (leadingComments.run s).1)
            :: (declarations.run (behindHelper n k s)).1,
        (declarations.run (behindHelper n k s)).2) := by
  intro s
  obtain ⟨fuel, hfuel⟩ : ∃ fuel, m + (fuel + 1) = source.toList.length + 1 :=
    ⟨source.toList.length - m, by have := lt_of_again hname hagain; omega⟩
  have hkind : s.current.kind ≠ .newline := by
    rw [hs.current, kind_of_isHelper h]
    exact nofun
  have hround := run_declarationRound_helper hs h hk
  have hmore : (declarationRound.run s).1.again = true := by rw [hround]; rfl
  have hrun := run_declarations_eq hfuel hagain hkind
  have hexhausted := exhausted_declarations hname
  rw [hrun, repeatUpTo_again fuel hmore, hround] at hexhausted
  have hrounds : fuel ≤ (behindHelper n k s).rounds := by
    have hsource := (leads_behindRounds m (ofSource name source)).source_eq (lined_ofSource _ _)
    have hfollows := (follows_leadingComments hs).advancedBy (n + 1 + k)
    have hsame : (behindHelper n k s).lexer.source = source.toList := by
      rw [behindHelper, hfollows.source, (isIn_after hs.isIn _).1, ← hs.source, hsource,
        source_ofSource]
    rw [rounds, hsame]
    omega
  rw [hrun, repeatUpTo_again fuel hmore, hround, declarations, run_repeated,
    repeatUpTo_declarationRound_le hrounds hexhausted]
  rfl

end Parse

open Parse in
/-- **Helper functions pass through.** Wherever in a source reading comes to a Go
function between declarations, and the function is captured whole: the file has it
among its functions, with its text from `func` to the brace that closes its body. The
declarations in front of it stay, and all else is what is read from the stream
behind the function, which holds what it held in front of it. -/
theorem SourceFile.passes_helper {name source : String} {f : SourceFile} {notes : List Diagnostic}
    {restarts : List Recovery} (hread : SourceFile.read name source = .ok ⟨some f, notes, restarts⟩)
    {l : Lexer} {m n : Nat} (hagain : ∀ r ∈ firstRounds m (ofSource name source), r.again = true)
    (hs : (behindRounds m (ofSource name source)).Follows l) (h : l.IsHelper n) :
    ∃ k, LineEnds (after (n + 1) l) k ∧
      let s := behindRounds m (ofSource name source)
      let t := (leadingComments.run s).2.advancedBy (n + 1 + k)
      let earlier := (firstRounds m (ofSource name source)).flatMap Round.items
      let later := (declarations.run t).1
      let function : GoFunc :=
        ⟨String.ofList (l.slice (l.token 0).start ((l.token n).start + 1)), (l.token 0).position,
          (leadingComments.run s).1⟩
      f.components = earlier.filterMap Declaration.component?
          ++ later.filterMap Declaration.component?
        ∧ f.funcs = earlier.filterMap Declaration.func?
          ++ function :: later.filterMap Declaration.func?
        ∧ f.decls = earlier.filterMap Declaration.decl? ++ later.filterMap Declaration.decl?
        ∧ t.diagnostics = s.diagnostics
        ∧ notes = (behindDeclarations t).diagnostics
          ++ (behindDeclarations t).lexer.diagnostics := by
  obtain ⟨package, hname⟩ := packageName_of_read hread
  obtain ⟨file, hrun, -, hcomponents, hfuncs, hdecls⟩ := sourceFile_of_some hname
  obtain ⟨k, hk⟩ := exists_lineEnds (hs.advancedBy (n + 1))
  have hdeclarations := run_declarations_helper (by rw [hname]; rfl) hagain hs h hk
  simp only at hdeclarations
  rw [read_eq, hrun] at hread
  obtain ⟨hfile, hnotes, -⟩ := of_told hread
  cases Option.some.inj hfile
  rw [hdeclarations] at hcomponents hfuncs hdecls
  rw [behindDeclarations, hdeclarations] at hnotes
  refine ⟨k, hk, ?_, ?_, ?_, ?_, hnotes⟩
  · rw [hcomponents, List.filterMap_append]
    rfl
  · rw [hfuncs, List.filterMap_append]
    rfl
  · rw [hdecls, List.filterMap_append]
    rfl
  · rw [(advancedBy_notes _ _).2.1, run_leadingComments]
    rfl

/-! A function in front of a component. -/

/-- The source. -/
def greeting : String :=
  "package x\nfunc Greet(s T) T \x7b\n\treturn s\n\x7d\n@component A() \x7b\n\x7d\n"

namespace Parse

/-- The lexer in front of the function. -/
def atGreet : Lexer := after 3 (.ofSource "" greeting)

theorem follows_atGreet : (behindRounds 0 (ofSource "" greeting)).Follows atGreet :=
  .of_after (by decide +kernel)

theorem isHelper_atGreet : atGreet.IsHelper 12 := by
  have hbody : (after 6 atGreet).HasBody 1 6 := by decide +kernel
  refine .function (m := 2) (n := 6) (by decide +kernel) (by decide +kernel) (by decide +kernel)
    (by decide +kernel) ?_ hbody
  rintro ⟨n, hlines, -, helement⟩
  have hfirst : ((after 6 atGreet).token 0).kind ≠ .newline
      ∧ ((after 6 atGreet).token 0).literal ≠ "Element" := by decide +kernel
  cases n with
  | zero => exact hfirst.2 helement
  | succ n => exact hfirst.1 (hlines 0 n.succ_pos)

end Parse

open Parse in
/-- The function is among the functions of the file, and its text is the whole of it. -/
theorem SourceFile.passes_helper_greeting :
    ∃ f, SourceFile.read "" greeting = .ok ⟨some f, [], []⟩
      ∧ (behindRounds 0 (ofSource "" greeting)).Follows atGreet ∧ atGreet.IsHelper 12
      ∧ f.components.map (·.name) = ["A"]
      ∧ ∃ g later, f.funcs = g :: later
        ∧ g.code = "func Greet(s T) T \x7b\n\treturn s\n\x7d" := by
  obtain ⟨f, hread, hnames⟩ : ∃ f, SourceFile.read "" greeting = .ok ⟨some f, [], []⟩
      ∧ f.components.map (·.name) = ["A"] := ⟨_, rfl, rfl⟩
  obtain ⟨k, -, -, hfuncs, -⟩ :=
    passes_helper hread (m := 0) nofun follows_atGreet isHelper_atGreet
  exact ⟨f, hread, follows_atGreet, isHelper_atGreet, hnames, _, _, hfuncs, by decide +kernel⟩

end Gsx
