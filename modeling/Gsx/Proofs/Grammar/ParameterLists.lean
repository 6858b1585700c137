import Gsx.Proofs.Grammar.Components
import Gsx.Proofs.Grammar.Functions
import Gsx.Proofs.Grammar.Rounds
/-!
# Parameter lists that are read without complaint

The entries of a parameter list are separated by commas outside brackets; a comma
may follow the last one. If nothing is found wrong with a list, each entry starts
with its name, and what follows the name is its type. An entry without a type gives
no parameter, and nothing is said about it: so a list in which several names share
a type loses all but the last of them (`SourceFile.parameters_of_read`).
-/

namespace Gsx

open TokenStream Lexer

/-! ## Entries -/

namespace Lexer

/-- An entry of a list: from its first token up to the one behind it. -/
structure Entry where
  start : Nat
  stop : Nat
  deriving DecidableEq, Repr

variable {l : Lexer} {m n k : Nat} {es : List Entry}

/-- **An entry of a parameter list** starts with a name and goes up to the first comma
or closing parenthesis outside brackets. -/
structure IsEntry (l : Lexer) (e : Entry) : Prop where
  named : (l.token e.start).kind = .identifier
  start_lt : e.start < e.stop
  inside : ∀ i, e.start ≤ i → i < e.stop → ¬ Parse.EndsType l i
  ends : Parse.EndsType l e.stop

/-- **The entries of a parameter list** from a token up to the closing parenthesis.
Line ends may stand behind a comma. -/
inductive Entries (l : Lexer) : Nat → Nat → List Entry → Prop
  | close {m : Nat} (closes : (l.token m).kind = .rightParen) : Entries l m m []
  | last {m n : Nat} (entry : l.IsEntry ⟨m, n⟩) (closes : (l.token n).kind = .rightParen) :
      Entries l m n [⟨m, n⟩]
  | more {m k j n : Nat} {es : List Entry} (entry : l.IsEntry ⟨m, k⟩)
      (comma : (l.token k).kind = .comma) (lines : Parse.LineEnds (after (k + 1) l) j)
      (rest : Entries l (k + 1 + j) n es) : Entries l m n (⟨m, k⟩ :: es)

/-- What an entry says: a name, and the text behind it without blank ends. -/
def parameter (l : Lexer) (e : Entry) : Param :=
  ⟨(l.token e.start).literal,
    Text.trim (String.ofList (l.slice (l.token (e.start + 1)).start (l.token e.stop).start)),
    (l.token e.start).position⟩

/-- **The parameters of a list**: those of the entries that have a type. -/
def parameters (l : Lexer) (es : List Entry) : List Param :=
  (es.map l.parameter).filter fun p => p.type ≠ ""

theorem IsEntry.stop_unique {k' : Nat} (h : l.IsEntry ⟨m, k⟩) (h' : l.IsEntry ⟨m, k'⟩) : k = k' :=
  Nat.le_antisymm (Nat.le_of_not_lt fun hlt => h.inside k' h'.start_lt.le hlt h'.ends)
    (Nat.le_of_not_lt fun hlt => h'.inside k h.start_lt.le hlt h.ends)

/-- **A list has its entries in one way only.** -/
theorem Entries.unique {n' : Nat} {es' : List Entry} (h : l.Entries m n es)
    (h' : l.Entries m n' es') : n = n' ∧ es = es' := by
  induction h generalizing es' with
  | close closes =>
    cases h' with
    | close => exact ⟨rfl, rfl⟩
    | last entry => exact absurd (entry.named.symm.trans closes) nofun
    | more entry => exact absurd (entry.named.symm.trans closes) nofun
  | last entry closes =>
    cases h' with
    | close closes' => exact absurd (entry.named.symm.trans closes') nofun
    | last entry' =>
      obtain rfl := entry.stop_unique entry'
      exact ⟨rfl, rfl⟩
    | more entry' comma =>
      obtain rfl := entry.stop_unique entry'
      exact absurd (comma.symm.trans closes) nofun
  | more entry comma lines _ ih =>
    cases h' with
    | close closes' => exact absurd (entry.named.symm.trans closes') nofun
    | last entry' closes' =>
      obtain rfl := entry.stop_unique entry'
      exact absurd (comma.symm.trans closes') nofun
    | more entry' _ lines' rest' =>
      obtain rfl := entry.stop_unique entry'
      obtain rfl := lines.unique lines'
      obtain ⟨rfl, rfl⟩ := ih rest'
      exact ⟨rfl, rfl⟩

/-- No entry is lost exactly if each of them has a type. -/
theorem length_parameters (l : Lexer) (es : List Entry) :
    (l.parameters es).length = es.length ↔ ∀ e ∈ es, (l.parameter e).type ≠ "" := by
  have hlength : (es.map l.parameter).length = es.length := List.length_map _
  rw [parameters, ← hlength, List.length_filter_eq_length_iff, List.forall_mem_map]
  simp only [decide_eq_true_eq]

end Lexer

/-! ## What is reported stays -/

namespace Parse

variable {s t : TokenStream} {l : Lexer} {m n : Nat}

/-- **Errors are not taken back**: that there are so many of them is an invariant of
reading. -/
def reported (n : Nat) : Invariant where
  stream s := n ≤ s.diagnostics.length
  value _ _ := True
  statement _ _ := True
  noted hnote h := by
    obtain ⟨ds, hds, -⟩ := hnote.grammatical
    rw [hds, List.length_append]
    exact h.trans (Nat.le_add_right _ _)
  advanced h := h
  braces {s s' code} hb h := by
    obtain ⟨l, -, rfl⟩ := behindBraces_eq hb
    exact h
  converted {s} _ h := by
    rw [intValue]
    split <;> exact h
  quoted _ _ := trivial
  plain _ := trivial
  captured _ _ := trivial

/-- The errors of a round are still there behind a repetition that starts with it. -/
theorem length_diagnostics_repeated (hs : s.InOrder) :
    (paramRound.run s).2.diagnostics.length
      ≤ ((repeated paramRound).run s).2.diagnostics.length := by
  cases hagain : (paramRound.run s).1.again with
  | false => rw [run_repeated_of_not_again hagain]
  | true =>
    rw [run_repeated_again (moves_paramRound (b := s.remaining)) hs le_rfl hagain]
    exact (Sound.safeRepeated (I := reported _) Sound.paramRound _ le_rfl).1

/-! ## One entry -/

/-- **A type is captured** up to a comma or parenthesis outside brackets, or to the end
of the input. -/
theorem exists_run_goType (hs : s.Follows l) :
    ∃ n, StopsAt l (EndsType l) n ∧ (goType.run s).2 = s.advancedBy n
      ∧ (EndsType l n → (goType.run s).1
        = Text.trim (String.ofList (l.slice (l.token 0).start (l.token n).start))) := by
  obtain ⟨n, hstops, hrun⟩ := exists_stopsAt_scan l.bracketDepth (fun _ => typeStep_of_endsType)
    (fun _ => typeStep_of_not_endsType) hs
  refine ⟨n, hstops, ?_, fun hends => ?_⟩
  · change ((ite (((scan typeStep 0).run s).2.current.kind = .endOfInput) _ _ : Parse String).run
      ((scan typeStep 0).run s).2).2 = _
    have hscan : ((scan typeStep 0).run s).2 = s.advancedBy n := congrArg Prod.snd hrun
    rw [hscan]
    split <;> rfl
  · rw [Passes.goType hstops hends s hs, slice_after hs.isIn, token_after, Nat.add_zero]

/-- **A parameter is read**: a name, and a type up to where that ends. -/
theorem exists_run_param (hin : l.cursor.IsIn l.source) (hs : s.Follows (after m l))
    (hdepth : l.bracketDepth m = 0) (hname : (l.token m).kind = .identifier) :
    ∃ k, m < k ∧ (∀ i, m ≤ i → i < k → ¬ EndsType l i)
      ∧ ((l.token k).kind = .endOfInput ∨ EndsType l k)
      ∧ (param.run s).2 = s.advancedBy (k - m)
      ∧ (EndsType l k → (param.run s).1.toList = l.parameters [⟨m, k⟩]) := by
  have hcurrent : s.current = l.token m := by rw [hs.current, token_after, Nat.add_zero]
  have hnext : s.advanced.Follows (after (m + 1) l) := by
    rw [after_add]
    exact hs.advanced
  have hdepth' : l.bracketDepth (m + 1) = 0 := by
    rw [bracketDepth_succ (by rw [hname]; rfl), hdepth]
  obtain ⟨n, hstops, hplace, htext⟩ := exists_run_goType hnext
  have hrun : param.run s = (if (goType.run s.advanced).1 = "" then none
      else some ⟨(l.token m).literal, (goType.run s.advanced).1, (l.token m).position⟩,
        (goType.run s.advanced).2) := by
    rw [← hcurrent]
    change (ite (s.current.kind = .identifier) _ _ : Parse (Option Param)).run s = _
    rw [if_pos (by rw [hcurrent, hname])]
    change (ite ((goType.run s.advanced).1 = "") _ _ : Parse (Option Param)).run
      (goType.run s.advanced).2 = _
    split <;> rfl
  refine ⟨m + 1 + n, by omega, fun i hi hlt => ?_, ?_, ?_, fun hends => ?_⟩
  · rcases hi.eq_or_lt with rfl | hi
    · rintro ⟨hkind, -⟩
      rw [hname] at hkind
      exact hkind.elim nofun nofun
    · have hgoes := (hstops.goes (i - (m + 1)) (by omega)).2
      rwa [endsType_after hdepth', Nat.add_sub_cancel' hi] at hgoes
  · have hstop := hstops.stop
    rwa [endsType_after hdepth', token_after] at hstop
  · rw [hrun, show m + 1 + n - m = n + 1 by omega]
    exact hplace
  · have htype := htext ((endsType_after hdepth').2 hends)
    rw [slice_after hin, token_after, token_after, Nat.add_zero] at htype
    rw [hrun, htype, parameters, List.map_singleton, List.filter_singleton, parameter]
    split <;> simp_all

/-- **What one round does** in front of a token: it comes to the closing parenthesis,
or finds something wrong, or comes to the end of the input, or reads an entry, be it
the last one or one with a comma behind it. -/
inductive RoundResult (l : Lexer) (m : Nat) (s : TokenStream) : Prop
  | close (closes : (l.token m).kind = .rightParen) (run : paramRound.run s = (Round.last [], s))
  | wrong (grows : s.diagnostics.length < (paramRound.run s).2.diagnostics.length)
  | stuck (last : (paramRound.run s).1.again = false)
      (ended : (paramRound.run s).2.current.kind = .endOfInput)
  | last {k : Nat} (entry : l.IsEntry ⟨m, k⟩) (closes : (l.token k).kind = .rightParen)
      (run : paramRound.run s = (Round.last (l.parameters [⟨m, k⟩]), s.advancedBy (k - m)))
  | more {k j : Nat} (entry : l.IsEntry ⟨m, k⟩) (comma : (l.token k).kind = .comma)
      (lines : LineEnds (after (k + 1) l) j)
      (run : paramRound.run s
        = (Round.more (l.parameters [⟨m, k⟩]), s.advancedBy (k + 1 + j - m)))

/-- A round in front of neither the closing parenthesis nor the end of the input. -/
theorem run_paramRound (hopen : s.current.kind ≠ .rightParen)
    (hthere : s.current.kind ≠ .endOfInput) :
    paramRound.run s = if (param.run s).2.current.kind = .comma
      then (Round.more (param.run s).1.toList, (advanceLine.run (param.run s).2).2)
      else (Round.last (param.run s).1.toList, (param.run s).2) := by
  have hgo : ¬ (decide (s.current.kind = .rightParen)
      || decide (s.current.kind = .endOfInput)) = true := by
    simp [hopen, hthere]
  change (ite _ _ _ : Parse (Round Param)).run s = _
  rw [if_neg hgo]
  change (ite ((param.run s).2.current.kind = .comma) _ _ : Parse (Round Param)).run
    (param.run s).2 = _
  split <;> rfl

theorem roundResult (hin : l.cursor.IsIn l.source) (hs : s.Follows (after m l))
    (hdepth : l.bracketDepth m = 0) : RoundResult l m s := by
  have hcurrent : s.current = l.token m := by rw [hs.current, token_after, Nat.add_zero]
  by_cases hclose : (l.token m).kind = .rightParen
  · exact .close hclose (passes_paramRound_close (by rwa [token_after, Nat.add_zero]) s hs)
  by_cases hend : (l.token m).kind = .endOfInput
  · have hrun : paramRound.run s = (Round.last [], s) := by
      change (ite _ _ _ : Parse (Round Param)).run s = _
      rw [if_pos (by simp [hcurrent, hend])]
      rfl
    exact .stuck (by rw [hrun]; rfl) (by rw [hrun, hcurrent, hend])
  have hround := run_paramRound (hcurrent ▸ hclose) (hcurrent ▸ hend)
  by_cases hname : (l.token m).kind = .identifier
  · obtain ⟨k, hlt, hinside, hstop, hplace, hparameter⟩ := exists_run_param hin hs hdepth hname
    have hthere : (s.advancedBy (k - m)).Follows (after k l) := by
      have hfollows := hs.advancedBy (k - m)
      rwa [← after_add, Nat.add_sub_cancel' hlt.le] at hfollows
    have hkind : (param.run s).2.current = l.token k := by
      rw [hplace, hthere.current, token_after, Nat.add_zero]
    rw [hkind] at hround
    rcases hstop with hend | hends
    · rw [if_neg (by rw [hend]; exact nofun)] at hround
      exact .stuck (by rw [hround]; rfl) (by rw [hround, hkind, hend])
    · have hentry : l.IsEntry ⟨m, k⟩ := ⟨hname, hlt, hinside, hends⟩
      rw [hparameter hends] at hround
      rcases hends.1 with hcomma | hclose
      · rw [if_pos hcomma] at hround
        obtain ⟨j, hlines⟩ := exists_lineEnds hthere.advanced
        rw [← after_add] at hlines
        refine .more hentry hcomma hlines (hround.trans (congrArg _ ?_))
        rw [hplace, Passes.advanceLine (l := after k l) (by rwa [← after_add]) _ hthere,
          ← advancedBy_add, show k + 1 + j - m = k - m + (1 + j) by omega]
      · rw [if_neg (by rw [hclose]; exact nofun), hplace] at hround
        exact .last hentry hclose hround
  · refine .wrong ?_
    have hrun : param.run s = (none, s.withError s.current.position .expectedParameterName) := by
      change (ite (s.current.kind = .identifier) _ _ : Parse (Option Param)).run s = _
      rw [if_neg (hcurrent ▸ hname)]
      rfl
    have hgrows : s.diagnostics.length < (param.run s).2.diagnostics.length := by
      rw [hrun]
      exact List.length_append ▸ Nat.lt_succ_self _
    rw [hround]
    split
    · exact hgrows.trans_le ((Sound.advanceLine (I := reported _) _ le_rfl).1)
    · exact hgrows

/-! ## Lists -/

theorem parameters_cons (l : Lexer) (e : Entry) (es : List Entry) :
    l.parameters (e :: es) = l.parameters [e] ++ l.parameters es := by
  rw [parameters, parameters, parameters, ← List.filter_append, ← List.map_append]
  rfl

/-- **The entries from one of them on**, if nothing is found wrong with them: by
induction on how much there is left to read. -/
theorem exists_entries_of_repeated (hin : l.cursor.IsIn l.source) (hs : s.Follows (after m l))
    (hdepth : l.bracketDepth m = 0)
    (hquiet : ((repeated paramRound).run s).2.diagnostics.length ≤ s.diagnostics.length)
    (hclose : ((repeated paramRound).run s).2.current.kind = .rightParen) :
    ∃ n es, m ≤ n ∧ l.Entries m n es
      ∧ (repeated paramRound).run s = (l.parameters es, s.advancedBy (n - m)) := by
  induction hr : s.remaining using Nat.strong_induction_on generalizing s m with
  | _ r ih =>
    subst hr
    cases roundResult hin hs hdepth with
    | close closes run =>
      refine ⟨m, [], le_rfl, .close closes, ?_⟩
      rw [run_repeated_last run, Nat.sub_self]
      rfl
    | wrong grows =>
      exact absurd ((grows.trans_le (length_diagnostics_repeated hs.inOrder)).trans_le hquiet)
        (lt_irrefl _)
    | stuck last ended =>
      rw [run_repeated_of_not_again last, ended] at hclose
      cases hclose
    | @last k entry closes run =>
      exact ⟨k, [⟨m, k⟩], entry.start_lt.le, .last entry closes, run_repeated_last run⟩
    | @more k j entry comma lines run =>
      have hlt := entry.start_lt
      simp only at hlt
      have hagain : (paramRound.run s).1.again = true := by rw [run]; rfl
      have hgoes := run_repeated_more moves_paramRound hs.inOrder le_rfl run
      obtain ⟨hpath, hless⟩ := moves_paramRound s hs.inOrder le_rfl trivial
      have hremaining := (hpath.inOrder hs.inOrder).remaining_lt (hpath.source_eq hs.inOrder)
        (hless hagain)
      rw [run] at hremaining
      rw [hgoes] at hquiet hclose
      have hfollows := hs.advancedBy (k + 1 + j - m)
      rw [← after_add, show m + (k + 1 + j - m) = k + 1 + j by omega] at hfollows
      have hdepth' : l.bracketDepth (k + 1 + j) = 0 := by
        rw [lines.bracketDepth_eq, bracketDepth_succ (by rw [comma]; rfl), entry.ends.2]
      obtain ⟨n, es, hle, hentries, hrun⟩ := ih _ hremaining hfollows hdepth'
        (by rwa [(advancedBy_notes _ s).2.1]) hclose rfl
      refine ⟨n, ⟨m, k⟩ :: es, by omega, .more entry comma lines hentries, ?_⟩
      rw [hgoes, hrun, parameters_cons l ⟨m, k⟩ es, ← advancedBy_add,
        show k + 1 + j - m + (n - (k + 1 + j)) = n - m by omega]

/-- **A parameter list that is read without complaint**, with its parentheses. -/
theorem exists_entries_of_params (hs : s.Follows l) {ps : List Param}
    (hps : (params.run s).1 = some ps) (hquiet : (params.run s).2.diagnostics = s.diagnostics) :
    (l.token 0).kind = .leftParen ∧ ∃ n es, (after 1 l).Entries 0 n es
      ∧ ps = (after 1 l).parameters es ∧ (params.run s).2 = s.advancedBy (n + 2) := by
  rw [params] at hps hquiet ⊢
  by_cases hopen : s.current.kind = .leftParen
  · have hleft := run_expect hopen
    rw [run_bind_eq (congrArg Prod.fst hleft), hleft, if_pos rfl, run_bind_eq rfl] at hps hquiet ⊢
    by_cases hclose : ((repeated paramRound).run s.advanced).2.current.kind = .rightParen
    · have hright := run_expect hclose
      rw [run_bind_eq (congrArg Prod.fst hright), hright, if_pos rfl] at hps hquiet ⊢
      have hin : (after 1 l).cursor.IsIn (after 1 l).source := by
        obtain ⟨hsource, hin⟩ := isIn_after hs.isIn 1
        rwa [hsource]
      obtain ⟨n, es, -, hentries, hrun⟩ := exists_entries_of_repeated (m := 0) hin hs.advanced rfl
        (by
          change ((repeated paramRound).run s.advanced).2.diagnostics = _ at hquiet
          rw [hquiet]
          exact le_rfl) hclose
      cases hps
      refine ⟨hs.current ▸ hopen, n, es, hentries, congrArg Prod.fst hrun, ?_⟩
      rw [hrun, Nat.sub_zero, show n + 2 = 1 + (n + 1) by omega, advancedBy_add, advancedBy_add]
      rfl
    · have hright := run_expect_of_ne hclose
      rw [run_bind_eq (congrArg Prod.fst hright), if_neg Bool.false_ne_true] at hps
      cases hps
  · have hleft := run_expect_of_ne hopen
    rw [run_bind_eq (congrArg Prod.fst hleft), if_neg Bool.false_ne_true] at hps
    cases hps

end Parse

open Parse in
/-- **No parameter of a list is lost but those without a type.** A component of a file
is read somewhere in its source. If nothing is found wrong with the list behind its
name, this is a list of entries in parentheses, and its parameters are those of the
entries that have a type, with the name that the entry starts with. So there is one
for each entry exactly if no entry lacks its type. -/
theorem SourceFile.parameters_of_read {name source : String} {r : Reading}
    (hread : SourceFile.read name source = .ok r) {f : SourceFile} (hfile : r.file = some f)
    {c : Component} (hc : c ∈ f.components) :
    (∃ s t, FollowsIn source s ∧ IsReadFrom s t c)
      ∧ ∀ s t l, IsReadFrom s t c → s.Follows l →
        (params.run (s.advancedBy 2)).2.diagnostics = s.diagnostics →
        (l.token 2).kind = .leftParen ∧ ∃ n es, (after 3 l).Entries 0 n es
          ∧ c.params = (after 3 l).parameters es
          ∧ (c.params.length = es.length ↔ ∀ e ∈ es, ((after 3 l).parameter e).type ≠ "")
          ∧ (params.run (s.advancedBy 2)).2 = s.advancedBy (n + 4) := by
  refine ⟨exists_isReadFrom hread hfile hc, fun s t l hfrom hs hquiet => ?_⟩
  obtain ⟨hopen, n, es, hentries, hps, hplace⟩ := exists_entries_of_params (hs.advancedBy 2)
    hfrom.params (by rw [hquiet, (advancedBy_notes 2 s).2.1])
  rw [← after_add] at hentries hps
  rw [token_after] at hopen
  refine ⟨hopen, n, es, hentries, hps, by rw [hps]; exact length_parameters _ es, ?_⟩
  rw [hplace, ← advancedBy_add, Nat.add_comm 2]

/-! A list in which two names share a type. -/

/-- The source. -/
def sharedType : String :=
  "package x\n\n@component A(a, b T) \x7b\n\x7d\n"

/-- The component. -/
def sharing : Component :=
  ⟨"A", [⟨"b", "T", ⟨3, 17⟩⟩], [], false, ⟨3, 1⟩, none, none, []⟩

namespace Parse

/-- The lexer behind the parenthesis. -/
def atNames : Lexer := after 3 (after 4 (.ofSource "" sharedType))

theorem isReadFrom_sharing : IsReadFrom (behindClause sharedType) (behindHead sharedType) sharing :=
  isReadFrom_component rfl rfl

theorem entries_atNames : atNames.Entries 0 4 [⟨0, 1⟩, ⟨2, 4⟩] := by
  have hfirst : atNames.IsEntry ⟨0, 1⟩ :=
    ⟨by decide +kernel, by decide, by unfold EndsType; decide +kernel,
      by unfold EndsType; decide +kernel⟩
  have hsecond : atNames.IsEntry ⟨2, 4⟩ :=
    ⟨by decide +kernel, by decide, by unfold EndsType; decide +kernel,
      by unfold EndsType; decide +kernel⟩
  have hlines : LineEnds (after 2 atNames) 0 := ⟨nofun, .inr (by decide +kernel)⟩
  exact .more hfirst (by decide +kernel) hlines (.last hsecond (by decide +kernel))

end Parse

open Parse in
/-- The list has two entries and is read without complaint, and the component has one
parameter. -/
theorem SourceFile.parameters_of_read_sharedType :
    ∃ f, SourceFile.read "" sharedType = .ok ⟨some f, [], []⟩ ∧ sharing ∈ f.components
      ∧ (params.run ((behindClause sharedType).advancedBy 2)).2.diagnostics
        = (behindClause sharedType).diagnostics
      ∧ atNames.Entries 0 4 [⟨0, 1⟩, ⟨2, 4⟩] ∧ sharing.params = atNames.parameters [⟨0, 1⟩, ⟨2, 4⟩]
      ∧ ¬ ∀ e ∈ [(⟨0, 1⟩ : Entry), ⟨2, 4⟩], (atNames.parameter e).type ≠ "" := by
  obtain ⟨f, hread, hcomponents⟩ : ∃ f, SourceFile.read "" sharedType = .ok ⟨some f, [], []⟩
      ∧ f.components = [sharing] := ⟨_, rfl, rfl⟩
  have hmem : sharing ∈ f.components := hcomponents ▸ List.mem_singleton_self _
  have hquiet : (params.run ((behindClause sharedType).advancedBy 2)).2.diagnostics
      = (behindClause sharedType).diagnostics := by decide +kernel
  obtain ⟨-, hlist⟩ := parameters_of_read hread rfl hmem
  obtain ⟨-, n, es, hentries, hps, hcount, -⟩ := hlist _ _ _ isReadFrom_sharing
    (follows_behindClause sharedType) hquiet
  rw [← atNames] at hentries hps hcount
  obtain ⟨rfl, rfl⟩ := hentries.unique entries_atNames
  refine ⟨f, hread, hmem, hquiet, hentries, hps, fun htyped => ?_⟩
  have hlength := hcount.2 htyped
  cases hlength

end Gsx
