import Gsx.Proofs.Grammar.Appending
import Gsx.Proofs.Reporting
/-!
# How a check ends

A check goes through its files one by one and keeps a report on each. Whether it
fails is decided on the way, by how the analysis of each file ends; what it prints
is read off the reports behind the last file. The two agree because a file fails
exactly if there is an error in its report: a file without a package clause, which
fails in any case, has one there.
-/

namespace Gsx

open Parse

/-! ## Failure -/

/-- What a source without a package clause is told of holds an error. -/
theorem Outcome.exists_error {c : Config} {name source : String} {r : Reading}
    (h : Outcome.ofSource c name source = .noPackage r) : ∃ d ∈ r.diagnostics, d.isError := by
  rw [ofSource] at h
  cases hread : SourceFile.read name source with
  | error i =>
    rw [hread] at h
    cases h
  | ok r' =>
    obtain ⟨hfile, hdiagnostics⟩ := Parse.eq_of_read hread
    cases hnone : r'.file with
    | some f =>
      simp only [hread, hnone] at h
      split at h <;> cases h
    | none =>
      simp only [hread, hnone] at h
      cases h
      rcases run_sourceFile_ofSource name source with ⟨-, f, hf⟩ | ⟨-, -, d, hd, herror⟩
      · cases hf.symm.trans (hfile.symm.trans hnone)
      · exact ⟨d, hdiagnostics hd, herror⟩

/-- A source without a package clause is no file, unless it interrupts its reading. -/
theorem Outcome.of_not_startsWithPackage {c : Config} {name source : String}
    (h : ¬startsWithPackage (Lexer.ofSource name source).tokenize.1) :
    (∃ r, Outcome.ofSource c name source = .noPackage r)
      ∨ ∃ i, Outcome.ofSource c name source = .interrupted i := by
  rcases run_sourceFile_ofSource name source with ⟨hpackage, -⟩ | ⟨-, hnone, -⟩
  · exact absurd hpackage h
  · cases hread : SourceFile.read name source with
    | error i => exact .inr ⟨i, by rw [ofSource, hread]⟩
    | ok r =>
      obtain ⟨hfile, -⟩ := Parse.eq_of_read hread
      exact .inl ⟨r, Outcome.ofSource_noPackage hread (hfile.trans hnone)⟩

theorem Diagnostic.failure?_isSome_iff {ds : List Diagnostic} :
    (failure? ds).isSome ↔ 0 < (errors ds).length := by
  rw [Option.isSome_iff_ne_none, Ne, failure?_eq_none_iff, List.length_pos_iff]

/-- **A source fails exactly if an error is reported.** -/
theorem Outcome.isFailure_iff {c : Config} {name source : String} :
    (Outcome.ofSource c name source).isFailure
      ↔ 0 < (Diagnostic.errors (Outcome.ofSource c name source).diagnostics).length := by
  cases h : Outcome.ofSource c name source with
  | noPackage r =>
    obtain ⟨d, hd, herror⟩ := exists_error h
    have hmem : d ∈ Diagnostic.errors r.diagnostics := List.mem_filter.2 ⟨hd, herror⟩
    refine iff_of_true rfl (List.length_pos_of_mem (a := d) ?_)
    exact List.mem_filter.2 ⟨hmem, herror⟩
  | analysed r a => exact Diagnostic.failure?_isSome_iff
  | interrupted i => exact iff_of_false Bool.false_ne_true (lt_irrefl 0)
  | failed r cause => exact iff_of_false Bool.false_ne_true (lt_irrefl 0)

namespace Command

open Report

variable {c : Config} {t : FileTree} {a : Arguments} {p : SourcePath} {paths : List SourcePath}

/-! ## Going through the files -/

/-- **The report on a file** whose analysis nothing stops. -/
def IsReportOn (c : Config) (t : FileTree) (p : SourcePath) (r : FileReport) : Prop :=
  ∃ source, decode (bytesAt t p) = .ok source
    ∧ crash? (Outcome.ofSource c p.text source) = none
    ∧ r = ⟨p.text, (Outcome.ofSource c p.text source).diagnostics⟩

/-- The report on a file without a package clause holds an error. -/
theorem IsReportOn.exists_error {source : String} {r : FileReport} (h : IsReportOn c t p r)
    (hsource : decode (bytesAt t p) = .ok source)
    (hmissing : ¬startsWithPackage (Lexer.ofSource p.text source).tokenize.1) :
    ∃ d ∈ r.diagnostics, d.severity = .error := by
  obtain ⟨source', hsource', hdone, rfl⟩ := h
  cases hsource.symm.trans hsource'
  suffices hfails : (Outcome.ofSource c p.text source).isFailure by
    obtain ⟨d, hd⟩ := List.exists_mem_of_length_pos (Outcome.isFailure_iff.1 hfails)
    obtain ⟨hmem, herror⟩ := List.mem_filter.1 hd
    exact ⟨d, hmem, beq_iff_eq.1 herror⟩
  rcases Outcome.of_not_startsWithPackage hmissing with ⟨r, hr⟩ | ⟨i, hi⟩
  · rw [hr]
    rfl
  · rw [hi] at hdone
    cases hdone

/-! ## The arguments -/

end Command

end Gsx
