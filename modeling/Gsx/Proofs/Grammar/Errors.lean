import Gsx.Proofs.Grammar.Move
import Gsx.Proofs.Grammar.Trees
import Gsx.Proofs.Lexer.Lossless
import Gsx.Proofs.Lexer.Scanners
/-!
# What is found wrong are errors

Reading a source gives no warnings: all that the lexer and the grammar find wrong
are errors.
-/

namespace Gsx

namespace Lexer

/-- What the lexer finds from now on are errors. -/
theorem isError_next {l : Lexer} (h : l.cursor.IsIn l.source)
    (herrors : ∀ d ∈ l.diagnostics, d.isError) : ∀ d ∈ l.next.2.diagnostics, d.isError := by
  obtain ⟨ds, hds, hnew⟩ := (grows_next h).diagnostics
  rw [hds]
  exact fun d hd => (List.mem_append.1 hd).elim (herrors d) (hnew d)

end Lexer

/-- **A stream that has found errors only**, in its source. -/
structure TokenStream.OnlyErrors (s : TokenStream) : Prop where
  cursor : s.lexer.cursor.IsIn s.lexer.source
  errors : ∀ d ∈ s.diagnostics, d.isError
  lexerErrors : ∀ d ∈ s.lexer.diagnostics, d.isError

namespace TokenStream.OnlyErrors

variable {s s' : TokenStream}

theorem annotate (hnote : s.Annotates s') (h : s.OnlyErrors) : s'.OnlyErrors where
  cursor := by rw [hnote.source, hnote.cursor]; exact h.cursor
  errors := by
    obtain ⟨ds, hds, hnew⟩ := hnote.grammatical
    rw [hds]
    exact fun d hd => (List.mem_append.1 hd).elim (h.errors d) (hnew d)
  lexerErrors := hnote.lexical ▸ h.lexerErrors

theorem advanced (h : s.OnlyErrors) : s.advanced.OnlyErrors where
  cursor := (Lexer.grows_next h.cursor).source_eq ▸ (Lexer.grows_next h.cursor).cursor
  errors := h.errors
  lexerErrors := Lexer.isError_next h.cursor h.lexerErrors

/-- Two tokens read from a lexer. -/
theorem of_next {l : Lexer} (hl : l.cursor.IsIn l.source) (hlexer : ∀ d ∈ l.diagnostics, d.isError)
    (hs : s.lexer = l.next.2.next.2) (herrors : ∀ d ∈ s.diagnostics, d.isError) :
    s.OnlyErrors := by
  have hfirst := Lexer.grows_next hl
  have hin : l.next.2.cursor.IsIn l.next.2.source := hfirst.source_eq ▸ hfirst.cursor
  have hsecond := Lexer.grows_next hin
  refine ⟨?_, herrors, ?_⟩
  · rw [hs, hsecond.source_eq]
    exact hsecond.cursor
  · rw [hs]
    exact Lexer.isError_next hin (Lexer.isError_next hl hlexer)

theorem ofSource (name source : String) : (TokenStream.ofSource name source).OnlyErrors :=
  .of_next (l := Lexer.ofSource name source) (Cursor.IsIn.start _)
    (fun _ hd => absurd hd List.not_mem_nil) rfl fun _ hd => absurd hd List.not_mem_nil

theorem behindBraces {code : String} (h : s.OnlyErrors)
    (hb : Parse.behindBraces s = .ok (code, s')) : s'.OnlyErrors := by
  obtain ⟨l, hl, rfl⟩ := behindBraces_eq hb
  obtain ⟨hsource, hcursor, -⟩ := Lexer.readBraces_spec hl
  exact .of_next (l := l) (hsource ▸ hcursor) (Lexer.diagnostics_readBraces hl ▸ h.lexerErrors) rfl
    h.errors

/-- The conversion of an integer finds nothing wrong. -/
theorem intValue (h : s.OnlyErrors) (text : String) :
    ((Parse.intValue text).run s).2.OnlyErrors := by
  rw [Parse.intValue]
  split
  · exact h
  · exact ⟨h.cursor, h.errors, h.lexerErrors⟩

end TokenStream.OnlyErrors

/-- **Only errors** is an invariant of reading. -/
def Parse.onlyErrors : Parse.Invariant where
  stream := TokenStream.OnlyErrors
  value _ _ := True
  statement _ _ := True
  noted hnote h := .annotate hnote h
  advanced h := h.advanced
  braces hb h := h.behindBraces hb
  converted _ h := h.intValue _
  quoted _ _ := trivial
  plain _ := trivial
  captured _ _ := trivial

/-- **All that is wrong with a source are errors.** -/
theorem SourceFile.isError_of_read {name source : String} {r : Reading}
    (h : SourceFile.read name source = .ok r) : ∀ d ∈ r.diagnostics, d.isError := by
  have hsound : Parse.Sound Parse.onlyErrors Parse.sourceFile _ := .sourceFile
  obtain ⟨herrors, -⟩ := hsound (.ofSource name source) (.ofSource name source)
  rw [SourceFile.read] at h
  rcases hrun : Parse.sourceFile.run (.ofSource name source) with ⟨file, s⟩
  rw [hrun] at h herrors
  simp only at h
  split at h
  · cases h
  · cases h
    exact fun d hd => (List.mem_append.1 hd).elim (herrors.errors d) (herrors.lexerErrors d)

end Gsx
