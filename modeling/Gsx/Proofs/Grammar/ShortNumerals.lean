import Gsx.Proofs.Grammar.Errors
import Gsx.Proofs.Lexer.Scanners
import Gsx.Proofs.Numerals
/-!
# Reading sources with short numerals

In a source without long runs of digits the literals of tokens have none
either: an integer is such a run, and what a string means has no digits next to
each other that are not next to each other in the string. So no integer is too
long to convert, and reading is never interrupted. The strings that come into
the tree as values of attributes are short in the same sense.
-/

namespace Gsx

/-! ## Tokens -/

namespace Lexeme

/-- What an escape stands for is no digit. -/
theorem isDecimal_of_escape? {q c v : Char} (hq : Unicode.isDecimal q = false)
    (h : escape? q c = some v) : Unicode.isDecimal v = false := by
  unfold escape? at h
  split at h
  · next hc =>
    cases h
    rw [hc]
    exact hq
  · split at h <;> cases h <;> decide

/-- A character that is no digit ends the digits at the front. -/
theorem eq_nil_of_prefix_cons {ds cs : List Char} {c : Char}
    (hds : ∀ d ∈ ds, Unicode.isDecimal d) (hc : Unicode.isDecimal c = false)
    (h : ds <+: c :: cs) : ds = [] := by
  cases ds with
  | nil => rfl
  | cons d ds =>
    have hd := hds d List.mem_cons_self
    rw [(List.cons_prefix_cons.1 h).1, hc] at hd
    cases hd

/-- One character more in front of both. -/
theorem prefix_cons_of {ds cs cs' : List Char} {c : Char} (hds : ∀ d ∈ ds, Unicode.isDecimal d)
    (hcs : ∀ es, (∀ e ∈ es, Unicode.isDecimal e) → es <+: cs → es <+: cs') (h : ds <+: c :: cs) :
    ds <+: c :: cs' := by
  cases ds with
  | nil => exact List.nil_prefix
  | cons d ds =>
    rw [List.cons_prefix_cons] at h ⊢
    exact ⟨h.1, hcs ds (fun e he => hds e (List.mem_cons_of_mem _ he)) h.2⟩

/-- Digits at the front of what a string means are at the front of the string. -/
theorem prefix_of_prefix_unescape {ds body : List Char} (hds : ∀ d ∈ ds, Unicode.isDecimal d)
    (h : ds <+: unescape body) : ds <+: body := by
  fun_induction unescape body generalizing ds with
  | case1 c rest v hv _ =>
    rw [eq_nil_of_prefix_cons hds (isDecimal_of_escape? (by decide) hv) h]
    exact List.nil_prefix
  | case2 c rest hnone _ =>
    rw [eq_nil_of_prefix_cons hds (by decide) h]
    exact List.nil_prefix
  | case3 c rest hescape ih => exact prefix_cons_of hds (fun _ => ih) h
  | case4 => exact h

/-- **Digits in what a string means are digits in the string.** -/
theorem infix_of_infix_unescape {ds body : List Char} (hds : ∀ d ∈ ds, Unicode.isDecimal d)
    (h : ds <:+: unescape body) : ds <:+: body := by
  have hfront : ∀ {c cs}, ds <+: c :: unescape cs → ds <+: c :: cs :=
    prefix_cons_of hds fun _ => prefix_of_prefix_unescape
  fun_induction unescape body with
  | case1 c rest v hv ih =>
    rcases List.infix_cons_iff.1 h with h | h
    · rw [eq_nil_of_prefix_cons hds (isDecimal_of_escape? (by decide) hv) h]
      exact List.nil_infix
    · exact List.infix_cons (List.infix_cons (ih h))
  | case2 c rest hnone ih =>
    rcases List.infix_cons_iff.1 h with h | h
    · rw [eq_nil_of_prefix_cons hds (by decide) h]
      exact List.nil_infix
    · rcases List.infix_cons_iff.1 h with h | h
      · exact List.infix_cons (hfront h).isInfix
      · exact List.infix_cons (List.infix_cons (ih h))
  | case3 c rest hescape ih =>
    rcases List.infix_cons_iff.1 h with h | h
    · exact (hfront h).isInfix
    · exact List.infix_cons (ih h)
  | case4 => exact h

end Lexeme

/-- **A token with short numerals**: as an integer it is not long, and as a
string it has no long run of digits. -/
structure Token.IsShort (t : Token) : Prop where
  int : t.kind = .int → t.literal.toList.length ≤ 300
  string : t.kind = .string → HasShortNumerals t.literal.toList

theorem Lexer.isShort_next {l : Lexer} (h : l.cursor.IsIn l.source)
    (hshort : HasShortNumerals l.source) : l.next.1.IsShort := by
  have hspelled := isSpelled_next h
  have hspan : l.slice l.next.1.start l.next.2.cursor.offset <:+: l.source :=
    (List.take_prefix _ _).isInfix.trans (List.drop_suffix _ _).isInfix
  refine ⟨fun hkind => ?_, fun hkind => ?_⟩
  · rw [hkind] at hspelled
    obtain ⟨hliteral, hdigits⟩ := hspelled
    exact hshort _ (hliteral ▸ hspan) hdigits
  · rw [hkind] at hspelled
    obtain ⟨body, hbody, hliteral⟩ := hspelled
    have hin : body <:+: l.source := by
      refine List.IsInfix.trans ?_ (hbody ▸ hspan)
      exact List.infix_cons (List.prefix_append body ['"']).isInfix
    intro ds hds hdigits
    rw [hliteral] at hds
    exact hshort ds ((Lexeme.infix_of_infix_unescape hdigits hds).trans hin) hdigits

/-! ## Streams -/

/-- **A stream with short numerals**: in its source and in its two tokens. No
numeral was too long so far. -/
structure TokenStream.IsShort (s : TokenStream) : Prop where
  source : HasShortNumerals s.lexer.source
  cursor : s.lexer.cursor.IsIn s.lexer.source
  current : s.current.IsShort
  peek : s.peek.IsShort
  interruption : s.interruption = none

namespace TokenStream.IsShort

variable {s s' : TokenStream}

/-- Notes leave the tokens, the source and the numerals as they are. -/
theorem annotate (hnote : s.Annotates s') (h : s.IsShort) : s'.IsShort where
  source := hnote.source ▸ h.source
  cursor := by rw [hnote.source, hnote.cursor]; exact h.cursor
  current := hnote.current ▸ h.current
  peek := hnote.peek ▸ h.peek
  interruption := hnote.interruption.trans h.interruption

theorem advanced (h : s.IsShort) : s.advanced.IsShort where
  source := (Lexer.grows_next h.cursor).source_eq ▸ h.source
  cursor := (Lexer.grows_next h.cursor).source_eq ▸ (Lexer.grows_next h.cursor).cursor
  current := h.peek
  peek := Lexer.isShort_next h.cursor h.source
  interruption := h.interruption

/-- Two tokens read from a lexer on a source with short numerals. -/
theorem of_next {l : Lexer} (hsource : HasShortNumerals l.source) (hl : l.cursor.IsIn l.source)
    (hcurrent : s.current = l.next.1) (hpeek : s.peek = l.next.2.next.1)
    (hs : s.lexer = l.next.2.next.2) (hinterruption : s.interruption = none) : s.IsShort := by
  have hfirst := Lexer.grows_next hl
  have hin : l.next.2.cursor.IsIn l.next.2.source := hfirst.source_eq ▸ hfirst.cursor
  have hshort : HasShortNumerals l.next.2.source := hfirst.source_eq ▸ hsource
  have hsecond := Lexer.grows_next hin
  refine ⟨?_, ?_, ?_, ?_, hinterruption⟩
  · rw [hs, hsecond.source_eq]
    exact hshort
  · rw [hs, hsecond.source_eq]
    exact hsecond.cursor
  · rw [hcurrent]
    exact Lexer.isShort_next hl hsource
  · rw [hpeek]
    exact Lexer.isShort_next hin hshort

theorem ofSource {name source : String} (h : HasShortNumerals source.toList) :
    (TokenStream.ofSource name source).IsShort :=
  .of_next (l := Lexer.ofSource name source) h (Cursor.IsIn.start _) rfl rfl rfl rfl

theorem behindBraces {code : String} (h : s.IsShort)
    (hb : Parse.behindBraces s = .ok (code, s')) : s'.IsShort := by
  obtain ⟨l, hl, rfl⟩ := behindBraces_eq hb
  obtain ⟨hsource, hcursor, -⟩ := Lexer.readBraces_spec hl
  exact .of_next (l := l) (hsource ▸ h.source) (hsource ▸ hcursor) rfl rfl rfl h.interruption

/-- An integer that is not long is converted. -/
theorem run_intValue {s : TokenStream} (h : s.IsShort) (hkind : s.current.kind = .int) :
    ((Parse.intValue s.current.literal).run s).2 = s := by
  rw [Parse.intValue, Numeral.read_of_length_le (h.current.int hkind)]
  rfl

end TokenStream.IsShort

/-! ## Values -/

/-- A value with short numerals: as a string it has none that is long. -/
def AttributeValue.IsShort : AttributeValue → Prop
  | .string v _ => HasShortNumerals v.toList
  | _ => True

theorem AttributeValue.isShort_of_isPlain {v : AttributeValue} (h : v.isPlain) : v.IsShort := by
  cases v with
  | string => cases h
  | int | float | bool | expression => trivial

/-- **Short numerals** are an invariant of reading. -/
def Parse.shortNumerals : Parse.Invariant where
  stream := TokenStream.IsShort
  value v _ := v.IsShort
  statement _ _ := True
  noted hnote h := .annotate hnote h
  advanced h := h.advanced
  braces hb h := h.behindBraces hb
  converted hkind h := (h.run_intValue hkind).symm ▸ h
  quoted hkind h := h.current.string hkind
  plain := AttributeValue.isShort_of_isPlain
  captured _ _ := trivial

/-! ## Files -/

/-- Attributes with short numerals. -/
def ShortAttributes (as : List Attribute) : Prop :=
  ∀ a ∈ as, a.value.IsShort

/-- Nodes with short numerals. -/
def ShortNodes (ns : List Node) : Prop :=
  ShortAttributes (Node.attributesOf ns)

/-- **Reading a source with short numerals is not interrupted.** All that it
finds wrong are errors, and the components of the file have short numerals. -/
theorem SourceFile.read_ok (name : String) {source : String} (h : HasShortNumerals source.toList) :
    let run := Parse.sourceFile.run (.ofSource name source)
    ∃ r, SourceFile.read name source = .ok r ∧ r.file = run.1
      ∧ r.diagnostics = run.2.diagnostics ++ run.2.lexer.diagnostics
      ∧ (∀ d ∈ r.diagnostics, d.isError)
      ∧ ∀ f ∈ r.file, ∀ c ∈ f.components, ShortNodes c.body := by
  intro run
  have hsound : Parse.Sound Parse.shortNumerals Parse.sourceFile _ := .sourceFile
  obtain ⟨hshort, hfile⟩ := hsound (.ofSource name source) (.ofSource h)
  rcases hrun : Parse.sourceFile.run (.ofSource name source) with ⟨file, s⟩
  rw [hrun] at hshort hfile
  have hread : SourceFile.read name source
      = .ok ⟨file, s.diagnostics ++ s.lexer.diagnostics, s.recoveries⟩ := by
    have hinterruption : s.interruption = none := hshort.interruption
    rw [SourceFile.read, hrun]
    simp only [hinterruption]
  refine ⟨_, hread, congrArg Prod.fst hrun.symm, ?_, isError_of_read hread,
    fun f hf c hc => (hfile f hf c hc).values⟩
  simp only [run, hrun]

end Gsx
