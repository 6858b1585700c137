import Gsx.Analysis.Source
import Gsx.Proofs.Blanking.Lexers
import Gsx.Proofs.Blanking.Ranges
import Gsx.Proofs.Complaints
import Gsx.Proofs.Grammar.ShortNumerals
import Gsx.Proofs.Grammar.Statements
import Gsx.Proofs.References
/-!
# The ranges of unknown classes

An unknown class is reported with a range: from its column up to the column
behind it. The columns are counted in the value of the `class` attribute, from
the position behind the opening quote; the value has one character where the
literal has an escape of two. So the range is that of the class in the source
moved to the left, by one column for each escape of the literal in front of the
class, and it falls short by one for each escape inside. Without an escape in
front of its end a class stands exactly in its range.
-/

namespace Gsx

/-! ## Texts and lines -/

namespace Text

variable {front text rest : List Char}

/-- What stands on the line of a position, from its column up to that of another
position. -/
def between (source : List Char) (p stop : Position) : List Char :=
  (((source.splitOn '\n').getD (p.line - 1) []).drop (p.column - 1).toNat).take
    (stop.column - p.column).toNat

theorem length_splitOn (sep : Char) (cs : List Char) :
    (cs.splitOn sep).length = cs.count sep + 1 := by
  induction cs with
  | nil => rfl
  | cons c cs ih =>
    rw [List.splitOn_cons_eq_if_modifyHead, List.count_cons]
    split <;> simp only [List.length_cons, List.length_modifyHead, ih, Nat.add_zero]

/-- The first line of a text has what stands in front of any line end. -/
theorem exists_first_line (front rest : List Char) (hfront : '\n' ∉ front) :
    ∃ more, ((front ++ rest).splitOn '\n').getD 0 [] = front ++ more := by
  induction front with
  | nil => exact ⟨_, rfl⟩
  | cons c front ih =>
    obtain ⟨hc, hfront⟩ := List.ne_and_not_mem_of_not_mem_cons hfront
    obtain ⟨more, hmore⟩ := ih hfront
    refine ⟨more, ?_⟩
    rw [List.cons_append, List.splitOn_cons_eq_if_modifyHead,
      if_neg (by simpa using Ne.symm hc), List.cons_append, ← hmore]
    cases hsplit : (front ++ rest).splitOn '\n' with
    | nil => exact absurd hsplit (List.splitOn_ne_nil _ _)
    | cons line lines => rfl

/-- In front of a text the line ends nowhere. -/
theorem column_ofOffset_append (before rest : List Char) {tail : List Char} (htail : '\n' ∉ tail) :
    (Position.ofOffset (before ++ (tail ++ rest)) (before ++ tail).length).column
      = (Position.ofOffset (before ++ (tail ++ rest)) before.length).column + tail.length := by
  have hcount : ((before ++ (tail ++ rest)).take before.length).count '\n'
      = ((before ++ (tail ++ rest)).take (before ++ tail).length).count '\n' := by
    rw [List.take_left, ← List.append_assoc, List.take_left, List.count_append,
      List.count_eq_zero.2 htail, Nat.add_zero]
  have hle : before.length ≤ (before ++ tail).length := List.length_append ▸ Nat.le_add_right _ _
  simp only [Position.ofOffset, ← lastNewline_eq hle hcount]
  rw [List.length_append]
  omega

/-- **The line of an offset**: what stands in front of the offset on its line,
and what stands behind it up to any line end. -/
theorem exists_line (before rest : List Char) (htext : '\n' ∉ text) :
    let source := before ++ (text ++ rest)
    let p := Position.ofOffset source before.length
    ∃ tail more, p.column = tail.length + 1
      ∧ (source.splitOn '\n').getD (p.line - 1) [] = tail ++ (text ++ more) := by
  intro source p
  have hline : p.line - 1 = before.count '\n' := by
    have htake : source.take before.length = before := List.take_left
    simp only [p, Position.ofOffset, htake]
    omega
  rw [hline]
  by_cases hmem : '\n' ∈ before
  · -- the line starts behind the last line end
    obtain ⟨tail, lines, hreverse, htail⟩ := List.eq_append_cons_of_mem (List.mem_reverse.2 hmem)
    have htail : '\n' ∉ tail.reverse := by rwa [List.mem_reverse]
    have hbefore : before = (lines.reverse ++ ['\n']) ++ tail.reverse := by
      rw [← List.reverse_reverse before, hreverse]
      simp
    have hcount : before.count '\n' = (lines.reverse.splitOn '\n').length := by
      rw [length_splitOn, hbefore, List.count_append, List.count_append, List.count_singleton_self,
        List.count_eq_zero.2 htail, Nat.add_zero]
    obtain ⟨more, hmore⟩ := exists_first_line (tail.reverse ++ text) rest
      (by simpa using ⟨List.mem_reverse.not.1 htail, htext⟩)
    refine ⟨tail.reverse, more, ?_, ?_⟩
    · have hsource : source = (lines.reverse ++ ['\n']) ++ (tail.reverse ++ (text ++ rest)) := by
        simp [source, hbefore]
      simp only [p, hsource, hbefore]
      rw [column_ofOffset_append _ _ htail, Position.column_ofOffset_eq_one.2 (.inr (by simp)),
        Int.add_comm]
    · have hsource : source = lines.reverse ++ '\n' :: ((tail.reverse ++ text) ++ rest) := by
        simp [source, hbefore]
      rw [hsource, List.splitOn_append_cons_self, hcount, List.getD_eq_getElem?_getD,
        List.getElem?_append_right le_rfl, Nat.sub_self, ← List.getD_eq_getElem?_getD, hmore,
        List.append_assoc]
  · obtain ⟨more, hmore⟩ := exists_first_line (before ++ text) rest
      (by simpa using ⟨hmem, htext⟩)
    refine ⟨before, more, ?_, ?_⟩
    · have hcolumn := column_ofOffset_append [] (text ++ rest) hmem
      rw [List.nil_append, List.nil_append, List.length_nil,
        Position.column_ofOffset_eq_one.2 (.inl rfl)] at hcolumn
      exact hcolumn.trans (Int.add_comm _ _)
    · rw [List.count_eq_zero.2 hmem, ← List.append_assoc, ← hmore, List.append_assoc]

/-- **A stretch of a line** stands between the columns of its ends. -/
theorem between_ofOffset {source : List Char} {o : Nat} (ho : o ≤ source.length)
    (h : source.drop o = front ++ (text ++ rest)) (hline : '\n' ∉ front ++ text) :
    between source ((Position.ofOffset source o).shifted front.length)
      ((Position.ofOffset source o).shifted (front.length + text.length)) = text := by
  have hsource : source = source.take o ++ ((front ++ text) ++ rest) := by
    rw [List.append_assoc, ← h, List.take_append_drop]
  have hlength : (source.take o).length = o := List.length_take_of_le ho
  obtain ⟨tail, more, hcolumn, hget⟩ := exists_line (source.take o) rest hline
  rw [← hsource, hlength] at hcolumn hget
  have hstart : ((Position.ofOffset source o).column + front.length - 1).toNat
      = (tail ++ front).length := by
    rw [List.length_append]
    omega
  have hlong : ((Position.ofOffset source o).column + (front.length + text.length)
      - ((Position.ofOffset source o).column + front.length)).toNat = text.length := by omega
  simp only [between, Position.shifted, hget, hstart, hlong]
  rw [← List.append_assoc, ← List.append_assoc, List.append_assoc (tail ++ front), List.drop_left,
    List.take_left]

/-- Texts that part in their fronts are not the same. -/
theorem append_ne_append {a b : String} (hab : ¬a.toList <+: b.toList)
    (hba : ¬b.toList <+: a.toList) (x y : String) : a ++ x ≠ b ++ y := by
  intro h
  have hlists : a.toList ++ x.toList = b.toList ++ y.toList := by
    rw [← String.toList_append, ← String.toList_append, h]
  exact (List.prefix_or_prefix_of_prefix (List.prefix_append _ _)
    (hlists ▸ List.prefix_append b.toList y.toList)).elim hab hba

end Text

/-! ## Escapes of a literal -/

namespace Lexeme

variable {body front behind : List Char}

/-- The number of escapes that stand for one character: each takes up one
column more than what it stands for. -/
def escapes : List Char → Nat
  | '\\' :: c :: rest => escapes rest + if (escape? '"' c).isSome then 1 else 0
  | _ :: rest => escapes rest
  | [] => 0

theorem length_unescape (body : List Char) :
    (unescape body).length + escapes body = body.length := by
  fun_induction unescape body with
  | case1 c rest v hescape ih =>
    simp only [escapes, hescape, List.length_cons, Option.isSome_some, if_true]
    omega
  | case2 c rest hescape ih =>
    simp only [escapes, hescape, List.length_cons, Option.isSome_none, Bool.false_eq_true, if_false]
    omega
  | case3 c rest hslash ih =>
    rw [escapes, List.length_cons, List.length_cons]
    · omega
    · exact hslash
  | case4 => rfl

/-- A text without escapes is what it stands for. -/
theorem unescape_eq_self (h : escapes body = 0) : unescape body = body := by
  fun_induction unescape body with
  | case1 c rest v hescape ih =>
    simp only [escapes, hescape, Option.isSome_some, if_true] at h
    omega
  | case2 c rest hescape ih =>
    simp only [escapes, hescape, Option.isSome_none, Bool.false_eq_true, if_false, Nat.add_zero] at h
    rw [ih h]
  | case3 c rest hslash ih =>
    rw [escapes] at h
    · rw [ih h]
    · exact hslash
  | case4 => rfl

/-- **A literal splits where its value does.** -/
theorem exists_of_unescape_eq_append (h : unescape body = front ++ behind) :
    ∃ before rest, body = before ++ rest ∧ unescape before = front ∧ unescape rest = behind := by
  fun_induction unescape body generalizing front with
  | case1 c rest v hescape ih =>
    cases front with
    | nil => exact ⟨[], _, rfl, rfl, by rw [unescape, hescape]; exact h⟩
    | cons x front =>
      obtain ⟨rfl, hrest⟩ := List.cons.inj h
      obtain ⟨before, rest, rfl, hbefore, hbehind⟩ := ih hrest
      exact ⟨'\\' :: c :: before, rest, rfl, by rw [unescape, hescape, hbefore], hbehind⟩
  | case2 c rest hescape ih =>
    cases front with
    | nil => exact ⟨[], _, rfl, rfl, by rw [unescape, hescape]; exact h⟩
    | cons x front =>
      obtain ⟨rfl, hrest⟩ := List.cons.inj h
      cases front with
      | nil =>
        -- behind a backslash that means nothing no escape starts
        have hslash : c ≠ '\\' := fun hc => by rw [hc] at hescape; cases hescape
        exact ⟨['\\'], c :: rest, rfl, rfl, by rw [unescape_cons hslash]; exact hrest⟩
      | cons y front =>
        obtain ⟨rfl, hmore⟩ := List.cons.inj hrest
        obtain ⟨before, rest, rfl, hbefore, hbehind⟩ := ih hmore
        exact ⟨'\\' :: c :: before, rest, rfl, by rw [unescape, hescape, hbefore], hbehind⟩
  | case3 c rest hslash ih =>
    cases front with
    | nil => exact ⟨[], _, rfl, rfl, by rw [unescape]; exacts [h, hslash]⟩
    | cons x front =>
      obtain ⟨rfl, hrest⟩ := List.cons.inj h
      obtain ⟨before, rest, rfl, hbefore, hbehind⟩ := ih hrest
      refine ⟨c :: before, rest, rfl, ?_, hbehind⟩
      rw [unescape, hbefore]
      intro d ds hc hds
      exact hslash d (ds ++ rest) hc (by rw [hds]; rfl)
  | case4 =>
    obtain ⟨rfl, rfl⟩ := List.append_eq_nil_iff.1 h.symm
    exact ⟨[], [], rfl, rfl, rfl⟩

end Lexeme

/-! ## Literals in the tree -/

/-- A string literal stands at an offset, with a text between its quotes. -/
def HasLiteral (source : List Char) (o : Nat) (body : List Char) : Prop :=
  ∃ rest, source.drop o = '"' :: (body ++ '"' :: rest)

/-- **A part of a literal on one line** stands behind the columns that are counted
in the value: by as many as there are escapes in front of it. -/
theorem HasLiteral.between_eq {source before spelled behind : List Char} {o : Nat}
    (h : HasLiteral source o (before ++ (spelled ++ behind)))
    (hline : '\n' ∉ before ++ (spelled ++ behind)) :
    let start := ((Position.ofOffset source o).shifted 1).shifted (Lexeme.unescape before).length
    Text.between source (start.shifted (Lexeme.escapes before))
      ((start.shifted (Lexeme.unescape spelled).length).shifted
        (Lexeme.escapes before + Lexeme.escapes spelled)) = spelled := by
  intro start
  obtain ⟨rest, hrest⟩ := h
  have ho : o ≤ source.length := by
    have hlength := congrArg List.length hrest
    rw [List.length_drop, List.length_cons] at hlength
    omega
  have hfront : '\n' ∉ ('"' :: before) ++ spelled := by
    simp only [List.mem_append, not_or] at hline
    simp [hline.1, hline.2.1]
  have hdrop : source.drop o = ('"' :: before) ++ (spelled ++ (behind ++ '"' :: rest)) := by
    rw [hrest]
    simp
  have hstretch := Text.between_ofOffset ho hdrop hfront
  have hshort := Lexeme.length_unescape before
  have hlong := Lexeme.length_unescape spelled
  have hcolumn : (1 : Int) + (Lexeme.unescape before).length + Lexeme.escapes before
      = ('"' :: before).length := by
    rw [List.length_cons]
    omega
  have hfirst : start.shifted (Lexeme.escapes before)
      = (Position.ofOffset source o).shifted ('"' :: before).length := by
    rw [← hcolumn, Position.shifted_shifted, Position.shifted_shifted, Int.add_assoc]
  have hlast : (start.shifted (Lexeme.unescape spelled).length).shifted
        (Lexeme.escapes before + Lexeme.escapes spelled)
      = (Position.ofOffset source o).shifted (('"' :: before).length + spelled.length) := by
    have hwidth : ((Lexeme.unescape spelled).length + (Lexeme.escapes before + Lexeme.escapes spelled)
        : Int) = Lexeme.escapes before + spelled.length := by omega
    rw [Position.shifted_shifted start, hwidth, ← Position.shifted_shifted, hfirst,
      Position.shifted_shifted]
  rw [hfirst, hlast, hstretch]

/-- **A string is read from a literal**: it is what the literal stands for, and
its text starts behind the quote. -/
def AttributeValue.IsReadFrom (source : List Char) : AttributeValue → Position → Prop
  | .string v p, start => ∃ o body, HasLiteral source o body ∧ v.toList = Lexeme.unescape body
      ∧ p = .ofOffset source o ∧ start = p.shifted 1
  | _, _ => True

theorem AttributeValue.isReadFrom_of_isPlain {source : List Char} {v : AttributeValue}
    {p : Position} (h : v.isPlain) : v.IsReadFrom source p := by
  cases v with
  | string => cases h
  | int | float | bool | expression => trivial

namespace Parse

/-- A string token is read from a literal. -/
theorem FollowsIn.isReadFrom {source : String} {s : TokenStream} (hkind : s.current.kind = .string)
    (h : FollowsIn source s) :
    (AttributeValue.string s.current.literal s.current.position).IsReadFrom source.toList
      (s.current.position.shifted 1) := by
  obtain ⟨l, hsource, h⟩ := h
  rw [h.current] at hkind ⊢
  have hspelled := Lexer.isSpelled_token h.isIn 0
  rw [hkind] at hspelled
  obtain ⟨body, hspan, hliteral⟩ := hspelled
  have hthere : (l.token 0).kind ≠ .endOfInput := by rw [hkind]; nofun
  have hposition := Lexer.position_token h.isIn (Lexer.start_token_lt_length h.isIn hthere)
  rw [Lexer.span, Lexer.slice, hsource] at hspan
  rw [hsource] at hposition
  refine ⟨(l.token 0).start, body, ?_, hliteral, hposition, rfl⟩
  obtain ⟨rest, hrest⟩ := hspan ▸ List.take_prefix _ (source.toList.drop (l.token 0).start)
  exact ⟨rest, by rw [← hrest]; simp⟩

/-- **Strings are read from literals**: an invariant of reading a source. -/
def readLiterals (source : String) : Invariant where
  stream := FollowsIn source
  value := AttributeValue.IsReadFrom source.toList
  statement _ _ := True
  noted := FollowsIn.noted
  advanced := FollowsIn.advanced
  braces := FollowsIn.braces
  converted := FollowsIn.converted
  quoted := FollowsIn.isReadFrom
  plain := AttributeValue.isReadFrom_of_isPlain
  captured _ _ := trivial

end Parse

/-- **Every string attribute of a file** is read from a literal of the source. -/
theorem SourceFile.isReadFrom_of_read {name source : String} {r : Reading}
    (hread : read name source = .ok r) {f : SourceFile} (hfile : r.file = some f) {way : Way}
    {e : ElementHead} {cs : List Node} (he : f.HasElement way e cs) {a : Attribute}
    (ha : a ∈ e.attributes) : a.value.IsReadFrom source.toList a.valuePosition := by
  have hbody := isBody_of_read (I := Parse.readLiterals source) hread hfile
    ⟨Lexer.ofSource name source, rfl, .ofSource name source⟩
  obtain ⟨n, hat, hhead⟩ : ∃ n, f.at? way = some n
      ∧ ∀ l c, (Site.mk n l c).head? = some e := by
    rcases he with hat | ⟨h, hat⟩
    · exact ⟨_, hat, fun _ _ => rfl⟩
    · exact ⟨_, hat, fun _ _ => rfl⟩
  -- the attributes of an element at a way are among those of its component
  obtain ⟨s, hs, rfl⟩ := exists_located_iff.2 hat
  have hsite : s ∈ f.components.flatMap Component.sites := by
    rw [← map_locatedFrom 0]
    exact List.mem_map_of_mem hs
  obtain ⟨c, hc, hmem⟩ := List.mem_flatMap.1 hsite
  exact (hbody c hc).values a (Node.attributesOf_subset_of_site (hhead _ _) c.body hmem ha)

/-! ## What is said of a class -/

/-- A diagnostic says that a class is unknown. -/
def Diagnostic.NamesClass (d : Diagnostic) (word : String) : Prop :=
  d.message = "unknown Tailwind class \"" ++ word ++ "\""

namespace Diagnostic

variable {d : Diagnostic} {word : String}

/-- A message that starts in another way names no class. -/
theorem not_namesClass (front : String) {rest : String} (hmessage : d.message = front ++ rest)
    (hfront : ¬front.toList <+: "unknown Tailwind class \"".toList)
    (hother : ¬"unknown Tailwind class \"".toList <+: front.toList) : ¬d.NamesClass word := by
  rw [NamesClass, hmessage, String.append_assoc]
  exact Text.append_ne_append hfront hother _ _

/-- The class can be read off the message. -/
theorem NamesClass.eq_of_message {other : String} (h : d.NamesClass word)
    (hmessage : d.message = "unknown Tailwind class \"" ++ other ++ "\"") : word = other := by
  have hlists := congrArg String.toList (h.symm.trans hmessage)
  simp only [String.toList_append, List.append_assoc] at hlists
  exact String.toList_inj.1 (List.append_cancel_right (List.append_cancel_left hlists))

theorem not_namesClass_of_mem_repeatedLets {file : String} {comp : Component}
    (h : d ∈ comp.repeatedLets file) : ¬d.NamesClass word := by
  obtain ⟨l, -, rfl⟩ := List.mem_map.1 h
  exact not_namesClass "duplicate @let binding \""
    String.append_assoc (by decide) (by decide)

theorem not_namesClass_of_mem_refs {file : String} {body : List Node}
    (h : d ∈ (NamedRef.ofBody file body).diagnostics) : ¬d.NamesClass word := by
  rw [NamedRef.diagnostics_ofBody] at h
  obtain ⟨o, -, ho⟩ := List.mem_filterMap.1 h
  rw [RefOutcome.diagnostic?] at ho
  split at ho
  · cases ho
  · next fault _ =>
    have hmessage : d.message = fault.message file := by
      cases ho
      rfl
    unfold RefFault.message at hmessage
    cases fault with
    | invalidName name =>
      exact not_namesClass "invalid ref name \"" (hmessage.trans String.append_assoc)
        (by decide) (by decide)
    | reserved name =>
      exact not_namesClass "ref name '" (hmessage.trans String.append_assoc) (by decide) (by decide)
    | duplicate name first =>
      simp only [String.append_assoc] at hmessage
      exact not_namesClass "duplicate ref name \"" hmessage (by decide) (by decide)
    | keyOutsideLoop name =>
      exact not_namesClass "key attribute on ref \"" (hmessage.trans String.append_assoc)
        (by decide) (by decide)

theorem not_namesClass_of_mem_deps {c : Config} {file : String} {comp : Component}
    (h : d ∈ comp.depsDiagnostics c file) : ¬d.NamesClass word := by
  obtain ⟨e, -, he⟩ := List.mem_flatMap.1 h
  rw [Deps.diagnostics] at he
  split at he
  · obtain ⟨fault, -, rfl⟩ := List.mem_map.1 he
    cases fault with
    | notAnExpression | notAnArray | empty =>
      refine not_namesClass _ String.append_empty.symm ?_ ?_ <;>
        simp only [DepsFault.diagnostic, error, warning] <;> decide
    | unknown name =>
      exact not_namesClass "unknown state variable \""
        String.append_assoc (by decide) (by decide)
  · cases he

end Diagnostic

/-- **An unknown class of an analysis** is a word in the value of a `class`
attribute, and its range is counted in that value. -/
theorem Analysis.exists_of_namesClass {c : Config} {f : SourceFile} {a : Analysis}
    (ha : ofFile c f = .ok a) {d : Diagnostic} (hd : d ∈ a.diagnostics) {word : String}
    (hnames : d.NamesClass word) :
    ∃ way e cs x v p start, f.HasElement way e cs ∧ x ∈ e.attributes
      ∧ x.name = "class" ∧ x.value = .string v p
      ∧ Text.IsStretch Validation.isClassChar v.toList ⟨start, word.toList⟩
      ∧ d.position = x.valuePosition.shifted start
      ∧ d.stop = some (d.position.shifted word.length) := by
  -- what is said about bindings, references and dependencies names no class
  rw [(ofFile_inv ha).1, diagnosticsOf, Validation.findings_eq (checks_of_ofFile ha)] at hd
  simp only [List.mem_append, List.mem_flatMap] at hd
  obtain ((⟨comp, -, hlets⟩ | ⟨comp, -, hrefs⟩) | hfound) | ⟨comp, -, hdeps⟩ := hd
  · exact absurd hnames (Diagnostic.not_namesClass_of_mem_repeatedLets hlets)
  · exact absurd hnames (Diagnostic.not_namesClass_of_mem_refs hrefs)
  · obtain ⟨x, hx, rfl⟩ := List.mem_map.1 hfound
    cases Validation.mem_complaints.1 hx with
    | unknownTag he htag =>
      exact absurd hnames (Diagnostic.not_namesClass "unknown element tag <" String.append_assoc
        (by decide) (by decide))
    | voidChildren he hvoid hne =>
      exact absurd hnames (Diagnostic.not_namesClass "<" String.append_assoc (by decide) (by decide))
    | passedChildren hn hne hrefuses =>
      exact absurd hnames (Diagnostic.not_namesClass "component " String.append_assoc
        (by decide) (by decide))
    | unknownAttribute he hattribute hunknown hhint =>
      exact absurd hnames (Diagnostic.not_namesClass "unknown attribute " rfl
        (by decide) (by decide))
    | unknownWord he hattribute hknown hname hvalue hvalidate hrun hunknown =>
      obtain rfl := hnames.eq_of_message rfl
      refine ⟨_, _, _, _, _, _, _, he, List.mem_of_getElem? hattribute, hname, hvalue, ?_, rfl, ?_⟩
      · rwa [String.toList_ofList]
      · rw [Position.shifted_shifted, String.length_ofList]
  · exact absurd hnames (Diagnostic.not_namesClass_of_mem_deps hdeps)

/-! ## Ranges -/

/-- **Where a class is spelled out**: the literal of a `class` attribute at an
offset, up to the class, the class itself, and what is behind it. -/
structure SourceFile.SpellsClass (f : SourceFile) (source : List Char) (word : List Char) (o : Nat)
    (before spelled behind : List Char) : Prop where
  stands : ∃ way e cs x v, f.HasElement way e cs ∧ x ∈ e.attributes ∧ x.name = "class"
    ∧ x.value = .string v (.ofOffset source o)
    ∧ v.toList = Lexeme.unescape (before ++ (spelled ++ behind))
    ∧ Text.IsStretch Validation.isClassChar v.toList ⟨(Lexeme.unescape before).length, word⟩
  literal : HasLiteral source o (before ++ (spelled ++ behind))
  means : Lexeme.unescape spelled = word

/-- An analysis is that of the file that is read. -/
theorem Outcome.exists_of_ofSource_analysed {c : Config} {name source : String} {r : Reading}
    {a : Analysis} (h : ofSource c name source = .analysed r a) :
    ∃ f, SourceFile.read name source = .ok r ∧ r.file = some f ∧ Analysis.ofFile c f = .ok a := by
  rw [ofSource] at h
  cases hread : SourceFile.read name source with
  | error i => simp only [hread, reduceCtorEq] at h
  | ok r' =>
    simp only [hread] at h
    cases hfile : r'.file with
    | none => simp only [hfile, reduceCtorEq] at h
    | some f =>
      simp only [hfile] at h
      cases ha : Analysis.ofFile c f with
      | error cause => simp only [ha, reduceCtorEq] at h
      | ok a' =>
        simp only [ha] at h
        cases h
        exact ⟨f, rfl, hfile, ha⟩

/-- **The range of an unknown class.** Every unknown class that is reported
stands in the literal of a `class` attribute, and the range is as long as the
class. If the literal is on one line, then the class is spelled out on that line
as many columns behind the start of the range as there are escapes in front of
it. So what stands in the range is the class, if no escape is in front of the
class or in it. -/
theorem Outcome.range_of_unknown_class {c : Config} {name source : String} {r : Reading}
    {a : Analysis} (h : ofSource c name source = .analysed r a) {d : Diagnostic}
    (hd : d ∈ a.diagnostics) {word : String} (hnames : d.NamesClass word) :
    ∃ f o before spelled behind stop, r.file = some f ∧ d.stop = some stop
      ∧ stop = d.position.shifted word.length
      ∧ f.SpellsClass source.toList word.toList o before spelled behind
      ∧ ('\n' ∉ before ++ (spelled ++ behind) →
        Text.between source.toList (d.position.shifted (Lexeme.escapes before))
            (stop.shifted (Lexeme.escapes before + Lexeme.escapes spelled)) = spelled
          ∧ (Lexeme.escapes before = 0 → Lexeme.escapes spelled = 0 →
            Text.between source.toList d.position stop = word.toList)) := by
  obtain ⟨f, hread, hfile, ha⟩ := exists_of_ofSource_analysed h
  obtain ⟨way, e, cs, x, v, p, start, he, hx, hname, hvalue, hrun, hposition, hstop⟩ :=
    Analysis.exists_of_namesClass ha hd hnames
  have hread := SourceFile.isReadFrom_of_read hread hfile he hx
  rw [hvalue] at hread
  obtain ⟨o, body, hliteral, hv, rfl, hstart⟩ := hread
  -- the literal splits where the value does
  obtain ⟨front, after, hsplit, hfront, -⟩ := hrun.stands
  obtain rfl : start = front.length := hfront
  obtain ⟨before, rest, rfl, hbefore, hrest⟩ :=
    Lexeme.exists_of_unescape_eq_append (hv.symm.trans hsplit)
  obtain ⟨spelled, behind, rfl, hspelled, -⟩ := Lexeme.exists_of_unescape_eq_append hrest
  refine ⟨f, o, before, spelled, behind, _, hfile, hstop, rfl,
    ⟨⟨way, e, cs, x, v, he, hx, hname, hvalue, hv, hbefore ▸ hrun⟩, hliteral, hspelled⟩,
    fun hline => ?_⟩
  have hwidth : (word.length : Int) = (Lexeme.unescape spelled).length := by
    rw [hspelled, String.length_toList]
  have hrange := hliteral.between_eq hline
  rw [hbefore, ← hstart, ← hposition, ← hwidth] at hrange
  refine ⟨hrange, fun hnone hnone' => ?_⟩
  simp only [hnone, hnone', Int.natCast_zero, Int.add_zero, Position.shifted_zero] at hrange
  rw [hrange, ← Lexeme.unescape_eq_self hnone', hspelled]

/-- A class list with an escaped tab between its classes. -/
def escapedTab : String :=
  "package ui\n\n@component A() \x7b\n\t<div class=\"flex\\tgapx-2\"></div>\n\x7d\n"

/-- The second class is reported one column too far to the left: what stands in
its range starts with the end of the escape. -/
theorem Outcome.range_of_unknown_class_escapedTab :
    ∃ r a d, ofSource .standard "" escapedTab = .analysed r a ∧ d ∈ a.diagnostics
      ∧ d.NamesClass "gapx-2" ∧ d.position = ⟨4, 19⟩
      ∧ Text.between escapedTab.toList ⟨4, 19⟩ ⟨4, 25⟩ = "tgapx-".toList
      ∧ ∃ f o before spelled behind stop, r.file = some f ∧ d.stop = some stop
        ∧ stop = d.position.shifted "gapx-2".length
        ∧ f.SpellsClass escapedTab.toList "gapx-2".toList o before spelled behind
        ∧ ('\n' ∉ before ++ (spelled ++ behind) →
          Text.between escapedTab.toList (d.position.shifted (Lexeme.escapes before))
              (stop.shifted (Lexeme.escapes before + Lexeme.escapes spelled)) = spelled
            ∧ (Lexeme.escapes before = 0 → Lexeme.escapes spelled = 0 →
              Text.between escapedTab.toList d.position stop = "gapx-2".toList)) := by
  obtain ⟨r, a, houtcome, hfound⟩ : ∃ r a, ofSource .standard "" escapedTab = .analysed r a
      ∧ a.diagnostics.map (fun d => (d.position, d.message))
        = [(⟨4, 19⟩, "unknown Tailwind class \"gapx-2\"")] := ⟨_, _, rfl, rfl⟩
  obtain ⟨d, hd, hpair⟩ := List.mem_map.1 (hfound ▸ List.mem_singleton_self _)
  obtain ⟨hposition, hmessage⟩ := Prod.mk.inj hpair
  exact ⟨r, a, d, houtcome, hd, hmessage, hposition, by decide +kernel,
    range_of_unknown_class houtcome hd hmessage⟩

end Gsx
