import Mathlib.Data.Nat.Find
import Gsx.Analysis.Source
import Gsx.Proofs.Detection
import Gsx.Proofs.Grammar.Forward
import Gsx.Proofs.Grammar.ShortNumerals
/-!
# What becomes of a source

The analysis of a source comes to its end unless there is no package clause,
and whether there is one can be seen from the first tokens. What else might go
wrong does not: no numeral is too long, no class has a number that cannot be
computed, and no look-up of detection fails.
-/

namespace Gsx

variable {c : Config}

/-! ## Validation -/

namespace Validation

variable {r : Rules}

theorem classErrors_ok {classes : String} (h : HasShortNumerals classes.toList)
    (start : Position) : ∃ ds, classErrors r start classes = .ok ds := by
  obtain ⟨placed, hplaced⟩ := PlacedClass.ofText_ok h.ascii 0
  rw [classErrors]
  split
  · simp only [hplaced]
    exact ⟨_, rfl⟩
  · exact ⟨_, rfl⟩

/-- Only a string is a list of classes. -/
theorem short_of_classText? {a : Attribute} (ha : a.value.IsShort) {classes : String}
    (h : classText? r.config a = some classes) : HasShortNumerals classes.toList := by
  unfold classText? at h
  split at h
  · split at h
    · next v p hvalue =>
      cases h
      rw [hvalue] at ha
      exact ha
    · cases h
  · cases h

theorem attributeFindings_ok {a : Attribute} (ha : a.value.IsShort) :
    ∃ found, attributeFindings r a = .ok found := by
  rw [attributeFindings]
  split
  · cases hclasses : classText? r.config a with
    | none => exact ⟨_, rfl⟩
    | some classes =>
      have hshort := short_of_classText? ha hclasses
      obtain ⟨translated, htranslated⟩ := ClassList.ofText_ok hshort.ascii
      obtain ⟨errors, herrors⟩ := classErrors_ok (r := r) hshort a.valuePosition
      simp only [htranslated, herrors]
      exact ⟨_, rfl⟩
  · exact ⟨_, rfl⟩

theorem elementFindings_ok {e : ElementHead} (h : ShortAttributes e.attributes)
    (children : List Node) : ∃ found, elementFindings r e children = .ok found := by
  obtain ⟨found, hfound⟩ := mapM_ok fun a ha => attributeFindings_ok (r := r) (h a ha)
  rw [elementFindings, hfound]
  exact ⟨_, rfl⟩

theorem siteFindings_ok {s : Site} (h : ∀ e, s.head? = some e → ShortAttributes e.attributes) :
    ∃ found, siteFindings r s = .ok found := by
  obtain ⟨node, inLoop, inConditional⟩ := s
  cases node with
  | element e cs => exact elementFindings_ok (h e rfl) cs
  | letBinding _ e cs => exact elementFindings_ok (h e rfl) cs
  | call | forLoop | conditional | slot | expression | letReference | text | goCode =>
    exact ⟨_, rfl⟩

/-- **Components with short numerals are checked**, whatever is found. -/
theorem componentFindings_ok {cs : List Component} (h : ∀ c ∈ cs, ShortNodes c.body) :
    ∃ found, componentFindings r cs = .ok found := by
  have hsites : ∀ s ∈ cs.flatMap Component.sites, ∃ found, siteFindings r s = .ok found :=
    fun s hs => by
      obtain ⟨c, hc, hsite⟩ := List.mem_flatMap.1 hs
      exact siteFindings_ok fun e he a ha =>
        h c hc a (Node.attributesOf_subset_of_site he c.body hsite ha)
  obtain ⟨found, hfound⟩ := mapM_ok hsites
  rw [componentFindings, hfound]
  exact ⟨_, rfl⟩

end Validation

/-! ## Analysis -/

/-- Marking slots and linking leave the numerals as they are. -/
theorem shortNodes_prepare {f : SourceFile} (h : ∀ c ∈ f.components, ShortNodes c.body) :
    ∀ c ∈ f.prepare.components, ShortNodes c.body := by
  intro c hc
  obtain ⟨marked, hmarked, rfl⟩ := List.mem_map.1 hc
  obtain ⟨original, horiginal, rfl⟩ := List.mem_map.1 hmarked
  rw [ShortNodes, Node.attributesOf_linkAll]
  exact h original horiginal

/-- **A file with short numerals is analysed.** -/
theorem Analysis.ofFile_ok {f : SourceFile} (h : ∀ c ∈ f.components, ShortNodes c.body) :
    ∃ a, Analysis.ofFile c f = .ok a
      ∧ a.components = f.prepare.components.map (Component.tables c f.prepare.name) := by
  obtain ⟨⟨findings, needsTui⟩, hfindings⟩ := Validation.componentFindings_ok
    (r := ⟨c, ComponentIndex.ofFile f.prepare, f.prepare.name⟩) (shortNodes_prepare h)
  rw [Analysis.ofFile]
  simp only [hfindings]
  exact ⟨_, rfl, rfl⟩

/-- Detection finds the bindings of a body without a fault. -/
theorem exists_detection (known : List String) (body : List Node) :
    ∃ visits, Detection.run c known (Naming.table c body) body = .ok visits
      ∧ visits.flatMap Visit.bindings = StateBinding.ofBody c known body := by
  have hnames : (Naming.table c body).map (·.names) = ElementName.ofBody c body :=
    (Naming.nodes_eq body false false [] 0 0).1
  obtain ⟨visits, hrun, hfollows⟩ : Detection.Follows c known (Naming.table c body)
      (Detection.run c known (Naming.table c body) body) :=
    nodes_follows body fun x hx => Naming.lookup_eq (Naming.nodup_nodes body) hx
  refine ⟨visits, hrun, ?_⟩
  rw [StateBinding.ofBody, ← hnames, List.flatMap_def, List.flatMap_def, List.map_map]
  exact congrArg List.flatten (map_eq_of_follows (fun _ _ h => h.bindings_eq) hfollows)

/-! ## The package clause -/

/-- Whether tokens start with a package clause: behind line ends, `package` and a
name. -/
def startsWithPackage (ts : List Token) : Bool :=
  match ts.dropWhile (·.kind = .newline) with
  | t :: t' :: _ => t.kind == .packageWord && t'.kind == .identifier
  | _ => false

namespace Parse

open Lexer

/-- The stream at a token of a source of which nothing has been read. -/
def streamAt (l : Lexer) (k : Nat) : TokenStream :=
  ⟨after (k + 2) l, l.token k, l.token (k + 1), [], [], [], none, false⟩

theorem advanced_streamAt (l : Lexer) (k : Nat) : (streamAt l k).advanced = streamAt l (k + 1) := by
  rw [streamAt, streamAt, after_succ (k + 2) l]
  rfl

/-- Line ends are moved over up to the first token that is none. -/
theorem run_scanUpTo_streamAt {l : Lexer} {m fuel k : Nat}
    (hnewline : ∀ i < m, (l.token (k + i)).kind = .newline)
    (hstop : (l.token (k + m)).kind ≠ .newline) (hfuel : m < fuel) :
    ((scanUpTo newlineStep fuel ()).run (streamAt l k)).2 = streamAt l (k + m) := by
  induction m generalizing k fuel with
  | zero =>
    obtain ⟨fuel, rfl⟩ : ∃ n, fuel = n + 1 := ⟨fuel - 1, by omega⟩
    rw [run_scanUpTo_stop fuel (.inr (if_neg hstop)), Nat.add_zero]
  | succ m ih =>
    obtain ⟨fuel, rfl⟩ : ∃ n, fuel = n + 1 := ⟨fuel - 1, by omega⟩
    have hfirst : (streamAt l k).current.kind = .newline := hnewline 0 (Nat.succ_pos m)
    have hshift : ∀ i, k + (i + 1) = k + 1 + i := fun i => by omega
    rw [run_scanUpTo_succ fuel (by rw [hfirst]; exact nofun) (if_pos hfirst), advanced_streamAt,
      hshift m]
    refine ih (fun i hi => ?_) ?_ (Nat.lt_of_succ_lt_succ hfuel)
    · rw [← hshift i]
      exact hnewline (i + 1) (by omega)
    · rw [← hshift m]
      exact hstop

theorem run_skipNewlines_ofSource {name source : String} {m : Nat} (hm : m ≤ source.toList.length)
    (hnewline : ∀ i < m, ((ofSource name source).token i).kind = .newline)
    (hstop : ((ofSource name source).token m).kind ≠ .newline) :
    (skipNewlines.run (.ofSource name source)).2 = streamAt (ofSource name source) m := by
  have hsource : (streamAt (ofSource name source) 0).lexer.source = source.toList :=
    (grows_after (Cursor.IsIn.start _) 2).source_eq
  have hrounds : m < (streamAt (ofSource name source) 0).rounds := by
    rw [TokenStream.rounds, hsource]
    omega
  have hrun := run_scanUpTo_streamAt (l := ofSource name source) (k := 0)
    (fun i hi => (Nat.zero_add i).symm ▸ hnewline i hi) ((Nat.zero_add m).symm ▸ hstop) hrounds
  rw [Nat.zero_add] at hrun
  rw [run_skipNewlines]
  exact hrun

/-- **The package clause** is there if the two tokens ahead are `package` and a
name, and an error is reported if they are not. -/
theorem run_packageName (s : TokenStream) :
    (s.current.kind = .packageWord ∧ s.peek.kind = .identifier
        ∧ (packageName.run s).1 = some s.peek.literal)
      ∨ ¬(s.current.kind = .packageWord ∧ s.peek.kind = .identifier)
        ∧ (packageName.run s).1 = none
        ∧ ∃ d ∈ (packageName.run s).2.diagnostics, d.isError := by
  have hreport : ∀ (s : TokenStream) f, ∃ d ∈ ((report f).run s).2.diagnostics, d.isError :=
    fun _ _ => ⟨_, List.mem_append_right _ (List.mem_singleton_self _), rfl⟩
  by_cases hpackage : s.current.kind = .packageWord
  · have hpeek : s.advanced.current = s.peek := rfl
    have hrun : packageName.run s = (ite (s.peek.kind = .identifier)
        (do advanceLine; return some s.peek.literal)
        (do report .expectedPackageName; return none) : Parse (Option String)).run s.advanced := by
      rw [packageName]
      change (ite (s.current.kind = .packageWord) _ _ : Parse (Option String)).run s = _
      rw [if_pos hpackage]
      rfl
    by_cases hname : s.peek.kind = .identifier
    · refine .inl ⟨hpackage, hname, ?_⟩
      rw [hrun, if_pos hname]
      rfl
    · refine .inr ⟨fun h => hname h.2, ?_⟩
      rw [hrun, if_neg hname]
      exact ⟨rfl, hreport _ _⟩
  · refine .inr ⟨fun h => hpackage h.1, ?_⟩
    have hrun : packageName.run s = (do report .expectedPackage; return none : Parse _).run s := by
      rw [packageName]
      change (ite (s.current.kind = .packageWord) _ _ : Parse (Option String)).run s = _
      rw [if_neg hpackage]
    rw [hrun]
    exact ⟨rfl, hreport _ _⟩

theorem run_bind {α β : Type} (r : Parse β) (f : β → Parse α) (s : TokenStream) :
    (r >>= f).run s = (f (r.run s).1).run (r.run s).2 :=
  rfl

/-- Whether a reader has a result, whatever it reads. -/
def Yields {α : Type} (r : Parse (Option α)) : Prop :=
  ∀ s, ∃ a, (r.run s).1 = some a

namespace Yields

variable {α β : Type}

theorem pure (a : α) : Yields (pure (some a)) :=
  fun _ => ⟨a, rfl⟩

/-- What a reader goes on with decides. -/
theorem next {r : Parse β} {f : β → Parse (Option α)} (h : ∀ b, Yields (f b)) : Yields (r >>= f) :=
  fun _ => h _ _

end Yields

/-- **There is a file if there is a package clause.** Without one reading ends
there, with the error about it. -/
theorem run_sourceFile (s : TokenStream) :
    let ahead := (leadingComments.run (skipNewlines.run s).2).2
    (ahead.current.kind = .packageWord ∧ ahead.peek.kind = .identifier
        ∧ ∃ f, (sourceFile.run s).1 = some f)
      ∨ ¬(ahead.current.kind = .packageWord ∧ ahead.peek.kind = .identifier)
        ∧ (sourceFile.run s).1 = none ∧ ∃ d ∈ (sourceFile.run s).2.diagnostics, d.isError := by
  intro ahead
  have hahead : (leadingComments.run (skipNewlines.run (position.run s).2).2).2 = ahead := rfl
  rw [sourceFile, run_bind, run_bind, run_bind, run_bind, hahead]
  rcases run_packageName ahead with ⟨hpackage, hname, hresult⟩ | ⟨hmissing, hresult, hreported⟩
  · rw [hresult]
    refine .inl ⟨hpackage, hname, ?_⟩
    exact Yields.next (fun _ => .next fun _ => .next fun _ => .next fun _ => .next fun _ =>
      .next fun _ => .pure _) _
  · rw [hresult]
    exact .inr ⟨hmissing, rfl, hreported⟩

end Parse

/-! ## A source -/

open Parse Lexer

/-- Behind the line ends that tokens start with, the first two of them decide
whether there is a package clause. -/
theorem startsWithPackage_append {ns ts : List Token} (h : ∀ n ∈ ns, n.kind = .newline) :
    startsWithPackage (ns ++ ts) = startsWithPackage ts := by
  have hdrop : (ns ++ ts).dropWhile (·.kind = .newline) = ts.dropWhile (·.kind = .newline) :=
    List.dropWhile_append_of_pos fun n hn => decide_eq_true (h n hn)
  rw [startsWithPackage, startsWithPackage, hdrop]

theorem startsWithPackage_cons_cons {t t' : Token} {ts : List Token} (h : t.kind ≠ .newline) :
    startsWithPackage (t :: t' :: ts) ↔ t.kind = .packageWord ∧ t'.kind = .identifier := by
  have hdrop : (t :: t' :: ts).dropWhile (·.kind = .newline) = t :: t' :: ts :=
    List.dropWhile_cons_of_neg (by simp only [h, decide_false, Bool.false_eq_true, not_false_eq_true])
  rw [startsWithPackage, hdrop]
  simp only [Bool.and_eq_true, beq_iff_eq]

theorem startsWithPackage_singleton {t : Token} (h : t.kind = .endOfInput) :
    startsWithPackage [t] = false := by
  rw [startsWithPackage, List.dropWhile_cons_of_neg (by simp only [h, reduceCtorEq, decide_false,
    Bool.false_eq_true, not_false_eq_true])]

/-- **The first token that is not a line end** is found in the source, and with
the one behind it decides about the package clause. -/
theorem exists_firstToken (name source : String) :
    let l := ofSource name source
    ∃ m ≤ source.toList.length, (∀ i < m, (l.token i).kind = .newline)
      ∧ (l.token m).kind ≠ .newline
      ∧ (startsWithPackage l.tokenize.1
        ↔ (l.token m).kind = .packageWord ∧ (l.token (m + 1)).kind = .identifier) := by
  intro l
  obtain ⟨n, hn, htokens, hkinds⟩ := tokensUpTo_spec (l := l) (Cursor.IsIn.start _)
    (Nat.lt_succ_self _)
  have hend : (l.token n).kind = .endOfInput := (hkinds n (Nat.le_refl n)).2 rfl
  have hexists : ∃ i, (l.token i).kind ≠ .newline := ⟨n, by rw [hend]; exact nofun⟩
  obtain ⟨m, hm, hnewlines⟩ : ∃ m, (l.token m).kind ≠ .newline
      ∧ ∀ i < m, (l.token i).kind = .newline :=
    ⟨Nat.find hexists, Nat.find_spec hexists, fun i hi => not_not.1 (Nat.find_min hexists hi)⟩
  have hle : m ≤ n := Nat.le_of_not_lt fun hlt => by
    have := hnewlines n hlt
    rw [hend] at this
    cases this
  refine ⟨m, hle.trans hn, hnewlines, hm, ?_⟩
  obtain ⟨k, rfl⟩ := Nat.exists_eq_add_of_le hle
  have hsplit : l.tokenize.1 = (List.range m).map l.token
      ++ (List.range (k + 1)).map (fun i => l.token (m + i)) := by
    rw [tokenize, htokens, Nat.add_assoc, List.range_add, List.map_append, List.map_map]
    rfl
  have hns : ∀ t ∈ (List.range m).map l.token, t.kind = .newline := fun t ht => by
    obtain ⟨i, hi, rfl⟩ := List.mem_map.1 ht
    exact hnewlines i (List.mem_range.1 hi)
  rw [hsplit, startsWithPackage_append hns]
  cases k with
  | zero =>
    -- all tokens are line ends, and the end of the input is neither word nor name
    rw [Nat.add_zero] at hend
    refine iff_of_false ?_ fun h => by rw [hend] at h; exact nomatch h.1
    rw [show (List.range (0 + 1)).map (fun i => l.token (m + i)) = [l.token m] from rfl,
      startsWithPackage_singleton hend]
    exact Bool.false_ne_true
  | succ k =>
    rw [List.range_succ_eq_map, List.range_succ_eq_map, List.map_cons, List.map_cons, List.map_cons]
    exact startsWithPackage_cons_cons hm

/-- **A file is read from a source exactly if it starts with a package clause.**
If it does not, an error is reported. -/
theorem run_sourceFile_ofSource (name source : String) :
    let r := sourceFile.run (.ofSource name source)
    (startsWithPackage (ofSource name source).tokenize.1 ∧ ∃ f, r.1 = some f)
      ∨ ¬startsWithPackage (ofSource name source).tokenize.1
        ∧ r.1 = none ∧ ∃ d ∈ r.2.diagnostics, d.isError := by
  dsimp only
  obtain ⟨m, hle, hnewlines, hm, hiff⟩ := exists_firstToken name source
  have hahead := keeps_leadingComments (skipNewlines.run (.ofSource name source)).2
  rw [run_skipNewlines_ofSource hle hnewlines hm] at hahead
  have hcurrent : ((streamAt (ofSource name source) m)).current
    = (ofSource name source).token m := rfl
  have hpeek : ((streamAt (ofSource name source) m)).peek
    = (ofSource name source).token (m + 1) := rfl
  have hrun := run_sourceFile (.ofSource name source)
  rw [run_skipNewlines_ofSource hle hnewlines hm] at hrun
  simp only [hahead.current, hahead.peek, hcurrent, hpeek] at hrun
  rcases hrun with ⟨hpackage, hname, hfile⟩ | ⟨hmissing, hnone, hreported⟩
  · exact .inl ⟨hiff.2 ⟨hpackage, hname⟩, hfile⟩
  · exact .inr ⟨mt hiff.1 hmissing, hnone, hreported⟩

/-- Reading a source without a package clause finds errors only. -/
theorem Outcome.diagnostics_noPackage {r : Reading} (h : ∀ d ∈ r.diagnostics, d.isError) :
    (Outcome.noPackage r).diagnostics = r.diagnostics := by
  rw [diagnostics, Diagnostic.errors]
  exact List.filter_eq_self.2 h

theorem Outcome.ofSource_noPackage {c : Config} {name source : String} {r : Reading}
    (h : SourceFile.read name source = .ok r) (hnone : r.file = none) :
    Outcome.ofSource c name source = .noPackage r := by
  simp only [ofSource, h, hnone]

theorem Outcome.ofSource_analysed {c : Config} {name source : String} {r : Reading}
    {f : SourceFile} {a : Analysis} (h : SourceFile.read name source = .ok r)
    (hfile : r.file = some f) (ha : Analysis.ofFile c f = .ok a) :
    Outcome.ofSource c name source = .analysed r a := by
  simp only [ofSource, h, hfile, ha]

/-- **The analysis of a source comes to its end.** Its result is a file without
a package clause exactly if the tokens do not start with one, and then what is
reported is exactly what reading the source has found wrong, and that is
something, all of it errors. Otherwise the source is read as a file, the analysis
of this file comes to its end, and what is reported is what both have found. In
every component detection finds its bindings without failing to look up an
element. -/
theorem Outcome.ofSource_completes (c : Config) (name : String) {source : String}
    (h : HasShortNumerals source.toList) :
    let outcome := Outcome.ofSource c name source
    let hasPackage := startsWithPackage (Lexer.ofSource name source).tokenize.1
    ((∃ r, outcome = .noPackage r) ↔ ¬hasPackage)
      ∧ (∀ r, outcome = .noPackage r → SourceFile.read name source = .ok r ∧ r.file = none
        ∧ outcome.diagnostics = r.diagnostics ∧ r.diagnostics ≠ []
        ∧ ∀ d ∈ r.diagnostics, d.isError)
      ∧ (hasPackage → ∃ r f a, SourceFile.read name source = .ok r ∧ r.file = some f
        ∧ Analysis.ofFile c f = .ok a ∧ outcome = .analysed r a
        ∧ outcome.diagnostics = r.diagnostics ++ a.diagnostics
        ∧ ∀ t ∈ a.components, ∃ visits,
          Detection.run c (t.stateVars.map (·.name)) (Naming.table c t.component.body)
              t.component.body = .ok visits
            ∧ visits.flatMap Visit.bindings = t.bindings) := by
  obtain ⟨r, hread, hfile, hdiagnostics, herrors, hshort⟩ := SourceFile.read_ok name h
  intro outcome hasPackage
  rcases run_sourceFile_ofSource name source with ⟨hpackage, f, hsome⟩ | ⟨hmissing, hnone, hreported⟩
  · obtain ⟨a, ha, hcomponents⟩ := Analysis.ofFile_ok (c := c) fun comp hcomp =>
      hshort f (hfile.trans hsome) comp hcomp
    have hanalysed : outcome = .analysed r a := ofSource_analysed hread (hfile.trans hsome) ha
    refine ⟨iff_of_false ?_ (not_not.2 hpackage), fun r' hr' => ?_,
      fun _ => ⟨r, f, a, hread, hfile.trans hsome, ha, hanalysed, ?_, ?_⟩⟩
    · rintro ⟨r', hr'⟩
      cases hanalysed.symm.trans hr'
    · cases hanalysed.symm.trans hr'
    · rw [hanalysed, diagnostics]
    · intro t ht
      rw [hcomponents] at ht
      obtain ⟨comp, -, rfl⟩ := List.mem_map.1 ht
      exact exists_detection _ _
  · have hnoPackage : outcome = .noPackage r := ofSource_noPackage hread (hfile.trans hnone)
    refine ⟨iff_of_true ⟨r, hnoPackage⟩ hmissing, fun r' hr' => ?_, fun hp => absurd hp hmissing⟩
    obtain rfl : r = r' := Outcome.noPackage.inj (hnoPackage.symm.trans hr')
    rw [hnoPackage]
    refine ⟨hread, hfile.trans hnone, Outcome.diagnostics_noPackage herrors, ?_, herrors⟩
    obtain ⟨d, hd, -⟩ := hreported
    rw [hdiagnostics]
    exact List.ne_nil_of_mem (List.mem_append_left _ hd)

/-- A package clause makes up a file, and a source without one has an error. -/
theorem Outcome.ofSource_clause :
    HasShortNumerals "\npackage a".toList ∧ HasShortNumerals "@component A() \x7b".toList
      ∧ (∃ r f a, SourceFile.read "" "\npackage a" = .ok r ∧ r.file = some f
        ∧ Outcome.ofSource .standard "" "\npackage a" = .analysed r a)
      ∧ ∃ r, Outcome.ofSource .standard "" "@component A() \x7b" = .noPackage r
        ∧ r.diagnostics ≠ [] := by
  have hshort : HasShortNumerals "\npackage a".toList := .of_length_le (by decide)
  have hshort' : HasShortNumerals "@component A() \x7b".toList := .of_length_le (by decide)
  obtain ⟨-, -, hanalysed⟩ := Outcome.ofSource_completes .standard "" hshort
  obtain ⟨hiff, hreported, -⟩ := Outcome.ofSource_completes .standard "" hshort'
  refine ⟨hshort, hshort', ?_, ?_⟩
  · obtain ⟨r, f, a, hread, hfile, -, houtcome, -⟩ := hanalysed (by decide)
    exact ⟨r, f, a, hread, hfile, houtcome⟩
  · obtain ⟨r, hr⟩ := hiff.2 (by decide)
    obtain ⟨-, -, -, hsome, -⟩ := hreported r hr
    exact ⟨r, hr, hsome⟩

end Gsx
