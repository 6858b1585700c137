import Gsx.Analysis.Result
import Gsx.Proofs.Failures
import Gsx.Proofs.Linking
/-!
# Analysing a file again

An analysis leaves marks in the file: components know whether they accept
children, expressions have become references, imports have been added. The
next analysis of the file starts from these. `Analysis.history` runs any number
of analyses on one file, each under its own settings, and the main statement is
that none of them can tell: each finds what it would find in the file as it was
read. The carrying fact is that preparing a file is done once, whatever imports
it has got since.
-/

namespace Gsx

/-! ## Preparing is done once -/

namespace SourceFile

theorem prepare_components (f : SourceFile) :
    f.prepare.components = f.components.map fun c => c.marked.link f.letNames := by
  simp only [prepare, link, markSlots, List.map_map]
  have h : (f.markSlots).letNames = f.letNames := by
    simp only [letNames, markSlots, List.flatMap_map]
    rfl
  exact congrArg (List.map · f.components) (funext fun c => by rw [← h]; rfl)

/-- A prepared file binds the names that the file binds. -/
theorem letNames_prepare (f : SourceFile) : f.prepare.letNames = f.letNames := by
  rw [letNames, prepare_components, List.flatMap_map, letNames]
  congr 1
  exact congrArg (List.flatMap · f.components)
    (funext fun c => by rw [Component.lets_link]; rfl)

/-- **Preparing is done once.** -/
theorem prepare_prepare (f : SourceFile) : f.prepare.prepare = f.prepare := by
  have h : f.prepare.prepare.components = f.prepare.components := by
    rw [prepare_components f.prepare, letNames_prepare, prepare_components, List.map_map]
    refine List.map_congr_left fun c _ => ?_
    rw [Function.comp_apply, Component.marked_link_marked, Component.link_link]
  calc f.prepare.prepare = { f with components := f.prepare.prepare.components } := rfl
    _ = { f with components := f.prepare.components } := by rw [h]
    _ = f.prepare := rfl

/-- Imports play no part in it. -/
theorem prepare_withImports (f : SourceFile) (paths : List String) :
    (f.withImports paths).prepare = f.prepare.withImports paths := rfl

theorem withImports_withImports (f : SourceFile) (ps qs : List String) :
    (f.withImports ps).withImports qs = f.withImports (ps ++ qs) := by
  simp [withImports]

theorem withImports_nil (f : SourceFile) : f.withImports [] = f := by
  simp [withImports]

theorem importsPath_eq (f : SourceFile) (path : String) :
    f.importsPath path = (f.imports.map (·.path)).contains path := by
  rw [importsPath, List.contains_eq_any_beq, List.any_map]
  refine congrArg (List.any f.imports) (funext fun i => ?_)
  exact ((Bool.beq_comm (a := path)).trans (Bool.beq_eq_decide_eq i.path path)).symm

theorem paths_withImports (f : SourceFile) (ps : List String) :
    (f.withImports ps).imports.map (·.path) = f.imports.map (·.path) ++ ps := by
  simp [withImports, Function.comp_def]

end SourceFile

/-! ## Missing imports -/

theorem firstOccurrences_filter (p : String → Bool) (names : List String) :
    firstOccurrences (names.filter p) = (firstOccurrences names).filter p := by
  induction names with
  | nil => rfl
  | cons name rest ih =>
    by_cases h : p name
    · simp [firstOccurrences, h, ih, List.filter_filter, Bool.and_comm]
    · have hne : ∀ x ∈ firstOccurrences rest, p x = true → x ≠ name := by
        rintro x - hx rfl
        exact h hx
      rw [List.filter_cons_of_neg h, ih, firstOccurrences, List.filter_cons_of_neg h,
        List.filter_filter]
      refine List.filter_congr fun x hx => ?_
      by_cases hp : p x
      · simp [hp, hne x hx hp]
      · simp [hp]

namespace PackageUse

/-- **What is missing** of a list of paths: those not imported, each once and
in the order in which they first occur. -/
theorem missing_eq (imported paths : List String) :
    missing imported paths = firstOccurrences (paths.filter fun p => !imported.contains p) := by
  induction paths generalizing imported with
  | nil => rfl
  | cons path rest ih =>
    by_cases h : imported.contains path
    · simp only [missing, h, if_true, ih, Bool.not_true, Bool.false_eq_true, not_false_eq_true,
        List.filter_cons_of_neg]
    · have hp : (!imported.contains path) = true := by simpa using h
      rw [missing, if_neg h, ih, List.filter_cons_of_pos (by exact hp), firstOccurrences,
        ← firstOccurrences_filter, List.filter_filter]
      refine congrArg (path :: firstOccurrences ·) (List.filter_congr fun p _ => ?_)
      by_cases hpp : p = path <;> simp [hpp]

/-- It matters which paths are imported, not in what order. -/
theorem missing_congr {imported imported' : List String}
    (h : ∀ p, imported.contains p = imported'.contains p) (paths : List String) :
    missing imported paths = missing imported' paths := by
  simp only [missing_eq, h]

/-- What is missing of two lists one after the other: what is missing of the
first, and then what is still missing of the second. -/
theorem missing_append (imported ps qs : List String) :
    missing imported (ps ++ qs)
      = missing imported ps ++ missing (imported ++ missing imported ps) qs := by
  induction ps generalizing imported with
  | nil => simp [missing]
  | cons path rest ih =>
    by_cases h : imported.contains path
    · simp only [List.cons_append, missing, h, if_true, ih]
    · simp only [List.cons_append, missing, if_neg h, ih]
      refine congrArg (path :: missing (path :: imported) rest ++ ·) (missing_congr (fun p => ?_) qs)
      -- the two lists of what is imported differ in the place of `path` only
      by_cases hpp : p = path <;> simp [hpp]

end PackageUse

/-! ## A history of analyses -/

namespace Analysis

/-- What an analysis finds, apart from the file that it leaves: the
diagnostics, the tables of the components, the bound names with their use, the
components that accept children, and the packages used. -/
structure Findings where
  diagnostics : List Diagnostic
  components : List ComponentTables
  lets : List (String × Bool)
  index : ComponentIndex
  uses : PackageUse

/-- The findings of an analysis. -/
def findings (a : Analysis) : Findings :=
  ⟨a.diagnostics, a.components, a.lets, a.index, a.uses⟩

/-- One analysis of a file that stays in use: its result, and the file as it
leaves it. An analysis that meets a number it cannot compute has prepared the
file by then and adds no import. -/
def step (c : Config) (f : SourceFile) : Except NumberError Analysis × SourceFile :=
  match ofFile c f with
  | .ok a => (.ok a, a.file)
  | .error e => (.error e, f.prepare)

/-- Analyses of one file, one after the other: their results, and the file as
the last one leaves it. -/
def history : List Config → SourceFile → List (Except NumberError Analysis) × SourceFile
  | [], f => ([], f)
  | c :: cs, f =>
    let (result, f) := step c f
    let (results, f) := history cs f
    (result :: results, f)

/-- The import paths that a file requires under some settings, in order: for each
package that the analysis finds in use, the path that the settings have for it. -/
def required (f : SourceFile) (c : Config) : List String :=
  match ofFile c f with
  | .ok a =>
    ([(a.uses.element, c.elementImport), (a.uses.layout, c.layoutImport),
      (a.uses.tui, c.tuiImport)].filter (·.1)).map (·.2)
  | .error _ => []

theorem required_of_ok {c : Config} {f : SourceFile} {a : Analysis} (h : ofFile c f = .ok a) :
    required f c = a.uses.paths c := by
  rw [required, h]
  cases he : a.uses.element <;> cases hl : a.uses.layout <;> cases ht : a.uses.tui
    <;> simp [PackageUse.paths, he, hl, ht]

theorem required_of_error {c : Config} {f : SourceFile} {e : NumberError}
    (h : ofFile c f = .error e) : required f c = [] := by
  rw [required, h]

/-- **What a file requires**: the path of a package that the analysis finds in use. -/
theorem mem_required {c : Config} {f : SourceFile} {path : String} :
    path ∈ required f c ↔ ∃ a, ofFile c f = .ok a
      ∧ (a.uses.element ∧ path = c.elementImport ∨ a.uses.layout ∧ path = c.layoutImport
        ∨ a.uses.tui ∧ path = c.tuiImport) := by
  cases h : ofFile c f with
  | error e => simp [required_of_error h]
  | ok a =>
    rw [required_of_ok h]
    simp [PackageUse.paths, List.mem_ite_nil_right]

/-- **A prepared file gives the findings of the file**, with more imports or
without. -/
theorem findings_prepare (c : Config) (f : SourceFile) (ps : List String) :
    (ofFile c (f.prepare.withImports ps)).map findings = (ofFile c f).map findings := by
  have hp : (f.prepare.withImports ps).prepare = f.prepare.withImports ps := by
    rw [SourceFile.prepare_withImports, SourceFile.prepare_prepare]
  -- the checks do not read the imports
  have hv : Validation.componentFindings ⟨c, .ofFile (f.prepare.withImports ps),
        (f.prepare.withImports ps).name⟩ (f.prepare.withImports ps).components
      = Validation.componentFindings ⟨c, .ofFile f.prepare, f.prepare.name⟩
        f.prepare.components := rfl
  simp only [ofFile, hp, hv]
  cases Validation.componentFindings ⟨c, .ofFile f.prepare, f.prepare.name⟩
      f.prepare.components <;> rfl

/-- An analysis leaves the prepared file, with the imports that it lacks. -/
theorem file_of_ofFile {c : Config} {f : SourceFile} {a : Analysis} (h : ofFile c f = .ok a) :
    a.file = f.prepare.withImports
      (PackageUse.missing (f.imports.map (·.path)) (a.uses.paths c)) := by
  obtain ⟨found, -, h⟩ := bind_eq_ok_iff.1 h
  cases h
  rfl

/-- What a file requires is read off its findings. -/
theorem required_congr {c : Config} {f g : SourceFile}
    (h : (ofFile c f).map findings = (ofFile c g).map findings) :
    required f c = required g c := by
  cases hf : ofFile c f with
  | error e =>
    cases hg : ofFile c g with
    | error e' => rw [required_of_error hf, required_of_error hg]
    | ok b =>
      rw [hf, hg] at h
      cases h
  | ok a =>
    cases hg : ofFile c g with
    | error e' =>
      rw [hf, hg] at h
      cases h
    | ok b =>
      rw [hf, hg] at h
      have hab : a.findings = b.findings := Except.ok.inj h
      rw [required_of_ok hf, required_of_ok hg]
      exact congrArg (fun x : Findings => x.uses.paths c) hab

/-- **One step**: whatever it finds, it leaves the prepared file with the
required imports that were missing. -/
theorem step_file (c : Config) (f : SourceFile) :
    (step c f).2 = f.prepare.withImports
      (PackageUse.missing (f.imports.map (·.path)) (required f c)) := by
  cases h : ofFile c f with
  | error e =>
    simp only [step, h, required_of_error h]
    exact (SourceFile.withImports_nil f.prepare).symm
  | ok a =>
    simp only [step, h, required_of_ok h]
    exact file_of_ofFile h

theorem step_result (c : Config) (f : SourceFile) : (step c f).1 = ofFile c f := by
  simp only [step]
  cases ofFile c f <;> rfl

/-- A step on a prepared file only adds imports. -/
theorem step_prepare (c : Config) (f : SourceFile) (ps : List String) :
    (step c (f.prepare.withImports ps)).2 = f.prepare.withImports
      (ps ++ PackageUse.missing (f.imports.map (·.path) ++ ps) (required f c)) := by
  -- what is required is read off the findings, which do not change
  rw [step_file, SourceFile.prepare_withImports, SourceFile.prepare_prepare,
    required_congr (findings_prepare c f ps), SourceFile.paths_withImports,
    SourceFile.withImports_withImports]
  rfl

/-- The run from a prepared file: the findings are those of the file, and only
imports are added. -/
theorem history_prepare (cs : List Config) (f : SourceFile) (ps : List String) :
    (history cs (f.prepare.withImports ps)).1.map (Except.map findings)
        = cs.map (fun c => (ofFile c f).map findings)
      ∧ (history cs (f.prepare.withImports ps)).2 = f.prepare.withImports
          (ps ++ PackageUse.missing (f.imports.map (·.path) ++ ps) (cs.flatMap (required f))) := by
  induction cs generalizing ps with
  | nil => simp [history, PackageUse.missing]
  | cons c cs ih =>
    have hstep := step_prepare c f ps
    -- the imports added so far are carried along
    obtain ⟨hresults, hfile⟩ :=
      ih (ps ++ PackageUse.missing (f.imports.map (·.path) ++ ps) (required f c))
    simp only [history, hstep, List.map_cons, List.flatMap_cons]
    refine ⟨?_, ?_⟩
    · rw [step_result, findings_prepare, hresults]
    · rw [hfile, PackageUse.missing_append]
      simp only [List.append_assoc]

/-- The run from any file. -/
theorem history_eq (cs : List Config) (f : SourceFile) :
    (history cs f).1.map (Except.map findings) = cs.map (fun c => (ofFile c f).map findings)
      ∧ (history cs f).2.imports
        = (f.withImports (PackageUse.missing (f.imports.map (·.path))
            (cs.flatMap (required f)))).imports := by
  cases cs with
  | nil => simp [history, PackageUse.missing, SourceFile.withImports_nil]
  | cons c cs =>
    obtain ⟨hresults, hfile⟩ :=
      history_prepare cs f (PackageUse.missing (f.imports.map (·.path)) (required f c))
    simp only [history, step_file, step_result, List.map_cons, List.flatMap_cons]
    refine ⟨by rw [hresults], ?_⟩
    rw [hfile, PackageUse.missing_append]
    rfl

/-- After the first analysis the components stay as they are. -/
theorem history_components (c : Config) (cs : List Config) (f : SourceFile) :
    (history (c :: cs) f).2.components = f.prepare.components := by
  have hfile := (history_prepare cs f
    (PackageUse.missing (f.imports.map (·.path)) (required f c))).2
  simp only [history, step_file, hfile]
  rfl

/-- **Analysis does not depend on history.** Any number of analyses of one
file, each under its own settings: every one of them finds what it finds in the
file as it was read. The components are those that the first analysis leaves,
and the imports are those of the file, followed by the required paths that it
lacks, each once, in the order in which the analyses first require them. What an
analysis requires is the path of each of the packages that it finds in use. -/
theorem history_independent (f : SourceFile) (cs : List Config) :
    let added := firstOccurrences ((cs.flatMap (required f)).filter fun p => !f.importsPath p)
    (history cs f).1.map (Except.map findings) = cs.map (fun c => (ofFile c f).map findings)
      ∧ (∀ c, (history (c :: cs) f).2.components = (step c f).2.components)
      ∧ (history cs f).2.imports
        = f.imports ++ added.map (fun path => ⟨"", path, .nowhere, none⟩)
      ∧ (∀ path, path ∈ added ↔ path ∉ f.imports.map (·.path) ∧ ∃ c ∈ cs, ∃ a, ofFile c f = .ok a
        ∧ (a.uses.element ∧ path = c.elementImport ∨ a.uses.layout ∧ path = c.layoutImport
          ∨ a.uses.tui ∧ path = c.tuiImport))
      ∧ added.Nodup := by
  intro added
  obtain ⟨hresults, himports⟩ := history_eq cs f
  refine ⟨hresults, fun c => ?_, ?_, fun path => ?_, nodup_firstOccurrences _⟩
  · rw [history_components, step_file]
    rfl
  · rw [himports, PackageUse.missing_eq]
    simp only [← SourceFile.importsPath_eq]
    rfl
  · simp only [added, mem_firstOccurrences, List.mem_filter, List.mem_flatMap, mem_required,
      SourceFile.importsPath_eq, Bool.not_eq_true', List.contains_eq_mem, decide_eq_false_iff_not]
    exact and_comm

end Analysis

end Gsx
