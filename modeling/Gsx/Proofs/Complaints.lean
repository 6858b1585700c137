import Gsx.Proofs.FileSites
import Gsx.Proofs.Stretches
/-!
# What validation complains of

A complaint is about a node: its tag, its children, one of its attributes, or one
word of a class list. `Complaint.Holds` says of a complaint, from the file and the
settings alone, whether there is a reason for it. Validation lists the complaints
that hold, each once, node by node in the order of the document and from the front
of a node to its end.

A call asks only what its component looks like, the last one of the name, and not
where that component stands; so it does not matter whether it is declared before
the call or behind it.
-/

namespace Gsx

/-! ## Complaints -/

namespace Validation

/-- What a complaint about a node is about: its tag, its children, an attribute by
its number, or a word of the class list that an attribute is, by its start. -/
inductive Subject where
  | tag
  | children
  | attributeName (i : Nat)
  | word (i start : Nat)
  deriving DecidableEq, Repr

/-- The place of a subject among those of a node. -/
def Subject.rank : Subject → Nat × Nat
  | .tag => (0, 0)
  | .children => (1, 0)
  | .attributeName i => (i + 2, 0)
  | .word i start => (i + 2, start)

/-- The order of the subjects of a node. -/
def Subject.Before (x y : Subject) : Prop :=
  Prod.Lex (· < ·) (· < ·) x.rank y.rank

/-- A complaint about a node, and what is said of it. -/
structure Complaint where
  way : Way
  subject : Subject
  diagnostic : Diagnostic
  deriving Repr

/-- **The order of complaints**: that of their nodes, and for one node that of its
subjects. -/
def Complaint.Before (x y : Complaint) : Prop :=
  x.way.Before y.way ∨ x.way = y.way ∧ x.subject.Before y.subject

/-- The hint for an unknown attribute: a correction that is no empty text, where
the table of misspelt attributes has one for the name in lower case. -/
def IsAttributeHint (c : Config) (name hint : String) : Prop :=
  (∃ right, c.attributeTypos.lookup (Unicode.lower name) = some right ∧ right ≠ ""
      ∧ hint = "did you mean " ++ right ++ "?")
    ∨ (∀ right, c.attributeTypos.lookup (Unicode.lower name) = some right → right = "")
      ∧ hint = ""

/-- The hint for an unknown class: a class like it, if there is one. -/
def classHint (word : String) : String :=
  if Text.trim word = "" ∨ suggestClass (Text.trim word) = "" then ""
  else "did you mean \"" ++ suggestClass (Text.trim word) ++ "\"?"

/-- The characters of the words in a class list. -/
def isClassChar (c : Char) : Bool :=
  c != ' ' && c != '\t'

/-- **The complaints that hold** of a file under some settings. -/
inductive Complaint.Holds (c : Config) (f : SourceFile) : Complaint → Prop
  | unknownTag {way : Way} {e : ElementHead} {cs : List Node} :
      f.HasElement way e cs → e.tag ∉ c.knownTags →
      Holds c f ⟨way, .tag, .error f.name e.position ("unknown element tag <" ++ e.tag ++ ">")⟩
  | voidChildren {way : Way} {e : ElementHead} {cs : List Node} :
      f.HasElement way e cs → e.tag ∈ c.voidTags → cs ≠ [] →
      Holds c f ⟨way, .children, .error f.name e.position
        ("<" ++ e.tag ++ "> is a void element and cannot have children")⟩
  | passedChildren {way : Way} {h : CallHead} {cs : List Node} :
      f.at? way = some (.call h cs) → cs ≠ [] → f.Refuses h.name →
      Holds c f ⟨way, .children, .error f.name h.position ("component " ++ h.name
        ++ " does not accept children (no \x7bchildren...\x7d slot in definition)")⟩
  | unknownAttribute {way : Way} {e : ElementHead} {cs : List Node} {i : Nat} {a : Attribute}
      {hint : String} :
      f.HasElement way e cs → e.attributes[i]? = some a → a.name ∉ c.knownAttributes →
      IsAttributeHint c a.name hint →
      Holds c f ⟨way, .attributeName i,
        ⟨.error, f.name, a.position, none, "unknown attribute " ++ a.name, hint⟩⟩
  | unknownWord {way : Way} {e : ElementHead} {cs : List Node} {i : Nat} {a : Attribute} {v : String}
      {p : Position} {start : Nat} {word : List Char} :
      f.HasElement way e cs → e.attributes[i]? = some a → a.name ∈ c.knownAttributes →
      a.name = "class" → a.value = .string v p → c.validateClasses = true →
      Text.IsStretch isClassChar v.toList ⟨start, word⟩ →
      ClassMapping.ofClass? (String.ofList word) = .ok none →
      Holds c f ⟨way, .word i start,
        ⟨.error, f.name, a.valuePosition.shifted start,
          some (a.valuePosition.shifted (start + word.length)),
          "unknown Tailwind class \"" ++ String.ofList word ++ "\"",
          classHint (String.ofList word)⟩⟩

/-- **A class whose number cannot be computed**: a stretch of a class list in the
file, and why its number cannot be. -/
def Obstructed (c : Config) (f : SourceFile) (e : NumberError) : Prop :=
  ∃ way head cs a v p word, f.HasElement way head cs ∧ a ∈ head.attributes
    ∧ a.name ∈ c.knownAttributes ∧ a.name = "class" ∧ a.value = .string v p
    ∧ word <:+: v.toList ∧ ClassMapping.ofClass? (String.ofList word) = .error e

end Validation

/-! ## The complaints of a node -/

namespace Validation

/-- Whether a word of a class list has no meaning. -/
def isUnknownWord (run : Text.Run) : Bool :=
  match ClassMapping.ofClass? (String.ofList run.text) with
  | .ok none => true
  | _ => false

/-- The complaint about a word. -/
def wordDiagnostic (file : String) (start : Position) (run : Text.Run) : Diagnostic :=
  ⟨.error, file, start.shifted run.start, some (start.shifted (run.start + run.text.length)),
    "unknown Tailwind class \"" ++ String.ofList run.text ++ "\"",
    classHint (String.ofList run.text)⟩

/-- The complaints about an attribute with the number `i`. -/
def attributeComplaints (r : Rules) (i : Nat) (a : Attribute) : List (Subject × Diagnostic) :=
  if r.config.isKnownAttribute a.name then
    match classText? r.config a with
    | some v =>
      if r.config.validateClasses then
        ((Text.runsFrom isClassChar 0 v.toList).filter isUnknownWord).map fun run =>
          (.word i run.start, wordDiagnostic r.fileName a.valuePosition run)
      else []
    | none => []
  else [(.attributeName i, attributeError r a)]

/-- The complaints about the tag and the children of an element. -/
def tagComplaints (r : Rules) (e : ElementHead) (cs : List Node) : List (Subject × Diagnostic) :=
  (if r.config.isKnownTag e.tag then []
    else [(.tag, .error r.fileName e.position ("unknown element tag <" ++ e.tag ++ ">"))])
  ++ (if r.config.isVoidTag e.tag && !cs.isEmpty then
      [(.children, .error r.fileName e.position
        ("<" ++ e.tag ++ "> is a void element and cannot have children"))]
    else [])

/-- The complaints about the attributes of an element. -/
def attributesComplaints (r : Rules) (e : ElementHead) : List (Subject × Diagnostic) :=
  e.attributes.zipIdx.flatMap fun p => attributeComplaints r p.2 p.1

/-- The complaints about a node. -/
def nodeComplaints (r : Rules) : Node → List (Subject × Diagnostic)
  | .element e cs | .letBinding _ e cs => tagComplaints r e cs ++ attributesComplaints r e
  | .call h cs => (callErrors r h cs).map fun d => (.children, d)
  | _ => []

/-- The complaints of a file. -/
def complaints (c : Config) (f : SourceFile) : List Complaint :=
  f.located.flatMap fun p =>
    (nodeComplaints (Analysis.rulesOf c f) p.2.node).map fun q => ⟨p.1, q.1, q.2⟩

/-! ## What the checks find -/

section
variable {r : Rules}

/-- A word of blanks has no meaning. -/
theorem ofClass?_of_blank {word : String} (h : Text.trim word = "") :
    ClassMapping.ofClass? word = .ok none := by
  rw [ClassMapping.ofClass?, h]
  decide

theorem ofClass?_trim (word : String) :
    ClassMapping.ofClass? (Text.trim word) = ClassMapping.ofClass? word := by
  rw [ClassMapping.ofClass?, ClassMapping.ofClass?, Text.trim_trim]

/-- The verdict on a word says whether it has a meaning, and what to write instead. -/
theorem ofClass_eq {word : String} {check : ClassCheck} (h : ClassCheck.ofClass word = .ok check) :
    (check.valid = true ∧ check.suggestion = ""
        ∧ ∃ m, ClassMapping.ofClass? word = .ok (some m))
      ∨ check.valid = false ∧ ClassMapping.ofClass? word = .ok none
        ∧ check.suggestion = if Text.trim word = "" then "" else suggestClass (Text.trim word) := by
  rw [ClassCheck.ofClass] at h
  by_cases hblank : Text.trim word = ""
  · rw [if_pos hblank] at h
    cases h
    exact .inr ⟨rfl, ofClass?_of_blank hblank, by rw [if_pos hblank]⟩
  · rw [if_neg hblank, ofClass?_trim] at h
    rw [if_neg hblank]
    obtain ⟨m, hclass, h⟩ := bind_eq_ok_iff.1 h
    cases m with
    | some m => cases h; exact .inl ⟨rfl, rfl, m, hclass⟩
    | none => cases h; exact .inr ⟨rfl, hclass, rfl⟩

/-- A word that is not checked has a number that cannot be computed. -/
theorem ofClass?_of_error {word : String} {e : NumberError}
    (h : ClassCheck.ofClass word = .error e) : ClassMapping.ofClass? word = .error e := by
  rw [ClassCheck.ofClass] at h
  by_cases hblank : Text.trim word = ""
  · rw [if_pos hblank] at h
    cases h
  · rw [if_neg hblank, ofClass?_trim] at h
    rcases bind_eq_error_iff.1 h with hclass | ⟨m, -, h⟩
    · exact hclass
    · cases m <;> cases h

/-- **A checked word** is at fault if it has no meaning, and then the complaint about
it is made. -/
theorem classError_eq {run : Text.Run} {placed : PlacedClass} (start : Position)
    (h : (do
      let check ← ClassCheck.ofClass (String.ofList run.text)
      return (⟨{ check with cls := String.ofList run.text }, 0 + run.start,
        0 + run.start + run.text.length⟩ : PlacedClass)) = Except.ok placed) :
    (!placed.check.valid) = isUnknownWord run
      ∧ (isUnknownWord run = true →
        classError r start placed = wordDiagnostic r.fileName start run) := by
  obtain ⟨check, hcheck, h⟩ := bind_eq_ok_iff.1 h
  cases h
  rcases ofClass_eq hcheck with ⟨hvalid, -, m, hclass⟩ | ⟨hvalid, hclass, hsuggestion⟩
  · have hknown : isUnknownWord run = false := by rw [isUnknownWord, hclass]
    rw [hvalid, hknown]
    exact ⟨rfl, nofun⟩
  · have hunknown : isUnknownWord run = true := by rw [isUnknownWord, hclass]
    refine ⟨by rw [hvalid, hunknown]; rfl, fun _ => ?_⟩
    have hhint : (if check.suggestion = "" then ""
        else "did you mean \"" ++ check.suggestion ++ "\"?") = classHint (String.ofList run.text) := by
      rw [hsuggestion, classHint]
      by_cases hblank : Text.trim (String.ofList run.text) = ""
      · rw [if_pos hblank, if_pos rfl, if_pos (.inl hblank)]
      · simp only [hblank, false_or, if_false]
    simp only [classError, wordDiagnostic, hhint, Int.zero_add]

/-- **The check of an attribute** finds what is to be complained of. -/
theorem attributeFindings_eq {a : Attribute} {found : List Diagnostic × Bool} (i : Nat)
    (h : attributeFindings r a = .ok found) :
    found.1 = (attributeComplaints r i a).map Prod.snd := by
  rcases attributeFindings_cases h with
    ⟨hunknown, rfl⟩ | ⟨hknown, hclasses, rfl⟩ | ⟨v, translated, ds, hknown, hclasses, -, herrors, rfl⟩
  · rw [attributeComplaints, if_neg hunknown]
    rfl
  · rw [attributeComplaints, if_pos hknown, hclasses]
    rfl
  · rw [attributeComplaints, if_pos hknown, hclasses]
    rcases classErrors_cases herrors with ⟨hvalidate, placed, hplaced, rfl⟩ | ⟨hvalidate, rfl⟩
    · simp only [if_pos hvalidate, List.map_map]
      exact filter_map_of_mapM hplaced fun run placed hrun => classError_eq a.valuePosition hrun
    · simp only [if_neg hvalidate]
      rfl

/-- What is said about an attribute does not depend on its number. -/
theorem map_attributeComplaints (i j : Nat) (a : Attribute) :
    (attributeComplaints r i a).map Prod.snd = (attributeComplaints r j a).map Prod.snd := by
  unfold attributeComplaints
  split
  · split
    · split
      · simp only [List.map_map]
        rfl
      · rfl
    · rfl
  · rfl

theorem map_attributesComplaints (e : ElementHead) :
    (attributesComplaints r e).map Prod.snd
      = e.attributes.flatMap fun a => (attributeComplaints r 0 a).map Prod.snd := by
  have hnumbered : e.attributes = e.attributes.zipIdx.map Prod.fst :=
    (List.zipIdx_map_fst 0 e.attributes).symm
  rw [attributesComplaints, List.map_flatMap]
  conv_rhs => rw [hnumbered, List.flatMap_map]
  exact List.flatMap_congr fun p _ => map_attributeComplaints p.2 0 p.1

theorem tagErrors_eq (e : ElementHead) (cs : List Node) :
    tagErrors r e cs = (tagComplaints r e cs).map Prod.snd := by
  rw [tagErrors, tagComplaints, List.map_append]
  refine congrArg₂ _ ?_ ?_
  · split <;> rfl
  · split <;> rfl

theorem elementFindings_eq {e : ElementHead} {cs : List Node} {found : List Diagnostic × Bool}
    (h : elementFindings r e cs = .ok found) :
    found.1 = (tagComplaints r e cs ++ attributesComplaints r e).map Prod.snd := by
  obtain ⟨attributes, hattributes, rfl⟩ := exists_of_elementFindings h
  have heach : attributes.map (·.1)
      = e.attributes.map fun a => (attributeComplaints r 0 a).map Prod.snd :=
    map_of_mapM hattributes fun a found hfound => attributeFindings_eq 0 hfound
  have hall : attributes.flatMap (·.1) = (attributesComplaints r e).map Prod.snd := by
    rw [List.flatMap_def, heach, ← List.flatMap_def, map_attributesComplaints]
  show tagErrors r e cs ++ attributes.flatMap (·.1) = _
  rw [List.map_append, tagErrors_eq, hall]

/-- **The check of a site** finds what is to be complained of. -/
theorem siteFindings_eq {s : Site} {found : List Diagnostic × Bool}
    (h : siteFindings r s = .ok found) : found.1 = (nodeComplaints r s.node).map Prod.snd := by
  obtain ⟨node, l, c⟩ := s
  cases node with
  | element e cs => exact elementFindings_eq h
  | letBinding head e cs => exact elementFindings_eq h
  | call head cs =>
    cases h
    show callErrors r head cs = _
    rw [nodeComplaints, List.map_map]
    exact (List.map_id' _).symm
  | forLoop | conditional | slot | expression | letReference | text | goCode =>
    cases h
    rfl

/-- Linking takes nothing away from what there is to complain of. -/
theorem nodeComplaints_link (names : List String) (n : Node) :
    nodeComplaints r (n.link names) = nodeComplaints r n := by
  have hempty : ∀ cs : List Node, (Node.linkAll names cs).isEmpty = cs.isEmpty := by
    intro cs
    rw [Node.linkAll_eq_map, List.isEmpty_map]
  cases n with
  | element e cs | letBinding h e cs =>
    simp only [Node.link, nodeComplaints, tagComplaints, hempty]
  | call h cs => simp only [Node.link, nodeComplaints, callErrors, hempty]
  | expression e => cases hreference : e.reference? names <;> simp [Node.link, nodeComplaints, hreference]
  | forLoop | conditional | slot | letReference | text | goCode => rfl

end

/-- The sites that validation goes through are those of the file, linked. -/
theorem flatMap_sites_prepare (f : SourceFile) :
    f.prepare.components.flatMap Component.sites
      = (f.components.flatMap Component.sites).map (Site.link f.letNames) := by
  rw [SourceFile.prepare_components, List.flatMap_map, List.map_flatMap]
  exact congrArg (List.flatMap · f.components) (funext fun comp => Component.sites_link _ _)

/-- **Validation lists the complaints of the file.** -/
theorem findings_eq {c : Config} {f : SourceFile}
    (h : Checks (Analysis.rulesOf c f) f.prepare.components) :
    ((f.prepare.components.flatMap Component.sites).flatMap fun s =>
        (findingsAt (Analysis.rulesOf c f) s).1)
      = (complaints c f).map (·.diagnostic) := by
  have hsite : ∀ s ∈ f.prepare.components.flatMap Component.sites,
      (findingsAt (Analysis.rulesOf c f) s).1
        = (nodeComplaints (Analysis.rulesOf c f) s.node).map Prod.snd := by
    intro s hs
    obtain ⟨found, hfound⟩ := h s hs
    rw [findingsAt, hfound]
    exact siteFindings_eq hfound
  calc ((f.prepare.components.flatMap Component.sites).flatMap fun s =>
          (findingsAt (Analysis.rulesOf c f) s).1)
      = (f.prepare.components.flatMap Component.sites).flatMap fun s =>
          (nodeComplaints (Analysis.rulesOf c f) s.node).map Prod.snd := List.flatMap_congr hsite
    _ = (f.components.flatMap Component.sites).flatMap fun s =>
          (nodeComplaints (Analysis.rulesOf c f) s.node).map Prod.snd := by
        rw [flatMap_sites_prepare, List.flatMap_map]
        refine List.flatMap_congr fun s _ => ?_
        show (nodeComplaints _ (s.node.link f.letNames)).map _ = _
        rw [nodeComplaints_link]
    _ = (complaints c f).map (·.diagnostic) := by
        rw [complaints, ← SourceFile.map_locatedFrom 0, List.flatMap_map, List.map_flatMap]
        refine List.flatMap_congr fun p _ => ?_
        rw [List.map_map]
        rfl

/-! ## The order of the complaints -/

section
variable {r : Rules}

/-- The complaints about an attribute are about it, and they ascend. -/
theorem pairwise_attributeComplaints (i : Nat) (a : Attribute) :
    ((attributeComplaints r i a).map Prod.fst).Pairwise Subject.Before
      ∧ ∀ subject ∈ (attributeComplaints r i a).map Prod.fst, subject.rank.1 = i + 2 := by
  unfold attributeComplaints
  split
  · split
    · next v _ =>
      split
      · rw [List.map_map]
        constructor
        · rw [List.pairwise_map]
          refine ((Text.pairwise_runsFrom isClassChar 0 v.toList).filter _).imp fun hlt => ?_
          exact Prod.Lex.right (i + 2) ((Nat.le_add_right _ _).trans_lt hlt)
        · intro subject hsubject
          obtain ⟨run, -, rfl⟩ := List.mem_map.1 hsubject
          rfl
      · exact ⟨.nil, nofun⟩
    · exact ⟨.nil, nofun⟩
  · refine ⟨List.pairwise_singleton _ _, fun subject hsubject => ?_⟩
    obtain rfl := List.mem_singleton.1 hsubject
    rfl

theorem pairwise_attributesComplaints (e : ElementHead) :
    ((attributesComplaints r e).map Prod.fst).Pairwise Subject.Before
      ∧ ∀ subject ∈ (attributesComplaints r e).map Prod.fst, 2 ≤ subject.rank.1 := by
  rw [attributesComplaints, List.map_flatMap, List.pairwise_flatMap]
  refine ⟨⟨fun p _ => (pairwise_attributeComplaints p.2 p.1).1, ?_⟩, fun subject hsubject => ?_⟩
  · have hnumbers : (e.attributes.zipIdx).Pairwise fun p q => p.2 < q.2 := by
      rw [← List.pairwise_map (f := Prod.snd), List.zipIdx_map_snd]
      exact List.pairwise_lt_range' 1
    refine hnumbers.imp fun {p q} hlt x hx y hy => ?_
    have hx := (pairwise_attributeComplaints p.2 p.1).2 x hx
    have hy := (pairwise_attributeComplaints q.2 q.1).2 y hy
    exact Prod.lex_def.2 (.inl (by omega))
  · obtain ⟨p, -, hsubject⟩ := List.mem_flatMap.1 hsubject
    have := (pairwise_attributeComplaints p.2 p.1).2 subject hsubject
    omega

theorem pairwise_tagComplaints (e : ElementHead) (cs : List Node) :
    ((tagComplaints r e cs).map Prod.fst).Pairwise Subject.Before
      ∧ ∀ subject ∈ (tagComplaints r e cs).map Prod.fst, subject.rank.1 < 2 := by
  have hbefore : Subject.Before .tag .children := Prod.Lex.left _ _ Nat.zero_lt_one
  unfold tagComplaints
  split <;> split <;> simp [hbefore, Subject.rank]

/-- **The complaints about a node ascend.** -/
theorem pairwise_nodeComplaints (n : Node) :
    ((nodeComplaints r n).map Prod.fst).Pairwise Subject.Before := by
  have helement : ∀ (e : ElementHead) (cs : List Node),
      ((tagComplaints r e cs ++ attributesComplaints r e).map Prod.fst).Pairwise
        Subject.Before := by
    intro e cs
    obtain ⟨htag, hlow⟩ := pairwise_tagComplaints (r := r) e cs
    obtain ⟨hattributes, hhigh⟩ := pairwise_attributesComplaints (r := r) e
    rw [List.map_append, List.pairwise_append]
    refine ⟨htag, hattributes, fun x hx y hy => Prod.lex_def.2 (.inl ?_)⟩
    have hx := hlow x hx
    have hy := hhigh y hy
    omega
  cases n with
  | element e cs => exact helement e cs
  | letBinding h e cs => exact helement e cs
  | call h cs =>
    rw [nodeComplaints, callErrors]
    split
    · exact List.pairwise_singleton _ _
    · exact .nil
  | forLoop | conditional | slot | expression | letReference | text | goCode => exact .nil

end

/-- **The complaints of a file ascend**, so none of them is listed twice. -/
theorem pairwise_complaints (c : Config) (f : SourceFile) :
    (complaints c f).Pairwise Complaint.Before := by
  rw [complaints, List.pairwise_flatMap]
  constructor
  · intro p _
    have := pairwise_nodeComplaints (r := Analysis.rulesOf c f) p.2.node
    rw [List.pairwise_map] at this ⊢
    exact this.imp fun hbefore => .inr ⟨rfl, hbefore⟩
  · have hways := f.pairwise_located
    rw [List.pairwise_map] at hways
    refine hways.imp fun {p q} hbefore x hx y hy => ?_
    obtain ⟨_, -, rfl⟩ := List.mem_map.1 hx
    obtain ⟨_, -, rfl⟩ := List.mem_map.1 hy
    exact .inl hbefore

/-! ## The complaints that hold -/

section
variable {c : Config} {f : SourceFile} {x : Complaint}

theorem mem_complaints_iff :
    x ∈ complaints c f ↔ ∃ n, f.at? x.way = some n
      ∧ (x.subject, x.diagnostic) ∈ nodeComplaints (Analysis.rulesOf c f) n := by
  obtain ⟨way, subject, d⟩ := x
  rw [complaints, List.mem_flatMap]
  constructor
  · rintro ⟨⟨way', s⟩, hmem, hx⟩
    obtain ⟨⟨subject', d'⟩, hcomplaint, heq⟩ := List.mem_map.1 hx
    cases heq
    exact ⟨s.node, SourceFile.exists_located_iff.1 ⟨s, hmem, rfl⟩, hcomplaint⟩
  · rintro ⟨n, hn, hcomplaint⟩
    obtain ⟨s, hmem, rfl⟩ := SourceFile.exists_located_iff.2 hn
    exact ⟨(way, s), hmem, List.mem_map.2 ⟨_, hcomplaint, rfl⟩⟩

theorem isAttributeHint_iff {name hint : String} :
    IsAttributeHint c name hint ↔ hint = if c.suggestAttribute name = "" then ""
      else "did you mean " ++ c.suggestAttribute name ++ "?" := by
  rw [IsAttributeHint, Config.suggestAttribute]
  cases hlookup : c.attributeTypos.lookup (Unicode.lower name) with
  | none => simp
  | some right =>
    by_cases hempty : right = ""
    · simp [hempty]
    · simp [hempty]

theorem classText?_eq_some_iff {a : Attribute} {v : String} :
    classText? c a = some v ↔ a.name ∈ c.knownAttributes ∧ a.name = "class"
      ∧ ∃ p, a.value = .string v p := by
  have htest : (c.isKnownAttribute a.name && decide (a.name = "class")) = true
      ↔ a.name ∈ c.knownAttributes ∧ a.name = "class" := by
    rw [Config.isKnownAttribute, Bool.and_eq_true, List.contains_iff_mem, decide_eq_true_eq]
  rw [classText?]
  by_cases hclass : a.name ∈ c.knownAttributes ∧ a.name = "class"
  · rw [if_pos (htest.2 hclass)]
    cases hvalue : a.value with
    | string v' p =>
      simp only [hclass.2 ▸ hclass.1, hclass.2, true_and, Option.some.injEq,
        AttributeValue.string.injEq, exists_and_left, exists_eq', and_true]
    | int | float | bool | expression => simp
  · rw [if_neg (mt htest.1 hclass)]
    refine iff_of_false nofun ?_
    rintro ⟨hknown, hname, -⟩
    exact hclass ⟨hknown, hname⟩

theorem isUnknownWord_iff {run : Text.Run} :
    isUnknownWord run = true ↔ ClassMapping.ofClass? (String.ofList run.text) = .ok none := by
  rw [isUnknownWord]
  split
  · next h => exact iff_of_true rfl h
  · next h => exact iff_of_false Bool.false_ne_true h

section
variable {r : Rules} {i : Nat} {a : Attribute} {subject : Subject} {d : Diagnostic}

/-- What there is to complain of about an unknown attribute. -/
theorem mem_attributeComplaints_of_unknown (h : a.name ∉ r.config.knownAttributes) :
    (subject, d) ∈ attributeComplaints r i a
      ↔ subject = .attributeName i ∧ d = attributeError r a := by
  have hunknown : ¬r.config.isKnownAttribute a.name = true := by
    rwa [Config.isKnownAttribute, List.contains_iff_mem]
  rw [attributeComplaints, if_neg hunknown, List.mem_singleton, Prod.mk.injEq]

/-- What there is to complain of about a known one: words of a class list. -/
theorem mem_attributeComplaints_of_known (h : a.name ∈ r.config.knownAttributes) :
    (subject, d) ∈ attributeComplaints r i a ↔ a.name = "class"
      ∧ r.config.validateClasses = true ∧ ∃ v p run, a.value = .string v p
        ∧ Text.IsStretch isClassChar v.toList run
        ∧ ClassMapping.ofClass? (String.ofList run.text) = .ok none
        ∧ subject = .word i run.start
        ∧ d = wordDiagnostic r.fileName a.valuePosition run := by
  have hknown : r.config.isKnownAttribute a.name = true := by
    rwa [Config.isKnownAttribute, List.contains_iff_mem]
  rw [attributeComplaints, if_pos hknown]
  cases hclasses : classText? r.config a with
  | none =>
    refine iff_of_false List.not_mem_nil ?_
    rintro ⟨hname, -, v, p, -, hvalue, -⟩
    rw [classText?_eq_some_iff.2 ⟨h, hname, p, hvalue⟩] at hclasses
    cases hclasses
  | some v =>
    obtain ⟨-, hname, p, hvalue⟩ := classText?_eq_some_iff.1 hclasses
    by_cases hvalidate : r.config.validateClasses = true
    · simp only [if_pos hvalidate, List.mem_map, List.mem_filter, Text.mem_runsFrom_iff,
        isUnknownWord_iff, Prod.mk.injEq]
      constructor
      · rintro ⟨run, ⟨hrun, hunknown⟩, rfl, rfl⟩
        exact ⟨hname, hvalidate, v, p, run, hvalue, hrun, hunknown, rfl, rfl⟩
      · rintro ⟨-, -, v', p', run, hvalue', hrun, hunknown, rfl, rfl⟩
        rw [hvalue, AttributeValue.string.injEq] at hvalue'
        obtain ⟨rfl, -⟩ := hvalue'
        exact ⟨run, ⟨hrun, hunknown⟩, rfl, rfl⟩
    · simp only [if_neg hvalidate]
      exact iff_of_false List.not_mem_nil fun hall => hvalidate hall.2.1

theorem mem_attributesComplaints_iff {e : ElementHead} :
    (subject, d) ∈ attributesComplaints r e ↔ ∃ i a, e.attributes[i]? = some a
      ∧ (subject, d) ∈ attributeComplaints r i a := by
  rw [attributesComplaints, List.mem_flatMap]
  constructor
  · rintro ⟨⟨a, i⟩, ha, hmem⟩
    exact ⟨i, a, List.mk_mem_zipIdx_iff_getElem?.1 ha, hmem⟩
  · rintro ⟨i, a, ha, hmem⟩
    exact ⟨(a, i), List.mk_mem_zipIdx_iff_getElem?.2 ha, hmem⟩

theorem mem_tagComplaints_iff {e : ElementHead} {cs : List Node} :
    (subject, d) ∈ tagComplaints r e cs ↔
      (e.tag ∉ r.config.knownTags ∧ subject = .tag
        ∧ d = .error r.fileName e.position ("unknown element tag <" ++ e.tag ++ ">"))
      ∨ (e.tag ∈ r.config.voidTags ∧ cs ≠ [] ∧ subject = .children
        ∧ d = .error r.fileName e.position
          ("<" ++ e.tag ++ "> is a void element and cannot have children")) := by
  rw [tagComplaints, List.mem_append]
  refine or_congr ?_ ?_
  · by_cases htag : e.tag ∈ r.config.knownTags
    · simp [Config.isKnownTag, htag]
    · simp [Config.isKnownTag, htag]
  · by_cases hvoid : e.tag ∈ r.config.voidTags ∧ cs ≠ []
    · simp [Config.isVoidTag, hvoid.1, hvoid.2]
    · rw [if_neg (by simpa [Config.isVoidTag] using hvoid)]
      exact iff_of_false List.not_mem_nil fun hall => hvoid ⟨hall.1, hall.2.1⟩

end

section
variable {way : Way} {e : ElementHead} {cs : List Node} {subject : Subject} {d : Diagnostic}

/-- The complaints about an element at a way hold. -/
theorem holds_of_mem_element (he : f.HasElement way e cs)
    (h : (subject, d) ∈ tagComplaints (Analysis.rulesOf c f) e cs
      ++ attributesComplaints (Analysis.rulesOf c f) e) :
    Complaint.Holds c f ⟨way, subject, d⟩ := by
  rcases List.mem_append.1 h with htag | hattribute
  · rcases mem_tagComplaints_iff.1 htag with ⟨hunknown, rfl, rfl⟩ | ⟨hvoid, hne, rfl, rfl⟩
    · exact .unknownTag he hunknown
    · exact .voidChildren he hvoid hne
  · obtain ⟨i, a, ha, hmem⟩ := mem_attributesComplaints_iff.1 hattribute
    by_cases hknown : a.name ∈ c.knownAttributes
    · obtain ⟨hname, hvalidate, v, p, ⟨start, word⟩, hvalue, hrun, hunknown, rfl, rfl⟩ :=
        (mem_attributeComplaints_of_known hknown).1 hmem
      exact .unknownWord he ha hknown hname hvalue hvalidate hrun hunknown
    · obtain ⟨rfl, rfl⟩ := (mem_attributeComplaints_of_unknown hknown).1 hmem
      exact .unknownAttribute he ha hknown (isAttributeHint_iff.2 rfl)

/-- **The complaints of a file are those that hold.** -/
theorem mem_complaints : x ∈ complaints c f ↔ x.Holds c f := by
  rw [mem_complaints_iff]
  constructor
  · rintro ⟨n, hn, hmem⟩
    obtain ⟨way, subject, d⟩ := x
    cases n with
    | element e cs => exact holds_of_mem_element (.inl hn) hmem
    | letBinding h e cs => exact holds_of_mem_element (.inr ⟨h, hn⟩) hmem
    | call h cs =>
      rw [nodeComplaints, callErrors] at hmem
      split at hmem
      · next hrefuses =>
        obtain ⟨rfl, rfl⟩ := Prod.mk.inj (List.mem_singleton.1 hmem)
        simp only [Bool.and_eq_true, Bool.not_eq_true', List.isEmpty_eq_false_iff,
          decide_eq_true_eq] at hrefuses
        exact .passedChildren hn hrefuses.1 (SourceFile.refuses_iff.1 hrefuses.2)
      · cases hmem
    | forLoop | conditional | slot | expression | letReference | text | goCode => cases hmem
  · -- what is said of an element is said of it wherever it stands
    have hat : ∀ {way : Way} {e : ElementHead} {cs : List Node} {subject : Subject}
        {d : Diagnostic}, f.HasElement way e cs →
        (subject, d) ∈ tagComplaints (Analysis.rulesOf c f) e cs
          ++ attributesComplaints (Analysis.rulesOf c f) e →
        ∃ n, f.at? way = some n ∧ (subject, d) ∈ nodeComplaints (Analysis.rulesOf c f) n := by
      rintro way e cs subject d (hn | ⟨h, hn⟩) hmem
      · exact ⟨_, hn, hmem⟩
      · exact ⟨_, hn, hmem⟩
    intro hholds
    cases hholds with
    | unknownTag he htag =>
      refine hat he (List.mem_append_left _ (mem_tagComplaints_iff.2 (.inl ⟨htag, rfl, rfl⟩)))
    | voidChildren he hvoid hne =>
      refine hat he (List.mem_append_left _ (mem_tagComplaints_iff.2 (.inr ⟨hvoid, hne, rfl, rfl⟩)))
    | passedChildren hn hne hrefuses =>
      refine ⟨_, hn, ?_⟩
      have htest := SourceFile.refuses_iff.2 hrefuses
      rw [nodeComplaints, callErrors, if_pos (by simp [hne, Analysis.rulesOf, htest])]
      exact List.mem_singleton_self _
    | unknownAttribute he ha hunknown hhint =>
      refine hat he (List.mem_append_right _ (mem_attributesComplaints_iff.2 ⟨_, _, ha, ?_⟩))
      refine (mem_attributeComplaints_of_unknown hunknown).2 ⟨rfl, ?_⟩
      rw [isAttributeHint_iff.1 hhint]
      rfl
    | unknownWord he ha hknown hname hvalue hvalidate hrun hunknown =>
      refine hat he (List.mem_append_right _ (mem_attributesComplaints_iff.2 ⟨_, _, ha, ?_⟩))
      exact (mem_attributeComplaints_of_known hknown).2
        ⟨hname, hvalidate, _, _, _, hvalue, hrun, hunknown, rfl, rfl⟩

end

end

/-! ## What cannot be checked -/

section
variable {r : Rules} {e : NumberError}

/-- A class list is not translated if the number of a class cannot be computed. -/
theorem exists_of_ofText_error {v : String} (h : ClassList.ofText v = .error e) :
    ∃ word, word <:+: v.toList ∧ ClassMapping.ofClass? (String.ofList word) = .error e := by
  obtain ⟨word, hword, l, hfails⟩ := error_of_foldlM h
  refine ⟨word, Text.infix_of_mem_words hword, ?_⟩
  rcases bind_eq_error_iff.1 hfails with hclass | ⟨m, -, hfails⟩
  · exact hclass
  · cases m <;> cases hfails

/-- And for the same reason its words are not checked. -/
theorem exists_of_classErrors_error {start : Position} {v : String}
    (h : classErrors r start v = .error e) :
    ∃ word, word <:+: v.toList ∧ ClassMapping.ofClass? (String.ofList word) = .error e := by
  rw [classErrors] at h
  split at h
  · rcases bind_eq_error_iff.1 h with hplaced | ⟨placed, -, h⟩
    · obtain ⟨run, hrun, hfails⟩ := error_of_mapM hplaced
      refine ⟨run.text, Text.infix_of_mem_runsFrom hrun, ?_⟩
      rcases bind_eq_error_iff.1 hfails with hcheck | ⟨check, -, hfails⟩
      · exact ofClass?_of_error hcheck
      · cases hfails
    · cases h
  · cases h

theorem exists_of_attributeFindings_error {a : Attribute}
    (h : attributeFindings r a = .error e) :
    ∃ v p word, a.name ∈ r.config.knownAttributes ∧ a.name = "class" ∧ a.value = .string v p
      ∧ word <:+: v.toList ∧ ClassMapping.ofClass? (String.ofList word) = .error e := by
  rw [attributeFindings] at h
  split at h
  · cases hclasses : classText? r.config a with
    | none => simp only [hclasses] at h; cases h
    | some v =>
      obtain ⟨hknown, hname, p, hvalue⟩ := classText?_eq_some_iff.1 hclasses
      have hword : ∃ word, word <:+: v.toList
          ∧ ClassMapping.ofClass? (String.ofList word) = .error e := by
        simp only [hclasses] at h
        rcases bind_eq_error_iff.1 h with htranslated | ⟨l, -, h⟩
        · exact exists_of_ofText_error htranslated
        rcases bind_eq_error_iff.1 h with herrors | ⟨ds, -, h⟩
        · exact exists_of_classErrors_error herrors
        cases h
      obtain ⟨word, hinfix, hclass⟩ := hword
      exact ⟨v, p, word, hknown, hname, hvalue, hinfix, hclass⟩
  · cases h

/-- **A file that cannot be checked** has a class whose number cannot be computed. -/
theorem obstructed_of_error
    (h : componentFindings (Analysis.rulesOf c f) f.prepare.components = .error e) :
    Obstructed c f e := by
  rcases bind_eq_error_iff.1 h with hwalk | ⟨found, -, h⟩
  · obtain ⟨s, hs, hfails⟩ := error_of_mapM hwalk
    rw [flatMap_sites_prepare] at hs
    obtain ⟨original, horiginal, rfl⟩ := List.mem_map.1 hs
    rw [← SourceFile.map_locatedFrom 0] at horiginal
    obtain ⟨⟨way, s⟩, hmem, rfl⟩ := List.mem_map.1 horiginal
    have hat : f.at? way = some s.node := SourceFile.exists_located_iff.1 ⟨s, hmem, rfl⟩
    -- only an element has classes
    have helement : ∀ {head : ElementHead} {cs cs' : List Node}, f.HasElement way head cs →
        elementFindings (Analysis.rulesOf c f) head cs' = .error e → Obstructed c f e := by
      intro head cs cs' he hfails
      rcases bind_eq_error_iff.1 hfails with hattributes | ⟨found, -, hfails⟩
      · obtain ⟨a, ha, hfails⟩ := error_of_mapM hattributes
        obtain ⟨v, p, word, hclass⟩ := exists_of_attributeFindings_error hfails
        exact ⟨way, head, cs, a, v, p, word, he, ha, hclass⟩
      · cases hfails
    obtain ⟨n, inLoop, inConditional⟩ := s
    cases n with
    | element head cs => exact helement (.inl hat) hfails
    | letBinding h head cs => exact helement (.inr ⟨h, hat⟩) hfails
    | expression g =>
      cases hreference : g.reference? f.letNames with
      | none => simp only [Site.link, Node.link, hreference] at hfails; cases hfails
      | some l => simp only [Site.link, Node.link, hreference] at hfails; cases hfails
    | call | forLoop | conditional | slot | letReference | text | goCode => cases hfails
  · cases h

theorem obstructed_of_ofFile (h : Analysis.ofFile c f = .error e) : Obstructed c f e := by
  rcases bind_eq_error_iff.1 h with hfound | ⟨found, -, h⟩
  · exact obstructed_of_error hfound
  · cases h

end

end Validation

/-- **Validation is exact.** Where the numbers of all classes can be computed, it
reports the complaints that hold of the file and nothing else: each once, in the
order of the document, between what is said about bindings and references and what
is said about dependencies. And a component is marked as one that accepts children
exactly if its body has a slot. -/
theorem Analysis.validation_exact (c : Config) (f : SourceFile) :
    match ofFile c f with
    | .ok a =>
      (∃ found : List Validation.Complaint, found.Pairwise Validation.Complaint.Before
        ∧ (∀ x, x ∈ found ↔ x.Holds c f)
        ∧ a.diagnostics = f.prepare.components.flatMap (Component.repeatedLets f.name)
          ++ f.prepare.components.flatMap (fun comp => (NamedRef.ofBody f.name comp.body).diagnostics)
          ++ found.map (·.diagnostic)
          ++ f.prepare.components.flatMap (Component.depsDiagnostics c f.name))
      ∧ a.file.components.length = f.components.length
      ∧ ∀ (k : Nat) (comp : Component), a.file.components[k]? = some comp →
          (comp.acceptsChildren = true ↔ f.HasSlot k)
    | .error e => Validation.Obstructed c f e := by
  cases ha : ofFile c f with
  | error e => exact Validation.obstructed_of_ofFile ha
  | ok a =>
    have hmarked : a.file.components
        = f.components.map fun comp => comp.marked.link f.letNames := by
      rw [file_of_ofFile ha]
      exact f.prepare_components
    refine ⟨⟨Validation.complaints c f, Validation.pairwise_complaints c f,
      fun _ => Validation.mem_complaints, ?_⟩, ?_, fun k comp hcomp => ?_⟩
    · rw [(ofFile_inv ha).1, diagnosticsOf, Validation.findings_eq (checks_of_ofFile ha)]
    · rw [hmarked, List.length_map]
    · rw [hmarked, List.getElem?_map] at hcomp
      obtain ⟨original, horiginal, rfl⟩ := Option.map_eq_some_iff.1 hcomp
      exact SourceFile.hasSlot_iff horiginal

end Gsx
