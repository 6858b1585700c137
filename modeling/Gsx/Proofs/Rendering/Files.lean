import Gsx.Proofs.Rendering.Nodes
/-!
# Files

The outer grammar is read back like the bodies in it: parameters, components and
the file as a whole. So reading undoes rendering.
-/

namespace Gsx.Rendering

open Lexer Parse

variable {source cs rest : List Char} {d : Char}

/-! ## Parameters -/

/-- Whether two parameters are the same. -/
def sameParam (p q : Param) : Bool :=
  p.name == q.name && p.type == q.type

theorem front_param {p : Param} (h : isParam p) (rest : List Char) :
    Front (param p ++ rest) .identifier p.name.toList (' ' :: p.type.toList ++ rest) := by
  rw [isParam, Bool.and_eq_true] at h
  rw [param, List.append_assoc]
  exact front_name h.1 (by decide) _

/-- **A parameter is read up to the comma or parenthesis behind it.** -/
theorem reads_param {p : Param} (h : isParam p) (hd : d = ',' ∨ d = ')') :
    Reads source (param p ++ d :: rest) Parse.param (Gives (sameParam p)) (d :: rest) := by
  have hfront := front_param h (d :: rest)
  rw [isParam, Bool.and_eq_true] at h
  -- a parameter without a type would be dropped
  have hne : p.type ≠ "" := by
    intro htype
    rw [htype] at h
    exact absurd h.2 (by decide)
  refine .current hfront fun t ht => ?_
  rw [if_pos ht.kind]
  refine .advance hfront (((reads_goType h.2 hd).gap rfl).bind ?_)
  rintro _ rfl
  rw [String.ofList_toList, if_neg hne]
  exact .pure ⟨_, rfl, by simp [sameParam, ht.literal]⟩

theorem reads_paramRound_last {p : Param} (h : isParam p) :
    Reads source (param p ++ ')' :: rest) paramRound
      (fun r => ∃ q, sameParam p q ∧ r = .last [q]) (')' :: rest) := by
  refine .kind (front_param h _) ?_
  rw [if_neg (by decide)]
  refine (reads_param h (.inr rfl)).bind ?_
  rintro _ ⟨q, rfl, hq⟩
  refine .kind (front_rightParen rest) ?_
  rw [if_neg (by decide)]
  exact .pure ⟨q, hq, rfl⟩

theorem reads_paramRound_more {p : Param} (h : isParam p) (hrest : StartsLine rest) :
    Reads source (param p ++ ',' :: ' ' :: rest) paramRound
      (fun r => ∃ q, sameParam p q ∧ r = .more [q]) rest := by
  refine .kind (front_param h _) ?_
  rw [if_neg (by decide)]
  refine (reads_param h (.inl rfl)).bind ?_
  rintro _ ⟨q, rfl, hq⟩
  refine .kind (front_comma _) ?_
  rw [if_pos rfl]
  exact .advanceLine (front_comma _) ((reads_skipNewlines hrest).gap rfl) (.pure ⟨q, hq, rfl⟩)

theorem length_params_le (ps : List Param) : ps.length ≤ (params ps).length + 1 := by
  induction ps with
  | nil => exact Nat.zero_le _
  | cons p ps ih =>
    cases ps with
    | nil => exact Nat.le_add_left _ _
    | cons q ps =>
      rw [params, List.length_append, List.length_append, List.length_cons]
      simp only [List.length_cons, List.length_nil] at ih ⊢
      omega

theorem startsLine_params {p : Param} (h : isParam p) (ps : List Param) :
    StartsLine (params (p :: ps) ++ ')' :: rest) := by
  cases ps with
  | nil => exact ⟨_, _, _, front_param h _, by decide⟩
  | cons q ps =>
    rw [params, List.append_assoc, List.append_assoc]
    exact ⟨_, _, _, front_param h _, by decide⟩

theorem reads_paramRounds (ps : List Param) (h : ∀ p ∈ ps, isParam p) (fuel : Nat) :
    Reads source (params ps ++ ')' :: rest) (repeatUpTo paramRound (fuel + ps.length + 1))
      (fun qs => sameItems sameParam ps qs) (')' :: rest) := by
  induction ps with
  | nil =>
    refine reads_repeatUpTo_last (.kind (front_rightParen rest) ?_) _
    rw [if_pos (by decide)]
    exact .pure ⟨[], rfl, rfl⟩
  | cons p ps ih =>
    have hp := h p List.mem_cons_self
    have hps := ih fun q hq => h q (List.mem_cons_of_mem _ hq)
    cases ps with
    | nil =>
      refine reads_repeatUpTo_last ((reads_paramRound_last hp).weaken ?_) _
      rintro _ ⟨q, hq, rfl⟩
      exact ⟨[q], by rw [sameItems, hq]; rfl, rfl⟩
    | cons p' ps =>
      have hline : StartsLine (params (p' :: ps) ++ ')' :: rest) :=
        startsLine_params (h p' (by simp)) ps
      rw [params, List.append_assoc, List.append_assoc]
      refine (reads_repeatUpTo_more (reads_paramRound_more hp hline) hps).weaken ?_
      rintro _ ⟨q, qs, hq, hqs, rfl⟩
      rw [sameItems, hq, hqs]
      rfl

/-- **A parameter list is read with its parentheses.** -/
theorem reads_params {ps : List Param} (h : ∀ p ∈ ps, isParam p) :
    Reads source ('(' :: params ps ++ ')' :: rest) Parse.params
      (Gives (sameItems sameParam ps)) rest := by
  have hlength : ps.length ≤ (params ps ++ ')' :: rest).length := by
    have := length_params_le ps
    rw [List.length_append, List.length_cons]
    omega
  refine .expect (front_leftParen _) ?_
  rw [if_pos rfl]
  refine Reads.bind (.rounds (repeatUpTo paramRound) ps.length hlength (reads_paramRounds ps h))
    fun qs hqs => .expect (front_rightParen rest) ?_
  rw [if_pos rfl]
  exact .pure ⟨qs, rfl, hqs⟩

/-! ## Components -/

theorem At.depth_le {s : TokenStream} (h : At source cs s) : 4 * cs.length + 8 ≤ s.depth := by
  have hle := h.length_le
  rw [TokenStream.depth, h.source_eq]
  omega

theorem front_atComponent (cs : List Char) :
    Front (['@', 'c', 'o', 'm', 'p', 'o', 'n', 'e', 'n', 't', ' '] ++ cs) .atComponent
      ['@', 'c', 'o', 'm', 'p', 'o', 'n', 'e', 'n', 't'] (' ' :: cs) :=
  front_at (w := ['c', 'o', 'm', 'p', 'o', 'n', 'e', 'n', 't']) (d := ' ') (by decide)
    (by decide) cs

theorem exists_front_component {c : Component} (h : isComponent c) (layout : Layout)
    (path : List Nat) (rest : List Char) :
    ∃ w cs, Front (component layout path c ++ rest) .atComponent w cs ∧ Quiet 1 cs := by
  simp only [isComponent, Bool.and_eq_true] at h
  simp only [component, List.append_assoc]
  refine ⟨_, _, front_atComponent _, ?_⟩
  exact ((front_name h.1.1.1.1.1.1 (d := '(') (by decide) _).gap (c := ' ') rfl).quiet

theorem reads_componentBlock {text : List Char} {ns : List Node} (hs : IsBodyText false text ns)
    (hrest : StartsLine rest) (name : String) (ps : List Param) (place : Position) :
    Reads source (block text 0 ++ '\n' :: rest) (componentBlock name ps place)
      (fun o => ∃ b, o = some ⟨name, ps, b.nodes, false, place, none, none, b.orphans⟩
        ∧ IsBody ns b) rest := by
  have hlength := length_le_block text 0
  refine .stream fun s hs' => ?_
  have hdepth := hs'.depth_le
  rw [List.length_append] at hdepth
  refine (reads_block hs (reads_skipNewlines_newline hrest) (front_newline rest).quiet 0
    (by omega)).bind ?_
  rintro _ ⟨b, rfl, hb⟩
  exact .pure ⟨b, rfl, hb⟩

/-- **A component is read with the end of its line.** -/
theorem reads_component {c : Component} (h : isComponent c) (layout : Layout) (path : List Nat)
    (hrest : StartsLine rest) :
    Reads source (component layout path c ++ rest) Parse.component
      (fun o => ∃ c', o = some c' ∧ c.same c' ∧ c'.leading = none) rest := by
  simp only [isComponent, Bool.and_eq_true, List.all_eq_true, Bool.not_eq_true',
    Option.isNone_iff_eq_none, List.isEmpty_iff] at h
  obtain ⟨⟨⟨⟨⟨⟨hname, hparams⟩, hbody⟩, hslot⟩, hleading⟩, htrailing⟩, horphans⟩ := h
  have hident := (front_name hname (d := '(') (by decide) (params c.params
    ++ ')' :: ' ' :: (block (nodes layout path c.body) 0 ++ '\n' :: rest))).gap (c := ' ') rfl
  have hs := isBodyText_nodes layout path false c.body hbody
  simp only [component, List.append_assoc]
  refine .position fun place => .advance (front_atComponent _) (.current hident fun t ht => ?_)
  rw [if_pos ht.kind]
  refine .advance hident ((reads_params hparams).bind ?_)
  rintro _ ⟨ps, rfl, hps⟩
  refine (reads_skipNewlines_brace _).bind fun _ _ =>
    (reads_componentBlock hs hrest t.literal ps place).weaken ?_
  rintro _ ⟨b, rfl, hnodes, horphans'⟩
  refine ⟨_, rfl, ?_, rfl⟩
  change (c.name == t.literal && sameItems sameParam c.params ps && Node.sameAll c.body b.nodes
    && c.acceptsChildren == false && sameComments c.leading none && sameComments c.trailing none
    && sameOrphans c.orphans b.orphans) = true
  rw [ht.literal, String.ofList_toList, hps, hnodes, hslot, hleading, htrailing, horphans,
    horphans', BEq.rfl]
  rfl

/-! ## Declarations -/

theorem front_endOfInput : Front [] .endOfInput [] [] :=
  ⟨rfl, 0, rfl, rfl⟩

theorem quiet_nil : Quiet 2 [] :=
  ⟨_, _, _, front_endOfInput, _, _, _, front_endOfInput, trivial⟩

/-- At the front of some components one of them starts, or the file ends. -/
theorem exists_front_components {cs : List Component} (h : ∀ c ∈ cs, isComponent c)
    (layout : Layout) (path : List Nat) :
    ∃ k w cs', Front (components layout path cs) k w cs'
      ∧ (k = .atComponent ∨ k = .endOfInput) := by
  cases cs with
  | nil => exact ⟨_, _, _, front_endOfInput, .inr rfl⟩
  | cons c cs =>
    obtain ⟨w, cs', hf, -⟩ := exists_front_component (h c List.mem_cons_self) layout (0 :: path)
      (components layout (1 :: path) cs)
    exact ⟨_, w, cs', hf, .inl rfl⟩

theorem startsLine_components {cs : List Component} (h : ∀ c ∈ cs, isComponent c) (layout : Layout)
    (path : List Nat) : StartsLine (components layout path cs) := by
  obtain ⟨k, w, cs', hf, hk⟩ := exists_front_components h layout path
  exact ⟨k, w, cs', hf, by rcases hk with rfl | rfl <;> decide⟩

/-- No imports stand before components. -/
theorem reads_imports {cs : List Component} (h : ∀ c ∈ cs, isComponent c) (layout : Layout)
    (path : List Nat) :
    Reads source (components layout path cs) imports (· = []) (components layout path cs) := by
  obtain ⟨k, w, cs', hf, hk⟩ := exists_front_components h layout path
  refine .rounds (repeatUpTo importRound) 0 (Nat.zero_le _) fun fuel =>
    reads_repeatUpTo_last (.kind hf ?_) _
  rw [if_neg (by rcases hk with rfl | rfl <;> decide)]
  exact .pure ⟨[], rfl, rfl⟩

/-- Whether a declaration is a component, the same as another one. -/
def IsComponent (c : Component) (d : Declaration) : Prop :=
  ∃ c', c.same c' ∧ d = .component c'

theorem reads_declaration {c : Component} (h : isComponent c) (layout : Layout)
    (path : List Nat) (hrest : StartsLine rest) :
    Reads source (component layout path c ++ rest) declaration
      (fun o => ∃ c', o = some (.component c') ∧ c.same c' ∧ c'.leading = none) rest := by
  obtain ⟨w, cs', hf, -⟩ := exists_front_component h layout path rest
  refine .current hf fun t ht => ?_
  rw [ht.kind]
  refine (reads_component h layout path hrest).bind ?_
  rintro _ ⟨c', rfl, hc', hleading⟩
  exact .pure ⟨c', rfl, hc', hleading⟩

theorem reads_declarationRound_more {c : Component} (h : isComponent c) (layout : Layout)
    (path : List Nat) (hrest : StartsLine rest) :
    Reads source (component layout path c ++ rest) declarationRound
      (fun r => ∃ d, IsComponent c d ∧ r = .more [d]) rest := by
  obtain ⟨w, cs', hf, hq⟩ := exists_front_component h layout path rest
  refine (reads_skipNewlines ⟨_, w, cs', hf, by decide⟩).bind fun _ _ => .kind hf ?_
  rw [if_neg (by decide)]
  refine (reads_leadingComments ⟨_, w, cs', hf, hq⟩).bind ?_
  rintro _ rfl
  refine (reads_declaration h layout path hrest).bind ?_
  rintro _ ⟨c', rfl, hc', hleading⟩
  refine .pure ⟨_, ⟨c', hc', ?_⟩, rfl⟩
  rw [Declaration.withLeading, ← hleading]

theorem reads_declarationRound_last :
    Reads source [] declarationRound (· = .last []) [] := by
  refine (reads_skipNewlines ⟨_, _, _, front_endOfInput, by decide⟩).bind fun _ _ =>
    .kind front_endOfInput ?_
  rw [if_pos rfl]
  exact .pure rfl

theorem length_components_le (layout : Layout) (path : List Nat) (cs : List Component) :
    cs.length ≤ (components layout path cs).length := by
  induction cs generalizing path with
  | nil => exact Nat.le_refl _
  | cons c cs ih =>
    have := ih (1 :: path)
    rw [components, component]
    simp only [List.length_append, List.length_cons]
    omega

/-- **Components are read up to the end of a file.** -/
theorem reads_declarations {cs : List Component} (h : ∀ c ∈ cs, isComponent c) (layout : Layout)
    (path : List Nat) :
    Reads source (components layout path cs) declarations (List.Forall₂ IsComponent cs) [] := by
  refine .rounds (repeatUpTo declarationRound) cs.length (length_components_le layout path cs)
    fun fuel => ?_
  induction cs generalizing path with
  | nil =>
    refine reads_repeatUpTo_last (reads_declarationRound_last.weaken ?_) _
    exact fun _ hr => ⟨[], .nil, hr⟩
  | cons c cs ih =>
    have hcs := fun x hx => h x (List.mem_cons_of_mem _ hx)
    have hline := startsLine_components hcs layout (1 :: path)
    refine (reads_repeatUpTo_more (reads_declarationRound_more (h c List.mem_cons_self) layout
      (0 :: path) hline) (ih hcs (1 :: path))).weaken ?_
    rintro _ ⟨d, ds, hd, hds, rfl⟩
    exact .cons hd hds

/-! ## Files -/

theorem front_packageWord (cs : List Char) :
    Front (['p', 'a', 'c', 'k', 'a', 'g', 'e', ' '] ++ cs) .packageWord
      ['p', 'a', 'c', 'k', 'a', 'g', 'e'] (' ' :: cs) :=
  front_word (w := ['p', 'a', 'c', 'k', 'a', 'g', 'e']) (d := ' ') (by decide) (by decide)
    (by decide) cs

theorem reads_packageName {package : String} (h : isName package.toList) (hrest : StartsLine rest) :
    Reads source (['p', 'a', 'c', 'k', 'a', 'g', 'e', ' '] ++ (package.toList ++ '\n' :: rest))
      packageName (· = some package) rest := by
  have hname := (front_name h (d := '\n') (by decide) rest).gap (c := ' ') rfl
  refine .kind (front_packageWord _) ?_
  rw [if_pos rfl]
  refine .advance (front_packageWord _) (.current hname fun t ht => ?_)
  rw [if_pos ht.kind]
  refine .advanceLine hname (reads_skipNewlines_newline hrest) (.pure ?_)
  rw [ht.literal, String.ofList_toList]

/-- The components of a file are found among its declarations, and nothing else is. -/
theorem filterMap_of_forall₂ {cs : List Component} {ds : List Declaration}
    (h : List.Forall₂ IsComponent cs ds) :
    sameItems Component.same cs (ds.filterMap Declaration.component?)
      ∧ ds.filterMap Declaration.decl? = [] ∧ ds.filterMap Declaration.func? = [] := by
  induction h with
  | nil => exact ⟨rfl, rfl, rfl⟩
  | cons hd _ ih =>
    obtain ⟨c', hc', rfl⟩ := hd
    obtain ⟨hcomponents, hdecls, hfuncs⟩ := ih
    exact ⟨Bool.and_eq_true_iff.2 ⟨hc', hcomponents⟩, hdecls, hfuncs⟩

/-- **A file is read back.** -/
theorem reads_sourceFile {f : SourceFile} (h : isFile f) (layout : Layout) :
    Reads source (file layout f).toList sourceFile (Gives (SourceFile.same f)) [] := by
  simp only [isFile, Bool.and_eq_true, List.all_eq_true, Option.isNone_iff_eq_none,
    List.isEmpty_iff] at h
  obtain ⟨⟨⟨⟨⟨⟨hpackage, himports⟩, hdecls⟩, hcomponents⟩, hfuncs⟩, hleading⟩, horphans⟩ := h
  have hline := startsLine_components hcomponents layout []
  have hname := (front_name hpackage (d := '\n') (by decide)
    (components layout [] f.components)).gap (c := ' ') rfl
  simp only [file, String.toList_ofList, List.append_assoc]
  refine .position fun place =>
    (reads_skipNewlines ⟨_, _, _, front_packageWord _, by decide⟩).bind fun _ _ => ?_
  refine (reads_leadingComments ⟨_, _, _, front_packageWord _, hname.quiet⟩).bind ?_
  rintro _ rfl
  refine (reads_packageName hpackage hline).bind ?_
  rintro _ rfl
  refine (reads_skipNewlines hline).bind fun _ _ =>
    (reads_imports hcomponents layout []).bind ?_
  rintro _ rfl
  refine (reads_skipNewlines hline).bind fun _ _ =>
    (reads_declarations hcomponents layout []).bind fun ds hds =>
    (reads_orphanComments quiet_nil).bind ?_
  rintro _ rfl
  refine .stream fun s _ => .pure ⟨_, rfl, ?_⟩
  obtain ⟨hsame, hnodecls, hnofuncs⟩ := filterMap_of_forall₂ hds
  rw [SourceFile.same, himports, hdecls, hfuncs, hleading, horphans]
  simp only [hsame, hnodecls, hnofuncs, BEq.rfl, Bool.true_and]
  rfl

/-- **Reading undoes rendering.** The text of a file, in whatever layout, is read
without an error or a restart, and gives the same file. -/
theorem read_file (name : String) (layout : Layout) (f : SourceFile) (h : isFile f) :
    ∃ r, SourceFile.read name (file layout f) = .ok r ∧ r.file.any f.same ∧ r.diagnostics = []
      ∧ r.recoveries = [] := by
  obtain ⟨⟨g, hg, hsame⟩, hat⟩ := reads_sourceFile h layout _ (at_ofSource name (file layout f))
  -- at the end nothing has been noted, not even by looking ahead
  have hdiagnostics := (hat.quiet quiet_nil).2
  obtain ⟨l, -, hl⟩ := hat
  have hrun : sourceFile.run (.ofSource name (file layout f)) = (some g, ofLexer l) :=
    Prod.ext hg hl
  rw [hl] at hdiagnostics
  refine ⟨⟨some g, [], []⟩, ?_, hsame, rfl, rfl⟩
  simp only [SourceFile.read, hrun, hdiagnostics]
  rfl

/-- An opening tag with attributes only. -/
def sampleHead (tag : String) (attributes : List Attribute) (selfClosing : Bool) : ElementHead :=
  ⟨tag, attributes, selfClosing, none, none, .nowhere, none, none, []⟩

/-- A file with a node of every kind. -/
def sample : SourceFile where
  name := ""
  package := "main"
  imports := []
  decls := []
  components := [
    { name := "List"
      params := [⟨"title", "string", .nowhere⟩, ⟨"items", "map[string]int", .nowhere⟩]
      body := [
        .goCode ⟨"n := f(\n1, 2)", .nowhere, none⟩,
        .element
          { sampleHead "div" [
              ⟨"class", .string "a\n\"b\\" .nowhere, .nowhere, .nowhere⟩,
              ⟨"size", .int 12 .nowhere, .nowhere, .nowhere⟩,
              ⟨"open", .bool false .nowhere, .nowhere, .nowhere⟩,
              ⟨"click", .expression ⟨"f(\"\x7d\")", .nowhere, none⟩, .nowhere, .nowhere⟩] false with
            ref := some "Box"
            key := some ⟨"title", .nowhere, none⟩ }
          [ .text ⟨"if 12 items", .nowhere⟩,
            .expression ⟨"title", .nowhere, none⟩,
            .element (sampleHead "br" [] true) [],
            .letBinding ⟨"line", .nowhere, none⟩ (sampleHead "span" [] false)
              [.text ⟨"func", .nowhere⟩]],
        .forLoop ⟨"_", "v", "items", .nowhere, none, none, []⟩
          [.conditional ⟨"v > 0", .nowhere, none, none, []⟩ [] [.slot ⟨.nowhere, none⟩]],
        .call ⟨"Card", "n, f(n)", .nowhere, none, []⟩ []]
      acceptsChildren := false
      position := .nowhere
      leading := none
      trailing := none
      orphans := [] }]
  funcs := []
  position := .nowhere
  leading := none
  orphans := []

theorem read_sample :
    isFile sample ∧ ∃ r, SourceFile.read "list.gsx" (file List.length sample) = .ok r
      ∧ r.file.any sample.same ∧ r.diagnostics = [] ∧ r.recoveries = [] := by
  have h : isFile sample := by decide +kernel
  exact ⟨h, read_file "list.gsx" List.length sample h⟩

end Gsx.Rendering
