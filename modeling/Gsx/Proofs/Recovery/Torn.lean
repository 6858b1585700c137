import Gsx.Proofs.Recovery.Bodies
/-!
# Torn bodies

A body is torn if the closing line of one of its elements is missing. The lines
behind that element then belong to it, the closing line of the element around it is
taken for its own, and so on outwards; the end of the block around them stops this,
since no content goes beyond it. So a torn body either leaks to the end of its block or
is whole but for what is noted inside.
-/

namespace Gsx.Recovery

open Parse TokenStream
open Rendering (ends opensMarkup)

variable {source cs cs' rest text torn : List Char} {ms ms' : List String} {c : Bool}
  {depth : Nat}

/-- **The lines of a body, and the same without the closing line of one element** at
whatever depth. -/
inductive IsTorn : Bool → List Char → List Char → Prop
  | here {c : Bool} {tag : String} {before opening inner line after : List Char}
      (hbefore : IsLines c before) (hopening : IsOpening tag opening) (hinner : IsLines true inner)
      (hline : IsClosing tag line) (hafter : IsLines c after) :
      IsTorn c (before ++ (opening ++ (inner ++ (line ++ after))))
        (before ++ (opening ++ (inner ++ after)))
  | inElement {c : Bool} {tag : String} {before opening inner torn closing after : List Char}
      (hbefore : IsLines c before) (hopening : IsOpening tag opening)
      (hinner : IsTorn true inner torn) (hclosing : IsClosing tag closing)
      (hafter : IsLines c after) :
      IsTorn c (before ++ (opening ++ (inner ++ (closing ++ after))))
        (before ++ (opening ++ (torn ++ (closing ++ after))))
  | inBlock {c : Bool} {f : Frame} {before opening inner torn closing after : List Char}
      (hbefore : IsLines c before) (hframe : IsFrame opening closing f)
      (hinner : IsTorn false inner torn) (hafter : IsLines c after) :
      IsTorn c (before ++ (opening ++ (inner ++ (closing ++ after))))
        (before ++ (opening ++ (torn ++ (closing ++ after))))

/-! ## What is noted -/

/-- Messages that all tell of a closing tag of another name. -/
def Mismatches (ms : List String) : Prop :=
  ∀ m ∈ ms, ∃ want got, got ≠ want ∧ m = (GrammarFault.mismatchedClosingTag want got).message

theorem Mismatches.nil : Mismatches [] := nofun

theorem Mismatches.append (h : Mismatches ms) (h' : Mismatches ms') : Mismatches (ms ++ ms') :=
  fun m hm => (List.mem_append.1 hm).elim (h m) (h' m)

theorem mismatches_mismatches (want got : String) : Mismatches (mismatches want got) := by
  rw [mismatches]
  split
  · exact .nil
  · next hne => exact fun m hm => ⟨want, got, hne, List.mem_singleton.1 hm⟩

/-- The message about a closing tag that is missing. -/
def missing (tag : String) : String := (GrammarFault.expectedClosingTag tag).message

/-- **A torn body that leaks**: at the closing line of the element around it one more
element is closed, and at the end of the block around it one element is left open. -/
structure Leaks (source : List Char) (c : Bool) (torn : List Char) : Prop where
  closes : ∀ tag closing, IsClosing tag closing → ∃ ms, Mismatches ms ∧
    ∀ rest depth ms' cs', IsLine rest → 4 * left (torn ++ (closing ++ rest)) + 3 ≤ depth →
      NotesNodes source c depth rest ms' cs' →
      NotesNodes source c depth (torn ++ (closing ++ rest)) (ms ++ ms') cs'
  stops : ∃ ms tag, Mismatches ms ∧
    ∀ rest depth, Stops false rest → 4 * left (torn ++ rest) + 3 ≤ depth →
      NotesNodes source c depth (torn ++ rest) (ms ++ [missing tag]) rest

/-- **A torn body that does not leak**: the missing closing tag is noted inside. -/
def Contains (source : List Char) (c : Bool) (torn : List Char) : Prop :=
  ∃ ms tag, Mismatches ms ∧
    ∀ rest depth ms' cs', IsLine rest → 4 * left (torn ++ rest) + 3 ≤ depth →
      NotesNodes source c depth rest ms' cs' →
      NotesNodes source c depth (torn ++ rest) (ms ++ missing tag :: ms') cs'

/-! ## Lines around -/

theorem IsLines.isLine (h : IsLines c text) (hrest : IsLine rest) : IsLine (text ++ rest) := by
  cases h with
  | nil => exact hrest
  | lines hline helse h =>
    rw [IsLine, (h.begins hline).kind_eq]
    exact helse

/-- More is left from the first of some lines on than behind them. -/
theorem IsLines.left_le (h : IsLines c text) (rest : List Char) : left rest ≤ left (text ++ rest) := by
  cases h with
  | nil => exact le_rfl
  | lines hline _ h =>
    rw [(h.begins hline).left_append]
    exact (Recovery.left_le rest).trans (Nat.le_add_left _ _)

/-- A text that opens a node of any body. -/
theorem Begins.opens (h : Begins text) (hopens : opensMarkup (entry text).current.kind)
    (rest : List Char) : IsLine (text ++ rest) ∧ ends c (entry (text ++ rest)).current = false := by
  rw [← h.kind_eq rest] at hopens
  refine ⟨fun helse => ?_, ends_eq_false hopens⟩
  rw [helse] at hopens
  cases hopens

theorem IsClosing.stops {tag : String} (h : IsClosing tag text) (rest : List Char) :
    Stops true (text ++ rest) :=
  .inr ⟨rfl, (h.begins.kind_eq rest).trans (IsTagged.of_ends h.ends).sign⟩

/-- More is left in front of a torn body than behind it. -/
theorem IsTorn.length_le (h : IsTorn c text torn) (rest : List Char) :
    rest.length ≤ left (torn ++ rest) := by
  have hleft : ∀ {before opening : List Char}, IsLines c before → Begins opening → ∀ after,
      rest.length ≤ left ((before ++ (opening ++ after)) ++ rest) := by
    intro before opening hbefore hbegins after
    rw [List.append_assoc, List.append_assoc]
    have hle := hbefore.left_le (opening ++ (after ++ rest))
    rw [hbegins.left_append, List.length_append] at hle
    omega
  cases h with
  | here hbefore hopening => exact hleft hbefore hopening.begins _
  | inElement hbefore hopening => exact hleft hbefore hopening.begins _
  | inBlock hbefore hframe => exact hleft hbefore hframe.begins _

section

variable {opening before inner closing after : List Char}

/-- The depth in front of a node is enough for it, and more than enough behind its first
lines. -/
theorem Begins.depth_le (h : Begins opening) (hbefore : IsLines c before)
    (hdepth : 4 * left (before ++ (opening ++ text)) + 3 ≤ depth) :
    4 * left (opening ++ text) + 3 ≤ depth ∧ 4 * text.length + 11 ≤ depth := by
  have hle := hbefore.left_le (opening ++ text)
  have htwo := h.two_le_left
  have hleft := h.left_append text
  omega

/-! ## Elements and blocks in their lines -/

/-- Whole lines, then an element up to what is read as its closing tag, and what is
behind that. -/
theorem notesNodes_element {tag : String} {ms₁ ms₂ : List String}
    (hbefore : IsLines c before) (hopening : IsOpening tag opening)
    (hdepth : 4 * left (before ++ (opening ++ text)) + 3 ≤ depth)
    (hcontent : ∀ d, 4 * left text + 3 ≤ d → NotesNodes source true d text ms₁ cs)
    (hclosing : Notes source cs (closingTag tag) ms₂ rest) (hle : rest.length ≤ text.length)
    (hrest : NotesNodes source c depth rest ms cs') :
    NotesNodes source c depth (before ++ (opening ++ text)) ((ms₁ ++ ms₂) ++ ms) cs' := by
  obtain ⟨hline, hends⟩ := hopening.begins.opens (c := c) hopening.opens text
  obtain ⟨hnode, hinside⟩ := hopening.begins.depth_le hbefore hdepth
  have htext := left_le text
  have hbehind := left_le rest
  refine hbefore.notesNodes hline hdepth (NotesNodes.cons hends ?_ ?_ hrest)
  · rw [hopening.begins.left_append]
    have htwo := hopening.begins.two_le_left
    omega
  · obtain ⟨depth, rfl⟩ : ∃ d, depth = d + 4 := ⟨depth - 4, by omega⟩
    exact hopening.notes (hcontent depth (by omega)) hclosing

/-- Whole lines up to the end of a body. -/
theorem IsLines.notesNodes_stop (h : IsLines c text) (hrest : Stops c rest)
    (hdepth : 4 * left (text ++ rest) + 3 ≤ depth) :
    NotesNodes source c depth (text ++ rest) [] rest :=
  h.notesNodes hrest.isLine hdepth (Recovery.notesNodes_stop hrest)

/-- Lines in the content of an element, up to where the content ends. -/
theorem notesNodes_inner (hinner : IsLines true inner) (hafter : IsLines c after)
    (hrest : Stops true rest) (hdepth : 4 * left (inner ++ (after ++ rest)) + 3 ≤ depth) :
    NotesNodes source true depth (inner ++ (after ++ rest)) [] rest := by
  have hle := hinner.left_le (after ++ rest)
  exact hinner.notesNodes (hafter.isLine hrest.isLine) hdepth
    (hafter.mono.notesNodes_stop hrest (by omega))

/-- An element with a closing line, and lines around it. -/
theorem notesNodes_closed {tag : String} (hbefore : IsLines c before)
    (hopening : IsOpening tag opening) (hclosing : IsClosing tag closing)
    (hafter : IsLines c after) (hrest : IsLine rest)
    (hdepth : 4 * left (before ++ (opening ++ (inner ++ (closing ++ (after ++ rest))))) + 3 ≤ depth)
    (hinner : ∀ d, 4 * left (inner ++ (closing ++ (after ++ rest))) + 3 ≤ d →
      NotesNodes source true d (inner ++ (closing ++ (after ++ rest))) ms (closing ++ (after ++ rest)))
    (hs : NotesNodes source c depth rest ms' cs') :
    NotesNodes source c depth (before ++ (opening ++ (inner ++ (closing ++ (after ++ rest)))))
      (ms ++ ms') cs' := by
  have hlength : (after ++ rest).length ≤ (inner ++ (closing ++ (after ++ rest))).length := by
    simp only [List.length_append]
    omega
  have hclosed : Notes source (closing ++ (after ++ rest)) (closingTag tag) [] (after ++ rest) := by
    have hnotes : Notes source (closing ++ (after ++ rest)) (closingTag tag) (mismatches tag tag)
        (after ++ rest) := hclosing.notes tag
    rwa [mismatches, if_pos rfl] at hnotes
  obtain ⟨-, hinside⟩ := hopening.begins.depth_le hbefore hdepth
  have hbehind : NotesNodes source c depth (after ++ rest) ms' cs' := by
    have hle := left_le (after ++ rest)
    exact hafter.notesNodes hrest (by omega) hs
  have hall := notesNodes_element hbefore hopening hdepth hinner hclosed hlength hbehind
  rwa [List.append_nil] at hall

/-- A directive with a block, and lines around it. -/
theorem notesNodes_framed {f : Frame} (hbefore : IsLines c before)
    (hframe : IsFrame opening closing f) (hafter : IsLines c after) (hrest : IsLine rest)
    (hdepth : 4 * left (before ++ (opening ++ (inner ++ (closing ++ (after ++ rest))))) + 3 ≤ depth)
    (hinner : ∀ d, 4 * left (inner ++ (closing ++ (after ++ rest))) + 3 ≤ d →
      NotesNodes source false d (inner ++ (closing ++ (after ++ rest))) ms (closing ++ (after ++ rest)))
    (hs : NotesNodes source c depth rest ms' cs') :
    NotesNodes source c depth (before ++ (opening ++ (inner ++ (closing ++ (after ++ rest)))))
      (ms ++ ms') cs' := by
  have hlength : (after ++ rest).length ≤ (inner ++ (closing ++ (after ++ rest))).length := by
    simp only [List.length_append]
    omega
  obtain ⟨hline, hends⟩ := hframe.begins.opens (c := c) hframe.opensMarkup
    (inner ++ (closing ++ (after ++ rest)))
  obtain ⟨hnode, hinside⟩ := hframe.begins.depth_le hbefore hdepth
  have hbehind := left_le (after ++ rest)
  refine hbefore.notesNodes hline hdepth (NotesNodes.cons hends ?_
    (hframe.notes (hafter.isLine hrest) hnode hinner) (hafter.notesNodes hrest (by omega) hs))
  rw [hframe.begins.left_append]
  have htwo := hframe.begins.two_le_left
  omega

/-! ## Leaking -/

/-- Without its closing line an element takes the lines behind it. -/
theorem leaks_here {tag : String} (hbefore : IsLines c before) (hopening : IsOpening tag opening)
    (hinner : IsLines true inner) (hafter : IsLines c after) :
    Leaks source c (before ++ (opening ++ (inner ++ after))) := by
  constructor
  · intro got closing hclosing
    refine ⟨mismatches tag got, mismatches_mismatches _ _,
      fun rest depth ms' cs' hrest hdepth hs => ?_⟩
    simp only [List.append_assoc] at hdepth ⊢
    refine notesNodes_element hbefore hopening hdepth
      (fun d => notesNodes_inner hinner hafter (hclosing.stops rest)) (hclosing.notes tag)
      (by simp only [List.length_append]; omega) hs
  · refine ⟨[], tag, .nil, fun rest depth hrest hdepth => ?_⟩
    simp only [List.append_assoc] at hdepth ⊢
    rw [← List.append_nil ([] ++ [missing tag])]
    exact notesNodes_element hbefore hopening hdepth
      (fun d => notesNodes_inner hinner hafter (hrest.mono true))
      (notes_closingTag_missing hrest tag) (by simp only [List.length_append]; omega)
      (notesNodes_stop (hrest.mono c))

/-- An element whose content leaks leaks as well: its closing line is taken for that of
the element inside. -/
theorem leaks_inElement {tag : String} (hbefore : IsLines c before)
    (hopening : IsOpening tag opening) (hlength : ∀ rest : List Char, rest.length ≤ left (torn ++ rest))
    (hinner : Leaks source true torn) (hclosing : IsClosing tag closing) (hafter : IsLines c after) :
    Leaks source c (before ++ (opening ++ (torn ++ (closing ++ after)))) := by
  obtain ⟨ms, hms, hnodes⟩ := hinner.closes tag closing hclosing
  have hcontent : ∀ {rest}, Stops true rest →
      ∀ d, 4 * left (torn ++ (closing ++ (after ++ rest))) + 3 ≤ d →
        NotesNodes source true d (torn ++ (closing ++ (after ++ rest))) ms rest := by
    intro rest hstop d hd
    have hle := left_le (after ++ rest)
    have hlt := hlength (closing ++ (after ++ rest))
    rw [List.length_append] at hlt
    rw [← List.append_nil ms]
    exact hnodes _ d [] rest (hafter.isLine hstop.isLine) hd
      (hafter.mono.notesNodes_stop hstop (by omega))
  constructor
  · intro got closing' hclosing'
    refine ⟨ms ++ mismatches tag got, hms.append (mismatches_mismatches _ _),
      fun rest depth ms' cs' hrest hdepth hs => ?_⟩
    simp only [List.append_assoc] at hdepth ⊢
    have hall := notesNodes_element hbefore hopening hdepth (hcontent (hclosing'.stops rest))
      (hclosing'.notes tag) (by simp only [List.length_append]; omega) hs
    simpa only [List.append_assoc] using hall
  · refine ⟨ms, tag, hms, fun rest depth hrest hdepth => ?_⟩
    simp only [List.append_assoc] at hdepth ⊢
    rw [← List.append_nil (ms ++ [missing tag])]
    exact notesNodes_element hbefore hopening hdepth (hcontent (hrest.mono true))
      (notes_closingTag_missing hrest tag) (by simp only [List.length_append]; omega)
      (notesNodes_stop (hrest.mono c))

/-- An element whose content does not leak does not leak. -/
theorem contains_inElement {tag : String} (hbefore : IsLines c before)
    (hopening : IsOpening tag opening) (hinner : Contains source true torn)
    (hclosing : IsClosing tag closing) (hafter : IsLines c after) :
    Contains source c (before ++ (opening ++ (torn ++ (closing ++ after)))) := by
  obtain ⟨ms, want, hms, hnodes⟩ := hinner
  refine ⟨ms, want, hms, fun rest depth ms' cs' hrest hdepth hs => ?_⟩
  have hstop := hclosing.stops (after ++ rest)
  simp only [List.append_assoc] at hdepth ⊢
  rw [List.append_cons]
  exact notesNodes_closed hbefore hopening hclosing hafter hrest hdepth
    (fun d hd => hnodes _ d [] _ hstop.isLine hd (notesNodes_stop hstop)) hs

/-- **A block holds what is noted in it**, whether its body leaks or not. -/
theorem contains_inBlock {f : Frame} (hbefore : IsLines c before)
    (hframe : IsFrame opening closing f)
    (hinner : Leaks source false torn ∨ Contains source false torn) (hafter : IsLines c after) :
    Contains source c (before ++ (opening ++ (torn ++ (closing ++ after)))) := by
  have hbody : ∃ ms tag, Mismatches ms ∧ ∀ rest d, Stops false rest →
      4 * left (torn ++ rest) + 3 ≤ d →
        NotesNodes source false d (torn ++ rest) (ms ++ [missing tag]) rest := by
    rcases hinner with hleaks | ⟨ms, tag, hms, hnodes⟩
    · exact hleaks.stops
    · exact ⟨ms, tag, hms, fun rest d hstop hd =>
        hnodes rest d [] rest hstop.isLine hd (notesNodes_stop hstop)⟩
  obtain ⟨ms, tag, hms, hnodes⟩ := hbody
  refine ⟨ms, tag, hms, fun rest depth ms' cs' hrest hdepth hs => ?_⟩
  simp only [List.append_assoc] at hdepth ⊢
  rw [List.append_cons]
  exact notesNodes_framed hbefore hframe hafter hrest hdepth
    (fun d hd => hnodes _ d (hframe.stops (after ++ rest)) hd) hs

end

/-- **Without the tear** nothing is noted. -/
theorem IsTorn.notesNodes_whole (h : IsTorn c text torn) (hrest : IsLine rest)
    (hdepth : 4 * left (text ++ rest) + 3 ≤ depth) (hs : NotesNodes source c depth rest ms cs') :
    NotesNodes source c depth (text ++ rest) ms cs' := by
  induction h generalizing rest depth ms cs' with
  | @here c tag before opening inner line after hbefore hopening hinner hline hafter =>
    have hstop := hline.stops (after ++ rest)
    simp only [List.append_assoc] at hdepth ⊢
    rw [← List.nil_append ms]
    exact notesNodes_closed hbefore hopening hline hafter hrest hdepth
      (fun d hd => hinner.notesNodes_stop hstop hd) hs
  | @inElement c tag before opening inner torn closing after hbefore hopening hinner hclosing hafter
      ih =>
    have hstop := hclosing.stops (after ++ rest)
    simp only [List.append_assoc] at hdepth ⊢
    exact notesNodes_closed hbefore hopening hclosing hafter hrest hdepth
      (fun d hd => ih hstop.isLine hd (notesNodes_stop hstop)) hs
  | @inBlock c f before opening inner torn closing after hbefore hframe hinner hafter ih =>
    have hstop := hframe.stops (after ++ rest)
    simp only [List.append_assoc] at hdepth ⊢
    exact notesNodes_framed hbefore hframe hafter hrest hdepth
      (fun d hd => ih hstop.isLine hd (notesNodes_stop hstop)) hs

/-- **A torn body leaks or does not.** -/
theorem IsTorn.leaks_or_contains (h : IsTorn c text torn) :
    Leaks source c torn ∨ Contains source c torn := by
  induction h with
  | here hbefore hopening hinner _ hafter => exact .inl (leaks_here hbefore hopening hinner hafter)
  | inElement hbefore hopening hinner hclosing hafter ih =>
    exact ih.imp (leaks_inElement hbefore hopening hinner.length_le · hclosing hafter)
      (contains_inElement hbefore hopening · hclosing hafter)
  | inBlock hbefore hframe hinner hafter ih =>
    exact .inr (contains_inBlock hbefore hframe ih hafter)

/-- **The end of a block ends what is torn in it.** Over the lines of a torn body one
missing closing tag is noted, and else only tags of other names. -/
theorem IsTorn.notesNodes (h : IsTorn false text torn) : ∃ ms tag, Mismatches ms ∧
    ∀ rest depth, Stops false rest → 4 * left (torn ++ rest) + 3 ≤ depth →
      NotesNodes source false depth (torn ++ rest) (ms ++ [missing tag]) rest := by
  rcases h.leaks_or_contains with hleaks | ⟨ms, tag, hms, hnodes⟩
  · exact hleaks.stops
  · exact ⟨ms, tag, hms, fun rest depth hstop hdepth =>
      hnodes rest depth [] rest hstop.isLine hdepth (notesNodes_stop hstop)⟩

end Gsx.Recovery
