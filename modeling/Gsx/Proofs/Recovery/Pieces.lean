import Gsx.Proofs.Grammar.NodeEndings
import Gsx.Proofs.Rendering.Bodies
/-!
# Pieces of a body

Where each node of a body stands on lines of its own, the body falls into pieces:
nodes, opening lines, closing lines. What a piece is can be told from the piece alone:
a reader comes to its end, as if it were the whole source, and finds nothing wrong.
In its place the same reader goes through the piece and stands behind it. Comments and
empty lines belong to the piece in front of them or to the one behind.

A directive is told by what stands in front of the lines of one of its blocks and what
stands behind them: a conditional may have whole blocks in both.
-/

namespace Gsx.Recovery

open Parse TokenStream Rendering

variable {α γ : Type} {o : Window} {p : Token → Prop} {s s' : TokenStream} {c : Bool}
  {text rest : List Char}

/-! ## The first token of a text -/

theorem lined_entry (w : List Char) : (entry w).Lined :=
  (Leading.skipNewlines (start w)).lined (lined_start w)

theorem source_entry (w : List Char) : (entry w).lexer.source = w := by
  rw [entry, (Leading.skipNewlines (start w)).source_eq (lined_start w)]
  exact (source_ofSource _ _).trans String.toList_ofList

/-- How much of a text is left from its first token on. -/
def left (w : List Char) : Nat := (entry w).remaining

theorem left_eq (w : List Char) : left w = w.length - (entry w).current.start := by
  rw [left, remaining, source_entry]

/-- **A text that goes on from its first token**: it ends with a line end, and up to
that token nothing is wrong. -/
structure Begins (text : List Char) : Prop where
  line : ∃ cs, text = cs ++ ['\n']
  clean : (entry text).Clean
  there : (entry text).current.kind ≠ .endOfInput

/-- The first token does not depend on what follows the text. -/
theorem Begins.entry_meets (h : Begins text) (rest : List Char) :
    (entry text).Meets (fileWindow text rest h.line) (entry (text ++ rest)) := by
  have hleads := Leading.skipNewlines (start text)
  have hwithin : Within (fileWindow text rest h.line) (entry text) :=
    ⟨(entry_keeps text).2, fun _ => h.clean, fun _ => start_lt (lined_entry text) (source_entry text) h.there⟩
  have hstart : (start text).Meets (fileWindow text rest h.line) (start (text ++ rest)) :=
    meets_ofSource rfl rfl String.toList_ofList String.toList_ofList
      (hleads.within (lined_start text) hwithin)
  exact (Alike.skipNewlines.meets _ _ hstart hwithin).2

theorem Begins.kind_eq (h : Begins text) (rest : List Char) :
    (entry (text ++ rest)).current.kind = (entry text).current.kind :=
  (h.entry_meets rest).same_kind

/-- What is left of a text from its first piece on. -/
theorem Begins.left_append (h : Begins text) (rest : List Char) :
    left (text ++ rest) = left text + rest.length := by
  have hstart := congrArg Token.start (h.entry_meets rest).current_eq
  have hlt := start_lt (o := fileWindow text rest h.line) (lined_entry text) (source_entry text) h.there
  change (entry (text ++ rest)).current.start = 0 + (entry text).current.start at hstart
  change _ < text.length at hlt
  rw [left_eq, left_eq, hstart, List.length_append]
  omega

theorem Begins.two_le_left (h : Begins text) : 2 ≤ left text := by
  have hlt := start_succ_lt (o := fileWindow text [] h.line) rfl (lined_entry text) (source_entry text)
    ⟨h.there, kind_entry_ne text⟩
  change _ < text.length at hlt
  rw [left_eq]
  omega

theorem left_le (w : List Char) : left w ≤ w.length := by
  rw [left_eq]
  omega

/-- A depth that is enough for the nodes of a text. -/
def room (w : List Char) : Nat := 4 * left w + 3

/-! ## Texts that are read alone -/

/-- **A text that a reader reads alone**: from its first token on the reader comes to
its end, and finds nothing wrong. What it gives satisfies `q`. -/
structure Alone (m : Parse α) (q : α → Prop) (text : List Char) : Prop where
  line : ∃ cs, text = cs ++ ['\n']
  ends : Ends (m.run (entry text)).2
  gives : q (m.run (entry text)).1

theorem Alone.begins {m : Parse α} {q : α → Prop} (h : Alone m q text) (hm : Leading m)
    (hthere : (entry text).current.kind ≠ .endOfInput) : Begins text :=
  ⟨h.line, (hm.ends h.ends).2, hthere⟩

/-! ## Opening lines -/

/-- Reads an opening tag and goes to the next line. -/
def elementStart : Parse (Option ElementHead) := do
  match ← elementHead with
  | some head => if ← expectLine .rightAngle then return some head else return none
  | none => return none

/-- Reads the opening tag of an element that may be bound to a name. -/
def elementOpening : Parse (Option ElementHead) := do
  match ← kind with
  | .leftAngle => elementStart
  | .atLet =>
    match ← letHead with
    | some _ => if (← kind) = .leftAngle then elementStart else return none
    | none => return none
  | _ => return none

/-- Reads the brace that opens a block. -/
def blockStart : Parse Bool := do
  let line := (← position).line
  if ← expect .leftBrace then
    let _ ← trailingComment line
    skipNewlines
    return true
  else return false

/-- Reads a loop up to the lines of its block. -/
def forStart : Parse Bool := do
  match ← forHead with
  | some _ => blockStart
  | none => return false

/-- Reads a call up to the lines of its block. -/
def callStart : Parse Bool := do
  match ← callHead with
  | some _ => expectLine .leftBrace
  | none => return false

/-- Reads a conditional up to its first block. -/
def ifHeader : Parse Unit := do
  advance
  let _ ← goHeader
  skipNewlines

/-- Reads a conditional up to what follows its first block. -/
def ifBlock (depth : Nat) : Parse Bool := do
  ifHeader
  return (← block depth).isSome

/-- Reads the word in front of an else branch. -/
def elseWord : Parse Bool := do
  if (← kind) = .atElse then
    advanceLine
    return true
  else return false

/-- **A block of a conditional**: the first one, the last one after a first one, or one
of the conditional in the else branch. -/
inductive Branch where
  | first
  | last
  | next (b : Branch)

namespace Branch

/-- Reads a conditional up to the lines of one of its blocks. -/
def start : Branch → Nat → Parse Bool
  | first, _ => do
    ifHeader
    blockStart
  | last, depth => do
    if ← ifBlock (depth - 1) then
      if ← elseWord then expectLine .leftBrace
      else return false
    else return false
  | next b, depth => do
    if ← ifBlock (depth - 1) then
      if ← elseWord then
        if (← kind) = .atIf then b.start (depth - 2)
        else return false
      else return false
    else return false

/-- Reads a conditional from the brace behind the lines of one of its blocks on. -/
def stop : Branch → Nat → Parse Bool
  | first, depth => do
    if ← expectLine .rightBrace then
      let _ ← elseBranch (depth - 1)
      return true
    else return false
  | last, _ => expectLine .rightBrace
  | next b, depth => b.stop (depth - 2)

end Branch

/-- **A directive or a call**, and which of its blocks is meant. -/
inductive Frame where
  | loop
  | call
  | branch (b : Branch)

namespace Frame

/-- The kind of its first token. -/
def word : Frame → TokenKind
  | loop => .atFor
  | call => .atCall
  | branch _ => .atIf

theorem word_ne (f : Frame) : f.word ≠ .endOfInput := by
  cases f <;> exact TokenKind.noConfusion

/-- Reads it up to the lines of the block. -/
def start : Frame → Nat → Parse Bool
  | loop, _ => forStart
  | call, _ => callStart
  | branch b, depth => b.start depth

/-- Reads it from the brace behind those lines on. -/
def stop : Frame → Nat → Parse Bool
  | branch b, depth => b.stop depth
  | _, _ => expectLine .rightBrace

end Frame

/-! ### Crossing the end -/

theorem alike_elementStart :
    Alike o (Option.map (ElementHead.plain o.tidy)) elementStart elementStart :=
  Alike.elementHead.option (.pure rfl) fun _ _ hh => (Alike.expectLine _).next fun _ =>
    .ite (fun _ => .pure (congrArg some hh)) fun _ => .pure rfl

theorem alike_elementOpening :
    Alike o (Option.map (ElementHead.plain o.tidy)) elementOpening elementOpening := by
  refine .kind fun k => ?_
  split
  · exact alike_elementStart
  · exact Alike.letHead.option (.pure rfl) fun _ _ _ => .kind fun _ =>
      .ite (fun _ => alike_elementStart) fun _ => .pure rfl
  · exact .pure rfl

theorem alike_ifHeader : Alike o id ifHeader ifHeader :=
  Alike.advance.next fun _ => Alike.goHeader.next fun _ => .skipNewlines

theorem alike_ifBlock {d d' : Nat} (hle : d ≤ d') : Alike o id (ifBlock d) (ifBlock d') := by
  refine alike_ifHeader.next fun _ => (alikeAt o hle).block.bind fun b b' h => .pure ?_
  have hsome := congrArg Option.isSome h
  rwa [Option.isSome_map, Option.isSome_map] at hsome

theorem alike_elseWord : Alike o id elseWord elseWord :=
  .kind fun _ => .ite (fun _ => Alike.advanceLine.next fun _ => .pure rfl) fun _ => .pure rfl

section

variable (hcut : o.whole = false) (htidy : o.tidy = false)

include hcut

theorem crosses_elementStart :
    Crosses o p (·.isSome) (Option.map ElementHead.tag) elementStart elementStart := by
  refine .head Alike.elementHead fails_elementHead ⟨_, rfl⟩ fun h h' hh => ?_
  have htag : h.tag = h'.tag := by
    have hplain := congrArg ElementHead.tag hh
    exact hplain
  have hshow : (some h).map ElementHead.tag = (some h').map ElementHead.tag := congrArg some htag
  exact .expectLine hcut (by decide) (by decide) hshow (.pure _) rfl rfl

theorem crosses_elementOpening :
    Crosses o p (·.isSome) (Option.map ElementHead.tag) elementOpening elementOpening := by
  refine .kind fun k => ?_
  split
  · exact crosses_elementStart hcut
  · exact .head Alike.letHead fails_letHead ⟨_, rfl⟩ fun _ _ _ => .kind fun _ =>
      .ite (fun _ => crosses_elementStart hcut) fun _ => .pure_of_not Bool.false_ne_true
  · exact .pure_of_not Bool.false_ne_true

theorem crosses_expectLine {want : TokenKind} (hwant : want ≠ .endOfInput)
    (hline : want ≠ .newline) :
    Crosses o p (· = true) id (expectLine want) (expectLine want) := by
  have hcross : Crosses o p (· = true) id (expectLine want >>= Pure.pure)
      (expectLine want >>= Pure.pure) := .expectLine hcut hwant hline rfl (.pure _) rfl rfl
  rwa [bind_pure] at hcross

include htidy

theorem crosses_blockStart : Crosses o p (· = true) id blockStart blockStart := by
  refine .position fun place => .expectOf (.pure _) ((Crosses.advance hcut htidy ?_).of
    (fun _ ht => Crosses.isLast_of_kind ht (by decide) (by decide)) fun _ => id)
  refine .bindOf (·.kind ≠ .endOfInput) (Alike.trailingComment place.line) (fun s hs _ => ?_)
    fun _ _ _ => .skipNewlines hcut htidy rfl
  rw [run_trailingComment]
  exact hs

theorem crosses_forStart : Crosses o p (· = true) id forStart forStart :=
  .head Alike.forHead fails_forHead ⟨_, rfl⟩ fun _ _ _ => crosses_blockStart hcut htidy

omit htidy in
theorem crosses_callStart : Crosses o p (· = true) id callStart callStart :=
  .head Alike.callHead fails_callHead ⟨_, rfl⟩ fun _ _ _ =>
    crosses_expectLine hcut (by decide) (by decide)

theorem crosses_start (b : Branch) {d d' : Nat} (hle : d ≤ d') :
    Crosses o p (· = true) id (b.start d) (b.start d') := by
  induction b generalizing p d d' with
  | first => exact .next alike_ifHeader fun _ => crosses_blockStart hcut htidy
  | last =>
    refine .next (alike_ifBlock (Nat.sub_le_sub_right hle 1)) fun _ => .ite (fun _ => ?_)
      fun _ => .pure_of_not Bool.false_ne_true
    exact .next alike_elseWord fun _ => .ite
      (fun _ => crosses_expectLine hcut (by decide) (by decide))
      fun _ => .pure_of_not Bool.false_ne_true
  | next b ih =>
    refine .next (alike_ifBlock (Nat.sub_le_sub_right hle 1)) fun _ => .ite (fun _ => ?_)
      fun _ => .pure_of_not Bool.false_ne_true
    refine .next alike_elseWord fun _ => .ite (fun _ => .kind fun _ => .ite (fun _ => ?_)
      fun _ => .pure_of_not Bool.false_ne_true) fun _ => .pure_of_not Bool.false_ne_true
    exact ih (Nat.sub_le_sub_right hle 2)

theorem crosses_frameStart (f : Frame) {d d' : Nat} (hle : d ≤ d') :
    Crosses o p (· = true) id (f.start d) (f.start d') := by
  cases f with
  | loop => exact crosses_forStart hcut htidy
  | call => exact crosses_callStart hcut
  | branch b => exact crosses_start hcut htidy b hle

/-- Behind the brace of its block a conditional may go on, but only with the word for an
else branch. -/
theorem crosses_stop (helse : (entry o.after).current.kind ≠ .atElse) (b : Branch) {d d' : Nat}
    (hle : d ≤ d') : Crosses.Over o p (b.stop d) (b.stop d') := by
  induction b generalizing d d' with
  | first =>
    have hbranch := (Crosses.conditional_elseBranch hcut htidy helse (Nat.sub_le_sub_right hle 1)).2
    have hlead : ∀ found : Bool, Leading (if found = true then do
        let _ ← elseBranch (d - 1)
        Pure.pure true else Pure.pure false) := fun found =>
      .ite (.bind (alikeAt o (Nat.sub_le_sub_right hle 1)).elseBranch.leads fun _ => .pure _) (.pure _)
    refine .thenMaybe (Alike.expectLine _) (crosses_expectLine hcut (by decide) (by decide)) hlead
      (fun s hends => ?_) (fun found found' hfound h => ?_) fun found found' s s' hfound h hends hs => ?_
    · rw [run_bind_eq rfl] at hends
      exact expectLine_of_clean ((hlead _ _).clean hends.clean)
    · cases (show found = found' from h)
      rw [if_pos hfound, if_pos hfound]
      exact .wrap hbranch (fun _ => ⟨_, rfl⟩) fun _ => ⟨_, rfl⟩
    · cases (show found = found' from h)
      rw [if_pos hfound] at hends ⊢
      cases hd : d - 1 with
      | zero =>
        rw [hd] at hends
        exact absurd hends.exhausted.symm Bool.false_ne_true
      | succ k =>
        obtain ⟨d', hd'⟩ : ∃ n, d' - 1 = n + 1 := ⟨d' - 2, by omega⟩
        have hkind : s'.current.kind ≠ .atElse := by
          rw [(meets_rest hcut hs).same_kind]
          exact helse
        rw [hd']
        simp only [StateT.run_bind, run_elseBranch_of_ne hkind]
        rfl
  | last =>
    have hcross : Crosses o p (· = true) id (expectLine .rightBrace) (expectLine .rightBrace) :=
      crosses_expectLine hcut (by decide) (by decide)
    exact (hcross.of_ends fun _ hends => expectLine_of_clean hends.clean).toOver
  | next b ih => exact ih (Nat.sub_le_sub_right hle 2)

theorem crosses_frameStop (helse : (entry o.after).current.kind ≠ .atElse) (f : Frame) {d d' : Nat}
    (hle : d ≤ d') : Crosses.Over o p (f.stop d) (f.stop d') := by
  have hbrace : Crosses o p (· = true) id (expectLine .rightBrace) (expectLine .rightBrace) :=
    crosses_expectLine hcut (by decide) (by decide)
  cases f with
  | branch b => exact crosses_stop hcut htidy helse b hle
  | loop => exact (hbrace.of_ends fun _ hends => expectLine_of_clean hends.clean).toOver
  | call => exact (hbrace.of_ends fun _ hends => expectLine_of_clean hends.clean).toOver

end

/-! ## Lines -/

/-- The stream at the line behind a node. -/
def behindNode (depth : Nat) (s : TokenStream) : TokenStream :=
  (skipNewlines.run ((contentNode depth).run s).2).2

/-- **A stream at a node** of the content of an element, or of any other body, where
free text and Go statements are none. A call has a block. -/
structure StartsNode (c : Bool) (s : TokenStream) : Prop where
  inside : s.current.endsContent = false
  markup : c = false → opensMarkup s.current.kind
  block : HasBlock s

instance (c : Bool) (s : TokenStream) : Decidable (StartsNode c s) :=
  decidable_of_iff
    (s.current.endsContent = false ∧ (c = false → opensMarkup s.current.kind) ∧ HasBlock s)
    ⟨fun ⟨hin, hmarkup, hblock⟩ => ⟨hin, hmarkup, hblock⟩, fun h => ⟨h.inside, h.markup, h.block⟩⟩

/-- **A stream at the last nodes of a text**, none of which is found wrong. -/
inductive ReadsNodes (c : Bool) (depth : Nat) : TokenStream → Prop
  | last {s : TokenStream} (h : StartsNode c s) (hends : Ends (behindNode depth s)) :
      ReadsNodes c depth s
  | more {s : TokenStream} (h : StartsNode c s) (hs : ReadsNodes c depth (behindNode depth s)) :
      ReadsNodes c depth s

/-- **The lines of whole nodes** of the content of an element, or of any other body. -/
inductive IsLines (c : Bool) : List Char → Prop
  | nil : IsLines c []
  | lines {text : List Char} (hline : ∃ cs, text = cs ++ ['\n'])
      (helse : (entry text).current.kind ≠ .atElse) (h : ReadsNodes c (room text) (entry text)) :
      IsLines c text

/-- **The opening line of an element**, which may be bound to a name. -/
abbrev IsOpening (tag : String) (text : List Char) : Prop :=
  Alone elementOpening (fun h => h.map ElementHead.tag = some tag) text

/-- **The closing line of an element.** -/
abbrev IsClosing (tag : String) (text : List Char) : Prop :=
  Alone (closingTag tag) (fun _ => True) text

/-- **What stands in front of the lines of a block and behind them**: the rest of the
directive or call that the block belongs to. -/
structure IsFrame (opening closing : List Char) (f : Frame) : Prop where
  word : (entry opening).current.kind = f.word
  opens : Alone (f.start (room opening)) (· = true) opening
  brace : (entry closing).current.kind = .rightBrace
  closes : Alone (f.stop (room closing)) (fun _ => True) closing

theorem StartsNode.mono {s : TokenStream} (h : StartsNode c s) : StartsNode true s :=
  ⟨h.inside, nofun, h.block⟩

theorem StartsNode.there {s : TokenStream} (h : StartsNode c s) : s.current.kind ≠ .endOfInput := by
  intro hend
  have hinside := h.inside
  rw [endsContent_of_end _ hend] at hinside
  cases hinside

theorem StartsNode.ends_eq {s : TokenStream} (h : StartsNode c s) : ends c s.current = false := by
  have hinside := h.inside
  cases c with
  | true => exact hinside
  | false => exact (Bool.or_eq_false_iff.1 hinside).2

/-- Free text aside, whole nodes of a body are such of the content of an element. -/
theorem ReadsNodes.mono {depth : Nat} {s : TokenStream} (h : ReadsNodes c depth s) :
    ReadsNodes true depth s := by
  induction h with
  | last h hends => exact .last h.mono hends
  | more h _ ih => exact .more h.mono ih

theorem ReadsNodes.start {depth : Nat} {s : TokenStream} (h : ReadsNodes c depth s) :
    StartsNode c s := by
  cases h with
  | last h _ => exact h
  | more h _ => exact h

theorem IsLines.mono (h : IsLines c text) : IsLines true text := by
  cases h with
  | nil => exact .nil
  | lines hline helse h => exact .lines hline helse h.mono

end Gsx.Recovery
