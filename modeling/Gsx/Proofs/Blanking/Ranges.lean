import Mathlib.Data.List.Basic
import Gsx.Proofs.Blanking.Sources
import Gsx.Proofs.Grammar.Outline
/-!
# What a tree has from its source

The comments that are attached in a tree, and the ranges of the source from which
it has Go as text. A range is known from the tree alone: from the position of a
node, and for what stands in a head from the number of tokens in front of it.
-/

namespace Gsx

/-! ## Offsets of positions -/

theorem lastNewline_eq {source : List Char} {a b : Nat} (hle : a ≤ b)
    (h : (source.take a).count '\n' = (source.take b).count '\n') :
    lastNewline source a = lastNewline source b := by
  induction b, hle using Nat.le_induction with
  | base => rfl
  | succ b hle ih =>
    have hstep : (source.take (b + 1)).count '\n'
        = (source.take b).count '\n' + if source[b]? = some '\n' then 1 else 0 := by
      rw [List.take_add_one, List.count_append]
      cases source[b]? with
      | none => rfl
      | some c => simp [List.count_singleton]
    have hmono : (source.take a).count '\n' ≤ (source.take b).count '\n' :=
      (List.take_sublist_take_left hle).count_le _
    rw [lastNewline]
    split at hstep
    · omega
    · next hline => rw [if_neg hline, ih (by omega)]

/-- No two offsets have one position. -/
theorem Position.ofOffset_injective (source : List Char) :
    Function.Injective (Position.ofOffset source) := by
  have hle : ∀ {a b : Nat}, a ≤ b → Position.ofOffset source a = Position.ofOffset source b →
      a = b := fun {a b} hle h => by
    have hline := congrArg Position.line h
    have hcolumn := congrArg Position.column h
    simp only [Position.ofOffset] at hline hcolumn
    rw [lastNewline_eq hle (by omega)] at hcolumn
    omega
  intro a b h
  exact (Nat.le_total a b).elim (hle · h) fun hge => (hle hge h.symm).symm

/-- The offset at a position of a source, zero where it has none. -/
def Position.offset (source : List Char) (p : Position) : Nat :=
  ((List.range (source.length + 1)).find? (fun o => decide (Position.ofOffset source o = p))).getD 0

theorem Position.offset_ofOffset {source : List Char} {o : Nat} (h : o ≤ source.length) :
    (Position.ofOffset source o).offset source = o := by
  rw [offset]
  cases hfind : (List.range (source.length + 1)).find?
      fun i => decide (ofOffset source i = ofOffset source o) with
  | none =>
    have hno := List.find?_eq_none.1 hfind o (List.mem_range.2 (Nat.lt_succ_of_le h))
    exact absurd (decide_eq_true rfl) hno
  | some i =>
    have heq := List.find?_some hfind
    exact ofOffset_injective source (of_decide_eq_true heq)

/-! ## Ranges -/

/-- The offsets from one up to another. -/
structure SourceRange where
  start : Nat
  stop : Nat
  deriving DecidableEq, Repr

/-- The range of text that stands at an offset, perhaps behind blanks. -/
def SourceRange.ofText (source : List Char) (start : Nat) (text : String) : SourceRange :=
  ⟨start, start + ((source.drop start).takeWhile Text.isBlank).length + text.toList.length⟩

/-- The range of the braces at an offset, if there are any. -/
def SourceRange.ofBraces (source : List Char) (start : Nat) : List SourceRange :=
  match source.drop start with
  | '{' :: rest =>
    match Braces.closing? rest with
    | some n => [⟨start, start + n + 2⟩]
    | none => []
  | _ => []

/-- Where a token starts that stands a number of tokens behind the one at a
position. -/
def startBehind (source : List Char) (p : Position) (n : Nat) : Nat :=
  ((Lexer.at source (p.offset source)).token n).start

/-! ## Nodes -/

/-- The comments of a group that may be missing. -/
def commentsIn (g : Option CommentGroup) : List Comment :=
  g.elim [] CommentGroup.comments

/-- The comments of some groups. -/
def commentsAmong (gs : List CommentGroup) : List Comment :=
  gs.flatMap CommentGroup.comments

@[simp] theorem commentsAmong_append (gs hs : List CommentGroup) :
    commentsAmong (gs ++ hs) = commentsAmong gs ++ commentsAmong hs :=
  List.flatMap_append

/-- Comments are put into groups in their order. -/
theorem commentsAmong_ofComments (cs : List Comment) :
    commentsAmong (CommentGroup.ofComments cs) = cs := by
  have hpush : ∀ (c : Comment) (gs : List CommentGroup),
      commentsAmong (CommentGroup.push c gs) = c :: commentsAmong gs := fun c gs => by
    cases gs with
    | nil => rfl
    | cons g gs =>
      obtain ⟨_ | ⟨d, ds⟩⟩ := g
      · rfl
      · simp only [CommentGroup.push]
        split <;> rfl
  induction cs with
  | nil => rfl
  | cons c cs ih => rw [CommentGroup.ofComments, hpush, ih]

/-- The comments attached to an element and to the expressions in its tag. -/
def ElementHead.comments (h : ElementHead) : List Comment :=
  h.expressions.flatMap (commentsIn ·.leading)
    ++ (commentsIn h.leading ++ (commentsIn h.trailing ++ commentsAmong h.orphans))

/-- The expressions in braces in the tag of an element. -/
def ElementHead.ranges (source : List Char) (h : ElementHead) : List SourceRange :=
  h.expressions.flatMap fun e => SourceRange.ofBraces source (e.position.offset source)

/-- What comes behind the tokens of a `@for` loop: `@for value := range`, or with
an index and a comma. -/
def ForHead.range (source : List Char) (h : ForHead) : SourceRange :=
  .ofText source (startBehind source h.position (if h.index = "" then 4 else 6)) h.iterable

mutual

/-- The comments attached to a node and in it. -/
def Node.comments : Node → List Comment
  | .element h cs => h.comments ++ Node.commentsAll cs
  | .letBinding h e cs => commentsIn h.leading ++ (e.comments ++ Node.commentsAll cs)
  | .forLoop h b =>
    commentsIn h.leading ++ (commentsIn h.trailing ++ (commentsAmong h.orphans
      ++ Node.commentsAll b))
  | .conditional h t e =>
    commentsIn h.leading ++ (commentsIn h.trailing ++ (commentsAmong h.orphans
      ++ (Node.commentsAll t ++ Node.commentsAll e)))
  | .call h cs => commentsIn h.leading ++ (commentsAmong h.orphans ++ Node.commentsAll cs)
  | .slot s => commentsIn s.leading
  | .expression e => commentsIn e.leading
  | .letReference _ | .text _ => []
  | .goCode c => commentsIn c.leading

/-- The comments attached to nodes and in them. -/
def Node.commentsAll : List Node → List Comment
  | [] => []
  | n :: ns => n.comments ++ Node.commentsAll ns

end

mutual

/-- The ranges of the Go that a node has as text. -/
def Node.ranges (source : List Char) : Node → List SourceRange
  | .element h cs => h.ranges source ++ Node.rangesAll source cs
  | .letBinding _ e cs => e.ranges source ++ Node.rangesAll source cs
  | .forLoop h b => h.range source :: Node.rangesAll source b
  | .conditional h t e =>
    .ofText source (startBehind source h.position 1) h.condition
      :: (Node.rangesAll source t ++ Node.rangesAll source e)
  | .call h cs =>
    .ofText source (startBehind source h.position 2) h.args :: Node.rangesAll source cs
  | .slot s => SourceRange.ofBraces source (s.position.offset source)
  | .expression e => SourceRange.ofBraces source (e.position.offset source)
  | .letReference _ | .text _ => []
  | .goCode c => [.ofText source (c.position.offset source) c.code]

/-- The ranges of the Go that nodes have as text. -/
def Node.rangesAll (source : List Char) : List Node → List SourceRange
  | [] => []
  | n :: ns => n.ranges source ++ Node.rangesAll source ns

end

theorem Node.comments_withLeading (g : CommentGroup) (n : Node) :
    (n.withLeading g).comments ⊆ g.comments ++ n.comments := by
  intro c hc
  cases n <;> simp only [Node.withLeading, Node.comments, ElementHead.comments,
    ElementHead.expressions, commentsIn, Option.elim, List.mem_append] at hc ⊢ <;> tauto

@[simp] theorem Node.ranges_withLeading (source : List Char) (g : CommentGroup) (n : Node) :
    (n.withLeading g).ranges source = n.ranges source := by
  cases n <;> rfl

/-! ## Bodies -/

namespace Body

/-- The comments in a body. -/
def comments (b : Body) : List Comment :=
  Node.commentsAll b.nodes ++ commentsAmong b.orphans

/-- The comments of a part of a body. -/
def Part.comments (p : Part) : List Comment :=
  commentsIn p.leading ++ p.node.elim [] Node.comments

/-- The ranges of the Go in a part of a body. -/
def Part.ranges (source : List Char) (p : Part) : List SourceRange :=
  p.node.elim [] (Node.ranges source)

theorem comments_push (p : Part) (b : Body) : (push p b).comments ⊆ p.comments ++ b.comments := by
  obtain ⟨leading, node⟩ := p
  intro c hc
  cases node with
  | none =>
    cases leading with
    | none => exact hc
    | some g =>
      simp only [push, comments, commentsAmong, Part.comments, commentsIn, Option.elim,
        List.flatMap_cons, List.mem_append] at hc ⊢
      tauto
  | some n =>
    cases leading with
    | none =>
      simp only [push, comments, Node.commentsAll, Part.comments, commentsIn, Option.elim,
        List.mem_append] at hc ⊢
      tauto
    | some g =>
      have hnode := @Node.comments_withLeading g n c
      simp only [push, comments, Node.commentsAll, Part.comments, commentsIn, Option.elim,
        List.mem_append] at hc hnode ⊢
      tauto

/-- Parts lose no comment that is in the body. -/
theorem comments_ofParts (parts : List Part) (orphans : List CommentGroup) :
    (ofParts parts orphans).comments ⊆ parts.flatMap Part.comments ++ commentsAmong orphans := by
  induction parts with
  | nil => exact List.Subset.refl _
  | cons p parts ih =>
    rw [List.flatMap_cons, List.append_assoc]
    exact List.Subset.trans (comments_push p (ofParts parts orphans))
      (List.append_subset.2 ⟨List.subset_append_left _ _,
        List.subset_append_of_subset_right _ ih⟩)

theorem ranges_push (source : List Char) (p : Part) (b : Body) :
    Node.rangesAll source (push p b).nodes = p.ranges source ++ Node.rangesAll source b.nodes := by
  obtain ⟨leading, node⟩ := p
  cases node with
  | none => cases leading <;> rfl
  | some n =>
    cases leading with
    | none => rfl
    | some g => exact congrArg (· ++ _) (n.ranges_withLeading source g)

theorem ranges_ofParts (source : List Char) (parts : List Part) (orphans : List CommentGroup) :
    Node.rangesAll source (ofParts parts orphans).nodes = parts.flatMap (Part.ranges source) := by
  induction parts with
  | nil => rfl
  | cons p parts ih =>
    rw [List.flatMap_cons, ← ih]
    exact ranges_push source p (ofParts parts orphans)

end Body

/-- The comments in a block. -/
def Block.comments (b : Block) : List Comment :=
  commentsIn b.trailing ++ b.body.comments

/-! ## Declarations -/

/-- The comments attached to a component and in it. -/
def Component.comments (c : Component) : List Comment :=
  commentsIn c.leading ++ (commentsIn c.trailing ++ (commentsAmong c.orphans
    ++ Node.commentsAll c.body))

/-- The type of a parameter, one token behind its name. -/
def Param.range (source : List Char) (p : Param) : SourceRange :=
  .ofText source (startBehind source p.position 1) p.type

/-- The ranges of the Go that a component has as text. -/
def Component.ranges (source : List Char) (c : Component) : List SourceRange :=
  c.params.map (Param.range source) ++ Node.rangesAll source c.body

/-- The comments attached to a declaration and in it. -/
def Declaration.comments : Declaration → List Comment
  | .component c => c.comments
  | .func f => commentsIn f.leading
  | .decl d => commentsIn d.leading

/-- The ranges of the Go that a declaration has as text. -/
def Declaration.ranges (source : List Char) : Declaration → List SourceRange
  | .component c => c.ranges source
  | .func f => [.ofText source (f.position.offset source) f.code]
  | .decl d => [.ofText source (d.position.offset source) d.code]

namespace SourceFile

/-- **The comments attached in a file.** -/
def comments (f : SourceFile) : List Comment :=
  commentsIn f.leading ++ (f.imports.flatMap (commentsIn ·.trailing)
    ++ (f.decls.flatMap (commentsIn ·.leading) ++ (f.components.flatMap Component.comments
      ++ (f.funcs.flatMap (commentsIn ·.leading) ++ commentsAmong f.orphans))))

/-- **The ranges of the Go that a file has as text**: functions, declarations and
statements, parameter types, conditions, iterables, arguments and expressions. -/
def ranges (source : List Char) (f : SourceFile) : List SourceRange :=
  f.decls.map (fun d => .ofText source (d.position.offset source) d.code)
    ++ (f.components.flatMap (Component.ranges source)
      ++ f.funcs.map fun g => .ofText source (g.position.offset source) g.code)

end SourceFile

end Gsx
