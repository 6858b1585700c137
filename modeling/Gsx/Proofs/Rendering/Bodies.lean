import Gsx.Proofs.Rendering.Heads
import Mathlib.Data.List.Forall2
/-!
# Bodies

A body is read back line by line: each of its nodes starts on a line of its own
and ends in front of the next one. What reads a node, and where a body ends,
depends on whether it is the content of an element.
-/

namespace Gsx.Rendering

open Lexer Parse

variable {source cs cs' rest w : List Char} {k : TokenKind} {inContent : Bool} {n : Node}

/-! ## The readers of bodies -/

/-- The reader of a node of a body or of the content of an element. -/
def readNode (inContent : Bool) : Nat → Parse (Option Node) :=
  if inContent then contentNode else bodyNode

/-- The reader of a body or of the content of an element. -/
def readBody (inContent : Bool) : Nat → Parse Body :=
  if inContent then content else body

/-- Whether a body or the content of an element ends at a token. -/
def ends (inContent : Bool) : Token → Bool :=
  if inContent then Token.endsContent else Token.endsBody

theorem readBody_succ (inContent : Bool) (depth : Nat) :
    readBody inContent (depth + 1) = Parse.nodes (ends inContent) (readNode inContent depth) := by
  cases inContent <;> rfl

/-! ## Margins -/

theorem of_margin {P : List Char → Prop} (hgap : ∀ cs, P cs → P (' ' :: cs)) (h : P cs)
    (n : Nat) : P (margin n ++ cs) := by
  induction n with
  | zero => exact h
  | succ n ih => exact hgap _ ih

theorem Front.margin (h : Front cs k w cs') (n : Nat) : Front (margin n ++ cs) k w cs' :=
  of_margin (P := fun cs => Front cs k w cs') (fun _ h => h.gap rfl) h n

theorem Reads.margin {α : Type} {r : Parse α} {p : α → Prop} (h : Reads source cs r p cs')
    (n : Nat) : Reads source (margin n ++ cs) r p cs' :=
  of_margin (P := fun cs => Reads source cs r p cs') (fun _ h => h.gap rfl) h n

/-! ## Lines -/

/-- A text that starts with a line of its own: something stands on it, and it is
no else branch. -/
def IsLine (cs : List Char) : Prop :=
  ∃ k w cs', Front cs k w cs' ∧ k ≠ .newline ∧ k ≠ .atElse ∧ Quiet 1 cs'

theorem IsLine.startsLine (h : IsLine cs) : StartsLine cs := by
  obtain ⟨k, w, cs', hf, hk, -⟩ := h
  exact ⟨k, w, cs', hf, hk⟩

theorem IsLine.quiet (h : IsLine cs) : Quiet 2 cs := by
  obtain ⟨k, w, cs', hf, -, -, hq⟩ := h
  exact ⟨k, w, cs', hf, hq⟩

theorem IsLine.quiet_newline (h : IsLine cs) : Quiet 2 ('\n' :: cs) :=
  ⟨_, _, _, front_newline cs, h.quiet.of_succ⟩

/-- A text in front of a line, with or without the end of the line before it. -/
def LineEnd (cs line : List Char) : Prop :=
  cs = line ∨ cs = '\n' :: line

theorem reads_skipNewlines_lineEnd (h : LineEnd cs rest) (hrest : StartsLine rest) :
    Reads source cs skipNewlines (fun _ => True) rest := by
  rcases h with rfl | rfl
  · exact reads_skipNewlines hrest
  · exact reads_skipNewlines_newline hrest

/-- The kind of the token that closes a body or the content of an element. -/
def closer (inContent : Bool) : TokenKind :=
  if inContent then .angleSlash else .rightBrace

/-- A text that starts with the end of a body. -/
def Closes (inContent : Bool) (cs : List Char) : Prop :=
  ∃ w cs', Front cs (closer inContent) w cs' ∧ Quiet 1 cs'

theorem Closes.isLine (h : Closes inContent cs) : IsLine cs := by
  obtain ⟨w, cs', hf, hq⟩ := h
  refine ⟨_, w, cs', hf, ?_, ?_, hq⟩ <;> cases inContent <;> decide

/-! ## The first token of a node -/

/-- Whether a node of any body starts with a token. -/
def opensMarkup : TokenKind → Bool
  | .leftAngle | .atLet | .atFor | .atIf | .atCall | .leftBrace => true
  | _ => false

/-- Whether a node starts with a token: text does in the content of an element,
and a Go statement elsewhere. -/
def opensNode (inContent : Bool) (k : TokenKind) : Bool :=
  opensMarkup k || if inContent then k.isWord else k.startsStatement

theorem ne_of_opensNode (hk : opensNode inContent k) : k ≠ .newline ∧ k ≠ .atElse := by
  constructor <;> rintro rfl <;> cases inContent <;> exact absurd hk Bool.false_ne_true

/-- **No body ends at the first token of a node**, since that is not in the first
column. -/
theorem ends_eq_false {t : Token} (ht : IsAt source cs k w t) (hgap : cs.head?.any isGap)
    (hk : opensNode inContent k) : ends inContent t = false := by
  -- a word that starts a declaration does so in the first column only
  have hcolumn : (t.position.column == 1) = false := by
    have := ht.column hgap
    rw [beq_eq_false_iff_ne]
    omega
  have hbody : t.endsBody = false := by
    simp only [Token.endsBody, Token.startsDeclaration, ht.kind, hcolumn, Bool.false_and,
      Bool.or_false]
    revert hk
    cases inContent <;> cases k <;> decide
  cases inContent with
  | false => exact hbody
  | true =>
    change (t.kind == .angleSlash || t.endsBody) = false
    rw [hbody, Bool.or_false, ht.kind, beq_eq_false_iff_ne]
    rintro rfl
    exact absurd hk Bool.false_ne_true

theorem ends_of_closer {t : Token} (ht : t.kind = closer inContent) : ends inContent t := by
  cases inContent with
  | false =>
    change t.endsBody
    rw [Token.endsBody, ht]
    rfl
  | true =>
    change (t.kind == .angleSlash || t.endsBody) = true
    rw [ht]
    rfl

/-! ## Rounds -/

/-- Whether a part of a body is a node without comments, the same as another one. -/
def IsPart (n : Node) (p : Body.Part) : Prop :=
  ∃ m, n.same m ∧ p = ⟨none, some m⟩

/-- A text at the start of a node. -/
structure StartsNode (inContent : Bool) (cs : List Char) : Prop where
  gap : cs.head?.any isGap
  front : ∃ k w cs', Front cs k w cs' ∧ opensNode inContent k ∧ Quiet 1 cs'

theorem StartsNode.isLine (h : StartsNode inContent cs) : IsLine cs := by
  obtain ⟨k, w, cs', hf, hk, hq⟩ := h.front
  obtain ⟨hline, helse⟩ := ne_of_opensNode hk
  exact ⟨k, w, cs', hf, hline, helse, hq⟩

theorem reads_bodyRound_more {start : List Char} {reader : Parse (Option Node)}
    (hstart : LineEnd start cs) (h : StartsNode inContent cs)
    (hnode : Reads source cs reader (Gives n.same) cs') :
    Reads source start (bodyRound (ends inContent) reader)
      (fun r => ∃ p, IsPart n p ∧ r = .more [p]) cs' := by
  obtain ⟨k, w, cs₁, hf, hk, hq⟩ := h.front
  refine (reads_skipNewlines_lineEnd hstart h.isLine.startsLine).bind fun _ _ =>
    .current hf fun t ht => ?_
  rw [if_neg (by rw [ends_eq_false ht h.gap hk]; decide)]
  refine (reads_leadingComments h.isLine.quiet).bind ?_
  rintro _ rfl
  refine hnode.bind ?_
  rintro _ ⟨m, rfl, hm⟩
  exact .pure ⟨_, ⟨m, hm, rfl⟩, rfl⟩

theorem reads_bodyRound_last {start : List Char} {reader : Parse (Option Node)}
    (hstart : LineEnd start cs) (h : Closes inContent cs) :
    Reads source start (bodyRound (ends inContent) reader) (· = .last []) cs := by
  obtain ⟨w, cs₁, hf, hq⟩ := h
  refine (reads_skipNewlines_lineEnd hstart (Closes.isLine ⟨w, cs₁, hf, hq⟩).startsLine).bind
    fun _ _ => .current hf fun t ht => ?_
  rw [if_pos (ends_of_closer ht.kind)]
  exact .pure rfl

/-! ## Bodies as wholes -/

/-- Whether a body has the same nodes as a list of them, and no comments. -/
def IsBody (ns : List Node) (b : Body) : Prop :=
  Node.sameAll ns b.nodes ∧ b.orphans = []

/-- The parts of a body make up the body. -/
theorem isBody_ofParts {ns : List Node} {ps : List Body.Part}
    (h : List.Forall₂ IsPart ns ps) : IsBody ns (.ofParts ps []) := by
  induction h with
  | nil => exact ⟨rfl, rfl⟩
  | cons hp _ ih =>
    obtain ⟨m, hm, rfl⟩ := hp
    refine ⟨?_, ih.2⟩
    change (Node.same _ m && Node.sameAll _ (Body.ofParts _ []).nodes) = true
    rw [hm, ih.1, Bool.true_and]

/-- **A text that is read as a node** in front of any line. Calls need a depth
that grows with the text. -/
structure IsNodeText (inContent : Bool) (text : List Char) (n : Node) : Prop where
  ne_nil : text ≠ []
  starts : ∀ rest, IsLine rest → StartsNode inContent (text ++ rest)
  reads : ∀ source rest depth, IsLine rest → 4 * text.length + 3 ≤ depth →
    ∃ cs', LineEnd cs' rest ∧
      Reads source (text ++ rest) (readNode inContent depth) (Gives n.same) cs'

/-- **A text that is read as the nodes of a body** in front of its end. -/
structure IsBodyText (inContent : Bool) (text : List Char) (ns : List Node) : Prop where
  length_le : ns.length ≤ text.length
  isLine : ∀ rest, Closes inContent rest → IsLine (text ++ rest)
  reads : ∀ source start rest depth fuel, LineEnd start (text ++ rest) → Closes inContent rest →
    4 * text.length + 3 ≤ depth → ns.length < fuel →
    Reads source start (repeatUpTo (bodyRound (ends inContent) (readNode inContent depth)) fuel)
      (List.Forall₂ IsPart ns) rest

theorem IsBodyText.nil : IsBodyText inContent [] [] where
  length_le := Nat.le_refl _
  isLine _ h := h.isLine
  reads source start rest depth fuel hstart hrest _ hfuel := by
    obtain ⟨fuel, rfl⟩ := Nat.exists_eq_add_one.2 hfuel
    exact reads_repeatUpTo_last
      ((reads_bodyRound_last hstart hrest).weaken fun _ h => ⟨[], .nil, h⟩) fuel

theorem IsBodyText.cons {text text' : List Char} {ns : List Node} (h : IsNodeText inContent text n)
    (hs : IsBodyText inContent text' ns) : IsBodyText inContent (text ++ text') (n :: ns) where
  length_le := by
    have := hs.length_le
    have := List.length_pos_of_ne_nil h.ne_nil
    rw [List.length_append, List.length_cons]
    omega
  isLine rest hrest := by
    rw [List.append_assoc]
    exact (h.starts _ (hs.isLine rest hrest)).isLine
  reads source start rest depth fuel hstart hrest hdepth hfuel := by
    rw [List.append_assoc] at hstart
    rw [List.length_append] at hdepth
    rw [List.length_cons] at hfuel
    obtain ⟨fuel, rfl⟩ := Nat.exists_eq_add_one.2 (Nat.zero_lt_of_lt hfuel)
    have hline := hs.isLine rest hrest
    -- the nodes behind are a line of their own, so the first one ends in front of them
    obtain ⟨cs', hcs', hnode⟩ := h.reads source _ depth hline (by omega)
    have hround := reads_bodyRound_more hstart (h.starts _ hline) hnode
    have hnodes := hs.reads source cs' rest depth fuel hcs' hrest (by omega) (by omega)
    refine (reads_repeatUpTo_more hround hnodes).weaken ?_
    rintro _ ⟨p, ps, hp, hps, rfl⟩
    exact .cons hp hps

/-- **The body of a node is read up to its end.** -/
theorem IsBodyText.reads_body {text : List Char} {ns : List Node} {start : List Char} {depth : Nat}
    (h : IsBodyText inContent text ns) (hstart : LineEnd start (text ++ rest))
    (hrest : Closes inContent rest) (hdepth : 4 * text.length + 4 ≤ depth) :
    Reads source start (readBody inContent depth) (IsBody ns) rest := by
  obtain ⟨depth, rfl⟩ := Nat.exists_eq_add_one.2 (by omega : 0 < depth)
  have hlength : ns.length ≤ start.length := by
    have := h.length_le
    rcases hstart with rfl | rfl <;> simp only [List.length_cons, List.length_append] <;> omega
  have hparts : Reads source start
      (repeated (bodyRound (ends inContent) (readNode inContent depth)))
      (List.Forall₂ IsPart ns) rest :=
    .rounds (repeatUpTo _) ns.length hlength fun fuel =>
      h.reads source start rest depth _ hstart hrest (by omega) (by omega)
  rw [readBody_succ]
  refine hparts.bind fun ps hps => (reads_orphanComments hrest.isLine.quiet).bind ?_
  rintro _ rfl
  exact .pure (isBody_ofParts hps)

/-! ## Nodes of any body -/

/-- A text that is read as a node of any body is read as one behind a margin. -/
theorem IsNodeText.markup {text : List Char}
    (hstarts : ∀ rest, IsLine rest →
      ∃ k w cs', Front (text ++ rest) k w cs' ∧ opensMarkup k ∧ Quiet 1 cs')
    (hreads : ∀ source rest depth, IsLine rest → 4 * text.length + 6 ≤ depth →
      ∃ cs', LineEnd cs' rest ∧ Reads source (text ++ rest) (markup depth) (Gives n.same) cs')
    (m : Nat) : IsNodeText inContent (margin (m + 1) ++ text) n where
  ne_nil := nofun
  starts rest hrest := by
    obtain ⟨k, w, cs', hf, hk, hq⟩ := hstarts rest hrest
    rw [List.append_assoc]
    refine ⟨rfl, k, w, cs', hf.margin (m + 1), ?_, hq⟩
    rw [opensNode, hk, Bool.true_or]
  reads source rest depth hrest hdepth := by
    rw [List.length_append, margin, List.length_replicate] at hdepth
    obtain ⟨depth, rfl⟩ := Nat.exists_eq_add_one.2 (by omega : 0 < depth)
    obtain ⟨k, w, cs₁, hf, hk, -⟩ := hstarts rest hrest
    obtain ⟨cs', hcs', hmarkup⟩ := hreads source rest depth hrest (by omega)
    refine ⟨cs', hcs', ?_⟩
    rw [List.append_assoc]
    refine Reads.margin ?_ (m + 1)
    -- both readers hand on what opens a node of any body, and nothing else
    cases inContent <;> refine .kind hf ?_ <;> cases k <;> first | exact hmarkup | cases hk

end Gsx.Rendering
