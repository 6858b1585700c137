import Gsx.Proofs.Grammar.Readers
/-!
# Nested readers

The readers of bodies, nodes and directives call each other on what is left of
the source. From one token that is read to the next there are at most four
calls, so a depth of four times what is left, and a little more, is enough: the
readers move on and never run out of depth.
-/

namespace Gsx.Parse

open TokenStream

/-- **The readers of one depth**, with at most `b` characters left: how deep
each has to be to move on. -/
structure Reaches (depth b : Nat) : Prop where
  body : 4 * b + 4 ≤ depth → Forward b (body depth)
  bodyNode : 4 * b + 3 ≤ depth → Consumes IsThere b (bodyNode depth)
  markup : 4 * b + 2 ≤ depth → Consumes IsThere b (markup depth)
  content : 4 * b + 4 ≤ depth → Forward b (content depth)
  contentNode : 4 * b + 3 ≤ depth → Consumes IsThere b (contentNode depth)
  element : 4 * b + 1 ≤ depth → Consumes IsThere b (element depth)
  block : 4 * b + 1 ≤ depth → Forward b (block depth)
  forLoop : 4 * b + 1 ≤ depth → Consumes IsThere b (forLoop depth)
  conditional : 4 * b + 1 ≤ depth → Consumes IsThere b (conditional depth)
  elseBranch : 4 * b + 1 ≤ depth → Forward b (elseBranch depth)
  call : 4 * b + 1 ≤ depth → Consumes IsThere b (call depth)

variable {depth b : Nat}

/-! ## One level -/

section Level

variable (ih : ∀ b, Reaches depth b)

include ih

theorem forward_body (h : 4 * b + 3 ≤ depth) : Forward b (body (depth + 1)) := by
  rw [Parse.body]
  exact forward_nodes endsBody_of_end ((ih b).bodyNode h)

theorem forward_content (h : 4 * b + 3 ≤ depth) : Forward b (content (depth + 1)) := by
  rw [Parse.content]
  exact forward_nodes endsContent_of_end ((ih b).contentNode h)

theorem consumes_bodyNode (h : 4 * b + 2 ≤ depth) :
    Consumes IsThere b (bodyNode (depth + 1)) := by
  rw [Parse.bodyNode]
  refine .kind fun t ht => ?_
  have hmarkup : Consumes (· = t) b (markup depth) :=
    ((ih b).markup h).of (by rintro _ rfl; exact ht)
  split
  case h_7 =>
    split
    · next hstarts =>
      have hstatement : Consumes (· = t) b goStatement :=
        consumes_goStatement (by rintro _ rfl; exact hstarts)
      exact hstatement.bind fun _ _ _ => .pure
    · have hadvance : Consumes (· = t) b advance := consumes_advance (by rintro _ rfl; exact ht)
      exact (keeps_report _).bind fun _ => hadvance.bind fun _ _ _ => .pure
  all_goals exact hmarkup

theorem consumes_contentNode (h : 4 * b + 2 ≤ depth) :
    Consumes IsThere b (contentNode (depth + 1)) := by
  rw [Parse.contentNode]
  refine .kind fun t ht => ?_
  have hmarkup : Consumes (· = t) b (markup depth) :=
    ((ih b).markup h).of (by rintro _ rfl; exact ht)
  split
  case h_7 =>
    split
    · next htext =>
      have htext : Consumes (· = t) b text := consumes_text (by rintro _ rfl; exact htext)
      exact htext.bind fun _ _ _ => .pure
    · have hadvance : Consumes (· = t) b advance := consumes_advance (by rintro _ rfl; exact ht)
      exact hadvance.bind fun _ _ _ => .pure
  all_goals exact hmarkup

theorem consumes_markup (h : 4 * b + 1 ≤ depth) : Consumes IsThere b (markup (depth + 1)) := by
  rw [Parse.markup]
  refine .kind fun t ht => ?_
  have hof : ∀ t', t' = t → IsThere t' := by
    rintro _ rfl
    exact ht
  split
  · have helement : Consumes (· = t) b (element depth) := ((ih b).element h).of hof
    refine helement.bind fun e _ _ => ?_
    cases e with
    | some e => exact .pure
    | none => exact .pure
  · refine (consumes_letHead hof).bind fun head b' hb' => ?_
    cases head with
    | some head =>
      refine .kind fun t' _ => ?_
      split
      · next hkind =>
        have helement : Consumes (· = t') b' (element depth) :=
          ((ih b').element (by omega)).of (by rintro _ rfl; exact isThere_of_eq hkind nofun)
        refine helement.bind fun e _ _ => ?_
        cases e with
        | some e => exact .pure
        | none => exact .pure
      · exact .bind (keeps_report _).forward fun _ => .pure
    | none => exact .pure
  · exact ((ih b).forLoop h).of hof
  · exact ((ih b).conditional h).of hof
  · exact ((ih b).call h).of hof
  · exact consumes_expressionNode hof

theorem consumes_element (h : 4 * b ≤ depth) : Consumes IsThere b (element (depth + 1)) := by
  rw [Parse.element]
  refine (consumes_elementHead fun _ => id).bind fun head b' hb' => ?_
  cases head with
  | none => exact .pure
  | some head =>
    refine .bind forward_current fun t => ?_
    split
    · exact .bind forward_advanceLine fun _ => .bind (keeps_trailingComment _).forward fun _ =>
        .pure
    · refine .bind (forward_expect _) fun opened => ?_
      split
      · exact .bind ((ih b').content (by omega)) fun _ =>
          .bind (forward_closingTag _) fun _ => .pure
      · exact .pure

/-- The brace that opens a block has been read. -/
theorem forward_block (h : 4 * b ≤ depth) : Forward b (block (depth + 1)) := by
  rw [Parse.block]
  -- what `expect` gives tells whether the brace has been read, and so what is left
  have hbrace : TokenKind.leftBrace ≠ .endOfInput := nofun
  refine .bind forward_position fun place => (moves_expect hbrace).andThen ?_ ?_
  · rintro opened rfl b' hb'
    refine .bind (keeps_trailingComment _).forward fun _ => .bind forward_skipNewlines fun _ =>
      .bind ((ih b').body (by omega)) fun _ => .bind (forward_expectLine _) fun closed => ?_
    split <;> exact .pure
  · intro opened hopened
    rw [if_neg hopened]
    exact .pure

theorem consumes_forLoop (h : 4 * b ≤ depth) : Consumes IsThere b (forLoop (depth + 1)) := by
  rw [Parse.forLoop]
  refine (consumes_forHead fun _ => id).bind fun head b' hb' => ?_
  cases head with
  | none => exact .pure
  | some head =>
    refine .bind ((ih b').block (by omega)) fun inner => ?_
    cases inner with
    | none => exact .pure
    | some inner => exact .pure

theorem consumes_conditional (h : 4 * b ≤ depth) :
    Consumes IsThere b (conditional (depth + 1)) := by
  rw [Parse.conditional]
  refine .position fun t ht => ?_
  have hadvance : Consumes (· = t) b advance := consumes_advance (by rintro _ rfl; exact ht)
  refine hadvance.bind fun _ b' hb' => .bind forward_goHeader fun _ =>
    .bind forward_skipNewlines fun _ => .bind ((ih b').block (by omega)) fun inner => ?_
  cases inner with
  | none => exact .pure
  | some inner => exact .bind ((ih b').elseBranch (by omega)) fun _ => .pure

theorem forward_elseBranch (h : 4 * b ≤ depth) : Forward b (elseBranch (depth + 1)) := by
  rw [Parse.elseBranch]
  refine .kind fun t _ => ?_
  split
  · next helse =>
    have hadvance : Consumes (· = t) b advanceLine :=
      consumes_advanceLine (by rintro _ rfl; exact isThere_of_eq helse nofun)
    refine hadvance.bind fun _ b' hb' => .kind fun t' _ => ?_
    split
    · next hif =>
      have hconditional : Consumes (· = t') b' (conditional depth) :=
        ((ih b').conditional (by omega)).of (by rintro _ rfl; exact isThere_of_eq hif nofun)
      exact hconditional.bind fun _ _ _ => .pure
    · refine .bind (forward_expect _) fun opened => ?_
      split
      · exact .bind forward_skipNewlines fun _ => .bind ((ih b').body (by omega)) fun _ =>
          .bind (forward_expectLine _) fun _ => .pure
      · exact .pure
  · exact .pure

theorem consumes_call (h : 4 * b ≤ depth) : Consumes IsThere b (call (depth + 1)) := by
  rw [Parse.call]
  refine (consumes_callHead fun _ => id).bind fun head b' hb' => ?_
  cases head with
  | none => exact .pure
  | some head =>
    refine .bind forward_kind fun k => ?_
    split
    · refine .bind forward_advanceLine fun _ => .bind ((ih b').body (by omega)) fun _ =>
        .bind (forward_expectLine _) fun closed => ?_
      split <;> exact .pure
    · exact .pure

end Level

/-! ## All levels -/

/-- **Each reader moves on if it is deep enough** for what is left. -/
theorem reaches (depth b : Nat) : Reaches depth b := by
  induction depth generalizing b with
  -- no bound is met without depth
  | zero => constructor <;> exact fun h => absurd h (by omega)
  | succ depth ih =>
    exact
      { body := fun h => forward_body ih (by omega)
        bodyNode := fun h => consumes_bodyNode ih (by omega)
        markup := fun h => consumes_markup ih (by omega)
        content := fun h => forward_content ih (by omega)
        contentNode := fun h => consumes_contentNode ih (by omega)
        element := fun h => consumes_element ih (by omega)
        block := fun h => forward_block ih (by omega)
        forLoop := fun h => consumes_forLoop ih (by omega)
        conditional := fun h => consumes_conditional ih (by omega)
        elseBranch := fun h => forward_elseBranch ih (by omega)
        call := fun h => consumes_call ih (by omega) }

end Gsx.Parse
