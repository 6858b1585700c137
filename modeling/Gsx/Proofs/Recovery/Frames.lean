import Gsx.Proofs.Recovery.Pieces
/-!
# Nodes around a body

The reader of an element reads an opening tag, a body and a closing tag. That of a
directive reads up to the lines of one of its blocks, those lines, and on from the
brace behind them. So where the first part is there, the whole is the three parts one
after the other, with a depth for the body that is enough if it was for the whole.
-/

namespace Gsx.Recovery

open Parse TokenStream
open Rendering (ends opensMarkup readBody readBody_succ readNode)

variable {s t : TokenStream} {c : Bool} {d D n : Nat}

/-- Some window: whether a reader leads on does not depend on it. -/
def lineWindow : Window := fileWindow ['\n'] [] ⟨[], rfl⟩

theorem leading_readNode (c : Bool) (d : Nat) : Leading (readNode c d) := by
  cases c with
  | false => exact (alikeAt lineWindow le_rfl).bodyNode.leads
  | true => exact (alikeAt lineWindow le_rfl).contentNode.leads

/-! ## Bodies -/

theorem run_bodyRound_skipNewlines {ends : Token → Bool} {node : Parse (Option Node)}
    (h : (skipNewlines.run t).2.current.kind ≠ .newline) :
    (bodyRound ends node).run t = (bodyRound ends node).run (skipNewlines.run t).2 := by
  rw [bodyRound, run_bind_eq rfl, run_bind_eq (m := skipNewlines) rfl, skipNewlines_eq h]

/-- The first round moves over line ends anyway. -/
theorem run_rounds_skipNewlines {ends : Token → Bool} {node : Parse (Option Node)}
    (h : (skipNewlines.run t).2.current.kind ≠ .newline) (fuel : Nat) :
    (repeatUpTo (bodyRound ends node) (fuel + 1)).run t
      = (repeatUpTo (bodyRound ends node) (fuel + 1)).run (skipNewlines.run t).2 := by
  rw [repeatUpTo, StateT.run_bind, StateT.run_bind, run_bodyRound_skipNewlines h]

theorem run_readBody_skipNewlines (ht : t.Lined)
    (h : (skipNewlines.run t).2.current.kind ≠ .newline) :
    (readBody c (d + 1)).run t = (readBody c (d + 1)).run (skipNewlines.run t).2 := by
  have hrounds : (skipNewlines.run t).2.rounds = t.rounds := by
    rw [rounds, rounds, (Leading.skipNewlines t).source_eq ht]
  rw [readBody_succ, nodes, StateT.run_bind, StateT.run_bind, run_repeated, run_repeated, hrounds,
    rounds, run_rounds_skipNewlines h]

/-! ## Elements -/

/-- A sign that is found. -/
theorem run_expectLine_of_true {want : TokenKind} (h : ((expectLine want).run s).1 = true) :
    s.current.kind = want
      ∧ (expectLine want).run s = (true, (skipNewlines.run s.advanced).2) := by
  by_cases hkind : s.current.kind = want
  · refine ⟨hkind, ?_⟩
    rw [expectLine, StateT.run_bind, run_expect hkind]
    rfl
  · rw [expectLine, StateT.run_bind, run_expect_of_ne hkind] at h
    cases h

/-- An opening tag that is found. -/
theorem run_elementStart {h : ElementHead} (hopen : (elementStart.run s).1 = some h) :
    (elementHead.run s).1 = some h
      ∧ ((expectLine .rightAngle).run (elementHead.run s).2).1 = true
      ∧ (elementStart.run s).2 = ((expectLine .rightAngle).run (elementHead.run s).2).2 := by
  cases hhead : (elementHead.run s).1 with
  | none =>
    rw [elementStart, run_bind_eq hhead] at hopen
    cases hopen
  | some h' =>
    rw [elementStart, run_bind_eq hhead] at hopen ⊢
    cases hsign : ((expectLine .rightAngle).run (elementHead.run s).2).1 with
    | false =>
      rw [run_bind_eq hsign] at hopen
      cases hopen
    | true =>
      rw [run_bind_eq hsign] at hopen ⊢
      cases hopen
      exact ⟨rfl, rfl, rfl⟩

/-- **An element** is its opening tag, its content and its closing tag. -/
theorem stream_element {h : ElementHead} (hs : s.Lined) (hopen : (elementStart.run s).1 = some h)
    (hline : (elementStart.run s).2.current.kind ≠ .newline) :
    ((element (d + 2)).run s).2
      = ((closingTag h.tag).run ((content (d + 1)).run (elementStart.run s).2).2).2 := by
  obtain ⟨hhead, hsign, hbehind⟩ := run_elementStart hopen
  obtain ⟨hkind, hrun⟩ := run_expectLine_of_true hsign
  have hlined : (elementHead.run s).2.advanced.Lined :=
    ((Alike.elementHead (o := lineWindow)).leads s).lined hs |>.advanced
  rw [hbehind, hrun] at hline ⊢
  have hcontent : (content (d + 1)).run (elementHead.run s).2.advanced
      = (content (d + 1)).run (skipNewlines.run (elementHead.run s).2.advanced).2 :=
    run_readBody_skipNewlines (c := true) hlined hline
  rw [← hcontent, element, run_bind_eq hhead]
  simp only
  rw [run_current_bind, if_neg (by rw [hkind]; decide), run_bind_eq (congrArg Prod.fst (run_expect hkind)),
    if_pos rfl, run_expect hkind, run_bind_eq rfl]
  exact stream_wrap (fun _ => ⟨_, rfl⟩) _

theorem run_readNode_markup (h : opensMarkup s.current.kind) :
    (readNode c (d + 1)).run s = (markup d).run s := by
  -- both readers hand on what opens a node of any body
  cases c with
  | false =>
    change (bodyNode (d + 1)).run s = _
    rw [bodyNode, run_kind_bind]
    revert h
    cases s.current.kind <;> first | exact fun _ => rfl | exact fun h => absurd h Bool.false_ne_true
  | true =>
    change (contentNode (d + 1)).run s = _
    rw [contentNode, run_kind_bind]
    revert h
    cases s.current.kind <;> first | exact fun _ => rfl | exact fun h => absurd h Bool.false_ne_true

/-- **An element that may be bound to a name**, as a node of any body. -/
theorem stream_readNode_opening {h : ElementHead} (hs : s.Lined)
    (hopen : (elementOpening.run s).1 = some h)
    (hline : (elementOpening.run s).2.current.kind ≠ .newline) :
    ((readNode c (d + 4)).run s).2
      = ((closingTag h.tag).run ((content (d + 1)).run (elementOpening.run s).2).2).2 := by
  have hwrap : ∀ {f : Option (ElementHead × List Node) → Parse (Option Node)},
      (∀ a, ∃ b, f a = pure b) → ∀ t : TokenStream,
        ((element (d + 2) >>= f).run t).2 = ((element (d + 2)).run t).2 := fun hf t => stream_wrap hf t
  rw [elementOpening, run_kind_bind] at hopen hline ⊢
  split at hopen
  · next hkind =>
    rw [hkind] at hline
    rw [run_readNode_markup (by rw [hkind]; rfl), markup, run_kind_bind, hkind, ← stream_element hs hopen hline]
    exact hwrap (by rintro (_ | ⟨_, _⟩) <;> exact ⟨_, rfl⟩) s
  · next hkind =>
    rw [hkind] at hline
    rw [run_readNode_markup (by rw [hkind]; rfl), markup, run_kind_bind, hkind]
    cases hhead : (letHead.run s).1 with
    | none =>
      rw [run_bind_eq hhead] at hopen
      cases hopen
    | some g =>
      rw [run_bind_eq hhead] at hopen hline
      simp only at hopen hline ⊢
      rw [run_bind_eq hhead, run_bind_eq hhead]
      simp only
      rw [run_kind_bind] at hopen hline ⊢
      rw [run_kind_bind]
      split at hopen
      · next hangle =>
        rw [if_pos hangle] at hline ⊢
        rw [if_pos hangle, ← stream_element (((Alike.letHead (o := lineWindow)).leads s).lined hs) hopen hline]
        exact hwrap (by rintro (_ | ⟨_, _⟩) <;> exact ⟨_, rfl⟩) _
      · cases hopen
  · cases hopen

/-! ## Blocks -/

/-- A brace that opens a block, if it is there. -/
theorem run_blockStart (h : (blockStart.run s).1 = true) :
    ∃ g, (block (d + 1)).run s = (do
      let inner ← body d
      if ← expectLine .rightBrace then return some ⟨g, inner⟩ else return none : Parse _).run
        (blockStart.run s).2 := by
  by_cases hkind : s.current.kind = .leftBrace
  · refine ⟨((trailingComment s.current.position.line).run s.advanced).1, ?_⟩
    rw [block, blockStart, run_bind_eq (m := position) rfl, run_bind_eq (m := position) rfl,
      run_position, run_bind_eq (congrArg Prod.fst (run_expect hkind)),
      run_bind_eq (congrArg Prod.fst (run_expect hkind)), if_pos rfl, if_pos rfl, run_expect hkind]
    rfl
  · rw [blockStart, run_bind_eq (m := position) rfl, run_position,
      run_bind_eq (congrArg Prod.fst (run_expect_of_ne hkind)), if_neg Bool.false_ne_true] at h
    cases h

/-- **A block** is its brace, its body and the brace that closes it. -/
theorem run_block (h : (blockStart.run s).1 = true) {u : TokenStream}
    (hu : u = ((body d).run (blockStart.run s).2).2) :
    ((block (d + 1)).run s).1.isSome = ((expectLine .rightBrace).run u).1
      ∧ ((block (d + 1)).run s).2 = ((expectLine .rightBrace).run u).2 := by
  obtain ⟨g, hrun⟩ := run_blockStart (d := d) h
  rw [hrun, run_bind_eq rfl, ← hu]
  cases hbrace : ((expectLine .rightBrace).run u).1 with
  | true =>
    rw [run_bind_eq hbrace]
    exact ⟨rfl, rfl⟩
  | false =>
    rw [run_bind_eq hbrace]
    exact ⟨rfl, rfl⟩

/-- **A loop** around its lines. -/
theorem stream_forLoop (h : (forStart.run s).1 = true) :
    ((forLoop (d + 2)).run s).2
      = ((expectLine .rightBrace).run ((body d).run (forStart.run s).2).2).2 := by
  cases hhead : (forHead.run s).1 with
  | none =>
    rw [forStart, run_bind_eq hhead] at h
    cases h
  | some head =>
    rw [forStart, run_bind_eq hhead] at h ⊢
    rw [forLoop, run_bind_eq hhead]
    simp only at h ⊢
    rw [← (run_block h rfl).2]
    refine stream_wrap (fun b => ?_) _
    cases b <;> exact ⟨_, rfl⟩

/-- **A call with a block** around its lines. -/
theorem stream_call (h : (callStart.run s).1 = true) :
    ((call (d + 1)).run s).2
      = ((expectLine .rightBrace).run ((body d).run (callStart.run s).2).2).2 := by
  cases hhead : (callHead.run s).1 with
  | none =>
    rw [callStart, run_bind_eq hhead] at h
    cases h
  | some head =>
    rw [callStart, run_bind_eq hhead] at h ⊢
    obtain ⟨hkind, hrun⟩ := run_expectLine_of_true h
    rw [run_call hhead hkind, show (expectLine .leftBrace).run _ = _ from hrun, callBlock,
      run_bind_eq rfl, run_bind_eq rfl]
    refine stream_wrap (fun b => ?_) _
    cases b <;> exact ⟨_, rfl⟩

/-! ## What is left behind a token -/

theorem moves_blockStart : Moves (fun _ => True) n blockStart (· = true) := by
  have hbrace : TokenKind.leftBrace ≠ .endOfInput := nofun
  refine .position fun place _ => Moves.of (Moves.through (moves_expect hbrace) (fun found => ?_)
    fun found t hfound => ?_) fun _ _ => trivial
  · split
    · exact .bind (keeps_trailingComment _).forward fun _ => .bind forward_skipNewlines fun _ => .pure
    · exact .pure
  · cases found with
    | true => rfl
    | false => cases hfound

theorem consumes_ifHeader : Consumes IsThere n ifHeader :=
  (consumes_advance fun _ => id).bind fun _ _ _ => .bind forward_goHeader fun _ => forward_skipNewlines

theorem consumes_ifBlock (h : 4 * n ≤ D) : Consumes IsThere n (ifBlock D) :=
  consumes_ifHeader.bind fun _ n' hn => .bind ((reaches D n').block (by omega)) fun _ => .pure

theorem moves_elseWord : Moves (fun _ => True) n elseWord (· = true) := by
  refine .kind fun t _ => ?_
  split
  · next helse =>
    have hadvance : Consumes (· = t) n advanceLine :=
      consumes_advanceLine (by rintro _ rfl; exact isThere_of_eq helse nofun)
    exact hadvance.bind fun _ _ _ => .pure
  · exact .done nofun

/-! ## Conditionals -/

theorem run_ifBlock (d : Nat) (s : TokenStream) :
    (ifBlock d).run s = (((block d).run (ifHeader.run s).2).1.isSome,
      ((block d).run (ifHeader.run s).2).2) := rfl

/-- Behind its first block a conditional goes on with its else branch. -/
theorem stream_conditional (d : Nat) (s : TokenStream) :
    ((conditional (d + 1)).run s).2
      = if ((ifBlock d).run s).1 = true then ((elseBranch d).run ((ifBlock d).run s).2).2
        else ((ifBlock d).run s).2 := by
  have hheader : (skipNewlines.run (goHeader.run s.advanced).2).2 = (ifHeader.run s).2 := rfl
  rw [conditional, run_bind_eq (m := position) rfl, run_position, run_advance_bind,
    run_bind_eq rfl, run_bind_eq rfl, hheader, run_ifBlock]
  cases h : ((block d).run (ifHeader.run s).2).1 with
  | none =>
    rw [run_bind_eq h]
    rfl
  | some b =>
    rw [run_bind_eq h]
    exact stream_wrap (fun _ => ⟨_, rfl⟩) _

/-- The word for an else branch, if it is there. -/
theorem run_elseWord (h : (elseWord.run s).1 = true) :
    s.current.kind = .atElse ∧ (elseWord.run s).2 = (advanceLine.run s).2 := by
  rw [elseWord, run_kind_bind] at h ⊢
  by_cases hkind : s.current.kind = .atElse
  · rw [if_pos hkind]
    exact ⟨hkind, rfl⟩
  · rw [if_neg hkind] at h
    cases h

namespace Branch

/-- The depth of the body of a block, from that of the whole conditional. -/
def depth : Branch → Nat → Nat
  | first, D => D - 2
  | last, D => D - 2
  | next b, D => b.depth (D - 2)

theorem depth_le (b : Branch) (D : Nat) : b.depth D ≤ D := by
  induction b generalizing D with
  | first => exact Nat.sub_le _ _
  | last => exact Nat.sub_le _ _
  | next b ih => exact (ih _).trans (Nat.sub_le _ _)

/-- Behind the word for an else branch. -/
theorem run_start (b : Branch) {f : Parse Bool}
    (hb : b.start (D + 1) = (do
      if ← ifBlock D then
        if ← elseWord then f else return false
      else return false))
    (h : ((b.start (D + 1)).run s).1 = true) :
    ((ifBlock D).run s).1 = true ∧ (elseWord.run ((ifBlock D).run s).2).1 = true
      ∧ (b.start (D + 1)).run s = f.run (elseWord.run ((ifBlock D).run s).2).2 := by
  rw [hb] at h ⊢
  cases hblock : ((ifBlock D).run s).1 with
  | false =>
    rw [run_bind_eq hblock] at h
    cases h
  | true =>
    rw [run_bind_eq hblock, if_pos rfl] at h ⊢
    cases hword : (elseWord.run ((ifBlock D).run s).2).1 with
    | false =>
      rw [run_bind_eq hword] at h
      cases h
    | true =>
      rw [run_bind_eq hword, if_pos rfl] at h ⊢
      exact ⟨rfl, rfl, rfl⟩

theorem run_first (D : Nat) (s : TokenStream) :
    (first.start D).run s = blockStart.run (ifHeader.run s).2 := rfl

theorem stream_first (hstart : ((first.start (d + 3)).run s).1 = true) :
    ((conditional (d + 3)).run s).2
      = ((first.stop (d + 3)).run ((body (d + 1)).run ((first.start (d + 3)).run s).2).2).2 := by
  rw [run_first] at hstart ⊢
  obtain ⟨hsome, hbehind⟩ := run_block hstart (d := d + 1) rfl
  rw [Recovery.stream_conditional, run_ifBlock, hsome, hbehind, stop]
  generalize ((body (d + 1)).run (blockStart.run (ifHeader.run s).2).2).2 = u
  cases hbrace : ((expectLine .rightBrace).run u).1 with
  | true =>
    rw [if_pos rfl, run_bind_eq hbrace, if_pos rfl]
    exact (stream_wrap (fun _ => ⟨_, rfl⟩) _).symm
  | false =>
    rw [if_neg Bool.false_ne_true, run_bind_eq hbrace]
    rfl

theorem stream_last (hstart : ((last.start (d + 3)).run s).1 = true) :
    ((conditional (d + 3)).run s).2
      = ((last.stop (d + 3)).run ((body (d + 1)).run ((last.start (d + 3)).run s).2).2).2 := by
  obtain ⟨hblock, hword, hrun⟩ := run_start last rfl hstart
  obtain ⟨helse, hline⟩ := run_elseWord hword
  rw [hrun] at hstart ⊢
  obtain ⟨hkind, hopen⟩ := run_expectLine_of_true hstart
  rw [hline] at hkind hopen
  rw [hline, hopen, Recovery.stream_conditional, if_pos hblock, stop, elseBranch, run_kind_bind,
    if_pos helse, run_bind_eq rfl, run_kind_bind, if_neg (by rw [hkind]; decide),
    run_bind_eq (congrArg Prod.fst (run_expect hkind)), if_pos rfl, run_expect hkind, run_bind_eq rfl,
    run_bind_eq rfl]
  dsimp only
  exact stream_wrap (fun _ => ⟨_, rfl⟩) _

/-- A conditional in the else branch of a conditional. -/
theorem exists_stream_next {b : Branch} (hstart : (((next b).start (D + 2)).run s).1 = true) :
    ∃ t, t = (elseWord.run ((ifBlock (D + 1)).run s).2).2 ∧ t.current.kind = .atIf
      ∧ ((next b).start (D + 2)).run s = (b.start D).run t
      ∧ ((conditional (D + 2)).run s).2 = ((conditional D).run t).2 := by
  obtain ⟨hblock, hword, hrun⟩ := run_start (next b) rfl hstart
  obtain ⟨helse, hline⟩ := run_elseWord hword
  rw [hrun, run_kind_bind] at hstart
  by_cases hif : (elseWord.run ((ifBlock (D + 1)).run s).2).2.current.kind = .atIf
  · rw [if_pos hif] at hstart
    refine ⟨_, rfl, hif, by rw [hrun, run_kind_bind, if_pos hif]; rfl, ?_⟩
    rw [hline] at hif ⊢
    rw [Recovery.stream_conditional, if_pos hblock, elseBranch, run_kind_bind, if_pos helse,
      run_bind_eq rfl, run_kind_bind, if_pos hif]
    exact stream_wrap (fun _ => ⟨_, rfl⟩) _
  · rw [if_neg hif] at hstart
    cases hstart

/-- **A conditional** around the lines of one of its blocks. -/
theorem stream_conditional (b : Branch) (hstart : ((b.start D).run s).1 = true)
    (hdepth : b.depth D = d + 1) :
    ((conditional D).run s).2
      = ((b.stop D).run ((body (d + 1)).run ((b.start D).run s).2).2).2 := by
  induction b generalizing s D with
  | first =>
    obtain rfl : D = d + 3 := by
      rw [depth] at hdepth
      omega
    exact stream_first hstart
  | last =>
    obtain rfl : D = d + 3 := by
      rw [depth] at hdepth
      omega
    exact stream_last hstart
  | next b ih =>
    obtain ⟨D, rfl⟩ : ∃ k, D = k + 2 := by
      have hle := b.depth_le (D - 2)
      rw [depth] at hdepth
      exact ⟨D - 2, by omega⟩
    obtain ⟨t, -, -, hrun, hstream⟩ := exists_stream_next hstart
    rw [hrun] at hstart ⊢
    rw [hstream, ih hstart hdepth]
    rfl

/-! ### Depth -/

theorem remaining_elseWord (hs : s.InOrder) (hthere : IsThere s.current)
    (hdepth : 4 * s.remaining ≤ D) (hword : (elseWord.run ((ifBlock D).run s).2).1 = true) :
    (elseWord.run ((ifBlock D).run s).2).2.InOrder
      ∧ (elseWord.run ((ifBlock D).run s).2).2.remaining + 2 ≤ s.remaining := by
  obtain ⟨hin, hlt⟩ := Moves.remaining_lt (consumes_ifBlock hdepth) hs hthere trivial
  obtain ⟨hin', hlt'⟩ := Moves.remaining_lt moves_elseWord hin trivial hword
  exact ⟨hin', by omega⟩

/-- **The depth that is left for a block is enough** if that for the conditional is:
each conditional and each block on the way to it takes tokens from what is left. -/
theorem le_depth (b : Branch) (hs : s.InOrder) (hthere : IsThere s.current)
    (hstart : ((b.start D).run s).1 = true) (hdepth : 4 * s.remaining + 1 ≤ D) :
    4 * ((b.start D).run s).2.remaining + 4 ≤ b.depth D := by
  induction b generalizing s D with
  | first =>
    rw [run_first] at hstart ⊢
    obtain ⟨hin, hlt⟩ := Moves.remaining_lt consumes_ifHeader hs hthere trivial
    obtain ⟨-, hlt'⟩ := Moves.remaining_lt moves_blockStart hin trivial hstart
    rw [depth]
    omega
  | last =>
    obtain ⟨D, rfl⟩ := Nat.exists_eq_add_one.2 (Nat.zero_lt_of_lt hdepth)
    have hbrace : TokenKind.leftBrace ≠ .endOfInput := nofun
    obtain ⟨-, hword, hrun⟩ := run_start last rfl hstart
    obtain ⟨hin, hlt⟩ := remaining_elseWord hs hthere (by omega) hword
    rw [hrun] at hstart ⊢
    obtain ⟨-, hlt'⟩ := Moves.remaining_lt (moves_expectLine hbrace) hin trivial hstart
    rw [depth]
    omega
  | next b ih =>
    obtain ⟨D, rfl⟩ := Nat.exists_eq_add_one.2 (Nat.zero_lt_of_lt hdepth)
    obtain ⟨-, hword, -⟩ := run_start (next b) rfl hstart
    obtain ⟨hin, hlt⟩ := remaining_elseWord hs hthere (by omega) hword
    obtain ⟨D, rfl⟩ : ∃ k, D = k + 1 := ⟨D - 1, by omega⟩
    obtain ⟨t, ht, hif, hrun, -⟩ := exists_stream_next hstart
    rw [← ht] at hin hlt
    rw [hrun] at hstart ⊢
    exact ih hin (isThere_of_eq hif nofun) hstart (by omega)

end Branch

/-! ## Frames -/

namespace Frame

/-- The depth of the body of a block, from that of the directive or call. -/
def depth : Frame → Nat → Nat
  | loop, D => D - 2
  | call, D => D - 1
  | branch b, D => b.depth D

/-- **A directive or a call** around the lines of a block, as a node of any body. -/
theorem stream_readNode (f : Frame) (hkind : s.current.kind = f.word)
    (hstart : ((f.start D).run s).1 = true) (hdepth : f.depth D = d + 1) :
    ((readNode c (D + 2)).run s).2
      = ((f.stop D).run ((body (d + 1)).run ((f.start D).run s).2).2).2 := by
  have hopens : opensMarkup s.current.kind := by
    rw [hkind]
    cases f <;> rfl
  rw [run_readNode_markup hopens, markup, run_kind_bind, hkind]
  cases f with
  | loop =>
    obtain rfl : D = d + 3 := by
      rw [depth] at hdepth
      omega
    exact stream_forLoop hstart
  | call =>
    obtain rfl : D = d + 2 := by
      rw [depth] at hdepth
      omega
    exact stream_call hstart
  | branch b => exact b.stream_conditional hstart hdepth

end Frame

end Gsx.Recovery
