import Gsx.Proofs.Grammar.Heads
import Gsx.Proofs.Grammar.Statements
/-!
# Functions that are captured whole

A function that is no component is captured as text. Its head is read as that of
a component, as far as that goes: a receiver not at all, a name with parameters
that all have a name, a result that is one name. The body is then taken to be the
first pair of braces that follows. So a method is captured whole if there are no
braces between its receiver and its body, and a function if it has no type
parameters, a name at every parameter and no braces in its results.

Where a function is captured whole, reading goes on behind it as it would have gone
on in its place: only the place changes.
-/

namespace Gsx

open TokenStream

/-- What a token adds to the depth of braces. -/
def TokenKind.brace : TokenKind → Int
  | .leftBrace => 1
  | .rightBrace => -1
  | _ => 0

namespace Lexer

/-! ## Depths -/

/-- What the first tokens add up to. -/
def tally (weight : TokenKind → Int) (l : Lexer) : Nat → Int
  | 0 => 0
  | n + 1 => l.tally weight n + weight (l.token n).kind

variable {l : Lexer} {m n : Nat}

theorem bracketDepth_eq (l : Lexer) (n : Nat) : l.bracketDepth n = l.tally TokenKind.bracket n := by
  induction n with
  | zero => rfl
  | succ n ih => rw [bracketDepth, tally, ih]

theorem tally_add (weight : TokenKind → Int) (l : Lexer) (m n : Nat) :
    l.tally weight (m + n) = l.tally weight m + (after m l).tally weight n := by
  induction n with
  | zero => rw [tally, Int.add_zero, Nat.add_zero]
  | succ n ih => rw [← Nat.add_assoc, tally, ih, tally, token_after, Int.add_assoc]

theorem tally_eq_zero {weight : TokenKind → Int} (h : ∀ i < n, weight (l.token i).kind = 0) :
    l.tally weight n = 0 := by
  induction n with
  | zero => rfl
  | succ n ih => rw [tally, ih fun i hi => h i (Nat.lt_succ_of_lt hi), h n n.lt_succ_self, Int.add_zero]

/-! ## Parts of a function -/

/-- A parenthesis that closes the one in front of the first token. -/
def ClosesParens (l : Lexer) (n : Nat) : Prop :=
  (l.token n).kind = .rightParen ∧ l.bracketDepth n = 0

instance (l : Lexer) : DecidablePred l.ClosesParens :=
  fun _ => inferInstanceAs (Decidable (_ ∧ _))

/-- **A token that starts a parameter**: the first one, or the first one behind a
comma outside brackets that is no line end. -/
def StartsParameter (l : Lexer) (n : Nat) : Prop :=
  n = 0 ∨ ∃ m < n, ((l.token m).kind = .comma ∧ l.bracketDepth m = 0)
    ∧ (∀ i, m < i → i < n → (l.token i).kind = .newline) ∧ (l.token n).kind ≠ .newline

instance (l : Lexer) (n : Nat) : Decidable (l.StartsParameter n) :=
  decidable_of_iff (n = 0 ∨ ∃ m < n, ((l.token m).kind = .comma ∧ l.bracketDepth m = 0)
    ∧ (∀ i < n, m < i → (l.token i).kind = .newline) ∧ (l.token n).kind ≠ .newline)
    (or_congr_right (exists_congr fun _ => and_congr_right fun _ => and_congr_right fun _ =>
      and_congr_left fun _ => forall_congr' fun _ => forall_comm))

/-- **Parameters that all have a name**, up to the parenthesis that closes them. -/
structure HasParameters (l : Lexer) (n : Nat) : Prop where
  stops : Parse.StopsAt l l.ClosesParens n
  closes : l.ClosesParens n
  named : ∀ i < n, l.StartsParameter i → (l.token i).kind = .identifier

instance (l : Lexer) (n : Nat) : Decidable (l.HasParameters n) :=
  decidable_of_iff (Parse.StopsAt l l.ClosesParens n ∧ l.ClosesParens n
    ∧ ∀ i < n, l.StartsParameter i → (l.token i).kind = .identifier)
    ⟨fun h => ⟨h.1, h.2.1, h.2.2⟩, fun h => ⟨h.1, h.2, h.3⟩⟩

/-- The name that makes a function a component comes next. -/
def NamesElement (l : Lexer) : Prop :=
  ∃ n, (∀ i < n, (l.token i).kind = .newline) ∧ (l.token n).kind = .identifier
    ∧ (l.token n).literal = "Element"

/-- A brace that closes the only open one. -/
def ClosesBody (l : Lexer) (n : Nat) : Prop :=
  (l.token n).kind = .rightBrace ∧ l.tally TokenKind.brace n = 1

instance (l : Lexer) : DecidablePred l.ClosesBody :=
  fun _ => inferInstanceAs (Decidable (_ ∧ _))

/-- **The first brace opens a body**, up to the brace that closes it. -/
structure HasBody (l : Lexer) (first n : Nat) : Prop where
  before : ∀ i < first, (l.token i).kind.brace = 0
  opens : (l.token first).kind = .leftBrace
  stops : Parse.StopsAt l l.ClosesBody n
  closes : l.ClosesBody n

instance (l : Lexer) (first n : Nat) : Decidable (l.HasBody first n) :=
  decidable_of_iff ((∀ i < first, (l.token i).kind.brace = 0) ∧ (l.token first).kind = .leftBrace
    ∧ Parse.StopsAt l l.ClosesBody n ∧ l.ClosesBody n)
    ⟨fun h => ⟨h.1, h.2.1, h.2.2.1, h.2.2.2⟩, fun h => ⟨h.1, h.2, h.3, h.4⟩⟩

/-- **A function that is captured whole**, up to the brace that closes its body. -/
inductive IsHelper (l : Lexer) : Nat → Prop
  | method {first n : Nat} (word : (l.token 0).kind = .funcWord)
      (receiver : (l.token 1).kind = .leftParen) (body : (after 1 l).HasBody first n) :
      IsHelper l (1 + n)
  | function {m first n : Nat} (word : (l.token 0).kind = .funcWord)
      (name : (l.token 1).kind = .identifier) (paren : (l.token 2).kind = .leftParen)
      (parameters : (after 3 l).HasParameters m) (result : ¬ (after (4 + m) l).NamesElement)
      (body : (after (4 + m) l).HasBody first n) : IsHelper l (4 + m + n)

end Lexer

namespace Parse

open Lexer

variable {α β σ : Type} {l : Lexer} {m n k : Nat}

/-! ## Line ends -/

/-- A scan that stops further on stops there from the middle as well. -/
theorem StopsAt.after {stops stops' : Nat → Prop} (h : StopsAt l stops (m + n))
    (hsame : ∀ i, stops' i ↔ stops (m + i)) : StopsAt (after m l) stops' n where
  goes i hi := by
    rw [token_after, hsame]
    exact h.goes (m + i) (Nat.add_lt_add_left hi m)
  stop := by
    rw [token_after, hsame]
    exact h.stop

/-- A token at which a scan would stop is there, and so it stops. -/
theorem exists_stopsAt_le (stops : Nat → Prop) (hstop : stops n)
    (hthere : ∀ i < n, (l.token i).kind ≠ .endOfInput) : ∃ m ≤ n, StopsAt l stops m ∧ stops m := by
  classical
  have hexists : ∃ m, stops m := ⟨n, hstop⟩
  have hle : Nat.find hexists ≤ n := Nat.find_le hstop
  exact ⟨Nat.find hexists, hle, ⟨fun i hi => ⟨hthere i (hi.trans_le hle), Nat.find_min hexists hi⟩,
    .inr (Nat.find_spec hexists)⟩, Nat.find_spec hexists⟩

/-- Up to the first token that is no line end. -/
abbrev LineEnds (l : Lexer) (n : Nat) : Prop :=
  StopsAt l (fun i => (l.token i).kind ≠ .newline) n

theorem LineEnds.kind_ne (h : LineEnds l n) : (l.token n).kind ≠ .newline :=
  h.stop.elim (fun hend => by rw [hend]; exact nofun) id

theorem LineEnds.kind_eq (h : LineEnds l n) {i : Nat} (hi : i < n) : (l.token i).kind = .newline :=
  not_not.1 (h.goes i hi).2

theorem exists_lineEnds_le (hkind : (l.token n).kind ≠ .newline)
    (hthere : ∀ i < n, (l.token i).kind ≠ .endOfInput) : ∃ m ≤ n, LineEnds l m := by
  obtain ⟨m, hm, hstops, -⟩ := exists_stopsAt_le (fun i => (l.token i).kind ≠ .newline) hkind hthere
  exact ⟨m, hm, hstops⟩

namespace Passes

theorem skipNewlines (h : LineEnds l n) : Passes l n skipNewlines () := by
  refine scan (fun _ => ()) (fun n hn => if_neg ?_) (fun n hn => if_pos ?_) h
  · rw [decide_eq_true_eq]
    exact hn
  · rw [decide_eq_true_eq]
    exact not_not.1 hn

theorem advanceLine (h : LineEnds (after 1 l) n) : Passes l (1 + n) advanceLine () :=
  advance.bind (skipNewlines h)

end Passes

theorem exists_lineEnds {s : TokenStream} (h : s.Follows l) : ∃ n, LineEnds l n := by
  obtain ⟨n, hn, -⟩ := @exists_stopsAt_scan _ l newlineStep (fun _ => ())
    (fun i => (l.token i).kind ≠ .newline) (fun n hn => if_neg hn)
    (fun n hn => if_pos (not_not.1 hn)) _ h
  exact ⟨n, hn⟩

/-! ## Parameters -/

/-- A token that ends a type. -/
def EndsType (l : Lexer) (n : Nat) : Prop :=
  ((l.token n).kind = .comma ∨ (l.token n).kind = .rightParen) ∧ l.bracketDepth n = 0

theorem typeStep_of_endsType (h : EndsType l n) : typeStep (l.bracketDepth n) (l.token n) = none := by
  refine if_pos ?_
  rw [h.2, Bool.and_eq_true, Bool.or_eq_true, beq_iff_eq, beq_iff_eq]
  exact ⟨h.1, rfl⟩

theorem typeStep_of_not_endsType (h : ¬ EndsType l n) :
    typeStep (l.bracketDepth n) (l.token n) = some (l.bracketDepth (n + 1)) := by
  rw [typeStep, if_neg, bracketDepth, TokenKind.bracket]
  · split
    · rfl
    · split
      · rfl
      · rw [Int.add_zero]
  · rw [Bool.and_eq_true, Bool.or_eq_true, beq_iff_eq, beq_iff_eq, beq_iff_eq]
    exact h

namespace Passes

theorem goType (h : StopsAt l (EndsType l) n) (hend : EndsType l n) :
    Passes l n goType (Text.trim (String.ofList
      ((after n l).slice (l.token 0).start ((after n l).token 0).start))) := by
  have hthere : ((after n l).token 0).kind ≠ .endOfInput := by
    rw [token_after, Nat.add_zero]
    rcases hend.1 with hkind | hkind <;> rw [hkind] <;> exact nofun
  refine current.stay ((scan l.bracketDepth (fun _ => typeStep_of_endsType)
    (fun _ => typeStep_of_not_endsType) h).bind (n := 0) (current.stay ?_))
  rw [if_neg hthere]
  exact trimmedText _ _

end Passes

/-- A name and what follows it, up to a token that ends a type. -/
theorem exists_passes_param (hname : (l.token 0).kind = .identifier)
    (h : StopsAt (after 1 l) (EndsType (after 1 l)) n) (hend : EndsType (after 1 l) n) :
    ∃ p, Passes l (1 + n) param p := by
  obtain ⟨text, htext⟩ : ∃ text, Passes (after 1 l) n goType text := ⟨_, .goType h hend⟩
  refine ⟨if text = "" then none else some ⟨(l.token 0).literal, text, (l.token 0).position⟩,
    Passes.current.stay ?_⟩
  rw [if_pos hname]
  refine Passes.advance.bind (htext.bind (n := 0) ?_)
  split <;> exact .pure _

theorem passes_paramRound_close (h : (l.token 0).kind = .rightParen) :
    Passes l 0 paramRound (Round.last []) :=
  Passes.kind.stay (by rw [h]; exact .pure _)

/-- **A parameter** in front of a comma or of the parenthesis that closes all. -/
theorem exists_passes_paramRound (hname : (l.token 0).kind = .identifier)
    (h : StopsAt (after 1 l) (EndsType (after 1 l)) n) (hend : EndsType (after 1 l) n) :
    ∃ ps, ((l.token (1 + n)).kind = .rightParen → Passes l (1 + n) paramRound (Round.last ps))
      ∧ ∀ k, (l.token (1 + n)).kind = .comma → LineEnds (after (1 + n + 1) l) k →
        Passes l (1 + n + (1 + k)) paramRound (Round.more ps) := by
  obtain ⟨p, hp⟩ := exists_passes_param hname h hend
  have hthere : ¬ (decide ((l.token 0).kind = .rightParen)
      || decide ((l.token 0).kind = .endOfInput)) = true := by
    rw [hname]
    decide
  have hnext : (after (1 + n) l).token 0 = l.token (1 + n) := by rw [token_after, Nat.add_zero]
  refine ⟨p.toList, fun hclose => Passes.kind.stay ?_, fun k hcomma hk => Passes.kind.stay ?_⟩
  · rw [if_neg hthere]
    refine hp.bind (n := 0) (Passes.kind.stay ?_)
    rw [hnext, hclose]
    exact .pure _
  · rw [if_neg hthere]
    refine hp.bind (Passes.kind.stay ?_)
    rw [hnext, hcomma]
    rw [after_add] at hk
    exact (Passes.advanceLine hk).bind (n := 0) (.pure _)

/-- In the middle of a list the depth of brackets is counted from there. -/
theorem endsType_after (h : l.bracketDepth m = 0) : EndsType (after m l) n ↔ EndsType l (m + n) := by
  rw [EndsType, EndsType, token_after, bracketDepth_eq, bracketDepth_eq, tally_add,
    ← bracketDepth_eq l m, h, Int.zero_add]

theorem bracketDepth_succ (h : (l.token n).kind.bracket = 0) :
    l.bracketDepth (n + 1) = l.bracketDepth n := by
  rw [bracketDepth, h, Int.add_zero]

/-- Line ends do not count as brackets. -/
theorem LineEnds.bracketDepth_eq (h : LineEnds (after m l) n) :
    l.bracketDepth (m + n) = l.bracketDepth m := by
  have hzero : (after m l).tally TokenKind.bracket n = 0 := tally_eq_zero fun i hi => by
    rw [h.kind_eq hi]
    rfl
  rw [Lexer.bracketDepth_eq, Lexer.bracketDepth_eq, tally_add, hzero, Int.add_zero]

/-- A place in a list where a parameter may start: there is one, or the end. -/
structure MayStart (l : Lexer) (n m : Nat) : Prop where
  le : m ≤ n
  depth_eq : l.bracketDepth m = 0
  name : m < n → (l.token m).kind = .identifier

/-- **One parameter of a list**: the last one, or one with another place behind it. -/
theorem exists_passes_parameter (h : l.HasParameters n) (hm : MayStart l n m) (hlt : m < n) :
    ∃ ps, Passes (after m l) (n - m) paramRound (Round.last ps)
      ∨ ∃ k, m < k ∧ MayStart l n k ∧ Passes (after m l) (k - m) paramRound (Round.more ps) := by
  have hfirst : (after m l).token 0 = l.token m := by rw [token_after, Nat.add_zero]
  have hname := hm.name hlt
  have hdepth : l.bracketDepth (m + 1) = 0 := by
    rw [bracketDepth_succ (by rw [hname]; rfl), hm.depth_eq]
  -- the type ends where the list does, if it does not end before
  obtain ⟨i, hi, hstops, hend⟩ := exists_stopsAt_le (l := after (m + 1) l) (n := n - (m + 1))
    (EndsType (after (m + 1) l)) ((endsType_after hdepth).2 (by
      rw [Nat.add_sub_cancel' hlt]
      exact ⟨.inr h.closes.1, h.closes.2⟩))
    fun i hi => by
      rw [token_after]
      exact (h.stops.goes _ (by omega)).1
  have hend' := (endsType_after hdepth).1 hend
  rw [after_add] at hstops hend
  obtain ⟨ps, hlast, hmore⟩ := exists_passes_paramRound (hfirst ▸ hname) hstops hend
  have hlimit : (after m l).token (1 + i) = l.token (m + 1 + i) := by rw [token_after, Nat.add_assoc]
  rw [hlimit] at hlast hmore
  refine ⟨ps, ?_⟩
  rcases hend'.1 with hcomma | hclose
  · have hne : m + 1 + i ≠ n := fun heq => by
      rw [heq, h.closes.1] at hcomma
      cases hcomma
    obtain ⟨j, hj, hlines⟩ := exists_lineEnds_le (l := after (m + 1 + i + 1) l)
      (n := n - (m + 1 + i + 1))
      (by
        rw [token_after, Nat.add_sub_cancel' (by omega), h.closes.1]
        exact nofun)
      fun j hj => by
        rw [token_after]
        exact (h.stops.goes _ (by omega)).1
    have hcount : m + 1 + i + 1 + j - m = 1 + i + (1 + j) := by omega
    refine .inr ⟨m + 1 + i + 1 + j, by omega, ⟨by omega, ?_, fun hlt => h.named _ hlt (.inr
      ⟨m + 1 + i, by omega, ⟨hcomma, hend'.2⟩, fun k hk hkj => ?_, ?_⟩)⟩, ?_⟩
    · rw [hlines.bracketDepth_eq, bracketDepth_succ (by rw [hcomma]; rfl), hend'.2]
    · have hkind := hlines.kind_eq (i := k - (m + 1 + i + 1)) (by omega)
      rwa [token_after, Nat.add_sub_cancel' hk] at hkind
    · rw [← token_after]
      exact hlines.kind_ne
    · rw [hcount]
      refine hmore j hcomma ?_
      rw [← after_add, show m + (1 + i + 1) = m + 1 + i + 1 by omega]
      exact hlines
  · have hn : n - m = 1 + i := by
      have : ¬ m + 1 + i < n := fun hlt => (h.stops.goes _ hlt).2 ⟨hclose, hend'.2⟩
      omega
    rw [hn]
    exact .inl (hlast hclose)

/-- **The parameters from one of them on**, up to the parenthesis that closes them:
by induction on how many tokens there are up to that. -/
theorem exists_passes_repeatUpTo (h : l.HasParameters n) (hm : MayStart l n m) :
    ∃ ps, ∀ fuel, n - m < fuel → Passes (after m l) (n - m) (repeatUpTo paramRound fuel) ps := by
  induction hk : n - m using Nat.strong_induction_on generalizing m with
  | _ k ih =>
    subst hk
    rcases Nat.eq_or_lt_of_le hm.le with rfl | hlt
    · refine ⟨[], fun fuel hfuel => ?_⟩
      obtain ⟨fuel, rfl⟩ : ∃ k, fuel = k + 1 := ⟨fuel - 1, by omega⟩
      have hclose : ((after m l).token 0).kind = .rightParen := by
        rw [token_after, Nat.add_zero]
        exact h.closes.1
      rw [Nat.sub_self]
      exact (passes_paramRound_close hclose).stay (.pure _)
    · obtain ⟨ps, hlast | ⟨k, hmk, hk, hmore⟩⟩ := exists_passes_parameter h hm hlt
      · refine ⟨ps, fun fuel hfuel => ?_⟩
        obtain ⟨fuel, rfl⟩ : ∃ k, fuel = k + 1 := ⟨fuel - 1, by omega⟩
        exact hlast.bind (n := 0) (.pure _)
      · have := hk.le
        obtain ⟨rest, hrest⟩ := ih (n - k) (by omega) hk rfl
        refine ⟨ps ++ rest, fun fuel hfuel => ?_⟩
        obtain ⟨fuel, rfl⟩ : ∃ k, fuel = k + 1 := ⟨fuel - 1, by omega⟩
        have hcount : n - m = k - m + (n - k + 0) := by omega
        rw [hcount]
        refine hmore.bind (Passes.bind ?_ (.pure _))
        rw [← after_add, Nat.add_sub_cancel' hmk.le]
        exact hrest fuel (by omega)

/-- **Parameters in parentheses.** -/
theorem exists_passes_params (hopen : (l.token 0).kind = .leftParen)
    (h : (after 1 l).HasParameters n) :
    ∃ ps, Passes l (1 + (n + 1)) params (some ps) := by
  obtain ⟨ps, hps⟩ := exists_passes_repeatUpTo h ⟨Nat.zero_le _, rfl, fun hlt => h.named 0 hlt (.inl rfl)⟩
  have hrepeated : Passes (after 1 l) n (repeated paramRound) ps := fun s hs => by
    rw [run_repeated]
    exact hps s.rounds (hs.lt_rounds fun i hi => (h.stops.goes i hi).1) s hs
  have hclose : ((after n (after 1 l)).token 0).kind = .rightParen := by
    rw [token_after, Nat.add_zero]
    exact h.closes.1
  refine ⟨ps, (Passes.expect hopen).bind ?_⟩
  exact hrepeated.bind ((Passes.expect hclose).bind (n := 0) (.pure _))

/-! ## Bodies -/

/-- Whether a brace has been opened in front of a token. -/
def opened (l : Lexer) : Nat → Bool
  | 0 => false
  | n + 1 => opened l n || (l.token n).kind == .leftBrace

/-- What the capture of a function knows in front of a token. -/
def functionState (l : Lexer) (n : Nat) : Int × Bool :=
  (l.tally TokenKind.brace n, opened l n)

theorem tally_nonpos_of_not_opened (h : opened l n = false) : l.tally TokenKind.brace n ≤ 0 := by
  induction n with
  | zero => exact le_rfl
  | succ n ih =>
    obtain ⟨hn, hkind⟩ := Bool.or_eq_false_iff.1 h
    have hbrace : (l.token n).kind.brace ≤ 0 := by
      cases hk : (l.token n).kind <;> simp [TokenKind.brace, hk] at hkind ⊢
    have := ih hn
    rw [tally]
    omega

theorem functionStep_of_closesBody (h : l.ClosesBody n) :
    functionStep (functionState l n) (l.token n) = none := by
  have hopened : opened l n = true := by
    refine Bool.not_eq_false _ ▸ fun hnone => ?_
    have := tally_nonpos_of_not_opened hnone
    have := h.2
    omega
  simp [functionStep, functionState, h.1, h.2, hopened]

theorem functionStep_of_not_closesBody (h : ¬ l.ClosesBody n) :
    functionStep (functionState l n) (l.token n) = some (functionState l (n + 1)) := by
  simp only [functionState, tally, opened]
  cases hkind : (l.token n).kind
  case rightBrace =>
    have hdepth : l.tally TokenKind.brace n ≠ 1 := fun hone => h ⟨hkind, hone⟩
    simp [functionStep, hkind, hdepth, TokenKind.brace, Int.sub_eq_add_neg]
  all_goals simp [functionStep, hkind, TokenKind.brace]

theorem slice_after (h : l.cursor.IsIn l.source) (n start stop : Nat) :
    (after n l).slice start stop = l.slice start stop := by
  rw [slice, slice, (isIn_after h n).1]

/-- **A body is captured** up to the brace that closes it, and the line ends behind
it are passed. -/
theorem Passes.goFunc (start : Nat) (p : Position) (hin : l.cursor.IsIn l.source)
    (h : StopsAt l l.ClosesBody n) (hclose : l.ClosesBody n) (hk : LineEnds (after (n + 1) l) k) :
    Passes l (n + (1 + k)) (goFunc start p)
      ⟨String.ofList (l.slice start ((l.token n).start + 1)), p, none⟩ := by
  have hnext : (after n l).token 0 = l.token n := by rw [token_after, Nat.add_zero]
  refine (scan (functionState l) (fun _ => functionStep_of_closesBody)
    (fun _ => functionStep_of_not_closesBody) h).bind (current.stay ?_)
  have hthere : ¬ (l.token n).kind = .endOfInput := by
    rw [hclose.1]
    exact nofun
  rw [hnext, if_neg hthere, ← slice_after hin n]
  refine (sourceText _ _).stay (Passes.bind (n := 0) (advanceLine ?_) (.pure _))
  rw [← after_add]
  exact hk

/-! ## Results -/

/-- A result that is one name, or none. -/
theorem exists_passes_resultName (l : Lexer) : ∃ n name, Passes l n resultName name
    ∧ (n = 0 ∧ name = "" ∨ n = 1 ∧ (l.token 0).kind = .identifier ∧ name = (l.token 0).literal) := by
  by_cases hkind : (l.token 0).kind = .identifier
  · refine ⟨1, (l.token 0).literal, Passes.current.stay ?_, .inr ⟨rfl, hkind, rfl⟩⟩
    rw [if_pos hkind]
    exact Passes.advance.bind (n := 0) (.pure _)
  · refine ⟨0, "", Passes.current.stay ?_, .inl ⟨rfl, rfl⟩⟩
    rw [if_neg hkind]
    exact .pure _

namespace HasBody

variable {first : Nat} (h : l.HasBody first n)

include h

theorem tally_eq (hm : m ≤ first) : l.tally TokenKind.brace m = 0 :=
  tally_eq_zero fun i hi => h.before i (hi.trans_le hm)

theorem first_lt : first < n := by
  refine Nat.lt_of_not_le fun hle => ?_
  have := h.closes.2
  rw [tally_eq h hle] at this
  cases this

/-- The search for the body may start anywhere in front of it. -/
theorem after (hm : m ≤ first) : StopsAt (after m l) (after m l).ClosesBody (n - m)
    ∧ (after m l).ClosesBody (n - m) := by
  have hle : m ≤ n := hm.trans (first_lt h).le
  have hsame : ∀ i, (Lexer.after m l).ClosesBody i ↔ l.ClosesBody (m + i) := fun i => by
    rw [ClosesBody, ClosesBody, token_after, tally_add, tally_eq h hm, Int.zero_add]
  refine ⟨StopsAt.after ?_ hsame, (hsame _).2 ?_⟩ <;> rw [Nat.add_sub_cancel' hle]
  · exact h.stops
  · exact h.closes

/-- From one place to another in front of the body there are line ends. -/
theorem exists_lineEnds (hm : m ≤ first) : ∃ k, m + k ≤ first ∧ LineEnds (Lexer.after m l) k := by
  have hfirst := first_lt h
  obtain ⟨k, hk, hlines⟩ := exists_lineEnds_le (l := Lexer.after m l) (n := first - m)
    (by
      rw [token_after, Nat.add_sub_cancel' hm, h.opens]
      exact nofun)
    fun i hi => by
      rw [token_after]
      exact (h.stops.goes _ (by omega)).1
  exact ⟨k, by omega, hlines⟩

/-- **What is read between the parameters and the body**: line ends, a name that does
not make a component, and line ends. -/
theorem exists_passes_result (hresult : ¬ l.NamesElement) :
    ∃ i j k name, LineEnds l i ∧ Passes (Lexer.after i l) j resultName name
      ∧ LineEnds (Lexer.after (i + j) l) k ∧ name ≠ "Element" ∧ i + j + k ≤ first := by
  obtain ⟨i, hi, hlines⟩ := exists_lineEnds h (Nat.zero_le _)
  rw [Nat.zero_add] at hi
  obtain ⟨j, name, hpasses, hname⟩ := exists_passes_resultName (Lexer.after i l)
  rw [token_after, Nat.add_zero] at hname
  have hthere : i + j ≤ first ∧ name ≠ "Element" := by
    rcases hname with ⟨rfl, rfl⟩ | ⟨rfl, hkind, rfl⟩
    · exact ⟨hi, by decide⟩
    · have hne : i ≠ first := fun heq => by
        rw [heq, h.opens] at hkind
        cases hkind
      exact ⟨by omega, fun heq => hresult ⟨i, fun k hk => hlines.kind_eq hk, hkind, heq⟩⟩
  obtain ⟨k, hk, hlines'⟩ := exists_lineEnds h hthere.1
  exact ⟨i, j, k, name, hlines, hpasses, hlines', hthere.2, hk⟩

end HasBody

/-! ## The declaration -/

/-- A function is captured from anywhere between its head and its body. -/
theorem Passes.goFunc_of_hasBody {first i : Nat} (start : Nat) (p : Position)
    (hin : l.cursor.IsIn l.source) (h : (after m l).HasBody first n) (hi : i ≤ first)
    (hk : LineEnds (after (m + n + 1) l) k) :
    Passes (after (m + i) l) (n - i + (1 + k)) (Parse.goFunc start p)
      ⟨String.ofList (l.slice start ((l.token (m + n)).start + 1)), p, none⟩ := by
  have hlt := HasBody.first_lt h
  obtain ⟨hstops, hcloses⟩ := HasBody.after h hi
  have hlines : LineEnds (after (n - i + 1) (after (m + i) l)) k := by
    rwa [← after_add, show m + i + (n - i + 1) = m + n + 1 by omega]
  rw [← after_add] at hstops hcloses
  have hin' : (after (m + i) l).cursor.IsIn (after (m + i) l).source := by
    obtain ⟨hsource, hcursor⟩ := isIn_after hin (m + i)
    rwa [hsource]
  have hpasses := goFunc start p hin' hstops hcloses hlines
  rwa [slice_after hin, token_after, show m + i + (n - i) = m + n by omega] at hpasses

/-- **A function that is captured whole**: what `func` declares is its text, and
nothing else is done. -/
theorem Passes.funcDeclaration (hin : l.cursor.IsIn l.source) (h : l.IsHelper n)
    (hk : LineEnds (after (n + 1) l) k) :
    Passes l (n + 1 + k) funcDeclaration (some (.func
      ⟨String.ofList (l.slice (l.token 0).start ((l.token n).start + 1)), (l.token 0).position,
        none⟩)) := by
  have hnext : (after 1 l).token 0 = l.token 1 := by rw [token_after]
  cases h with
  | @method first n word receiver body =>
    rw [show 1 + n + 1 + k = 1 + (n + (1 + k) + 0) by omega]
    refine current.stay (advance.bind (current.stay ?_))
    rw [hnext, if_pos receiver]
    exact (goFunc_of_hasBody _ _ hin body (Nat.zero_le _) hk).bind (.pure _)
  | @function m first n word name paren parameters result body =>
    obtain ⟨ps, hparams⟩ := exists_passes_params (l := after 2 l)
      (by rw [token_after]; exact paren) (by rw [← after_add]; exact parameters)
    obtain ⟨i, j, k', r, hlines, hname, hlines', hne, hle⟩ :=
      HasBody.exists_passes_result body result
    have hlt := HasBody.first_lt body
    have hbody := goFunc_of_hasBody (l.token 0).start (l.token 0).position hin body hle hk
    have hplace : after (1 + (m + 1)) (after 2 l) = after (4 + m) l := by
      rw [← after_add, show 2 + (1 + (m + 1)) = 4 + m by omega]
    rw [show 4 + m + n + 1 + k
      = 1 + (1 + (1 + (m + 1) + (i + (j + (k' + (n - (i + j + k') + (1 + k) + 0)))))) by omega]
    refine current.stay (advance.bind (current.stay ?_))
    rw [hnext, name, if_neg nofun, if_pos rfl]
    refine advance.bind (hparams.bind ?_)
    rw [hplace]
    refine (skipNewlines hlines).bind (hname.bind ?_)
    rw [← after_add]
    refine (skipNewlines hlines').bind ?_
    rw [← after_add, ← after_add, if_neg hne]
    exact hbody.bind (.pure _)

end Parse

end Gsx
