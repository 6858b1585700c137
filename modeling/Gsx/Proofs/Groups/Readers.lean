import Gsx.Proofs.Attachment.Course
import Gsx.Proofs.Groups.Splitting
/-!
# Readers that go on behind trouble

A reader goes a course whether or not it reports something on its way, as long as it
does not stop for want of rounds or depth. `Acts s r q` says so of the reader `r` from
the stream `s` on. What it gives satisfies `q` for any property that its deeds have; so
the deeds need not be followed one by one, and those of a reader that takes no comments
for a node can be left alone (`GoesOn`).
-/

namespace Gsx.Parse

open TokenStream
open Blanking (held)

variable {α β σ : Type} {s : TokenStream}

/-- **What a reader does** from a stream on, be there trouble or not. -/
structure Acts (s : TokenStream) (r : Parse α) (q : (Deed → Prop) → α → Prop) : Prop where
  exhausted : s.exhausted = true → (r.run s).2.exhausted = true
  course : (r.run s).2.exhausted = false → ∃ ds, Course s ds (r.run s).2
    ∧ ∀ D : Deed → Prop, (∀ d ∈ ds, D d) → q D (r.run s).1

/-- **A reader goes a course**, whatever it gives. -/
abbrev GoesOn (r : Parse α) : Prop :=
  ∀ s, Acts s r fun _ _ => True

variable {p q q' : (Deed → Prop) → α → Prop} {k : (Deed → Prop) → β → Prop}

/-- What holds of something that need not be given. -/
def Perhaps (p : (Deed → Prop) → α → Prop) (D : Deed → Prop) (r : Option α) : Prop :=
  ∀ a ∈ r, p D a

theorem Perhaps.none {D : Deed → Prop} : Perhaps p D none :=
  fun _ h => absurd h (Option.not_mem_none _)

theorem Perhaps.some {D : Deed → Prop} {a : α} (h : p D a) : Perhaps p D (some a) :=
  fun _ ha => Option.mem_some.1 ha ▸ h

/-! ## Composition -/

namespace Acts

theorem pure {a : α} (h : ∀ D, q D a) : Acts s (Pure.pure a) q :=
  ⟨id, fun _ => ⟨[], .done s, fun D _ => h D⟩⟩

theorem mono {r : Parse α} (h : Acts s r q) (hq : ∀ D a, q D a → q' D a) : Acts s r q' :=
  ⟨h.exhausted, fun hrounds => by
    obtain ⟨ds, hcourse, ha⟩ := h.course hrounds
    exact ⟨ds, hcourse, fun D hD => hq D _ (ha D hD)⟩⟩

/-- A reader with something behind it, where it ends. What the first one gives counts
at the end. -/
theorem bindAt {r : Parse α} {f : α → Parse β} (hr : Acts s r p)
    (hf : Acts (r.run s).2 (f (r.run s).1) fun D b => p D (r.run s).1 → k D b) :
    Acts s (r >>= f) k := by
  refine ⟨fun h => hf.exhausted (hr.exhausted h), fun hrounds => ?_⟩
  obtain ⟨ds, hcourse, ha⟩ := hr.course
    (Bool.eq_false_iff.2 fun h => Bool.eq_false_iff.1 hrounds (hf.exhausted h))
  obtain ⟨es, hcourse', hb⟩ := hf.course hrounds
  refine ⟨ds ++ es, hcourse.append hcourse', fun D hD => ?_⟩
  rw [List.forall_mem_append] at hD
  exact hb D hD.2 (ha D hD.1)

theorem bind {r : Parse α} {f : α → Parse β} (hr : Acts s r p)
    (hf : ∀ s₁ a, Acts s₁ (f a) fun D b => p D a → k D b) : Acts s (r >>= f) k :=
  hr.bindAt (hf _ _)

/-- A reader behind one of which nothing need be known. -/
theorem next {r : Parse α} {f : α → Parse β} (hr : GoesOn r) (hf : ∀ s₁ a, Acts s₁ (f a) k) :
    Acts s (r >>= f) k :=
  (hr s).bind fun s₁ a => (hf s₁ a).mono fun _ _ h _ => h

theorem ite {c : Prop} [Decidable c] {r r' : Parse α} (hr : c → Acts s r q)
    (hr' : ¬c → Acts s r' q) : Acts s (if c then r else r') q := by
  split
  · next h => exact hr h
  · next h => exact hr' h

/-- A reader that need not give something, with one behind it. -/
theorem option {r : Parse (Option α)} {f : Option α → Parse β} (hr : Acts s r (Perhaps p))
    (hnone : ∀ s₁, Acts s₁ (f none) k)
    (hsome : ∀ s₁ a, Acts s₁ (f (some a)) fun D b => p D a → k D b) : Acts s (r >>= f) k :=
  hr.bind fun s₁ a => by
    cases a with
    | none => exact (hnone s₁).mono fun _ _ h _ => h
    | some a => exact (hsome s₁ a).mono fun _ _ h ha => h (ha a rfl)

/-- Nothing is given. -/
theorem nothing : Acts s (Pure.pure none) (Perhaps p) :=
  .pure fun _ => .none

/-- Something is given. -/
theorem something {a : α} (h : ∀ D, p D a) : Acts s (Pure.pure (some a)) (Perhaps p) :=
  .pure fun D => .some (h D)

/-! ## Looking -/

theorem ofCurrent {f : Token → Parse α} (h : Acts s (f s.current) q) : Acts s (current >>= f) q :=
  ⟨h.exhausted, h.course⟩

theorem ofKind {f : TokenKind → Parse α} (h : Acts s (f s.current.kind) q) :
    Acts s (kind >>= f) q :=
  ⟨h.exhausted, h.course⟩

theorem ofPosition {f : Position → Parse α} (h : Acts s (f s.current.position) q) :
    Acts s (position >>= f) q :=
  ⟨h.exhausted, h.course⟩

theorem ofGet {f : TokenStream → Parse α} (h : Acts s (f s) q) : Acts s (get >>= f) q :=
  ⟨h.exhausted, h.course⟩

/-! ## Comments -/

/-- **The comments in front of a token** are taken. The reader behind is in front of
this token too. -/
theorem leading {f : Option CommentGroup → Parse α} (h : ∀ s₁ g, s₁.current = s.current →
      Acts s₁ (f g) fun D a => D (.take s.current true (commentsIn g)) → q D a) :
    Acts s (Parse.leadingComments >>= f) q := by
  have hrun := run_leadingComments s
  have hleft : held (Parse.leadingComments.run s).2
      = (held s).filter (fun c => !(decide (c.offset < s.current.start))) := by
    rw [hrun, held]
    exact List.append_nil _
  have hgroup : commentsIn (Parse.leadingComments.run s).1
      = (held s).filter (·.offset < s.current.start) := by
    rw [hrun]
    exact Does.commentsIn_groupBefore s.collected
  have hstays := keeps_leadingComments s
  have hrest := h (Parse.leadingComments.run s).2 (Parse.leadingComments.run s).1 hstays.current
  refine ⟨fun hexhausted => hrest.exhausted (hstays.exhausted.trans hexhausted), fun hrounds => ?_⟩
  obtain ⟨ds, hcourse, ha⟩ := hrest.course hrounds
  refine ⟨_, .take true hstays hgroup hleft hcourse, fun D hD => ?_⟩
  rw [List.forall_mem_cons] at hD
  exact ha D hD.2 hD.1

/-- Comments that belong to no node are split into groups. -/
theorem orphanComments :
    Acts s Parse.orphanComments fun _ gs => ∀ g ∈ gs, g.IsUnbroken := by
  refine leading fun s₁ g _ => ?_
  cases g with
  | none => exact .pure fun _ _ _ h => absurd h List.not_mem_nil
  | some g => exact .pure fun _ _ => (CommentGroup.splits_ofComments g.comments).unbroken

/-- **A comment behind what has been read** is taken, and no other one. -/
theorem trailingComment (line : Nat) :
    Acts s (Parse.trailingComment line) fun _ g => ∀ g' ∈ g, ∃ c, g'.comments = [c] := by
  have hrun := run_trailingComment line s
  have hfirst : ∀ cs : List Comment, (∀ g ∈ (firstOn line cs).1, ∃ c, g.comments = [c])
      ∧ cs = commentsIn (firstOn line cs).1 ++ (firstOn line cs).2 := fun cs => by
    cases cs with
    | nil => exact ⟨fun _ h => absurd h (Option.not_mem_none _), rfl⟩
    | cons c cs =>
      rw [firstOn]
      split
      · exact ⟨fun g hg => ⟨c, Option.mem_some.1 hg ▸ rfl⟩, rfl⟩
      · exact ⟨fun _ h => absurd h (Option.not_mem_none _), rfl⟩
  have hheld : held s = commentsIn (Parse.trailingComment line |>.run s).1
      ++ held (Parse.trailingComment line |>.run s).2 := by
    rw [hrun]
    change held s = commentsIn (firstOn line (held s)).1 ++ ((firstOn line (held s)).2 ++ [])
    rw [List.append_nil]
    exact (hfirst (held s)).2
  have hstays := keeps_trailingComment line s
  refine ⟨hstays.exhausted.trans, fun _ => ⟨_, .trail hstays hheld (.done _), fun _ _ => ?_⟩⟩
  rw [hrun]
  exact (hfirst _).1

end Acts

/-! ## Readers of which nothing need be known -/

namespace GoesOn

theorem pure {a : α} : GoesOn (Pure.pure a : Parse α) :=
  fun _ => .pure fun _ => trivial

theorem next {r : Parse α} {f : α → Parse β} (hr : GoesOn r) (hf : ∀ a, GoesOn (f a)) :
    GoesOn (r >>= f) :=
  fun _ => .next hr fun s₁ a => hf a s₁

theorem ite {c : Prop} [Decidable c] {r r' : Parse α} (hr : GoesOn r) (hr' : GoesOn r') :
    GoesOn (if c then r else r') :=
  fun s => .ite (fun _ => hr s) fun _ => hr' s

theorem of {q : TokenStream → (Deed → Prop) → α → Prop} {r : Parse α}
    (h : ∀ s, Acts s r (q s)) : GoesOn r :=
  fun s => (h s).mono fun _ _ _ => trivial

/-- What takes notes. -/
theorem note {r : Parse α} (hstays : ∀ s : TokenStream, s.Stays (r.run s).2)
    (hheld : ∀ s, held (r.run s).2 = held s) : GoesOn r :=
  fun s => ⟨(hstays s).exhausted.trans, fun _ =>
    ⟨[], .note (hstays s) (hheld s) (.done _), fun _ _ => trivial⟩⟩

theorem current : GoesOn Parse.current :=
  .note (fun _ => .refl) fun _ => rfl

theorem kind : GoesOn Parse.kind :=
  .note (fun _ => .refl) fun _ => rfl

theorem position : GoesOn Parse.position :=
  .note (fun _ => .refl) fun _ => rfl

theorem get : GoesOn (MonadState.get : Parse TokenStream) :=
  .note (fun _ => .refl) fun _ => rfl

theorem sourceText (start stop : Nat) : GoesOn (Parse.sourceText start stop) :=
  .note (fun _ => .refl) fun _ => rfl

theorem trimmedText (start stop : Nat) : GoesOn (Parse.trimmedText start stop) :=
  .note (fun _ => .refl) fun _ => rfl

theorem lexedOffset : GoesOn Parse.lexedOffset :=
  .note (fun _ => .refl) fun _ => rfl

theorem reportAt (place : Position) (f : GrammarFault) : GoesOn (Parse.reportAt place f) :=
  .note (fun _ => ⟨rfl, rfl, rfl, rfl, rfl, fun _ => .inl⟩) fun _ => rfl

theorem report (f : GrammarFault) : GoesOn (Parse.report f) :=
  .next .position fun _ => .reportAt _ f

theorem advance : GoesOn Parse.advance :=
  fun s => ⟨id, fun _ => ⟨_, .token (.done s.advanced), fun _ _ => trivial⟩⟩

theorem intValue (literal : String) : GoesOn (Parse.intValue literal) :=
  .note (keeps_intValue literal) fun s => by
    unfold Parse.intValue
    split <;> rfl

theorem floatValue (literal : String) : GoesOn (Parse.floatValue literal) := by
  unfold Parse.floatValue
  cases FloatLiteral.value? literal with
  | some x => exact .pure
  | none => exact .next (.report _) fun _ => .pure

end GoesOn

/-- Without rounds or depth left there is nothing to follow. -/
theorem Acts.exhaust : Acts s Parse.exhaust fun _ _ => False :=
  ⟨fun _ => rfl, fun h => Bool.noConfusion h⟩

theorem Acts.tooDeep {a : α} : Acts s (Parse.tooDeep a) q :=
  .bind .exhaust fun _ _ => .pure fun _ h => h.elim

/-! ### Loops -/

/-- **A repetition** gives items that satisfy what those of each round do. -/
theorem Acts.repeated {round : Parse (Round β)} {P : (Deed → Prop) → β → Prop}
    (h : ∀ s, Acts s round fun D r => ∀ b ∈ r.items, P D b) :
    Acts s (Parse.repeated round) fun D bs => ∀ b ∈ bs, P D b := by
  -- On the rounds that are left; a repetition that runs out of them gives nothing.
  have hfuel : ∀ fuel s, Acts s (repeatUpTo round fuel) fun D bs => ∀ b ∈ bs, P D b := by
    intro fuel
    induction fuel with
    | zero => exact fun _ => .bind .exhaust fun _ _ => .pure fun _ h => h.elim
    | succ fuel ih =>
      refine fun s => (h s).bind fun s₁ r => .ite (fun _ => ?_) fun _ => .pure fun _ hr => hr
      exact (ih s₁).bind fun _ rest => .pure fun D hrest hr => List.forall_mem_append.2 ⟨hr, hrest⟩
  exact .ofGet (hfuel s.rounds s)

namespace GoesOn

theorem scanUpTo (step : σ → Token → Option σ) (fuel : Nat) (a : σ) :
    GoesOn (Parse.scanUpTo step fuel a) := by
  have hround : ∀ a, GoesOn (scanRound step a) := fun a =>
    .next .current fun t => .ite .pure <| by
      cases step a t with
      | none => exact .pure
      | some a' => exact .next .advance fun _ => .pure
  induction fuel generalizing a with
  | zero => exact fun _ => .bind .exhaust fun _ _ => .pure fun _ h => h.elim
  | succ fuel ih =>
    refine .next (hround a) fun r => ?_
    cases r with
    | none => exact .pure
    | some a' => exact ih a'

theorem scan (step : σ → Token → Option σ) (a : σ) : GoesOn (Parse.scan step a) :=
  .next .get fun s => .scanUpTo step s.rounds a

theorem skipWhile (c : Token → Bool) : GoesOn (Parse.skipWhile c) :=
  .scan _ _

theorem skipNewlines : GoesOn Parse.skipNewlines :=
  .skipWhile _

theorem advanceLine : GoesOn Parse.advanceLine :=
  .next .advance fun _ => .skipNewlines

theorem expect (want : TokenKind) : GoesOn (Parse.expect want) :=
  .next .kind fun _ => .ite (.next .advance fun _ => .pure) (.next (.report _) fun _ => .pure)

theorem expectLine (want : TokenKind) : GoesOn (Parse.expectLine want) :=
  .next (.expect want) fun _ => .ite (.next .skipNewlines fun _ => .pure) .pure

theorem repeated {round : Parse (Round β)} (h : GoesOn round) : GoesOn (Parse.repeated round) :=
  .of fun _ => Acts.repeated (P := fun _ _ => True) fun s => (h s).mono fun _ _ _ _ _ => trivial

/-! ### Captured Go -/

theorem recover : GoesOn Parse.recover :=
  .next .current fun _ => .next (.skipWhile _) fun _ =>
    .note (fun _ => ⟨rfl, rfl, rfl, rfl, rfl, fun _ => .inl⟩) fun _ => rfl

theorem goType : GoesOn Parse.goType :=
  .next .current fun _ => .next (.scan _ _) fun _ => .next .current fun _ =>
    .ite (.next .lexedOffset fun _ => .trimmedText _ _) (.trimmedText _ _)

theorem goHeader : GoesOn Parse.goHeader :=
  .next .current fun _ => .next (.skipWhile _) fun _ => .next .current fun _ => .trimmedText _ _

theorem goArguments : GoesOn Parse.goArguments :=
  .next .current fun _ => .next (.scan _ _) fun _ => .next .current fun _ => .trimmedText _ _

/-- Text between braces is gone behind, or the first brace is passed. -/
theorem bracedText : GoesOn Parse.bracedText := fun s => by
  cases hb : behindBraces s with
  | error f =>
    have hpass : GoesOn (passBrace f) :=
      .next (.report _) fun _ => .next .advance fun _ => .pure
    have hrun := run_bracedText_error hb
    refine ⟨?_, ?_⟩ <;> rw [hrun]
    · exact (hpass s).exhausted
    · exact (hpass s).course
  | ok r =>
    obtain ⟨code, s₁⟩ := r
    have hrun := run_bracedText_ok hb
    obtain ⟨-, -, -, hexhausted, -⟩ := behindBraces_spec hb
    refine ⟨fun h => ?_, fun _ => ?_⟩ <;> rw [hrun]
    · exact hexhausted.trans h
    · exact ⟨_, .braces hb (.done _), fun _ _ => trivial⟩

end GoesOn

end Gsx.Parse
