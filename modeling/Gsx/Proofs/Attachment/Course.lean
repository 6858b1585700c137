import Gsx.Proofs.Blanking.Rules
import Gsx.Proofs.Grammar.Touring
/-!
# What reading does with comments

Reading goes over tokens and behind braces. On its way it takes comments: all that
it holds in front of a token, for the node that starts there or for none, and single
ones behind what it has just read. A course is such a sequence of deeds, from one
stream to another. What is taken in front of a token may get lost; the course is the
same then, but for that mark.

`Does s r q` reads: where the reader `r` meets no trouble from the stream `s` on, it
goes a course whose deeds, together with what it gives, satisfy `q`. Trouble that was
there before stays there, so the rules need not follow a reader behind what it has
reported.
-/

namespace Gsx

open Blanking (held)

/-- **One thing that reading does** with the tokens and comments of a source. -/
inductive Deed where
  /-- Going over a token. -/
  | token (t : Token)
  /-- Going behind the braces at a token. -/
  | braces (t : Token)
  /-- Taking the comments in front of a token. They may get lost. -/
  | take (t : Token) (kept : Bool) (cs : List Comment)
  /-- Taking a comment behind what has been read, if there is one. -/
  | trail (cs : List Comment)

namespace Deed

/-- The comments that a deed takes. -/
def taken : Deed → List Comment
  | .token _ | .braces _ => []
  | .take _ _ cs => cs
  | .trail cs => cs

/-- The comments that a deed takes and that do not get lost. -/
def kept : Deed → List Comment
  | .token _ | .braces _ => []
  | .take _ kept cs => if kept then cs else []
  | .trail cs => cs

theorem kept_sublist (d : Deed) : d.kept.Sublist d.taken := by
  cases d with
  | take t kept cs =>
    cases kept with
    | true => exact .refl cs
    | false => exact List.nil_sublist cs
  | _ => exact .refl _

end Deed

/-! ## Courses -/

/-- **A course of deeds**, from one stream to another. Notes on the way are no
deeds. -/
inductive Course : TokenStream → List Deed → TokenStream → Prop
  | done (s : TokenStream) : Course s [] s
  | note {s s₁ s' : TokenStream} {ds : List Deed} :
      s.Stays s₁ → held s₁ = held s → Course s₁ ds s' → Course s ds s'
  | token {s s' : TokenStream} {ds : List Deed} :
      Course s.advanced ds s' → Course s (.token s.current :: ds) s'
  | braces {s s₁ s' : TokenStream} {ds : List Deed} {code : String} :
      Parse.behindBraces s = .ok (code, s₁) → Course s₁ ds s' →
      Course s (.braces s.current :: ds) s'
  | take {s s₁ s' : TokenStream} {ds : List Deed} {cs : List Comment} (kept : Bool) :
      s.Stays s₁ → cs = (held s).filter (·.offset < s.current.start) →
      held s₁ = (held s).filter (fun c => !(decide (c.offset < s.current.start))) →
      Course s₁ ds s' → Course s (.take s.current kept cs :: ds) s'
  | trail {s s₁ s' : TokenStream} {ds : List Deed} {cs : List Comment} :
      s.Stays s₁ → held s = cs ++ held s₁ → Course s₁ ds s' → Course s (.trail cs :: ds) s'

namespace Course

variable {s s₁ s' : TokenStream} {ds es : List Deed} {t : Token} {kept : Bool} {cs : List Comment}

theorem append (h : Course s ds s₁) (h' : Course s₁ es s') : Course s (ds ++ es) s' := by
  induction h with
  | done => exact h'
  | note hstays hheld _ ih => exact .note hstays hheld (ih h')
  | token _ ih => exact .token (ih h')
  | braces hb _ ih => exact .braces hb (ih h')
  | take kept hstays htaken hleft _ ih => exact .take kept hstays htaken hleft (ih h')
  | trail hstays hheld _ ih => exact .trail hstays hheld (ih h')

/-- **Whether comments get lost** is not for the course to say. -/
theorem remark (h : Course s (.take t kept cs :: es) s') (kept' : Bool) :
    Course s (.take t kept' cs :: es) s' := by
  generalize hall : Deed.take t kept cs :: es = all at h
  induction h with
  | done => cases hall
  | note hstays hheld _ ih => exact .note hstays hheld (ih hall)
  | take _ hstays htaken hleft h =>
    cases hall
    exact .take kept' hstays htaken hleft h
  | _ => cases hall

end Course

/-! ## Readers -/

namespace Parse

open TokenStream

variable {α β σ : Type} {s : TokenStream}

/-- **What a reader does** from a stream on. -/
structure Does (s : TokenStream) (r : Parse α) (q : List Deed → α → Prop) : Prop where
  troubled : s.IsTroubled → (r.run s).2.IsTroubled
  course : ¬(r.run s).2.IsTroubled → ∃ ds, Course s ds (r.run s).2 ∧ q ds (r.run s).1

variable {p q q' : List Deed → α → Prop} {k : List Deed → β → Prop}

namespace Does

/-! ### Composition -/

theorem pure {a : α} (h : q [] a) : Does s (Pure.pure a) q :=
  ⟨id, fun _ => ⟨[], .done s, h⟩⟩

theorem mono {r : Parse α} (h : Does s r q) (hq : ∀ ds a, q ds a → q' ds a) : Does s r q' :=
  ⟨h.troubled, fun hclean => by
    obtain ⟨ds, hcourse, ha⟩ := h.course hclean
    exact ⟨ds, hcourse, hq ds _ ha⟩⟩

/-- A reader with something behind it. That is followed whatever the first one
gives; what is known of its deeds counts at the end. -/
theorem bind {r : Parse α} {f : α → Parse β} (hr : Does s r p)
    (hf : ∀ s₁ a, Does s₁ (f a) fun es b => ∀ ds, p ds a → k (ds ++ es) b) :
    Does s (r >>= f) k := by
  have hrest := hf (r.run s).2 (r.run s).1
  refine ⟨fun h => hrest.troubled (hr.troubled h), fun hclean => ?_⟩
  obtain ⟨ds, hcourse, ha⟩ := hr.course fun h => hclean (hrest.troubled h)
  obtain ⟨es, hcourse', hb⟩ := hrest.course hclean
  exact ⟨ds ++ es, hcourse.append hcourse', hb ds ha⟩

/-- Another telling of the course. -/
theorem retell {r : Parse α} (h : Does s r q)
    (hq : ∀ s' ds a, Course s ds s' → q ds a → ∃ es, Course s es s' ∧ q' es a) : Does s r q' :=
  ⟨h.troubled, fun hclean => by
    obtain ⟨ds, hcourse, ha⟩ := h.course hclean
    exact hq _ ds _ hcourse ha⟩

theorem ite {c : Prop} [Decidable c] {r r' : Parse α} (hr : c → Does s r q)
    (hr' : ¬c → Does s r' q) : Does s (if c then r else r') q := by
  split
  · next h => exact hr h
  · next h => exact hr' h

/-! ### Looking -/

theorem ofCurrent {f : Token → Parse α} (h : Does s (f s.current) q) : Does s (current >>= f) q :=
  ⟨h.troubled, h.course⟩

theorem ofKind {f : TokenKind → Parse α} (h : Does s (f s.current.kind) q) :
    Does s (kind >>= f) q :=
  ⟨h.troubled, h.course⟩

theorem ofPosition {f : Position → Parse α} (h : Does s (f s.current.position) q) :
    Does s (position >>= f) q :=
  ⟨h.troubled, h.course⟩

theorem ofGet {f : TokenStream → Parse α} (h : Does s (f s) q) : Does s (get >>= f) q :=
  ⟨h.troubled, h.course⟩

theorem ofSourceText {start stop : Nat} {f : String → Parse α} (h : ∀ text, Does s (f text) q) :
    Does s (sourceText start stop >>= f) q :=
  ⟨(h _).troubled, (h _).course⟩

theorem ofTrimmedText {start stop : Nat} {f : String → Parse α} (h : ∀ text, Does s (f text) q) :
    Does s (trimmedText start stop >>= f) q :=
  ⟨(h _).troubled, (h _).course⟩

theorem trimmedText {start stop : Nat} {q : List Deed → String → Prop} (h : ∀ text, q [] text) :
    Does s (Parse.trimmedText start stop) q :=
  ⟨id, fun _ => ⟨[], .done s, h _⟩⟩

theorem ofLexedOffset {f : Nat → Parse α} (h : ∀ n, Does s (f n) q) :
    Does s (lexedOffset >>= f) q :=
  ⟨(h _).troubled, (h _).course⟩

/-! ### Tokens -/

theorem advance {f : Unit → Parse α}
    (h : Does s.advanced (f ()) fun ds a => q (.token s.current :: ds) a) :
    Does s (Parse.advance >>= f) q :=
  ⟨h.troubled, fun hclean => by
    obtain ⟨ds, hcourse, ha⟩ := h.course hclean
    exact ⟨_, .token hcourse, ha⟩⟩

theorem lastAdvance {q : List Deed → Unit → Prop} (h : q [.token s.current] ()) :
    Does s Parse.advance q :=
  ⟨id, fun _ => ⟨_, .token (.done _), h⟩⟩

/-! ### Trouble -/

/-- Behind trouble there is nothing to follow. -/
theorem trouble {r : Parse α} (h : (r.run s).2.IsTroubled) : Does s r q :=
  ⟨fun _ => h, fun hclean => absurd h hclean⟩

theorem reportAt (place : Position) (f : GrammarFault) :
    Does s (Parse.reportAt place f) fun _ _ => False :=
  .trouble (.inr (List.append_ne_nil_of_right_ne_nil _ (List.cons_ne_nil _ _)))

theorem report (f : GrammarFault) : Does s (Parse.report f) fun _ _ => False :=
  .ofPosition (.reportAt _ f)

theorem exhaust : Does s Parse.exhaust fun _ _ => False :=
  .trouble (.inl rfl)

/-- A report, and nothing behind it. -/
theorem reportLast {f : GrammarFault} {a : α} : Does s (do Parse.report f; return a) q :=
  (report f).bind fun _ _ => .pure fun _ h => h.elim

theorem tooDeep {a : α} : Does s (Parse.tooDeep a) q :=
  exhaust.bind fun _ _ => .pure fun _ h => h.elim

/-! ### Comments -/

/-- What takes notes does nothing else. -/
theorem note {r : Parse α} (hstays : s.Stays (r.run s).2)
    (hheld : held (r.run s).2 = held s) (hdiagnostics : (r.run s).2.diagnostics = s.diagnostics)
    (hq : q [] (r.run s).1) : Does s r q := by
  refine ⟨fun h => ?_, fun _ => ⟨[], .note hstays hheld (.done _), hq⟩⟩
  rwa [IsTroubled, hstays.exhausted, hdiagnostics]

theorem intValue (literal : String) : Does s (Parse.intValue literal) fun ds _ => ds = [] := by
  refine ⟨fun h => ?_, fun _ => ⟨[], .note (keeps_intValue literal s) ?_ (.done _), rfl⟩⟩
  all_goals unfold Parse.intValue at *
  · split
    · exact h
    · exact h
  · split <;> rfl

theorem commentsIn_groupBefore (s : TokenStream) :
    commentsIn (groupBefore s) = s.comments.filter (·.offset < s.current.start) := by
  unfold groupBefore
  simp only
  split
  · next hempty =>
    rw [List.isEmpty_iff.1 hempty]
    rfl
  · rfl

/-- **The comments in front of a token** are taken. The reader behind is in front of
this token too. -/
theorem leading {f : Option CommentGroup → Parse α} (h : ∀ s₁ g, s₁.current = s.current →
      Does s₁ (f g) fun ds a => q (.take s.current true (commentsIn g) :: ds) a) :
    Does s (Parse.leadingComments >>= f) q := by
  have hrun := run_leadingComments s
  have hheld : s.collected.comments = held s := rfl
  have hleft : held (Parse.leadingComments.run s).2
      = (held s).filter (fun c => !(decide (c.offset < s.current.start))) := by
    rw [hrun, held, hheld]
    exact List.append_nil _
  have hgroup : commentsIn (Parse.leadingComments.run s).1
      = (held s).filter (·.offset < s.current.start) := by
    rw [hrun]
    exact commentsIn_groupBefore s.collected
  have hstays := keeps_leadingComments s
  have hrest := h (Parse.leadingComments.run s).2 (Parse.leadingComments.run s).1 hstays.current
  refine ⟨fun htroubled => hrest.troubled ?_, fun hclean => ?_⟩
  · rw [hrun]
    exact htroubled
  · obtain ⟨ds, hcourse, ha⟩ := hrest.course hclean
    exact ⟨_, .take true hstays hgroup hleft hcourse, ha⟩

/-- Comments that belong to no node are taken. -/
theorem orphanComments : Does s Parse.orphanComments fun ds gs =>
    ds = [.take s.current true (commentsAmong gs)] := by
  refine leading fun s₁ g _ => ?_
  cases g with
  | none => exact .pure rfl
  | some g => exact .pure (by rw [commentsAmong_ofComments]; rfl)

/-- A comment behind what has been read is taken. -/
theorem trailingComment (line : Nat) : Does s (Parse.trailingComment line) fun ds g =>
    ds = [.trail (commentsIn g)] := by
  have hrun := run_trailingComment line s
  have hheld : held s = commentsIn (Parse.trailingComment line |>.run s).1
      ++ held (Parse.trailingComment line |>.run s).2 := by
    rw [hrun]
    change held s = commentsIn (firstOn line (held s)).1 ++ ((firstOn line (held s)).2 ++ [])
    cases held s with
    | nil => rfl
    | cons c cs =>
      rw [firstOn, List.append_nil]
      split <;> rfl
  refine ⟨fun htroubled => ?_, fun _ =>
    ⟨_, .trail (keeps_trailingComment line s) hheld (.done _), rfl⟩⟩
  rw [hrun]
  exact htroubled

end Does

/-! ### Going over tokens -/

/-- Nothing but tokens. -/
def OverTokens (ds : List Deed) : Prop :=
  ∀ d ∈ ds, ∃ t, d = .token t

theorem OverTokens.nil : OverTokens [] :=
  fun _ h => absurd h List.not_mem_nil

theorem OverTokens.cons {ds : List Deed} {t : Token} (h : OverTokens ds) :
    OverTokens (.token t :: ds) :=
  List.forall_mem_cons.2 ⟨⟨t, rfl⟩, h⟩

theorem OverTokens.append {ds es : List Deed} (h : OverTokens ds) (h' : OverTokens es) :
    OverTokens (ds ++ es) :=
  List.forall_mem_append.2 ⟨h, h'⟩

namespace Does

theorem scanUpTo (step : σ → Token → Option σ) (fuel : Nat) (a : σ) :
    Does s (Parse.scanUpTo step fuel a) fun ds _ => OverTokens ds := by
  induction fuel generalizing s a with
  | zero => exact exhaust.bind fun _ _ => .pure fun _ h => h.elim
  | succ fuel ih =>
    have hround : Does s (scanRound step a) fun ds _ => OverTokens ds := by
      refine .ofCurrent (.ite (fun _ => .pure .nil) fun _ => ?_)
      cases step a s.current with
      | none => exact .pure .nil
      | some a' => exact .advance (.pure (OverTokens.nil.cons))
    refine hround.bind fun s₁ r => ?_
    cases r with
    | none => exact .pure fun ds h => h.append .nil
    | some a' => exact (ih a').mono fun es _ hes ds hds => hds.append hes

theorem scan (step : σ → Token → Option σ) (a : σ) :
    Does s (Parse.scan step a) fun ds _ => OverTokens ds :=
  .ofGet (scanUpTo step s.rounds a)

theorem skipWhile (c : Token → Bool) : Does s (Parse.skipWhile c) fun ds _ => OverTokens ds :=
  scan _ _

theorem skipNewlines : Does s Parse.skipNewlines fun ds _ => OverTokens ds :=
  skipWhile _

theorem advanceLine : Does s Parse.advanceLine fun ds _ =>
    ∃ es, ds = .token s.current :: es ∧ OverTokens es :=
  .advance (skipNewlines.mono fun ds _ h => ⟨ds, rfl, h⟩)

theorem expect (want : TokenKind) : Does s (Parse.expect want) fun ds found =>
    found = true ∧ ds = [.token s.current] :=
  .ofKind <| .ite (fun _ => .advance (.pure ⟨rfl, rfl⟩)) fun _ => reportLast

theorem expectLine (want : TokenKind) : Does s (Parse.expectLine want) fun ds found =>
    found = true ∧ OverTokens ds := by
  refine (expect want).bind fun s₁ found => .ite (fun _ => ?_) fun hno => ?_
  · refine skipNewlines.bind fun _ _ => .pure fun es hes ds hds => ⟨rfl, ?_⟩
    rw [hds.2]
    exact OverTokens.cons (hes.append .nil)
  · exact .pure fun ds hds => absurd hds.1 hno

/-! ### Repetition -/

/-- **A repetition** does what its rounds do, one after the other. -/
theorem repeated {round : Parse (Round β)} {p : List Deed → List β → Prop}
    (happend : ∀ ds es as bs, p ds as → p es bs → p (ds ++ es) (as ++ bs))
    (h : ∀ s, Does s round fun ds r => p ds r.items) : Does s (Parse.repeated round) p := by
  have hfuel : ∀ fuel s, Does s (repeatUpTo round fuel) p := by
    intro fuel
    induction fuel with
    | zero => exact fun _ => exhaust.bind fun _ _ => .pure fun _ h => h.elim
    | succ fuel ih =>
      refine fun s => (h s).bind fun s₁ r => .ite (fun _ => ?_) fun _ => .pure fun ds hds => ?_
      · refine (ih s₁).bind fun _ rest => .pure fun es hes ds hds => ?_
        rw [List.append_nil]
        exact happend _ _ _ _ hds hes
      · rwa [List.append_nil]
  exact .ofGet (hfuel s.rounds s)

end Does

end Parse

end Gsx
