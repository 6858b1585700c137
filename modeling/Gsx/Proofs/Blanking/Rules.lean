import Gsx.Proofs.Blanking.Streams
import Gsx.Proofs.Grammar.ReadersAlike
import Gsx.Proofs.Grammar.Route
/-!
# Readers that go side by side

A reader in a source and the same reader in the source with comments made blank:
what they give agrees, and the streams stay side by side. This holds where nothing
is lost behind the first one, so the rules go two ways. Forwards, what a reader
gives has the comments that it has attached; backwards, from there being nothing
lost behind a reader, nothing was lost in front of it. A result that is dropped
drops its comments, and then these are not among the blank ones.
-/

namespace Gsx

/-- A token at another position. -/
abbrev Token.movedTo (t : Token) (p : Position) : Token :=
  ⟨t.kind, t.literal, p, t.start⟩

theorem Token.Alike.eq_movedTo {t t' : Token} (h : t.Alike t') : t' = t.movedTo t'.position := by
  rw [movedTo, ← h.kind_eq, ← h.literal_eq, ← h.start_eq]

namespace Parse

open TokenStream Blanking

variable {α β σ : Type} {w : Blanking} {l : Lexer} {G P : List Comment}

/-! ## What shows of a result -/

/-- **What shows of a result**: a key by which reading goes on, what is left of it
without places and comments, the comments attached in it, and the ranges of the
source that it has as text. -/
structure Show (α : Type) where
  Key : Type
  View : Type
  key : α → Key
  view : α → View
  comments : α → List Comment
  ranges : α → List SourceRange

namespace Show

variable {e : Show α}

/-- **Two results agree**: they have one key, and they show the same where nothing
in their ranges is made blank. -/
structure Agree (e : Show α) (w : Blanking) (a a' : α) : Prop where
  key_eq : e.key a' = e.key a
  view_eq : w.Clear (e.ranges a) → e.view a' = e.view a

theorem Agree.refl (a : α) : e.Agree w a a :=
  ⟨rfl, fun _ => rfl⟩

/-- A result by which reading goes on as it is. -/
def same : Show α :=
  ⟨α, Unit, id, fun _ => (), fun _ => [], fun _ => []⟩

/-- A result that counts only for what shows of it. -/
def of {γ : Type} (view : α → γ) (comments : α → List Comment) (ranges : α → List SourceRange) :
    Show α :=
  ⟨Unit, γ, fun _ => (), view, comments, ranges⟩

/-- Of a result that may be missing it counts whether it is. -/
def option (e : Show α) : Show (Option α) where
  Key := Option e.Key
  View := Option e.View
  key := Option.map e.key
  view := Option.map e.view
  comments a := a.elim [] e.comments
  ranges a := a.elim [] e.ranges

/-- Of a list it does not count how long it is. -/
def list (e : Show α) : Show (List α) :=
  of (List.map e.view) (List.flatMap e.comments) (List.flatMap e.ranges)

/-- Of a round it counts whether there is another one. -/
def round (e : Show α) : Show (Round α) where
  Key := Bool
  View := List e.View
  key := Round.again
  view r := r.items.map e.view
  comments r := r.items.flatMap e.comments
  ranges r := r.items.flatMap e.ranges

/-- Comments before or behind a node. -/
def group : Show (Option CommentGroup) :=
  of (fun _ => ()) commentsIn fun _ => []

/-- Comments that belong to no node. -/
def groups : Show (List CommentGroup) :=
  of (fun _ => ()) commentsAmong fun _ => []

end Show

/-! ## Readers side by side -/

/-- What a reader does in a stream, beside another reader. -/
structure Goes (w : Blanking) (G P : List Comment) (e : Show α) (m m' : Parse α)
    (s : TokenStream) : Prop where
  follows : ∃ k, (m.run s).2.Follows k
  stands : w.Stands (G ++ e.comments (m.run s).1) (m.run s).2
  kept : w.Kept (G ++ e.comments (m.run s).1) (m.run s).2 → w.Kept P s
  agrees : w.Kept (G ++ e.comments (m.run s).1) (m.run s).2 → ∀ s', w.Twins s s' →
    e.Agree w (m.run s).1 (m'.run s').1 ∧ w.Twins (m.run s).2 (m'.run s').2

/-- **Two readers that go side by side**, the first one from where a lexer stands.
Some comments are attached before; in what it gives there are more of them, and
only those of `G` and these are attached behind it. -/
def Parallel (w : Blanking) (l : Lexer) (G P : List Comment) (e : Show α) (m m' : Parse α) : Prop :=
  G ⊆ P → ∀ s : TokenStream, s.Follows l → w.Stands P s → Goes w G P e m m' s

variable {e : Show α} {e' : Show β}

namespace Parallel

/-! ### Composition -/

theorem pure {a a' : α} (hsub : e.comments a ⊆ P) (h : e.Agree w a a') :
    Parallel w l G P e (pure a) (pure a') := by
  intro hG s hs hstands
  have hheld : (G ++ e.comments a) ++ held s ⊆ P ++ held s :=
    List.append_subset.2 ⟨List.subset_append_of_subset_left _ (List.append_subset.2 ⟨hG, hsub⟩),
      List.subset_append_right _ _⟩
  exact ⟨⟨l, hs⟩, hstands.of_held rfl rfl hheld,
    fun hkept => hkept.of_held rfl (List.Subset.refl _) hheld, fun _ s' hs' => ⟨h, hs'⟩⟩

/-- What is given is the same and has no comments. -/
theorem done (a : α) : Parallel w l G P .same (Pure.pure a) (Pure.pure a) :=
  pure (List.nil_subset _) (.refl a)

theorem bind {m m' : Parse α} {f f' : α → Parse β} (hm : Parallel w l P P e m m')
    (hf : ∀ k a a', e.Agree w a a' → Parallel w k G (P ++ e.comments a) e' (f a) (f' a')) :
    Parallel w l G P e' (m >>= f) (m' >>= f') := by
  intro hG s hs hstands
  obtain ⟨⟨k, hk⟩, hmid, hback, hagrees⟩ := hm (List.Subset.refl _) s hs hstands
  have hnext : ∀ a', e.Agree w (m.run s).1 a' →
      Goes w G (P ++ e.comments (m.run s).1) e' (f (m.run s).1) (f' a') (m.run s).2 := fun a' ha =>
    hf k _ a' ha (List.subset_append_of_subset_left _ hG) _ hk hmid
  have hself := hnext _ (.refl _)
  refine ⟨hself.follows, hself.stands, fun hkept => hback (hself.kept hkept), fun hkept s' hs' => ?_⟩
  obtain ⟨ha, hs'⟩ := hagrees (hself.kept hkept) s' hs'
  exact (hnext _ ha).agrees hkept _ hs'

/-- Composition behind a reader that attaches nothing. -/
theorem next {m m' : Parse α} {f f' : α → Parse β} (hm : Parallel w l P P .same m m')
    (hf : ∀ k a, Parallel w k G P e' (f a) (f' a)) : Parallel w l G P e' (m >>= f) (m' >>= f') := by
  refine hm.bind fun k a a' ha => ?_
  obtain rfl : a' = a := ha.key_eq
  change Parallel w k G (P ++ []) e' (f a') (f' a')
  rw [List.append_nil]
  exact hf k a'

/-- Composition behind a reader that may fail. -/
theorem option {m m' : Parse (Option α)} {f f' : Option α → Parse β}
    (hm : Parallel w l P P e.option m m') (hnone : ∀ k, Parallel w k G P e' (f none) (f' none))
    (hsome : ∀ k a a', e.Agree w a a' →
      Parallel w k G (P ++ e.comments a) e' (f (some a)) (f' (some a'))) :
    Parallel w l G P e' (m >>= f) (m' >>= f') := by
  refine hm.bind fun k a a' ha => ?_
  cases a with
  | none =>
    cases a' with
    | none =>
      change Parallel w k G (P ++ []) e' (f none) (f' none)
      rw [List.append_nil]
      exact hnone k
    | some a' => cases ha.key_eq
  | some a =>
    cases a' with
    | none => cases ha.key_eq
    | some a' =>
      exact hsome k a a' ⟨Option.some.inj ha.key_eq, fun h => Option.some.inj (ha.view_eq h)⟩

theorem ite {c : Prop} [Decidable c] {m m' n n' : Parse α} (hm : c → Parallel w l G P e m m')
    (hn : ¬c → Parallel w l G P e n n') :
    Parallel w l G P e (if c then m else n) (if c then m' else n') := by
  split
  · next h => exact hm h
  · next h => exact hn h

/-- What each reader does in its stream may be told by other readers. -/
theorem ofStreams {m m' : Parse α} (h : ∀ s, s.Follows l → w.Stands P s → ∃ n, m.run s = n.run s
      ∧ (∃ n', Parallel w l G P e n n')
      ∧ ∀ s', w.Twins s s' → ∃ n', m'.run s' = n'.run s' ∧ Parallel w l G P e n n') :
    Parallel w l G P e m m' := by
  intro hG s hs hstands
  obtain ⟨n, hrun, ⟨n', hself⟩, hother⟩ := h s hs hstands
  obtain ⟨hfollows, hstands', hkept, -⟩ := hself hG s hs hstands
  refine ⟨hrun ▸ hfollows, hrun ▸ hstands', hrun ▸ hkept, fun hk s' hs' => ?_⟩
  obtain ⟨n', hrun', hn⟩ := hother s' hs'
  rw [hrun] at hk ⊢
  rw [hrun']
  exact (hn hG s hs hstands).agrees hk s' hs'

/-! ### Looking -/

/-- The current tokens: they differ in their positions. -/
theorem current {f f' : Token → Parse α}
    (hf : ∀ p, ((l.token 0).movedTo p).startsDeclaration
        = (l.token 0).startsDeclaration →
      Parallel w l G P e (f (l.token 0)) (f' ((l.token 0).movedTo p))) :
    Parallel w l G P e (Parse.current >>= f) (Parse.current >>= f') := by
  refine ofStreams fun s hs _ => ⟨f (l.token 0), ?_, ⟨_, hf _ rfl⟩, fun s' hs' => ?_⟩
  · rw [← hs.current]
    rfl
  · have hcurrent := hs'.current
    rw [hs.current] at hcurrent
    have htoken : s'.current = (l.token 0).movedTo s'.current.position := hcurrent.eq_movedTo
    refine ⟨f' ((l.token 0).movedTo s'.current.position), ?_, hf _ ?_⟩
    · rw [← htoken]
      rfl
    · rw [← htoken]
      exact hcurrent.starts_eq

theorem kind {f f' : TokenKind → Parse α}
    (hf : Parallel w l G P e (f (l.token 0).kind) (f' (l.token 0).kind)) :
    Parallel w l G P e (Parse.kind >>= f) (Parse.kind >>= f') :=
  show Parallel w l G P e (Parse.current >>= fun t => f t.kind)
    (Parse.current >>= fun t => f' t.kind) from current fun _ _ => hf

theorem position {f f' : Position → Parse α}
    (hf : ∀ p, Parallel w l G P e (f (l.token 0).position) (f' p)) :
    Parallel w l G P e (Parse.position >>= f) (Parse.position >>= f') :=
  show Parallel w l G P e (Parse.current >>= fun t => f t.position)
    (Parse.current >>= fun t => f' t.position) from current fun p _ => hf p

/-- The whole streams: their lexers have one name, sources of one length, and have
read equally far. -/
theorem stream {f f' : TokenStream → Parse α} (hf : ∀ s s' : TokenStream,
      s'.lexer.name = s.lexer.name → s'.lexer.source.length = s.lexer.source.length →
      s'.lexer.cursor.offset = s.lexer.cursor.offset → Parallel w l G P e (f s) (f' s')) :
    Parallel w l G P e (get >>= f) (get >>= f') := by
  refine ofStreams fun s _ _ => ⟨f s, rfl, ⟨_, hf s s rfl rfl rfl⟩, fun s' hs' =>
    ⟨f' s', rfl, hf s s' hs'.beside.name_eq ?_ hs'.beside.offset_eq⟩⟩
  rw [hs'.beside.source_eq, hs'.beside.source_eq', length_result]

theorem rounds {f f' : Nat → Parse α} (hf : ∀ n, Parallel w l G P e (f n) (f' n)) :
    Parallel w l G P e (get >>= fun s => f s.rounds) (get >>= fun s => f' s.rounds) :=
  stream fun s s' _ hlength _ => by
    rw [TokenStream.rounds, TokenStream.rounds, hlength]
    exact hf _

/-- How far the lexers have read. -/
theorem lexedOffset {f f' : Nat → Parse α} (hf : ∀ n, Parallel w l G P e (f n) (f' n)) :
    Parallel w l G P e (Parse.lexedOffset >>= f) (Parse.lexedOffset >>= f') :=
  show Parallel w l G P e (get >>= fun s => f s.lexer.cursor.offset)
      (get >>= fun s => f' s.lexer.cursor.offset) from stream fun s s' _ _ hoffset => by
    rw [hoffset]
    exact hf _

/-- A text from some offset on that is the same where nothing in it is made
blank. -/
def SameText (w : Blanking) (start : Nat) (text text' : String) : Prop :=
  text = "" ∨ w.Clear [.ofText w.source start text] → text' = text

theorem sourceText {start stop : Nat} {f f' : String → Parse α}
    (hf : ∀ text text', SameText w start text text' → Parallel w l G P e (f text) (f' text')) :
    Parallel w l G P e (Parse.sourceText start stop >>= f) (Parse.sourceText start stop >>= f') := by
  refine ofStreams fun s _ hstands => ⟨f _, rfl, ⟨_, hf _ _ fun _ => rfl⟩, fun s' hs' =>
    ⟨f' _, rfl, hf _ _ fun hclear => ?_⟩⟩
  rw [Lexer.slice, hstands.source_eq] at hclear
  rw [Lexer.slice, hs'.beside.source_eq', Lexer.slice, hstands.source_eq]
  refine congrArg String.ofList (slice_result fun i hle hlt => ?_)
  rcases hclear with hempty | hclear
  · rw [String.ofList_eq_empty_iff.1 hempty, List.length_nil] at hlt
    exact absurd hlt (Nat.not_lt.2 hle)
  · refine hclear _ (List.mem_singleton_self _) i hle ?_
    simp only [SourceRange.ofText, String.toList_ofList]
    omega

theorem trimmedText {start stop : Nat} {f f' : String → Parse α}
    (hf : ∀ text text', SameText w start text text' → Parallel w l G P e (f text) (f' text')) :
    Parallel w l G P e (Parse.trimmedText start stop >>= f)
      (Parse.trimmedText start stop >>= f') := by
  refine ofStreams fun s _ hstands => ⟨f _, rfl, ⟨_, hf _ _ fun _ => rfl⟩, fun s' hs' =>
    ⟨f' _, rfl, hf _ _ fun hclear => ?_⟩⟩
  rw [Text.trim, String.toList_ofList, Lexer.slice, hstands.source_eq] at hclear
  rw [Text.trim, String.toList_ofList, Lexer.slice, hs'.beside.source_eq', Text.trim,
    String.toList_ofList, Lexer.slice, hstands.source_eq]
  refine congrArg String.ofList ?_
  rcases hclear with hempty | hclear
  · rw [String.ofList_eq_empty_iff] at hempty
    rw [hempty, Text.trimList_eq_nil_iff]
    exact isBlank_result (Text.trimList_eq_nil_iff.1 hempty)
  · refine trimList_result fun i hle hlt => hclear _ (List.mem_singleton_self _) i hle ?_
    simp only [SourceRange.ofText, String.toList_ofList]
    exact hlt

/-- The source that the lexer reads. -/
theorem ofIsIn {m m' : Parse α}
    (h : l.source = w.source → l.cursor.IsIn l.source → Parallel w l G P e m m') :
    Parallel w l G P e m m' :=
  fun hG s hs hstands => h (hs.source.symm.trans hstands.source_eq) hs.isIn hG s hs hstands

/-- A token that is there has its place, and so have those behind it. -/
theorem ofPlace {m m' : Parse α} (hthere : (l.token 0).kind ≠ .endOfInput)
    (h : (l.token 0).position.offset w.source = (l.token 0).start →
      (∀ n, startBehind w.source (l.token 0).position n = ((Lexer.after n l).token 0).start) →
      Parallel w l G P e m m') : Parallel w l G P e m m' := by
  refine ofIsIn fun hsource hin => ?_
  have hlt := Lexer.start_token_lt_length hin hthere
  have hoffset : (l.token 0).position.offset l.source = (l.token 0).start := by
    rw [Lexer.position_token hin hlt, Position.offset_ofOffset hlt.le]
  refine h (hsource ▸ hoffset) fun n => ?_
  rw [← hsource, startBehind, hoffset, Lexer.token_at hin hlt, Lexer.token_after, Nat.add_zero]

/-! ### Moving and noting -/

theorem advance_bind {f f' : Unit → Parse α}
    (hf : Parallel w (Lexer.after 1 l) G P e (f ()) (f' ())) :
    Parallel w l G P e (Parse.advance >>= f) (Parse.advance >>= f') := by
  intro hG s hs hstands
  obtain ⟨hfollows, hstands', hkept, hagrees⟩ := hf hG s.advanced hs.advanced hstands.advanced
  exact ⟨hfollows, hstands', fun hk => (hkept hk).of_advanced hstands,
    fun hk s' hs' => hagrees hk _ (hs'.advanced hstands (hkept hk))⟩

theorem advance : Parallel w l P P .same Parse.advance Parse.advance := by
  have h : Parallel w l P P .same (Parse.advance >>= Pure.pure) (Parse.advance >>= Pure.pure) :=
    advance_bind (.done ())
  rwa [bind_pure] at h

theorem reportAt (p p' : Position) (f : GrammarFault) :
    Parallel w l P P .same (Parse.reportAt p f) (Parse.reportAt p' f) := by
  intro _ s hs hstands
  have hheld : (P ++ []) ++ held s ⊆ P ++ held s := by
    rw [List.append_nil]
    exact List.Subset.refl _
  exact ⟨⟨l, hs.of_eq rfl rfl rfl rfl⟩, hstands.of_held rfl rfl hheld,
    fun hk => hk.of_held rfl (List.subset_append_left _ _) hheld,
    fun _ s' hs' => ⟨.refl _, hs'.withError p p' f⟩⟩

theorem report (f : GrammarFault) : Parallel w l P P .same (Parse.report f) (Parse.report f) :=
  position fun _ => reportAt _ _ f

theorem exhaust (a a' : α) (h : e.Agree w a a') (hnone : e.comments a = []) :
    Parallel w l P P e (Parse.exhaust >>= fun _ => Pure.pure a)
      (Parse.exhaust >>= fun _ => Pure.pure a') := by
  intro _ s hs hstands
  have hheld : (P ++ e.comments a) ++ held s ⊆ P ++ held s := by
    rw [hnone, List.append_nil]
    exact List.Subset.refl _
  exact ⟨⟨l, hs.of_eq rfl rfl rfl rfl⟩, hstands.of_held rfl rfl hheld,
    fun hk => hk.of_held rfl (List.Subset.refl _) hheld, fun _ s' hs' => ⟨h,
      ⟨hs'.beside, hs'.current, hs'.peek, hs'.whole, hs'.whole_peek, hs'.said_eq, hs'.goes_iff⟩⟩⟩

/-- Behind a token that is expected. -/
theorem expect_bind {want : TokenKind} {f f' : Bool → Parse α}
    (hfound : (l.token 0).kind = want → Parallel w (Lexer.after 1 l) G P e (f true) (f' true))
    (hother : ∀ k, Parallel w k G P e (f false) (f' false)) :
    Parallel w l G P e (Parse.expect want >>= f) (Parse.expect want >>= f') := by
  simp only [Parse.expect, bind_assoc]
  refine kind ?_
  by_cases hwant : (l.token 0).kind = want
  · simp only [if_pos hwant, bind_assoc, pure_bind]
    exact advance_bind (hfound hwant)
  · simp only [if_neg hwant, bind_assoc, pure_bind]
    exact (report _).next fun k _ => hother k

theorem expect (want : TokenKind) :
    Parallel w l P P .same (Parse.expect want) (Parse.expect want) := by
  have h : Parallel w l P P .same (Parse.expect want >>= Pure.pure)
      (Parse.expect want >>= Pure.pure) := expect_bind (fun _ => .done true) fun _ => .done false
  rwa [bind_pure] at h

/-! ### Loops -/

theorem scanUpTo {step : σ → Token → Option σ} (hstep : ∀ a t p, step a (Token.movedTo t p) = step a t)
    (fuel : Nat) (a : σ) :
    Parallel w l P P .same (Parse.scanUpTo step fuel a) (Parse.scanUpTo step fuel a) := by
  induction fuel generalizing l a with
  | zero => exact exhaust a a (.refl _) rfl
  | succ fuel ih =>
    have hround : Parallel w l P P .same (scanRound step a) (scanRound step a) := by
      refine current fun p _ => ite (fun _ => .done _) fun _ => ?_
      rw [hstep a (l.token 0) p]
      cases step a (l.token 0) with
      | none => exact .done _
      | some a' => exact advance.next fun _ _ => .done _
    refine hround.next fun k r => ?_
    cases r with
    | none => exact .done _
    | some a' => exact ih a'

theorem scan {step : σ → Token → Option σ} (hstep : ∀ a t p, step a (Token.movedTo t p) = step a t)
    (a : σ) : Parallel w l P P .same (Parse.scan step a) (Parse.scan step a) :=
  rounds fun n => scanUpTo hstep n a

theorem skipWhile {p : Token → Bool} (hp : ∀ t q, p (Token.movedTo t q) = p t) :
    Parallel w l P P .same (Parse.skipWhile p) (Parse.skipWhile p) :=
  scan (fun _ t q => by rw [hp]) ()

theorem skipNewlines : Parallel w l P P .same Parse.skipNewlines Parse.skipNewlines :=
  skipWhile fun _ _ => rfl

theorem advanceLine : Parallel w l P P .same Parse.advanceLine Parse.advanceLine :=
  advance.next fun _ _ => skipNewlines

theorem expectLine (want : TokenKind) :
    Parallel w l P P .same (Parse.expectLine want) (Parse.expectLine want) :=
  (expect want).next fun _ found => by
    cases found with
    | true => exact skipNewlines.next fun _ _ => .done _
    | false => exact .done _

theorem repeatUpTo {round round' : Parse (Round α)}
    (hround : ∀ l P, Parallel w l P P e.round round round') (fuel : Nat) :
    Parallel w l P P e.list (Parse.repeatUpTo round fuel) (Parse.repeatUpTo round' fuel) := by
  induction fuel generalizing l P with
  | zero => exact exhaust [] [] (.refl _) rfl
  | succ fuel ih =>
    refine (hround l P).bind fun k r r' hr => ?_
    rw [show r'.again = r.again from hr.key_eq]
    refine ite (fun _ => ih.bind fun _ rest rest' hrest => .pure ?_ ⟨rfl, fun hclear => ?_⟩)
      fun _ => .pure ?_ ⟨rfl, hr.view_eq⟩
    · change (r.items ++ rest).flatMap e.comments
        ⊆ (P ++ r.items.flatMap e.comments) ++ rest.flatMap e.comments
      rw [List.flatMap_append, List.append_assoc]
      exact List.subset_append_right _ _
    · have hboth : w.Clear (r.items.flatMap e.ranges ++ rest.flatMap e.ranges) := by
        rw [← List.flatMap_append]
        exact hclear
      obtain ⟨hitems, hmore⟩ := clear_append.1 hboth
      change (r'.items ++ rest').map e.view = (r.items ++ rest).map e.view
      rw [List.map_append, List.map_append]
      exact congrArg₂ (· ++ ·) (hr.view_eq hitems) (hrest.view_eq hmore)
    · exact List.subset_append_right _ _

theorem repeated {round round' : Parse (Round α)}
    (hround : ∀ l P, Parallel w l P P e.round round round') :
    Parallel w l P P e.list (Parse.repeated round) (Parse.repeated round') :=
  rounds fun n => repeatUpTo hround n

/-! ### Comments -/

/-- Comments are taken from those that the stream and its lexer have. -/
theorem ofTaking {m m' : Parse α} {a a' : TokenStream → α} {rest rest' : TokenStream → List Comment}
    (hrun : ∀ s, m.run s = (a s, { s.collected with comments := rest s }))
    (hrun' : ∀ s, m'.run s = (a' s, { s.collected with comments := rest' s }))
    (hagree : ∀ a a', e.Agree w a a') (hsub : ∀ s, e.comments (a s) ++ rest s ⊆ held s) :
    Parallel w l P P e m m' := by
  intro _ s hs hstands
  obtain ⟨htaken, hleft⟩ := List.append_subset.1 (hsub s)
  have hheld : (P ++ e.comments (a s)) ++ held { s.collected with comments := rest s }
      ⊆ P ++ held s := by
    refine List.append_subset.2 ⟨List.append_subset.2 ⟨List.subset_append_left _ _,
      List.subset_append_of_subset_right _ htaken⟩, ?_⟩
    change rest s ++ [] ⊆ _
    rw [List.append_nil]
    exact List.subset_append_of_subset_right _ hleft
  constructor <;> rw [hrun]
  · exact ⟨l, hs.of_eq rfl rfl rfl rfl⟩
  · exact hstands.of_held rfl rfl hheld
  · exact fun hk => hk.of_held rfl (List.Subset.refl _) hheld
  · intro _ s' hs'
    rw [hrun']
    exact ⟨hagree _ _, hs'.withComments⟩

theorem leadingComments :
    Parallel w l P P .group Parse.leadingComments Parse.leadingComments := by
  refine ofTaking run_leadingComments run_leadingComments (fun _ _ => ⟨rfl, fun _ => rfl⟩) fun s =>
    List.append_subset.2 ⟨?_, List.filter_subset_self _⟩
  change commentsIn (groupBefore s.collected) ⊆ _
  rw [groupBefore]
  split
  · exact List.nil_subset _
  · exact List.filter_subset_self _

/-- Which comment is taken depends on the lines, but it counts for nothing. -/
theorem trailingComment (line line' : Nat) :
    Parallel w l P P .group (Parse.trailingComment line) (Parse.trailingComment line') := by
  refine ofTaking (run_trailingComment line) (run_trailingComment line')
    (fun _ _ => ⟨rfl, fun _ => rfl⟩) fun s => List.append_subset.2 ⟨?_, firstOn_subset _ _⟩
  change commentsIn (firstOn line (held s)).1 ⊆ held s
  cases held s with
  | nil => exact List.nil_subset _
  | cons c cs =>
    rw [firstOn]
    split
    · exact List.cons_subset_cons _ (List.nil_subset _)
    · exact List.nil_subset _

theorem orphanComments :
    Parallel w l P P .groups Parse.orphanComments Parse.orphanComments := by
  refine leadingComments.bind fun k g g' _ => ?_
  have hgroups : ∀ gs, Show.groups.Agree w gs (groupsOf g') := fun _ => ⟨rfl, fun _ => rfl⟩
  have hsub : Show.groups.comments (groupsOf g) ⊆ P ++ Show.group.comments g := by
    refine List.subset_append_of_subset_right _ ?_
    cases g with
    | none => exact List.nil_subset _
    | some g =>
      change commentsAmong (CommentGroup.ofComments g.comments) ⊆ g.comments
      rw [commentsAmong_ofComments]
      exact List.Subset.refl _
  cases g <;> cases g' <;> exact .pure hsub (hgroups _)

end Parallel

end Parse

end Gsx
