import Gsx.Grammar.SourceFile
import Gsx.Proofs.Grammar.Move
/-!
# Readers that move on

What a reader does to a stream in order: it follows a path of moves, and under
some condition on what it gives, the current token has moved to the right. The
rules below carry this through the ways in which readers are composed; a loop
needs that the current token moves to the right in each round but the last one,
and then its bound on the number of rounds is never reached.
-/

namespace Gsx.Parse

open TokenStream

variable {α β σ : Type} {p p' : Token → Prop} {q q' : α → Prop} {b b' : Nat}

/-- **What a reader does to a stream in order** whose current token satisfies
`p`, with at most `b` characters left: it moves on, and where `q` holds of what
it gives, the current token has moved to the right. -/
def Moves (p : Token → Prop) (b : Nat) (r : Parse α) (q : α → Prop) : Prop :=
  ∀ s : TokenStream, s.InOrder → s.remaining ≤ b → p s.current →
    s.Path (r.run s).2 ∧ (q (r.run s).1 → s.current.start < (r.run s).2.current.start)

/-- A reader that moves on. -/
abbrev Forward (b : Nat) (r : Parse α) : Prop :=
  Moves (fun _ => True) b r fun _ => False

/-- A reader that moves the current token to the right. -/
abbrev Consumes (p : Token → Prop) (b : Nat) (r : Parse α) : Prop :=
  Moves p b r fun _ => True

/-- A reader that only takes notes. -/
def Keeps (r : Parse α) : Prop :=
  ∀ s : TokenStream, s.Stays (r.run s).2

/-- A token that is there. -/
def IsThere (t : Token) : Prop :=
  t.kind ≠ .endOfInput

/-! ## Weakening -/

theorem Moves.mono {r : Parse α} (h : Moves p b r q) (hp : ∀ t, p' t → p t) (hb : b' ≤ b)
    (hq : ∀ a, q' a → q a) : Moves p' b' r q' := by
  intro s hs hle ht
  obtain ⟨hpath, hlt⟩ := h s hs (hle.trans hb) (hp _ ht)
  exact ⟨hpath, fun h' => hlt (hq _ h')⟩

theorem Moves.of {r : Parse α} (h : Moves p b r q) (hp : ∀ t, p' t → p t) : Moves p' b r q :=
  h.mono hp le_rfl fun _ => id

theorem Consumes.of {r : Parse α} (h : Consumes p b r) (hp : ∀ t, p' t → p t) :
    Consumes p' b r :=
  Moves.of h hp

/-! ## Composition -/

theorem Moves.done {a : α} (h : ¬ q a) : Moves p b (pure a) q :=
  fun _ _ _ _ => ⟨.refl, fun h' => absurd h' h⟩

theorem Moves.pure {a : α} : Moves p b (pure a) fun _ => False :=
  .done id

theorem Moves.bind {r : Parse β} {f : β → Parse α} (hr : Forward b r)
    (hf : ∀ a, Moves (fun _ => True) b (f a) q) : Moves p b (r >>= f) q := by
  intro s hs hle _
  obtain ⟨hpath, -⟩ := hr s hs hle trivial
  obtain ⟨hpath', hlt⟩ :=
    hf (r.run s).1 (r.run s).2 (hpath.inOrder hs) ((hpath.remaining_le hs).trans hle) trivial
  exact ⟨hpath.trans hpath', fun h => (hpath.start_le hs).trans_lt (hlt h)⟩

/-- Behind a token that is read, less of the source is left. -/
theorem Consumes.bind {r : Parse β} {f : β → Parse α} (hr : Consumes p b r)
    (hf : ∀ a, ∀ b' < b, Forward b' (f a)) : Moves p b (r >>= f) q := by
  intro s hs hle ht
  obtain ⟨hpath, hlt⟩ := hr s hs hle ht
  have hs' := hpath.inOrder hs
  have hless : (r.run s).2.remaining < b :=
    (hs'.remaining_lt (hpath.source_eq hs) (hlt trivial)).trans_le hle
  obtain ⟨hpath', -⟩ := hf (r.run s).1 _ hless (r.run s).2 hs' le_rfl trivial
  exact ⟨hpath.trans hpath', fun _ => (hlt trivial).trans_le (hpath'.start_le hs')⟩

/-- Where a reader tells by its result whether it has read a token, less is left
if it has. -/
theorem Moves.andThen {r : Parse β} {f : β → Parse α} {read : β → Prop} (hr : Moves p b r read)
    (hread : ∀ a, read a → ∀ b' < b, Forward b' (f a)) (hf : ∀ a, ¬ read a → Forward b (f a)) :
    Moves p b (r >>= f) fun _ => False := by
  intro s hs hle ht
  obtain ⟨hpath, hlt⟩ := hr s hs hle ht
  have hs' := hpath.inOrder hs
  refine ⟨hpath.trans ?_, False.elim⟩
  by_cases h : read (r.run s).1
  · have hless := (hs'.remaining_lt (hpath.source_eq hs) (hlt h)).trans_le hle
    exact (hread _ h _ hless _ hs' le_rfl trivial).1
  · exact (hf _ h _ hs' ((hpath.remaining_le hs).trans hle) trivial).1

/-- Where a result tells that a token has been read, so does what is made of it. -/
theorem Moves.through {r : Parse β} {f : β → Parse α} {read : β → Prop} (hr : Moves p b r read)
    (hf : ∀ a, Forward b (f a)) (hq : ∀ a t, q ((f a).run t).1 → read a) : Moves p b (r >>= f) q := by
  intro s hs hle hp
  obtain ⟨hpath, hlt⟩ := hr s hs hle hp
  have hs' := hpath.inOrder hs
  obtain ⟨hpath', -⟩ := hf (r.run s).1 _ hs' ((hpath.remaining_le hs).trans hle) trivial
  exact ⟨hpath.trans hpath', fun h => (hlt (hq _ _ h)).trans_le (hpath'.start_le hs')⟩

/-- Notes leave the current token where it is. -/
theorem Keeps.bind {r : Parse β} {f : β → Parse α} (hr : Keeps r)
    (hf : ∀ a, Moves p b (f a) q) : Moves p b (r >>= f) q := by
  intro s hs hle ht
  have hstays := hr s
  have hpath : s.Path (r.run s).2 := .single (.stay hstays)
  obtain ⟨hpath', hlt⟩ := hf (r.run s).1 (r.run s).2 (hpath.inOrder hs)
    ((hpath.remaining_le hs).trans hle) (hstays.current ▸ ht)
  exact ⟨hpath.trans hpath', fun h => hstays.current ▸ hlt h⟩

theorem Keeps.forward {r : Parse α} (hr : Keeps r) : Forward b r :=
  fun s _ _ _ => ⟨.single (.stay (hr s)), False.elim⟩

theorem Moves.current {f : Token → Parse α} (hf : ∀ t, p t → Moves (· = t) b (f t) q) :
    Moves p b (current >>= f) q :=
  fun s hs hle ht => hf s.current ht s hs hle rfl

theorem Moves.kind {f : TokenKind → Parse α} (hf : ∀ t, p t → Moves (· = t) b (f t.kind) q) :
    Moves p b (kind >>= f) q :=
  Moves.current (f := fun t => f t.kind) hf

theorem Moves.position {f : Position → Parse α}
    (hf : ∀ t, p t → Moves (· = t) b (f t.position) q) : Moves p b (position >>= f) q :=
  Moves.current (f := fun t => f t.position) hf

theorem Moves.get {f : TokenStream → Parse α}
    (hf : ∀ s, Moves p (min b s.remaining) (f s) q) : Moves p b (get >>= f) q :=
  fun s hs hle ht => hf s s hs (le_min hle le_rfl) ht

/-- Behind a token that is read, less is left. -/
theorem Moves.remaining_lt {r : Parse α} {s : TokenStream} (h : Moves p s.remaining r q)
    (hs : s.InOrder) (hp : p s.current) (hq : q (r.run s).1) :
    (r.run s).2.InOrder ∧ (r.run s).2.remaining < s.remaining := by
  obtain ⟨hpath, hlt⟩ := h s hs le_rfl hp
  have hs' := hpath.inOrder hs
  exact ⟨hs', hs'.remaining_lt (hpath.source_eq hs) (hlt hq)⟩

/-! ## Results that are known -/

/-- A reader that only takes notes where `p` holds, and gives `a`. -/
def Gives (p : Token → Prop) (r : Parse α) (a : α) : Prop :=
  ∀ s : TokenStream, p s.current → s.Stays (r.run s).2 ∧ (r.run s).1 = a

theorem Gives.pure {a : α} : Gives p (pure a) a :=
  fun _ _ => ⟨.refl, rfl⟩

theorem Gives.current {f : Token → Parse α} {a : α} (hf : ∀ t, p t → Gives (· = t) (f t) a) :
    Gives p (current >>= f) a :=
  fun s ht => hf s.current ht s rfl

theorem Gives.position {f : Position → Parse α} {a : α}
    (hf : ∀ t, p t → Gives (· = t) (f t.position) a) : Gives p (position >>= f) a :=
  Gives.current (f := fun t => f t.position) hf

theorem Keeps.gives {r : Parse Unit} (hr : Keeps r) : Gives p r () :=
  fun s _ => ⟨hr s, rfl⟩

theorem Gives.andThen {r : Parse β} {a : β} {f : β → Parse α} {c : α} (hr : Gives p r a)
    (hf : Gives p (f a) c) : Gives p (r >>= f) c := by
  intro s ht
  obtain ⟨hstays, ha⟩ := hr s ht
  obtain ⟨hstays', hc⟩ := hf (r.run s).2 (hstays.current ▸ ht)
  have hrun : (r >>= f).run s = (f a).run (r.run s).2 := by
    change (f (r.run s).1).run (r.run s).2 = _
    rw [ha]
  rw [hrun]
  exact ⟨hstays.trans hstays', hc⟩

theorem Gives.bind {r : Parse β} {a : β} {f : β → Parse α} (hr : Gives p r a)
    (hf : Moves p b (f a) q) : Moves p b (r >>= f) q := by
  intro s hs hle ht
  obtain ⟨hstays, ha⟩ := hr s ht
  have hpath : s.Path (r.run s).2 := .single (.stay hstays)
  obtain ⟨hpath', hlt⟩ := hf (r.run s).2 (hpath.inOrder hs)
    ((hpath.remaining_le hs).trans hle) (hstays.current ▸ ht)
  have hrun : (r >>= f).run s = (f a).run (r.run s).2 := by
    change (f (r.run s).1).run (r.run s).2 = _
    rw [ha]
  rw [hrun]
  exact ⟨hpath.trans hpath', fun h => hstays.current ▸ hlt h⟩

/-! ## Looking and noting -/

theorem forward_current : Forward b current :=
  fun _ _ _ _ => ⟨.refl, False.elim⟩

theorem forward_kind : Forward b kind :=
  fun _ _ _ _ => ⟨.refl, False.elim⟩

theorem forward_position : Forward b position :=
  fun _ _ _ _ => ⟨.refl, False.elim⟩

theorem forward_get : Forward b (get : Parse TokenStream) :=
  fun _ _ _ _ => ⟨.refl, False.elim⟩

theorem keeps_reportAt (place : Position) (f : GrammarFault) : Keeps (reportAt place f) :=
  fun _ => ⟨rfl, rfl, rfl, rfl, rfl, fun _ => .inl⟩

theorem keeps_report (f : GrammarFault) : Keeps (report f) :=
  fun _ => ⟨rfl, rfl, rfl, rfl, rfl, fun _ => .inl⟩

theorem keeps_sourceText (start stop : Nat) : Keeps (sourceText start stop) :=
  fun _ => ⟨rfl, rfl, rfl, rfl, rfl, fun _ => .inl⟩

theorem keeps_trimmedText (start stop : Nat) : Keeps (trimmedText start stop) :=
  fun _ => ⟨rfl, rfl, rfl, rfl, rfl, fun _ => .inl⟩

theorem keeps_lexedOffset : Keeps lexedOffset :=
  fun _ => ⟨rfl, rfl, rfl, rfl, rfl, fun _ => .inl⟩

theorem keeps_leadingComments : Keeps leadingComments := by
  intro s
  rw [leadingComments]
  simp only [StateT.run_bind, StateT.run_modify, StateT.run_get, pure_bind]
  split <;> exact ⟨rfl, rfl, rfl, rfl, rfl, fun _ => .inl⟩

theorem keeps_trailingComment (line : Nat) : Keeps (trailingComment line) := by
  intro s
  rw [trailingComment]
  simp only [StateT.run_bind, StateT.run_modify, StateT.run_get, pure_bind]
  split
  · split <;> exact ⟨rfl, rfl, rfl, rfl, rfl, fun _ => .inl⟩
  · exact ⟨rfl, rfl, rfl, rfl, rfl, fun _ => .inl⟩

theorem forward_orphanComments : Forward b orphanComments := by
  refine .bind keeps_leadingComments.forward fun g => ?_
  cases g with
  | some g => exact .pure
  | none => exact .pure

/-- A numeral that is too long is noted. -/
theorem keeps_intValue (literal : String) : Keeps (intValue literal) := by
  intro s
  rw [intValue]
  split
  · exact ⟨rfl, rfl, rfl, rfl, rfl, fun _ => .inl⟩
  · next e he =>
    obtain ⟨hlt, rfl⟩ := Numeral.read_eq_error_iff.1 he
    refine ⟨rfl, rfl, rfl, rfl, rfl, fun i hi => ?_⟩
    change (s.interruption <|> some ⟨_, s.recoveries⟩) = some i at hi
    cases hs : s.interruption with
    | some j =>
      rw [hs] at hi
      exact .inl hi
    | none =>
      rw [hs] at hi
      cases hi
      exact .inr ⟨_, hlt, rfl⟩

theorem keeps_floatValue (literal : String) : Keeps (floatValue literal) := by
  intro s
  rw [floatValue]
  split <;> exact ⟨rfl, rfl, rfl, rfl, rfl, fun _ => .inl⟩

/-! ## Single tokens -/

theorem forward_advance : Forward b advance :=
  fun s _ _ _ => ⟨.single (.advance s), False.elim⟩

theorem consumes_advance (hp : ∀ t, p t → IsThere t) : Consumes p b advance :=
  fun s hs _ ht => ⟨.single (.advance s), fun _ => hs.current_lt (hp _ ht)⟩

/-- A token that is expected and found has been read. -/
theorem moves_expect {want : TokenKind} (h : want ≠ .endOfInput) :
    Moves (fun _ => True) b (expect want) fun found => found := by
  refine .kind fun t _ => ?_
  split
  · next hkind =>
    have hadvance : Consumes (· = t) b advance :=
      consumes_advance (by rintro _ rfl; exact fun hend => h (hkind.symm.trans hend))
    exact hadvance.bind fun _ _ _ => .pure
  · exact .bind (keeps_report _).forward fun _ => .done nofun

theorem forward_expect (want : TokenKind) : Forward b (expect want) := by
  refine .bind forward_kind fun k => ?_
  split
  · exact .bind forward_advance fun _ => .pure
  · exact .bind (keeps_report _).forward fun _ => .pure

/-! ## Loops -/

/-- A scan that reads on, by one round. -/
theorem run_scanUpTo_succ {step : σ → Token → Option σ} {a a' : σ} {s : TokenStream}
    (fuel : Nat) (hthere : s.current.kind ≠ .endOfInput) (hstep : step a s.current = some a') :
    (scanUpTo step (fuel + 1) a).run s = (scanUpTo step fuel a').run s.advanced := by
  have hround : scanRound step a s = (some a', s.advanced) := by
    change (ite _ _ _ : Parse (Option σ)) s = _
    rw [if_neg hthere]
    simp only [hstep]
    rfl
  rw [scanUpTo, StateT.run_bind]
  change (Bind.bind (m := Id) (scanRound step a s) _) = _
  rw [hround]
  rfl

/-- A scan that stops at once. -/
theorem run_scanUpTo_stop {step : σ → Token → Option σ} {a : σ} {s : TokenStream}
    (fuel : Nat) (hstop : s.current.kind = .endOfInput ∨ step a s.current = none) :
    (scanUpTo step (fuel + 1) a).run s = (a, s) := by
  have hround : scanRound step a s = (none, s) := by
    change (ite _ _ _ : Parse (Option σ)) s = _
    split
    · rfl
    · next hthere =>
      simp only [hstop.resolve_left hthere]
      rfl
  rw [scanUpTo, StateT.run_bind]
  change (Bind.bind (m := Id) (scanRound step a s) _) = _
  rw [hround]
  rfl

/-- The step of moving over line ends. -/
abbrev newlineStep : Unit → Token → Option Unit :=
  fun () t => if t.kind = .newline then some () else none

theorem run_skipNewlines (s : TokenStream) :
    skipNewlines.run s = (scanUpTo newlineStep s.rounds ()).run s := by
  have : newlineStep = fun () t => if decide (t.kind = .newline) = true then some () else none := by
    funext u t
    simp only [newlineStep, decide_eq_true_eq]
  rw [this]
  rfl

/-- **A round of a scan** that goes on has read a token. -/
theorem moves_scanRound (step : σ → Token → Option σ) (a : σ) :
    Moves (fun _ => True) b (scanRound step a) fun r => r.isSome := by
  refine .current fun t _ => ?_
  by_cases hend : t.kind = .endOfInput
  · rw [if_pos hend]
    exact .done nofun
  · rw [if_neg hend]
    cases step a t with
    | none => exact .done nofun
    | some a' =>
      exact (consumes_advance (by rintro _ rfl; exact hend)).bind fun _ _ _ => .pure

theorem path_scanUpTo (step : σ → Token → Option σ) {fuel : Nat} {a : σ} {s : TokenStream}
    (hs : s.InOrder) (hfuel : s.remaining < fuel) : s.Path ((scanUpTo step fuel a).run s).2 := by
  induction fuel generalizing a s with
  | zero => omega
  | succ fuel ih =>
    obtain ⟨hpath, hlt⟩ := moves_scanRound step a s hs le_rfl trivial
    rw [scanUpTo, StateT.run_bind]
    rcases hr : (scanRound step a).run s with ⟨r, s'⟩
    rw [hr] at hpath hlt
    cases r with
    | none => exact hpath
    | some a' =>
      have hs' := hpath.inOrder hs
      -- each round lowers what is left, and the fuel by one
      have := hs'.remaining_lt (hpath.source_eq hs) (hlt rfl)
      exact hpath.trans (ih hs' (by omega))

/-- **A scan moves on**, and never reaches its bound. -/
theorem forward_scan (step : σ → Token → Option σ) (a : σ) : Forward b (scan step a) :=
  fun s hs _ _ => ⟨path_scanUpTo step hs s.remaining_lt_rounds, False.elim⟩

/-- A scan that takes the current token has read it. -/
theorem consumes_scan {step : σ → Token → Option σ} {a : σ}
    (hp : ∀ t, p t → IsThere t ∧ (step a t).isSome) : Consumes p b (scan step a) := by
  intro s hs _ ht
  obtain ⟨hthere, hstep⟩ := hp _ ht
  obtain ⟨a', ha'⟩ := Option.isSome_iff_exists.1 hstep
  -- the first round takes the current token, and the others are a scan of what is left
  have hrun : (scan step a).run s = (scanUpTo step s.lexer.source.length a').run s.advanced :=
    run_scanUpTo_succ _ hthere ha'
  have hadvanced : s.Path s.advanced := .single (.advance s)
  have hs' := hadvanced.inOrder hs
  have hlt : s.current.start < s.advanced.current.start := hs.current_lt hthere
  have hless := hs'.remaining_lt (hadvanced.source_eq hs) hlt
  have hrounds := s.remaining_lt_rounds
  rw [rounds] at hrounds
  have hpath := path_scanUpTo step (a := a') hs'
    (hless.trans_le (Nat.le_of_lt_succ hrounds))
  rw [hrun]
  exact ⟨hadvanced.trans hpath, fun _ => hlt.trans_le (hpath.start_le hs')⟩

theorem forward_skipWhile (f : Token → Bool) : Forward b (skipWhile f) :=
  forward_scan _ _

theorem forward_skipNewlines : Forward b skipNewlines :=
  forward_skipWhile _

theorem forward_advanceLine : Forward b advanceLine :=
  .bind forward_advance fun _ => forward_skipNewlines

theorem consumes_advanceLine (hp : ∀ t, p t → IsThere t) : Consumes p b advanceLine :=
  (consumes_advance hp).bind fun _ _ _ => forward_skipNewlines

theorem forward_expectLine (want : TokenKind) : Forward b (expectLine want) := by
  refine .bind (forward_expect want) fun found => ?_
  split
  · exact .bind forward_skipNewlines fun _ => .pure
  · exact .pure

theorem moves_expectLine {want : TokenKind} (h : want ≠ .endOfInput) :
    Moves (fun _ => True) b (expectLine want) (· = true) := by
  refine Moves.through (moves_expect h) (fun found => ?_) fun found t hfound => ?_
  · split
    · exact .bind forward_skipNewlines fun _ => .pure
    · exact .pure
  · cases found with
    | true => rfl
    | false => cases hfound

theorem path_repeatUpTo {round : Parse (Round α)}
    (h : Moves (fun _ => True) b round fun r => r.again) {fuel : Nat} {s : TokenStream}
    (hs : s.InOrder) (hb : s.remaining ≤ b) (hfuel : s.remaining < fuel) :
    s.Path ((repeatUpTo round fuel).run s).2 := by
  induction fuel generalizing s with
  | zero => omega
  | succ fuel ih =>
    obtain ⟨hpath, hlt⟩ := h s hs hb trivial
    rw [repeatUpTo, StateT.run_bind]
    rcases hr : round.run s with ⟨r, s'⟩
    rw [hr] at hpath hlt
    have hs' := hpath.inOrder hs
    have hle := hpath.remaining_le hs
    change s.Path (StateT.run (ite _ _ _ : Parse (List α)) s').2
    split
    · next hagain =>
      have := hs'.remaining_lt (hpath.source_eq hs) (hlt hagain)
      exact hpath.trans (ih hs' (by omega) (by omega))
    · exact hpath

/-- **A repetition moves on**, and never reaches its bound, if each round but the
last one moves the current token to the right. -/
theorem forward_repeated {round : Parse (Round α)}
    (h : Moves (fun _ => True) b round fun r => r.again) : Forward b (repeated round) :=
  fun s hs hb _ => ⟨path_repeatUpTo h hs hb s.remaining_lt_rounds, False.elim⟩

end Gsx.Parse
