import Gsx.Proofs.Grammar.Meeting
/-!
# Readers that go alike

Two readers go alike in a text if, from two streams at one place of it, they give
the same up to what does not count, and come to one place again: as long as
reading the text alone stays within it. The rules below carry this through the
ways in which readers are composed. Bounds on rounds and on depth may be larger
in the source, which is longer.
-/

namespace Gsx.Parse

open TokenStream

variable {α β γ δ σ : Type} {o : Window}

/-- Behind a reader whose result is known. -/
theorem run_bind_eq {m : Parse α} {f : α → Parse β} {s : TokenStream} {a : α}
    (h : (m.run s).1 = a) : (m >>= f).run s = (f a).run (m.run s).2 := by
  subst h
  rfl

theorem run_current_bind (f : Token → Parse α) (s : TokenStream) :
    (current >>= f).run s = (f s.current).run s := rfl

theorem run_kind_bind (f : TokenKind → Parse α) (s : TokenStream) :
    (kind >>= f).run s = (f s.current.kind).run s := rfl

theorem run_advance_bind (f : Unit → Parse α) (s : TokenStream) :
    (advance >>= f).run s = (f ()).run s.advanced := rfl

/-- What is only wrapped up leaves the stream as it is. -/
theorem stream_wrap {m : Parse α} {f : α → Parse β} (hf : ∀ a, ∃ b, f a = pure b)
    (s : TokenStream) : ((m >>= f).run s).2 = (m.run s).2 := by
  obtain ⟨b, hb⟩ := hf (m.run s).1
  rw [run_bind_eq rfl, hb]
  rfl

/-- A reader leads on from every stream. -/
def Leading (m : Parse α) : Prop :=
  ∀ s : TokenStream, s.Leads (m.run s).2

/-- **Two readers that go alike** in a text, one on the text alone and one in its
place. What they give is the same as far as `e` shows it. -/
structure Alike (o : Window) (e : α → γ) (m m' : Parse α) : Prop where
  leads : Leading m
  meets : ∀ s s' : TokenStream, s.Meets o s' → Within o (m.run s).2 →
    e (m.run s).1 = e (m'.run s').1 ∧ (m.run s).2.Meets o (m'.run s').2

variable {e : α → γ} {e' : β → δ}

/-! ## Leading on -/

namespace Leading

theorem pure (a : α) : Leading (pure a) :=
  fun _ => .refl

theorem bind {m : Parse α} {f : α → Parse β} (hm : Leading m) (hf : ∀ a, Leading (f a)) :
    Leading (m >>= f) :=
  fun s => (hm s).trans (hf _ _)

theorem current : Leading current :=
  fun _ => .refl

theorem ite {c : Prop} [Decidable c] {m n : Parse α} (hm : Leading m) (hn : Leading n) :
    Leading (if c then m else n) := by
  split
  · exact hm
  · exact hn

theorem advance : Leading advance :=
  fun s => .advanced s

theorem reportAt (p : Position) (f : GrammarFault) : Leading (reportAt p f) :=
  fun _ => .of_note rfl rfl rfl id
    (fun h => (List.append_eq_nil_iff.1 h).1) id

theorem sourceText (start stop : Nat) : Leading (sourceText start stop) :=
  fun _ => .refl

theorem trimmedText (start stop : Nat) : Leading (trimmedText start stop) :=
  fun _ => .refl

theorem lexedOffset : Leading lexedOffset :=
  fun _ => .refl

theorem exhaust (a : α) : Leading (exhaust >>= fun _ => Pure.pure a) :=
  fun _ => .of_note rfl rfl rfl (fun h => absurd h.symm Bool.false_ne_true) id id

theorem scanUpTo (step : σ → Token → Option σ) (fuel : Nat) (a : σ) :
    Leading (scanUpTo step fuel a) := by
  have hround : ∀ a, Leading (scanRound step a) := fun a =>
    .bind .current fun t => .ite (.pure _) <| by
      cases step a t with
      | none => exact .pure _
      | some a' => exact .bind .advance fun _ => .pure _
  induction fuel generalizing a with
  | zero => exact .exhaust a
  | succ fuel ih =>
    refine .bind (hround a) fun r => ?_
    cases r with
    | none => exact .pure _
    | some a' => exact ih a'

theorem scan (step : σ → Token → Option σ) (a : σ) : Leading (scan step a) :=
  fun s => Leading.scanUpTo step s.rounds a s

theorem skipNewlines : Leading skipNewlines :=
  .scan _ _

theorem advanceLine : Leading advanceLine :=
  .bind .advance fun _ => .skipNewlines

end Leading

/-! ## Composition -/

namespace Alike

theorem pure {a a' : α} (h : e a = e a') : Alike o e (pure a) (pure a') :=
  ⟨.pure a, fun _ _ hs _ => ⟨h, hs⟩⟩

theorem bind {m m' : Parse α} {f f' : α → Parse β} (hm : Alike o e m m')
    (hf : ∀ a a', e a = e a' → Alike o e' (f a) (f' a')) :
    Alike o e' (m >>= f) (m' >>= f') := by
  refine ⟨.bind hm.leads fun a => (hf a a rfl).leads, fun s s' hs hwithin => ?_⟩
  have hmid : Within o (m.run s).2 :=
    ((hf _ _ rfl).leads (m.run s).2).within ((hm.leads s).lined hs.lined) hwithin
  obtain ⟨heq, hs'⟩ := hm.meets s s' hs hmid
  exact (hf _ _ heq).meets _ _ hs' hwithin

/-- Composition behind a reader that gives the same. -/
theorem next {m m' : Parse α} {f f' : α → Parse β} (hm : Alike o id m m')
    (hf : ∀ a, Alike o e' (f a) (f' a)) : Alike o e' (m >>= f) (m' >>= f') :=
  hm.bind fun a a' h => by
    cases (show a = a' from h)
    exact hf a

/-- Composition behind a reader that may fail. -/
theorem option {m m' : Parse (Option α)} {f f' : Option α → Parse β}
    (hm : Alike o (Option.map e) m m') (hnone : Alike o e' (f none) (f' none))
    (hsome : ∀ a a', e a = e a' → Alike o e' (f (some a)) (f' (some a'))) :
    Alike o e' (m >>= f) (m' >>= f') := by
  refine hm.bind fun a a' h => ?_
  cases a with
  | none =>
    cases a' with
    | none => exact hnone
    | some a' => cases h
  | some a =>
    cases a' with
    | none => cases h
    | some a' => exact hsome a a' (Option.some.inj h)

theorem ite {c : Prop} [Decidable c] {m m' n n' : Parse α} (hm : c → Alike o e m m')
    (hn : ¬ c → Alike o e n n') : Alike o e (if c then m else n) (if c then m' else n') := by
  split
  · next h => exact hm h
  · next h => exact hn h

/-! ## Looking -/

/-- A token in its text. Unless the text goes up to the end of the source, it is
there. -/
structure InText (o : Window) (t : Token) : Prop where
  start_le : t.start ≤ o.text.length
  start_lt : t.kind ≠ .endOfInput → t.start < o.text.length
  kind_ne : o.whole = false → t.kind ≠ .endOfInput

/-- The current token, and what is known of it. -/
theorem currentIn {f f' : Token → Parse α} (hlead : ∀ t, Leading (f t))
    (hf : ∀ t, InText o t → Alike o e (f t) (f' (o.token t))) :
    Alike o e (Parse.current >>= f) (Parse.current >>= f') := by
  refine ⟨.bind .current hlead, fun s s' hs hwithin => ?_⟩
  have hrun : (Parse.current >>= f').run s' = (f' (o.token s.current)).run s' := by
    rw [← hs.current_eq]
    rfl
  rw [hrun]
  exact (hf _ ⟨hs.start_le, hs.start_lt, hs.kind_ne⟩).meets s s' hs hwithin

theorem current {f f' : Token → Parse α} (hf : ∀ t, Alike o e (f t) (f' (o.token t))) :
    Alike o e (Parse.current >>= f) (Parse.current >>= f') :=
  currentIn (fun t => (hf t).leads) fun t _ => hf t

theorem kind {f f' : TokenKind → Parse α} (hf : ∀ k, Alike o e (f k) (f' k)) :
    Alike o e (Parse.kind >>= f) (Parse.kind >>= f') :=
  show Alike o e (Parse.current >>= fun t => f t.kind) (Parse.current >>= fun t => f' t.kind)
    from current fun t => hf t.kind

theorem position {f f' : Position → Parse α} (hf : ∀ p, Alike o e (f p) (f' (o.place p))) :
    Alike o e (Parse.position >>= f) (Parse.position >>= f') :=
  show Alike o e (Parse.current >>= fun t => f t.position)
    (Parse.current >>= fun t => f' t.position) from current fun t => hf t.position

/-- The bounds grow with the source. -/
theorem source_length_le {s s' : TokenStream} (h : s.Meets o s') :
    s.lexer.source.length ≤ s'.lexer.source.length := by
  rw [h.source_eq, h.source_eq', Window.source, List.length_append, List.length_append]
  omega

theorem rounds {f f' : Nat → Parse α} (hf : ∀ n n', n ≤ n' → Alike o e (f n) (f' n')) :
    Alike o e (get >>= fun s => f s.rounds) (get >>= fun s => f' s.rounds) :=
  ⟨fun s => (hf _ _ le_rfl).leads s,
    fun s s' hs hwithin => (hf _ _ (Nat.succ_le_succ (source_length_le hs))).meets s s' hs hwithin⟩

theorem depth {f f' : TokenStream → Parse α}
    (hf : ∀ s s' : TokenStream, s.depth ≤ s'.depth → Alike o e (f s) (f' s')) :
    Alike o e (get >>= f) (get >>= f') :=
  ⟨fun s => (hf s s le_rfl).leads s, fun s s' hs hwithin =>
    (hf s s' (Nat.mul_le_mul_left 4
      (Nat.add_le_add_right (source_length_le hs) 2))).meets s s' hs hwithin⟩

/-- The source between two places of the text. -/
theorem slice_eq {stop : Nat} (start : Nat) (hstop : stop ≤ o.text.length ∨ o.whole = true) :
    (o.source.drop (o.before.length + start)).take
        (o.before.length + stop - (o.before.length + start))
      = (o.text.drop start).take (stop - start) := by
  rw [Nat.add_sub_add_left, Window.source, List.drop_length_add_append]
  rcases hstop with hle | hwhole
  · by_cases hstart : start ≤ o.text.length
    · rw [List.drop_append_of_le_length hstart, List.take_append_of_le_length]
      rw [List.length_drop]
      omega
    · rw [Nat.sub_eq_zero_of_le (by omega), List.take_zero, List.take_zero]
  · rw [o.after_eq hwhole, List.append_nil]

theorem sourceText {stop : Nat} (start : Nat) (hstop : stop ≤ o.text.length ∨ o.whole = true) :
    Alike o id (Parse.sourceText start stop)
      (Parse.sourceText (o.before.length + start) (o.before.length + stop)) := by
  refine ⟨.sourceText _ _, fun s s' hs _ => ⟨?_, hs⟩⟩
  change String.ofList (s.lexer.slice start stop)
    = String.ofList (s'.lexer.slice (o.before.length + start) (o.before.length + stop))
  rw [Lexer.slice, Lexer.slice, hs.source_eq, hs.source_eq', slice_eq start hstop]

theorem trimmedText {stop : Nat} (start : Nat) (hstop : stop ≤ o.text.length ∨ o.whole = true) :
    Alike o id (Parse.trimmedText start stop)
      (Parse.trimmedText (o.before.length + start) (o.before.length + stop)) :=
  (sourceText start hstop).next fun _ => .pure rfl

/-- How far the lexer has read, in a text that goes up to the end. -/
theorem lexedOffset (hwhole : o.whole = true) {f f' : Nat → Parse α}
    (hf : ∀ n, Alike o e (f n) (f' (o.before.length + n))) :
    Alike o e (Parse.lexedOffset >>= f) (Parse.lexedOffset >>= f') := by
  refine ⟨.bind .lexedOffset fun n => (hf n).leads, fun s s' hs hwithin => ?_⟩
  have hoffset : s'.lexer.cursor.offset = o.before.length + s.lexer.cursor.offset := by
    rcases hs.ahead with hinside | hbeyond
    · exact hinside.fits.cursor.offset_eq
    · exact absurd hwhole (Bool.eq_false_iff.1 hbeyond.cut)
  have hrun : (Parse.lexedOffset >>= f').run s'
      = (f' (o.before.length + s.lexer.cursor.offset)).run s' := by
    rw [← hoffset]
    rfl
  rw [hrun]
  exact (hf _).meets s s' hs hwithin

/-! ## Moving and noting -/

theorem advance : Alike o id Parse.advance Parse.advance :=
  ⟨.advance, fun _ _ hs hwithin => ⟨rfl, hs.advanced hwithin⟩⟩

theorem reportAt (p p' : Position) (f : GrammarFault) :
    Alike o id (Parse.reportAt p f) (Parse.reportAt p' f) :=
  ⟨.reportAt p f, fun _ _ hs _ => ⟨rfl, hs.withError p p' f⟩⟩

theorem report (f : GrammarFault) : Alike o id (Parse.report f) (Parse.report f) :=
  position fun _ => reportAt _ _ f

/-- A bound that is met in the text alone tells nothing. -/
theorem exhaust {a : α} {m' : Parse α} :
    Alike o e (Parse.exhaust >>= fun _ => Pure.pure a) m' :=
  ⟨.exhaust a, fun _ _ _ hwithin => absurd hwithin.exhausted.symm Bool.false_ne_true⟩

/-! ## Loops -/

theorem scanUpTo {step : σ → Token → Option σ} (hstep : ∀ a t, step a (o.token t) = step a t)
    {fuel fuel' : Nat} (hfuel : fuel ≤ fuel') (a : σ) :
    Alike o id (Parse.scanUpTo step fuel a) (Parse.scanUpTo step fuel' a) := by
  induction fuel generalizing fuel' a with
  | zero => exact .exhaust
  | succ fuel ih =>
    obtain ⟨fuel', rfl⟩ : ∃ n, fuel' = n + 1 := ⟨fuel' - 1, by omega⟩
    have hround : Alike o id (scanRound step a) (scanRound step a) := by
      refine current fun t => ite (fun _ => .pure rfl) fun _ => ?_
      rw [hstep]
      cases step a t with
      | none => exact .pure rfl
      | some a' => exact advance.next fun _ => .pure rfl
    refine hround.next fun r => ?_
    cases r with
    | none => exact .pure rfl
    | some a' => exact ih (Nat.le_of_succ_le_succ hfuel) a'

theorem scan {step : σ → Token → Option σ} (hstep : ∀ a t, step a (o.token t) = step a t) (a : σ) :
    Alike o id (Parse.scan step a) (Parse.scan step a) :=
  rounds fun _ _ hle => scanUpTo hstep hle a

theorem skipWhile {p : Token → Bool} (hp : ∀ t, p (o.token t) = p t) :
    Alike o id (Parse.skipWhile p) (Parse.skipWhile p) :=
  scan (fun _ t => by rw [hp]) ()

theorem skipNewlines : Alike o id Parse.skipNewlines Parse.skipNewlines :=
  skipWhile fun _ => rfl

theorem advanceLine : Alike o id Parse.advanceLine Parse.advanceLine :=
  advance.next fun _ => skipNewlines

theorem expect (want : TokenKind) : Alike o id (Parse.expect want) (Parse.expect want) :=
  kind fun _ => ite (fun _ => advance.next fun _ => .pure rfl)
    fun _ => (report _).next fun _ => .pure rfl

theorem expectLine (want : TokenKind) :
    Alike o id (Parse.expectLine want) (Parse.expectLine want) :=
  (expect want).next fun found => by
    cases found with
    | true => exact skipNewlines.next fun _ => .pure rfl
    | false => exact .pure rfl

/-- What shows of a round. -/
def showRound (e : α → γ) (r : Round α) : List γ × Bool :=
  (r.items.map e, r.again)

theorem repeatUpTo {round round' : Parse (Round α)}
    (hround : Alike o (showRound e) round round') {fuel fuel' : Nat} (hfuel : fuel ≤ fuel') :
    Alike o (List.map e) (Parse.repeatUpTo round fuel) (Parse.repeatUpTo round' fuel') := by
  induction fuel generalizing fuel' with
  | zero => exact .exhaust
  | succ fuel ih =>
    obtain ⟨fuel', rfl⟩ : ∃ n, fuel' = n + 1 := ⟨fuel' - 1, by omega⟩
    refine hround.bind fun r r' hr => ?_
    obtain ⟨hitems, hagain⟩ := Prod.mk.inj hr
    rw [← hagain]
    refine ite (fun _ => ?_) fun _ => .pure hitems
    refine (ih (Nat.le_of_succ_le_succ hfuel)).bind fun rest rest' hrest => .pure ?_
    rw [List.map_append, List.map_append, hitems, hrest]

theorem repeated {round round' : Parse (Round α)}
    (hround : Alike o (showRound e) round round') :
    Alike o (List.map e) (Parse.repeated round) (Parse.repeated round') :=
  rounds fun _ _ hle => repeatUpTo hround hle

end Alike

end Gsx.Parse
