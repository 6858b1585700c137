import Gsx.Proofs.Grammar.Route
/-!
# Readers on a route

What a reader goes over, as a route through the source. `ToursFrom l is m r q`
reads: having come from `l` to `m` along `is`, the reader `r` goes on to some
place along some items, and `q` holds of all items since `l` and of what `r`
gives. A reader that reports something passes a fault; so where nothing was
reported there is none.

The rules follow the steps of a reader and add to the items what each step goes
over. A scan goes over tokens one by one; where its tokens are a capture, the
way to it is told anew.
-/

namespace Gsx

open Lexer

/-- Whether something was found wrong in a stream, or a bound was reached. -/
def TokenStream.IsTroubled (s : TokenStream) : Prop :=
  s.exhausted = true ∨ s.diagnostics ≠ []

/-- **A stream at the end of a route**: a fault on the way has left its trace. -/
structure Arrives (l : Lexer) (is : List Item) (m : Lexer) (s : TokenStream) : Prop where
  route : Route l is m
  follows : s.Follows m
  troubled : .fault ∈ is → s.IsTroubled

theorem TokenStream.Follows.arrives {s : TokenStream} {l : Lexer} (h : s.Follows l) :
    Arrives l [] l s :=
  ⟨.nil l, h, fun hfault => absurd hfault List.not_mem_nil⟩

namespace Parse

open TokenStream

variable {α β σ : Type} {l m : Lexer} {is js : List Item}

/-- **What a reader goes over**, behind a route. -/
def ToursFrom (l : Lexer) (is : List Item) (m : Lexer) (r : Parse α) (q : List Item → α → Prop) :
    Prop :=
  ∀ s, Arrives l is m s → ∃ js e, Arrives l js e (r.run s).2
    ∧ (s.IsTroubled → (r.run s).2.IsTroubled) ∧ q js (r.run s).1

/-- What a reader goes over from a place on. -/
abbrev ToursAt (l : Lexer) (r : Parse α) (q : List Item → α → Prop) : Prop :=
  ToursFrom l [] l r q

/-- What a reader goes over, wherever it starts. -/
abbrev Tours (r : Parse α) (q : List Item → α → Prop) : Prop :=
  ∀ l, ToursAt l r q

variable {p q q' : List Item → α → Prop} {k : List Item → β → Prop}

namespace ToursFrom

/-! ## Composition -/

theorem pure {a : α} (h : q is a) : ToursFrom l is m (Pure.pure a) q :=
  fun _ hs => ⟨is, m, hs, id, h⟩

theorem mono {r : Parse α} (h : ToursFrom l is m r q) (hq : ∀ js a, q js a → q' js a) :
    ToursFrom l is m r q' := fun s hs => by
  obtain ⟨js, e, harrives, htroubled, ha⟩ := h s hs
  exact ⟨js, e, harrives, htroubled, hq js _ ha⟩

/-- A reader with something behind it. -/
theorem bind {r : Parse α} {f : α → Parse β} (hr : ToursAt m r p)
    (hf : ∀ e js a, Route m js e → p js a → ToursFrom l (is ++ js) e (f a) k) :
    ToursFrom l is m (r >>= f) k := fun s hs => by
  obtain ⟨js, e, harrives, htroubled, ha⟩ := hr s hs.follows.arrives
  have hboth : Arrives l (is ++ js) e (r.run s).2 :=
    ⟨hs.route.append harrives.route, harrives.follows, fun hfault =>
      (List.mem_append.1 hfault).elim (fun h => htroubled (hs.troubled h)) harrives.troubled⟩
  obtain ⟨ks, e', harrives', htroubled', hb⟩ := hf e js _ harrives.route ha _ hboth
  exact ⟨ks, e', harrives', fun h => htroubled' (htroubled h), hb⟩

/-- A reader with nothing behind it. -/
theorem last {r : Parse α} (hr : ToursAt m r p) (h : ∀ js a, p js a → q (is ++ js) a) :
    ToursFrom l is m r q := fun s hs => by
  obtain ⟨js, e, harrives, htroubled, ha⟩ := hr s hs.follows.arrives
  exact ⟨is ++ js, e, ⟨hs.route.append harrives.route, harrives.follows, fun hfault =>
    (List.mem_append.1 hfault).elim (fun h => htroubled (hs.troubled h)) harrives.troubled⟩,
    htroubled, h js _ ha⟩

/-- A reader that is told from further back, with something behind it. -/
theorem andThen {r : Parse α} {f : α → Parse β} (hr : ToursFrom l is m r p)
    (hf : ∀ e js a, p js a → ToursFrom l js e (f a) k) : ToursFrom l is m (r >>= f) k :=
  fun s hs => by
    obtain ⟨js, e, harrives, htroubled, ha⟩ := hr s hs
    obtain ⟨ks, e', harrives', htroubled', hb⟩ := hf e js _ ha _ harrives
    exact ⟨ks, e', harrives', fun h => htroubled' (htroubled h), hb⟩

theorem ite {c : Prop} [Decidable c] {r r' : Parse α} (hr : c → ToursFrom l is m r q)
    (hr' : ¬ c → ToursFrom l is m r' q) : ToursFrom l is m (if c then r else r') q := by
  split
  · next h => exact hr h
  · next h => exact hr' h

/-- Another telling of the way. It must not invent a fault. -/
theorem retell {r : Parse α} (hroute : Route l is m → Route l js m)
    (hfault : .fault ∈ js → .fault ∈ is) (h : ToursFrom l js m r q) : ToursFrom l is m r q :=
  fun s hs => h s ⟨hroute hs.route, hs.follows, fun hf => hs.troubled (hfault hf)⟩

/-- What a reader knows of the place where it starts. -/
theorem ofIsIn {r : Parse α} (h : m.cursor.IsIn m.source → ToursFrom l is m r q) :
    ToursFrom l is m r q :=
  fun s hs => h hs.follows.isIn s hs

/-! ## Looking -/

/-- A reader that runs like another one where it starts. -/
theorem congr {r r' : Parse α} (h : ToursFrom l is m r' q)
    (hrun : ∀ s : TokenStream, s.Follows m → r.run s = r'.run s) : ToursFrom l is m r q :=
  fun s hs => by
    rw [hrun s hs.follows]
    exact h s hs

theorem ofCurrent {f : Token → Parse α} (h : ToursFrom l is m (f (m.token 0)) q) :
    ToursFrom l is m (current >>= f) q :=
  h.congr fun s hs => by
    change (f s.current).run s = _
    rw [hs.current]

theorem ofKind {f : TokenKind → Parse α} (h : ToursFrom l is m (f (m.token 0).kind) q) :
    ToursFrom l is m (kind >>= f) q :=
  ofCurrent (f := fun t => f t.kind) h

theorem ofPosition {f : Position → Parse α} (h : ToursFrom l is m (f (m.token 0).position) q) :
    ToursFrom l is m (position >>= f) q :=
  ofCurrent (f := fun t => f t.position) h

theorem ofGet {f : TokenStream → Parse α} (h : ∀ s, ToursFrom l is m (f s) q) :
    ToursFrom l is m (get >>= f) q :=
  fun s hs => h s s hs

/-- At the end of the input the lexer has read on to where the last token
starts. -/
theorem ofLexedOffset {f : Nat → Parse α} (hend : (m.token 0).kind = .endOfInput)
    (h : ToursFrom l is m (f (m.token 0).start) q) :
    ToursFrom l is m (lexedOffset >>= f) q :=
  h.congr fun s hs => by
    change (f s.lexer.cursor.offset).run s = _
    rw [hs.lexedOffset_eq (hs.current ▸ hend), hs.current]

theorem ofSourceText {start stop : Nat} {f : String → Parse α}
    (h : ToursFrom l is m (f (String.ofList (m.slice start stop))) q) :
    ToursFrom l is m (sourceText start stop >>= f) q :=
  h.congr fun s hs => by
    have hslice : s.lexer.slice start stop = m.slice start stop := by rw [slice, slice, hs.source]
    rw [← hslice]
    rfl

theorem ofTrimmedText {start stop : Nat} {f : String → Parse α}
    (h : ToursFrom l is m (f (Text.trim (String.ofList (m.slice start stop)))) q) :
    ToursFrom l is m (trimmedText start stop >>= f) q := by
  rw [trimmedText, bind_assoc]
  refine ofSourceText ?_
  rwa [pure_bind]

/-! ## Tokens -/

/-- One token further. -/
theorem advance {f : Unit → Parse α}
    (h : ToursFrom l (is ++ [.token (m.token 0) (m.token 1)]) (after 1 m) (f ()) q) :
    ToursFrom l is m (Parse.advance >>= f) q := fun s hs => by
  have harrives : Arrives l (is ++ [.token (m.token 0) (m.token 1)]) (after 1 m) s.advanced :=
    ⟨hs.route.append (.token (.nil _)), hs.follows.advanced, fun hfault =>
      (List.mem_append.1 hfault).elim hs.troubled fun h => nomatch List.mem_singleton.1 h⟩
  exact h _ harrives

theorem lastAdvance {q : List Item → Unit → Prop}
    (h : q (is ++ [.token (m.token 0) (m.token 1)]) ()) : ToursFrom l is m Parse.advance q := by
  have hpure : ToursFrom l is m (Parse.advance >>= Pure.pure) q := advance (.pure h)
  rwa [bind_pure] at hpure

end ToursFrom

/-! ## Notes -/

/-- What takes notes of no trouble stays where it is. -/
theorem ToursAt.note {r : Parse α} {p : α → Prop} (h : ∀ s : TokenStream,
    s.Stays (r.run s).2 ∧ (r.run s).2.diagnostics = s.diagnostics ∧ p (r.run s).1) :
    ToursAt l r fun js a => js = [] ∧ p a := fun s hs => by
  obtain ⟨hstays, hdiagnostics, ha⟩ := h s
  have hfollows : (r.run s).2.Follows l :=
    hs.follows.of_eq hstays.source hstays.cursor hstays.current hstays.peek
  refine ⟨[], l, hfollows.arrives, ?_, rfl, ha⟩
  rw [IsTroubled, IsTroubled, hstays.exhausted, hdiagnostics]
  exact id

theorem tours_reportAt (place : Position) (f : GrammarFault) :
    Tours (reportAt place f) fun js _ => js = [.fault] := fun l s hs => by
  have htroubled : ((reportAt place f).run s).2.IsTroubled :=
    .inr (List.append_ne_nil_of_right_ne_nil _ (List.cons_ne_nil _ _))
  exact ⟨_, l, ⟨.fault (.nil l), hs.follows.of_eq rfl rfl rfl rfl, fun _ => htroubled⟩,
    fun _ => htroubled, rfl⟩

theorem tours_report (f : GrammarFault) : Tours (report f) fun js _ => js = [.fault] :=
  fun l => .ofPosition (tours_reportAt _ f l)

theorem tours_exhaust : Tours exhaust fun js _ => js = [.fault] := fun l s hs => by
  have htroubled : (exhaust.run s).2.IsTroubled := .inl rfl
  exact ⟨_, l, ⟨.fault (.nil l), hs.follows.of_eq rfl rfl rfl rfl, fun _ => htroubled⟩,
    fun _ => htroubled, rfl⟩

theorem tours_leadingComments : Tours leadingComments fun js _ => js = [] := fun _ =>
  (ToursAt.note (p := fun _ => True) fun s => ⟨keeps_leadingComments s, by
    rw [leadingComments]
    simp only [StateT.run_bind, StateT.run_modify, StateT.run_get, pure_bind]
    split <;> rfl, trivial⟩).mono fun _ _ h => h.1

theorem tours_trailingComment (line : Nat) :
    Tours (trailingComment line) fun js _ => js = [] := fun _ =>
  (ToursAt.note (p := fun _ => True) fun s => ⟨keeps_trailingComment line s, by
    rw [trailingComment]
    simp only [StateT.run_bind, StateT.run_modify, StateT.run_get, pure_bind]
    split
    · split <;> rfl
    · rfl, trivial⟩).mono fun _ _ h => h.1

theorem tours_orphanComments : Tours orphanComments fun js _ => js = [] := fun l =>
  .bind (tours_leadingComments l) fun _ js g _ hjs => by
    cases g <;> exact .pure hjs

theorem tours_intValue (literal : String) : Tours (intValue literal) fun js _ => js = [] := fun _ =>
  (ToursAt.note (p := fun _ => True) fun s => ⟨keeps_intValue literal s, by
    rw [intValue]
    split <;> rfl, trivial⟩).mono fun _ _ h => h.1

/-! ## Single tokens -/

/-- A token that is expected and found, or a fault. -/
theorem tours_expect (want : TokenKind) : Tours (expect want) fun js found =>
    if found then ∃ t next, t.kind = want ∧ js = [.token t next] else js = [.fault] := fun l =>
  .ofKind <| .ite (fun hkind => .advance <| .pure ⟨_, _, hkind, rfl⟩) fun _ =>
    .bind (tours_report _ l) fun _ _ _ _ hjs => .pure hjs

/-! ## Scans -/

/-- The state of a scan in front of each token. -/
def scanState (step : σ → Token → Option σ) (l : Lexer) (a : σ) : Nat → σ
  | 0 => a
  | n + 1 => (step (scanState step l a n) (l.token n)).getD (scanState step l a n)

/-- A token at which a scan stops. -/
def ScanStops (step : σ → Token → Option σ) (l : Lexer) (a : σ) (n : Nat) : Prop :=
  step (scanState step l a n) (l.token n) = none

theorem step_scanState {step : σ → Token → Option σ} {a : σ} {n : Nat}
    (h : ¬ ScanStops step l a n) :
    step (scanState step l a n) (l.token n) = some (scanState step l a (n + 1)) := by
  obtain ⟨b, hb⟩ := Option.ne_none_iff_exists'.1 h
  rw [scanState, hb, Option.getD_some]

theorem exists_scanStops {step : σ → Token → Option σ} {a : σ} {s : TokenStream} (hs : s.Follows l) :
    ∃ n, StopsAt l (ScanStops step l a) n
      ∧ (scan step a).run s = (scanState step l a n, s.advancedBy n) :=
  exists_stopsAt_scan (scanState step l a) (fun _ => id) (fun _ => step_scanState) hs

theorem exhausted_advancedBy (n : Nat) (s : TokenStream) :
    (s.advancedBy n).exhausted = s.exhausted := by
  induction n generalizing s with
  | zero => rfl
  | succ n ih => exact ih s.advanced

/-- **A scan goes over tokens**, up to the first one that stops it. -/
theorem ToursFrom.scan {step : σ → Token → Option σ} {a : σ} {f : σ → Parse α}
    (h : ∀ n, StopsAt m (ScanStops step m a) n →
      ToursFrom l (is ++ m.passed n) (after n m) (f (scanState step m a n)) q) :
    ToursFrom l is m (Parse.scan step a >>= f) q := fun s hs => by
  obtain ⟨n, hstops, hrun⟩ : ∃ n, StopsAt m (ScanStops step m a) n
      ∧ (Parse.scan step a).run s = (scanState step m a n, s.advancedBy n) :=
    exists_scanStops hs.follows
  have hsame : (s.advancedBy n).IsTroubled ↔ s.IsTroubled := by
    rw [IsTroubled, IsTroubled, exhausted_advancedBy, (advancedBy_notes n s).2.1]
  have harrives : Arrives l (is ++ m.passed n) (after n m) (s.advancedBy n) := by
    refine ⟨hs.route.append (.passed m n), hs.follows.advancedBy n, fun hfault => hsame.2 ?_⟩
    rcases List.mem_append.1 hfault with hfault | hfault
    · exact hs.troubled hfault
    · obtain ⟨_, _, heq⟩ := mem_passed.1 hfault
      cases heq
  have hbind : (Parse.scan step a >>= f).run s = (f (scanState step m a n)).run (s.advancedBy n) := by
    change (f ((Parse.scan step a).run s).1).run ((Parse.scan step a).run s).2 = _
    rw [hrun]
  obtain ⟨js, e, hend, htroubled, hq⟩ := h n hstops _ harrives
  rw [hbind]
  exact ⟨js, e, hend, fun ht => htroubled (hsame.2 ht), hq⟩

/-- Nothing but tokens of certain kinds. -/
def TokensOf (p : TokenKind → Prop) (js : List Item) : Prop :=
  ∀ i ∈ js, ∃ t next, i = .token t next ∧ p t.kind

theorem TokensOf.nil {p : TokenKind → Prop} : TokensOf p [] :=
  fun _ hi => absurd hi List.not_mem_nil

theorem TokensOf.append {p : TokenKind → Prop} (h : TokensOf p is) (h' : TokensOf p js) :
    TokensOf p (is ++ js) :=
  fun i hi => (List.mem_append.1 hi).elim (h i) (h' i)

theorem TokensOf.token {p : TokenKind → Prop} {t next : Token} (h : p t.kind) :
    TokensOf p [.token t next] :=
  fun _ hi => ⟨t, next, List.mem_singleton.1 hi, h⟩

theorem tours_skipWhile (c : Token → Bool) :
    Tours (skipWhile c) fun js _ => ∀ i ∈ js, ∃ t next, i = .token t next ∧ c t := fun l => by
  have hscan : ToursFrom l [] l
      (Parse.scan (fun () t => if c t then some () else none) () >>= Pure.pure)
      fun js _ => ∀ i ∈ js, ∃ t next, i = .token t next ∧ c t :=
    .scan fun n hn => .pure fun i hi => by
      obtain ⟨k, hk, rfl⟩ := mem_passed.1 hi
      refine ⟨_, _, rfl, ?_⟩
      by_contra hc
      exact (hn.goes k hk).2 (if_neg hc)
  rwa [bind_pure] at hscan

theorem tours_skipNewlines : Tours skipNewlines fun js _ => TokensOf (· = .newline) js :=
  fun l => (tours_skipWhile _ l).mono fun _ _ h i hi => by
    obtain ⟨t, next, rfl, ht⟩ := h i hi
    exact ⟨t, next, rfl, of_decide_eq_true ht⟩

/-- One token further, and over line ends. -/
theorem ToursFrom.advanceLine {f : Unit → Parse α}
    (h : ∀ e js, TokensOf (· = .newline) js →
      ToursFrom l (is ++ [.token (m.token 0) (m.token 1)] ++ js) e (f ()) q) :
    ToursFrom l is m (Parse.advanceLine >>= f) q := by
  have hline : (Parse.advanceLine >>= f)
      = Parse.advance >>= fun u => skipNewlines >>= f := bind_assoc ..
  rw [hline]
  exact .advance (.bind (tours_skipNewlines _) fun e js _ _ hjs => h e js hjs)

theorem tours_expectLine (want : TokenKind) : Tours (expectLine want) fun js found =>
    if found then TokensOf (fun k => k = want ∨ k = .newline) js else .fault ∈ js := fun l =>
  .bind (tours_expect want l) fun e js found _ hjs => by
    cases found with
    | false => exact .pure (hjs ▸ List.mem_singleton_self _)
    | true =>
      obtain ⟨t, next, hkind, rfl⟩ := hjs
      refine .bind (tours_skipNewlines e) fun _ ks _ _ hks => .pure ?_
      have hlines : TokensOf (fun k => k = want ∨ k = .newline) ks := fun i hi => by
        obtain ⟨t, next, hi, ht⟩ := hks i hi
        exact ⟨t, next, hi, .inr ht⟩
      exact TokensOf.append (TokensOf.append .nil (.token (.inl hkind))) hlines

/-! ## Repetition -/

/-- **A repetition** tells of its rounds one after the other. -/
theorem Tours.repeated {round : Parse (Round β)} {p : List Item → List β → Prop}
    (hnil : p [.fault] []) (happend : ∀ is js as bs, p is as → p js bs → p (is ++ js) (as ++ bs))
    (h : Tours round fun js r => p js r.items) : Tours (repeated round) p := by
  have hfuel : ∀ fuel, Tours (repeatUpTo round fuel) p := fun fuel => by
    induction fuel with
    | zero => exact fun l => .bind (tours_exhaust l) fun _ js _ _ hjs => .pure (hjs ▸ hnil)
    | succ fuel ih =>
      refine fun l => .bind (h l) fun e js r _ hr => .ite (fun _ => ?_) fun _ => .pure hr
      exact .bind (ih e) fun _ ks rest _ hrest => .pure (happend _ _ _ _ hr hrest)
  exact fun l => .ofGet fun s => hfuel s.rounds l

end Parse

end Gsx
