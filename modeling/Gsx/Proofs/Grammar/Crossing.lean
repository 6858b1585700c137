import Gsx.Proofs.Grammar.FilesAlike
import Gsx.Proofs.Grammar.Following
/-!
# Crossing the end of a text

The last reader of a text moves over its last line end. On the text alone it
comes to the end of the input; in the source it goes on to the first token of
what follows that is no line end. There it `Stands`: whatever text follows, the
stream is where reading that text alone would be, at its first token.
-/

namespace Gsx

namespace Window

/-- The same text, where comments do not count. -/
def untidy (o : Window) : Window := { o with tidy := false }

/-- The text of the second window follows the text of the first. -/
structure Follows (o o2 : Window) : Prop where
  before_eq : o2.before = o.before ++ o.text
  after_eq : o2.text ++ o2.after = o.after
  tidy_eq : o2.tidy = false
  notes_eq : o2.notes = o.notes

variable {o o2 : Window}

theorem before_line_rest (o : Window) (hcut : o.whole = false) :
    o.before ++ o.text = [] ∨ ∃ cs, o.before ++ o.text = cs ++ ['\n'] := by
  obtain ⟨cs, hcs⟩ := o.text_line hcut
  exact .inr ⟨o.before ++ cs, by rw [hcs, List.append_assoc]⟩

theorem text_line_whole {cs : List Char} (h : true = false) : ∃ ds, cs = ds ++ ['\n'] :=
  absurd h.symm Bool.false_ne_true

theorem after_eq_whole (_ : true = true) : ([] : List Char) = [] := rfl

/-- All that follows a text. -/
def rest (o : Window) (hcut : o.whole = false) : Window where
  before := o.before ++ o.text
  text := o.after
  after := []
  whole := true
  tidy := false
  notes := o.notes
  before_line := o.before_line_rest hcut
  text_line := text_line_whole
  after_eq := after_eq_whole

theorem follows_rest (o : Window) (hcut : o.whole = false) : Follows o (o.rest hcut) where
  before_eq := rfl
  after_eq := List.append_nil _
  tidy_eq := rfl
  notes_eq := rfl

theorem Follows.source_eq (h : Follows o o2) : o2.source = o.source := by
  rw [source, source, h.before_eq, h.after_eq, List.append_assoc]

end Window

namespace TokenStream

variable {o o2 : Window} {s s' t : TokenStream}

namespace Meets

theorem untidy (h : Meets o s s') : Meets o.untidy s s' where
  lined := h.lined
  source_eq := h.source_eq
  source_eq' := h.source_eq'
  current_eq := h.current_eq
  kind_ne := h.kind_ne
  messages_eq := h.messages_eq
  cause_eq := h.cause_eq
  marks := h.marks
  ahead := by
    have hfits : ∀ {l l' : Lexer}, l.Fits o l' → l.Fits o.untidy l' := fun h =>
      ⟨h.source_eq, h.source_eq', h.inside, h.inside', h.exact,
        ⟨h.cursor.rest_eq, h.cursor.offset_eq, h.cursor.position_eq⟩, h.messages_eq,
          fun h => absurd h Bool.false_ne_true⟩
    refine h.ahead.imp (fun hi => ⟨hfits hi.fits, hi.peek_eq, hi.kind_ne, hi.last, hi.newline,
      fun h => absurd h Bool.false_ne_true⟩) fun hb => ⟨hb.cut, hb.last, hb.kind_eq, hb.peek_kind, ?_⟩
    obtain ⟨l, l', h, hrest⟩ := hb.lexer
    exact ⟨l, l', hfits h, hrest⟩

end Meets

/-! ## The start of a text -/

/-- The stream at the start of a text. -/
def start (w : List Char) : TokenStream := ofSource "" (String.ofList w)

/-- The stream at the first token of a text that is no line end. -/
def entry (w : List Char) : TokenStream := (Parse.skipNewlines.run (start w)).2

/-- The lexer of a text on its own. -/
abbrev lexerOf (w : List Char) : Lexer := .ofSource "" (String.ofList w)

theorem lined_ofSource (name source : String) : (ofSource name source).Lined := by
  refine lined_of_next (l := .ofSource name source) (.start _) ?_ ?_ ?_ <;> rw [ofSource_eq]

theorem start_eq (w : List Char) :
    start w = ⟨(lexerOf w).next.2.next.2, (lexerOf w).next.1, (lexerOf w).next.2.next.1, [], [], [], none,
      false⟩ :=
  ofSource_eq _ _

theorem lined_start (w : List Char) : (start w).Lined :=
  lined_ofSource _ _

/-- Every comment that a stream holds starts before a place, or before where its
lexer stands. -/
def Marked (n : Nat) (s : TokenStream) : Prop :=
  ∀ c ∈ s.comments ++ s.lexer.pending,
    s.lexer.source[c.offset]? = some '/' ∧ c.offset < max n s.lexer.cursor.offset

theorem Meets.marked (h : Meets o s s') : Marked (o.before.length + o.text.length) s' := by
  rw [Marked, h.source_eq']
  exact h.marks

theorem Marked.advanced {n : Nat} (h : Marked n s) (hs : s.lexer.cursor.IsIn s.lexer.source) :
    Marked n s.advanced := by
  have hfinds := Lexer.Finds.next hs
  intro c hc
  have hold : c ∈ s.comments ++ s.lexer.pending → s.advanced.lexer.source[c.offset]? = some '/'
      ∧ c.offset < max n s.advanced.lexer.cursor.offset := fun hmem => by
    obtain ⟨hslash, hlt⟩ := h c hmem
    exact ⟨hfinds.source_eq.symm ▸ hslash, hlt.trans_le (max_le_max le_rfl hfinds.le_offset)⟩
  rcases List.mem_append.1 hc with hc | hc
  · exact hold (List.mem_append_left _ hc)
  · rcases hfinds.pending c hc with hpending | ⟨hslash, hlt⟩
    · exact hold (List.mem_append_right _ hpending)
    · exact ⟨hfinds.source_eq.symm ▸ hslash, lt_max_of_lt_right hlt⟩

/-- **A stream that stands behind a text**, as if it had just come to the text
that follows, however much of that is looked at. The comments it holds are older
than that, or it has passed them. -/
structure Stands (o : Window) (s' : TokenStream) : Prop where
  meets : ∀ o2, o.Follows o2 → Within o2 (entry o2.text) → Meets o2 (entry o2.text) s'
  marked : Marked (o.before.length + o.text.length) s'

theorem Stands.of_untidy (h : Stands o.untidy s') : Stands o s' where
  meets o2 hf hwithin := h.meets o2 ⟨hf.before_eq, hf.after_eq, hf.tidy_eq, hf.notes_eq⟩ hwithin
  marked := h.marked

/-- The lexer of a stream that looks beyond the text is in the source. -/
theorem LooksBeyond.inside (hb : LooksBeyond o s s') (h : Meets o s s') :
    s'.lexer.cursor.IsIn s'.lexer.source := by
  obtain ⟨l, l', hfits, -, -, -, hcursor, -⟩ := hb.lexer
  rw [h.source_eq', hcursor, ← hfits.source_eq']
  exact (Lexer.Finds.next (l := l') (hfits.source_eq'.symm ▸ hfits.inside')).cursor

/-- The stream that looks beyond the text is, one token further, at the start of
the text that follows. -/
theorem LooksBeyond.fresh (hb : LooksBeyond o s s') (h : Meets o s s') (hclean : s.Clean)
    (hf : o.Follows o2) (hwithin : Within o2 (start o2.text)) :
    Meets o2 (start o2.text) s'.advanced := by
  obtain ⟨l, l', hfits, hrest, hdiagnostics, hpeek', hcursor', hdiagnostics', -⟩ := hb.lexer
  have hnil : l.diagnostics = [] :=
    Lexer.diagnostics_of_next (hdiagnostics.symm.trans hclean.lexer)
  have hnil' : l'.diagnostics = [] := by
    have := hfits.messages_eq
    rw [hnil] at this
    exact List.map_eq_nil_iff.1 this
  have hstart : (lexerOf o2.text).Fits o2 l' := by
    refine Lexer.Fits.start String.toList_ofList ?_ ?_ hnil' fun htidy => ?_
    · rw [hf.source_eq, hfits.source_eq']
    · rw [hf.source_eq, hf.before_eq, List.length_append]
      exact hfits.cursor_end hb.cut hrest
    · exact absurd htidy (Bool.eq_false_iff.1 hf.tidy_eq)
  -- the lexer has read the first token of what follows; its comments may be taken
  have hagree : ∀ {k : Lexer}, k.Fits o2 l'.next.2 → k.Fits o2 s'.lexer := fun hk =>
    ⟨hk.source_eq, by rw [h.source_eq', hf.source_eq], hk.inside, hcursor' ▸ hk.inside', hk.exact,
      hcursor' ▸ hk.cursor, hdiagnostics' ▸ hk.messages_eq,
      fun htidy => absurd htidy (Bool.eq_false_iff.1 hf.tidy_eq)⟩
  have hmessages : s'.advanced.diagnostics.map (·.message)
      = o2.notes ++ (start o2.text).diagnostics.map (·.message) := by
    change s'.diagnostics.map _ = _
    rw [h.messages_eq, hclean.diagnostics, hf.notes_eq, start_eq]
  have hcause : s'.advanced.interruption.map (·.cause)
      = (start o2.text).interruption.map (·.cause) := by
    change s'.interruption.map _ = _
    rw [h.cause_eq, hclean.interruption, start_eq]
  have hmarks : (lexerOf o2.text).next.2.Fits o2 s'.lexer →
      ∀ c ∈ s'.comments ++ s'.lexer.pending, o2.source[c.offset]? = some '/'
        ∧ c.offset < o2.before.length + o2.text.length := by
    intro hk c hc
    obtain ⟨hslash, hlt⟩ := h.marks c hc
    have hle := Meets.offset_le hk
    rw [hf.before_eq, List.length_append] at hle ⊢
    rw [hf.source_eq]
    refine ⟨hslash, hlt.trans_le (max_le ?_ hle)⟩
    omega
  have hstarted := start_eq o2.text
  refine Meets.of_fits hstart hwithin ?_ ?_ ?_ hpeek' hagree rfl rfl hmessages hcause hmarks
    fun htidy => absurd htidy (Bool.eq_false_iff.1 hf.tidy_eq)
  all_goals rw [hstarted]

end TokenStream

namespace Parse

open TokenStream

variable {α β γ δ σ : Type} {o o2 : Window} {s s' t : TokenStream}

/-- A stream that has read its text to the end and found nothing wrong. -/
structure Ends (t : TokenStream) : Prop where
  exhausted : t.exhausted = false
  clean : t.Clean
  kind_eq : t.current.kind = .endOfInput

instance (t : TokenStream) : Decidable (Ends t) :=
  decidable_of_iff (t.exhausted = false ∧ t.Clean ∧ t.current.kind = .endOfInput)
    ⟨fun ⟨hbound, hclean, hend⟩ => ⟨hbound, hclean, hend⟩, fun h => ⟨h.exhausted, h.clean, h.kind_eq⟩⟩

/-! ## Line ends -/

theorem marked_scanUpTo {n : Nat} (h : Marked n s) (hs : s.lexer.cursor.IsIn s.lexer.source)
    (step : σ → Token → Option σ) (fuel : Nat) (a : σ) :
    Marked n ((scanUpTo step fuel a).run s).2 := by
  induction fuel generalizing s a with
  | zero => exact h
  | succ fuel ih =>
    by_cases hstop : s.current.kind = .endOfInput ∨ step a s.current = none
    · rw [run_scanUpTo_stop fuel hstop]
      exact h
    · obtain ⟨hthere, hstep⟩ := not_or.1 hstop
      obtain ⟨a', ha'⟩ := Option.ne_none_iff_exists'.1 hstep
      rw [run_scanUpTo_succ fuel hthere ha']
      have hfinds := Lexer.Finds.next hs
      exact ih (h.advanced hs) (hfinds.source_eq ▸ hfinds.cursor) a'

theorem stands_scanUpTo {fuel fuel' : Nat} (h : s.Meets o s') (hcut : o.whole = false)
    (htidy : o.tidy = false) (hfuel : fuel + o.after.length ≤ fuel')
    (hends : Ends ((scanUpTo newlineStep fuel ()).run s).2) :
    Stands o ((scanUpTo newlineStep fuel' ()).run s').2 := by
  induction fuel generalizing s s' fuel' with
  | zero => exact absurd hends.exhausted.symm Bool.false_ne_true
  | succ fuel ih =>
    obtain ⟨fuel', rfl⟩ : ∃ n, fuel' = n + 1 := ⟨fuel' - 1, by omega⟩
    have hthere := h.kind_ne hcut
    by_cases hnewline : s.current.kind = .newline
    · have hthere' : s'.current.kind ≠ .endOfInput := by
        rw [h.same_kind]
        exact hthere
      have hstep : newlineStep () s.current = some () := if_pos hnewline
      have hstep' : newlineStep () s'.current = some () := by
        rw [h.current_eq]
        exact if_pos hnewline
      rw [run_scanUpTo_succ fuel hthere hstep] at hends
      rw [run_scanUpTo_succ fuel' hthere' hstep']
      have hleads := Leading.scanUpTo newlineStep fuel () s.advanced
      rcases h.ahead with hinside | hbeyond
      · have hlined := h.lined.advanced
        have hwithin : Within o s.advanced := by
          refine ⟨hleads.exhausted hends.exhausted, fun _ => hleads.clean hends.clean, fun _ => ?_⟩
          have hlt := hlined.current_lt (hinside.kind_ne hcut)
          have hle := hlined.peek_le.trans hlined.cursor.offset_le
          rw [(advanced_spec h.lined.toInOrder).2, h.source_eq] at hle
          rw [htidy]
          exact hlt.trans_le hle
        exact ih (h.advanced hwithin) (by omega) hends
      · have hinside := hbeyond.inside h
        have hfinds := Lexer.Finds.next hinside
        refine ⟨fun o2 hf hwithin => ?_, marked_scanUpTo (h.marked.advanced hinside)
          (hfinds.source_eq ▸ hfinds.cursor) _ _ _⟩
        have hclean : s.Clean := ((Leads.advanced s).trans hleads).clean hends.clean
        have hstart : Within o2 (start o2.text) :=
          (Leading.skipNewlines (start o2.text)).within (lined_start _) hwithin
        have hmeets := hbeyond.fresh h hclean hf hstart
        have hrounds : (start o2.text).rounds ≤ fuel' := by
          have hlength := congrArg List.length hf.after_eq
          rw [List.length_append] at hlength
          have hsource : (start o2.text).lexer.source = o2.text := hmeets.source_eq
          rw [rounds, hsource]
          cases fuel with
          | zero => exact absurd hends.exhausted.symm Bool.false_ne_true
          | succ fuel => omega
        have halike : Alike o2 id (scanUpTo newlineStep (start o2.text).rounds ())
            (scanUpTo newlineStep fuel' ()) := .scanUpTo (fun _ _ => rfl) hrounds ()
        rw [entry, run_skipNewlines] at hwithin ⊢
        exact (halike.meets _ _ hmeets hwithin).2
    · have hstop : newlineStep () s.current = none := if_neg hnewline
      rw [run_scanUpTo_stop fuel (.inr hstop)] at hends
      exact absurd hends.kind_eq hthere

/-- **Moving over line ends**, to the end of the text and beyond. -/
theorem stands_skipNewlines (h : s.Meets o s') (hcut : o.whole = false)
    (htidy : o.tidy = false) (hends : Ends (skipNewlines.run s).2) :
    Stands o (skipNewlines.run s').2 := by
  rw [run_skipNewlines] at hends ⊢
  refine stands_scanUpTo h hcut htidy ?_ hends
  rw [rounds, rounds, h.source_eq, h.source_eq', Window.source, List.length_append,
    List.length_append]
  omega

/-! ## Expected tokens -/

theorem run_expect {want : TokenKind} (h : s.current.kind = want) :
    (expect want).run s = (true, s.advanced) := by
  change (ite _ _ _ : Parse Bool) s = _
  rw [if_pos h]
  rfl

theorem run_expect_of_ne {want : TokenKind} (h : s.current.kind ≠ want) :
    (expect want).run s
      = (false, s.withError s.current.position (.expectedToken want s.current.kind)) := by
  change (ite _ _ _ : Parse Bool) s = _
  rw [if_neg h]
  rfl

/-! ## Readers that cross the end -/

/-- **A reader that crosses the end of a text.** On the text alone it comes from
within the text to the end of the input and finds nothing wrong; in the source
it then stands behind the text. What is asked of the current token is `p`, and
of what the reader gives `q`. -/
structure Crosses (o : Window) (p : Token → Prop) (q : α → Prop) (e : α → γ) (m m' : Parse α) :
    Prop where
  leads : Leading m
  before : ∀ s : TokenStream, s.Lined → s.lexer.source = o.text → p s.current →
    Ends (m.run s).2 → q (m.run s).1 →
    s.current.start + (if o.tidy then 1 else 0) < o.text.length
  meets : ∀ s s' : TokenStream, s.Meets o s' → p s.current →
    Ends (m.run s).2 → q (m.run s).1 → e (m.run s).1 = e (m'.run s').1 ∧ Stands o (m'.run s').2

theorem Leading.ends {m : Parse α} (hm : Leading m) {s : TokenStream} (h : Ends (m.run s).2) :
    s.exhausted = false ∧ s.Clean :=
  ⟨(hm s).exhausted h.exhausted, (hm s).clean h.clean⟩

theorem start_lt (hs : s.Lined) (hsource : s.lexer.source = o.text)
    (hthere : s.current.kind ≠ .endOfInput) : s.current.start < o.text.length := by
  have hle := hs.peek_le.trans hs.cursor.offset_le
  rw [hsource] at hle
  exact (hs.current_lt hthere).trans_le hle

/-- A token that a text may end with, but for line ends. -/
def IsLast (t : Token) : Prop :=
  t.kind ≠ .endOfInput ∧ t.kind ≠ .newline

/-- A token that is no line end is not at the end of a text with a line end. -/
theorem start_succ_lt (hcut : o.whole = false) (hs : s.Lined) (hsource : s.lexer.source = o.text)
    (hlast : IsLast s.current) : s.current.start + 1 < o.text.length := by
  obtain ⟨cs, hcs⟩ := o.text_line hcut
  have hlt := start_lt hs hsource hlast.1
  refine lt_of_le_of_ne hlt fun hend => hlast.2 (hs.current_newline ?_)
  have hstart : s.current.start = cs.length := by
    rw [hcs, List.length_append, List.length_singleton] at hend
    omega
  rw [hsource, hcs, hstart]
  simp

theorem before_of_isLast (hcut : o.whole = false) (hs : s.Lined) (hsource : s.lexer.source = o.text)
    (hlast : IsLast s.current) :
    s.current.start + (if o.tidy then 1 else 0) < o.text.length := by
  have hlt := start_succ_lt hcut hs hsource hlast
  split
  · exact hlt
  · exact Nat.lt_of_succ_lt hlt

theorem within_of_lt {m : Parse α} (hm : Leading m) (h : Ends (m.run s).2)
    (hlt : s.current.start + (if o.tidy then 1 else 0) < o.text.length) : Within o s :=
  ⟨(hm.ends h).1, fun _ => (hm.ends h).2, fun _ => hlt⟩

namespace Crosses

variable {p : Token → Prop} {q : β → Prop} {e : α → γ} {e' : β → δ}

/-- Composition, where something is known of the token in between. -/
theorem bindOf (p' : Token → Prop) {m m' : Parse α} {f f' : α → Parse β} (hm : Alike o e m m')
    (hp : ∀ s, p s.current → (m.run s).2.exhausted = false → p' (m.run s).2.current)
    (hf : ∀ a a', e a = e a' → Crosses o p' q e' (f a) (f' a')) :
    Crosses o p q e' (m >>= f) (m' >>= f') where
  leads := .bind hm.leads fun a => (hf a a rfl).leads
  before s hs hsource ht hends hq := by
    have hleads := hm.leads s
    have hbetween := hp s ht ((hf _ _ rfl).leads.ends hends).1
    exact Nat.lt_of_le_of_lt (Nat.add_le_add_right (hleads.start_le hs) _)
      ((hf _ _ rfl).before _ (hleads.lined hs) ((hleads.source_eq hs).trans hsource) hbetween hends
        hq)
  meets s s' hs ht hends hq := by
    have hleads := hm.leads s
    have hbetween := hp s ht ((hf _ _ rfl).leads.ends hends).1
    have hlt := (hf _ _ rfl).before _ (hleads.lined hs.lined)
      ((hleads.source_eq hs.lined).trans hs.source_eq) hbetween hends hq
    obtain ⟨heq, hs'⟩ := hm.meets s s' hs (within_of_lt (hf _ _ rfl).leads hends hlt)
    exact (hf _ _ heq).meets _ _ hs' hbetween hends hq

theorem bind {m m' : Parse α} {f f' : α → Parse β} (hm : Alike o e m m')
    (hf : ∀ a a', e a = e a' → Crosses o (fun _ => True) q e' (f a) (f' a')) :
    Crosses o p q e' (m >>= f) (m' >>= f') :=
  bindOf (fun _ => True) hm (fun _ _ _ => trivial) hf

theorem next {m m' : Parse α} {f f' : α → Parse β} (hm : Alike o id m m')
    (hf : ∀ a, Crosses o (fun _ => True) q e' (f a) (f' a)) :
    Crosses o p q e' (m >>= f) (m' >>= f') :=
  bind hm fun a a' h => by
    cases (show a = a' from h)
    exact hf a

/-- Behind a reader that crosses the end nothing is read, or something is wrong. -/
theorem andThen {r : α → Prop} {m m' : Parse α} {f f' : α → Parse β} (hm : Crosses o p r e m m')
    (hlead : ∀ a, Leading (f a))
    (hr : ∀ s : TokenStream, Ends ((m >>= f).run s).2 → q ((m >>= f).run s).1 → r (m.run s).1)
    (hf : ∀ a a', r a → e a = e a' →
      ∃ b b', f a = Pure.pure b ∧ f' a' = Pure.pure b' ∧ e' b = e' b') :
    Crosses o p q e' (m >>= f) (m' >>= f') := by
  have hback : ∀ s, Ends ((m >>= f).run s).2 → q ((m >>= f).run s).1 →
      r (m.run s).1 ∧ Ends (m.run s).2 := fun s hends hq => by
    have hgiven := hr s hends hq
    obtain ⟨b, -, hb, -⟩ := hf _ _ hgiven rfl
    rw [run_bind_eq rfl, hb] at hends
    exact ⟨hgiven, hends⟩
  refine ⟨.bind hm.leads hlead, fun s hs hsource ht hends hq => ?_, fun s s' hs ht hends hq => ?_⟩
  · obtain ⟨hgiven, hends'⟩ := hback s hends hq
    exact hm.before s hs hsource ht hends' hgiven
  · obtain ⟨hgiven, hends'⟩ := hback s hends hq
    obtain ⟨heq, hstands⟩ := hm.meets s s' hs ht hends' hgiven
    obtain ⟨b, b', hb, hb', hshow⟩ := hf _ _ hgiven heq
    rw [run_bind_eq rfl, run_bind_eq rfl, hb, hb']
    exact ⟨hshow, hstands⟩

theorem andPure {r : α → Prop} {m m' : Parse α} {g : α → β} (hm : Crosses o p r e m m')
    (hg : ∀ a a', e a = e a' → e' (g a) = e' (g a')) (hq : ∀ a, q (g a) → r a) :
    Crosses o p q e' (m >>= fun a => Pure.pure (g a)) (m' >>= fun a => Pure.pure (g a)) :=
  andThen hm (fun _ => .pure _) (fun _ _ h => hq _ h) fun a a' _ h => ⟨g a, g a', rfl, rfl, hg _ _ h⟩

/-- Behind a reader that may fail, what it gives is only wrapped up. -/
theorem mapSome {m m' : Parse (Option α)} {f f' : Option α → Parse (Option σ)} {g g' : α → σ}
    {q : Option σ → Prop} {e' : Option σ → δ} (hm : Crosses o p (·.isSome) (Option.map e) m m')
    (hnone : f none = Pure.pure none) (hsome : ∀ a, f (some a) = Pure.pure (some (g a)))
    (hsome' : ∀ a, f' (some a) = Pure.pure (some (g' a))) (hq : ¬ q none)
    (hg : ∀ a a', e a = e a' → e' (some (g a)) = e' (some (g' a'))) :
    Crosses o p q e' (m >>= f) (m' >>= f') := by
  refine andThen hm (fun a => ?_) (fun s _ hgiven => ?_) fun a a' hgiven h => ?_
  · cases a with
    | none => exact hnone ▸ .pure _
    | some a => exact hsome a ▸ .pure _
  · cases hr : (m.run s).1 with
    | none =>
      rw [run_bind_eq hr, hnone] at hgiven
      exact absurd hgiven hq
    | some a => rfl
  · cases a with
    | none => cases hgiven
    | some a =>
      cases a' with
      | none => cases h
      | some a' => exact ⟨_, _, hsome a, hsome' a', hg a a' (Option.some.inj h)⟩

/-- A reader that does not give what is asked for. -/
theorem of_not {m m' : Parse β} (hm : Leading m)
    (hq : ∀ s : TokenStream, s.Lined → s.lexer.source = o.text → p s.current → ¬ q (m.run s).1) :
    Crosses o p q e' m m' :=
  ⟨hm, fun s hs hsource ht _ h => absurd h (hq s hs hsource ht),
    fun s _ hs ht _ h => absurd h (hq s hs.lined hs.source_eq ht)⟩

theorem pure_of_not {a : β} {m' : Parse β} (hq : ¬ q a) : Crosses o p q e' (Pure.pure a) m' :=
  of_not (.pure a) fun _ _ _ _ => hq

/-- A reader that notes a fault. -/
theorem reportAt {place : Position} {f : GrammarFault} {g : Unit → Parse β} (hg : ∀ u, Leading (g u))
    {m' : Parse β} : Crosses o p q e' (Parse.reportAt place f >>= g) m' := by
  have hfault : ∀ s, ¬ Ends ((Parse.reportAt place f >>= g).run s).2 := fun s hends => by
    have hclean := (hg () (s.withError place f)).clean hends.clean
    exact absurd hclean.diagnostics (List.append_ne_nil_of_right_ne_nil _ (List.cons_ne_nil _ _))
  exact ⟨.bind (.reportAt place f) hg, fun s _ _ _ hends => absurd hends (hfault s),
    fun s _ _ _ hends => absurd hends (hfault s)⟩

theorem report {f : GrammarFault} {g : Unit → Parse β} (hg : ∀ u, Leading (g u)) {m' : Parse β} :
    Crosses o p q e' (Parse.report f >>= g) m' :=
  have hat := fun s : TokenStream =>
    show Crosses o p q e' (Parse.reportAt s.current.position f >>= g) m' from reportAt hg
  ⟨.bind (Alike.report (o := o) f).leads hg, fun s => (hat s).before s,
    fun s => (hat s).meets s⟩

/-- A bound that is met. -/
theorem exhaust {a : β} {m' : Parse β} :
    Crosses o p q e' (Parse.exhaust >>= fun _ => Pure.pure a) m' :=
  ⟨.exhaust a, fun _ _ _ _ hends => absurd hends.exhausted.symm Bool.false_ne_true,
    fun _ _ _ _ hends => absurd hends.exhausted.symm Bool.false_ne_true⟩

theorem option {m m' : Parse (Option α)} {f f' : Option α → Parse β}
    (hm : Alike o (Option.map e) m m')
    (hnone : ∀ f', Crosses o (fun _ => True) q e' (f none) f')
    (hsome : ∀ a a', e a = e a' → Crosses o (fun _ => True) q e' (f (some a)) (f' (some a'))) :
    Crosses o p q e' (m >>= f) (m' >>= f') :=
  bind hm fun a a' h => by
    cases a with
    | none => exact hnone _
    | some a =>
      cases a' with
      | none => cases h
      | some a' => exact hsome a a' (Option.some.inj h)

theorem ite {c : Prop} [Decidable c] {m m' n n' : Parse β} (hm : c → Crosses o p q e' m m')
    (hn : ¬ c → Crosses o p q e' n n') :
    Crosses o p q e' (if c then m else n) (if c then m' else n') := by
  split
  · next h => exact hm h
  · next h => exact hn h

/-- The current token, of which `p` is known, and where it stands. -/
theorem currentIn {f f' : Token → Parse β} (hlead : ∀ t, Leading (f t))
    (hf : ∀ t, p t → t.start ≤ o.text.length →
      (t.kind ≠ .endOfInput → t.start < o.text.length) →
      Crosses o (· = t) q e' (f t) (f' (o.token t))) :
    Crosses o p q e' (Parse.current >>= f) (Parse.current >>= f') where
  leads := .bind .current hlead
  before s hs hsource hp hends hq :=
    (hf _ hp (hsource ▸ hs.current_le_length) (start_lt hs hsource)).before s hs hsource rfl hends hq
  meets s s' hs hp hends hq := by
    have hrun : (Parse.current >>= f').run s' = (f' (o.token s.current)).run s' := by
      rw [← hs.current_eq]
      rfl
    rw [hrun]
    exact (hf _ hp hs.start_le hs.start_lt).meets s s' hs rfl hends hq

theorem currentAny {f f' : Token → Parse β}
    (hf : ∀ t, Crosses o p q e' (f t) (f' (o.token t))) :
    Crosses o p q e' (Parse.current >>= f) (Parse.current >>= f') where
  leads := .bind .current fun t => (hf t).leads
  before s hs hsource hp hends hq := (hf _).before s hs hsource hp hends hq
  meets s s' hs hp hends hq := by
    have hrun : (Parse.current >>= f').run s' = (f' (o.token s.current)).run s' := by
      rw [← hs.current_eq]
      rfl
    rw [hrun]
    exact (hf _).meets s s' hs hp hends hq

theorem kind {f f' : TokenKind → Parse β} (hf : ∀ k, Crosses o p q e' (f k) (f' k)) :
    Crosses o p q e' (Parse.kind >>= f) (Parse.kind >>= f') :=
  show Crosses o p q e' (Parse.current >>= fun t => f t.kind) (Parse.current >>= fun t => f' t.kind)
    from currentAny fun t => hf t.kind

theorem position {f f' : Position → Parse β}
    (hf : ∀ place, Crosses o p q e' (f place) (f' (o.place place))) :
    Crosses o p q e' (Parse.position >>= f) (Parse.position >>= f') :=
  show Crosses o p q e' (Parse.current >>= fun t => f t.position)
    (Parse.current >>= fun t => f' t.position) from currentAny fun t => hf t.position

/-- More may be asked. -/
theorem of {p' : Token → Prop} {q' : β → Prop} {m m' : Parse β} (h : Crosses o p q e' m m')
    (hp : ∀ t, p' t → p t) (hq : ∀ b, q' b → q b) : Crosses o p' q' e' m m' :=
  ⟨h.leads, fun s hs hsource ht hends hb => h.before s hs hsource (hp _ ht) hends (hq _ hb),
    fun s s' hs ht hends hb => h.meets s s' hs (hp _ ht) hends (hq _ hb)⟩

theorem depth {f f' : TokenStream → Parse β}
    (hf : ∀ s s' : TokenStream, s.depth ≤ s'.depth → Crosses o p q e' (f s) (f' s')) :
    Crosses o p q e' (get >>= f) (get >>= f') where
  leads s := (hf s s le_rfl).leads s
  before s := (hf s s le_rfl).before s
  meets s s' hs := (hf s s' (Nat.mul_le_mul_left 4
    (Nat.add_le_add_right (Alike.source_length_le hs) 2))).meets s s' hs

/-! ### Over a token and line ends -/

/-- **Over a token and the line ends behind it**, to the end of the text and
beyond. -/
theorem stands_advanceLine (h : s.Meets o s') (hcut : o.whole = false) (hlast : IsLast s.current)
    (hends : Ends (advanceLine.run s).2) : Stands o (advanceLine.run s').2 := by
  have hends' : Ends (skipNewlines.run s.advanced).2 := hends
  have huntidy := h.untidy
  have hinside : LooksInside o.untidy s s' :=
    huntidy.ahead.resolve_right fun hb => hlast.2 hb.kind_eq
  have hlined := h.lined.advanced
  obtain ⟨hexhausted, hclean⟩ := Leading.skipNewlines.ends hends'
  have hwithin : Within o.untidy s.advanced := by
    refine ⟨hexhausted, fun _ => hclean, fun _ => ?_⟩
    have hlt := hlined.current_lt (hinside.kind_ne hcut)
    have hle := hlined.peek_le.trans hlined.cursor.offset_le
    rw [(advanced_spec h.lined.toInOrder).2, h.source_eq] at hle
    exact hlt.trans_le hle
  exact (stands_skipNewlines (o := o.untidy) (huntidy.advanced hwithin) hcut rfl hends').of_untidy

theorem advanceLine (hcut : o.whole = false) {a a' : β} (h : e' a = e' a') :
    Crosses o IsLast q e' (Parse.advanceLine >>= fun _ => Pure.pure a)
      (Parse.advanceLine >>= fun _ => Pure.pure a') where
  leads := .bind .advanceLine fun _ => .pure a
  before _ hs hsource hlast _ _ := before_of_isLast hcut hs hsource hlast
  meets _ _ hs hlast hends _ := ⟨h, stands_advanceLine hs hcut hlast hends⟩

/-- **Over line ends**, where comments do not count. -/
theorem skipNewlines (hcut : o.whole = false) (htidy : o.tidy = false) {a a' : β}
    (h : e' a = e' a') :
    Crosses o (·.kind ≠ .endOfInput) q e' (Parse.skipNewlines >>= fun _ => Pure.pure a)
      (Parse.skipNewlines >>= fun _ => Pure.pure a') where
  leads := .bind .skipNewlines fun _ => .pure a
  before _ hs hsource hthere _ _ := by
    rw [htidy]
    exact start_lt hs hsource hthere
  meets _ _ hs _ hends _ := ⟨h, stands_skipNewlines hs hcut htidy hends⟩

/-- **Over a token**, which is not the last character of the text. -/
theorem advance (hcut : o.whole = false) (htidy : o.tidy = false) {m m' : Parse β}
    (hm : Crosses o (·.kind ≠ .endOfInput) q e' m m') :
    Crosses o IsLast q e' (Parse.advance >>= fun _ => m) (Parse.advance >>= fun _ => m') where
  leads := .bind .advance fun _ => hm.leads
  before _ hs hsource hlast _ _ := before_of_isLast hcut hs hsource hlast
  meets s s' hs hlast hends hq := by
    have hinside : LooksInside o s s' := hs.ahead.resolve_right fun hb => hlast.2 hb.kind_eq
    have hlined := hs.lined.advanced
    have hsource := (advanced_spec hs.lined.toInOrder).2.trans hs.source_eq
    have hthere := hinside.kind_ne hcut
    have hwithin : Within o s.advanced := by
      refine within_of_lt hm.leads hends ?_
      rw [htidy]
      exact start_lt hlined hsource hthere
    exact hm.meets _ _ (hs.advanced hwithin) hthere hends hq

/-- **A token that is expected**, and what is read from there on. -/
theorem expectOf {want : TokenKind} {f f' : Bool → Parse β} (hlead : Leading (f false))
    (hm : Crosses o (·.kind = want) q e' (Parse.advance >>= fun _ => f true)
      (Parse.advance >>= fun _ => f' true)) :
    Crosses o p q e' (Parse.expect want >>= f) (Parse.expect want >>= f') := by
  have hfound : ∀ {g : Bool → Parse β} (s : TokenStream), s.current.kind = want →
      (Parse.expect want >>= g).run s = (Parse.advance >>= fun _ => g true).run s := by
    intro g s hkind
    rw [StateT.run_bind, run_expect hkind]
    rfl
  have hmissing : ∀ s : TokenStream, s.current.kind ≠ want →
      ¬ Ends ((Parse.expect want >>= f).run s).2 := by
    intro s hkind hends
    rw [StateT.run_bind, run_expect_of_ne hkind] at hends
    have hclean := (hlead _).clean hends.clean
    exact absurd hclean.diagnostics (List.append_ne_nil_of_right_ne_nil _ (List.cons_ne_nil _ _))
  refine ⟨fun s => ?_, fun s hs hsource _ hends hq => ?_, fun s s' hs _ hends hq => ?_⟩
  · by_cases hkind : s.current.kind = want
    · rw [hfound s hkind]
      exact hm.leads s
    · rw [StateT.run_bind, run_expect_of_ne hkind]
      exact (Leading.reportAt _ _ s).trans (hlead _)
  · by_cases hkind : s.current.kind = want
    · rw [hfound s hkind] at hends hq
      exact hm.before s hs hsource hkind hends hq
    · exact absurd hends (hmissing s hkind)
  · by_cases hkind : s.current.kind = want
    · rw [hfound s hkind] at hends hq ⊢
      rw [hfound s' (hs.same_kind.trans hkind)]
      exact hm.meets s s' hs hkind hends hq
    · exact absurd hends (hmissing s hkind)

/-- **A token that is expected**, with the line ends behind it. -/
theorem expect (hcut : o.whole = false) {want : TokenKind} (hwant : want ≠ .endOfInput)
    (hnewline : want ≠ .newline) {f f' : Bool → Parse β} {a a' : β} (h : e' a = e' a')
    (hlead : Leading (f false)) (hf : f true = Parse.skipNewlines >>= fun _ => Pure.pure a)
    (hf' : f' true = Parse.skipNewlines >>= fun _ => Pure.pure a') :
    Crosses o p q e' (Parse.expect want >>= f) (Parse.expect want >>= f') := by
  have hline := advanceLine (q := q) hcut h
  rw [Parse.advanceLine, bind_assoc, bind_assoc, ← hf, ← hf'] at hline
  refine expectOf hlead (hline.of (fun t ht => ?_) fun _ => id)
  rw [IsLast, ht]
  exact ⟨hwant, hnewline⟩

theorem expectLine (hcut : o.whole = false) {want : TokenKind} (hwant : want ≠ .endOfInput)
    (hnewline : want ≠ .newline) {f f' : Bool → Parse β} {a a' : β} (h : e' a = e' a')
    (hlead : Leading (f false)) (hf : f true = Pure.pure a) (hf' : f' true = Pure.pure a') :
    Crosses o p q e' (Parse.expectLine want >>= f) (Parse.expectLine want >>= f') := by
  rw [Parse.expectLine, bind_assoc, bind_assoc]
  refine expect hcut hwant hnewline h ?_ ?_ ?_
  · simpa only [Bool.false_eq_true, if_false, pure_bind] using hlead
  all_goals simp only [if_true, bind_assoc, pure_bind, hf, hf']

end Crosses

end Parse

end Gsx
