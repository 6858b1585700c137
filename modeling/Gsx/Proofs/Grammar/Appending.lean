import Gsx.Proofs.Grammar.Endings
import Gsx.Proofs.Grammar.Termination
/-!
# Appending to a file

A file with nothing wrong is read the same whatever text follows it, and the
text is read as if it stood alone behind a package clause. One stream reads the
file alone, the other one file and text. Up to the end of the file the two are
at one place; from there on the second one is where reading the text alone would
be.
-/

namespace Gsx

namespace Parse

open TokenStream

variable {α β γ δ : Type} {o : Window} {s s' t : TokenStream}

/-! ## At the first token of the text -/

theorem skipNewlines_eq (h : s.current.kind ≠ .newline) : skipNewlines.run s = ((), s) := by
  rw [run_skipNewlines]
  exact run_scanUpTo_stop _ (.inr (if_neg h))

theorem forward_keeps {m : Parse α} (hm : Forward s.remaining m) (hs : s.InOrder)
    (h : s.exhausted = false) : (m.run s).2.InOrder ∧ (m.run s).2.exhausted = false := by
  have hpath := (hm s hs le_rfl trivial).1
  exact ⟨hpath.inOrder hs, hpath.exhausted_eq.trans h⟩

theorem kind_skipNewlines (h : (skipNewlines.run s).2.exhausted = false) :
    (skipNewlines.run s).2.current.kind ≠ .newline := by
  rw [run_skipNewlines] at h ⊢
  rcases scanUpTo_stops h with hend | hstop
  · rw [hend]
    decide
  · intro hnewline
    rw [newlineStep, if_pos hnewline] at hstop
    cases hstop

theorem entry_keeps (w : List Char) : (entry w).InOrder ∧ (entry w).exhausted = false := by
  have hexhausted : (start w).exhausted = false := by rw [start_eq]
  rw [entry]
  exact forward_keeps forward_skipNewlines (lined_start w).toInOrder hexhausted

theorem declarations_keep (w : List Char) :
    (declarations.run (entry w)).2.InOrder ∧ (declarations.run (entry w)).2.exhausted = false :=
  forward_keeps (m := declarations) (s := entry w) forward_declarations (entry_keeps w).1
    (entry_keeps w).2

theorem kind_entry_ne (w : List Char) : (entry w).current.kind ≠ .newline := by
  have hexhausted := (entry_keeps w).2
  rw [entry] at hexhausted ⊢
  exact kind_skipNewlines hexhausted

/-! ## Reading a file in parts -/

/-- The stream in front of the package clause. -/
def atPackage (s : TokenStream) : TokenStream :=
  (leadingComments.run (skipNewlines.run s).2).2

/-- The stream in front of the imports. -/
def atImports (s : TokenStream) : TokenStream :=
  (skipNewlines.run (packageName.run (atPackage s)).2).2

/-- The stream in front of the declarations. -/
def atDeclarations (s : TokenStream) : TokenStream :=
  (skipNewlines.run (imports.run (skipNewlines.run (packageName.run (atPackage s)).2).2).2).2

/-- The stream behind declarations. -/
def behindDeclarations (s : TokenStream) : TokenStream :=
  (orphanComments.run (declarations.run s).2).2

theorem run_position : position.run s = (s.current.position, s) :=
  rfl

theorem sourceFile_of_none (h : (packageName.run (atPackage s)).1 = none) :
    ∃ t, sourceFile.run s = (none, t) := by
  rw [sourceFile, run_bind_eq rfl, run_position, run_bind_eq rfl, run_bind_eq rfl, ← atPackage,
    run_bind_eq h]
  exact ⟨_, StateT.run_pure _ _⟩

theorem sourceFile_of_some {package : String}
    (h : (packageName.run (atPackage s)).1 = some package) :
    ∃ file, sourceFile.run s = (some file, behindDeclarations (atDeclarations s))
      ∧ file.imports = (imports.run (atImports s)).1
      ∧ file.components = (declarations.run (atDeclarations s)).1.filterMap Declaration.component?
      ∧ file.funcs = (declarations.run (atDeclarations s)).1.filterMap Declaration.func?
      ∧ file.decls = (declarations.run (atDeclarations s)).1.filterMap Declaration.decl? := by
  rw [sourceFile, run_bind_eq rfl, run_position, run_bind_eq rfl, run_bind_eq rfl, ← atPackage,
    run_bind_eq h]
  simp only
  rw [run_bind_eq rfl, ← atImports, run_bind_eq rfl, run_bind_eq rfl, atDeclarations, ← atImports,
    run_bind_eq rfl, run_bind_eq rfl, behindDeclarations]
  generalize imports.run (atImports s) = is
  generalize declarations.run _ = ds
  generalize orphanComments.run _ = gs
  exact ⟨_, rfl, rfl, rfl, rfl, rfl⟩

/-! ## A file and what follows it -/

/-- **A text alone, and a text that something follows.** Up to the end of the text
the two streams are at one place; then the second one stands behind it. -/
structure Joined (o : Window) (s s' : TokenStream) : Prop where
  lined : s.Lined
  source_eq : s.lexer.source = o.text
  meets : s.current.kind ≠ .endOfInput → s.Meets o s'
  stands : s.current.kind = .endOfInput → Stands o s'

/-- Nothing has been found wrong so far. -/
structure Fine (s : TokenStream) : Prop where
  exhausted : s.exhausted = false
  clean : s.Clean

theorem Leading.fine {m : Parse α} (hm : Leading m) (h : Fine (m.run s).2) : Fine s :=
  ⟨(hm s).exhausted h.exhausted, (hm s).clean h.clean⟩

theorem Fine.atDeclarations (o : Window) (h : Fine (atDeclarations s)) : Fine s := by
  have hpackage := Leading.skipNewlines.fine <|
    (Alike.repeated (o := o) Alike.importRound).leads.fine <| Leading.skipNewlines.fine h
  exact Leading.skipNewlines.fine <| Leading.leadingComments.fine <|
    (Alike.packageName (o := o)).leads.fine hpackage

theorem within_of_whole (hwhole : o.whole = true) (h : s.exhausted = false) : Within o s :=
  ⟨h, fun hcut => absurd hwhole (Bool.eq_false_iff.1 hcut),
    fun hcut => absurd hwhole (Bool.eq_false_iff.1 hcut)⟩

section

variable (hcut : o.whole = false)

/-- **Behind a text a stream is at the first token of what follows**, all of which is
looked at. -/
theorem meets_rest (h : Stands o s') : (entry o.after).Meets (o.rest hcut) s' :=
  h.meets _ (o.follows_rest hcut) (within_of_whole rfl (entry_keeps _).2)

include hcut

/-- Behind the end of the text the kind of the token is that of the first token behind. -/
theorem Joined.kind_eq (h : Joined o s s') (hend : s.current.kind = .endOfInput) :
    s'.current.kind = (entry o.after).current.kind :=
  (meets_rest hcut (h.stands hend)).same_kind

/-- The bound on rounds grows with what follows the text. -/
theorem Joined.rounds_le (h : Joined o s s') : s.rounds + o.after.length ≤ s'.rounds := by
  have hsource : s'.lexer.source = o.source := by
    by_cases hend : s.current.kind = .endOfInput
    · rw [(meets_rest hcut (h.stands hend)).source_eq', (o.follows_rest hcut).source_eq]
    · exact (h.meets hend).source_eq'
  rw [rounds, rounds, h.source_eq, hsource, Window.source, List.length_append, List.length_append]
  omega

end

section

variable (hcut : o.whole = false) (htidy : o.tidy = false)

include htidy

/-- A reader that goes alike keeps the streams joined in the text. -/
theorem Joined.alike {e : α → γ} {m m' : Parse α} (h : Joined o s s')
    (hthere : s.current.kind ≠ .endOfInput) (halike : Alike o e m m') (hfine : Fine (m.run s).2)
    (hstill : (m.run s).2.current.kind ≠ .endOfInput) :
    e (m.run s).1 = e (m'.run s').1 ∧ Joined o (m.run s).2 (m'.run s').2 := by
  have hleads := halike.leads s
  have hlined := hleads.lined h.lined
  have hsource := (hleads.source_eq h.lined).trans h.source_eq
  have hwithin : Within o (m.run s).2 := by
    refine ⟨hfine.exhausted, fun _ => hfine.clean, fun _ => ?_⟩
    rw [htidy]
    exact start_lt hlined hsource hstill
  obtain ⟨heq, hs'⟩ := halike.meets s s' (h.meets hthere) hwithin
  exact ⟨heq, hlined, hsource, fun _ => hs', fun hend => absurd hend hstill⟩

/-- **A reader that goes alike and crosses the end** keeps the streams joined. -/
theorem Joined.step {p : Token → Prop} {q : α → Prop} {e : α → γ} {m m' : Parse α}
    (h : Joined o s s') (hthere : s.current.kind ≠ .endOfInput) (halike : Alike o e m m')
    (hcross : Crosses o p q e m m') (hp : p s.current) (hfine : Fine (m.run s).2)
    (hq : q (m.run s).1) :
    e (m.run s).1 = e (m'.run s').1 ∧ Joined o (m.run s).2 (m'.run s').2 := by
  by_cases hend : (m.run s).2.current.kind = .endOfInput
  · have hleads := halike.leads s
    obtain ⟨heq, hstands⟩ :=
      hcross.meets s s' (h.meets hthere) hp ⟨hfine.exhausted, hfine.clean, hend⟩ hq
    exact ⟨heq, hleads.lined h.lined, (hleads.source_eq h.lined).trans h.source_eq,
      fun hne => absurd hend hne, fun _ => hstands⟩
  · exact h.alike htidy hthere halike hfine hend

include hcut

theorem Joined.skipNewlines (h : Joined o s s') (hfine : Fine (skipNewlines.run s).2) :
    Joined o (skipNewlines.run s).2 (skipNewlines.run s').2 := by
  by_cases hend : s.current.kind = .endOfInput
  · have hnewline : s.current.kind ≠ .newline := by
      rw [hend]
      decide
    have hnewline' : s'.current.kind ≠ .newline := by
      rw [h.kind_eq hcut hend]
      exact kind_entry_ne _
    rw [skipNewlines_eq hnewline, skipNewlines_eq hnewline']
    exact h
  · have hcross : Crosses o (·.kind ≠ .endOfInput) (fun _ => True) id
        (Parse.skipNewlines >>= fun _ => Pure.pure ())
        (Parse.skipNewlines >>= fun _ => Pure.pure ()) := .skipNewlines hcut htidy rfl
    rw [bind_pure_unit] at hcross
    exact (h.step htidy hend .skipNewlines hcross hend hfine trivial).2

/-! ### Imports -/

omit hcut htidy in
theorem importRound_last (h : s.current.kind ≠ .importWord) :
    importRound.run s = (Round.last [], s) := by
  change StateT.run (ite _ _ _) s = _
  rw [if_neg h]
  rfl

omit hcut htidy in
theorem again_bind {m : Parse α} {f : α → Parse (Round β)}
    (hf : ∀ a t, ((f a).run t).1.again = true) (s : TokenStream) :
    ((m >>= f).run s).1.again = true :=
  hf _ _

omit hcut htidy in
theorem again_importRound (h : s.current.kind = .importWord) :
    (importRound.run s).1.again = true := by
  rw [importRound, run_bind_eq (show (kind.run s).1 = _ from h), if_pos rfl]
  refine again_bind (fun _ => again_bind fun k t => ?_) _
  split
  · exact again_bind (fun _ => again_bind fun _ => again_bind fun _ => again_bind fun _ _ => rfl) _
  · exact again_bind (fun _ => again_bind fun _ _ => rfl) _

omit hcut htidy in
theorem run_repeated {round : Parse (Round α)} :
    (repeated round).run s = (repeatUpTo round s.rounds).run s :=
  rfl

omit hcut htidy in
/-- A repetition goes on behind a round that says so. -/
theorem repeatUpTo_again {round : Parse (Round α)} (fuel : Nat)
    (h : (round.run s).1.again = true) :
    (repeatUpTo round (fuel + 1)).run s
      = ((round.run s).1.items ++ ((repeatUpTo round fuel).run (round.run s).2).1,
          ((repeatUpTo round fuel).run (round.run s).2).2) := by
  rw [repeatUpTo, run_bind_eq rfl, if_pos h]
  rfl

omit hcut htidy in
theorem repeatUpTo_last {round : Parse (Round α)} (fuel : Nat)
    (h : (round.run s).1.again = false) :
    (repeatUpTo round (fuel + 1)).run s = ((round.run s).1.items, (round.run s).2) := by
  rw [repeatUpTo, run_bind_eq rfl, if_neg (Bool.eq_false_iff.1 h)]
  rfl

/-- Behind the end of the file there are no imports, if the text has none. -/
theorem Joined.importsUpTo (himport : (entry o.after).current.kind ≠ .importWord)
    {fuel fuel' : Nat} (hfuel : fuel ≤ fuel') (h : Joined o s s')
    (hfine : Fine ((repeatUpTo importRound fuel).run s).2) :
    Joined o ((repeatUpTo importRound fuel).run s).2
      ((repeatUpTo importRound fuel').run s').2 := by
  induction fuel generalizing fuel' s s' with
  | zero => exact absurd hfine.exhausted.symm Bool.false_ne_true
  | succ fuel ih =>
    obtain ⟨fuel', rfl⟩ : ∃ n, fuel' = n + 1 := ⟨fuel' - 1, by omega⟩
    by_cases hkind : s.current.kind = .importWord
    · have hthere : s.current.kind ≠ .endOfInput := by
        rw [hkind]
        decide
      have hmeets := h.meets hthere
      have hkind' : s'.current.kind = .importWord := by
        rw [hmeets.same_kind]
        exact hkind
      rw [repeatUpTo_again fuel (again_importRound hkind)] at hfine ⊢
      rw [repeatUpTo_again fuel' (again_importRound hkind')]
      have hleads : Leading (repeatUpTo importRound fuel) :=
        (Alike.repeatUpTo (o := o) Alike.importRound le_rfl).leads
      have hround := h.step htidy hthere Alike.importRound
        (.importRound (p := fun _ => True) hcut htidy) trivial (hleads.fine hfine) (again_importRound hkind)
      exact ih (Nat.le_of_succ_le_succ hfuel) hround.2 hfine
    · have hkind' : s'.current.kind ≠ .importWord := by
        by_cases hend : s.current.kind = .endOfInput
        · rw [h.kind_eq hcut hend]
          exact himport
        · rw [(h.meets hend).same_kind]
          exact hkind
      rw [repeatUpTo_last fuel (by rw [importRound_last hkind]; rfl),
        repeatUpTo_last fuel' (by rw [importRound_last hkind']; rfl), importRound_last hkind,
        importRound_last hkind']
      exact h

/-! ### Declarations -/

omit hcut htidy in
theorem declarationRound_last (h : (skipNewlines.run s).2.current.kind = .endOfInput) :
    declarationRound.run s = (Round.last [], (skipNewlines.run s).2) := by
  rw [declarationRound, run_bind_eq rfl, run_bind_eq (show (kind.run _).1 = _ from h), if_pos rfl]
  rfl

omit hcut htidy in
theorem again_declarationRound (h : (skipNewlines.run s).2.current.kind ≠ .endOfInput) :
    (declarationRound.run s).1.again = true := by
  rw [declarationRound, run_bind_eq rfl, run_bind_eq rfl,
    if_neg (show ¬ (kind.run _).1 = _ from h)]
  refine again_bind (fun _ => again_bind fun d t => ?_) _
  cases d with
  | none => exact again_bind (fun _ _ => rfl) _
  | some d => rfl

omit hcut htidy in
/-- The first round moves over line ends anyway. -/
theorem repeatUpTo_skipNewlines (fuel : Nat)
    (h : (skipNewlines.run s).2.current.kind ≠ .newline) :
    (repeatUpTo declarationRound (fuel + 1)).run s
      = (repeatUpTo declarationRound (fuel + 1)).run (skipNewlines.run s).2 := by
  have hround : declarationRound.run s = declarationRound.run (skipNewlines.run s).2 := by
    rw [declarationRound, run_bind_eq rfl, run_bind_eq (m := skipNewlines) rfl, skipNewlines_eq h]
  rw [repeatUpTo, StateT.run_bind, StateT.run_bind, hround]

/-- **A round of declarations** that finds one in the file. -/
theorem Joined.round (h : Joined o s s')
    (hend : (Parse.skipNewlines.run s).2.current.kind ≠ .endOfInput)
    (hfine : Fine (declarationRound.run s).2)
    (hcomplete : ∀ d ∈ (declarationRound.run s).1.items, ¬ d.RunsOut o.text) :
    Alike.showRound (Declaration.plain false) (declarationRound.run s).1
        = Alike.showRound (Declaration.plain false) (declarationRound.run s').1
      ∧ Joined o (declarationRound.run s).2 (declarationRound.run s').2 := by
  have hthere : s.current.kind ≠ .endOfInput := fun hkind => by
    have hnewline : s.current.kind ≠ .newline := by
      rw [hkind]
      decide
    rw [skipNewlines_eq hnewline] at hend
    exact hend hkind
  have hcross := Crosses.declarationRound (p := (·.kind ≠ .endOfInput)) hcut htidy
  have hstep := h.step htidy hthere Alike.declarationRound hcross hthere hfine
    ⟨again_declarationRound hend, hcomplete⟩
  rwa [htidy] at hstep

/-- **Declarations of the file, then those of the text.** -/
theorem Joined.declarationsUpTo {fuel fuel' : Nat} (hfuel : fuel + o.after.length ≤ fuel')
    (h : Joined o s s') (hfine : Fine ((repeatUpTo declarationRound fuel).run s).2)
    (hcomplete : ∀ d ∈ ((repeatUpTo declarationRound fuel).run s).1, ¬ d.RunsOut o.text) :
    ((repeatUpTo declarationRound fuel').run s').1.map (Declaration.plain false)
        = ((repeatUpTo declarationRound fuel).run s).1.map (Declaration.plain false)
          ++ (declarations.run (entry o.after)).1.map (Declaration.plain false)
      ∧ (declarations.run (entry o.after)).2.Meets (o.rest hcut)
          ((repeatUpTo declarationRound fuel').run s').2 := by
  induction fuel generalizing fuel' s s' with
  | zero => exact absurd hfine.exhausted.symm Bool.false_ne_true
  | succ fuel ih =>
    obtain ⟨fuel', rfl⟩ : ∃ n, fuel' = n + 1 := ⟨fuel' - 1, by omega⟩
    have hlead : Leading (repeatUpTo declarationRound fuel) :=
      (Alike.repeatUpTo (o := o) Alike.declarationRound le_rfl).leads
    by_cases hend : (Parse.skipNewlines.run s).2.current.kind = .endOfInput
    · have hround := declarationRound_last hend
      rw [repeatUpTo_last fuel (by rw [hround]; rfl), hround] at hfine hcomplete ⊢
      have hstands := meets_rest hcut ((h.skipNewlines hcut htidy hfine).stands hend)
      have hnewline : (Parse.skipNewlines.run s').2.current.kind ≠ .newline := by
        rw [hstands.same_kind]
        exact kind_entry_ne _
      rw [repeatUpTo_skipNewlines fuel' hnewline]
      have hrounds : (entry o.after).rounds ≤ fuel' + 1 := by
        rw [rounds, hstands.source_eq]
        change o.after.length + 1 ≤ _
        omega
      have halike := Alike.repeatUpTo (o := o.rest hcut) Alike.declarationRound hrounds
      have hwithin : Within (o.rest hcut) (declarations.run (entry o.after)).2 :=
        within_of_whole rfl (declarations_keep _).2
      rw [declarations, run_repeated] at hwithin ⊢
      obtain ⟨heq, hmeets⟩ := halike.meets _ _ hstands hwithin
      refine ⟨?_, hmeets⟩
      simp only [Round.last, List.map_nil, List.nil_append]
      exact heq.symm
    · have hagain := again_declarationRound hend
      rw [repeatUpTo_again fuel hagain] at hfine hcomplete ⊢
      obtain ⟨hshow, hjoined⟩ := h.round hcut htidy hend (hlead.fine hfine)
        fun d hd => hcomplete d (List.mem_append_left _ hd)
      obtain ⟨hitems, hagain'⟩ := Prod.mk.inj hshow
      rw [repeatUpTo_again fuel' (hagain'.symm.trans hagain)]
      have hless : fuel + o.after.length ≤ fuel' := by omega
      obtain ⟨hrest, hmeets⟩ := ih hless hjoined hfine fun d hd =>
        hcomplete d (List.mem_append_right _ hd)
      refine ⟨?_, hmeets⟩
      rw [List.map_append, List.map_append, hrest, hitems, List.append_assoc]

theorem Joined.declarations (h : Joined o s s') (hfine : Fine (Parse.declarations.run s).2)
    (hcomplete : ∀ d ∈ (Parse.declarations.run s).1, ¬ d.RunsOut o.text) :
    (Parse.declarations.run s').1.map (Declaration.plain false)
        = (Parse.declarations.run s).1.map (Declaration.plain false)
          ++ (Parse.declarations.run (entry o.after)).1.map (Declaration.plain false)
      ∧ (behindDeclarations (entry o.after)).Meets (o.rest hcut) (behindDeclarations s') := by
  have hrun : ∀ s, Parse.declarations.run s = (repeatUpTo declarationRound s.rounds).run s :=
    fun _ => run_repeated
  rw [hrun s] at hfine hcomplete ⊢
  obtain ⟨heq, hmeets⟩ :=
    h.declarationsUpTo hcut htidy (h.rounds_le hcut) hfine hcomplete
  rw [← hrun s'] at heq hmeets
  obtain ⟨hin, hexhausted⟩ := declarations_keep o.after
  have hwithin : Within (o.rest hcut) _ :=
    within_of_whole rfl (forward_keeps forward_orphanComments hin hexhausted).2
  exact ⟨heq, (Alike.orphanComments.meets _ _ hmeets hwithin).2⟩

/-! ### In front of the declarations -/

omit hcut htidy in
theorem kind_of_packageName {package : String} (h : (packageName.run s).1 = some package) :
    s.current.kind = .packageWord := by
  by_contra hkind
  rw [packageName, run_bind_eq rfl, if_neg (show ¬ (kind.run s).1 = _ from hkind)] at h
  cases h

omit hcut htidy in
theorem kind_atPackage : (atPackage s).current.kind = (skipNewlines.run s).2.current.kind := by
  rw [atPackage, run_leadingComments]
  rfl

omit hcut htidy in
theorem kind_of_atPackage {package : String}
    (h : (packageName.run (atPackage s)).1 = some package) :
    s.current.kind ≠ .endOfInput := by
  intro hend
  have hkind := kind_of_packageName h
  have hnewline : s.current.kind ≠ .newline := by
    rw [hend]
    decide
  rw [kind_atPackage, skipNewlines_eq hnewline, hend] at hkind
  cases hkind

/-- **In front of the declarations** the streams are joined, and both have found a
package name. -/
theorem Joined.atDeclarations {package : String}
    (himport : (entry o.after).current.kind ≠ .importWord) (h : Joined o s s')
    (hname : (packageName.run (atPackage s)).1 = some package)
    (hfine : Fine (Parse.atDeclarations s)) :
    (packageName.run (atPackage s')).1 = some package
      ∧ Joined o (Parse.atDeclarations s) (Parse.atDeclarations s') := by
  have hleads : Leading imports := (Alike.repeated (o := o) Alike.importRound).leads
  have himports := Leading.skipNewlines.fine hfine
  have hnext := hleads.fine himports
  have hpackage := Leading.skipNewlines.fine hnext
  have hat : Fine (atPackage s) := (Alike.packageName (o := o)).leads.fine hpackage
  have hfirst : Fine (Parse.skipNewlines.run s).2 := Leading.leadingComments.fine hat
  have hkind := kind_of_packageName hname
  have hthere : (atPackage s).current.kind ≠ .endOfInput := by
    rw [hkind]
    decide
  have hthere' := hthere
  rw [kind_atPackage] at hthere'
  -- in front of the package clause the file goes on
  have hclause : Joined o (atPackage s) (atPackage s') := by
    have hjoined := h.skipNewlines hcut htidy hfirst
    exact (hjoined.alike htidy hthere' Alike.leadingComments hat hthere).2
  obtain ⟨heq, hbehind⟩ := hclause.step htidy hthere Alike.packageName
    (.packageName (p := fun _ => True) hcut) trivial hpackage trivial
  have hentries := hbehind.skipNewlines hcut htidy hnext
  refine ⟨heq.symm.trans hname, ?_⟩
  refine Joined.skipNewlines hcut htidy ?_ hfine
  rw [imports, run_repeated] at himports ⊢
  rw [run_repeated]
  have hrounds := hentries.rounds_le hcut
  exact hentries.importsUpTo hcut htidy himport
    ((Nat.le_add_right _ _).trans hrounds) himports

end

/-! ## Files -/

/-- The window on a file that a text follows. -/
def fileWindow (file text : List Char) (hline : ∃ cs, file = cs ++ ['\n']) : Window where
  before := []
  text := file
  after := text
  whole := false
  tidy := false
  notes := []
  before_line := .inl rfl
  text_line _ := hline
  after_eq h := absurd h Bool.false_ne_true

theorem source_ofSource (name source : String) :
    (ofSource name source).lexer.source = source.toList :=
  (inOrder_of_next (l := .ofSource name source) (.start _) (by rw [ofSource_eq])
    (by rw [ofSource_eq]) (by rw [ofSource_eq])).2.1

/-- A text on its own, and the stream of a lexer that is placed at its start and holds
nothing. -/
theorem meets_ofLexer {name text : String} {l : Lexer} (hfits : (Lexer.ofSource name text).Fits o l)
    (hpending : l.pending = []) (hnotes : o.notes = []) (hwithin : Within o (ofSource name text)) :
    (ofSource name text).Meets o
      ⟨l.next.2.next.2, l.next.1, l.next.2.next.1, [], [], [], none, false⟩ := by
  have hfinds := Lexer.Finds.next (l := l) (hfits.source_eq'.symm ▸ hfits.inside')
  rw [ofSource_eq] at hwithin ⊢
  refine Meets.of_fits hfits hwithin rfl rfl rfl rfl id rfl rfl ?_ rfl (fun hnext c hc => ?_)
    fun _ => .nil
  · rw [hnotes]
    rfl
  rcases hfinds.pending c hc with hc | ⟨hslash, hlt⟩
  · rw [hpending] at hc
    cases hc
  · rw [hfits.source_eq'] at hslash
    exact ⟨hslash, hlt.trans_le (Meets.offset_le hnext)⟩

/-- **At the start of a source** that starts with the text. -/
theorem meets_ofSource {name other text source : String} (hbefore : o.before = [])
    (hnotes : o.notes = []) (htext : text.toList = o.text) (hsource : source.toList = o.source)
    (hwithin : Within o (ofSource name text)) :
    (ofSource name text).Meets o (ofSource other source) := by
  have hfits : (Lexer.ofSource name text).Fits o (.ofSource other source) := by
    refine Lexer.Fits.start htext hsource ?_ rfl fun _ => ⟨rfl, rfl⟩
    rw [← hsource, hbefore]
    rfl
  rw [ofSource_eq other source]
  exact meets_ofLexer hfits rfl hnotes hwithin

section

variable {name other file text : String} (hline : ∃ cs, file.toList = cs ++ ['\n'])

/-- The streams at the start. -/
theorem joined_ofSource (hs : Fine (ofSource name file))
    (hthere : (ofSource name file).current.kind ≠ .endOfInput) :
    Joined (fileWindow file.toList text.toList hline) (ofSource name file)
      (ofSource other (file ++ text)) := by
  have hlined := lined_ofSource name file
  have hsource : (ofSource name file).lexer.source = file.toList := source_ofSource name file
  refine ⟨hlined, hsource, fun _ => ?_, fun h => absurd h hthere⟩
  exact meets_ofSource rfl rfl rfl String.toList_append
    ⟨hs.exhausted, fun _ => hs.clean, fun _ => start_lt hlined hsource hthere⟩

end

/-! ## What a reading shows -/

/-- The declarations of a file, up to positions and comments. -/
structure IsMadeOf (file : SourceFile) (ds : List Declaration) : Prop where
  components_eq : file.components.map (·.plain false) = ds.filterMap Declaration.component?
  funcs_eq : file.funcs.map (·.plain false) = ds.filterMap Declaration.func?
  decls_eq : file.decls.map (·.plain false) = ds.filterMap Declaration.decl?

/-- The messages of all that a stream has found wrong. -/
def messages (t : TokenStream) : List String :=
  (t.diagnostics ++ t.lexer.diagnostics).map (·.message)

/-- **What a reading shows**: declarations, and what a stream has found wrong in the
end. -/
inductive Shows (ds : List Declaration) (t : TokenStream) : Except Interruption Reading → Prop where
  | stopped {i : Interruption} (hcause : t.interruption.map (·.cause) = some i.cause) :
      Shows ds t (.error i)
  | read {file : SourceFile} {notes : List Diagnostic} {restarts : List Recovery}
      (hnone : t.interruption.map (·.cause) = none) (hfile : IsMadeOf file ds)
      (hmessages : notes.map (·.message) = messages t) :
      Shows ds t (.ok ⟨some file, notes, restarts⟩)

theorem filterMap_plain {keep : Bool} {f : Declaration → Option α} {g : α → α}
    (h : ∀ d : Declaration, f (d.plain keep) = (f d).map g) (ds : List Declaration) :
    (ds.filterMap f).map g = (ds.map (·.plain keep)).filterMap f := by
  rw [List.map_filterMap, List.filterMap_map]
  exact List.filterMap_congr fun d _ => (h d).symm

/-- What is told of a file and the stream behind it. -/
def told (r : Option SourceFile × TokenStream) : Except Interruption Reading :=
  match r.2.interruption with
  | some i => .error i
  | none => .ok ⟨r.1, r.2.diagnostics ++ r.2.lexer.diagnostics, r.2.recoveries⟩

theorem read_eq (name source : String) :
    SourceFile.read name source = told (sourceFile.run (ofSource name source)) := by
  rw [SourceFile.read]
  generalize sourceFile.run (ofSource name source) = r
  rfl

theorem of_told {file : Option SourceFile} {t : TokenStream} {reading : Reading}
    (h : told (file, t) = .ok reading) : reading.file = file
      ∧ reading.diagnostics = t.diagnostics ++ t.lexer.diagnostics ∧ t.interruption = none := by
  rw [told] at h
  split at h
  · cases h
  · next hnone =>
    cases h
    exact ⟨rfl, rfl, hnone⟩

/-- What is read of a source that does not interrupt its reading. -/
theorem eq_of_read {name source : String} {reading : Reading}
    (h : SourceFile.read name source = .ok reading) :
    reading.file = (sourceFile.run (ofSource name source)).1
      ∧ (sourceFile.run (ofSource name source)).2.diagnostics ⊆ reading.diagnostics := by
  rw [read_eq] at h
  rcases hrun : sourceFile.run (ofSource name source) with ⟨file, t⟩
  rw [hrun] at h
  obtain ⟨hfile, hdiagnostics, -⟩ := of_told h
  exact ⟨hfile, hdiagnostics ▸ List.subset_append_left _ _⟩

/-- A reading that gives a file has found a package name. -/
theorem packageName_of_read {name source : String} {file : SourceFile} {notes : List Diagnostic}
    {restarts : List Recovery}
    (h : SourceFile.read name source = .ok ⟨some file, notes, restarts⟩) :
    ∃ package, (packageName.run (atPackage (ofSource name source))).1 = some package := by
  refine Option.ne_none_iff_exists'.1 fun hnone => ?_
  obtain ⟨t, hrun⟩ := sourceFile_of_none hnone
  rw [read_eq, hrun] at h
  cases (of_told h).1

theorem shows_told {file : SourceFile} {ds : List Declaration} {t : TokenStream}
    (hcomponents : file.components = ds.filterMap Declaration.component?)
    (hfuncs : file.funcs = ds.filterMap Declaration.func?)
    (hdecls : file.decls = ds.filterMap Declaration.decl?) :
    Shows (ds.map (·.plain false)) t (told (some file, t)) := by
  rw [told]
  cases hi : t.interruption with
  | some i => exact .stopped (by rw [hi]; rfl)
  | none =>
    refine .read (by rw [hi]; rfl) ⟨?_, ?_, ?_⟩ rfl
    · rw [hcomponents, filterMap_plain (Declaration.component?_plain false)]
    · rw [hfuncs, filterMap_plain (Declaration.func?_plain false)]
    · rw [hdecls, filterMap_plain (Declaration.decl?_plain false)]

/-- A file with a package name shows its declarations. -/
theorem shows_read {name source package : String}
    (h : (packageName.run (atPackage (ofSource name source))).1 = some package) :
    Shows ((declarations.run (atDeclarations (ofSource name source))).1.map (·.plain false))
      (behindDeclarations (atDeclarations (ofSource name source)))
      (SourceFile.read name source) := by
  obtain ⟨file, hrun, -, hcomponents, hfuncs, hdecls⟩ := sourceFile_of_some h
  rw [read_eq, hrun]
  exact shows_told hcomponents hfuncs hdecls

/-- At one place the messages are the same, but for those from before the text. -/
theorem messages_of_meets {t' : TokenStream} (h : t.Meets o t') (hwhole : o.whole = true) :
    messages t' = o.notes ++ messages t := by
  have hlexer : t'.lexer.diagnostics.map (·.message) = t.lexer.diagnostics.map (·.message) := by
    rcases h.ahead with hinside | hbeyond
    · exact hinside.fits.messages_eq
    · exact absurd hwhole (Bool.eq_false_iff.1 hbeyond.cut)
  rw [messages, messages, List.map_append, List.map_append, hlexer, h.messages_eq,
    List.append_assoc]

/-- Streams at one place show the same. -/
theorem Shows.of_meets {r : Except Interruption Reading} {ds : List Declaration}
    {t' : TokenStream} (h : Shows ds t' r) (hmeets : t.Meets o t') (hwhole : o.whole = true)
    (hnotes : o.notes = []) : Shows ds t r := by
  have hmessages : messages t' = messages t := by
    rw [messages_of_meets hmeets hwhole, hnotes, List.nil_append]
  cases h with
  | stopped hcause => exact .stopped (hmeets.cause_eq.symm.trans hcause)
  | read hnone hfile hnotes' =>
    exact .read (hmeets.cause_eq.symm.trans hnone) hfile (hnotes'.trans hmessages)

/-- **What a reading without a diagnostic has gone through**: it has found a package
name and the declarations of the file, and nothing wrong. -/
theorem declarations_of_read {name file : String} {f : SourceFile} {restarts : List Recovery}
    (hread : SourceFile.read name file = .ok ⟨some f, [], restarts⟩) :
    ∃ package, (packageName.run (atPackage (ofSource name file))).1 = some package
      ∧ Fine (declarations.run (atDeclarations (ofSource name file))).2
      ∧ f.components = (declarations.run (atDeclarations (ofSource name file))).1.filterMap
          Declaration.component?
      ∧ f.funcs = (declarations.run (atDeclarations (ofSource name file))).1.filterMap
          Declaration.func?
      ∧ f.decls = (declarations.run (atDeclarations (ofSource name file))).1.filterMap
          Declaration.decl? := by
  obtain ⟨package, hname⟩ := packageName_of_read hread
  obtain ⟨file', hrun, -, hcomponents, hfuncs, hdecls⟩ := sourceFile_of_some hname
  rw [read_eq, hrun] at hread
  obtain ⟨hsame, hdiagnostics, hnone⟩ := of_told hread
  cases (show f = file' from Option.some.inj hsame)
  obtain ⟨hnotes, hlexer⟩ := List.append_eq_nil_iff.1 hdiagnostics.symm
  have hexhausted := (reading_ends name file).2.1
  rw [hrun] at hexhausted
  have hfine : Fine (behindDeclarations (atDeclarations (ofSource name file))) :=
    ⟨hexhausted, hnotes, hlexer, hnone⟩
  refine ⟨package, hname, ?_, hcomponents, hfuncs, hdecls⟩
  rw [behindDeclarations] at hfine
  exact Leading.orphanComments.fine hfine

/-- Among the declarations of a file only Go declarations may run out. -/
theorem not_runsOut_of_decls {cs : List Char} {decls : List GoDecl} {ds : List Declaration}
    (hdecls : decls = ds.filterMap Declaration.decl?) (hcomplete : ∀ d ∈ decls, ¬ d.RunsOut cs) :
    ∀ d ∈ ds, ¬ d.RunsOut cs := by
  intro d hd hends
  cases d with
  | component c => exact hends
  | func g => exact hends
  | decl g =>
    refine hcomplete g ?_ hends
    rw [hdecls]
    exact List.mem_filterMap.2 ⟨_, hd, rfl⟩

/-- **A file and a text behind it** show the declarations of both, and what is wrong
with the text. The file names do not matter. -/
theorem shows_append {name other file text : String} {f : SourceFile} {restarts : List Recovery}
    (hread : SourceFile.read name file = .ok ⟨some f, [], restarts⟩)
    (hline : ∃ cs, file.toList = cs ++ ['\n']) (hcomplete : ∀ d ∈ f.decls, ¬ d.RunsOut file.toList)
    (himport : (entry text.toList).current.kind ≠ .importWord) :
    ∃ ds : List Declaration,
      f.components.map (·.plain false) = ds.filterMap Declaration.component?
      ∧ f.funcs.map (·.plain false) = ds.filterMap Declaration.func?
      ∧ f.decls.map (·.plain false) = ds.filterMap Declaration.decl?
      ∧ Shows (ds ++ (declarations.run (entry text.toList)).1.map (·.plain false))
          (behindDeclarations (entry text.toList)) (SourceFile.read other (file ++ text)) := by
  obtain ⟨package, hname, hdeclarations, hcomponents, hfuncs, hdecls⟩ := declarations_of_read hread
  have hfront : Fine (atDeclarations (ofSource name file)) :=
    (Alike.declarations (o := fileWindow file.toList text.toList hline)).leads.fine hdeclarations
  have hstart : Joined (fileWindow file.toList text.toList hline) _ (ofSource other (file ++ text)) :=
    joined_ofSource hline (hfront.atDeclarations (fileWindow file.toList text.toList hline))
      (kind_of_atPackage hname)
  have hafter : (fileWindow file.toList text.toList hline).after = text.toList := rfl
  rw [← hafter] at himport
  obtain ⟨hname', hjoined⟩ := hstart.atDeclarations rfl rfl himport hname hfront
  have hall := not_runsOut_of_decls hdecls hcomplete
  obtain ⟨heq, hmeets⟩ := hjoined.declarations rfl rfl hdeclarations hall
  rw [hafter] at heq hmeets
  have hshows := shows_read hname'
  rw [heq] at hshows
  refine ⟨_, ?_, ?_, ?_, hshows.of_meets hmeets rfl rfl⟩
  · rw [hcomponents, filterMap_plain (Declaration.component?_plain false)]
  · rw [hfuncs, filterMap_plain (Declaration.func?_plain false)]
  · rw [hdecls, filterMap_plain (Declaration.decl?_plain false)]

/-- **One reading continues another**: it shows the declarations of a file and then
those of the other reading, and the same messages; or both were stopped by the same
cause. -/
inductive Continues (file : SourceFile) :
    Except Interruption Reading → Except Interruption Reading → Prop where
  | read {g g' : SourceFile} {notes notes' : List Diagnostic} {restarts restarts' : List Recovery}
      (components : g.components.map (·.plain false)
        = file.components.map (·.plain false) ++ g'.components.map (·.plain false))
      (funcs : g.funcs.map (·.plain false)
        = file.funcs.map (·.plain false) ++ g'.funcs.map (·.plain false))
      (decls : g.decls.map (·.plain false)
        = file.decls.map (·.plain false) ++ g'.decls.map (·.plain false))
      (messages : notes.map (·.message) = notes'.map (·.message)) :
      Continues file (.ok ⟨some g, notes, restarts⟩) (.ok ⟨some g', notes', restarts'⟩)
  | stopped {i i' : Interruption} (cause : i.cause = i'.cause) :
      Continues file (.error i) (.error i')

theorem Shows.continues {file : SourceFile} {ds rest : List Declaration} {t : TokenStream}
    {r r' : Except Interruption Reading} (hfile : IsMadeOf file ds)
    (h : Shows (ds ++ rest) t r) (h' : Shows rest t r') : Continues file r r' := by
  cases h with
  | stopped hcause =>
    cases h' with
    | stopped hcause' => exact .stopped (Option.some.inj (hcause.symm.trans hcause'))
    | read hnone _ _ => cases hcause.symm.trans hnone
  | read hnone hmade hnotes =>
    cases h' with
    | stopped hcause => cases hcause.symm.trans hnone
    | read _ hmade' hnotes' =>
      refine .read ?_ ?_ ?_ (hnotes.trans hnotes'.symm)
      · rw [hmade.components_eq, hfile.components_eq, hmade'.components_eq, List.filterMap_append]
      · rw [hmade.funcs_eq, hfile.funcs_eq, hmade'.funcs_eq, List.filterMap_append]
      · rw [hmade.decls_eq, hfile.decls_eq, hmade'.decls_eq, List.filterMap_append]

/-- A package clause alone. -/
theorem read_clause : SourceFile.read "" "package x\n"
    = .ok ⟨some ⟨"", "x", [], [], [], [], ⟨1, 1⟩, none, []⟩, [], []⟩ :=
  rfl

theorem eq_nil_of_filterMap {ds : List Declaration}
    (hcomponents : [] = ds.filterMap Declaration.component?)
    (hfuncs : [] = ds.filterMap Declaration.func?)
    (hdecls : [] = ds.filterMap Declaration.decl?) : ds = [] := by
  cases ds with
  | nil => rfl
  | cons d ds => cases d <;> simp [Declaration.component?, Declaration.func?, Declaration.decl?] at *

end Parse

open Parse TokenStream in
/-- **Declarations are read independently of what precedes them.** A file ends with a
line end and nothing is wrong with it, nor does one of its Go declarations run out.
Then a text behind it, well formed or not, is read as behind a bare package clause:
its declarations follow those of the file, and the messages are the same. Only the
word that starts an import may not come first in the text. -/
theorem SourceFile.continues_append {name file text : String} {f : SourceFile}
    {restarts : List Recovery} (hread : SourceFile.read name file = .ok ⟨some f, [], restarts⟩)
    (hline : ∃ cs, file.toList = cs ++ ['\n']) (hcomplete : ∀ d ∈ f.decls, ¬ d.RunsOut file.toList)
    (himport : (entry text.toList).current.kind ≠ .importWord) :
    Continues f (SourceFile.read name (file ++ text))
      (SourceFile.read name ("package x\n" ++ text)) := by
  obtain ⟨ds, hcomponents, hfuncs, hdecls, hshows⟩ := shows_append hread hline hcomplete himport
  obtain ⟨none, hcomponents', hfuncs', hdecls', hshows'⟩ :=
    shows_append read_clause ⟨"package x".toList, rfl⟩
      (fun _ h => absurd h List.not_mem_nil) himport
  rw [eq_nil_of_filterMap hcomponents' hfuncs' hdecls', List.nil_append] at hshows'
  exact hshows.continues ⟨hcomponents, hfuncs, hdecls⟩ hshows'

/-- A file with a Go declaration and a component, and a text that starts with a brace
too many. -/
theorem SourceFile.continues_append_page :
    ∃ f restarts, SourceFile.read "p.gsx" "package p\ntype T int\n@component Page() \x7b\n\x7d\n"
        = .ok ⟨some f, [], restarts⟩
      ∧ f.components.map (·.name) = ["Page"]
      ∧ Parse.Continues f
          (SourceFile.read "p.gsx" ("package p\ntype T int\n@component Page() \x7b\n\x7d\n"
            ++ "\x7d\nvar x = 1\n"))
          (SourceFile.read "p.gsx" ("package x\n" ++ "\x7d\nvar x = 1\n")) := by
  have hread : SourceFile.read "p.gsx" "package p\ntype T int\n@component Page() \x7b\n\x7d\n"
      = .ok ⟨some ⟨"p.gsx", "p", [], [⟨"type", "type T int", ⟨2, 1⟩, none⟩],
          [⟨"Page", [], [], false, ⟨3, 1⟩, none, none, []⟩], [], ⟨1, 1⟩, none, []⟩, [], []⟩ := rfl
  have hcomplete : ∀ d ∈ [GoDecl.mk "type" "type T int" ⟨2, 1⟩ none],
      ¬ d.RunsOut "package p\ntype T int\n@component Page() \x7b\n\x7d\n".toList := by
    intro d hd
    rw [List.mem_singleton.1 hd, GoDecl.RunsOut]
    decide
  exact ⟨_, _, hread, rfl,
    continues_append hread ⟨"package p\ntype T int\n@component Page() \x7b\n\x7d".toList, rfl⟩ hcomplete
      (by decide +kernel)⟩

end Gsx
