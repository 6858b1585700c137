import Gsx.Proofs.Grammar.Appending
/-!
# Texts that start alike

A file is read the same whatever text follows it, but what is compared there leaves
out the comments. If two texts start alike, more can be said: in front of both the
declarations of the file are the same, comments included. For what the texts share
may stand behind the file alone, and reading the file does not go beyond that.
-/

namespace Gsx

open TokenStream

namespace Parse

variable {α γ : Type} {o oh : Window} {s s' : TokenStream} {n : Nat}

/-! ## A number of rounds -/

/-- The first rounds of a repetition. -/
def roundsOf (round : Parse (Round α)) : Nat → Parse (List (Round α))
  | 0 => return []
  | n + 1 => do
    let r ← round
    return r :: (← roundsOf round n)

theorem run_roundsOf_succ (round : Parse (Round α)) (n : Nat) (s : TokenStream) :
    (roundsOf round (n + 1)).run s
      = ((round.run s).1 :: ((roundsOf round n).run (round.run s).2).1,
          ((roundsOf round n).run (round.run s).2).2) :=
  rfl

/-- **A repetition is its first rounds and then the others**, if each of the first
ones says that another one follows. -/
theorem repeatUpTo_roundsOf {round : Parse (Round α)} (fuel : Nat)
    (h : ∀ r ∈ ((roundsOf round n).run s).1, r.again = true) :
    (repeatUpTo round (n + fuel)).run s
      = (((roundsOf round n).run s).1.flatMap Round.items
          ++ ((repeatUpTo round fuel).run ((roundsOf round n).run s).2).1,
        ((repeatUpTo round fuel).run ((roundsOf round n).run s).2).2) := by
  induction n generalizing s with
  | zero =>
    rw [Nat.zero_add]
    rfl
  | succ n ih =>
    rw [run_roundsOf_succ] at h ⊢
    obtain ⟨hagain, hagains⟩ := List.forall_mem_cons.1 h
    rw [Nat.add_right_comm, repeatUpTo_again (n + fuel) hagain, ih hagains, List.flatMap_cons,
      List.append_assoc]

theorem Alike.roundsOf {e : α → γ} {round round' : Parse (Round α)}
    (h : Alike o (showRound e) round round') (n : Nat) :
    Alike o (List.map (showRound e)) (roundsOf round n) (roundsOf round' n) := by
  induction n with
  | zero => exact .pure rfl
  | succ n ih => exact h.bind fun r r' hr => ih.bind fun rs rs' hrs => .pure (congrArg₂ List.cons hr hrs)

/-- The declarations of a source are those of some rounds, each of which finds one,
up to the end. -/
theorem exists_roundsOf {fuel : Nat}
    (h : ((repeatUpTo declarationRound fuel).run s).2.exhausted = false) :
    ∃ n < fuel, (∀ r ∈ ((roundsOf declarationRound n).run s).1, r.again = true)
      ∧ (skipNewlines.run ((roundsOf declarationRound n).run s).2).2.current.kind = .endOfInput
      ∧ (repeatUpTo declarationRound fuel).run s
        = (((roundsOf declarationRound n).run s).1.flatMap Round.items,
          (skipNewlines.run ((roundsOf declarationRound n).run s).2).2) := by
  induction fuel generalizing s with
  | zero => cases h
  | succ fuel ih =>
    by_cases hend : (skipNewlines.run s).2.current.kind = .endOfInput
    · refine ⟨0, Nat.succ_pos _, nofun, hend, ?_⟩
      have hround := declarationRound_last hend
      rw [repeatUpTo_last fuel (by rw [hround]; rfl), hround]
      rfl
    · have hagain := again_declarationRound hend
      rw [repeatUpTo_again fuel hagain] at h ⊢
      obtain ⟨n, hn, hrounds, hlast, hrun⟩ := ih h
      refine ⟨n + 1, Nat.succ_lt_succ hn, ?_, hlast, ?_⟩
      · rw [run_roundsOf_succ]
        exact List.forall_mem_cons.2 ⟨hagain, hrounds⟩
      · rw [run_roundsOf_succ, hrun]
        rfl

/-! ## A file with a text behind it -/

section

variable (hcut : o.whole = false) (htidy : o.tidy = false)

include hcut htidy

/-- **Some rounds** that each find a declaration of the file. -/
theorem Joined.roundsOf (h : Joined o s s')
    (hagain : ∀ r ∈ ((roundsOf declarationRound n).run s).1, r.again = true)
    (hfine : Fine ((roundsOf declarationRound n).run s).2)
    (hcomplete : ∀ r ∈ ((roundsOf declarationRound n).run s).1, ∀ d ∈ r.items,
      ¬ d.RunsOut o.text) :
    ((roundsOf declarationRound n).run s).1.map (Alike.showRound (Declaration.plain false))
        = ((roundsOf declarationRound n).run s').1.map (Alike.showRound (Declaration.plain false))
      ∧ Joined o ((roundsOf declarationRound n).run s).2
          ((roundsOf declarationRound n).run s').2 := by
  induction n generalizing s s' with
  | zero => exact ⟨rfl, h⟩
  | succ n ih =>
    rw [run_roundsOf_succ] at hagain hfine hcomplete
    rw [run_roundsOf_succ, run_roundsOf_succ]
    obtain ⟨hagain, hagains⟩ := List.forall_mem_cons.1 hagain
    obtain ⟨hcomplete, hcompletes⟩ := List.forall_mem_cons.1 hcomplete
    have hend : (Parse.skipNewlines.run s).2.current.kind ≠ .endOfInput := fun hend => by
      rw [declarationRound_last hend] at hagain
      cases hagain
    have hleads : Leading (Parse.roundsOf declarationRound n) :=
      (Alike.declarationRound (o := o)).roundsOf n |>.leads
    obtain ⟨hround, hjoined⟩ :=
      h.round hcut htidy hend (hleads.fine hfine) hcomplete
    obtain ⟨hrounds, hjoined⟩ := ih hjoined hagains hfine hcompletes
    exact ⟨congrArg₂ List.cons hround hrounds, hjoined⟩

end

/-! ## Behind the file -/

/-- A text that starts with a sound token, and does not end with its first
character. -/
structure Opens (w : List Char) : Prop where
  clean : (entry w).Clean
  start_lt : (entry w).current.start + 1 < w.length

theorem clean_of_meets (h : s.Meets o s') (hinside : LooksInside o s s') (hs : s.Clean)
    (hnotes : o.notes = []) : s'.Clean where
  diagnostics := by
    have hmessages := h.messages_eq
    rw [hs.diagnostics, hnotes] at hmessages
    exact List.map_eq_nil_iff.1 hmessages
  lexer := by
    have hmessages := hinside.fits.messages_eq
    rw [hs.lexer] at hmessages
    exact List.map_eq_nil_iff.1 hmessages
  interruption := by
    have hcause := h.cause_eq
    rw [hs.interruption] at hcause
    exact Option.map_eq_none_iff.1 hcause

theorem looksInside_of_whole (h : s.Meets o s') (hwhole : o.whole = true) : LooksInside o s s' :=
  h.ahead.resolve_right fun hb => absurd hwhole (Bool.eq_false_iff.1 hb.cut)

/-- **Reading the file does not go beyond the start of the text**: as long as nothing
is wrong with the file, the source is read within the two. -/
theorem Joined.within (h : Joined o s s') (hcut : o.whole = false) (hs : Fine s)
    (hopens : Opens o.after) (hnotes : o.notes = []) (hhead : oh.text = o.source)
    (hexhausted : s'.exhausted = false) : Within oh s' := by
  have hlength : oh.text.length = o.before.length + o.text.length + o.after.length := by
    rw [hhead, Window.source, List.length_append, List.length_append, Nat.add_assoc]
  have hopens' := hopens.start_lt
  by_cases hend : s.current.kind = .endOfInput
  · have hmeets := meets_rest hcut (h.stands hend)
    have hclean := clean_of_meets hmeets (looksInside_of_whole hmeets rfl) hopens.clean hnotes
    refine ⟨hexhausted, fun _ => hclean, fun _ => ?_⟩
    rw [hmeets.current_eq, hlength]
    change (o.before ++ o.text).length + (entry o.after).current.start + _ < _
    rw [List.length_append]
    split <;> omega
  · have hmeets := h.meets hend
    have hclean : s'.Clean := by
      rcases hmeets.ahead with hinside | hbeyond
      · exact clean_of_meets hmeets hinside hs.clean hnotes
      · -- one token further the stream is at the start of the text
        have hstart : Within (o.rest hcut) (start o.after) :=
          within_of_whole rfl (by rw [start_eq])
        have hfresh := hbeyond.fresh hmeets hs.clean (o.follows_rest hcut) hstart
        have hclean := clean_of_meets hfresh (looksInside_of_whole hfresh rfl)
          ((Leading.skipNewlines _).clean hopens.clean) hnotes
        exact (Leads.advanced s').clean hclean
    refine ⟨hexhausted, fun _ => hclean, fun _ => ?_⟩
    have hlt := hmeets.start_lt hend
    rw [hmeets.current_eq, hlength]
    change o.before.length + s.current.start + _ < _
    split <;> omega

/-! ## Two texts that start alike -/

/-- Reads a file up to its declarations. -/
def preamble : Parse (Option String) := do
  skipNewlines
  let _ ← leadingComments
  let package ← packageName
  skipNewlines
  let _ ← imports
  skipNewlines
  return package

theorem run_preamble (s : TokenStream) :
    preamble.run s = ((packageName.run (atPackage s)).1, atDeclarations s) := by
  rw [preamble, run_bind_eq rfl, run_bind_eq rfl, ← atPackage, run_bind_eq rfl, run_bind_eq rfl,
    run_bind_eq rfl, run_bind_eq rfl, ← atDeclarations, StateT.run_pure]
  rfl

theorem Alike.preamble : Alike o id Parse.preamble Parse.preamble :=
  skipNewlines.next fun _ => leadingComments.bind fun _ _ _ => packageName.next fun _ =>
    skipNewlines.next fun _ => (repeated importRound).bind fun _ _ _ =>
      skipNewlines.next fun _ => .pure rfl

theorem before_line_nil : ([] : List Char) = [] ∨ ∃ cs, [] = cs ++ ['\n'] :=
  .inl rfl

theorem after_eq_of_cut {rest : List Char} (h : false = true) : rest = [] :=
  absurd h Bool.false_ne_true

/-- The window on what a source starts with. -/
def headWindow (head rest : List Char) (hline : ∃ cs, head = cs ++ ['\n']) : Window where
  before := []
  text := head
  after := rest
  whole := false
  tidy := true
  notes := []
  before_line := before_line_nil
  text_line _ := hline
  after_eq := after_eq_of_cut

/-- The first rounds over the declarations of a source. -/
def firstRounds (n : Nat) (s : TokenStream) : List (Round Declaration) :=
  ((roundsOf declarationRound n).run (atDeclarations s)).1

/-- The stream behind the first declarations of a source, at the next token that is
no line end. -/
def behindRounds (n : Nat) (s : TokenStream) : TokenStream :=
  (skipNewlines.run ((roundsOf declarationRound n).run (atDeclarations s)).2).2

/-- What shows of the first rounds, with the comments or without. -/
def shownRounds (keep : Bool) (n : Nat) (s : TokenStream) : List (List Declaration × Bool) :=
  (firstRounds n s).map (Alike.showRound (Declaration.plain keep))

/-- Reads a file up to a number of declarations. -/
def upToRounds (n : Nat) : Parse (Option String × List (Round Declaration)) := do
  let package ← preamble
  let rs ← roundsOf declarationRound n
  skipNewlines
  return (package, rs)

theorem run_upToRounds (n : Nat) (s : TokenStream) : (upToRounds n).run s
    = (((packageName.run (atPackage s)).1, firstRounds n s), behindRounds n s) := by
  rw [upToRounds, run_bind_eq rfl, run_preamble, run_bind_eq rfl, run_bind_eq rfl, ← behindRounds,
    StateT.run_pure, ← firstRounds]
  rfl

/-- What shows of a file up to a number of declarations. -/
abbrev showUpTo (o : Window) (r : Option String × List (Round Declaration)) :
    Option String × List (List Declaration × Bool) :=
  (r.1, r.2.map (Alike.showRound (Declaration.plain o.tidy)))

theorem Alike.upToRounds (n : Nat) :
    Alike o (showUpTo o) (Parse.upToRounds n) (Parse.upToRounds n) :=
  preamble.next fun _ => (declarationRound.roundsOf n).bind fun _ _ h =>
    skipNewlines.next fun _ => .pure (congrArg (Prod.mk _) h)

theorem Leading.upToRounds (n : Nat) : Leading (Parse.upToRounds n) :=
  (Alike.upToRounds (o := headWindow ['\n'] [] ⟨[], rfl⟩) n).leads

theorem leads_behindRounds (n : Nat) (s : TokenStream) : s.Leads (behindRounds n s) := by
  have hleads := Leading.upToRounds n s
  rwa [run_upToRounds] at hleads

theorem rounds_atDeclarations (name source : String) :
    (atDeclarations (ofSource name source)).rounds = source.toList.length + 1 := by
  have hleads : Leading preamble :=
    (Alike.preamble (o := headWindow ['\n'] [] ⟨[], rfl⟩)).leads
  have hsource := (hleads (ofSource name source)).source_eq (lined_ofSource _ _)
  rw [run_preamble] at hsource
  rw [rounds, hsource, source_ofSource]

/-- **The declarations of a source are those of its first rounds and then the others.** -/
theorem run_declarations_eq {name source : String} {fuel : Nat}
    (hfuel : n + (fuel + 1) = source.toList.length + 1)
    (hagain : ∀ r ∈ firstRounds n (ofSource name source), r.again = true)
    (hkind : (behindRounds n (ofSource name source)).current.kind ≠ .newline) :
    declarations.run (atDeclarations (ofSource name source))
      = ((firstRounds n (ofSource name source)).flatMap Round.items
          ++ ((repeatUpTo declarationRound (fuel + 1)).run
            (behindRounds n (ofSource name source))).1,
        ((repeatUpTo declarationRound (fuel + 1)).run (behindRounds n (ofSource name source))).2) := by
  rw [declarations, run_repeated, rounds_atDeclarations, ← hfuel, repeatUpTo_roundsOf _ hagain,
    repeatUpTo_skipNewlines fuel hkind, ← firstRounds, ← behindRounds]

theorem leads_behindDeclarations (s : TokenStream) :
    (declarations.run s).2.Leads (behindDeclarations s) :=
  Leading.orphanComments _

/-- No bound is met while the declarations of a source are read. -/
theorem exhausted_declarations {name source : String}
    (hname : (packageName.run (atPackage (ofSource name source))).1.isSome) :
    (declarations.run (atDeclarations (ofSource name source))).2.exhausted = false := by
  obtain ⟨package, hpackage⟩ := Option.isSome_iff_exists.1 hname
  obtain ⟨file, hrun, -⟩ := sourceFile_of_some hpackage
  have hexhausted := (reading_ends name source).2.1
  rw [hrun] at hexhausted
  exact (leads_behindDeclarations _).exhausted hexhausted

theorem exhausted_behindRounds {name source : String} {fuel : Nat}
    (hname : (packageName.run (atPackage (ofSource name source))).1.isSome)
    (hfuel : n + (fuel + 1) = source.toList.length + 1)
    (hagain : ∀ r ∈ firstRounds n (ofSource name source), r.again = true)
    (hkind : (behindRounds n (ofSource name source)).current.kind ≠ .newline) :
    (behindRounds n (ofSource name source)).exhausted = false := by
  have hleads : Leading (repeatUpTo declarationRound (fuel + 1)) :=
    (Alike.repeatUpTo (o := headWindow ['\n'] [] ⟨[], rfl⟩) Alike.declarationRound le_rfl).leads
  have hexhausted := exhausted_declarations hname
  rw [run_declarations_eq hfuel hagain hkind] at hexhausted
  exact (hleads (behindRounds n (ofSource name source))).exhausted hexhausted

/-- Rounds that show the same go on alike. -/
theorem again_of_shownRounds {keep : Bool} {s s' : TokenStream}
    (h : shownRounds keep n s = shownRounds keep n s')
    (hagain : ∀ r ∈ firstRounds n s, r.again = true) :
    ∀ r ∈ firstRounds n s', r.again = true := by
  intro r hr
  have hmem : Alike.showRound (Declaration.plain keep) r ∈ shownRounds keep n s := by
    rw [h, shownRounds]
    exact List.mem_map_of_mem hr
  rw [shownRounds] at hmem
  obtain ⟨r', hr', hshow⟩ := List.mem_map.1 hmem
  have hsame : r'.again = r.again := congrArg Prod.snd hshow
  rw [← hsame]
  exact hagain r' hr'

/-- **A file is read in as many rounds as it has declarations**, whatever text is
behind it, and then the stream is at the first token of the text. -/
theorem exists_joined_rounds {name file : String} {f : SourceFile} {restarts : List Recovery}
    (hread : SourceFile.read name file = .ok ⟨some f, [], restarts⟩)
    (hline : ∃ cs, file.toList = cs ++ ['\n']) (hcomplete : ∀ d ∈ f.decls, ¬ d.RunsOut file.toList) :
    ∃ n ≤ file.toList.length, Fine (behindRounds n (ofSource name file))
      ∧ (behindRounds n (ofSource name file)).current.kind = .endOfInput
      ∧ (∀ r ∈ firstRounds n (ofSource name file), r.again = true)
      ∧ ∀ other text : String, (entry text.toList).current.kind ≠ .importWord →
        (packageName.run (atPackage (ofSource other (file ++ text)))).1.isSome
        ∧ shownRounds false n (ofSource name file) = shownRounds false n (ofSource other (file ++ text))
        ∧ Joined (fileWindow file.toList text.toList hline) (behindRounds n (ofSource name file))
            (behindRounds n (ofSource other (file ++ text))) := by
  obtain ⟨package, hname, hfine, -, -, hdecls⟩ := declarations_of_read hread
  have hall := not_runsOut_of_decls hdecls hcomplete
  rw [declarations, run_repeated] at hfine hall
  obtain ⟨n, hn, hagain, hend, hrun⟩ := exists_roundsOf hfine.exhausted
  rw [hrun] at hfine hall
  have hrounds := rounds_atDeclarations name file
  refine ⟨n, by omega, hfine, hend, hagain, fun other text himport => ?_⟩
  have hleads : Leading (roundsOf declarationRound n) :=
    (Alike.declarationRound (o := headWindow _ [] hline)).roundsOf n |>.leads
  have hlast := Leading.skipNewlines.fine hfine
  have hfront := hleads.fine hlast
  have hstart : Joined (fileWindow file.toList text.toList hline) _ (ofSource other (file ++ text)) :=
    joined_ofSource hline (hfront.atDeclarations (headWindow _ [] hline)) (kind_of_atPackage hname)
  have hafter : (fileWindow file.toList text.toList hline).after = text.toList := rfl
  rw [← hafter] at himport
  obtain ⟨hname', hjoined⟩ := hstart.atDeclarations rfl rfl himport hname hfront
  obtain ⟨hshown, hjoined⟩ := hjoined.roundsOf rfl rfl hagain hlast
    fun r hr d hd => hall d (List.mem_flatMap.2 ⟨r, hr, hd⟩)
  exact ⟨by rw [hname']; rfl, hshown, hjoined.skipNewlines rfl rfl hfine⟩

/-- **In front of two texts that start alike a file is read the same**, comments
included: as it is in front of what they start with. -/
theorem shownRounds_head {name file head other : String}
    (hn : n ≤ file.toList.length) (hfine : Fine (behindRounds n (ofSource name file)))
    (hend : (behindRounds n (ofSource name file)).current.kind = .endOfInput)
    (hline : ∃ cs, file.toList = cs ++ ['\n']) (hhead : ∃ cs, head.toList = cs ++ ['\n'])
    (hopens : Opens head.toList)
    (hname : (packageName.run (atPackage (ofSource other (file ++ head)))).1.isSome)
    (hagain : ∀ r ∈ firstRounds n (ofSource other (file ++ head)), r.again = true)
    (hjoined : Joined (fileWindow file.toList head.toList hline)
      (behindRounds n (ofSource name file)) (behindRounds n (ofSource other (file ++ head))))
    (rest : String) :
    shownRounds true n (ofSource other (file ++ (head ++ rest)))
      = shownRounds true n (ofSource other (file ++ head)) := by
  have hstrings : (file ++ head).toList = file.toList ++ head.toList := String.toList_append
  have hboth : ∃ cs, (file ++ head).toList = cs ++ ['\n'] := by
    obtain ⟨cs, hcs⟩ := hhead
    exact ⟨file.toList ++ cs, by rw [hstrings, hcs, List.append_assoc]⟩
  have hkind : (behindRounds n (ofSource other (file ++ head))).current.kind ≠ .newline := by
    rw [hjoined.kind_eq rfl hend]
    exact kind_entry_ne _
  obtain ⟨fuel, hfuel⟩ : ∃ k, n + (k + 1) = (file ++ head).toList.length + 1 := by
    rw [hstrings, List.length_append]
    exact ⟨file.toList.length + head.toList.length - n, by omega⟩
  have hexhausted := exhausted_behindRounds hname hfuel hagain hkind
  have hwithin : Within (headWindow _ rest.toList hboth)
      (behindRounds n (ofSource other (file ++ head))) :=
    hjoined.within rfl hfine hopens rfl hstrings hexhausted
  have hstart : (ofSource other (file ++ head)).Meets (headWindow _ rest.toList hboth)
      (ofSource other (file ++ (head ++ rest))) := by
    refine meets_ofSource rfl rfl rfl ?_
      ((leads_behindRounds n _).within (lined_ofSource _ _) hwithin)
    rw [← String.append_assoc, String.toList_append]
    rfl
  have hrun := ((Alike.upToRounds n).meets _ _ hstart (by rw [run_upToRounds]; exact hwithin)).1
  rw [run_upToRounds, run_upToRounds] at hrun
  exact (Prod.mk.inj hrun).2.symm

end Parse

end Gsx
