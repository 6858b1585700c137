import Gsx.Proofs.Grammar.Functions
import Gsx.Proofs.Grammar.Rounds
import Gsx.Proofs.Grammar.Touring
import Mathlib.Algebra.Group.Nat.Even
/-!
# Groups of imports

A group of imports is read entry by entry. A token that starts no entry is skipped;
behind a name that has no path, the token in the place of the path is skipped with it,
whatever it is. So a run of names is skipped in pairs, and the closing parenthesis ends
the group exactly if an even number of names stands directly in front of it
(`Parse.exists_run_importRound`). Then reading goes on behind the parenthesis, and the
imports of all lines that start with a path, or with a name and a path, are there
(`SourceFile.closes_importGroup`).
-/

namespace Gsx

open TokenStream Lexer

/-- An import without its comment. -/
def Import.bare (e : Import) : Import := { e with trailing := none }

namespace Parse

instance (t : Token) : Decidable (NamesImport t) :=
  inferInstanceAs (Decidable (_ ∨ _ ∨ _))

end Parse

/-! ## Entries -/

namespace Lexer

open Parse

variable {l : Lexer} {m n i k first : Nat}

/-- How many names stand directly in front of a token. -/
def namesBefore (l : Lexer) : Nat → Nat
  | 0 => 0
  | n + 1 => if NamesImport (l.token n) then l.namesBefore n + 1 else 0

/-- How many tokens are read for an entry, be it a good one or a bad one. -/
def entryWidth (l : Lexer) (i : Nat) : Nat :=
  if NamesImport (l.token i) then 2 else 1

/-- The token in the place of the path of an entry. -/
def pathToken (l : Lexer) (i : Nat) : Token :=
  if NamesImport (l.token i) then l.token (i + 1) else l.token i

/-- **A path, or a name and a path.** -/
def HasPath (l : Lexer) (i : Nat) : Prop :=
  (l.pathToken i).kind = .string

instance (l : Lexer) (i : Nat) : Decidable (l.HasPath i) :=
  inferInstanceAs (Decidable (_ = _))

/-- The import that is a path, or a name and a path. -/
def importAt (l : Lexer) (i : Nat) : Import :=
  ⟨if NamesImport (l.token i) then (l.token i).literal else "", (l.pathToken i).literal,
    (l.token i).position, none⟩

/-- **A group of imports**: `import`, a parenthesis, and tokens up to the first closing
parenthesis. -/
structure IsImportGroup (l : Lexer) (first n : Nat) : Prop where
  word : (l.token 0).kind = .importWord
  before : ∀ i, 0 < i → i < first → (l.token i).kind = .newline
  opens : (l.token first).kind = .leftParen
  inside : ∀ i, first < i → i < n →
    (l.token i).kind ≠ .rightParen ∧ (l.token i).kind ≠ .endOfInput
  lt : first < n
  closes : (l.token n).kind = .rightParen

theorem isImportGroup_iff : l.IsImportGroup first n ↔
    ((l.token 0).kind = .importWord ∧ (∀ i < first, 0 < i → (l.token i).kind = .newline)
      ∧ (l.token first).kind = .leftParen)
    ∧ (∀ i < n, first < i → (l.token i).kind ≠ .rightParen ∧ (l.token i).kind ≠ .endOfInput)
    ∧ first < n ∧ (l.token n).kind = .rightParen :=
  ⟨fun h => ⟨⟨h.word, fun i hi hpos => h.before i hpos hi, h.opens⟩,
      fun i hn hi => h.inside i hi hn, h.lt, h.closes⟩,
    fun ⟨⟨hword, hbefore, hopens⟩, hinside, hlt, hcloses⟩ =>
      ⟨hword, fun i hpos hi => hbefore i hi hpos, hopens, fun i hi hn => hinside i hn hi, hlt,
        hcloses⟩⟩

instance (l : Lexer) (first n : Nat) : Decidable (l.IsImportGroup first n) :=
  decidable_of_iff _ isImportGroup_iff.symm

theorem namesBefore_of_not (h : ¬ NamesImport (l.token n)) : l.namesBefore (n + 1) = 0 :=
  if_neg h

theorem namesBefore_of_names (h : NamesImport (l.token n)) :
    l.namesBefore (n + 1) = l.namesBefore n + 1 :=
  if_pos h

theorem not_namesImport_newline (h : (l.token i).kind = .newline) : ¬ NamesImport (l.token i) := by
  rw [NamesImport, h]
  decide

/-- **Names are skipped in pairs.** -/
theorem even_namesBefore_entryWidth (h : Even (l.namesBefore i)) :
    Even (l.namesBefore (i + l.entryWidth i)) := by
  rw [entryWidth]
  split
  · next hname =>
    by_cases hnext : NamesImport (l.token (i + 1))
    · rw [namesBefore_of_names hnext, namesBefore_of_names hname]
      exact h.add ⟨1, rfl⟩
    · rw [namesBefore_of_not hnext]
      exact Even.zero
  · next hname =>
    rw [namesBefore_of_not hname]
    exact Even.zero

/-- Line ends end a run of names. -/
theorem even_namesBefore_lineEnds (h : Even (l.namesBefore m)) (hk : LineEnds (after m l) k) :
    Even (l.namesBefore (m + k)) := by
  cases k with
  | zero => exact h
  | succ k =>
    have hkind := hk.kind_eq k.lt_succ_self
    rw [token_after] at hkind
    rw [← Nat.add_assoc, namesBefore_of_not (not_namesImport_newline hkind)]
    exact Even.zero

theorem not_hasPath_newline (h : (l.token i).kind = .newline) : ¬ l.HasPath i := by
  rw [HasPath, pathToken, if_neg (not_namesImport_newline h), h]
  exact nofun

/-- No entry starts between another one and the end of its line, unless behind a line
end. -/
theorem lt_or_le_of_hasPath (hi : (l.token i).kind ≠ .newline)
    (hk : LineEnds (after (i + l.entryWidth i) l) k) {j : Nat} (hij : i < j)
    (hline : (l.token (j - 1)).kind = .newline) (hpath : l.HasPath j) :
    i + l.entryWidth i + k ≤ j := by
  refine Nat.le_of_not_lt fun hlt => ?_
  have hwidth : l.entryWidth i ≤ 2 := by
    rw [entryWidth]
    split <;> decide
  have hbehind : i < j - 1 := (Nat.le_sub_one_of_lt hij).lt_of_ne fun heq => hi (heq ▸ hline)
  have hkind := hk.kind_eq (i := j - (i + l.entryWidth i)) (by omega)
  rw [token_after, Nat.add_sub_cancel' (by omega)] at hkind
  exact not_hasPath_newline hkind hpath

end Lexer

namespace Parse

variable {α : Type} {l : Lexer} {m n i k first : Nat} {s t u : TokenStream}

/-! ## What is found wrong in a group -/

/-- **Only paths are missing**: two streams differ in nothing but their places, the
comments that they hold, and errors that say so. -/
structure MissesPaths (s t : TokenStream) : Prop where
  complaints : ∃ ds, t.diagnostics = s.diagnostics ++ ds
    ∧ ∀ d ∈ ds, d.message = GrammarFault.expectedImportPath.message
  recoveries_eq : t.recoveries = s.recoveries
  interruption_eq : t.interruption = s.interruption
  exhausted_eq : t.exhausted = s.exhausted

namespace MissesPaths

theorem of_eq (hdiagnostics : t.diagnostics = s.diagnostics)
    (hrecoveries : t.recoveries = s.recoveries)
    (hinterruption : t.interruption = s.interruption) (hexhausted : t.exhausted = s.exhausted) :
    MissesPaths s t :=
  ⟨⟨[], by rw [hdiagnostics, List.append_nil], nofun⟩, hrecoveries, hinterruption, hexhausted⟩

theorem refl (s : TokenStream) : MissesPaths s s :=
  .of_eq rfl rfl rfl rfl

theorem trans (h : MissesPaths s t) (h' : MissesPaths t u) : MissesPaths s u := by
  obtain ⟨ds, hds, hmessages⟩ := h.complaints
  obtain ⟨ds', hds', hmessages'⟩ := h'.complaints
  refine ⟨⟨ds ++ ds', by rw [hds', hds, List.append_assoc], fun d hd => ?_⟩,
    h'.recoveries_eq.trans h.recoveries_eq, h'.interruption_eq.trans h.interruption_eq,
    h'.exhausted_eq.trans h.exhausted_eq⟩
  exact (List.mem_append.1 hd).elim (hmessages d) (hmessages' d)

theorem advancedBy (n : Nat) (s : TokenStream) : MissesPaths s (s.advancedBy n) := by
  obtain ⟨-, hdiagnostics, hrecoveries, hinterruption⟩ := advancedBy_notes n s
  exact .of_eq hdiagnostics hrecoveries hinterruption (exhausted_advancedBy n s)

theorem withError (s : TokenStream) (p : Position) :
    MissesPaths s (s.withError p .expectedImportPath) :=
  ⟨⟨[_], rfl, fun d hd => by rw [List.mem_singleton.1 hd]; rfl⟩, rfl, rfl, rfl⟩

theorem trailingComment (line : Nat) (s : TokenStream) :
    MissesPaths s ((trailingComment line).run s).2 := by
  rw [run_trailingComment]
  exact .of_eq rfl rfl rfl rfl

end MissesPaths

/-! ## One entry -/

theorem follows_trailingComment (h : s.Follows l) (line : Nat) :
    ((trailingComment line).run s).2.Follows l := by
  rw [run_trailingComment]
  exact h.of_eq rfl rfl rfl rfl

theorem run_importName (hs : s.Follows (after i l)) : importName.run s
    = (if NamesImport (l.token i) then (l.token i).literal else "",
      s.advancedBy (l.entryWidth i - 1)) := by
  have hcurrent : s.current = l.token i := by rw [hs.current, token_after, Nat.add_zero]
  change (ite _ _ _ : Parse String).run s = _
  rw [hcurrent, entryWidth]
  by_cases hname : NamesImport (l.token i)
  · rw [if_pos (by simpa [NamesImport, or_assoc] using hname), if_pos hname, if_pos hname]
    rfl
  · rw [if_neg (by simpa [NamesImport, or_assoc] using hname), if_neg hname, if_neg hname]
    rfl

theorem token_entryWidth (l : Lexer) (i : Nat) :
    l.token (i + (l.entryWidth i - 1)) = l.pathToken i := by
  rw [entryWidth, pathToken]
  split <;> rfl

theorem entryWidth_pos (l : Lexer) (i : Nat) : 0 < l.entryWidth i := by
  rw [entryWidth]
  split <;> decide

/-- **An entry of a group**: an import if it has a path, and else a complaint. -/
theorem exists_run_importEntry (hs : s.Follows (after i l)) :
    (l.HasPath i → ∃ e u, importEntry.run s = (some e, u) ∧ e.bare = l.importAt i
      ∧ u.Follows (after (i + l.entryWidth i) l) ∧ MissesPaths s u)
    ∧ (¬ l.HasPath i → ∃ u, importEntry.run s = (none, u)
      ∧ u.Follows (after (i + (l.entryWidth i - 1)) l) ∧ MissesPaths s u) := by
  have hposition : position.run s = ((l.token i).position, s) := by
    rw [run_position, hs.current, token_after, Nat.add_zero]
  have hname := run_importName hs
  have hthere := hs.advancedBy (l.entryWidth i - 1)
  rw [← after_add] at hthere
  have hcurrent : (s.advancedBy (l.entryWidth i - 1)).current = l.pathToken i := by
    rw [hthere.current, token_after, Nat.add_zero, token_entryWidth]
  have hcurrent' : current.run (s.advancedBy (l.entryWidth i - 1))
      = (l.pathToken i, s.advancedBy (l.entryWidth i - 1)) := congrArg (·, _) hcurrent
  rw [importEntry, run_bind_eq (congrArg Prod.fst hposition), hposition,
    run_bind_eq (congrArg Prod.fst hname), hname, run_bind_eq (congrArg Prod.fst hcurrent'),
    hcurrent']
  dsimp only
  refine ⟨fun hpath => ?_, fun hpath => ?_⟩
  · rw [if_pos (show (l.pathToken i).kind = .string from hpath)]
    have hbehind := hthere.advanced
    rw [← after_add, Nat.add_assoc, Nat.sub_add_cancel (entryWidth_pos l i)] at hbehind
    exact ⟨_, ((trailingComment (l.pathToken i).position.line).run
        (s.advancedBy (l.entryWidth i - 1)).advanced).2, rfl, rfl,
      follows_trailingComment hbehind _,
      (MissesPaths.advancedBy _ s).trans
        ((MissesPaths.advancedBy 1 _).trans (.trailingComment _ _))⟩
  · rw [if_neg (show (l.pathToken i).kind ≠ .string from hpath)]
    exact ⟨_, rfl, hthere.of_eq rfl rfl rfl rfl,
      (MissesPaths.advancedBy _ s).trans (.withError _ _)⟩

/-- **One round of a group.** -/
theorem exists_run_groupRound (hs : s.Follows (after i l)) (hopen : (l.token i).kind ≠ .rightParen)
    (hend : (l.token i).kind ≠ .endOfInput) :
    ∃ e u k, LineEnds (after (i + l.entryWidth i) l) k ∧ groupRound.run s = (Round.more e, u)
      ∧ u.Follows (after (i + l.entryWidth i + k) l) ∧ MissesPaths s u
      ∧ e.map Import.bare = if l.HasPath i then [l.importAt i] else [] := by
  have hcurrent : s.current = l.token i := by rw [hs.current, token_after, Nat.add_zero]
  have hgo : ¬ (decide (s.current.kind = .rightParen)
      || decide (s.current.kind = .endOfInput)) = true := by
    simp [hcurrent, hopen, hend]
  obtain ⟨hgood, hbad⟩ := exists_run_importEntry hs
  have hround : groupRound.run s = (match importEntry.run s with
      | (some entry, u) => (Round.more [entry], (skipNewlines.run u).2)
      | (none, u) => (Round.more [], (advanceLine.run u).2)) := by
    change (ite _ _ _ : Parse (Round Import)).run s = _
    rw [if_neg hgo, run_bind_eq rfl]
    rcases importEntry.run s with ⟨entry | entry, u⟩ <;> rfl
  by_cases hpath : l.HasPath i
  · obtain ⟨e, u, hrun, hbare, hu, hmisses⟩ := hgood hpath
    obtain ⟨k, hk⟩ := exists_lineEnds hu
    have hskip := Passes.skipNewlines hk u hu
    rw [hrun] at hround
    simp only [hskip] at hround
    refine ⟨[e], u.advancedBy k, k, hk, hround, ?_, hmisses.trans (.advancedBy k u), ?_⟩
    · rw [after_add]
      exact hu.advancedBy k
    · rw [if_pos hpath, ← hbare]
      rfl
  · obtain ⟨u, hrun, hu, hmisses⟩ := hbad hpath
    obtain ⟨k, hk⟩ := exists_lineEnds hu.advanced
    have hskip := Passes.advanceLine hk u hu
    have hplace : i + (l.entryWidth i - 1) + (1 + k) = i + l.entryWidth i + k := by
      have := entryWidth_pos l i
      omega
    rw [← after_add, show i + (l.entryWidth i - 1) + 1 = i + l.entryWidth i by
      have := entryWidth_pos l i
      omega] at hk
    rw [hrun] at hround
    simp only [hskip] at hround
    refine ⟨[], u.advancedBy (1 + k), k, hk, hround, ?_, hmisses.trans (.advancedBy _ u), ?_⟩
    · rw [← hplace, after_add]
      exact hu.advancedBy (1 + k)
    · rw [if_neg hpath]
      rfl

/-! ## Groups -/

/-- **What is read of a group** from one of its tokens on: the imports at some tokens,
with none left out that starts a line. -/
structure GroupRead (l : Lexer) (i n : Nat) (is : List Nat) (es : List Import) : Prop where
  entries_eq : es.map Import.bare = is.map l.importAt
  sorted : is.Pairwise (· < ·)
  bounds : ∀ j ∈ is, i ≤ j ∧ j < n ∧ l.HasPath j
  lines : ∀ j, i ≤ j → j < n → j = i ∨ (l.token (j - 1)).kind = .newline → l.HasPath j → j ∈ is

namespace GroupRead

variable {is : List Nat} {e es : List Import}

theorem nil (h : n ≤ i) : GroupRead l i n [] [] :=
  ⟨rfl, .nil, nofun, fun _ hi hn => absurd (h.trans hi) hn.not_ge⟩

/-- An entry in front of the others. -/
theorem cons (h : GroupRead l (i + l.entryWidth i + k) n is es) (hi : (l.token i).kind ≠ .newline)
    (hlt : i < n) (hk : LineEnds (after (i + l.entryWidth i) l) k)
    (he : e.map Import.bare = if l.HasPath i then [l.importAt i] else []) :
    GroupRead l i n ((if l.HasPath i then [i] else []) ++ is) (e ++ es) := by
  have hwidth := entryWidth_pos l i
  have hfirst : ∀ j ∈ (if l.HasPath i then [i] else []), j = i ∧ l.HasPath i := fun j hj => by
    split at hj
    · next hpath => exact ⟨List.mem_singleton.1 hj, hpath⟩
    · cases hj
  refine ⟨?_, List.pairwise_append.2 ⟨?_, h.sorted, fun j hj j' hj' => ?_⟩, fun j hj => ?_,
    fun j hij hjn hline hpath => ?_⟩
  · rw [List.map_append, List.map_append, he, h.entries_eq]
    split <;> rfl
  · split
    · exact List.pairwise_singleton _ _
    · exact .nil
  · obtain ⟨rfl, -⟩ := hfirst j hj
    have := (h.bounds j' hj').1
    omega
  · rcases List.mem_append.1 hj with hj | hj
    · obtain ⟨rfl, hpath⟩ := hfirst j hj
      exact ⟨le_rfl, hlt, hpath⟩
    · obtain ⟨hle, hjn, hpath⟩ := h.bounds j hj
      exact ⟨by omega, hjn, hpath⟩
  · rcases hij.eq_or_lt with rfl | hij
    · rw [if_pos hpath]
      exact List.mem_append_left _ (List.mem_singleton_self _)
    · have hline := hline.resolve_left hij.ne'
      exact List.mem_append_right _
        (h.lines j (lt_or_le_of_hasPath hi hk hij hline hpath) hjn (.inr hline) hpath)

/-- Line ends in front of a group hold no entries. -/
theorem of_lineEnds (h : GroupRead l (i + k) n is es) (hk : LineEnds (after i l) k) :
    GroupRead l i n is es := by
  refine ⟨h.entries_eq, h.sorted, fun j hj => ?_, fun j hij hjn hline hpath => ?_⟩
  · obtain ⟨hle, hjn, hpath⟩ := h.bounds j hj
    exact ⟨by omega, hjn, hpath⟩
  · have hle : i + k ≤ j := Nat.le_of_not_lt fun hlt => by
      have hkind := hk.kind_eq (i := j - i) (by omega)
      rw [token_after, Nat.add_sub_cancel' hij] at hkind
      exact not_hasPath_newline hkind hpath
    exact h.lines j hle hjn (hline.imp_left fun heq => by omega) hpath

end GroupRead

/-- **The entries of a group from one of them on**, by induction on how many tokens
there are up to the parenthesis. The invariant is that the names in front of the entry
have all been skipped, and so they are even in number. If those in front of the
parenthesis are not, the last of them takes the parenthesis along. -/
theorem exists_run_group (h : l.IsImportGroup first n) (hfirst : first < i) (hle : i ≤ n)
    (hline : (l.token i).kind ≠ .newline) (heven : Even (l.namesBefore i))
    (hs : s.Follows (after i l)) :
    ∃ is es p u, GroupRead l i n is es
      ∧ (repeated groupRound).run s
        = (es ++ ((repeated groupRound).run u).1, ((repeated groupRound).run u).2)
      ∧ MissesPaths s u ∧ u.Follows (after p l)
      ∧ (Even (l.namesBefore n) ∧ p = n
        ∨ ¬ Even (l.namesBefore n) ∧ ∃ k, LineEnds (after (n + 1) l) k ∧ p = n + 1 + k) := by
  induction hm : n - i using Nat.strong_induction_on generalizing i s with
  | _ m ih =>
    subst hm
    rcases hle.eq_or_lt with rfl | hlt
    · exact ⟨[], [], i, s, .nil le_rfl, rfl, .refl s, hs, .inl ⟨heven, rfl⟩⟩
    obtain ⟨hopen, hthere⟩ := h.inside i hfirst hlt
    obtain ⟨e, u, k, hk, hround, hu, hmisses, he⟩ := exists_run_groupRound hs hopen hthere
    have hgoes := run_repeated_more moves_groupRound hs.inOrder le_rfl hround
    have heven' := even_namesBefore_entryWidth heven
    have hwidth := entryWidth_pos l i
    by_cases hbehind : i + l.entryWidth i ≤ n
    · have hline' : (l.token (i + l.entryWidth i + k)).kind ≠ .newline := by
        rw [← token_after]
        exact hk.kind_ne
      have hle' : i + l.entryWidth i + k ≤ n := Nat.le_of_not_lt fun hlt' => by
        have hkind := hk.kind_eq (i := n - (i + l.entryWidth i)) (by omega)
        rw [token_after, Nat.add_sub_cancel' hbehind, h.closes] at hkind
        cases hkind
      obtain ⟨is, es, p, v, hread, hrun, hmisses', hv, hp⟩ := ih (n - (i + l.entryWidth i + k))
        (by omega) (by omega) hle' hline' (even_namesBefore_lineEnds heven' hk) hu rfl
      refine ⟨_, e ++ es, p, v, hread.cons hline hlt hk he, ?_, hmisses.trans hmisses', hv, hp⟩
      rw [hgoes, hrun, List.append_assoc]
    · -- only a name reads two tokens, and so the last name is one too many
      have hname : NamesImport (l.token i) := by
        by_contra hnone
        rw [entryWidth, if_neg hnone] at hbehind
        omega
      have hlast : i + l.entryWidth i = n + 1 ∧ i + 1 = n := by
        rw [entryWidth, if_pos hname] at hbehind ⊢
        omega
      have hodd : ¬ Even (l.namesBefore n) := by
        rw [← hlast.2, namesBefore_of_names hname, Nat.even_add_one]
        exact not_not_intro heven
      refine ⟨_, e ++ [], _, u, (GroupRead.nil (by omega)).cons hline hlt hk he, ?_, hmisses, hu,
        .inr ⟨hodd, k, ?_, ?_⟩⟩
      · rw [List.append_nil, hgoes]
      · rwa [hlast.1] at hk
      · rw [hlast.1]

/-- The stream behind what a group has left to read, and its parenthesis. -/
def behindGroup (s : TokenStream) : TokenStream :=
  (skipNewlines.run ((expect .rightParen).run ((repeated groupRound).run s).2).2).2

/-- The parenthesis is the first token behind `import` that is no line end. -/
theorem lineEnds_of_isImportGroup (h : l.IsImportGroup first n) :
    0 < first ∧ LineEnds (after 1 l) (first - 1) := by
  have hpos : 0 < first := Nat.pos_of_ne_zero fun heq => by
    have hopens := h.opens
    rw [heq, h.word] at hopens
    cases hopens
  refine ⟨hpos, fun j hj => ?_, .inr ?_⟩
  · rw [token_after, h.before (1 + j) (by omega) (by omega)]
    exact ⟨nofun, not_not_intro rfl⟩
  · rw [token_after, Nat.add_sub_cancel' hpos, h.opens]
    exact nofun

/-- **The entries of a group start** behind its parenthesis and the line ends there. -/
theorem exists_start_of_isImportGroup (h : l.IsImportGroup first n) (hs : s.Follows l) :
    ∃ k t, LineEnds (after (first + 1) l) k ∧ first + 1 + k ≤ n
      ∧ Even (l.namesBefore (first + 1 + k)) ∧ t.Follows (after (first + 1 + k) l)
      ∧ MissesPaths s t
      ∧ importRound.run s = (Round.more ((repeated groupRound).run t).1, behindGroup t) := by
  obtain ⟨hpos, hlines⟩ := lineEnds_of_isImportGroup h
  have hword := Passes.advanceLine hlines s hs
  rw [Nat.add_sub_cancel' hpos] at hword
  have hparen := hs.advancedBy first
  have hkind : (s.advancedBy first).current.kind = .leftParen := by
    rw [hparen.current, token_after, Nat.add_zero, h.opens]
  obtain ⟨k, hk⟩ := exists_lineEnds hparen.advanced
  have hinside := Passes.advanceLine hk _ hparen
  have hstart := hparen.advancedBy (1 + k)
  rw [← after_add] at hk
  rw [← after_add, ← Nat.add_assoc] at hstart
  have hle : first + 1 + k ≤ n := Nat.le_of_not_lt fun hlt => by
    have hkind := hk.kind_eq (i := n - (first + 1)) (by have := h.lt; omega)
    rw [token_after, Nat.add_sub_cancel' h.lt, h.closes] at hkind
    cases hkind
  have hnone : ¬ NamesImport (l.token first) := by
    rw [NamesImport, h.opens]
    decide
  have heven : Even (l.namesBefore (first + 1 + k)) := by
    refine even_namesBefore_lineEnds ?_ hk
    rw [namesBefore_of_not hnone]
    exact Even.zero
  refine ⟨k, _, hk, hle, heven, hstart,
    (MissesPaths.advancedBy first s).trans (.advancedBy (1 + k) _), ?_⟩
  change (ite (s.current.kind = .importWord) _ _ : Parse (Round Import)).run s = _
  rw [if_pos (by rw [hs.current, h.word]), run_bind_eq rfl, hword]
  change (ite ((s.advancedBy first).current.kind = .leftParen) _ _ : Parse (Round Import)).run
    (s.advancedBy first) = _
  rw [if_pos hkind, run_bind_eq rfl, hinside]
  rfl

/-- **A group of imports in a file.** If an even number of names stands directly in
front of its closing parenthesis, it ends there. Else the parenthesis is skipped with
the last name, and the group goes on behind it. -/
theorem exists_run_importRound (h : l.IsImportGroup first n) (hs : s.Follows l) :
    ∃ is es u k, GroupRead l (first + 1) n is es ∧ LineEnds (after (n + 1) l) k
      ∧ u.Follows (after (n + 1 + k) l) ∧ MissesPaths s u
      ∧ importRound.run s = if Even (l.namesBefore n) then (Round.more es, u)
        else (Round.more (es ++ ((repeated groupRound).run u).1), behindGroup u) := by
  obtain ⟨k₀, t, hk₀, hle, heven, hstart, hmisses, hround⟩ := exists_start_of_isImportGroup h hs
  obtain ⟨is, es, p, u, hread, hgroup, hmisses', hu, hp⟩ := exists_run_group h (by omega) hle
    (by
      rw [← token_after]
      exact hk₀.kind_ne) heven hstart
  rw [behindGroup, hgroup] at hround
  rcases hp with ⟨hnames, rfl⟩ | ⟨hnames, k, hk, rfl⟩
  · have hclose : groupRound.run u = (Round.last [], u) := by
      change (ite _ _ _ : Parse (Round Import)).run u = _
      rw [if_pos (by simp [hu.current, token_after, h.closes])]
      rfl
    obtain ⟨k, hk⟩ := exists_lineEnds hu.advanced
    have hkind : u.current.kind = .rightParen := by
      rw [hu.current, token_after, Nat.add_zero, h.closes]
    have hskip := Passes.skipNewlines hk _ hu.advanced
    have hfollows := hu.advanced.advancedBy k
    rw [← after_add] at hk
    rw [← after_add, ← after_add, ← Nat.add_assoc] at hfollows
    have hbehind : MissesPaths u (u.advanced.advancedBy k) :=
      (MissesPaths.advancedBy 1 u).trans (.advancedBy k _)
    refine ⟨is, es, u.advanced.advancedBy k, k, hread.of_lineEnds hk₀, hk, hfollows,
      hmisses.trans (hmisses'.trans hbehind), ?_⟩
    rw [hround, run_repeated_last hclose, run_expect hkind, hskip, if_pos hnames, List.append_nil]
  · exact ⟨is, es, u, k, hread.of_lineEnds hk₀, hk, hu, hmisses.trans hmisses', by
      rw [hround, if_neg hnames, behindGroup]⟩

/-! ## Files -/

theorem inOrder_atImports (name source : String) : (atImports (ofSource name source)).InOrder := by
  have hstart : FollowsIn source (ofSource name source) := ⟨_, rfl, .ofSource name source⟩
  have hpackage : FollowsIn source (atPackage (ofSource name source)) :=
    (Sound.leadingComments (I := capturedStatements source) _ (Sound.skipNewlines _ hstart).1).1
  obtain ⟨l, -, hl⟩ : FollowsIn source (atImports (ofSource name source)) :=
    (Sound.skipNewlines (I := capturedStatements source) _ (Sound.packageName _ hpackage).1).1
  exact hl.inOrder

/-- The first imports of a source, and the stream behind them. -/
def firstImports (m : Nat) (s : TokenStream) : List (Round Import) × TokenStream :=
  (roundsOf importRound m).run (atImports s)

end Parse

open Parse in
/-- **Where a group of imports ends.** Wherever in a source reading comes to a group of
imports, up to its first closing parenthesis: the file has an import for each of its
lines that start with a path, or with a name and a path. If an even number of names
stands directly in front of the parenthesis, the group ends there, whatever else is in
it; and the imports behind it and the declarations are those that are read from the
stream behind the parenthesis, which differs from the one in front of the group in its
place, in the comments that it holds, and in complaints about missing paths. Else the
group goes on there. -/
theorem SourceFile.closes_importGroup {name source : String} {f : SourceFile}
    {notes : List Diagnostic} {restarts : List Recovery}
    (hread : SourceFile.read name source = .ok ⟨some f, notes, restarts⟩) {l : Lexer}
    {m first n : Nat} (hagain : ∀ r ∈ (firstImports m (ofSource name source)).1, r.again = true)
    (hs : (firstImports m (ofSource name source)).2.Follows l) (h : l.IsImportGroup first n) :
    ∃ is es u k, GroupRead l (first + 1) n is es ∧ LineEnds (after (n + 1) l) k
      ∧ u.Follows (after (n + 1 + k) l) ∧ MissesPaths (firstImports m (ofSource name source)).2 u
      ∧ ∃ more v, (Even (l.namesBefore n) → more = [] ∧ v = u)
        ∧ (¬ Even (l.namesBefore n) → more = ((repeated groupRound).run u).1 ∧ v = behindGroup u)
        ∧ f.imports = (firstImports m (ofSource name source)).1.flatMap Round.items
          ++ (es ++ more ++ (Parse.imports.run v).1)
        ∧ let t := (skipNewlines.run (Parse.imports.run v).2).2
          f.components = (declarations.run t).1.filterMap Declaration.component?
            ∧ f.funcs = (declarations.run t).1.filterMap Declaration.func?
            ∧ f.decls = (declarations.run t).1.filterMap Declaration.decl?
            ∧ notes = (behindDeclarations t).diagnostics
              ++ (behindDeclarations t).lexer.diagnostics := by
  obtain ⟨package, hname⟩ := packageName_of_read hread
  obtain ⟨file, hrun, himports, hcomponents, hfuncs, hdecls⟩ := sourceFile_of_some hname
  obtain ⟨is, es, u, k, hgroup, hk, hu, hmisses, hround⟩ := exists_run_importRound h hs
  obtain ⟨more, v, heven, hodd, hround⟩ : ∃ more v, (Even (l.namesBefore n) → more = [] ∧ v = u)
      ∧ (¬ Even (l.namesBefore n) → more = ((repeated groupRound).run u).1 ∧ v = behindGroup u)
      ∧ importRound.run (firstImports m (ofSource name source)).2
        = (Round.more (es ++ more), v) := by
    by_cases hnames : Even (l.namesBefore n)
    · rw [if_pos hnames] at hround
      exact ⟨[], u, fun _ => ⟨rfl, rfl⟩, absurd hnames, by rw [hround, List.append_nil]⟩
    · rw [if_neg hnames] at hround
      exact ⟨_, _, fun h => absurd h hnames, fun _ => ⟨rfl, rfl⟩, hround⟩
  have horder := inOrder_atImports name source
  have hrest := run_repeated_more moves_importRound hs.inOrder le_rfl hround
  have hall := run_repeated_roundsOf moves_importRound horder le_rfl hagain
  have hbehind : ((roundsOf importRound m).run (atImports (ofSource name source))).2
    = (firstImports m (ofSource name source)).2 := rfl
  rw [hbehind, hrest] at hall
  have hthere : atDeclarations (ofSource name source)
      = (skipNewlines.run (Parse.imports.run v).2).2 := by
    change (skipNewlines.run
      ((repeated importRound).run (atImports (ofSource name source))).2).2 = _
    rw [hall]
    rfl
  rw [read_eq, hrun] at hread
  obtain ⟨hfile, hnotes, -⟩ := of_told hread
  cases Option.some.inj hfile
  rw [hthere] at hcomponents hfuncs hdecls hnotes
  refine ⟨is, es, u, k, hgroup, hk, hu, hmisses, more, v, heven, hodd, ?_, hcomponents, hfuncs,
    hdecls, hnotes⟩
  rw [himports, Parse.imports, hall]
  rfl

/-! A group with bad lines. -/

/-- The source. -/
def badLines : String :=
  "package x\n\nimport (\n\t\"fmt\"\n\t42\n\tf \"strings\"\n\ty z)\nimport \"os\"\n\n"
    ++ "@component A() \x7b\n\x7d\n"

namespace Parse

/-- The lexer in front of the group. -/
def atBadLines : Lexer := after 4 (.ofSource "" badLines)

theorem follows_atBadLines : (firstImports 0 (ofSource "" badLines)).2.Follows atBadLines :=
  .of_after (by decide +kernel)

theorem isImportGroup_atBadLines : atBadLines.IsImportGroup 1 12 := by
  decide +kernel

end Parse

open Parse in
/-- The group ends at its parenthesis, and what is behind it is read. -/
theorem SourceFile.closes_importGroup_badLines :
    ∃ f notes, SourceFile.read "" badLines = .ok ⟨some f, notes, []⟩
      ∧ (firstImports 0 (ofSource "" badLines)).2.Follows atBadLines
      ∧ atBadLines.IsImportGroup 1 12 ∧ Even (atBadLines.namesBefore 12)
      ∧ f.imports.map (·.path) = ["fmt", "strings", "os"] ∧ f.components.map (·.name) = ["A"]
      ∧ ∃ es u, u.Follows (after 14 atBadLines) ∧ f.imports = es ++ (Parse.imports.run u).1
        ∧ atBadLines.importAt 3 ∈ es.map Import.bare
        ∧ atBadLines.importAt 7 ∈ es.map Import.bare := by
  obtain ⟨f, notes, hread, hpaths, hnames⟩ : ∃ f notes,
      SourceFile.read "" badLines = .ok ⟨some f, notes, []⟩
        ∧ f.imports.map (·.path) = ["fmt", "strings", "os"] ∧ f.components.map (·.name) = ["A"] :=
    ⟨_, _, rfl, rfl, rfl⟩
  have heven : Even (atBadLines.namesBefore 12) := by decide +kernel
  obtain ⟨is, es, u, k, hgroup, hk, hu, -, more, v, hends, -, himports, -⟩ :=
    closes_importGroup hread (m := 0) nofun follows_atBadLines isImportGroup_atBadLines
  obtain ⟨rfl, rfl⟩ := hends heven
  rw [List.append_nil] at himports
  have hlines : LineEnds (after 13 atBadLines) 1 :=
    ⟨by decide +kernel, .inr (by decide +kernel)⟩
  obtain rfl := hk.unique hlines
  have hmem (j : Nat) (hj : 1 < j ∧ j < 12) (hline : (atBadLines.token (j - 1)).kind = .newline)
      (hpath : atBadLines.HasPath j) : atBadLines.importAt j ∈ es.map Import.bare := by
    rw [hgroup.entries_eq]
    exact List.mem_map_of_mem (hgroup.lines j hj.1 hj.2 (.inr hline) hpath)
  exact ⟨f, notes, hread, follows_atBadLines, isImportGroup_atBadLines, heven, hpaths, hnames,
    es, v, hu, himports, hmem 3 (by decide) (by decide +kernel) (by decide +kernel),
    hmem 7 (by decide) (by decide +kernel) (by decide +kernel)⟩

end Gsx
