import Gsx.Proofs.Attachment.Files
import Gsx.Proofs.Attachment.Walks
import Gsx.Proofs.Grammar.AccountedFiles
/-!
# The comments of a file

What a reading without diagnostics does with the comments of its source. Whoever walks
over the tokens and behind the expressions in braces finds each comment in the file,
but for those directly in front of free text, which may get lost. Each comment is in
the file once, if no closing brace hides in a comment behind the opening one. Then the
only comments from inside the braces that are in the file, too, are those directly
behind the opening one.
-/

namespace Gsx

open Parse TokenStream

/-! ## Braces of a file -/

/-- The braces that stand at a station. -/
def Station.ranges (source : List Char) : Station → List SourceRange
  | .braces p => SourceRange.ofBraces source (p.offset source)
  | .site _ | .text _ => []

namespace SourceFile

/-- **The expressions in braces** of a file, in its source. -/
def braces (source : List Char) (f : SourceFile) : List SourceRange :=
  f.stations.flatMap (Station.ranges source)

theorem mem_braces {source : List Char} {f : SourceFile} {r : SourceRange} :
    r ∈ f.braces source ↔ ∃ p, .braces p ∈ f.stations
      ∧ r ∈ SourceRange.ofBraces source (p.offset source) := by
  unfold braces
  constructor
  · intro h
    obtain ⟨x, hx, hr⟩ := List.mem_flatMap.1 h
    cases x with
    | braces p => exact ⟨p, hx, hr⟩
    | _ => exact absurd hr List.not_mem_nil
  · rintro ⟨p, hp, hr⟩
    exact List.mem_flatMap.2 ⟨_, hp, hr⟩

/-- **No closing brace hides** in a comment: behind each opening brace a token starts
in front of the closing one. -/
def ShowsBraces (source : List Char) (f : SourceFile) : Prop :=
  ∀ r ∈ f.braces source, (tokenAt source (r.start + 1)).start < r.stop

instance (source : List Char) (f : SourceFile) : Decidable (f.ShowsBraces source) :=
  inferInstanceAs (Decidable (∀ r ∈ f.braces source, _))

/-- **An offset directly in front of free text**: no node starts in between. -/
def BeforeText (source : List Char) (f : SourceFile) (x : Nat) : Prop :=
  ∃ p, .text p ∈ f.stations ∧ x < p.offset source
    ∧ ∀ q, .site q ∈ f.stations → q.offset source ≤ x ∨ p.offset source ≤ q.offset source

/-- Where the comments of a file start. -/
def attachedAt (f : SourceFile) : List Nat :=
  f.comments.map Comment.offset

end SourceFile

/-! ## The ledger of a file -/

/-- **The ledger of a reading**: a course that a file tells, from the start of its
source to the end, where nothing is left. -/
structure SourceFile.HasLedger (source : List Char) (f : SourceFile) (ds : List Deed) (o : Nat) :
    Prop where
  told : Told ds f.comments f.stations
  ledger : Ledger source 0 (commentsAt source 0
    ++ commentsAt source (behindToken source 0)) ds o []
  ends : (tokenAt source o).kind = .endOfInput

/-- At the start of a source all is tidy. -/
theorem Ledger.tidy_start (source : List Char) :
    Tidy source 0 (commentsAt source 0 ++ commentsAt source (behindToken source 0)) :=
  tidy_of_two [] .nil (fun _ h => absurd h List.not_mem_nil) (Nat.zero_le _)

theorem SourceFile.exists_ledger {name source : String} {r : Reading} {f : SourceFile}
    (h : SourceFile.read name source = .ok r) (hclean : r.diagnostics = []) (hf : r.file = some f) :
    ∃ ds o, f.HasLedger source.toList ds o := by
  obtain ⟨hfile, hdiagnostics⟩ := eq_of_read h
  rw [hf] at hfile
  rw [hclean, List.subset_nil] at hdiagnostics
  have hexhausted := (reading_ends name source).2.1
  have huntroubled : ¬(sourceFile.run (.ofSource name source)).2.IsTroubled := by
    rintro (hbound | herror)
    · rw [hexhausted] at hbound
      cases hbound
    · exact herror hdiagnostics
  obtain ⟨ds, hcourse, hyields⟩ := Does.sourceFile.course huntroubled
  rw [← hfile] at hyields
  obtain ⟨htold, front, t, cs, rfl⟩ := hyields
  obtain ⟨hstart, hheld⟩ := GoesFrom.ofSource name source
  obtain ⟨o, hend, hledger⟩ := hcourse.ledger hstart
  have hkind : (tokenAt source.toList o).kind = .endOfInput := by
    rw [← hend.isReadAt.kind]
    refine (finishes_sourceFile _ (by rw [← hfile]; rfl)).resolve_left ?_
    rw [hexhausted]
    exact nofun
  rw [hheld] at hledger
  have hdone := hledger.done_of_take (Nat.zero_le _) (fun x hx => ?_) hkind
  · rw [hdone] at hledger
    exact ⟨_, o, htold, hledger, hkind⟩
  · exact ((Ledger.tidy_start _).lt x hx).trans_le ((start_le_behindToken _ _).trans
      (behindToken_le_length _ _))

namespace SourceFile.HasLedger

variable {source : List Char} {f : SourceFile} {ds : List Deed} {o : Nat}

/-- **The braces of a file** are those that its course goes behind. -/
theorem mem_braces_iff (h : f.HasLedger source ds o) {r : SourceRange} :
    r ∈ f.braces source ↔ ∃ t, .braces t ∈ ds ∧ r ∈ SourceRange.ofBraces source t.start := by
  have hopens : ∀ {t : Token}, .braces t ∈ ds → t.position.offset source = t.start := fun ht => by
    obtain ⟨q, hread⟩ := h.ledger.exists_isReadAt ht rfl
    refine hread.offset_position ?_
    rw [h.ledger.kind_of_braces ht]
    exact nofun
  rw [mem_braces]
  constructor
  · rintro ⟨p, hp, hr⟩
    obtain ⟨d, hd, hembeds⟩ := h.told.stations _ hp
    cases d with
    | braces t =>
      obtain rfl : t.position = p := hembeds
      exact ⟨t, hd, hopens hd ▸ hr⟩
    | token t =>
      -- no name starts with a brace
      obtain ⟨hkind, rfl⟩ := hembeds
      obtain ⟨q, hread⟩ := h.ledger.exists_isReadAt hd rfl
      rw [hread.offset_position (by rw [hkind]; exact nofun), hread.start] at hr
      have hbrace := (SourceRange.tokenAt_of_mem hr).1
      rw [← hread.kind, hkind] at hbrace
      cases hbrace
    | _ => exact hembeds.elim
  · rintro ⟨t, ht, hr⟩
    exact ⟨_, h.told.braces t ht, (hopens ht).symm ▸ hr⟩

theorem minds (h : f.HasLedger source ds o) : Minds source (f.braces source) ds where
  there r hr := by
    obtain ⟨t, -, hr⟩ := h.mem_braces_iff.1 hr
    rwa [(SourceRange.ofBraces_spec hr).1]
  token t ht hthere r hr := by
    obtain ⟨u, hu, hr⟩ := h.mem_braces_iff.1 hr
    rw [(SourceRange.ofBraces_spec hr).1]
    exact h.ledger.start_ne ht hthere hu
  braces t ht r hr := h.mem_braces_iff.2 ⟨t, ht, hr⟩

theorem apart (h : f.HasLedger source ds o) (hshows : f.ShowsBraces source) :
    Ledger.Apart source ds :=
  fun t ht r hr => hshows r (h.mem_braces_iff.2 ⟨t, ht, hr⟩)

/-- The comments of the file are those that are taken and do not get lost. -/
theorem perm_attachedAt (h : f.HasLedger source ds o) :
    ((ds.flatMap Deed.kept).map Comment.offset).Perm f.attachedAt :=
  h.told.comments.map _

theorem sublist_takenAt (ds : List Deed) :
    ((ds.flatMap Deed.kept).map Comment.offset).Sublist (takenAt ds) := by
  refine List.Sublist.map _ ?_
  induction ds with
  | nil => exact .slnil
  | cons d ds ih =>
    rw [List.flatMap_cons, List.flatMap_cons]
    exact d.kept_sublist.append ih

/-- **No comment is in the file twice.** -/
theorem nodup (h : f.HasLedger source ds o) (hshows : f.ShowsBraces source) :
    f.attachedAt.Nodup := by
  have htidy := h.ledger.tidy_of_tidy (h.apart hshows) (Ledger.tidy_start source)
  rw [List.append_nil] at htidy
  exact h.perm_attachedAt.nodup_iff.1 ((sublist_takenAt ds).nodup htidy.nodup)

/-- Of those in braces only the first ones are. -/
theorem lt_of_mem (h : f.HasLedger source ds o) (hshows : f.ShowsBraces source) {x : Nat}
    (hx : x ∈ f.attachedAt) {r : SourceRange} (hr : r ∈ f.braces source) (hstart : r.start < x)
    (hstop : x < r.stop) : x < (tokenAt source (r.start + 1)).start := by
  obtain ⟨t, ht, hr⟩ := h.mem_braces_iff.1 hr
  refine h.ledger.lt_of_taken (h.apart hshows) (Ledger.tidy_start source) ht hr ?_ hstart hstop
  exact (sublist_takenAt ds).subset (h.perm_attachedAt.mem_iff.2 hx)

/-- **What is taken and not kept** stands in front of free text. -/
theorem mem_or_beforeText (h : f.HasLedger source ds o) {x : Nat} (hx : x ∈ takenAt ds) :
    x ∈ f.attachedAt ∨ f.BeforeText source x := by
  obtain ⟨d, hd, c, hc, rfl⟩ := mem_takenAt.1 hx
  by_cases hkept : c ∈ d.kept
  · refine .inl (h.perm_attachedAt.mem_iff.1 (List.mem_map_of_mem ?_))
    exact List.mem_flatMap.2 ⟨d, hd, hkept⟩
  cases d with
  | take t kept cs =>
    cases kept with
    | true => exact absurd hc hkept
    | false =>
      obtain ⟨hthere, htext⟩ := h.told.texts t cs hd
      obtain ⟨q, hread⟩ := h.ledger.exists_isReadAt hd rfl
      have hstart := hread.offset_position hthere
      refine .inr ⟨t.position, htext, ?_, fun site hsite => ?_⟩
      · rw [hstart]
        exact h.ledger.lt_of_take hd c hc
      · rw [hstart]
        exact h.ledger.le_of_lost (Nat.zero_le _) hd hc (h.told.stations _ hsite)
  | _ => exact absurd hc hkept

/-- **A walk meets** the comments of the file. -/
theorem meets (h : f.HasLedger source ds o) :
    ∀ x ∈ f.attachedAt, Meets source (f.braces source) x := by
  intro x hx
  have hstart : ∀ q, Walk source (f.braces source) 0 q → Ledger.Gets source (f.braces source) q :=
    fun _ => .inl
  refine h.ledger.meets_of_taken h.minds (hstart 0 .refl) (List.forall_mem_append.2 ⟨?_, ?_⟩) x
    ((sublist_takenAt ds).subset (h.perm_attachedAt.mem_iff.2 hx))
  · exact fun x hx => .inl ⟨0, .refl, hx⟩
  · exact (hstart 0 .refl).meets h.minds.there

/-- And it finds comments that are taken. -/
theorem mem_takenAt_of_walk (h : f.HasLedger source ds o) {p : Nat}
    (hwalk : Walk source (f.braces source) 0 p) {x : Nat} (hx : x ∈ commentsAt source p) :
    x ∈ takenAt ds := by
  have hfound := h.ledger.found_of_walk [] (Nat.zero_le _) h.minds h.ends (fun x hx => .inr hx)
    hwalk hx
  exact (hfound.resolve_left List.not_mem_nil).resolve_right List.not_mem_nil

end SourceFile.HasLedger

namespace SourceFile

/-! ## Results -/

variable {name source : String} {r : Reading} {f : SourceFile}

/-- **A comment is attached at most once**, where no closing brace hides in a comment,
and it is one that a walk over the source meets. Of the comments between braces only
those directly behind the opening one are attached to a node. -/
theorem attached_once (h : SourceFile.read name source = .ok r) (hclean : r.diagnostics = [])
    (hf : r.file = some f) (hshows : f.ShowsBraces source.toList) :
    f.attachedAt.Nodup ∧ ∀ x ∈ f.attachedAt, Meets source.toList (f.braces source.toList) x
      ∧ ∀ g ∈ f.braces source.toList, g.start < x → x < g.stop →
        x < (tokenAt source.toList (g.start + 1)).start := by
  obtain ⟨ds, o, hledger⟩ := exists_ledger h hclean hf
  refine ⟨hledger.nodup hshows, fun x hx => ⟨hledger.meets x hx, fun g hg hstart hstop => ?_⟩⟩
  exact hledger.lt_of_mem hshows hx hg hstart hstop

/-- A component with comments in front of it, and one in braces. -/
def remarkedCard : String :=
  "package /* m */ a\n\n// n\n@component A(x string) \x7b\n\t<p>\x7bx /* o */\x7d</p>\n\x7d\n"

/-- Its brace closes in sight, and stands behind its first token. -/
theorem read_remarkedCard :
    ∃ r f, SourceFile.read "" remarkedCard = .ok r ∧ r.diagnostics = [] ∧ r.file = some f
      ∧ f.ShowsBraces remarkedCard.toList
      ∧ ∀ g ∈ f.braces remarkedCard.toList, g.start ≠ (tokenAt remarkedCard.toList 0).start := by
  have hrun : (SourceFile.read "" remarkedCard).toOption.any (fun r => r.diagnostics.isEmpty
      && r.file.any fun f => decide (f.ShowsBraces remarkedCard.toList
        ∧ ∀ g ∈ f.braces remarkedCard.toList, g.start ≠ (tokenAt remarkedCard.toList 0).start))
      = true := by
    decide +kernel
  cases hread : SourceFile.read "" remarkedCard with
  | error i =>
    rw [hread] at hrun
    cases hrun
  | ok r =>
    rw [hread] at hrun
    obtain ⟨hclean, hfile⟩ := Bool.and_eq_true_iff.1 hrun
    obtain ⟨f, hf, hbraces⟩ := (Option.any_eq_true _ _).1 hfile
    exact ⟨r, f, rfl, List.isEmpty_iff.1 hclean, hf, of_decide_eq_true hbraces⟩

/-- Its comments are attached once, and the one in braces is not. -/
theorem attached_once_remarkedCard :
    ∃ r f, SourceFile.read "" remarkedCard = .ok r ∧ r.diagnostics = [] ∧ r.file = some f
      ∧ f.ShowsBraces remarkedCard.toList ∧ f.attachedAt.Nodup
      ∧ ∀ x ∈ f.attachedAt, Meets remarkedCard.toList (f.braces remarkedCard.toList) x
        ∧ ∀ g ∈ f.braces remarkedCard.toList, g.start < x → x < g.stop →
          x < (tokenAt remarkedCard.toList (g.start + 1)).start := by
  obtain ⟨r, f, hread, hclean, hf, hshows, -⟩ := read_remarkedCard
  exact ⟨r, f, hread, hclean, hf, hshows, attached_once hread hclean hf hshows⟩

/-- **No comment is lost but in front of free text**: whoever walks over a source and
behind the expressions in braces finds each comment in the file, once if no closing
brace hides in a comment, or there is free text behind it and no node starts in
between. -/
theorem attached_or_beforeText (h : SourceFile.read name source = .ok r)
    (hclean : r.diagnostics = []) (hf : r.file = some f) {o : Nat}
    (hwalk : Walk source.toList (f.braces source.toList) 0 o) {x : Nat}
    (hx : x ∈ commentsAt source.toList o) :
    x ∈ f.attachedAt ∧ (f.ShowsBraces source.toList → f.attachedAt.count x = 1)
      ∨ x ∉ f.attachedAt ∧ f.BeforeText source.toList x := by
  obtain ⟨ds, p, hledger⟩ := exists_ledger h hclean hf
  have hfound := hledger.mem_or_beforeText (hledger.mem_takenAt_of_walk hwalk hx)
  by_cases hmem : x ∈ f.attachedAt
  · exact .inl ⟨hmem, fun hshows => List.count_eq_one_of_mem (hledger.nodup hshows) hmem⟩
  · exact .inr ⟨hmem, hfound.resolve_left hmem⟩

/-- The comment behind its first token is attached. -/
theorem attached_or_beforeText_remarkedCard :
    ∃ r f, SourceFile.read "" remarkedCard = .ok r ∧ r.diagnostics = [] ∧ r.file = some f
      ∧ ∃ o x, Walk remarkedCard.toList (f.braces remarkedCard.toList) 0 o
        ∧ x ∈ commentsAt remarkedCard.toList o
        ∧ (x ∈ f.attachedAt ∧ (f.ShowsBraces remarkedCard.toList → f.attachedAt.count x = 1)
          ∨ x ∉ f.attachedAt ∧ f.BeforeText remarkedCard.toList x) := by
  obtain ⟨r, f, hread, hclean, hf, -, hbehind⟩ := read_remarkedCard
  have hthere : (tokenAt remarkedCard.toList 0).kind ≠ .endOfInput := by decide +kernel
  have hwalk : Walk remarkedCard.toList (f.braces remarkedCard.toList) 0
      (behindToken remarkedCard.toList 0) := .single (.token hthere hbehind)
  have hx : 8 ∈ commentsAt remarkedCard.toList (behindToken remarkedCard.toList 0) := by
    decide +kernel
  exact ⟨r, f, hread, hclean, hf, _, 8, hwalk, hx,
    attached_or_beforeText hread hclean hf hwalk hx⟩

end SourceFile

end Gsx
