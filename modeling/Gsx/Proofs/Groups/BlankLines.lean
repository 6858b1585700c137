import Mathlib.Data.List.Chain
import Gsx.Proofs.Attachment.Balance
import Gsx.Proofs.Grammar.Appending
import Gsx.Proofs.Groups.Files
/-!
# Blank lines in groups

Comments in front of a node are one group, blank lines or not. They are taken whole at
its first token; and where another node starts before, the comments in front of this one
are gone by then. So the starts tell the groups apart, and a blank line at which nothing
starts stays within a group (`SourceFile.unbroken_groups`).

What is held stands in a row as long as no closing brace hides in a comment. Behind a
brace that does, reading goes on in the middle of this comment, and those behind it, held
already, are lexed once more.
-/

namespace Gsx

/-! ## What is taken in front of two tokens -/

/-- **Held in a row**: comments further and further to the right, in front of the token
behind the current one. -/
structure Row (source : List Char) (o : Nat) (xs : List Nat) : Prop where
  sorted : xs.Pairwise (· < ·)
  lt : ∀ x ∈ xs, x < (tokenAt source (behindToken source o)).start

namespace Row

variable {source : List Char} {o q : Nat} {xs : List Nat}

/-- The comments in front of a token, when all others stand in front of the offset from
which it is read. -/
theorem sorted_append_commentsAt (hxs : xs.Pairwise (· < ·)) (hq : q ≤ source.length)
    (hlt : ∀ x ∈ xs, x < q) : (xs ++ commentsAt source q).Pairwise (· < ·) := by
  obtain ⟨hinside, hrow⟩ := commentsAt_spec hq
  exact List.pairwise_append.2 ⟨hxs, hrow, fun x hx y hy => (hlt x hx).trans_le (hinside y hy).1⟩

theorem tidy (h : Row source o xs) : Ledger.Tidy source o xs :=
  ⟨h.sorted.imp fun hlt => hlt.ne, h.lt⟩

theorem token (h : Row source o xs) : Row source (behindToken source o)
    (xs ++ commentsAt source (behindToken source (behindToken source o))) := by
  refine ⟨sorted_append_commentsAt h.sorted (behindToken_le_length _ _) fun x hx => ?_,
    h.tidy.token.lt⟩
  exact (h.lt x hx).trans_le (start_le_behindToken _ _)

/-- Two tokens are read from an offset, and what was there before stands in front of
it. -/
theorem ofTwo (hxs : xs.Pairwise (· < ·)) (hlt : ∀ x ∈ xs, x < q) (hq : q ≤ source.length) :
    Row source q (xs ++ (commentsAt source q ++ commentsAt source (behindToken source q))) := by
  have htidy := Ledger.tidy_of_two xs (hxs.imp fun hlt => hlt.ne) hlt hq
  refine ⟨?_, htidy.lt⟩
  rw [← List.append_assoc]
  refine sorted_append_commentsAt (sorted_append_commentsAt hxs hq hlt) (behindToken_le_length _ _)
    fun x hx => ?_
  have hbehind := start_le_behindToken source q
  rcases List.mem_append.1 hx with hx | hx
  · have hleft := hlt x hx
    have hstart := le_start_tokenAt hq
    omega
  · have hinside := (commentsAt_spec hq).1 x hx
    omega

end Row

namespace Ledger

variable {source : List Char} {o p : Nat} {xs ys : List Nat} {ds front back : List Deed}
  {t u : Token} {kept kept' : Bool} {cs bs : List Comment}

/-- **What is taken in front of a token** stands in a row, if a token starts in each pair
of braces. -/
theorem sorted_of_take (h : Ledger source o xs ds p ys) (hapart : Apart source ds)
    (hrow : Row source o xs) (ht : .take t kept cs ∈ ds) :
    cs.Pairwise fun c d => c.offset < d.offset := by
  induction h with
  | done => exact absurd ht List.not_mem_nil
  | token _ _ ih => exact ih hapart.tail hrow.token ((List.mem_cons.1 ht).resolve_left nofun)
  | braces hread hr hclears _ ih =>
    -- What was held before stands in front of the token behind the opening brace, and so in
    -- front of the closing one, from which two tokens are read anew.
    refine ih hapart.tail ?_ ((List.mem_cons.1 ht).resolve_left nofun)
    have hlt := hapart _ List.mem_cons_self _ hr
    rw [← (SourceRange.tokenAt_of_mem (hread.start ▸ hr)).2] at hlt
    exact .ofTwo (hrow.sorted.sublist hclears.sublist)
      (fun x hx => (hrow.lt x (hclears.sublist.subset hx)).trans hlt)
      (SourceRange.ofBraces_spec hr).2.2
  | take _ hcs _ ih =>
    rcases List.mem_cons.1 ht with heq | ht
    · cases heq
      refine List.pairwise_map.1 ?_
      rw [hcs]
      exact hrow.sorted.filter _
    · exact ih hapart.tail ⟨hrow.sorted.filter _, fun x hx => hrow.lt x (List.mem_of_mem_filter hx)⟩
        ht
  | trail hcs _ ih =>
    rw [hcs] at hrow
    exact ih hapart.tail ⟨(List.pairwise_append.1 hrow.sorted).2.1,
      fun x hx => hrow.lt x (List.mem_append_right _ hx)⟩ ((List.mem_cons.1 ht).resolve_left nofun)

/-- What is taken later stands further to the right. -/
theorem le_of_take_behind (h : Ledger source o xs (front ++ .take t kept cs :: back) p ys)
    (ho : o ≤ source.length) (hu : .take u kept' bs ∈ back) :
    t.start ≤ u.start ∧ ∀ c ∈ bs, t.start ≤ c.offset := by
  obtain ⟨q, zs, hfront, hback⟩ := h.split
  obtain ⟨hq, -⟩ := hfront.goes_right ho
  refine ⟨?_, fun c hc => hback.le_of_taken hq _ (mem_takenAt.2 ⟨_, hu, c, hc, rfl⟩)⟩
  rw [(hback.isReadAt rfl).start]
  exact (hback.start_deed hq (List.mem_cons_of_mem _ hu) rfl).1

/-- **Of two takes** one comes first, and what the other one takes stands behind its
token. -/
theorem take_cases (h : Ledger source o xs ds p ys) (ho : o ≤ source.length)
    (ht : .take t kept cs ∈ ds) (hu : .take u kept bs ∈ ds) :
    t = u ∧ cs = bs
      ∨ t.start ≤ u.start ∧ (∀ c ∈ bs, t.start ≤ c.offset)
      ∨ u.start ≤ t.start ∧ ∀ c ∈ cs, u.start ≤ c.offset := by
  obtain ⟨front, back, rfl⟩ := List.append_of_mem ht
  rcases List.mem_append.1 hu with hu | hu
  · obtain ⟨first, mid, rfl⟩ := List.append_of_mem hu
    rw [List.append_assoc, List.cons_append] at h
    exact .inr (.inr (h.le_of_take_behind ho (List.mem_append_right _ List.mem_cons_self)))
  · rcases List.mem_cons.1 hu with heq | hu
    · cases heq
      exact .inl ⟨rfl, rfl⟩
    · exact .inr (.inl (h.le_of_take_behind ho hu))

end Ledger

/-! ## Groups of a course -/

/-- **No closing brace hides** in a comment anywhere in a source: behind each opening
brace a token starts in front of the closing one. -/
def ClosesInSight (source : List Char) : Prop :=
  ∀ o, ∀ r ∈ SourceRange.ofBraces source o, (tokenAt source (r.start + 1)).start < r.stop

namespace Holding

/-- A comment in front of something. -/
def IsLeading (hs : List Holding) (c : Comment) : Prop :=
  ∃ p g, .leading p g ∈ hs ∧ c ∈ g.comments

/-- Something starts at a position, with or without comments in front of it. -/
def Starts (hs : List Holding) (p : Position) : Prop :=
  .start p ∈ hs ∨ ∃ g, .leading p g ∈ hs

/-- **Something starts between two comments.** -/
def StartsBetween (source : List Char) (hs : List Holding) (c d : Comment) : Prop :=
  ∃ p, Starts hs p ∧ c.offset < p.offset source ∧ p.offset source ≤ d.offset

/-- **Two comments in front of something follow each other**: no other such comment
starts between them. -/
structure Follow (hs : List Holding) (c d : Comment) : Prop where
  fst : IsLeading hs c
  snd : IsLeading hs d
  lt : c.offset < d.offset
  none : ∀ e, IsLeading hs e → e.offset ≤ c.offset ∨ d.offset ≤ e.offset

/-- **Comments stand together** in front of a token at which no body ends: nothing starts
from the first of them up to the token. -/
def StandTogether (source : List Char) (hs : List Holding) (g : CommentGroup) : Prop :=
  ∃ (t : Token) (o : Nat), t.IsReadAt source o ∧ t.endsBody = false
    ∧ (∀ c ∈ g.comments, c.offset < t.start)
    ∧ ∀ p, Starts hs p → ∀ c ∈ g.comments, p.offset source ≤ c.offset ∨ t.start ≤ p.offset source

/-- **Holdings of a course** through a source, from its start. -/
structure OfCourse (source : List Char) (ds : List Deed) (hs : List Holding) : Prop where
  ledger : ∃ o ys, Ledger source 0 (commentsAt source 0
    ++ commentsAt source (behindToken source 0)) ds o ys
  allOn : AllOn (· ∈ ds) hs

namespace OfCourse

variable {source : List Char} {ds : List Deed} {hs : List Holding} {p q : Position}
  {g k : CommentGroup} {c d : Comment}

/-- The token at which a group is taken. -/
theorem exists_take (h : OfCourse source ds hs) (hg : .leading p g ∈ hs) :
    ∃ t, .take t true g.comments ∈ ds ∧ t.position = p ∧ p.offset source = t.start := by
  obtain ⟨t, ht, hthere, rfl⟩ := h.allOn _ hg
  obtain ⟨o, ys, hledger⟩ := h.ledger
  obtain ⟨q, hread⟩ := hledger.exists_isReadAt ht rfl
  exact ⟨t, ht, rfl, hread.offset_position hthere⟩

/-- Wherever something starts comments are taken, if there are any. -/
theorem exists_take_of_starts (h : OfCourse source ds hs) (hp : Starts hs p) :
    ∃ t cs, .take t true cs ∈ ds ∧ p.offset source = t.start := by
  rcases hp with hp | ⟨g, hg⟩
  · obtain ⟨t, cs, ht, hthere, rfl⟩ := h.allOn _ hp
    obtain ⟨o, ys, hledger⟩ := h.ledger
    obtain ⟨q, hread⟩ := hledger.exists_isReadAt ht rfl
    exact ⟨t, cs, ht, hread.offset_position hthere⟩
  · obtain ⟨t, ht, -, hstart⟩ := h.exists_take hg
    exact ⟨t, _, ht, hstart⟩

/-- **A group stands in front** of what it is for. -/
theorem lt_offset (h : OfCourse source ds hs) (hg : .leading p g ∈ hs) (hc : c ∈ g.comments) :
    c.offset < p.offset source := by
  obtain ⟨t, ht, -, hstart⟩ := h.exists_take hg
  obtain ⟨o, ys, hledger⟩ := h.ledger
  rw [hstart]
  exact hledger.lt_of_take ht c hc

/-- **Of two groups** one is for what comes first, and the other one stands behind its
start. -/
theorem cases (h : OfCourse source ds hs) (hg : .leading p g ∈ hs) (hk : .leading q k ∈ hs) :
    p = q ∧ g = k
      ∨ p.offset source ≤ q.offset source ∧ (∀ c ∈ k.comments, p.offset source ≤ c.offset)
      ∨ q.offset source ≤ p.offset source ∧ ∀ c ∈ g.comments, q.offset source ≤ c.offset := by
  obtain ⟨t, ht, rfl, hstart⟩ := h.exists_take hg
  obtain ⟨u, hu, rfl, hstart'⟩ := h.exists_take hk
  obtain ⟨o, ys, hledger⟩ := h.ledger
  rw [hstart, hstart']
  refine (hledger.take_cases (Nat.zero_le _) ht hu).imp_left ?_
  rintro ⟨rfl, hsame⟩
  exact ⟨rfl, by cases g; cases k; exact congrArg _ hsame⟩

/-- **Nothing starts within comments** that are taken in front of one token, nor from
there up to the token. -/
theorem le_or_le_of_starts (h : OfCourse source ds hs) {t : Token} {cs : List Comment}
    (ht : .take t true cs ∈ ds) (hp : Starts hs p) (hc : c ∈ cs) :
    p.offset source ≤ c.offset ∨ t.start ≤ p.offset source := by
  obtain ⟨u, bs, hu, hstart⟩ := h.exists_take_of_starts hp
  obtain ⟨o, ys, hledger⟩ := h.ledger
  rw [hstart]
  rcases hledger.take_cases (Nat.zero_le _) ht hu with ⟨rfl, -⟩ | ⟨hle, -⟩ | ⟨-, hright⟩
  · exact .inr le_rfl
  · exact .inr hle
  · exact .inl (hright c hc)

theorem not_startsBetween (h : OfCourse source ds hs) (hg : .leading p g ∈ hs)
    (hc : c ∈ g.comments) (hd : d ∈ g.comments) : ¬ StartsBetween source hs c d := by
  rintro ⟨q, hq, hlt, hle⟩
  have hbefore := h.lt_offset hg hd
  obtain ⟨t, ht, -, hstart⟩ := h.exists_take hg
  rcases h.le_or_le_of_starts ht hq hc with hleft | hright <;> omega

/-- **Between two groups something starts.** -/
theorem eq_or_startsBetween (h : OfCourse source ds hs) (hg : .leading p g ∈ hs)
    (hk : .leading q k ∈ hs) (hc : c ∈ g.comments) (hd : d ∈ k.comments)
    (hlt : c.offset < d.offset) : p = q ∧ g = k ∨ StartsBetween source hs c d := by
  have hbefore := h.lt_offset hg hc
  have hbefore' := h.lt_offset hk hd
  rcases h.cases hg hk with heq | ⟨-, hleft⟩ | ⟨-, hright⟩
  · exact .inl heq
  · exact .inr ⟨p, .inr ⟨g, hg⟩, hbefore, hleft d hd⟩
  · have := hright c hc
    omega

/-- **Groups are sorted**, if no closing brace hides. -/
theorem sorted (h : OfCourse source ds hs) (hsight : ClosesInSight source)
    (hg : .leading p g ∈ hs) : g.comments.Pairwise fun c d => c.offset < d.offset := by
  obtain ⟨t, ht, -⟩ := h.exists_take hg
  obtain ⟨o, ys, hledger⟩ := h.ledger
  have hrow : Row source 0 ([] ++ (commentsAt source 0
      ++ commentsAt source (behindToken source 0))) :=
    .ofTwo .nil (fun _ h => absurd h List.not_mem_nil) (Nat.zero_le _)
  exact hledger.sorted_of_take (fun _ _ => hsight _) hrow ht

/-- Groups in front of nothing are unbroken, or they stand together. -/
theorem isUnbroken_or_standTogether (h : OfCourse source ds hs) (hg : .orphan g ∈ hs) :
    g.IsUnbroken ∨ StandTogether source hs g := by
  refine (h.allOn _ hg).imp_right ?_
  rintro ⟨t, ht, hbody⟩
  obtain ⟨o, ys, hledger⟩ := h.ledger
  obtain ⟨q, hread⟩ := hledger.exists_isReadAt ht rfl
  exact ⟨t, q, hread, hbody, hledger.lt_of_take ht, fun p hp c hc => h.le_or_le_of_starts ht hp hc⟩

/-- In a sorted list, two members with none between them stand side by side. -/
theorem exists_append_cons_cons {l : List Comment}
    (hsorted : l.Pairwise fun c d => c.offset < d.offset) (hc : c ∈ l) (hd : d ∈ l)
    (hlt : c.offset < d.offset) (hnone : ∀ e ∈ l, e.offset ≤ c.offset ∨ d.offset ≤ e.offset) :
    ∃ front back, l = front ++ c :: d :: back := by
  obtain ⟨front, rest, rfl⟩ := List.append_of_mem hc
  obtain ⟨-, hrest, hfront⟩ := List.pairwise_append.1 hsorted
  rw [List.pairwise_cons] at hrest
  have hd : d ∈ rest := by
    rcases List.mem_append.1 hd with hd | hd
    · have := hfront d hd c List.mem_cons_self
      omega
    · exact (List.mem_cons.1 hd).resolve_left fun heq => by rw [heq] at hlt; omega
  cases rest with
  | nil => exact absurd hd List.not_mem_nil
  | cons e rest =>
    rcases List.mem_cons.1 hd with rfl | hd
    · exact ⟨front, rest, rfl⟩
    · have hnext := hrest.1 e List.mem_cons_self
      have hbefore := (List.pairwise_cons.1 hrest.2).1 d hd
      have := hnone e (List.mem_append_right _ (List.mem_cons_of_mem _ List.mem_cons_self))
      omega

/-- Side by side in a group, comments follow each other. -/
theorem follow_of_cons_cons (h : OfCourse source ds hs) {front back : List Comment}
    (hg : .leading p g ∈ hs) (hsplit : g.comments = front ++ c :: d :: back)
    (hsorted : g.comments.Pairwise fun c d => c.offset < d.offset) : Follow hs c d := by
  have hc : c ∈ g.comments := by simp [hsplit]
  have hd : d ∈ g.comments := by simp [hsplit]
  have hmem : ∀ e, e ∈ g.comments ↔ e ∈ front ∨ e = c ∨ e = d ∨ e ∈ back := by simp [hsplit]
  rw [hsplit, List.pairwise_append, List.pairwise_cons, List.pairwise_cons] at hsorted
  obtain ⟨-, ⟨hright, hback, -⟩, hfront⟩ := hsorted
  refine ⟨⟨p, g, hg, hc⟩, ⟨p, g, hg, hd⟩, hright d List.mem_cons_self, ?_⟩
  rintro e ⟨q, k, hk, he⟩
  rcases h.cases hg hk with ⟨rfl, rfl⟩ | ⟨-, hlate⟩ | ⟨-, hearly⟩
  · rcases (hmem e).1 he with he | rfl | rfl | he
    · exact .inl (hfront e he c List.mem_cons_self).le
    · exact .inl le_rfl
    · exact .inr le_rfl
    · exact .inr (hback e he).le
  · exact .inr ((h.lt_offset hg hd).le.trans (hlate e he))
  · exact .inl ((h.lt_offset hk he).le.trans (hearly c hc))

/-- **All groups in front of something are unbroken** exactly if something starts at
each blank line between two of their comments. -/
theorem forall_isUnbroken_iff (h : OfCourse source ds hs)
    (hsorted : ∀ p g, .leading p g ∈ hs → g.comments.Pairwise fun c d => c.offset < d.offset) :
    (∀ p g, .leading p g ∈ hs → g.IsUnbroken)
      ↔ ∀ c d, Follow hs c d → d.isFarFrom c → StartsBetween source hs c d := by
  constructor
  -- In one group they would be side by side, so the blank line would be within it.
  · rintro hall c d ⟨⟨p, g, hg, hc⟩, ⟨q, k, hk, hd⟩, hlt, hnone⟩ hfar
    rcases h.eq_or_startsBetween hg hk hc hd hlt with ⟨rfl, rfl⟩ | hstarts
    · obtain ⟨front, back, hsplit⟩ := exists_append_cons_cons (hsorted p g hg) hc hd hlt
        fun e he => hnone e ⟨p, g, hg, he⟩
      have hnear := hall p g hg
      rw [CommentGroup.IsUnbroken, hsplit, List.isChain_append_cons_cons] at hnear
      have := of_decide_eq_true hfar
      omega
    · exact hstarts
  -- Side by side in a group they follow each other among all, with no start between them.
  · intro hall p g hg
    refine List.isChain_iff_forall_rel_of_append_cons_cons.2 fun c d front back hsplit => ?_
    by_contra hnear
    have hfar : d.isFarFrom c := decide_eq_true (by omega)
    have hstarts := hall c d (h.follow_of_cons_cons hg hsplit (hsorted p g hg)) hfar
    exact h.not_startsBetween hg (by simp [hsplit]) (by simp [hsplit]) hstarts

end OfCourse

end Holding

namespace SourceFile

open Parse TokenStream
open Holding (OfCourse StartsBetween StandTogether Follow)

/-- Where the first word of a source stands, which in a file is that of its package. -/
def packagePosition (name source : String) : Position :=
  (skipNewlines.run (.ofSource name source)).2.current.position

/-- **The groups of a file** that is read from a source. -/
def groupsIn (name source : String) (f : SourceFile) : List Holding :=
  f.holdings (packagePosition name source)

variable {name source : String} {r : Reading} {f : SourceFile}

/-- **The groups of a file come from a course**, whatever is found wrong on the way. -/
theorem exists_ofCourse (h : SourceFile.read name source = .ok r) (hf : r.file = some f) :
    (∃ ds, OfCourse source.toList ds (f.groupsIn name source))
      ∧ ∀ g ∈ f.orphans, g.IsUnbroken := by
  obtain ⟨hfile, -⟩ := eq_of_read h
  rw [hf] at hfile
  obtain ⟨ds, hcourse, hall⟩ := Acts.sourceFile.course (reading_ends name source).2.1
  obtain ⟨hstart, hheld⟩ := GoesFrom.ofSource name source
  obtain ⟨o, -, hledger⟩ := hcourse.ledger hstart
  rw [hheld] at hledger
  obtain ⟨hon, horphans⟩ := hall _ (fun _ hd => hd) f hfile.symm
  exact ⟨⟨ds, ⟨o, _, hledger⟩, hon⟩, horphans⟩

/-- **Which groups of a file are unbroken.** A comment behind something is alone. Comments
in front of nothing have no blank line between them, or they stand together in front of
a token at which no body ends. Of two comments in front of something nothing but a start
between them tells whether they are in one group, so all those groups are unbroken
exactly if something starts at each blank line between two of their comments; for they
are sorted if no closing brace hides. -/
theorem unbroken_groups (h : SourceFile.read name source = .ok r) (hf : r.file = some f) :
    (∀ g, .trailing g ∈ f.groupsIn name source → ∃ c, g.comments = [c])
      ∧ (∀ g ∈ f.orphans, g.IsUnbroken)
      ∧ (∀ g, .orphan g ∈ f.groupsIn name source →
        g.IsUnbroken ∨ StandTogether source.toList (f.groupsIn name source) g)
      ∧ (∀ p g q k, .leading p g ∈ f.groupsIn name source → .leading q k ∈ f.groupsIn name source →
        ∀ c ∈ g.comments, ∀ d ∈ k.comments, c.offset < d.offset →
          (p = q ∧ g = k ↔ ¬ StartsBetween source.toList (f.groupsIn name source) c d))
      ∧ (ClosesInSight source.toList → ∀ p g, .leading p g ∈ f.groupsIn name source →
        g.comments.Pairwise fun c d => c.offset < d.offset)
      ∧ ((∀ p g, .leading p g ∈ f.groupsIn name source →
          g.comments.Pairwise fun c d => c.offset < d.offset) →
        ((∀ p g, .leading p g ∈ f.groupsIn name source → g.IsUnbroken)
          ↔ ∀ c d, Follow (f.groupsIn name source) c d → d.isFarFrom c →
            StartsBetween source.toList (f.groupsIn name source) c d)) := by
  obtain ⟨⟨ds, hcourse⟩, horphans⟩ := exists_ofCourse h hf
  refine ⟨fun g hg => hcourse.allOn _ hg, horphans,
    fun g hg => hcourse.isUnbroken_or_standTogether hg,
    fun p g q k hg hk c hc d hd hlt => ⟨?_, fun hno => ?_⟩,
    fun hsight p g hg => hcourse.sorted hsight hg, hcourse.forall_isUnbroken_iff⟩
  · rintro ⟨-, rfl⟩
    exact hcourse.not_startsBetween hg hc hd
  · exact (hcourse.eq_or_startsBetween hg hk hc hd hlt).resolve_right hno

/-- A package with two comments in front of it, and a blank line between them. -/
def remarkedPackage : String :=
  "// a\n\n// b\npackage x\n"

/-- They are one group, and a blank line stands in it. -/
theorem unbroken_groups_remarkedPackage :
    ∃ r f, SourceFile.read "" remarkedPackage = .ok r ∧ r.file = some f
      ∧ (∃ p g, .leading p g ∈ f.groupsIn "" remarkedPackage ∧ ¬ g.IsUnbroken)
      ∧ ∃ c d, Follow (f.groupsIn "" remarkedPackage) c d ∧ d.isFarFrom c
        ∧ ¬ StartsBetween remarkedPackage.toList (f.groupsIn "" remarkedPackage) c d := by
  have hrun : (SourceFile.read "" remarkedPackage).toOption.any (fun r => r.file.any fun f =>
      (f.groupsIn "" remarkedPackage).any fun
        | .leading _ g => !decide g.IsUnbroken
        | _ => false) = true := by
    decide +kernel
  -- There are no braces in this source.
  have hsight : ClosesInSight remarkedPackage.toList := fun o r hr => by
    obtain ⟨rest, n, hopening, -⟩ := SourceRange.mem_ofBraces.1 hr
    have hbrace : '{' ∈ remarkedPackage.toList :=
      List.mem_of_mem_drop (hopening ▸ List.mem_cons_self)
    exact absurd hbrace (by decide +kernel)
  cases hread : SourceFile.read "" remarkedPackage with
  | error i =>
    rw [hread] at hrun
    cases hrun
  | ok r =>
    rw [hread] at hrun
    obtain ⟨f, hf, hany⟩ := (Option.any_eq_true _ r.file).1 hrun
    obtain ⟨x, hx, hbroken⟩ := List.any_eq_true.1 hany
    obtain ⟨-, -, -, -, hsorted, hiff⟩ := unbroken_groups hread hf
    have hiff := hiff (hsorted hsight)
    cases x with
    | leading p g =>
      have hnot : ¬ g.IsUnbroken := by simpa using hbroken
      have hfar := mt hiff.2 fun hall => hnot (hall p g hx)
      simp only [not_forall] at hfar
      obtain ⟨c, d, hfollow, hfar, hno⟩ := hfar
      exact ⟨r, f, rfl, hf, ⟨p, g, hx, hnot⟩, c, d, hfollow, hfar, hno⟩
    | _ => cases hbroken

end SourceFile

end Gsx
