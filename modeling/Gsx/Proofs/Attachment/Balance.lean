import Mathlib.Data.List.Perm.Lattice
import Gsx.Proofs.Attachment.Ledger
import Gsx.Proofs.Attachment.Stations
/-!
# The balance of a ledger

A ledger goes to the right, so what it takes late stands late in the source. If the
token behind each opening brace starts in front of the closing one, then no comment is
entered twice, and of those between the braces only the ones directly behind the
opening brace are ever taken.
-/

namespace Gsx

/-! ## Offsets -/

/-- Where the comments start that some deeds take. -/
def takenAt (ds : List Deed) : List Nat :=
  (ds.flatMap Deed.taken).map Comment.offset

theorem takenAt_cons (d : Deed) (ds : List Deed) :
    takenAt (d :: ds) = d.taken.map Comment.offset ++ takenAt ds := by
  rw [takenAt, List.flatMap_cons, List.map_append, takenAt]

theorem takenAt_append (ds es : List Deed) : takenAt (ds ++ es) = takenAt ds ++ takenAt es := by
  rw [takenAt, List.flatMap_append, List.map_append, takenAt, takenAt]

theorem mem_takenAt {ds : List Deed} {x : Nat} :
    x ∈ takenAt ds ↔ ∃ d ∈ ds, ∃ c ∈ d.taken, c.offset = x := by
  simp only [takenAt, List.mem_map, List.mem_flatMap]
  constructor
  · rintro ⟨c, ⟨d, hd, hc⟩, rfl⟩
    exact ⟨d, hd, c, hc, rfl⟩
  · rintro ⟨d, hd, c, hc, rfl⟩
    exact ⟨c, ⟨d, hd, hc⟩, rfl⟩

/-- **A token starts** no further to the right than the next one. -/
theorem start_le_start_behind (source : List Char) (o : Nat) :
    (tokenAt source o).start ≤ (tokenAt source (behindToken source o)).start :=
  (start_le_behindToken source o).trans (le_start_tokenAt (behindToken_le_length source o))

theorem start_lt_start_behind {source : List Char} {o : Nat}
    (hthere : (tokenAt source o).kind ≠ .endOfInput) :
    (tokenAt source o).start < (tokenAt source (behindToken source o)).start :=
  (start_lt_behindToken hthere).trans_le (le_start_tokenAt (behindToken_le_length source o))

/-- Behind braces the next token starts further to the right. -/
theorem SourceRange.start_lt {source : List Char} {i : Nat} {r : SourceRange}
    (h : r ∈ SourceRange.ofBraces source i) : i < (tokenAt source r.stop).start := by
  obtain ⟨-, hlt, hstop⟩ := ofBraces_spec h
  have hle := le_start_tokenAt hstop
  omega

/-- There are at most one pair of braces at an offset. -/
theorem SourceRange.ofBraces_unique {source : List Char} {i : Nat} {r r' : SourceRange}
    (h : r ∈ SourceRange.ofBraces source i) (h' : r' ∈ SourceRange.ofBraces source i) : r' = r := by
  obtain ⟨rest, n, hopening, hclosing, rfl⟩ := mem_ofBraces.1 h
  obtain ⟨rest', n', hopening', hclosing', rfl⟩ := mem_ofBraces.1 h'
  rw [hopening] at hopening'
  cases hopening'
  rw [hclosing] at hclosing'
  cases hclosing'
  rfl

/-- A token that is there has the position of its start. -/
theorem Token.IsReadAt.offset_position {source : List Char} {o : Nat} {t : Token}
    (h : t.IsReadAt source o) (hthere : t.kind ≠ .endOfInput) :
    t.position.offset source = t.start := by
  have hlt := start_lt_behindToken (h.kind ▸ hthere)
  have hle := behindToken_le_length source o
  rw [← h.start] at hlt
  rw [h.position hthere, Position.offset_ofOffset (hlt.le.trans hle)]

/-- The token of a deed. -/
def Deed.token? : Deed → Option Token
  | .token t | .braces t | .take t _ _ => some t
  | .trail _ => none

namespace Ledger

variable {source : List Char} {o p q : Nat} {xs ys took : List Nat} {d : Deed} {ds es : List Deed}
  {t u : Token} {cs : List Comment} {kept : Bool} {rs : List SourceRange}

/-! ## Deeds in their place -/

theorem split (h : Ledger source o xs (ds ++ es) p ys) :
    ∃ q zs, Ledger source o xs ds q zs ∧ Ledger source q zs es p ys := by
  induction ds generalizing o xs with
  | nil => exact ⟨o, xs, .done o xs, h⟩
  | cons d ds ih =>
    cases h with
    | token ht h =>
      obtain ⟨q, zs, hfront, hback⟩ := ih h
      exact ⟨q, zs, .token ht hfront, hback⟩
    | braces ht hr hclears h =>
      obtain ⟨q, zs, hfront, hback⟩ := ih h
      exact ⟨q, zs, .braces ht hr hclears hfront, hback⟩
    | take ht hcs h =>
      obtain ⟨q, zs, hfront, hback⟩ := ih h
      exact ⟨q, zs, .take ht hcs hfront, hback⟩
    | trail hcs h =>
      obtain ⟨q, zs, hfront, hback⟩ := ih h
      exact ⟨q, zs, .trail hcs hfront, hback⟩

/-- **A ledger goes to the right.** -/
theorem goes_right (h : Ledger source o xs ds p ys) (ho : o ≤ source.length) :
    p ≤ source.length ∧ (tokenAt source o).start ≤ (tokenAt source p).start := by
  induction h with
  | done => exact ⟨ho, le_rfl⟩
  | token _ _ ih =>
    obtain ⟨hp, hle⟩ := ih (behindToken_le_length _ _)
    exact ⟨hp, (start_le_start_behind _ _).trans hle⟩
  | braces ht hr _ _ ih =>
    obtain ⟨hp, hle⟩ := ih (SourceRange.ofBraces_spec hr).2.2
    have hlt := SourceRange.start_lt hr
    rw [ht.start] at hlt
    exact ⟨hp, hlt.le.trans hle⟩
  | take _ _ _ ih => exact ih ho
  | trail _ _ ih => exact ih ho

theorem isReadAt (h : Ledger source o xs (d :: ds) p ys) (ht : d.token? = some t) :
    t.IsReadAt source o := by
  cases h with
  | trail => cases ht
  | _ =>
    cases ht
    assumption

/-- The tokens of its deeds are tokens of the source. -/
theorem exists_isReadAt (h : Ledger source o xs ds p ys) (hd : d ∈ ds) (ht : d.token? = some t) :
    ∃ q, t.IsReadAt source q := by
  obtain ⟨front, back, rfl⟩ := List.append_of_mem hd
  obtain ⟨q, zs, -, hback⟩ := h.split
  exact ⟨q, hback.isReadAt ht⟩

/-- Where a course goes behind braces they open. -/
theorem kind_of_braces (h : Ledger source o xs ds p ys) (ht : .braces t ∈ ds) :
    t.kind = .leftBrace := by
  obtain ⟨front, back, rfl⟩ := List.append_of_mem ht
  obtain ⟨q, zs, -, hback⟩ := h.split
  cases hback with
  | braces hread hr =>
    rw [hread.start] at hr
    rw [hread.kind]
    exact (SourceRange.tokenAt_of_mem hr).1

/-- The tokens of its deeds stand between its start and its end. -/
theorem start_deed (h : Ledger source o xs ds p ys) (ho : o ≤ source.length) (hd : d ∈ ds)
    (ht : d.token? = some t) :
    (tokenAt source o).start ≤ t.start ∧ t.start ≤ (tokenAt source p).start := by
  obtain ⟨front, back, rfl⟩ := List.append_of_mem hd
  obtain ⟨q, zs, hfront, hback⟩ := h.split
  obtain ⟨hq, hleft⟩ := hfront.goes_right ho
  rw [(hback.isReadAt ht).start]
  exact ⟨hleft, (hback.goes_right hq).2⟩

/-- Behind a deed that moves, tokens start further to the right. -/
theorem start_lt_deed (h : Ledger source o xs (d :: ds) p ys) (ht : d.token? = some t)
    (hmoves : d = .token t ∧ t.kind ≠ .endOfInput ∨ d = .braces t) :
    t.start < (tokenAt source p).start
      ∧ ∀ e ∈ ds, ∀ u, e.token? = some u → t.start < u.start := by
  have hread := h.isReadAt ht
  obtain ⟨m, zs, hm, hrest, hlt⟩ : ∃ m zs, m ≤ source.length ∧ Ledger source m zs ds p ys
      ∧ t.start < (tokenAt source m).start := by
    rcases hmoves with ⟨rfl, hthere⟩ | rfl
    · cases h with
      | token _ h =>
        refine ⟨_, _, behindToken_le_length _ _, h, ?_⟩
        rw [hread.start]
        exact start_lt_start_behind (hread.kind ▸ hthere)
    · cases h with
      | braces _ hr _ h =>
        exact ⟨_, _, (SourceRange.ofBraces_spec hr).2.2, h, SourceRange.start_lt hr⟩
  exact ⟨hlt.trans_le (hrest.goes_right hm).2,
    fun e he u hu => hlt.trans_le (hrest.start_deed hm he hu).1⟩

/-- **A course does not go over a token and behind braces** at one place. -/
theorem start_ne (h : Ledger source o xs ds p ys) (htoken : .token t ∈ ds)
    (hthere : t.kind ≠ .endOfInput) (hbraces : .braces u ∈ ds) : u.start ≠ t.start := by
  obtain ⟨front, back, rfl⟩ := List.append_of_mem htoken
  obtain ⟨q, zs, hfront, hback⟩ := h.split
  rcases List.mem_append.1 hbraces with hu | hu
  · obtain ⟨front, mid, rfl⟩ := List.append_of_mem hu
    obtain ⟨m, zs, -, hmid⟩ := hfront.split
    have hlt := (hmid.start_lt_deed rfl (.inr rfl)).1
    rw [← (hback.isReadAt rfl).start] at hlt
    exact hlt.ne
  · have hu := (List.mem_cons.1 hu).resolve_left nofun
    exact ((hback.start_lt_deed rfl (.inl ⟨rfl, hthere⟩)).2 _ hu u rfl).ne'

/-! ## What is taken late -/

/-- **What holds of all that is held**, and of all comments further to the right, holds
of all that is taken. -/
theorem forall_taken {Q : Nat → Prop} (h : Ledger source o xs ds p ys) (ho : o ≤ source.length)
    (hxs : ∀ x ∈ xs, Q x)
    (hnew : ∀ q, (tokenAt source o).start ≤ q → q ≤ source.length →
      ∀ x ∈ commentsAt source q, Q x) :
    (∀ x ∈ takenAt ds, Q x) ∧ ∀ y ∈ ys, Q y := by
  induction h with
  | done => exact ⟨fun _ hx => absurd hx List.not_mem_nil, hxs⟩
  | @token o _ _ _ _ _ _ _ ih =>
    have hnext := behindToken_le_length source o
    have hstart := start_le_start_behind source o
    have hright := start_le_start_behind source (behindToken source o)
    refine ih hnext (List.forall_mem_append.2 ⟨hxs, hnew _ ?_ (behindToken_le_length _ _)⟩)
      fun q hq => hnew q (hstart.trans hq)
    exact hstart.trans (start_le_behindToken _ _)
  | braces ht hr hclears _ ih =>
    rw [ht.start] at hr
    obtain ⟨-, hlt, hstop⟩ := SourceRange.ofBraces_spec hr
    have hle := le_start_tokenAt hstop
    refine ih hstop (List.forall_mem_append.2 ⟨fun x hx => hxs x (hclears.sublist.subset hx),
      List.forall_mem_append.2 ⟨hnew _ (by omega) hstop, hnew _ ?_ (behindToken_le_length _ _)⟩⟩)
      fun q hq => hnew q (by omega)
    have hright := start_le_behindToken source
    exact (by omega : _ ≤ (tokenAt source _).start).trans (hright _)
  | take ht hcs _ ih =>
    obtain ⟨htaken, hys⟩ := ih ho (fun x hx => hxs x (List.mem_of_mem_filter hx)) hnew
    refine ⟨?_, hys⟩
    rw [takenAt_cons]
    refine List.forall_mem_append.2 ⟨?_, htaken⟩
    rw [Deed.taken, hcs]
    exact fun x hx => hxs x (List.mem_of_mem_filter hx)
  | trail hcs _ ih =>
    rw [hcs, List.forall_mem_append] at hxs
    obtain ⟨htaken, hys⟩ := ih ho hxs.2 hnew
    refine ⟨?_, hys⟩
    rw [takenAt_cons]
    exact List.forall_mem_append.2 ⟨hxs.1, htaken⟩

/-- **Where comments have been taken in front of a token**, only those behind its start
are taken later. -/
theorem le_of_taken (h : Ledger source o xs (.take t kept cs :: ds) p ys) (ho : o ≤ source.length) :
    ∀ x ∈ takenAt ds, t.start ≤ x := by
  cases h with
  | take ht _ h =>
    refine (h.forall_taken ho (fun x hx => ?_) fun q hq hlength x hx => ?_).1
    · have hnot := (List.mem_filter.1 hx).2
      rw [Bool.not_eq_true', decide_eq_false_iff_not] at hnot
      exact Nat.not_lt.1 hnot
    · rw [ht.start]
      exact hq.trans ((commentsAt_spec hlength).1 x hx).1

theorem lt_of_take (h : Ledger source o xs ds p ys) (htake : .take t kept cs ∈ ds) :
    ∀ c ∈ cs, c.offset < t.start := by
  obtain ⟨front, back, rfl⟩ := List.append_of_mem htake
  obtain ⟨q, zs, -, hback⟩ := h.split
  cases hback with
  | take _ hcs =>
    intro c hc
    have hmem := List.mem_map_of_mem (f := Comment.offset) hc
    rw [hcs] at hmem
    exact of_decide_eq_true (List.mem_filter.1 hmem).2

/-- All comments are in the source. -/
theorem lt_length (h : Ledger source o xs ds p ys) (ho : o ≤ source.length)
    (hxs : ∀ x ∈ xs, x < source.length) : ∀ y ∈ ys, y < source.length :=
  (h.forall_taken ho hxs fun _ _ hq x hx => ((commentsAt_spec hq).1 x hx).2.trans_le
    ((start_le_behindToken _ _).trans (behindToken_le_length _ _))).2

/-- Behind the last deed nothing is left, if it takes comments at the end of the
input. -/
theorem done_of_take (h : Ledger source o xs (ds ++ [.take t kept cs]) p ys)
    (ho : o ≤ source.length) (hxs : ∀ x ∈ xs, x < source.length)
    (hend : (tokenAt source p).kind = .endOfInput) : ys = [] := by
  have hinside := h.lt_length ho hxs
  obtain ⟨q, zs, -, hlast⟩ := h.split
  cases hlast with
  | take ht _ hdone =>
    cases hdone
    refine List.eq_nil_iff_forall_not_mem.2 fun y hy => ?_
    have hnot := (List.mem_filter.1 hy).2
    rw [Bool.not_eq_true', decide_eq_false_iff_not, ht.start, start_tokenAt_end hend] at hnot
    exact hnot (hinside y hy)

/-- **What is held in front of the current token** is taken, if it does not stay. -/
theorem taken_or_held (h : Ledger source o xs ds p ys) {x : Nat} (hx : x ∈ xs)
    (hlt : x < (tokenAt source o).start) : x ∈ takenAt ds ∨ x ∈ ys := by
  induction h with
  | done => exact .inr hx
  | token _ _ ih =>
    exact ih (List.mem_append_left _ hx) (hlt.trans_le (start_le_start_behind _ _))
  | braces ht hr hclears _ ih =>
    rw [ht.start] at hr
    have hbefore := hclears.before x hx ((SourceRange.ofBraces_spec hr).1 ▸ hlt)
    exact ih (List.mem_append_left _ hbefore) (hlt.trans (SourceRange.start_lt hr))
  | @take _ _ _ _ t _ _ _ ht hcs _ ih =>
    rw [takenAt_cons, List.mem_append, or_assoc]
    by_cases hfront : x < t.start
    · refine .inl ?_
      rw [Deed.taken, hcs]
      exact List.mem_filter.2 ⟨hx, decide_eq_true hfront⟩
    · refine .inr (ih (List.mem_filter.2 ⟨hx, ?_⟩) hlt)
      rw [decide_eq_false hfront]
      rfl
  | trail hcs _ ih =>
    rw [takenAt_cons, List.mem_append, or_assoc]
    rw [hcs, List.mem_append] at hx
    exact hx.imp_right fun hx => ih hx hlt

/-! ## Before free text -/

/-- **Comments that get lost** stand in front of the token at which they do, and no node
starts in between. -/
theorem le_of_lost (h : Ledger source o xs ds p ys) (ho : o ≤ source.length)
    (hlost : .take t false cs ∈ ds) {c : Comment} (hc : c ∈ cs) {site : Position}
    (hsite : (Station.site site).IsOn ds) :
    site.offset source ≤ c.offset ∨ t.start ≤ site.offset source := by
  obtain ⟨front, d, back, rfl, hstarts⟩ := hsite
  obtain ⟨q, zs, hfront, hback⟩ := h.split
  obtain ⟨hq, -⟩ := hfront.goes_right ho
  have hbefore : ∀ u : Token, u.start = (tokenAt source q).start → .take t false cs ∈ front →
      t.start ≤ u.start := fun u hu hmem => hu ▸ (hfront.start_deed ho hmem rfl).2
  cases d with
  | take u kept cs' =>
    obtain ⟨hthere, rfl⟩ := hstarts
    have hread := hback.isReadAt rfl
    rw [hread.offset_position hthere]
    rcases List.mem_append.1 hlost with hmem | hmem
    · exact .inr (hbefore u hread.start hmem)
    rcases List.mem_cons.1 hmem with hsame | hmem
    · cases hsame
      exact .inr le_rfl
    · exact .inl (hback.le_of_taken hq _ (mem_takenAt.2 ⟨_, hmem, c, hc, rfl⟩))
  | token u =>
    obtain ⟨hthere, rfl, hkeeps⟩ := hstarts
    have hread := hback.isReadAt rfl
    rw [hread.offset_position hthere]
    rcases List.mem_append.1 hlost with hmem | hmem
    · exact .inr (hbefore u hread.start hmem)
    have hmem := (List.mem_cons.1 hmem).resolve_left nofun
    -- the first comments that are taken behind the token are kept
    obtain ⟨mid, e, rest, rfl, he, hnone⟩ := List.findSome?_eq_some_iff.1 hkeeps
    have hright := (hback.start_lt_deed rfl (.inl ⟨rfl, hthere⟩)).2
    obtain ⟨m, zs, hmid, hrest⟩ := (show Ledger source q _ ((.token u :: mid) ++ e :: rest) p ys
      from hback).split
    cases e with
    | take v kept cs' =>
      cases he
      have hlate : .take t false cs ∈ rest := by
        rcases List.mem_append.1 hmem with hmem | hmem
        · exact absurd (hnone _ hmem) nofun
        · exact (List.mem_cons.1 hmem).resolve_left nofun
      have hlt := hright _ (List.mem_append_right _ (List.mem_cons_self ..)) v rfl
      have hle := hrest.le_of_taken (hmid.goes_right hq).1 _ (mem_takenAt.2 ⟨_, hlate, c, hc, rfl⟩)
      omega
    | _ => cases he
  | _ => exact hstarts.elim

/-! ## Each comment once -/

/-- **The entries are tidy** where reading goes on from an offset: none is there twice,
and all stand in front of the token behind the current one. -/
structure Tidy (source : List Char) (o : Nat) (xs : List Nat) : Prop where
  nodup : xs.Nodup
  lt : ∀ x ∈ xs, x < (tokenAt source (behindToken source o)).start

theorem Tidy.perm (h : Tidy source o xs) (hperm : xs.Perm ys) : Tidy source o ys :=
  ⟨hperm.nodup h.nodup, fun y hy => h.lt y (hperm.mem_iff.2 hy)⟩

/-- The comments in front of a token, when all others stand in front of the offset from
which it is read. -/
theorem nodup_append_commentsAt (hxs : xs.Nodup) (hq : q ≤ source.length) (hlt : ∀ x ∈ xs, x < q) :
    (xs ++ commentsAt source q).Nodup := by
  obtain ⟨hinside, hrow⟩ := commentsAt_spec hq
  refine List.nodup_append.2 ⟨hxs, hrow.imp fun h => h.ne, fun x hx y hy => ?_⟩
  have hleft := hlt x hx
  have hright := (hinside y hy).1
  omega

theorem Tidy.token (h : Tidy source o xs) :
    Tidy source (behindToken source o)
      (xs ++ commentsAt source (behindToken source (behindToken source o))) := by
  have hq := behindToken_le_length source (behindToken source o)
  have hle := start_le_behindToken source (behindToken source o)
  have hinside := (commentsAt_spec hq).1
  have hnext := le_start_tokenAt hq
  refine ⟨nodup_append_commentsAt h.nodup hq fun x hx => (h.lt x hx).trans_le hle, fun x hx => ?_⟩
  rcases List.mem_append.1 hx with hx | hx
  · have := h.lt x hx
    omega
  · exact (hinside x hx).2

/-- Two tokens are read from an offset, and what was there before stands in front of
it. -/
theorem tidy_of_two (ys : List Nat) (hys : ys.Nodup) (hlt : ∀ y ∈ ys, y < q)
    (hq : q ≤ source.length) :
    Tidy source q (ys ++ (commentsAt source q ++ commentsAt source (behindToken source q))) := by
  have hbehind := behindToken_le_length source q
  have hinside := (commentsAt_spec hq).1
  have hinside' := (commentsAt_spec hbehind).1
  have hle := le_start_tokenAt hq
  have hle' := start_le_behindToken source q
  have hright := le_start_tokenAt hbehind
  have hmid : ∀ x ∈ ys ++ commentsAt source q, x < behindToken source q := fun x hx => by
    rcases List.mem_append.1 hx with hx | hx
    · have := hlt x hx
      omega
    · have := hinside x hx
      omega
  rw [← List.append_assoc]
  refine ⟨nodup_append_commentsAt (nodup_append_commentsAt hys hq hlt) hbehind hmid, fun x hx => ?_⟩
  rcases List.mem_append.1 hx with hx | hx
  · have := hmid x hx
    omega
  · exact (hinside' x hx).2

/-- **The token behind each opening brace** of some deeds starts in front of the closing
one. -/
def Apart (source : List Char) (ds : List Deed) : Prop :=
  ∀ t, .braces t ∈ ds → ∀ r ∈ SourceRange.ofBraces source t.start,
    (tokenAt source (r.start + 1)).start < r.stop

theorem Apart.tail (h : Apart source (d :: ds)) : Apart source ds :=
  fun t ht => h t (List.mem_cons_of_mem _ ht)

/-- **No comment is entered twice.** -/
theorem tidy (h : Ledger source o xs ds p ys) (hapart : Apart source ds)
    (htidy : Tidy source o (took ++ xs)) : Tidy source p (took ++ (takenAt ds ++ ys)) := by
  induction h generalizing took with
  | done => exact htidy
  | token _ _ ih =>
    refine ih hapart.tail ?_
    rw [← List.append_assoc]
    exact htidy.token
  | braces ht hr hclears _ ih =>
    refine ih hapart.tail ?_
    obtain ⟨-, -, hstop⟩ := SourceRange.ofBraces_spec hr
    have hlt := hapart _ (List.mem_cons_self ..) _ hr
    rw [← (SourceRange.tokenAt_of_mem (ht.start ▸ hr)).2] at hlt
    rw [← List.append_assoc]
    have hsub := (List.Sublist.refl took).append hclears.sublist
    exact tidy_of_two _ (hsub.nodup htidy.nodup)
      (fun y hy => (htidy.lt y (hsub.subset hy)).trans hlt) hstop
  | take ht hcs _ ih =>
    rw [takenAt_cons, List.append_assoc, ← List.append_assoc took]
    refine ih hapart.tail ?_
    rw [List.append_assoc]
    refine htidy.perm (List.Perm.append_left took ?_)
    rw [Deed.taken, hcs]
    exact (List.filter_append_perm _ _).symm
  | trail hcs _ ih =>
    rw [takenAt_cons, List.append_assoc, ← List.append_assoc took]
    refine ih hapart.tail ?_
    rw [List.append_assoc, Deed.taken, ← hcs]
    exact htidy

theorem tidy_of_tidy (h : Ledger source o xs ds p ys) (hapart : Apart source ds)
    (htidy : Tidy source o xs) : Tidy source p (takenAt ds ++ ys) :=
  h.tidy hapart (show Tidy source o ([] ++ xs) from htidy)

/-- Behind braces nothing is taken from inside them. -/
theorem outside_of_braces (h : Ledger source o xs (.braces t :: ds) p ys) {r : SourceRange}
    (hr : r ∈ SourceRange.ofBraces source t.start) :
    ∀ x ∈ takenAt ds, x ≤ r.start ∨ r.stop ≤ x := by
  cases h with
  | braces _ hr' hclears h =>
    obtain rfl := SourceRange.ofBraces_unique hr' hr
    obtain ⟨-, -, hstop⟩ := SourceRange.ofBraces_spec hr
    have hle := le_start_tokenAt hstop
    have hbehind := behindToken_le_length source r.stop
    have hright := start_le_behindToken source r.stop
    have hlate : ∀ q, r.stop ≤ q → q ≤ source.length → ∀ x ∈ commentsAt source q,
        x ≤ r.start ∨ r.stop ≤ x := fun q hq hlength x hx =>
      .inr (hq.trans ((commentsAt_spec hlength).1 x hx).1)
    refine (h.forall_taken hstop ?_ fun q hq => hlate q (hle.trans hq)).1
    exact List.forall_mem_append.2 ⟨hclears.outside, List.forall_mem_append.2
      ⟨hlate _ le_rfl hstop, hlate _ (hle.trans hright) hbehind⟩⟩

/-- **Of the comments between braces** only those directly behind the opening one are
taken. -/
theorem lt_of_taken (h : Ledger source o xs ds p ys) (hapart : Apart source ds)
    (htidy : Tidy source o xs) (ht : .braces t ∈ ds) {r : SourceRange}
    (hr : r ∈ SourceRange.ofBraces source t.start) {x : Nat} (hx : x ∈ takenAt ds)
    (hstart : r.start < x) (hstop : x < r.stop) : x < (tokenAt source (r.start + 1)).start := by
  obtain ⟨front, back, rfl⟩ := List.append_of_mem ht
  obtain ⟨q, zs, hfront, hback⟩ := h.split
  rw [takenAt_append, takenAt_cons, List.mem_append] at hx
  rcases hx with hx | hx
  · -- up to here nothing has been read beyond the token behind the brace
    have hclean := hfront.tidy_of_tidy (fun t ht => hapart t (List.mem_append_left _ ht)) htidy
    have hlt := hclean.lt x (List.mem_append_left _ hx)
    rw [(hback.isReadAt rfl).start] at hr
    rwa [(SourceRange.tokenAt_of_mem hr).2] at hlt
  · have hout := hback.outside_of_braces hr x hx
    omega

end Ledger

end Gsx
