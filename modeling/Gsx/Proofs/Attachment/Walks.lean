import Mathlib.Logic.Relation
import Gsx.Proofs.Attachment.Balance
/-!
# Walks over a source

A walk goes over the tokens of a source, and behind braces where some are given. If
these are the braces that a course goes behind, then the walk and the course come by the
same places. So each comment on the walk is taken on the course, and each comment that
the course takes is met by the walk.
-/

namespace Gsx

/-- **One step of a walk** over a source: over a token, or behind braces where there
are some. -/
inductive WalkStep (source : List Char) (rs : List SourceRange) (o : Nat) : Nat → Prop
  | token : (tokenAt source o).kind ≠ .endOfInput →
      (∀ r ∈ rs, r.start ≠ (tokenAt source o).start) →
      WalkStep source rs o (behindToken source o)
  | braces {r : SourceRange} : r ∈ rs → r.start = (tokenAt source o).start →
      WalkStep source rs o r.stop

/-- **A walk** over a source. -/
abbrev Walk (source : List Char) (rs : List SourceRange) : Nat → Nat → Prop :=
  Relation.ReflTransGen (WalkStep source rs)

/-- **A walk meets a comment** in front of a token on its way, or directly behind an
opening brace. -/
def Meets (source : List Char) (rs : List SourceRange) (x : Nat) : Prop :=
  (∃ q, Walk source rs 0 q ∧ x ∈ commentsAt source q)
    ∨ ∃ r ∈ rs, x ∈ commentsAt source (r.start + 1)

/-- Deeds that go behind some braces and behind no others. -/
structure Minds (source : List Char) (rs : List SourceRange) (ds : List Deed) : Prop where
  there : ∀ r ∈ rs, r ∈ SourceRange.ofBraces source r.start
  token : ∀ t, .token t ∈ ds → t.kind ≠ .endOfInput → ∀ r ∈ rs, r.start ≠ t.start
  braces : ∀ t, .braces t ∈ ds → ∀ r ∈ SourceRange.ofBraces source t.start, r ∈ rs

theorem Minds.tail {source : List Char} {rs : List SourceRange} {d : Deed} {ds : List Deed}
    (h : Minds source rs (d :: ds)) : Minds source rs ds :=
  ⟨h.there, fun t ht => h.token t (List.mem_cons_of_mem _ ht),
    fun t ht => h.braces t (List.mem_cons_of_mem _ ht)⟩

/-- At the end of the input a walk ends. -/
theorem WalkStep.not_end {source : List Char} {rs : List SourceRange} {o m : Nat}
    (h : WalkStep source rs o m) (hthere : ∀ r ∈ rs, r ∈ SourceRange.ofBraces source r.start) :
    (tokenAt source o).kind ≠ .endOfInput := by
  intro hend
  cases h with
  | token hnot => exact hnot hend
  | braces hr hstart =>
    obtain ⟨-, hlt, hstop⟩ := SourceRange.ofBraces_spec (hthere _ hr)
    have hlength := start_tokenAt_end hend
    omega

namespace Ledger

variable {source : List Char} {o p q : Nat} {xs ys : List Nat} {ds : List Deed}
  {rs : List SourceRange}

/-! ### What is on the way -/

theorem found_here {took : List Nat} (h : Ledger source o xs ds p ys) (ho : o ≤ source.length)
    {x : Nat} (hfound : x ∈ took ∨ x ∈ xs) (hx : x ∈ commentsAt source o) :
    x ∈ took ∨ x ∈ takenAt ds ∨ x ∈ ys :=
  hfound.imp_right fun hheld => h.taken_or_held hheld ((commentsAt_spec ho).1 x hx).2

/-- **A walk goes along the course**, and all comments on its way are taken, or held at
the end. -/
theorem found_of_walk (took : List Nat) (h : Ledger source o xs ds p ys) (ho : o ≤ source.length)
    (hminds : Minds source rs ds)
    (hend : (tokenAt source p).kind = .endOfInput)
    (hfound : ∀ x ∈ commentsAt source o ++ commentsAt source (behindToken source o),
      x ∈ took ∨ x ∈ xs)
    (hwalk : Walk source rs o q) {x : Nat} (hx : x ∈ commentsAt source q) :
    x ∈ took ∨ x ∈ takenAt ds ∨ x ∈ ys := by
  induction h generalizing took with
  | @done o xs =>
    rcases hwalk.cases_head with rfl | ⟨m, hstep, -⟩
    · exact (hfound x (List.mem_append_left _ hx)).imp_right .inr
    · exact absurd hend (hstep.not_end hminds.there)
  | @token o p xs ys t ds ht hrest ih =>
    rcases hwalk.cases_head with rfl | ⟨m, hstep, hwalk⟩
    · exact (Ledger.token ht hrest).found_here ho (hfound x (List.mem_append_left _ hx)) hx
    have hthere := hstep.not_end hminds.there
    cases hstep with
    | token =>
      refine ih took (behindToken_le_length _ _) hminds.tail hend
        (List.forall_mem_append.2 ⟨?_, ?_⟩) hwalk
      · exact fun x hx =>
          (hfound x (List.mem_append_right _ hx)).imp_right (List.mem_append_left _)
      · exact fun x hx => .inr (List.mem_append_right _ hx)
    | braces hr hstart =>
      rw [← ht.start] at hstart
      exact absurd hstart (hminds.token t (List.mem_cons_self ..) (ht.kind ▸ hthere) _ hr)
  | @braces o p xs ys left t ds r ht hr hclears hrest ih =>
    rcases hwalk.cases_head with rfl | ⟨m, hstep, hwalk⟩
    · exact (Ledger.braces ht hr hclears hrest).found_here ho
        (hfound x (List.mem_append_left _ hx)) hx
    have hmem := hminds.braces t (List.mem_cons_self ..) r hr
    obtain ⟨hstart, -, hstop⟩ := SourceRange.ofBraces_spec hr
    cases hstep with
    | token _ hno => exact absurd (hstart.trans ht.start) (hno r hmem)
    | @braces r' hr' hstart' =>
      have hthere := hminds.there r' hr'
      rw [hstart', ← ht.start] at hthere
      obtain rfl := SourceRange.ofBraces_unique hr hthere
      exact ih took hstop hminds.tail hend
        (fun x hx => .inr (List.mem_append_right _ hx)) hwalk
  | @take o p xs ys t kept cs ds ht hcs hrest ih =>
    rw [takenAt_cons, List.mem_append, or_assoc, ← or_assoc, ← List.mem_append]
    refine ih _ ho hminds.tail hend (fun x hx => ?_) hwalk
    rw [List.mem_append, or_assoc]
    refine (hfound x hx).imp_right fun hheld => ?_
    rw [Deed.taken, hcs, ← List.mem_append]
    exact (List.filter_append_perm _ _).mem_iff.2 hheld
  | @trail o p xs ys left cs ds hcs hrest ih =>
    rw [takenAt_cons, List.mem_append, or_assoc, ← or_assoc, ← List.mem_append]
    refine ih _ ho hminds.tail hend (fun x hx => ?_) hwalk
    rw [List.mem_append, or_assoc]
    refine (hfound x hx).imp_right fun hheld => ?_
    rwa [Deed.taken, ← List.mem_append, ← hcs]

/-! ### What a walk meets -/

/-- A walk gets to an offset, or the input ends there. -/
def Gets (source : List Char) (rs : List SourceRange) (o : Nat) : Prop :=
  Walk source rs 0 o ∨ (tokenAt source o).kind = .endOfInput

/-- **Behind the current token** a walk meets all comments. -/
theorem Gets.meets (h : Gets source rs o)
    (hthere : ∀ r ∈ rs, r ∈ SourceRange.ofBraces source r.start) :
    ∀ x ∈ commentsAt source (behindToken source o), Meets source rs x := by
  intro x hx
  by_cases hend : (tokenAt source o).kind = .endOfInput
  · have hinside := (commentsAt_spec (behindToken_le_length source o)).1 x hx
    have hlength := start_tokenAt_end hend
    have hright := start_le_behindToken source o
    have hlast := (start_le_behindToken source (behindToken source o)).trans
      (behindToken_le_length source _)
    omega
  have hwalk := h.resolve_right hend
  by_cases hbrace : ∃ r ∈ rs, r.start = (tokenAt source o).start
  · obtain ⟨r, hr, hstart⟩ := hbrace
    rw [(SourceRange.tokenAt_of_mem (hstart ▸ hthere r hr)).2] at hx
    exact .inr ⟨r, hr, hx⟩
  · exact .inl ⟨_, hwalk.tail (.token hend fun r hr hstart => hbrace ⟨r, hr, hstart⟩), hx⟩

theorem Gets.token (h : Gets source rs o)
    (hno : (tokenAt source o).kind ≠ .endOfInput → ∀ r ∈ rs, r.start ≠ (tokenAt source o).start) :
    Gets source rs (behindToken source o) := by
  by_cases hend : (tokenAt source o).kind = .endOfInput
  · refine .inr (by_contra fun hthere => ?_)
    have hlt := start_lt_behindToken hthere
    have hle := behindToken_le_length source (behindToken source o)
    have hstart := start_tokenAt_end hend
    have hright := start_le_start_behind source o
    omega
  · exact .inl ((h.resolve_right hend).tail (.token hend (hno hend)))

/-- **A course takes only comments that a walk meets.** -/
theorem meets_of_taken (h : Ledger source o xs ds p ys) (hminds : Minds source rs ds)
    (hgets : Gets source rs o) (hxs : ∀ x ∈ xs, Meets source rs x) :
    ∀ x ∈ takenAt ds, Meets source rs x := by
  induction h with
  | done => exact fun _ hx => absurd hx List.not_mem_nil
  | @token o _ _ _ t _ ht _ ih =>
    have hnext : Gets source rs (behindToken source o) := by
      refine hgets.token fun hthere r hr => ?_
      rw [← ht.start]
      exact hminds.token t (List.mem_cons_self ..) (ht.kind ▸ hthere) r hr
    exact ih hminds.tail hnext (List.forall_mem_append.2 ⟨hxs, hnext.meets hminds.there⟩)
  | @braces o _ _ _ _ t _ r ht hr hclears _ ih =>
    have hmem := hminds.braces t (List.mem_cons_self ..) r hr
    have hstart := (SourceRange.ofBraces_spec hr).1
    have hbrace := (SourceRange.tokenAt_of_mem (ht.start ▸ hr)).1
    have hwalk : Walk source rs 0 r.stop := by
      refine (hgets.resolve_right ?_).tail (.braces hmem (hstart.trans ht.start))
      rw [hbrace]
      exact nofun
    refine ih hminds.tail (.inl hwalk) (List.forall_mem_append.2
      ⟨fun x hx => hxs x (hclears.sublist.subset hx), List.forall_mem_append.2 ⟨?_, ?_⟩⟩)
    · exact fun x hx => .inl ⟨_, hwalk, hx⟩
    · exact (show Gets source rs r.stop from .inl hwalk).meets hminds.there
  | take _ hcs _ ih =>
    rw [takenAt_cons, Deed.taken, hcs]
    exact List.forall_mem_append.2 ⟨fun x hx => hxs x (List.mem_of_mem_filter hx),
      ih hminds.tail hgets fun x hx => hxs x (List.mem_of_mem_filter hx)⟩
  | trail hcs _ ih =>
    rw [hcs, List.forall_mem_append] at hxs
    rw [takenAt_cons]
    exact List.forall_mem_append.2 ⟨hxs.1, ih hminds.tail hgets hxs.2⟩

end Ledger

end Gsx
