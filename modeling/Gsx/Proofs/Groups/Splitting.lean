import Mathlib.Data.List.SplitBy
import Gsx.Proofs.Blanking.Ranges
/-!
# Comments split at blank lines

Comments in a row are split into groups wherever a blank line stands between two that
follow each other, and nowhere else. So there is one such split of them
(`CommentGroup.splits_iff`), and every other split without a blank line inside a group
has its groups inside those of this one: it is the coarsest
(`CommentGroup.ofComments_coarsestSplit`).
-/

namespace Gsx

/-- **A group without a blank line**: each comment but the first starts at most one line
below the end of the one before it. -/
def CommentGroup.IsUnbroken (g : CommentGroup) : Prop :=
  g.comments.IsChain fun c d => d.position.line ≤ c.stop.line + 1

instance : DecidablePred CommentGroup.IsUnbroken :=
  fun g => inferInstanceAs (Decidable (g.comments.IsChain _))

namespace CommentGroup

/-- A blank line stands between two groups: between the last comment of the one and the
first of the other. -/
def IsApart (g h : CommentGroup) : Prop :=
  ∀ c ∈ g.comments.getLast?, ∀ d ∈ h.comments.head?, c.stop.line + 1 < d.position.line

/-- **A split of comments at the blank lines.** -/
structure Splits (cs : List Comment) (gs : List CommentGroup) : Prop where
  joins : commentsAmong gs = cs
  ne_nil : ∀ g ∈ gs, g.comments ≠ []
  unbroken : ∀ g ∈ gs, g.IsUnbroken
  apart : gs.IsChain IsApart

variable {c d : Comment} {cs ds : List Comment} {g : CommentGroup} {gs hs part : List CommentGroup}

theorem isUnbroken_singleton (c : Comment) : (⟨[c]⟩ : CommentGroup).IsUnbroken :=
  .singleton c

/-! ## The split that is computed -/

theorem push_of_far (h : d.isFarFrom c) :
    push c (⟨d :: ds⟩ :: gs) = ⟨[c]⟩ :: ⟨d :: ds⟩ :: gs :=
  if_pos h

theorem push_of_near (h : d.position.line ≤ c.stop.line + 1) :
    push c (⟨d :: ds⟩ :: gs) = ⟨c :: d :: ds⟩ :: gs :=
  if_neg fun hfar => Nat.not_lt.2 h (of_decide_eq_true hfar)

/-- One more comment in front of a split. -/
theorem Splits.push (h : Splits cs gs) (c : Comment) : Splits (c :: cs) (push c gs) := by
  cases gs with
  | nil =>
    obtain rfl : [] = cs := h.joins
    exact ⟨rfl, by simp [CommentGroup.push],
      List.forall_mem_singleton.2 (isUnbroken_singleton c), .singleton _⟩
  | cons g gs =>
    obtain ⟨_ | ⟨d, ds⟩⟩ := g
    · exact absurd rfl (h.ne_nil _ List.mem_cons_self)
    · have hunbroken := List.forall_mem_cons.1 h.unbroken
      have hne := List.forall_mem_cons.1 h.ne_nil
      rcases Nat.lt_or_ge (c.stop.line + 1) d.position.line with hfar | hnear
      · rw [push_of_far (decide_eq_true hfar)]
        refine ⟨congrArg (c :: ·) h.joins, List.forall_mem_cons.2 ⟨List.cons_ne_nil _ _, h.ne_nil⟩,
          List.forall_mem_cons.2 ⟨isUnbroken_singleton c, h.unbroken⟩, .cons_cons ?_ h.apart⟩
        rintro _ ⟨⟩ _ ⟨⟩
        exact hfar
      · rw [push_of_near hnear]
        refine ⟨congrArg (c :: ·) h.joins, List.forall_mem_cons.2 ⟨List.cons_ne_nil _ _, hne.2⟩,
          List.forall_mem_cons.2 ⟨.cons_cons hnear hunbroken.1, hunbroken.2⟩, ?_⟩
        -- the group that grows at its front has the same last comment
        refine List.isChain_cons.2 ⟨fun g' hg' x hx => ?_, h.apart.tail⟩
        exact (List.isChain_cons.1 h.apart).1 g' hg' x (by simpa using hx)

/-- **The groups that are computed** are a split at the blank lines. -/
theorem splits_ofComments (cs : List Comment) : Splits cs (ofComments cs) := by
  induction cs with
  | nil => exact ⟨rfl, by simp [ofComments], by simp [ofComments], .nil⟩
  | cons c cs ih => exact ih.push c

/-! ## The only split -/

/-- The groups of a split are the runs of comments that follow each other. -/
theorem Splits.map_comments (h : Splits cs gs) :
    gs.map comments = cs.splitBy fun c d => decide (d.position.line ≤ c.stop.line + 1) := by
  refine (List.splitBy_eq_iff.2 ⟨h.joins.symm.trans (List.flatMap_def ..), ?_, ?_, ?_⟩).symm
  · rw [List.mem_map]
    rintro ⟨g, hg, hnil⟩
    exact h.ne_nil g hg hnil
  · refine List.forall_mem_map.2 fun g hg => ?_
    simpa [IsUnbroken] using h.unbroken g hg
  · refine (List.isChain_map _).2 (h.apart.imp_of_mem_imp fun g g' hg hg' hapart => ?_)
    refine ⟨h.ne_nil _ hg, h.ne_nil _ hg', decide_eq_false (Nat.not_le.2 ?_)⟩
    exact hapart _ (List.getLast?_eq_some_getLast _) _ (List.head?_eq_some_head _)

/-- **There is one split** at the blank lines. -/
theorem splits_iff : Splits cs gs ↔ gs = ofComments cs := by
  constructor
  · intro h
    have hmap := h.map_comments.trans (splits_ofComments cs).map_comments.symm
    exact List.map_injective_iff.2 (fun g g' hg => by cases g; cases g'; cases hg; rfl) hmap
  · rintro rfl
    exact splits_ofComments cs

/-- Groups that follow each other in a split are the split of their comments. -/
theorem Splits.of_part (h : Splits cs gs) (hpart : part <:+: gs) :
    Splits (commentsAmong part) part where
  joins := rfl
  ne_nil g hg := h.ne_nil g (hpart.subset hg)
  unbroken g hg := h.unbroken g (hpart.subset hg)
  apart := h.apart.infix hpart

/-! ## The coarsest split -/

/-- **Comments without a blank line** in front of others are a group of their own or the
front part of the first group. -/
theorem ofComments_append (hne : ds ≠ []) (hds : (⟨ds⟩ : CommentGroup).IsUnbroken) :
    ofComments (ds ++ cs) = ⟨ds⟩ :: ofComments cs
      ∨ ∃ g gs, ofComments cs = g :: gs ∧ ofComments (ds ++ cs) = ⟨ds ++ g.comments⟩ :: gs := by
  -- The groups are computed from the right, so the last of `ds` decides: it is far from the
  -- first group, or it joins it. All others join it.
  induction ds with
  | nil => exact absurd rfl hne
  | cons c ds ih =>
    rw [List.cons_append, ofComments]
    cases ds with
    | nil =>
      rw [List.nil_append]
      cases ofComments cs with
      | nil => exact .inl rfl
      | cons g gs =>
        obtain ⟨_ | ⟨d, ds⟩⟩ := g
        · exact .inr ⟨_, _, rfl, rfl⟩
        · rcases Nat.lt_or_ge (c.stop.line + 1) d.position.line with hfar | hnear
          · exact .inl (push_of_far (decide_eq_true hfar))
          · exact .inr ⟨_, _, rfl, push_of_near hnear⟩
    | cons d ds =>
      obtain ⟨hnear, hrest⟩ := List.isChain_cons_cons.1 hds
      rcases ih (List.cons_ne_nil _ _) hrest with halone | ⟨g, gs, hgs, hjoined⟩
      · rw [halone]
        exact .inl (push_of_near hnear)
      · rw [hjoined]
        exact .inr ⟨g, gs, hgs, push_of_near hnear⟩

/-- **Groups without a blank line** come from the groups that are computed by splitting
these further. -/
theorem exists_parts (hne : ∀ h ∈ hs, h.comments ≠ []) (hunbroken : ∀ h ∈ hs, h.IsUnbroken) :
    ∃ parts : List (List CommentGroup), parts.flatten = hs
      ∧ ofComments (commentsAmong hs) = parts.map fun part => ⟨commentsAmong part⟩ := by
  induction hs with
  | nil => exact ⟨[], rfl, rfl⟩
  | cons h hs ih =>
    obtain ⟨hhead, hne⟩ := List.forall_mem_cons.1 hne
    obtain ⟨hfirst, hunbroken⟩ := List.forall_mem_cons.1 hunbroken
    obtain ⟨parts, rfl, hparts⟩ := ih hne hunbroken
    change ∃ more : List (List CommentGroup), more.flatten = h :: parts.flatten
      ∧ ofComments (h.comments ++ commentsAmong parts.flatten) = _
    rcases ofComments_append hhead hfirst with halone | ⟨g, gs, hgs, hjoined⟩
    · refine ⟨[h] :: parts, rfl, ?_⟩
      rw [halone, hparts, List.map_cons, commentsAmong, List.flatMap_singleton]
    · rw [hparts] at hgs
      obtain ⟨part, parts, rfl, rfl, rfl⟩ := List.map_eq_cons_iff.1 hgs
      exact ⟨(h :: part) :: parts, rfl, hjoined⟩

/-- **The groups that are computed** are the one split of the comments at the blank
lines, every other one without a blank line inside a group comes from them by splitting
further, and groups that follow each other among them are what their comments are split
into. -/
theorem ofComments_coarsestSplit (cs : List Comment) :
    (∀ gs, Splits cs gs ↔ gs = ofComments cs)
      ∧ (∀ hs, commentsAmong hs = cs → (∀ h ∈ hs, h.comments ≠ [] ∧ h.IsUnbroken) →
        ∃ parts : List (List CommentGroup), parts.flatten = hs
          ∧ ofComments cs = parts.map fun part => ⟨commentsAmong part⟩)
      ∧ ∀ part, part <:+: ofComments cs → ofComments (commentsAmong part) = part := by
  refine ⟨fun gs => splits_iff, ?_, fun part hpart => ?_⟩
  · rintro hs rfl hgood
    exact exists_parts (fun h hh => (hgood h hh).1) fun h hh => (hgood h hh).2
  · exact (splits_iff.1 ((splits_ofComments cs).of_part hpart)).symm

end CommentGroup

end Gsx
