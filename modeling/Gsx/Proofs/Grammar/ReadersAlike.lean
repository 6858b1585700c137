import Gsx.Proofs.Grammar.Alike
/-!
# Each reader goes alike

The readers of the grammar one by one: on a text alone and on the text in its
place each gives the same up to positions. Comments are taken by their offsets
and lines, and agree where no comment from before the text is left.
-/

namespace Gsx.Parse

open TokenStream

variable {o : Window}

/-! ## Comments -/

/-- The comments before the current token, as a group. -/
def groupBefore (s : TokenStream) : Option CommentGroup :=
  let before := s.comments.filter (·.offset < s.current.start)
  if before.isEmpty then none else some ⟨before⟩

theorem run_leadingComments (s : TokenStream) :
    leadingComments.run s = (groupBefore s.collected,
      { s.collected with
        comments := s.collected.comments.filter fun c =>
          !(decide (c.offset < s.current.start)) }) := by
  rw [leadingComments]
  simp only [StateT.run_bind, StateT.run_modify, StateT.run_get, pure_bind, groupBefore]
  split
  · next hempty =>
    have hall : s.collected.comments.filter (fun c => !(decide (c.offset < s.current.start)))
        = s.collected.comments := by
      refine List.filter_eq_self.2 fun c hc => ?_
      have hnone := List.filter_eq_nil_iff.1 (List.isEmpty_iff.1 hempty) c hc
      rw [Bool.not_eq_true] at hnone
      exact congrArg not hnone
    rw [hall]
    rfl
  · rfl

theorem Leading.leadingComments : Leading leadingComments := by
  intro s
  rw [run_leadingComments]
  exact (Leads.collected s).trans (.of_note rfl rfl rfl id id id)

theorem plain_eq {c c' : Comment} (h : o.SameComment c c') : c.plain = c'.plain := by
  rw [Comment.plain, Comment.plain, h.text_eq, h.isBlock_eq, h.blankBefore_eq]

theorem map_plain_eq {cs cs' : List Comment} (h : List.Forall₂ o.SameComment cs cs') :
    cs.map Comment.plain = cs'.map Comment.plain := by
  induction h with
  | nil => rfl
  | cons hc _ ih => rw [List.map_cons, List.map_cons, plain_eq hc, ih]

/-- Two groups are the same if their comments are. -/
def SameGroup (o : Window) (g g' : Option CommentGroup) : Prop :=
  Option.Rel (fun g g' => List.Forall₂ o.SameComment g.comments g'.comments) g g'

theorem SameGroup.plain_eq {g g' : Option CommentGroup} (h : SameGroup o g g') (keep : Bool) :
    plainGroup keep g = plainGroup keep g' := by
  cases h with
  | none => rfl
  | some h =>
    cases keep
    · rfl
    · exact congrArg (fun cs => some (CommentGroup.mk cs)) (map_plain_eq h)

theorem groupBefore_same {s s' : TokenStream} (hcurrent : s'.current = o.token s.current)
    (h : List.Forall₂ o.SameComment s.comments s'.comments) :
    SameGroup o (groupBefore s) (groupBefore s') := by
  have hfilter : List.Forall₂ o.SameComment
      (s.comments.filter fun c => c.offset < s.current.start)
      (s'.comments.filter fun c => c.offset < s'.current.start) := by
    refine Lexer.Fits.filter_sameComment h (· < s.current.start) (· < s'.current.start) fun n => ?_
    rw [hcurrent]
    simp [Window.token]
  rw [groupBefore, groupBefore]
  generalize (s.comments.filter fun c => c.offset < s.current.start) = cs at hfilter ⊢
  generalize (s'.comments.filter fun c => c.offset < s'.current.start) = cs' at hfilter ⊢
  cases hfilter with
  | nil => exact .none
  | cons hc hcs => exact .some (.cons hc hcs)

namespace Alike

/-- What shows of a comment group. -/
abbrev showGroup (o : Window) : Option CommentGroup → Option CommentGroup :=
  plainGroup o.tidy

theorem showGroup_eq {g g' : Option CommentGroup} (h : o.tidy = true → SameGroup o g g') :
    showGroup o g = showGroup o g' := by
  cases htidy : o.tidy with
  | false => simp only [showGroup, htidy, plainGroup_false]
  | true => exact (h htidy).plain_eq _

theorem leadingComments : Alike o (showGroup o) Parse.leadingComments Parse.leadingComments := by
  refine ⟨.leadingComments, fun s s' hs hwithin => ?_⟩
  rw [run_leadingComments] at hwithin ⊢
  rw [run_leadingComments]
  have hin : Within o s.collected := hwithin.of_comments
  refine ⟨showGroup_eq fun htidy => groupBefore_same hs.current_eq
    (hs.collected.comments_same hin htidy),
    hs.collected.withComments (fun c hc => (List.mem_filter.1 hc).1) fun _ hsame => ?_⟩
  refine Lexer.Fits.filter_sameComment hsame (fun n => !(decide (n < s.current.start)))
    (fun n => !(decide (n < s'.current.start))) fun n => ?_
  rw [hs.current_eq]
  simp [Window.token]

end Alike

/-- The first free comment on a line, as a group, and the other comments. -/
def firstOn (line : Nat) : List Comment → Option CommentGroup × List Comment
  | [] => (none, [])
  | c :: cs => if c.position.line = line then (some ⟨[c]⟩, cs) else (none, c :: cs)

theorem run_trailingComment (line : Nat) (s : TokenStream) :
    (trailingComment line).run s = ((firstOn line s.collected.comments).1,
      { s.collected with comments := (firstOn line s.collected.comments).2 }) := by
  rw [trailingComment]
  simp only [StateT.run_bind, StateT.run_modify, StateT.run_get, pure_bind]
  split
  · next c rest hc =>
    rw [hc, firstOn]
    split
    · rfl
    · rw [← hc]
      rfl
  · next hc =>
    rw [hc, firstOn, ← hc]
    rfl

theorem Leading.trailingComment (line : Nat) : Leading (trailingComment line) := by
  intro s
  rw [run_trailingComment]
  exact (Leads.collected s).trans (.of_note rfl rfl rfl id id id)

theorem firstOn_subset (line : Nat) (cs : List Comment) : (firstOn line cs).2 ⊆ cs := by
  cases cs with
  | nil => exact List.Subset.refl _
  | cons c cs =>
    rw [firstOn]
    split
    · exact List.subset_cons_self _ _
    · exact List.Subset.refl _

theorem firstOn_same {cs cs' : List Comment} (h : List.Forall₂ o.SameComment cs cs') (line : Nat) :
    SameGroup o (firstOn line cs).1 (firstOn (line + o.before.count '\n') cs').1
      ∧ List.Forall₂ o.SameComment (firstOn line cs).2
          (firstOn (line + o.before.count '\n') cs').2 := by
  cases h with
  | nil => exact ⟨.none, .nil⟩
  | @cons c c' cs cs' hc hcs =>
    have hline : c'.position.line = line + o.before.count '\n' ↔ c.position.line = line := by
      rw [hc.position_eq]
      exact Nat.add_right_cancel_iff
    rw [firstOn, firstOn]
    by_cases hfirst : c.position.line = line
    · rw [if_pos hfirst, if_pos (hline.2 hfirst)]
      exact ⟨.some (.cons hc .nil), hcs⟩
    · rw [if_neg hfirst, if_neg (mt hline.1 hfirst)]
      exact ⟨.none, .cons hc hcs⟩

namespace Alike

/-- The line is that of a place in the text. -/
theorem trailingComment (line : Nat) :
    Alike o (showGroup o) (Parse.trailingComment line)
      (Parse.trailingComment (line + o.before.count '\n')) := by
  refine ⟨.trailingComment line, fun s s' hs hwithin => ?_⟩
  rw [run_trailingComment] at hwithin ⊢
  rw [run_trailingComment]
  have hin : Within o s.collected := hwithin.of_comments
  exact ⟨showGroup_eq fun htidy => (firstOn_same (hs.collected.comments_same hin htidy) line).1,
    hs.collected.withComments (firstOn_subset _ _) fun _ hsame => (firstOn_same hsame line).2⟩

end Alike

/-- Groups of the same comments. -/
def SameGroups (o : Window) (gs gs' : List CommentGroup) : Prop :=
  List.Forall₂ (fun g g' => List.Forall₂ o.SameComment g.comments g'.comments) gs gs'

theorem isFarFrom_eq {c c' d d' : Comment} (hc : o.SameComment c c') (hd : o.SameComment d d') :
    d'.isFarFrom c' = d.isFarFrom c := by
  rw [Comment.isFarFrom, Comment.isFarFrom, hc.stop_eq, hd.position_eq, decide_eq_decide]
  simp only [Window.place]
  omega

theorem push_same {c c' : Comment} (hc : o.SameComment c c') {gs gs' : List CommentGroup}
    (h : SameGroups o gs gs') :
    SameGroups o (CommentGroup.push c gs) (CommentGroup.push c' gs') := by
  cases h with
  | nil => exact .cons (.cons hc .nil) .nil
  | @cons g g' gs gs' hg hgs =>
    obtain ⟨ds⟩ := g
    obtain ⟨ds'⟩ := g'
    cases hg with
    | nil => exact .cons (.cons hc .nil) hgs
    | @cons d d' ds ds' hd hds =>
      simp only [CommentGroup.push, isFarFrom_eq hc hd]
      split
      · exact .cons (.cons hc .nil) (.cons (.cons hd hds) hgs)
      · exact .cons (.cons hc (.cons hd hds)) hgs

theorem ofComments_same {cs cs' : List Comment} (h : List.Forall₂ o.SameComment cs cs') :
    SameGroups o (CommentGroup.ofComments cs) (CommentGroup.ofComments cs') := by
  induction h with
  | nil => exact .nil
  | cons hc _ ih => exact push_same hc ih

theorem SameGroups.plain_eq {gs gs' : List CommentGroup} (h : SameGroups o gs gs') (keep : Bool) :
    plainGroups keep gs = plainGroups keep gs' := by
  cases keep
  · rfl
  · induction h with
    | nil => rfl
    | cons hg _ ih => exact congrArg₂ List.cons (congrArg CommentGroup.mk (map_plain_eq hg)) ih

/-- The groups that a group of comments falls into. -/
def groupsOf : Option CommentGroup → List CommentGroup
  | some g => CommentGroup.ofComments g.comments
  | none => []

theorem run_orphanComments (s : TokenStream) :
    orphanComments.run s = (groupsOf (groupBefore s.collected), (leadingComments.run s).2) := by
  rw [orphanComments, StateT.run_bind, run_leadingComments]
  cases groupBefore s.collected <;> rfl

theorem stream_orphanComments (s : TokenStream) :
    (orphanComments.run s).2 = (leadingComments.run s).2 := by
  rw [run_orphanComments]

theorem Leading.orphanComments : Leading orphanComments :=
  fun s => stream_orphanComments s ▸ Leading.leadingComments s

namespace Alike

/-- What shows of comments that belong to no node. -/
abbrev showGroups (o : Window) : List CommentGroup → List CommentGroup :=
  plainGroups o.tidy

theorem orphanComments : Alike o (showGroups o) Parse.orphanComments Parse.orphanComments := by
  refine ⟨.orphanComments, fun s s' hs hwithin => ?_⟩
  rw [stream_orphanComments] at hwithin
  rw [stream_orphanComments, stream_orphanComments]
  refine ⟨?_, (leadingComments.meets s s' hs hwithin).2⟩
  rw [run_orphanComments, run_orphanComments]
  have hin : Within o s.collected := by
    rw [run_leadingComments] at hwithin
    exact hwithin.of_comments
  cases htidy : o.tidy with
  | false => simp only [showGroups, htidy]; rfl
  | true =>
    have hgroup := groupBefore_same hs.collected.current_eq (hs.collected.comments_same hin htidy)
    change showGroups o (groupsOf (groupBefore s.collected))
      = showGroups o (groupsOf (groupBefore s'.collected))
    generalize groupBefore s.collected = g at hgroup ⊢
    generalize groupBefore s'.collected = g' at hgroup ⊢
    cases hgroup with
    | none => rfl
    | some hg => exact (ofComments_same hg).plain_eq _

end Alike

end Gsx.Parse
