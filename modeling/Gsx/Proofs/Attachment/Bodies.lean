import Gsx.Proofs.Attachment.Heads
/-!
# The courses of bodies

The recursive part of the grammar. At each place of a body the comments in front of
it are taken, and then a node is read: it has them, or it is free text and they get
lost. Where no node comes of it, the body has them. Bodies outside of elements have
no free text, so the first comments that are taken in one are kept.
-/

namespace Gsx.Parse

open TokenStream

variable {s : TokenStream} {ds es : List Deed} {n : Node}

/-! ## Comments kept first -/

theorem OverTokens.keeps?_eq_none (h : OverTokens ds) : ds.findSome? Deed.keeps? = none := by
  refine List.findSome?_eq_none_iff.2 fun d hd => ?_
  obtain ⟨t, rfl⟩ := h d hd
  rfl

/-- Comments may be kept first, or none are taken. -/
theorem keeps?_append (h : ds.findSome? Deed.keeps? ≠ some false)
    (h' : es.findSome? Deed.keeps? ≠ some false) :
    (ds ++ es).findSome? Deed.keeps? ≠ some false := by
  rw [List.findSome?_append]
  cases hds : ds.findSome? Deed.keeps? with
  | none => rwa [Option.none_or]
  | some kept =>
    rw [Option.some_or, ← hds]
    exact h

theorem OverTokens.keeps?_append (h : OverTokens ds) (es : List Deed) :
    (ds ++ es).findSome? Deed.keeps? = es.findSome? Deed.keeps? := by
  rw [List.findSome?_append, h.keeps?_eq_none, Option.none_or]

theorem keeps?_append_of_kept (h : ds.findSome? Deed.keeps? = some true) (es : List Deed) :
    (ds ++ es).findSome? Deed.keeps? = some true := by
  rw [List.findSome?_append, h]
  rfl

/-! ## Nodes at their places -/

/-- **A node is read** from a stream on, without the comments in front of it. -/
structure ReadsNode (s : TokenStream) (ds : List Deed) (n : Node) : Prop where
  told : Told ds n.comments n.inside
  position_eq : n.position = s.current.position
  bare : n.leading? = none

/-- It may have comments in front of it. -/
def ReadsCarrier (s : TokenStream) (ds : List Deed) (n : Node) : Prop :=
  ReadsNode s ds n ∧ n.carries

/-- What is read at a place of a body, behind the comments in front of it. -/
def AtPlace (s : TokenStream) (ds : List Deed) : Option Node → Prop
  | some n => ReadsNode s ds n ∧ (n.carries ∨ n.isText)
  | none => Told ds [] []

/-- **A place of a body.** -/
theorem AtPlace.told {t : Token} {r : Option Node} {g : Option CommentGroup} (h : AtPlace s ds r)
    (hcurrent : s.current = t) (hthere : t.kind ≠ .endOfInput) :
    ∃ kept, Told (.take t kept (commentsIn g) :: ds) (Body.Part.kept ⟨g, r⟩)
        (Body.Part.stations ⟨g, r⟩)
      ∧ ((∀ n ∈ r, n.carries) → kept = true) := by
  subst hcurrent
  cases r with
  | none =>
    refine ⟨true, ?_, fun _ => rfl⟩
    rw [Body.Part.kept_none]
    exact (Told.take _ _).skip h
  | some n =>
    obtain ⟨hread, hkind⟩ := h
    rw [Body.Part.stations_some, hread.position_eq]
    by_cases hcarries : n.carries
    · refine ⟨true, ?_, fun _ => rfl⟩
      have hperm := Body.Part.perm_kept g hread.bare hcarries
      exact (hread.told.site hthere _).perm hperm.symm (.refl _)
    · have htext := hkind.resolve_left hcarries
      refine ⟨false, ?_, fun hall => absurd (hall n rfl) hcarries⟩
      rw [Body.Part.kept_text g htext]
      exact hread.told.lost hthere _ (hread.position_eq ▸ Node.text_mem_inside htext)

/-- What a body tells of a course. -/
def ToldBody (ds : List Deed) (b : Body) : Prop :=
  Told ds b.comments (Node.stationsAll b.nodes)

namespace Does

/-- One round of a body. Where no node is free text, comments are kept first. -/
theorem bodyRound {ends : Token → Bool} {node : Parse (Option Node)} {P : Prop}
    (hends : ∀ t : Token, t.kind = .endOfInput → ends t)
    (h : ∀ s, Does s node fun ds r => AtPlace s ds r ∧ (P → ∀ n ∈ r, n.carries)) :
    Does s (Parse.bodyRound ends node) fun ds r =>
      Told ds (r.items.flatMap Body.Part.kept) (r.items.flatMap Body.Part.stations)
        ∧ (P → ds.findSome? Deed.keeps? ≠ some false) := by
  refine skipNewlines.bind fun s₁ _ => .ofCurrent <| .ite (fun _ => .pure fun ds hds => ?_)
    fun hgo => ?_
  · have hall := hds.append .nil
    exact ⟨.tokens hall, fun _ => by rw [hall.keeps?_eq_none]; exact nofun⟩
  refine .retell (q := fun es r => ∃ g n ns, es = .take s₁.current true (commentsIn g) :: ns
      ∧ r = .more [⟨g, n⟩] ∧ AtPlace s₁ ns n ∧ (P → ∀ m ∈ n, m.carries))
    (leading fun s₂ g hcurrent => (h s₂).bind fun s₃ n => .pure fun ns hns => ?_) ?_
  · refine ⟨g, n, ns, by rw [List.append_nil], rfl, ?_, hns.2⟩
    cases n with
    | none => exact hns.1
    | some n =>
      have hposition := hns.1.1.position_eq
      rw [hcurrent] at hposition
      exact ⟨⟨hns.1.1.told, hposition, hns.1.1.bare⟩, hns.1.2⟩
  · rintro s' _ _ hcourse ⟨g, n, ns, rfl, rfl, hplace, hplain⟩
    -- only now it is known whether the node has the comments
    obtain ⟨kept, htold, hkept⟩ := hplace.told (g := g) rfl fun hend => hgo (hends _ hend)
    refine ⟨_, hcourse.remark kept, fun ds hds => ⟨?_, fun hp => ?_⟩⟩
    · have hboth := (Told.tokens hds).append htold
      simpa [Round.more] using hboth
    · rw [hds.keeps?_append, hkept (hplain hp)]
      exact nofun

/-- **A body** takes the comments in front of its end, too. -/
theorem nodes {ends : Token → Bool} {node : Parse (Option Node)} {P : Prop}
    (hends : ∀ t : Token, t.kind = .endOfInput → ends t)
    (h : ∀ s, Does s node fun ds r => AtPlace s ds r ∧ (P → ∀ n ∈ r, n.carries)) :
    Does s (Parse.nodes ends node) fun ds b =>
      ToldBody ds b ∧ (P → ds.findSome? Deed.keeps? = some true) := by
  have hparts : ∀ s, Does s (Parse.repeated (Parse.bodyRound ends node)) fun ds parts =>
      Told ds (parts.flatMap Body.Part.kept) (parts.flatMap Body.Part.stations)
        ∧ (P → ds.findSome? Deed.keeps? ≠ some false) := by
    intro s
    refine repeated (fun ds es as bs has hbs => ⟨?_, fun hp => ?_⟩) fun s => bodyRound hends h
    · rw [List.flatMap_append, List.flatMap_append]
      exact has.1.append hbs.1
    · exact keeps?_append (has.2 hp) (hbs.2 hp)
  refine (hparts s).bind fun s₁ parts => orphanComments.bind fun s₂ gs => .pure ?_
  rintro _ rfl ds ⟨hds, hfirst⟩
  refine ⟨?_, fun hp => ?_⟩
  · unfold ToldBody
    rw [Body.stations_ofParts]
    refine ((hds.append (Told.take _ _)).perm (Body.perm_ofParts _ _).symm ?_)
    rw [List.append_nil]
  · rw [List.append_nil, List.findSome?_append]
    cases hkept : ds.findSome? Deed.keeps? with
    | none => rfl
    | some kept =>
      cases kept with
      | true => rfl
      | false => exact absurd hkept (hfirst hp)

end Does

/-! ## Single nodes -/

namespace Does

theorem expressionNode : Does s Parse.expressionNode (Given (ReadsCarrier s)) := by
  refine goExpr.bind fun s₁ e => ?_
  cases e with
  | none => exact .nothing
  | some e =>
    refine .ite (fun _ => .pure ?_) fun _ => .pure ?_
    all_goals
      rintro _ ⟨rfl, hposition, hbare⟩
      have htold : Told [.braces s.current] [] [.braces e.position] := by
        rw [hposition]
        exact .embedded _
    · exact ⟨⟨htold, hposition, rfl⟩, rfl⟩
    · refine ⟨⟨?_, hposition, hbare⟩, rfl⟩
      unfold Node.comments
      rw [hbare]
      exact htold

theorem text : Does s Parse.text fun ds t => OverTokens ds ∧ t.position = s.current.position :=
  .ofPosition <| (scan _ _).bind fun _ _ => .pure fun _ hds => ⟨hds.append .nil, rfl⟩

end Does

/-! ## Nested readers -/

/-- **An element is read**, without the comments in front of it. -/
structure ReadsElement (s : TokenStream) (ds : List Deed) (e : ElementHead × List Node) : Prop where
  told : Told ds (e.1.comments ++ Node.commentsAll e.2)
    (e.1.expressions.map GoExpr.station ++ Node.stationsAll e.2)
  position_eq : e.1.position = s.current.position
  bare : e.1.leading = none

/-- What a block tells of a course. The first comments that are taken are kept. -/
def ToldBlock (ds : List Deed) (b : Block) : Prop :=
  Told ds b.comments (Node.stationsAll b.body.nodes) ∧ ds.findSome? Deed.keeps? = some true

/-- **A conditional is read**, without the comments in front of it. It starts with a
token, and the first comments that are taken are kept. -/
def ReadsConditional (s : TokenStream) (ds : List Deed) (n : Node) : Prop :=
  ReadsCarrier s ds n ∧ ∃ es, ds = .token s.current :: es ∧ Told es n.comments n.inside
    ∧ es.findSome? Deed.keeps? = some true

/-- **The nested readers at a depth**, and what they do. -/
structure DoesNest (d : Nat) : Prop where
  body : ∀ s, Does s (body d) fun ds b => ToldBody ds b ∧ ds.findSome? Deed.keeps? = some true
  bodyNode : ∀ s, Does s (bodyNode d) (Given (ReadsCarrier s))
  markup : ∀ s, Does s (markup d) (Given (ReadsCarrier s))
  content : ∀ s, Does s (content d) ToldBody
  contentNode : ∀ s, Does s (contentNode d) (AtPlace s)
  element : ∀ s, Does s (element d) (Given (ReadsElement s))
  block : ∀ s, Does s (block d) (Given ToldBlock)
  forLoop : ∀ s, Does s (forLoop d) (Given (ReadsCarrier s))
  conditional : ∀ s, Does s (conditional d) (Given (ReadsConditional s))
  elseBranch : ∀ s, Does s (elseBranch d) ToldBody
  call : ∀ s, Does s (call d) (Given (ReadsCarrier s))

namespace DoesNest

theorem zero : DoesNest 0 where
  body _ := .tooDeep
  bodyNode _ := .tooDeep
  markup _ := .tooDeep
  content _ := .tooDeep
  contentNode _ := .tooDeep
  element _ := .tooDeep
  block _ := .tooDeep
  forLoop _ := .tooDeep
  conditional _ := .tooDeep
  elseBranch _ := .tooDeep
  call _ := .tooDeep

variable {d : Nat} (ih : DoesNest d)

include ih

theorem succ_bodyNode : Does s (Parse.bodyNode (d + 1)) (Given (ReadsCarrier s)) := by
  rw [Parse.bodyNode]
  refine .ofKind ?_
  split
  case h_7 =>
    refine .ite (fun _ => .bind .goStatement fun s₁ c => .pure ?_) fun _ =>
      .bind (.report _) fun _ _ => .advance <| .pure fun _ h => h.elim
    rintro ds ⟨hds, hposition, hbare⟩
    refine ⟨⟨?_, hposition, hbare⟩, rfl⟩
    unfold Node.comments
    rw [hbare, List.append_nil]
    exact .tokens hds
  all_goals exact ih.markup s

/-- What means nothing in the content of an element is gone over. -/
theorem succ_contentNode : Does s (Parse.contentNode (d + 1)) (AtPlace s) := by
  have hmarkup : Does s (Parse.markup d) (AtPlace s) := (ih.markup s).mono fun ds r hr => by
    cases r with
    | none => exact hr.elim
    | some n => exact ⟨hr.1, .inl hr.2⟩
  rw [Parse.contentNode]
  refine .ofKind ?_
  split
  case h_7 =>
    refine .ite (fun _ => .bind .text fun s₁ t => .pure ?_) fun _ => .advance <| .pure (.token _)
    rintro ds ⟨hds, hposition⟩
    refine ⟨⟨?_, hposition, rfl⟩, .inr rfl⟩
    rw [List.append_nil]
    have htold := Told.tokens hds
    exact { htold with
      stations := fun x hx => by
        rw [List.mem_singleton.1 hx]
        trivial
      braces := fun u hu => absurd (htold.braces u hu) List.not_mem_nil
      texts := fun u lost hu => absurd (htold.texts u lost hu).2 List.not_mem_nil }
  all_goals exact hmarkup

theorem succ_markup : Does s (Parse.markup (d + 1)) (Given (ReadsCarrier s)) := by
  rw [Parse.markup]
  refine .ofKind ?_
  split
  · refine (ih.element s).bind fun s₁ e => ?_
    cases e with
    | none => exact .nothing
    | some e =>
      obtain ⟨h, cs⟩ := e
      refine .pure fun ds hds => ?_
      rw [List.append_nil]
      exact ⟨⟨hds.told, hds.position_eq, hds.bare⟩, rfl⟩
  · refine Does.letHead.bind fun s₁ h => ?_
    cases h with
    | none => exact .nothing
    | some h =>
      refine .ofKind <| .ite (fun _ => ?_) fun _ => .reportLast
      refine (ih.element s₁).bind fun s₂ e => ?_
      cases e with
      | none => exact .nothing
      | some e =>
        obtain ⟨e, cs⟩ := e
        refine .pure ?_
        rintro es hes ds ⟨hds, hposition, hbare⟩
        rw [List.append_nil]
        refine ⟨⟨?_, hposition, hbare⟩, rfl⟩
        have hall := (Told.tokens hds).append hes.told
        unfold Node.comments Node.inside
        rw [hbare]
        exact hall
  · exact ih.forLoop s
  · refine (ih.conditional s).mono fun ds r hr => ?_
    cases r with
    | none => exact hr
    | some n => exact hr.1
  · exact ih.call s
  · exact .expressionNode

/-- **An element**: the comments in its content that belong to no node are its own. -/
theorem succ_element : Does s (Parse.element (d + 1)) (Given (ReadsElement s)) := by
  rw [Parse.element]
  refine Does.elementHead.bind fun s₁ h => ?_
  cases h with
  | none => exact .nothing
  | some h =>
    refine .ofCurrent <| .ite (fun _ => ?_) fun _ => ?_
    · refine Does.advanceLine.bind fun s₂ _ => (Does.trailingComment _).bind fun s₃ g => .pure ?_
      rintro _ rfl _ ⟨fs, rfl, hfs⟩ ds ⟨hds, hposition, hbare, htrailing, horphans⟩
      refine ⟨?_, hposition, hbare⟩
      have hback : Told ((.token s₁.current :: fs) ++ [.trail (commentsIn g)]) (commentsIn g) [] :=
        (Told.tokens hfs.cons).append (.trail _)
      have hall := Told.append hds hback
      simp only [ElementHead.comments, ElementHead.expressions, hbare, horphans, commentsIn,
        commentsAmong, Node.commentsAll, Node.stationsAll, List.flatMap_nil, List.append_nil,
        List.nil_append, Option.elim] at hall ⊢
      exact hall
    · refine (Does.expect _).bind fun s₂ found => .ite (fun _ => ?_) fun hno => .pure fun es hes =>
        absurd hes.1 hno
      refine (ih.content s₂).bind fun s₃ inner => (Does.closingTag _).bind fun s₄ g => .pure ?_
      rintro gs hgs fs hfs es ⟨-, rfl⟩ ds ⟨hds, hposition, hbare, htrailing, horphans⟩
      refine ⟨?_, hposition, hbare⟩
      have hall := (Told.append hds (Told.cons s₁.current (Told.append hfs hgs)))
      rw [List.append_nil]
      refine Told.perm hall ?_ (by simp [ElementHead.expressions])
      refine List.perm_iff_count.2 fun c => ?_
      simp only [ElementHead.comments, ElementHead.expressions, hbare, Body.comments,
        List.count_append]
      rw [show commentsIn none = [] from rfl, List.count_nil]
      omega

/-- **A block**: a comment may stand behind its opening brace. -/
theorem succ_block : Does s (Parse.block (d + 1)) (Given ToldBlock) := by
  rw [Parse.block]
  refine .ofPosition <| (Does.expect _).bind fun s₁ found => .ite (fun _ => ?_) fun hno =>
    .pure fun ds hds => absurd hds.1 hno
  refine (Does.trailingComment _).bind fun s₂ g => Does.skipNewlines.bind fun s₃ _ =>
    (ih.body s₃).bind fun s₄ inner => (Does.expectLine _).bind fun s₅ closed => .ite (fun _ => ?_)
      fun hno => .pure fun es hes => absurd hes.1 hno
  refine .pure ?_
  rintro hs ⟨-, hhs⟩ gs ⟨hgs, hfirst⟩ fs hfs es rfl ds ⟨-, rfl⟩
  rw [List.append_nil]
  have hback := Told.append (Told.tokens hfs) (Told.skip hgs (.tokens hhs))
  refine ⟨(Told.token _).append ((Told.trail _).append hback), ?_⟩
  change ((Deed.token s.current :: (Deed.trail (commentsIn g) :: (fs ++ (gs ++ hs))))).findSome?
    Deed.keeps? = some true
  rw [List.findSome?_cons, List.findSome?_cons]
  exact (hfs.keeps?_append _).trans (keeps?_append_of_kept hfirst hs)

theorem succ_forLoop : Does s (Parse.forLoop (d + 1)) (Given (ReadsCarrier s)) := by
  rw [Parse.forLoop]
  refine Does.forHead.bind fun s₁ h => ?_
  cases h with
  | none => exact .nothing
  | some h =>
    refine (ih.block s₁).bind fun s₂ b => ?_
    cases b with
    | none => exact .nothing
    | some b =>
      refine .pure ?_
      rintro es ⟨hes, -⟩ ds ⟨hds, hposition, hbare⟩
      refine ⟨⟨?_, hposition, hbare⟩, rfl⟩
      rw [List.append_nil]
      refine Told.perm ((Told.tokens hds).append hes) (List.perm_iff_count.2 fun c => ?_) (.refl _)
      simp only [Node.comments, hbare, Block.comments, Body.comments, List.count_append]
      rw [show commentsIn none = [] from rfl, List.count_nil]
      omega

/-- **A conditional**: the comments of both branches that belong to no node are its
own. -/
theorem succ_conditional : Does s (Parse.conditional (d + 1)) (Given (ReadsConditional s)) := by
  rw [Parse.conditional]
  refine .ofPosition <| .advance <| Does.goHeader.bind fun s₁ condition =>
    Does.skipNewlines.bind fun s₂ _ => (ih.block s₂).bind fun s₃ b => ?_
  cases b with
  | none => exact .nothing
  | some b =>
    refine (ih.elseBranch s₃).bind fun s₄ otherwise => .pure ?_
    rintro hs hhs gs ⟨hgs, hfirst⟩ fs hfs ds hds
    rw [List.append_nil]
    have htokens := hds.append hfs
    have htold : Told (ds ++ (fs ++ (gs ++ hs)))
        (Node.conditional ⟨condition, s.current.position, none, b.trailing,
          b.body.orphans ++ otherwise.orphans⟩ b.body.nodes otherwise.nodes).comments
        (Node.stationsAll b.body.nodes ++ Node.stationsAll otherwise.nodes) := by
      rw [← List.append_assoc]
      refine Told.perm ((Told.tokens htokens).append (hgs.append hhs))
        (List.perm_iff_count.2 fun c => ?_) (.refl _)
      simp only [Node.comments, Block.comments, Body.comments, commentsAmong_append,
        List.count_append]
      rw [show commentsIn none = [] from rfl, List.count_nil]
      omega
    refine ⟨⟨⟨htold.cons _, rfl, rfl⟩, rfl⟩, _, rfl, htold, ?_⟩
    rw [← List.append_assoc]
    exact (htokens.keeps?_append _).trans (keeps?_append_of_kept hfirst hs)

/-- **An else branch** has a body, or another conditional as its only node. -/
theorem succ_elseBranch : Does s (Parse.elseBranch (d + 1)) ToldBody := by
  rw [Parse.elseBranch]
  refine .ofKind <| .ite (fun _ => ?_) fun _ => .pure .nil
  refine Does.advanceLine.bind fun s₁ _ => .ofKind <| .ite (fun hif => ?_) fun _ => ?_
  · have hthere : s₁.current.kind ≠ .endOfInput := by
      rw [hif]
      decide
    refine (ih.conditional s₁).bind fun s₂ n => .pure ?_
    cases n with
    | none => exact fun _ h => h.elim
    | some n =>
      rintro _ ⟨⟨hread, -⟩, es, rfl, htold, hfirst⟩ _ ⟨fs, rfl, hfs⟩
      have hbranch := htold.branch (t := s₁.current) hthere hfirst
      rw [← hread.position_eq] at hbranch
      unfold ToldBody
      rw [List.append_nil]
      have hall := (Told.tokens (hfs.cons (t := s.current))).append hbranch
      simpa [Body.comments, Node.commentsAll, Node.stationsAll, commentsAmong] using hall
  · refine (Does.expect _).bind fun s₂ found => .ite (fun _ => ?_) fun hno => .pure fun es hes =>
      absurd hes.1 hno
    refine Does.skipNewlines.bind fun s₃ _ => (ih.body s₃).bind fun s₄ inner =>
      (Does.expectLine _).bind fun s₅ closed => .pure ?_
    rintro hs ⟨-, hhs⟩ gs ⟨hgs, -⟩ fs hfs es ⟨-, rfl⟩ _ ⟨ds, rfl, hds⟩
    rw [List.append_nil]
    exact (Told.tokens hds.cons).append ((Told.token _).append ((Told.tokens hfs).append
      (Told.skip hgs (.tokens hhs))))

theorem succ_call : Does s (Parse.call (d + 1)) (Given (ReadsCarrier s)) := by
  rw [Parse.call]
  refine Does.callHead.bind fun s₁ h => ?_
  cases h with
  | none => exact .nothing
  | some h =>
    refine .ofKind <| .ite (fun _ => ?_) fun _ => .pure ?_
    · refine Does.advanceLine.bind fun s₂ _ => (ih.body s₂).bind fun s₃ inner =>
        (Does.expectLine _).bind fun s₄ closed => .ite (fun _ => ?_) fun hno =>
          .pure fun fs hfs => absurd hfs.1 hno
      refine .pure ?_
      rintro gs ⟨-, hgs⟩ fs ⟨hfs, -⟩ _ ⟨es, rfl, hes⟩ ds ⟨hds, hposition, hbare, -⟩
      refine ⟨⟨?_, hposition, hbare⟩, rfl⟩
      rw [List.append_nil]
      have hall := (Told.tokens hds).append ((Told.tokens (hes.cons (t := s₁.current))).append
        (Told.skip hfs (.tokens hgs)))
      refine Told.perm hall (List.perm_iff_count.2 fun c => ?_) (.refl _)
      simp only [Node.comments, hbare, Body.comments, List.count_append]
      rw [show commentsIn none = [] from rfl, List.count_nil]
      omega
    · rintro ds ⟨hds, hposition, hbare, horphans⟩
      refine ⟨⟨?_, hposition, hbare⟩, rfl⟩
      rw [List.append_nil]
      unfold Node.comments
      rw [hbare, horphans]
      exact .tokens hds

/-- **One level deeper.** -/
theorem succ : DoesNest (d + 1) where
  body s := by
    rw [Parse.body]
    have hnode : ∀ s, Does s (Parse.bodyNode d) fun ds r =>
        AtPlace s ds r ∧ (True → ∀ n ∈ r, n.carries) := fun s => (ih.bodyNode s).mono fun ds r hr => ?_
    · exact (Does.nodes endsBody_of_end hnode).mono fun ds b hb => ⟨hb.1, hb.2 trivial⟩
    cases r with
    | none => exact hr.elim
    | some n => exact ⟨⟨hr.1, .inl hr.2⟩, fun _ m hm => Option.mem_some.1 hm ▸ hr.2⟩
  bodyNode _ := ih.succ_bodyNode
  markup _ := ih.succ_markup
  content s := by
    rw [Parse.content]
    have hnode : ∀ s, Does s (Parse.contentNode d) fun ds r =>
        AtPlace s ds r ∧ (False → ∀ n ∈ r, n.carries) := fun s =>
      (ih.contentNode s).mono fun ds r hr => ⟨hr, False.elim⟩
    exact (Does.nodes endsContent_of_end hnode).mono fun ds b hb => hb.1
  contentNode _ := ih.succ_contentNode
  element _ := ih.succ_element
  block _ := ih.succ_block
  forLoop _ := ih.succ_forLoop
  conditional _ := ih.succ_conditional
  elseBranch _ := ih.succ_elseBranch
  call _ := ih.succ_call

end DoesNest

/-- **Bodies tell their courses**, at every depth. -/
theorem doesNest (d : Nat) : DoesNest d := by
  induction d with
  | zero => exact .zero
  | succ d ih => exact ih.succ

end Gsx.Parse
