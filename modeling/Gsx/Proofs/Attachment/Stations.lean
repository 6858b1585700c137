import Mathlib.Data.List.Count
import Mathlib.Data.List.Perm.Basic
import Gsx.Proofs.Attachment.Course
/-!
# What a tree tells of a course

Where a course has stations in a tree: where a node starts, where the node is free
text, and where an expression starts. At the start of a node comments are taken.
Only the conditional in an else branch has none taken before it, but then the next
comments that are taken are kept. Comments get lost in front of free text alone.

A course is told by a tree if the comments that it keeps are those of the tree, its
stations are on it, and whatever goes behind braces or loses comments does so at a
station.
-/

namespace Gsx

/-! ## Nodes -/

namespace Node

/-- Where a node starts. -/
def position : Node → Position
  | .element h _ => h.position
  | .letBinding h _ _ => h.position
  | .forLoop h _ => h.position
  | .conditional h _ _ => h.position
  | .call h _ => h.position
  | .slot s => s.position
  | .expression e => e.position
  | .letReference r => r.position
  | .text t => t.position
  | .goCode c => c.position

/-- The comments in front of a node. -/
def leading? : Node → Option CommentGroup
  | .element h _ => h.leading
  | .letBinding h _ _ => h.leading
  | .forLoop h _ => h.leading
  | .conditional h _ _ => h.leading
  | .call h _ => h.leading
  | .slot s => s.leading
  | .expression e => e.leading
  | .letReference _ | .text _ => none
  | .goCode c => c.leading

/-- Whether a node may have comments in front of it. -/
def carries : Node → Bool
  | .letReference _ | .text _ => false
  | _ => true

/-- Whether a node is free text. -/
def isText : Node → Bool
  | .text _ => true
  | _ => false

@[simp] theorem position_withLeading (g : CommentGroup) (n : Node) :
    (n.withLeading g).position = n.position := by
  cases n <;> rfl

/-- **A node takes the comments in front of it.** -/
theorem perm_withLeading (g : CommentGroup) {n : Node} (hbare : n.leading? = none)
    (hcarries : n.carries) : (n.withLeading g).comments.Perm (g.comments ++ n.comments) := by
  cases n with
  | element h cs =>
    have hleading : h.leading = none := hbare
    simp only [withLeading, comments, ElementHead.comments, ElementHead.expressions, hleading]
    simp only [commentsIn, Option.elim, List.nil_append, List.append_assoc]
    rw [← List.append_assoc, ← List.append_assoc g.comments]
    exact List.perm_append_comm.append_right _
  | text t => cases hcarries
  | letReference r => cases hcarries
  | _ =>
    simp only [leading?] at hbare
    simp only [withLeading, comments, hbare, commentsIn, Option.elim, List.nil_append,
      List.append_nil]
    exact .refl _

/-- Free text takes none. -/
theorem comments_withLeading_text (g : CommentGroup) {n : Node} (h : n.isText) :
    (n.withLeading g).comments = n.comments := by
  cases n <;> first | rfl | cases h

end Node

/-! ## Stations -/

/-- **What a tree has of a course** at a place. -/
inductive Station where
  /-- A node starts. -/
  | site (p : Position)
  /-- It is free text. -/
  | text (p : Position)
  /-- An expression starts, with a brace or as a bare name. -/
  | braces (p : Position)
  deriving DecidableEq

/-- The station of an expression. -/
def GoExpr.station (e : GoExpr) : Station :=
  .braces e.position

mutual

/-- The stations of a node, but for its start. -/
def Node.inside : Node → List Station
  | .element h cs => h.expressions.map GoExpr.station ++ Node.stationsAll cs
  | .letBinding _ e cs => e.expressions.map GoExpr.station ++ Node.stationsAll cs
  | .forLoop _ b => Node.stationsAll b
  | .conditional _ t e => Node.stationsAll t ++ Node.stationsAll e
  | .call _ cs => Node.stationsAll cs
  | .slot s => [.braces s.position]
  | .expression e => [.braces e.position]
  | .letReference _ | .goCode _ => []
  | .text t => [.text t.position]

/-- The stations of some nodes. -/
def Node.stationsAll : List Node → List Station
  | [] => []
  | n :: ns => .site n.position :: (n.inside ++ Node.stationsAll ns)

end

@[simp] theorem Node.inside_withLeading (g : CommentGroup) (n : Node) :
    (n.withLeading g).inside = n.inside := by
  cases n <;> rfl

/-- Where free text starts there is a station for it. -/
theorem Node.text_mem_inside {n : Node} (h : n.isText) : .text n.position ∈ n.inside := by
  cases n with
  | text t => exact List.mem_singleton_self _
  | _ => cases h

namespace Body

/-- The comments that a part of a body keeps. -/
def Part.kept (p : Part) : List Comment :=
  (push p (onlyComments [])).comments

/-- The stations of a part of a body. -/
def Part.stations (p : Part) : List Station :=
  Node.stationsAll p.node.toList

theorem Part.kept_none (g : Option CommentGroup) : Part.kept ⟨g, none⟩ = commentsIn g := by
  cases g with
  | none => rfl
  | some g => exact List.append_nil _

theorem comments_singleton (n : Node) : (Body.mk [n] []).comments = n.comments := by
  rw [comments, Node.commentsAll, Node.commentsAll, List.append_nil]
  exact List.append_nil _

theorem Part.perm_kept (g : Option CommentGroup) {n : Node} (hbare : n.leading? = none)
    (hcarries : n.carries) : (Part.kept ⟨g, some n⟩).Perm (commentsIn g ++ n.comments) := by
  cases g with
  | none =>
    have hkept : Part.kept ⟨none, some n⟩ = n.comments := comments_singleton n
    rw [hkept]
    exact .refl _
  | some g =>
    have hkept : Part.kept ⟨some g, some n⟩ = (n.withLeading g).comments := comments_singleton _
    rw [hkept]
    exact Node.perm_withLeading g hbare hcarries

/-- In front of free text they get lost. -/
theorem Part.kept_text (g : Option CommentGroup) {n : Node} (h : n.isText) :
    Part.kept ⟨g, some n⟩ = n.comments := by
  cases g with
  | none => exact comments_singleton n
  | some g => exact (comments_singleton _).trans (Node.comments_withLeading_text g h)

theorem Part.stations_some (g : Option CommentGroup) (n : Node) :
    Part.stations ⟨g, some n⟩ = .site n.position :: n.inside := by
  unfold stations
  rw [Option.toList_some, Node.stationsAll, Node.stationsAll, List.append_nil]

theorem perm_push (p : Part) (b : Body) : (push p b).comments.Perm (p.kept ++ b.comments) := by
  obtain ⟨leading, node⟩ := p
  cases node with
  | none =>
    cases leading with
    | none => exact .refl _
    | some g =>
      simp only [push, comments, Part.kept, onlyComments, commentsAmong, Node.commentsAll,
        List.flatMap_cons, List.flatMap_nil, List.append_nil, List.nil_append]
      rw [← List.append_assoc, ← List.append_assoc]
      exact List.perm_append_comm.append_right _
  | some n =>
    cases leading <;>
      simp [push, comments, Part.kept, onlyComments, commentsAmong, Node.commentsAll]

/-- **A body has the comments of its parts.** -/
theorem perm_ofParts (parts : List Part) (orphans : List CommentGroup) :
    (ofParts parts orphans).comments.Perm (parts.flatMap Part.kept ++ commentsAmong orphans) := by
  induction parts with
  | nil => exact .refl _
  | cons p parts ih =>
    rw [List.flatMap_cons, List.append_assoc]
    exact (perm_push p (ofParts parts orphans)).trans (ih.append_left _)

theorem stations_push (p : Part) (b : Body) :
    Node.stationsAll (push p b).nodes = p.stations ++ Node.stationsAll b.nodes := by
  obtain ⟨leading, node⟩ := p
  cases node <;> cases leading <;> simp [push, Part.stations, Node.stationsAll]

theorem stations_ofParts (parts : List Part) (orphans : List CommentGroup) :
    Node.stationsAll (ofParts parts orphans).nodes = parts.flatMap Part.stations := by
  induction parts with
  | nil => rfl
  | cons p parts ih =>
    rw [List.flatMap_cons, ← ih]
    exact stations_push p (ofParts parts orphans)

end Body

/-! ## Stations on a course -/

namespace Deed

/-- Whether comments that are taken in front of a token are kept. -/
def keeps? : Deed → Option Bool
  | .take _ kept _ => some kept
  | _ => none

theorem keeps?_take (t : Token) (cs : List Comment) :
    (take t true cs).keeps? ≠ some false :=
  fun h => Bool.noConfusion (Option.some.inj h)

/-- A deed at the start of a node, with those behind it. -/
def Starts (p : Position) (back : List Deed) : Deed → Prop
  | .take t _ _ => t.kind ≠ .endOfInput ∧ t.position = p
  | .token t => t.kind ≠ .endOfInput ∧ t.position = p ∧ back.findSome? keeps? = some true
  | _ => False

/-- A deed at the start of an expression. -/
def Embeds (p : Position) : Deed → Prop
  | .braces t => t.position = p
  | .token t => t.kind = .identifier ∧ t.position = p
  | _ => False

end Deed

/-- **A station on a course.** -/
def Station.IsOn (ds : List Deed) : Station → Prop
  | .site p => ∃ front d back, ds = front ++ d :: back ∧ d.Starts p back
  | .text _ => True
  | .braces p => ∃ d ∈ ds, d.Embeds p

namespace Station.IsOn

variable {x : Station} {ds es : List Deed}

theorem append_left (h : x.IsOn es) (ds : List Deed) : x.IsOn (ds ++ es) := by
  cases x with
  | site p =>
    obtain ⟨front, d, back, rfl, hd⟩ := h
    exact ⟨ds ++ front, d, back, by rw [List.append_assoc], hd⟩
  | text p => trivial
  | braces p =>
    obtain ⟨d, hmem, hd⟩ := h
    exact ⟨d, List.mem_append_right _ hmem, hd⟩

/-- What comes later does not matter: the first comments that are taken are. -/
theorem append_right (h : x.IsOn ds) (es : List Deed) : x.IsOn (ds ++ es) := by
  cases x with
  | site p =>
    obtain ⟨front, d, back, rfl, hd⟩ := h
    refine ⟨front, d, back ++ es, by rw [List.append_assoc, List.cons_append], ?_⟩
    cases d with
    | token t =>
      refine ⟨hd.1, hd.2.1, ?_⟩
      rw [List.findSome?_append, hd.2.2]
      rfl
    | take t kept cs => exact hd
    | _ => exact hd.elim
  | text p => trivial
  | braces p =>
    obtain ⟨d, hmem, hd⟩ := h
    exact ⟨d, List.mem_append_left _ hmem, hd⟩

end Station.IsOn

/-- **A course is told** by the comments that are kept and the stations. -/
structure Told (ds : List Deed) (cs : List Comment) (xs : List Station) : Prop where
  comments : (ds.flatMap Deed.kept).Perm cs
  stations : ∀ x ∈ xs, x.IsOn ds
  braces : ∀ t, .braces t ∈ ds → .braces t.position ∈ xs
  texts : ∀ t lost, .take t false lost ∈ ds → t.kind ≠ .endOfInput ∧ .text t.position ∈ xs

namespace Told

variable {ds es : List Deed} {cs cs' : List Comment} {xs xs' : List Station} {t : Token}

theorem nil : Told [] [] [] where
  comments := .refl _
  stations _ h := absurd h List.not_mem_nil
  braces _ h := absurd h List.not_mem_nil
  texts _ _ h := absurd h List.not_mem_nil

theorem append (h : Told ds cs xs) (h' : Told es cs' xs') :
    Told (ds ++ es) (cs ++ cs') (xs ++ xs') where
  comments := by
    rw [List.flatMap_append]
    exact h.comments.append h'.comments
  stations x hx := by
    rcases List.mem_append.1 hx with hx | hx
    · exact (h.stations x hx).append_right es
    · exact (h'.stations x hx).append_left ds
  braces t ht := by
    rcases List.mem_append.1 ht with ht | ht
    · exact List.mem_append_left _ (h.braces t ht)
    · exact List.mem_append_right _ (h'.braces t ht)
  texts t lost ht := by
    rcases List.mem_append.1 ht with ht | ht
    · exact (h.texts t lost ht).imp_right (List.mem_append_left _)
    · exact (h'.texts t lost ht).imp_right (List.mem_append_right _)

/-- Neither comments nor stations have an order of their own. -/
theorem perm (h : Told ds cs xs) (hcs : cs.Perm cs') (hxs : xs.Perm xs') : Told ds cs' xs' where
  comments := h.comments.trans hcs
  stations x hx := h.stations x (hxs.mem_iff.2 hx)
  braces t ht := hxs.mem_iff.1 (h.braces t ht)
  texts t lost ht := (h.texts t lost ht).imp_right hxs.mem_iff.1

/-- Deeds of which the tree knows nothing. -/
theorem skip (h : Told ds cs xs) (h' : Told es [] []) : Told (ds ++ es) cs xs := by
  have hboth := h.append h'
  rwa [List.append_nil, List.append_nil] at hboth

/-- A single deed that loses no comments. -/
theorem deed {d : Deed} (hstations : ∀ x ∈ xs, x.IsOn [d])
    (hbraces : ∀ t, d = .braces t → .braces t.position ∈ xs) (hkeeps : d.keeps? ≠ some false) :
    Told [d] d.kept xs where
  comments := by rw [List.flatMap_singleton]
  stations := hstations
  braces t h := hbraces t (List.mem_singleton.1 h).symm
  texts t lost h := absurd (congrArg Deed.keeps? (List.mem_singleton.1 h)).symm hkeeps

theorem token (t : Token) : Told [.token t] [] [] :=
  deed (fun _ h => absurd h List.not_mem_nil) (fun _ h => Deed.noConfusion h)
    (Option.some_ne_none _).symm

theorem tokens (h : Parse.OverTokens ds) : Told ds [] [] := by
  induction ds with
  | nil => exact .nil
  | cons d ds ih =>
    obtain ⟨⟨t, rfl⟩, hrest⟩ := List.forall_mem_cons.1 h
    exact (token t).append (ih hrest)

/-- A token in front. -/
theorem cons (t : Token) (h : Told ds cs xs) : Told (.token t :: ds) cs xs :=
  (token t).append h

theorem trail (cs : List Comment) : Told [.trail cs] cs [] :=
  deed (fun _ h => absurd h List.not_mem_nil) (fun _ h => Deed.noConfusion h)
    (Option.some_ne_none _).symm

theorem take (t : Token) (cs : List Comment) : Told [.take t true cs] cs [] :=
  deed (fun _ h => absurd h List.not_mem_nil) (fun _ h => Deed.noConfusion h) (Deed.keeps?_take t cs)

/-- The expression in braces. -/
theorem embedded (t : Token) : Told [.braces t] [] [.braces t.position] := by
  refine deed (fun x hx => ?_) (fun u hu => ?_) (Option.some_ne_none _).symm
  · rw [List.mem_singleton.1 hx]
    exact ⟨_, List.mem_singleton_self _, rfl⟩
  · cases hu
    exact List.mem_singleton_self _

/-- The expression that is a bare name. -/
theorem named (hkind : t.kind = .identifier) : Told [.token t] [] [.braces t.position] := by
  refine deed (fun x hx => ?_) (fun _ h => Deed.noConfusion h) (Option.some_ne_none _).symm
  rw [List.mem_singleton.1 hx]
  exact ⟨_, List.mem_singleton_self _, hkind, rfl⟩

/-- **A node starts**, and takes the comments in front of it. -/
theorem site (hthere : t.kind ≠ .endOfInput) (cs : List Comment) (h : Told ds cs' xs) :
    Told (.take t true cs :: ds) (cs ++ cs') (.site t.position :: xs) := by
  have htake : Told [.take t true cs] cs [.site t.position] := by
    refine deed (fun x hx => ?_) (fun _ h => Deed.noConfusion h) (Deed.keeps?_take t cs)
    rw [List.mem_singleton.1 hx]
    exact ⟨[], _, [], rfl, hthere, rfl⟩
  exact htake.append h

/-- **Free text starts**, and the comments in front of it get lost. -/
theorem lost (hthere : t.kind ≠ .endOfInput) (cs : List Comment) (h : Told ds cs' xs)
    (htext : .text t.position ∈ xs) :
    Told (.take t false cs :: ds) cs' (.site t.position :: xs) where
  comments := h.comments
  stations x hx := by
    rcases List.mem_cons.1 hx with rfl | hx
    · exact ⟨[], _, ds, rfl, hthere, rfl⟩
    · exact (h.stations x hx).append_left [_]
  braces u hu := by
    refine List.mem_cons_of_mem _ (h.braces u ?_)
    exact (List.mem_cons.1 hu).resolve_left nofun
  texts u lost hu := by
    rcases List.mem_cons.1 hu with hu | hu
    · cases hu
      exact ⟨hthere, List.mem_cons_of_mem _ htext⟩
    · exact (h.texts u lost hu).imp_right (List.mem_cons_of_mem _)

/-- **The conditional of an else branch starts** at a token. -/
theorem branch (hthere : t.kind ≠ .endOfInput) (h : Told ds cs xs)
    (hkeeps : ds.findSome? Deed.keeps? = some true) :
    Told (.token t :: ds) cs (.site t.position :: xs) := by
  have hall := h.cons t
  refine { hall with stations := ?_, braces := ?_, texts := ?_ }
  · intro x hx
    rcases List.mem_cons.1 hx with rfl | hx
    · exact ⟨[], _, ds, rfl, hthere, rfl, hkeeps⟩
    · exact hall.stations x hx
  · exact fun u hu => List.mem_cons_of_mem _ (hall.braces u hu)
  · exact fun u lost hu => (hall.texts u lost hu).imp_right (List.mem_cons_of_mem _)

end Told

end Gsx
