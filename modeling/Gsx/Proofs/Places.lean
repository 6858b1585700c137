import Gsx.Proofs.Grammar.AccountedFiles
import Gsx.Proofs.Grammar.Spelling
/-!
# Where nodes stand

The position of every node in a file is that of an offset of the source where
the node can be seen to start: an element with its angle, a directive with its
word, an expression with its opening brace, text with its first word. What a
node keeps as text is what stands there. In the order of the outline, which is
that of a walk from the front, the offsets strictly increase; and all this holds
of every source, whatever is wrong with it.
-/

namespace Gsx

open Lexer

/-- Text between braces at the front of what is left of a source, and the code
that it is without blank ends. -/
def IsBracedAt (rest : List Char) (code : String) : Prop :=
  ∃ inner content, rest = '{' :: inner ∧ Braces.content? inner = some content
    ∧ code = Text.trim (String.ofList content)

/-- What is left of a source starts as a node does. -/
def Mark.Starts (mark : Mark) (rest : List Char) : Prop :=
  match mark.sign with
  | .component => "@component".toList <+: rest ∨ "func".toList <+: rest
  | .element => "<".toList <+: rest
  | .binding => "@let".toList <+: rest
  | .loop => "@for".toList <+: rest
  | .conditional => "@if".toList <+: rest
  | .call => '@' :: mark.text.toList <+: rest
  | .text => (lexemeAt rest).kind.isText ∧ (lexemeAt rest).literal <+: rest
    ∧ (lexemeAt rest).literal <+: mark.text.toList
  | .function | .declaration | .statement => mark.text.toList <+: rest
  | .expression | .slot => IsBracedAt rest mark.text
  | .reference => False

/-- **A node stands at an offset**: its position is that of the offset, and what
is left of the source from there on starts as the node does. -/
def Mark.StandsAt (source : List Char) (mark : Mark) (o : Nat) : Prop :=
  o < source.length ∧ mark.position = .ofOffset source o ∧ mark.Starts (source.drop o)

/-- **The value of an attribute stands at an offset**: in braces, or as a bare
name. -/
def StandsAsValue (source : List Char) (code : String) (p : Position) (o : Nat) : Prop :=
  o < source.length ∧ p = .ofOffset source o ∧
    (IsBracedAt (source.drop o) code ∨ (lexemeAt (source.drop o)).kind = .identifier
      ∧ (lexemeAt (source.drop o)).literal = code.toList ∧ code.toList <+: source.drop o)

/-- The nodes of a component from the front, itself first. -/
def Component.marks (c : Component) : List Mark :=
  c.outline.filterMap Event.mark?

/-- The expressions in the attributes of a component. -/
def Component.values (c : Component) : List (String × Position) :=
  c.outline.filterMap Event.value?

/-! ## Items and offsets -/

theorem TokenKind.isVerbatim_of_isText {k : TokenKind} (h : k.isText) :
    k.isVerbatim ∨ k = .int := by
  cases k <;> first | exact .inl rfl | exact .inr rfl | cases h

variable {source : List Char} {is : List Item} {i : Item} {mark : Mark}

/-- A token that is there stands at its start. -/
theorem Lexer.stands_token {l : Lexer} (h : l.cursor.IsIn l.source) (hsource : l.source = source)
    (hthere : (l.token 0).kind ≠ .endOfInput) :
    (l.token 0).start < source.length
      ∧ (l.token 0).position = .ofOffset source (l.token 0).start := by
  subst hsource
  exact ⟨start_token_lt_length h hthere, position_token h (start_token_lt_length h hthere)⟩

theorem Sign.Opens.isThere {sign : Sign} {text : String} {t : Token} (h : sign.Opens text t) :
    t.kind ≠ .endOfInput := by
  intro hend
  cases sign <;> simp [Sign.Opens, hend, TokenKind.isText, TokenKind.isWord] at h

/-- **A token that starts a node** is what the source shows there. -/
theorem Lexer.starts_token {l : Lexer} (h : l.cursor.IsIn l.source)
    (hopens : mark.sign.Opens mark.text (l.token 0)) :
    mark.Starts (l.source.drop (l.token 0).start) := by
  have hthere := hopens.isThere
  obtain ⟨sign, p, text⟩ := mark
  have hfixed : ∀ {k : TokenKind}, Lexeme.isFixed k → (l.token 0).kind = k →
      k.text.toList <+: l.source.drop (l.token 0).start := fun hk hkind => by
    rw [← hkind]
    exact text_prefix_token h (hkind ▸ hk)
  cases sign
  case component => exact hopens.imp (hfixed (k := .atComponent) rfl) (hfixed (k := .funcWord) rfl)
  case element => exact hfixed (k := .leftAngle) rfl hopens
  case binding => exact hfixed (k := .atLet) rfl hopens
  case loop => exact hfixed (k := .atFor) rfl hopens
  case conditional => exact hfixed (k := .atIf) rfl hopens
  case call =>
    obtain ⟨hkind, rfl⟩ := hopens
    exact call_prefix_token h hkind
  case text =>
    obtain ⟨htext, hprefix⟩ := hopens
    obtain ⟨hkind, hliteral⟩ := lexemeAt_token h 0
    refine ⟨hkind ▸ htext, ?_, hliteral ▸ hprefix⟩
    rw [hliteral]
    exact literal_prefix_token h hthere (TokenKind.isVerbatim_of_isText htext)
  all_goals cases hopens

/-- A stretch of the source is what it starts with there. -/
theorem Lexer.slice_starts (l : Lexer) (start stop : Nat) :
    l.slice start stop <+: l.source.drop start :=
  List.take_prefix _ _

/-- A statement without blank ends still starts where its first token does. -/
theorem Lexer.trim_slice_starts {l : Lexer} (h : l.cursor.IsIn l.source)
    (hstart : (l.token 0).kind.startsStatement) (stop : Nat) :
    (Text.trim (String.ofList (l.slice (l.token 0).start stop))).toList
      <+: l.source.drop (l.token 0).start := by
  refine List.IsPrefix.trans ?_ (slice_starts l _ stop)
  obtain ⟨c, rest, hdrop, hblank⟩ := isBlank_token h hstart
  rw [Text.trim, String.toList_ofList, String.toList_ofList, slice, hdrop]
  cases stop - (l.token 0).start with
  | zero => exact List.prefix_rfl
  | succ n => exact trimList_prefix hblank

theorem lt_length_of_drop {o : Nat} {c : Char} {rest : List Char}
    (h : source.drop o = c :: rest) : o < source.length := by
  have hlength := congrArg List.length h
  simp only [List.length_drop, List.length_cons] at hlength
  omega

/-- **An item with which a node starts** stands where the node does. -/
theorem Item.standsAt (hof : i.IsOf source) (h : i.Bears mark) :
    ∃ t, i.first? = some t ∧ mark.StandsAt source t.start := by
  obtain ⟨l, rfl, hin, hitem⟩ := hof
  cases i with
  | token t next =>
    obtain ⟨rfl, rfl⟩ := hitem
    obtain ⟨hposition, hopens⟩ := h
    obtain ⟨hlt, hplace⟩ := stands_token hin rfl hopens.isThere
    exact ⟨_, if_neg hopens.isThere, hlt, hposition ▸ hplace, starts_token hin hopens⟩
  | capture first code =>
    obtain ⟨rfl, stop, -, rfl⟩ := hitem
    obtain ⟨hposition, hne, hsign⟩ := h
    have hthere : (l.token 0).kind ≠ .endOfInput := fun hend => hne (by
      have hlast : (l.token 0).start = l.source.length := (reads_token hin 0).start_end hend
      rw [slice, hlast, List.drop_length, List.take_nil])
    obtain ⟨hlt, hplace⟩ := stands_token hin rfl hthere
    refine ⟨_, if_neg hne, hlt, hposition ▸ hplace, ?_⟩
    obtain ⟨sign, p, text⟩ := mark
    cases sign
    case function | declaration =>
      obtain ⟨-, rfl⟩ := hsign
      change (String.ofList _).toList <+: _
      rw [String.toList_ofList]
      exact slice_starts l _ stop
    case statement =>
      obtain ⟨hstart, rfl⟩ := hsign
      exact trim_slice_starts hin hstart stop
    all_goals exact hsign.elim
  | braces first text =>
    obtain ⟨rfl, rest, hopening, hcontent⟩ := hitem
    obtain ⟨hposition, hsign, htext⟩ := h
    have hlt := lt_length_of_drop hopening
    refine ⟨_, rfl, hlt, hposition ▸ position_token hin hlt, ?_⟩
    have hbraced : IsBracedAt (l.source.drop (l.token 0).start) mark.text :=
      ⟨rest, text, hopening, hcontent, htext⟩
    rw [Mark.Starts]
    obtain hsign | hsign := hsign <;> rw [hsign] <;> exact hbraced
  | fault => exact h.elim

/-- **An item that holds a value** stands where the value does. -/
theorem Item.standsAsValue {code : String} {p : Position} (hof : i.IsOf source)
    (h : i.Gives code p) : ∃ o, StandsAsValue source code p o := by
  obtain ⟨l, rfl, hin, hitem⟩ := hof
  cases i with
  | token t next =>
    obtain ⟨rfl, rfl⟩ := hitem
    obtain ⟨hkind, rfl, rfl⟩ := h
    have hthere : (l.token 0).kind ≠ .endOfInput := by
      rw [hkind]
      exact nofun
    obtain ⟨hlt, hplace⟩ := stands_token hin rfl hthere
    obtain ⟨hlexeme, hliteral⟩ := lexemeAt_token hin 0
    refine ⟨_, hlt, hplace, .inr ⟨hlexeme.trans hkind, hliteral, ?_⟩⟩
    exact literal_prefix_token hin hthere (.inl (by rw [hkind]; rfl))
  | braces first text =>
    obtain ⟨rfl, rest, hopening, hcontent⟩ := hitem
    obtain ⟨rfl, hcode⟩ := h
    have hlt := lt_length_of_drop hopening
    exact ⟨_, hlt, position_token hin hlt, .inl ⟨rest, text, hopening, hcontent, hcode⟩⟩
  | capture first text => exact h.elim
  | fault => exact h.elim

/-! ## Outlines and offsets -/

/-- Each node of a part of an outline has an item, if those of the whole have. -/
theorem bears_middle {xs ys zs : List Mark}
    (h : ∃ js, js.Sublist is ∧ List.Forall₂ Item.Bears js (xs ++ (ys ++ zs))) :
    ∃ js, js.Sublist is ∧ List.Forall₂ Item.Bears js ys := by
  obtain ⟨js, hsub, hall⟩ := h
  have hdrop := List.forall₂_drop_append js xs _ hall
  exact ⟨_, ((List.take_sublist _ _).trans (List.drop_sublist _ _)).trans hsub,
    List.forall₂_take_append _ ys zs hdrop⟩

/-- **Nodes that start with items of a route** stand at offsets that strictly
increase. -/
theorem exists_offsets {marks : List Mark} (hof : ∀ i ∈ is, i.IsOf source)
    (hrow : (is.filterMap Item.first?).Pairwise fun t t' => t.start < t'.start)
    (h : ∃ js, js.Sublist is ∧ List.Forall₂ Item.Bears js marks) :
    ∃ os : List Nat, List.Forall₂ (Mark.StandsAt source) marks os ∧ os.Pairwise (· < ·) := by
  obtain ⟨js, hsub, hall⟩ := h
  have hrow' := hrow.sublist (hsub.filterMap Item.first?)
  have hof' : ∀ i ∈ js, i.IsOf source := fun i hi => hof i (hsub.subset hi)
  refine ⟨(js.filterMap Item.first?).map (·.start), ?_, List.pairwise_map.2 hrow'⟩
  clear hsub hrow hrow' hof
  induction hall with
  | nil => exact .nil
  | cons hbears _ ih =>
    obtain ⟨hfirst, hrest⟩ := List.forall_mem_cons.1 hof'
    obtain ⟨t, ht, hstands⟩ := Item.standsAt hfirst hbears
    rw [List.filterMap_cons_some ht, List.map_cons]
    exact .cons hstands (ih hrest)

/-- What accounts for a list of declarations says where each of them stands. -/
theorem Accounts.declaration {ds : List Declaration} {d : Declaration}
    (h : Accounts is (ds.flatMap Declaration.outline)) (hd : d ∈ ds) :
    (∃ js, js.Sublist is ∧ List.Forall₂ Item.Bears js (d.outline.filterMap Event.mark?))
      ∧ ∀ v ∈ d.outline.filterMap Event.value?, ∃ i ∈ is, i.Gives v.1 v.2 := by
  obtain ⟨before, behind, rfl⟩ := List.append_of_mem hd
  obtain ⟨hmarks, hvalues⟩ := And.intro h.marks h.values
  rw [List.flatMap_append, List.flatMap_cons, List.filterMap_append, List.filterMap_append]
    at hmarks hvalues
  exact ⟨bears_middle hmarks, fun v hv => hvalues v
    (List.mem_append_right _ (List.mem_append_left _ hv))⟩

/-! ## Files -/

/-- **All nodes stand where their positions say**, whatever is wrong with the
source. A component and the nodes in it stand, in the order of a walk from the
front, at offsets that strictly increase; every function and declaration stands
at an offset, and so does every expression in an attribute. -/
theorem SourceFile.nodes_stand {name source : String} {r : Reading}
    (hread : SourceFile.read name source = .ok r) {f : SourceFile} (hfile : r.file = some f) :
    (∀ c ∈ f.components, ∃ os : List Nat,
        List.Forall₂ (Mark.StandsAt source.toList) c.marks os ∧ os.Pairwise (· < ·))
      ∧ (∀ g ∈ f.funcs, ∃ o, Mark.StandsAt source.toList ⟨.function, g.position, g.code⟩ o)
      ∧ (∀ d ∈ f.decls, ∃ o, Mark.StandsAt source.toList ⟨.declaration, d.position, d.code⟩ o)
      ∧ ∀ c ∈ f.components, ∀ v ∈ c.values, ∃ o, StandsAsValue source.toList v.1 v.2 o := by
  obtain ⟨is, m, hroute, haccounts, -⟩ := exists_route hread
  obtain ⟨ds, hds, hcomponents, hfuncs, hdecls⟩ := haccounts f hfile
  have hin : (Lexer.ofSource name source).cursor.IsIn (Lexer.ofSource name source).source := .start _
  have hof : ∀ i ∈ is, i.IsOf source.toList := hroute.isOf hin rfl
  have hrow := (hroute.inRow hin).pairwise
  have hsingle : ∀ mark, (∃ js, js.Sublist is ∧ List.Forall₂ Item.Bears js [mark]) →
      ∃ o, Mark.StandsAt source.toList mark o := fun mark h => by
    obtain ⟨os, hall, -⟩ := exists_offsets hof hrow h
    cases hall with
    | cons hstands _ => exact ⟨_, hstands⟩
  refine ⟨fun c hc => ?_, fun g hg => ?_, fun d hd => ?_, fun c hc v hv => ?_⟩
  · rw [hcomponents] at hc
    obtain ⟨d, hd, hdc⟩ := List.mem_filterMap.1 hc
    cases d <;> cases hdc
    exact exists_offsets hof hrow (hds.declaration hd).1
  · rw [hfuncs] at hg
    obtain ⟨d, hd, hdg⟩ := List.mem_filterMap.1 hg
    cases d <;> cases hdg
    exact hsingle _ (hds.declaration hd).1
  · rw [hdecls] at hd
    obtain ⟨d, hd, hdd⟩ := List.mem_filterMap.1 hd
    cases d <;> cases hdd
    exact hsingle _ (hds.declaration hd).1
  · rw [hcomponents] at hc
    obtain ⟨d, hd, hdc⟩ := List.mem_filterMap.1 hc
    cases d <;> cases hdc
    obtain ⟨i, hi, hgives⟩ := (hds.declaration hd).2 v hv
    exact Item.standsAsValue (hof i hi) hgives

/-- A source with nodes of many kinds, and an element that is never closed. -/
def unclosedCard : String :=
  "package x\n\ntype T int\n\nfunc f() \x7b\n\x7d\n\n@component Card(n int) \x7b\n\t@let a = <b k=\x7bn\x7d/>\n\t@for _, v := range vs \x7b\n\t\t<p>\n\t\t\thi, you \x7b v \x7d\n\t\t\t@Row(v)\n\t\x7d\n\tx := 1\n\x7d\n"

/-- Its nodes stand where their positions say. -/
theorem SourceFile.nodes_stand_unclosedCard :
    ∃ r f, SourceFile.read "" unclosedCard = .ok r ∧ r.file = some f ∧ r.diagnostics.length = 1
      ∧ (∀ c ∈ f.components, ∃ os : List Nat,
          List.Forall₂ (Mark.StandsAt unclosedCard.toList) c.marks os ∧ os.Pairwise (· < ·))
      ∧ (∀ g ∈ f.funcs, ∃ o, Mark.StandsAt unclosedCard.toList ⟨.function, g.position, g.code⟩ o)
      ∧ (∀ d ∈ f.decls, ∃ o, Mark.StandsAt unclosedCard.toList ⟨.declaration, d.position, d.code⟩ o)
      ∧ ∀ c ∈ f.components, ∀ v ∈ c.values, ∃ o, StandsAsValue unclosedCard.toList v.1 v.2 o := by
  have hrun : (SourceFile.read "" unclosedCard).toOption.any
      (fun r => r.file.isSome && r.diagnostics.length == 1) = true := by decide +kernel
  cases hread : SourceFile.read "" unclosedCard with
  | error i =>
    rw [hread] at hrun
    cases hrun
  | ok r =>
    rw [hread] at hrun
    obtain ⟨hsome, hlength⟩ := Bool.and_eq_true_iff.1 hrun
    obtain ⟨f, hfile⟩ := Option.isSome_iff_exists.1 hsome
    exact ⟨r, f, rfl, hfile, eq_of_beq hlength, nodes_stand hread hfile⟩

end Gsx
