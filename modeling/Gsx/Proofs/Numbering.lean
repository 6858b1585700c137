import Mathlib.Data.List.Nodup
import Gsx.Proofs.Detection
import Gsx.Proofs.References
/-!
# The numbers of names

Naming carries one counter through a body. What it hands out, listed element by
element, is the names with the numbers from 0 on, with no gap and no number twice.
Names that come from references share the name space with these. The two never
meet if the names with numbers do not start with an upper-case character, for the
name of a reference does; and names of references differ where the table of
references has nothing to report.
-/

namespace Gsx

variable {c : Config}

/-! ## Names with numbers -/

namespace Config

theorem numberedName_injective : Function.Injective c.numberedName := fun m n h => by
  rw [numberedName, numberedName, String.append_right_inj] at h
  have hdigits : Nat.toDigits 10 m = Nat.toDigits 10 n := by
    rw [← Nat.toList_repr, ← Nat.toList_repr]
    exact congrArg String.toList h
  rw [← Nat.ofDigitChars_ten_toDigits (n := m), hdigits, Nat.ofDigitChars_ten_toDigits]

theorem numberedNames_add (first m n : Nat) :
    c.numberedNames first (m + n)
      = c.numberedNames first m ++ c.numberedNames (first + m) n := by
  simp only [numberedNames, List.range_add, List.map_append, List.map_map, Nat.add_assoc]
  rfl

theorem numberedNames_one (first : Nat) :
    c.numberedNames first 1 = [c.numberedName first] :=
  rfl

theorem numberedNames_zero_eq_map (n : Nat) :
    c.numberedNames 0 n = (List.range n).map c.numberedName := by
  simp only [numberedNames, Nat.zero_add]

/-- No digit is an upper-case character: these start with the letter A. -/
theorem isUppercase_of_isDigit {x : Char} (h : x.isDigit = true) :
    Unicode.isUppercase x = false := by
  have hlt : x.toNat < 65 := by
    simp only [Char.isDigit, Bool.and_eq_true, decide_eq_true_eq] at h
    exact Nat.lt_of_le_of_lt h.2 (by decide)
  rw [Unicode.isUppercase, Unicode.uppercaseStrides, Unicode.inStrides, if_pos hlt]

/-- A name with a number does not name a reference, if its stem does not start with
an upper-case character. -/
theorem not_isRefName_numberedName
    (h : ∀ x, c.nameStem.toList.head? = some x → Unicode.isUppercase x = false) (n : Nat) :
    ¬IsRefName (c.numberedName n) := by
  rintro ⟨x, rest, hname, hupper, -⟩
  have hlist : c.nameStem.toList ++ Nat.toDigits 10 n = x :: rest := by
    rw [← hname, numberedName, String.toList_append]
    exact congrArg (_ ++ ·) Nat.toList_repr.symm
  cases hstem : c.nameStem.toList with
  | cons y ys =>
    rw [hstem, List.cons_append, List.cons.injEq] at hlist
    have hlower := h y (by rw [hstem, List.head?_cons])
    rw [hlist.1, hupper] at hlower
    cases hlower
  | nil =>
    -- the name is a number, and no digit is an upper-case character
    rw [hstem, List.nil_append] at hlist
    have hdigit : x.isDigit = true :=
      Nat.isDigit_of_mem_toDigits (by decide) (by decide)
        (hlist ▸ List.mem_cons_self : x ∈ Nat.toDigits 10 n)
    rw [isUppercase_of_isDigit hdigit] at hupper
    cases hupper

end Config

namespace ElementName

/-- The names that an element takes from the counter: its own, if it takes one, and
those of its text children. -/
def numbered (n : ElementName) : List String :=
  (if n.usesCounter then [n.name] else []) ++ n.targets

/-- All names of an element. -/
def all (n : ElementName) : List String :=
  n.name :: n.targets

/-- **One element** takes the numbers from the next free one on. -/
theorem numbered_assign (next : Nat) (e : ElementSite) :
    (assign c next e).numbered = c.numberedNames next (assign c next e).size := by
  rw [assign]
  split
  · simp [numbered, size, Config.numberedNames]
  · rw [numbered, size, if_pos rfl, if_pos rfl, Config.numberedNames_add,
      Config.numberedNames_one]
    simp [Config.numberedNames]

/-- **A run of elements** takes the numbers from the next free one on. -/
theorem numbered_assignFrom (next : Nat) (es : List ElementSite) :
    ∃ count, (assignFrom c next es).flatMap numbered = c.numberedNames next count := by
  induction es generalizing next with
  | nil => exact ⟨0, rfl⟩
  | cons e es ih =>
    obtain ⟨count, hrest⟩ := ih (next + (assign c next e).size)
    refine ⟨(assign c next e).size + count, ?_⟩
    rw [assignFrom, List.flatMap_cons, hrest, numbered_assign, Config.numberedNames_add]

theorem site_assignFrom (next : Nat) (es : List ElementSite) :
    (assignFrom c next es).map (·.site) = es := by
  induction es generalizing next with
  | nil => rfl
  | cons e es ih => rw [assignFrom, List.map_cons, ih, site_assign]

/-- A name in a table is that of some element, given by some number. -/
theorem exists_of_mem_assignFrom {n : ElementName} {next : Nat} {es : List ElementSite}
    (h : n ∈ assignFrom c next es) : ∃ e ∈ es, ∃ next', n = assign c next' e := by
  induction es generalizing next with
  | nil => cases h
  | cons e es ih =>
    rcases List.mem_cons.1 h with rfl | h
    · exact ⟨e, List.mem_cons_self, next, rfl⟩
    · obtain ⟨e', he', hn⟩ := ih h
      exact ⟨e', List.mem_cons_of_mem _ he', hn⟩

/-! ## Names of a body -/

/-- What an element takes from the counter: a name of its own unless a reference
outside loops names it, and a name for each text child unless it shows its text
itself. -/
structure TakesNumbers (c : Config) (n : ElementName) : Prop where
  own : n.usesCounter = false ↔ n.site.head.ref ≠ none ∧ n.site.inLoop = false
  ref : n.usesCounter = false → n.site.head.ref = some n.name
  inline : n.site.IsInline c → n.targets = []
  targets : ¬n.site.IsInline c → n.targets.length = n.site.textChildren.length

theorem takesNumbers_assign (next : Nat) (e : ElementSite) :
    (assign c next e).TakesNumbers c := by
  have hlength := length_targets_assign (c := c) next e
  refine ⟨?_, ?_, fun hinline => ?_, fun hinline => ?_⟩
  · rw [site_assign, assign, ElementSite.fixedName?]
    cases e.inLoop <;> cases e.head.ref <;> simp
  · rw [site_assign, assign, ElementSite.fixedName?]
    cases e.inLoop <;> cases e.head.ref <;> simp
  · rw [site_assign, ← showsTextItself_iff] at hinline
    rw [Config.textCount, if_pos hinline] at hlength
    exact List.eq_nil_of_length_eq_zero hlength
  · rw [site_assign, ← showsTextItself_iff] at hinline
    rw [Config.textCount, if_neg hinline] at hlength
    rw [hlength, site_assign, List.countP_eq_length_filter]
    rfl

/-- The names that elements have from references. -/
def fixed (n : ElementName) : List String :=
  if n.usesCounter then [] else [n.name]

/-- The names of an element are those from the counter and those from a
reference. -/
theorem perm_all (n : ElementName) : n.all.Perm (n.fixed ++ n.numbered) := by
  rw [all, fixed, numbered]
  cases n.usesCounter <;> exact .refl _

theorem fixed_assignFrom (next : Nat) (es : List ElementSite) :
    (assignFrom c next es).flatMap fixed = es.filterMap ElementSite.fixedName? := by
  induction es generalizing next with
  | nil => rfl
  | cons e es ih =>
    rw [assignFrom, List.flatMap_cons, ih, assign, List.filterMap_cons]
    cases e.fixedName? <;> rfl

/-- Where no reference is refused, the names from references differ. -/
theorem nodup_fixed {file : String} {body : List Node}
    (h : (NamedRef.ofBody file body).diagnostics = []) :
    ((elementSites body).filterMap ElementSite.fixedName?).Nodup
      ∧ ∀ name ∈ (elementSites body).filterMap ElementSite.fixedName?, IsRefName name := by
  have hsub : ((elementSites body).filterMap ElementSite.fixedName?).Sublist
      ((NamedRef.ofBody file body).refs.map (·.name)) := by
    rw [NamedRef.map_name_refs file body h]
    induction elementSites body with
    | nil => exact .slnil
    | cons e es ih =>
      rw [List.filterMap_cons, List.filterMap_cons, ElementSite.fixedName?]
      cases e.inLoop <;> cases e.head.ref
      · exact ih
      · exact ih.cons_cons _
      · exact ih
      · exact ih.cons _
  refine ⟨(NamedRef.nodup_refs file body).sublist hsub, fun name hname => ?_⟩
  obtain ⟨r, hr, rfl⟩ := List.mem_map.1 (hsub.subset hname)
  exact (NamedRef.isSound_of_mem file body hr).name_valid

/-- **Names are gap-free and differ.** The elements of a body are named in document
order. What they take from the counter is, in this order, the names with the
numbers from 0 on. Where the table of references has nothing to report, and names
with numbers do not start with an upper-case character, no two names are the
same. -/
theorem numbered_in_document_order (c : Config) (body : List Node) :
    InDocumentOrder (ElementSite.At body) ((ofBody c body).map (·.site))
      ∧ (∀ n ∈ ofBody c body, n.TakesNumbers c)
      ∧ (∃ count, (ofBody c body).flatMap numbered = (List.range count).map c.numberedName)
      ∧ ((ofBody c body).flatMap numbered).Nodup
      ∧ ∀ file, (NamedRef.ofBody file body).diagnostics = [] →
          (∀ x, c.nameStem.toList.head? = some x → Unicode.isUppercase x = false) →
          ((ofBody c body).flatMap all).Nodup := by
  obtain ⟨count, hnumbered⟩ : ∃ count, (ofBody c body).flatMap numbered
      = (List.range count).map c.numberedName := by
    obtain ⟨count, hcount⟩ := numbered_assignFrom (c := c) 0 (elementSites body)
    exact ⟨count, hcount.trans (Config.numberedNames_zero_eq_map count)⟩
  have hnodup : ((ofBody c body).flatMap numbered).Nodup := by
    rw [hnumbered]
    exact (List.nodup_map_iff Config.numberedName_injective).2 List.nodup_range
  refine ⟨?_, fun n hn => ?_, ⟨count, hnumbered⟩, hnodup, fun file hclean hstem => ?_⟩
  · rw [ofBody, site_assignFrom]
    exact elementSites_inDocumentOrder body
  · obtain ⟨e, -, next, rfl⟩ := exists_of_mem_assignFrom hn
    exact takesNumbers_assign next e
  · have hperm : ((ofBody c body).flatMap all).Perm
        ((ofBody c body).flatMap fixed ++ (ofBody c body).flatMap numbered) :=
      (List.Perm.flatMap_left _ fun n _ => n.perm_all).trans
        (List.flatMap_append_perm ..).symm
    obtain ⟨hfixed, hnames⟩ := nodup_fixed hclean
    rw [hperm.nodup_iff, List.nodup_append]
    refine ⟨?_, hnodup, fun name hname name' hname' heq => ?_⟩
    · rw [ofBody, fixed_assignFrom]
      exact hfixed
    · rw [ofBody, fixed_assignFrom] at hname
      rw [hnumbered] at hname'
      obtain ⟨k, -, rfl⟩ := List.mem_map.1 hname'
      exact Config.not_isRefName_numberedName hstem k (heq ▸ hnames name hname)

/-- A body with a header that a reference names, a text of its own, and a loop in
which a reference names no element. -/
def headedList : List Node :=
  let head (tag : String) (ref : Option String) : ElementHead :=
    ⟨tag, [], false, ref, none, ⟨1, 1⟩, none, none, []⟩
  [.element (head "div" (some "Header"))
      [.text ⟨"Title", ⟨1, 1⟩⟩, .element (head "span" none) [.text ⟨"1", ⟨1, 1⟩⟩]],
    .forLoop ⟨"_", "item", "items", ⟨1, 1⟩, none, none, []⟩
      [.element (head "li" (some "Item")) [.text ⟨"-", ⟨1, 1⟩⟩]]]

/-- Its names differ. -/
theorem numbered_in_document_order_headedList :
    (NamedRef.ofBody "" headedList).diagnostics = []
      ∧ (∀ x, Config.standard.nameStem.toList.head? = some x → Unicode.isUppercase x = false)
      ∧ (ofBody .standard headedList).flatMap all
          = ["Header", "__tmp_0", "__tmp_1", "__tmp_2", "__tmp_3"]
      ∧ ((ofBody .standard headedList).flatMap all).Nodup := by
  have hclean : (NamedRef.ofBody "" headedList).diagnostics = [] := by decide
  have hstem : ∀ x, Config.standard.nameStem.toList.head? = some x →
      Unicode.isUppercase x = false := by
    rintro x hx
    obtain rfl : '_' = x := Option.some.inj hx
    decide
  obtain ⟨-, -, -, -, hdiffer⟩ := numbered_in_document_order .standard headedList
  exact ⟨hclean, hstem, by decide, hdiffer "" hclean hstem⟩

end ElementName

end Gsx
