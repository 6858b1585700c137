import Gsx.Proofs.Numerals
import Gsx.Proofs.State.Listing
/-!
# Class names

Which classes have a meaning, told without the translation: the listed ones, the
leads of the numeric families with a numeral behind them, and the leads of the
fractional ones with two numerals of which the second is not zero. The translation
finds a meaning for exactly these (`ofClass?_isSome_iff`), as long as their
numerals are short; and no character of theirs is blank.
-/

namespace Gsx

open Catalogue

/-- **The classes that have a meaning.** -/
inductive Catalogue.IsClass : String → Prop
  | listed {name : String} {m : ClassMapping} : (name, m) ∈ fixed ++ sizes → IsClass name
  | numeric {f : NumericFamily} {ds : List Char} :
      f ∈ numeric → IsAsciiNumeral ds → IsClass (f.lead ++ String.ofList ds)
  | fraction {f : String × String} {ns ds : List Char} :
      f ∈ fractional → IsAsciiNumeral ns → IsAsciiNumeral ds → Numeral.value ds ≠ 0 →
      IsClass (f.1 ++ String.ofList (ns ++ '/' :: ds))

variable {cls : String} {cs ns ds : List Char}

/-! ## Blanks -/

/-- What the catalogue spells out: the listed names and the leads. -/
def Catalogue.spelled : List String :=
  (fixed ++ sizes).map (·.1) ++ (numeric.map (·.lead) ++ fractional.map (·.1))

theorem Catalogue.isBlank_spelled {text : String} (h : text ∈ spelled) :
    ∀ c ∈ text.toList, Text.isBlank c = false := by
  -- as a test, since the quantifier would be taken for one over all characters
  have hall : spelled.all (fun text => text.toList.all fun c => !Text.isBlank c) = true := by
    decide +kernel
  simpa using List.all_eq_true.1 hall text h

theorem IsAsciiNumeral.isBlank (h : IsAsciiNumeral cs) : ∀ c ∈ cs, Text.isBlank c = false := by
  intro c hc
  refine isBlank_of_isAsciiWord ?_
  rw [isAsciiWord, Char.isAlphanum, h.2 c hc, Bool.or_true, Bool.true_or]

/-- **No class with a meaning has a blank in it.** -/
theorem Catalogue.IsClass.isBlank (h : IsClass cls) : ∀ c ∈ cls.toList, Text.isBlank c = false := by
  cases h with
  | listed hlisted => exact isBlank_spelled (List.mem_append_left _ (List.mem_map_of_mem hlisted))
  | numeric hf hds =>
    intro c hc
    rw [String.toList_append, String.toList_ofList, List.mem_append] at hc
    refine hc.elim (isBlank_spelled ?_ c) (hds.isBlank c)
    exact List.mem_append_right _ (List.mem_append_left _ (List.mem_map_of_mem hf))
  | fraction hf hns hds =>
    intro c hc
    rw [String.toList_append, String.toList_ofList, List.mem_append, List.mem_append,
      List.mem_cons] at hc
    rcases hc with hc | hc | rfl | hc
    · refine isBlank_spelled ?_ c hc
      exact List.mem_append_right _ (List.mem_append_right _ (List.mem_map_of_mem hf))
    · exact hns.isBlank c hc
    · rfl
    · exact hds.isBlank c hc

/-- And none is empty. -/
theorem Catalogue.IsClass.ne_empty (h : IsClass cls) : cls ≠ "" := by
  cases h with
  | listed hlisted =>
    have hne : ∀ p ∈ fixed ++ sizes, p.1 ≠ "" := by decide +kernel
    exact hne _ hlisted
  | numeric hf hds =>
    intro hnil
    exact hds.1 (by simpa using (String.append_eq_empty_iff.1 hnil).2)
  | fraction hf hns hds =>
    intro hnil
    simpa using (String.append_eq_empty_iff.1 hnil).2

theorem Catalogue.IsClass.trim_eq (h : IsClass cls) : Text.trim cls = cls := by
  rw [Text.trim, Text.trimList_eq_self, String.ofList_toList]
  · exact fun c hc => h.isBlank c (List.mem_of_head? hc)
  · exact fun c hc => h.isBlank c (List.mem_of_getLast? hc)

/-! ## What the translation looks for -/

/-- A text splits at its only slash. -/
theorem fraction?_eq_some_iff : ClassMapping.fraction? cs = some (ns, ds)
    ↔ cs = ns ++ '/' :: ds ∧ IsAsciiNumeral ns ∧ IsAsciiNumeral ds := by
  have hslash : ∀ {xs : List Char}, IsAsciiNumeral xs → '/' ∉ xs := fun h hmem =>
    absurd (h.2 '/' hmem) (by decide)
  rw [ClassMapping.fraction?, Text.splitOn_eq]
  constructor
  · intro h
    split at h
    · next n d hsplit =>
      have hcs : cs = n ++ '/' :: d := by
        have hjoin : ['/'].intercalate (cs.splitOn '/') = cs := List.intercalate_splitOn '/'
        rw [← hjoin, hsplit]
        simp [List.intercalate]
      split at h
      · next hn hd =>
        cases h
        obtain ⟨rfl, hn⟩ := asciiNumeral?_eq_some_iff.1 hn
        obtain ⟨rfl, hd⟩ := asciiNumeral?_eq_some_iff.1 hd
        exact ⟨hcs, hn, hd⟩
      · cases h
    · cases h
  · rintro ⟨rfl, hns, hds⟩
    rw [List.splitOn_append_cons_self, List.splitOn_eq_singleton (hslash hns),
      List.splitOn_eq_singleton (hslash hds)]
    simp only [List.singleton_append, asciiNumeral?_eq_some_iff.2 ⟨rfl, hns⟩,
      asciiNumeral?_eq_some_iff.2 ⟨rfl, hds⟩]

/-- A percentage is none where it divides by zero, and only there. -/
theorem eq_none_iff_of_percentage? {p : Option String}
    (h : ClassMapping.percentage? ns ds = .ok p) : p = none ↔ Numeral.value ds = 0 := by
  obtain ⟨n, -, h⟩ := bind_eq_ok_iff.1 h
  obtain ⟨d, hd, h⟩ := bind_eq_ok_iff.1 h
  obtain rfl : Numeral.value ds = d := by
    rw [Numeral.read] at hd
    split at hd
    · cases hd
    · exact Except.ok.inj hd
  split at h
  · next hzero => cases h; exact iff_of_true rfl hzero
  · next hpos => split at h <;> cases h; exact iff_of_false (Option.some_ne_none _) hpos

/-- A search by leads finds one of them, with what is read behind it. -/
theorem exists_of_findSome?_lead {α β γ : Type} {fs : List α} {lead : α → String}
    {read : List Char → Option β} {g : α → β → γ} {found : γ}
    (h : (fs.findSome? fun f => ((Text.after? (lead f).toList cs).bind read).map (g f))
      = some found) :
    ∃ f ∈ fs, ∃ rest b, cs = (lead f).toList ++ rest ∧ read rest = some b ∧ g f b = found := by
  obtain ⟨f, hf, hfamily⟩ := List.exists_of_findSome?_eq_some h
  obtain ⟨b, hb, hfound⟩ := Option.map_eq_some_iff.1 hfamily
  obtain ⟨rest, hafter, hread⟩ := Option.bind_eq_some_iff.1 hb
  exact ⟨f, hf, rest, b, Text.after?_eq_some_iff.1 hafter, hread, hfound⟩

/-- And if it finds none, nothing is read behind any of them. -/
theorem eq_none_of_findSome?_lead {α β γ : Type} {fs : List α} {lead : α → String}
    {read : List Char → Option β} {g : α → β → γ} {f : α} {rest : List Char}
    (h : (fs.findSome? fun f =>
      ((Text.after? (lead f).toList cs).bind read).map (g f)) = none)
    (hf : f ∈ fs) (hcs : cs = (lead f).toList ++ rest) : read rest = none := by
  have hnone := List.findSome?_eq_none_iff.1 h f hf
  rwa [Text.after?_eq_some_iff.2 hcs, Option.bind_some, Option.map_eq_none_iff] at hnone

theorem eq_append_ofList {lead : String} {rest : List Char} (h : cls.toList = lead.toList ++ rest) :
    cls = lead ++ String.ofList rest := by
  rw [← String.toList_inj, String.toList_append, String.toList_ofList, h]

namespace ClassMapping

theorem isClass_of_ofNumeric? {m : ClassMapping} (h : ofNumeric? cls.toList = .ok (some m)) :
    IsClass cls := by
  rw [ofNumeric?] at h
  split at h
  · cases h
  · next hfound =>
    obtain ⟨f, hf, rest, ds, hcls, hread, -⟩ := exists_of_findSome?_lead hfound
    obtain ⟨rfl, hds⟩ := asciiNumeral?_eq_some_iff.1 hread
    exact eq_append_ofList hcls ▸ .numeric hf hds

theorem not_isAsciiNumeral_of_ofNumeric? {f : NumericFamily} (hf : f ∈ numeric)
    (h : ofNumeric? (f.lead.toList ++ ds) = .ok none) : ¬IsAsciiNumeral ds := by
  intro hds
  rw [ofNumeric?] at h
  split at h
  · next hnone =>
    have := eq_none_of_findSome?_lead hnone hf rfl
    rw [asciiNumeral?_eq_some_iff.2 ⟨rfl, hds⟩] at this
    cases this
  · next f' ds' _ =>
    obtain ⟨n, -, h⟩ := bind_eq_ok_iff.1 h
    cases h

theorem isClass_of_ofFractional? {m : ClassMapping}
    (h : ofFractional? cls.toList = .ok (some m)) : IsClass cls := by
  rw [ofFractional?] at h
  split at h
  · cases h
  · next code ns ds hfound =>
    obtain ⟨f, hf, rest, parts, hcls, hread, heq⟩ := exists_of_findSome?_lead hfound
    obtain ⟨-, rfl⟩ := Prod.mk.inj heq
    obtain ⟨rfl, hns, hds⟩ := fraction?_eq_some_iff.1 hread
    obtain ⟨p, hpercentage, h⟩ := bind_eq_ok_iff.1 h
    have hsome : p ≠ none := by rintro rfl; cases h
    have hpos := (eq_none_iff_of_percentage? hpercentage).not.1 hsome
    exact eq_append_ofList hcls ▸ .fraction hf hns hds hpos

theorem value_eq_zero_of_ofFractional? {f : String × String} (hf : f ∈ fractional)
    (hns : IsAsciiNumeral ns) (hds : IsAsciiNumeral ds)
    (h : ofFractional? (f.1.toList ++ (ns ++ '/' :: ds)) = .ok none) : Numeral.value ds = 0 := by
  have hlead : ∀ f ∈ fractional, f.1.toList.length = 2 := by decide
  have hsame := fraction?_eq_some_iff.2 ⟨rfl, hns, hds⟩
  rw [ofFractional?] at h
  split at h
  · next hnone =>
    have := eq_none_of_findSome?_lead hnone hf rfl
    rw [hsame] at this
    cases this
  · next code ns' ds' hfound =>
    -- the leads are as long as each other, so the parts are those after either
    obtain ⟨f', hf', rest, parts, hcls, hread, heq⟩ := exists_of_findSome?_lead hfound
    obtain ⟨-, rfl⟩ := Prod.mk.inj heq
    obtain ⟨-, rfl⟩ := List.append_inj hcls ((hlead f hf).trans (hlead f' hf').symm)
    obtain ⟨rfl, rfl⟩ := Prod.mk.inj (Option.some.inj (hsame.symm.trans hread))
    obtain ⟨p, hpercentage, h⟩ := bind_eq_ok_iff.1 h
    cases p with
    | none => exact (eq_none_iff_of_percentage? hpercentage).1 rfl
    | some p => cases h

/-- **What the translation finds a meaning for.** -/
theorem isClass_of_ofTrimmed? {m : ClassMapping} (h : ofTrimmed? cls = .ok (some m)) :
    IsClass cls := by
  rw [ofTrimmed?] at h
  cases hlookup : (fixed ++ sizes).lookup cls with
  | some m' =>
    obtain ⟨front, back, heq, -⟩ := List.lookup_eq_some_iff.1 hlookup
    have hlisted : (cls, m') ∈ fixed ++ sizes := by
      rw [heq]
      exact List.mem_append_right front List.mem_cons_self
    exact .listed hlisted
  | none =>
    simp only [hlookup] at h
    obtain ⟨found, hnumeric, h⟩ := bind_eq_ok_iff.1 h
    cases found with
    | some m' => exact isClass_of_ofNumeric? hnumeric
    | none => exact isClass_of_ofFractional? h

/-- **And what it finds none for.** -/
theorem not_isClass_of_ofTrimmed? (h : ofTrimmed? cls = .ok none) : ¬IsClass cls := by
  rw [ofTrimmed?] at h
  cases hlookup : (fixed ++ sizes).lookup cls with
  | some m' => simp only [hlookup] at h; cases h
  | none =>
    simp only [hlookup] at h
    obtain ⟨found, hnumeric, h⟩ := bind_eq_ok_iff.1 h
    cases found with
    | some m' => cases h
    | none =>
      intro hclass
      cases hclass with
      | listed hlisted =>
        have hne := List.lookup_eq_none_iff.1 hlookup _ hlisted
        rw [bne_self_eq_false] at hne
        cases hne
      | numeric hf hds =>
        rw [String.toList_append, String.toList_ofList] at hnumeric
        exact not_isAsciiNumeral_of_ofNumeric? hf hnumeric hds
      | fraction hf hns hds hpos =>
        change ofFractional? _ = _ at h
        rw [String.toList_append, String.toList_ofList] at h
        exact hpos (value_eq_zero_of_ofFractional? hf hns hds h)

/-- **The classes that the translation accepts** are those with a meaning, as long as
their numerals are short. -/
theorem ofClass?_isSome_iff (hshort : HasShortAsciiNumerals cls.toList) :
    (∃ m, ofClass? cls = .ok (some m)) ↔ IsClass (Text.trim cls) := by
  obtain ⟨found, hfound⟩ := ofClass?_ok hshort
  constructor
  · rintro ⟨m, hm⟩
    exact isClass_of_ofTrimmed? hm
  · intro hclass
    cases found with
    | some m => exact ⟨m, hfound⟩
    | none => exact absurd hclass (not_isClass_of_ofTrimmed? hfound)

end ClassMapping

end Gsx
