import Gsx.Class.Suggestion
import Gsx.Proofs.Class.Names
/-!
# Suggestions for unknown classes

An alternative spelling gets its correction; any other class gets the nearest known
name, the earliest of several, unless even that one is more than three edits away
(`suggestClass_nearest`). Whatever is suggested has a meaning, so a hint that is
followed raises no new complaint.
-/

namespace Gsx

open Catalogue EditDistance

variable {cs : List Char} {cls name : String} {names : List String}

/-! ## The first of the nearest names -/

/-- **The nearest of some names**: those in front of it are further away, and those
behind it no nearer. -/
def IsFirstNearest (cs : List Char) (names : List String) (name : String) : Prop :=
  ∃ front back, names = front ++ name :: back
    ∧ (∀ other ∈ front, distance cs name.toList < distance cs other.toList)
    ∧ ∀ other ∈ back, distance cs name.toList ≤ distance cs other.toList

/-- **The search for the nearest name** keeps what it has if no name is nearer, and
ends with the first of the nearest names otherwise. -/
theorem foldl_nearerName (cs : List Char) (names : List String) (best : String × Nat) :
    names.foldl (nearerName cs) best = best
        ∧ (∀ other ∈ names, best.2 ≤ distance cs other.toList)
      ∨ ∃ name, names.foldl (nearerName cs) best = (name, distance cs name.toList)
        ∧ distance cs name.toList < best.2 ∧ IsFirstNearest cs names name := by
  induction names generalizing best with
  | nil => exact .inl ⟨rfl, fun _ h => absurd h List.not_mem_nil⟩
  | cons first names ih =>
    rw [List.foldl_cons]
    by_cases hnearer : distance cs first.toList < best.2
    · -- the first name is kept until a nearer one comes
      have hstep : nearerName cs best first = (first, distance cs first.toList) := if_pos hnearer
      rw [hstep]
      rcases ih (first, distance cs first.toList) with
        ⟨hkept, hback⟩ | ⟨name, hfound, hlt, front, back, rfl, hfront, hback⟩
      · exact .inr ⟨first, hkept, hnearer, [], names, rfl, nofun, hback⟩
      · refine .inr ⟨name, hfound, hlt.trans hnearer, first :: front, back, rfl, ?_, hback⟩
        exact List.forall_mem_cons.2 ⟨hlt, hfront⟩
    · have hstep : nearerName cs best first = best := if_neg hnearer
      have hfurther := Nat.le_of_not_lt hnearer
      rw [hstep]
      rcases ih best with ⟨hkept, hall⟩ | ⟨name, hfound, hlt, front, back, rfl, hfront, hback⟩
      · exact .inl ⟨hkept, List.forall_mem_cons.2 ⟨hfurther, hall⟩⟩
      · refine .inr ⟨name, hfound, hlt, first :: front, back, rfl, ?_, hback⟩
        exact List.forall_mem_cons.2 ⟨hlt.trans_le hfurther, hfront⟩

theorem IsFirstNearest.mem (h : IsFirstNearest cs names name) : name ∈ names := by
  obtain ⟨front, back, rfl, -⟩ := h
  exact List.mem_append_right front List.mem_cons_self

/-- No name is nearer. -/
theorem IsFirstNearest.le (h : IsFirstNearest cs names name) :
    ∀ other ∈ names, distance cs name.toList ≤ distance cs other.toList := by
  obtain ⟨front, back, rfl, hfront, hback⟩ := h
  intro other hother
  rcases List.mem_append.1 hother with hother | hother
  · exact (hfront other hother).le
  · rcases List.mem_cons.1 hother with rfl | hother
    · exact le_rfl
    · exact hback other hother

/-- Among some names one is the nearest. -/
theorem exists_isFirstNearest (cs : List Char) (hne : names ≠ []) :
    ∃ name, IsFirstNearest cs names name := by
  obtain ⟨first, names, rfl⟩ := List.exists_cons_of_ne_nil hne
  rcases foldl_nearerName cs names (first, distance cs first.toList) with
    ⟨-, hback⟩ | ⟨name, -, hlt, front, back, rfl, hfront, hback⟩
  · exact ⟨first, [], names, rfl, nofun, hback⟩
  · exact ⟨name, first :: front, back, rfl, List.forall_mem_cons.2 ⟨hlt, hfront⟩, hback⟩

/-! ## The names that are offered -/

/-- Whether a text is spelled as a class that ends in a number or a fraction. -/
def Catalogue.endsInNumber (cs : List Char) : Bool :=
  (numeric.any fun f => (Text.after? f.lead.toList cs).any fun ds => (asciiNumeral? ds).isSome)
  || fractional.any fun f => (Text.after? f.1.toList cs).any fun rest =>
    (ClassMapping.fraction? rest).any fun parts => Numeral.value parts.2 != 0

theorem Catalogue.isClass_of_endsInNumber (h : endsInNumber name.toList = true) :
    IsClass name := by
  rw [endsInNumber, Bool.or_eq_true, List.any_eq_true, List.any_eq_true] at h
  simp only [Option.any_eq_true] at h
  rcases h with ⟨f, hf, ds, hafter, hds⟩ | ⟨f, hf, rest, hafter, ⟨ns, ds⟩, hparts, hpos⟩
  · have hname := eq_append_ofList (Text.after?_eq_some_iff.1 hafter)
    obtain ⟨ds', hds'⟩ := Option.isSome_iff_exists.1 hds
    exact hname ▸ .numeric hf (asciiNumeral?_eq_some_iff.1 hds').2
  · have hname := eq_append_ofList (Text.after?_eq_some_iff.1 hafter)
    obtain ⟨rfl, hns, hds⟩ := fraction?_eq_some_iff.1 hparts
    exact hname ▸ .fraction hf hns hds (by simpa using hpos)

theorem Catalogue.isClass_of_mem_map {p : String × ClassMapping} (h : p ∈ fixed ++ sizes) :
    IsClass p.1 :=
  .listed (m := p.2) h

/-- **Every name that is offered has a meaning.** -/
theorem Catalogue.isClass_of_mem_knownNames (h : name ∈ knownNames) : IsClass name := by
  rw [knownNames, List.mem_append] at h
  rcases h with h | h
  · obtain ⟨p, hp, rfl⟩ := List.mem_map.1 h
    exact isClass_of_mem_map (List.mem_append_left _ hp)
  · have hexamples : ∀ name ∈ examples,
        name ∈ sizes.map (·.1) ∨ endsInNumber name.toList = true := by decide +kernel
    rcases hexamples name h with hsize | hnumber
    · obtain ⟨p, hp, rfl⟩ := List.mem_map.1 hsize
      exact isClass_of_mem_map (List.mem_append_right _ hp)
    · exact isClass_of_endsInNumber hnumber

/-- The corrections are among the names that are offered. -/
theorem Catalogue.mem_knownNames_of_mem_corrections :
    ∀ p ∈ corrections, p.2 ∈ knownNames := by
  decide +kernel

theorem Catalogue.length_le_of_mem_knownNames : ∀ name ∈ knownNames, name.toList.length ≤ 300 := by
  decide +kernel

/-- **A name that is offered is accepted.** -/
theorem Catalogue.ofClass_of_mem_knownNames (h : name ∈ knownNames) :
    ClassCheck.ofClass name = .ok ⟨name, true, ""⟩ := by
  have hclass := isClass_of_mem_knownNames h
  have hshort : HasShortAsciiNumerals name.toList :=
    fun ds hds _ => hds.length_le.trans (length_le_of_mem_knownNames name h)
  obtain ⟨m, hm⟩ := (ClassMapping.ofClass?_isSome_iff hshort).2 (hclass.trim_eq.symm ▸ hclass)
  rw [ClassCheck.ofClass, hclass.trim_eq, if_neg hclass.ne_empty, hm]
  rfl

/-! ## Suggestions -/

theorem Catalogue.lookup_corrections : ∀ p ∈ corrections, corrections.lookup p.1 = some p.2 := by
  decide +kernel

/-- Without a correction, the search for the nearest name decides. -/
theorem suggestClass_eq_foldl (h : cls ∉ corrections.map (·.1)) :
    suggestClass cls = (knownNames.foldl (nearerName cls.toList) ("", 4)).1 := by
  have hnone : corrections.lookup cls = none := by
    refine List.lookup_eq_none_iff.2 fun p hp => bne_iff_ne.2 ?_
    rintro rfl
    exact h (List.mem_map_of_mem hp)
  rw [suggestClass, hnone]
  rfl

/-- Without a correction, the first of the nearest names is suggested, if it is near
enough. -/
theorem exists_suggestClass_eq (h : cls ∉ corrections.map (·.1)) :
    ∃ name, IsFirstNearest cls.toList knownNames name
      ∧ suggestClass cls = if distance cls.toList name.toList ≤ 3 then name else "" := by
  rw [suggestClass_eq_foldl h]
  rcases foldl_nearerName cls.toList knownNames ("", 4) with
    ⟨hkept, hfar⟩ | ⟨name, hfound, hlt, hnearest⟩
  · obtain ⟨name, hnearest⟩ := exists_isFirstNearest cls.toList (by decide : knownNames ≠ [])
    have hname : 4 ≤ distance cls.toList name.toList := hfar name hnearest.mem
    exact ⟨name, hnearest, by rw [hkept, if_neg (by omega)]⟩
  · have hname : distance cls.toList name.toList ≤ 3 := Nat.le_of_lt_succ hlt
    exact ⟨name, hnearest, by rw [hfound, if_pos hname]⟩

/-- **What is suggested is offered for itself.** -/
theorem mem_knownNames_of_suggestClass (h : suggestClass cls ≠ "") :
    suggestClass cls ∈ knownNames := by
  by_cases hcorrected : cls ∈ corrections.map (·.1)
  · obtain ⟨p, hp, rfl⟩ := List.mem_map.1 hcorrected
    rw [suggestClass, lookup_corrections p hp]
    exact mem_knownNames_of_mem_corrections p hp
  · obtain ⟨name, hnearest, heq⟩ := exists_suggestClass_eq hcorrected
    rw [heq] at h ⊢
    split at h
    · next hname =>
      rw [if_pos hname]
      exact hnearest.mem
    · exact absurd rfl h

/-- **The suggestion for a class**: the correction, if the class is an alternative
spelling. Otherwise it is the first of the nearest names, provided that it is not
more than three edits away, and there is none exactly if every name is further away
than that. Whatever is suggested is accepted. -/
theorem suggestClass_nearest (cls : String) :
    (∀ correction, (cls, correction) ∈ corrections → suggestClass cls = correction)
    ∧ (cls ∉ corrections.map (·.1) →
      (∃ name, IsFirstNearest cls.toList knownNames name
        ∧ suggestClass cls = if distance cls.toList name.toList ≤ 3 then name else "")
      ∧ (suggestClass cls = "" ↔ ∀ name ∈ knownNames, 3 < distance cls.toList name.toList))
    ∧ (suggestClass cls ≠ "" →
      ClassCheck.ofClass (suggestClass cls) = .ok ⟨suggestClass cls, true, ""⟩) := by
  refine ⟨fun correction hlisted => ?_, fun hcorrected => ?_,
    fun hne => ofClass_of_mem_knownNames (mem_knownNames_of_suggestClass hne)⟩
  · rw [suggestClass, lookup_corrections _ hlisted]
  · obtain ⟨name, hnearest, heq⟩ := exists_suggestClass_eq hcorrected
    refine ⟨⟨name, hnearest, heq⟩, ?_⟩
    rw [heq]
    split
    · next hname =>
      refine iff_of_false (isClass_of_mem_knownNames hnearest.mem).ne_empty fun hfar => ?_
      exact absurd hname (Nat.not_le.2 (hfar name hnearest.mem))
    · next hname =>
      refine iff_of_true rfl fun other hother => ?_
      exact (Nat.lt_of_not_le hname).trans_le (hnearest.le other hother)

end Gsx
