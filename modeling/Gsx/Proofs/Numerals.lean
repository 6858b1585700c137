import Mathlib.Algebra.Group.Nat.Defs
import Mathlib.Data.List.Infix
import Mathlib.Data.Nat.Log
import Gsx.Class.ClassList
import Gsx.Proofs.Failures
/-!
# Short numerals

Where no run of decimal digits is long, no number in a class is too large to
compute: every class of a list has a meaning or has none, and nothing fails on
the way. What a class list is cut into are stretches of its text, so their runs
of digits are runs of the text.
-/

namespace Gsx

/-- **A text with short numerals**: not more than 300 decimal digits, of
whatever script, follow each other in it. -/
def HasShortNumerals (cs : List Char) : Prop :=
  ∀ ds, ds <:+: cs → (∀ d ∈ ds, Unicode.isDecimal d) → ds.length ≤ 300

theorem HasShortNumerals.of_length_le {cs : List Char} (h : cs.length ≤ 300) :
    HasShortNumerals cs :=
  fun _ hds _ => hds.length_le.trans h

/-- The same of ASCII digits alone, which are those that classes are written with. -/
def HasShortAsciiNumerals (cs : List Char) : Prop :=
  ∀ ds, ds <:+: cs → (∀ d ∈ ds, d.isDigit) → ds.length ≤ 300

theorem HasShortNumerals.ascii {cs : List Char} (h : HasShortNumerals cs) :
    HasShortAsciiNumerals cs :=
  fun ds hds hdigits => h ds hds fun d hd => Unicode.isDecimal_of_isDigit (hdigits d hd)

theorem HasShortAsciiNumerals.of_infix {cs ds : List Char} (h : HasShortAsciiNumerals cs)
    (hds : ds <:+: cs) : HasShortAsciiNumerals ds :=
  fun es hes => h es (hes.trans hds)

/-! ## Numbers -/

namespace Numeral

/-- A short numeral is read. -/
theorem read_of_length_le {ds : List Char} (h : ds.length ≤ 300) :
    Numeral.read ds = .ok (Numeral.value ds) := by
  have hmax : ¬maxDigits < ds.length := by
    unfold maxDigits
    omega
  rw [Numeral.read, if_neg hmax]

theorem foldl_lt (ds : List Char) (n k : Nat) (h : n < 10 ^ k) :
    ds.foldl (fun n c => 10 * n + Unicode.decimalValue c) n < 10 ^ (k + ds.length) := by
  induction ds generalizing n k with
  | nil => exact h
  | cons d ds ih =>
    have hd := Unicode.decimalValue_lt d
    have hnext : 10 * n + Unicode.decimalValue d < 10 ^ (k + 1) := by
      rw [Nat.pow_succ]
      omega
    have hlength : k + (d :: ds).length = k + 1 + ds.length := by
      rw [List.length_cons]
      omega
    rw [List.foldl_cons, hlength]
    exact ih _ _ hnext

/-- A numeral denotes less than a power of ten. -/
theorem value_lt (ds : List Char) : Numeral.value ds < 10 ^ ds.length := by
  have h := foldl_lt ds 0 0 (by decide)
  rwa [Nat.zero_add] at h

/-- A short numeral denotes a number of at most a thousand bits. -/
theorem log2_value_lt {ds : List Char} (h : ds.length ≤ 3 * 100) :
    (Numeral.value ds).log2 < 10 * 100 := by
  rcases Nat.eq_zero_or_pos (Numeral.value ds) with hzero | hpos
  · rw [hzero]
    decide
  · refine (Nat.log2_lt (Nat.pos_iff_ne_zero.1 hpos)).2 ?_
    calc Numeral.value ds
        < 10 ^ ds.length := value_lt ds
      _ ≤ 10 ^ (3 * 100) := Nat.pow_le_pow_right (by decide) h
      _ = (10 ^ 3) ^ 100 := Nat.pow_mul 10 3 100
      _ < (2 ^ 10) ^ 100 := Nat.pow_lt_pow_left (by decide) (by decide)
      _ = 2 ^ (10 * 100) := (Nat.pow_mul 2 10 100).symm

end Numeral

/-- **No quotient of short numerals is too large.** The mantissa of such a
quotient has 53 bits at an exponent far below the largest. -/
theorem Binary64.nearest_ne_infinite {n d : Nat} (hn : n.log2 < 1000) :
    Binary64.nearest n d ≠ .infinite := by
  have hexponent : exponentOf n d ≤ 947 := by
    have hguess : max (-1074) ((n.log2 : Int) - (d.log2 : Int) - 53) ≤ 946 := by omega
    unfold exponentOf
    simp only
    split <;> omega
  rw [nearest]
  split
  · exact nofun
  · -- rounding up may take the mantissa to the next exponent
    simp only
    split
    · simp only
      rw [if_neg (by omega)]
      exact nofun
    · simp only
      rw [if_neg (by omega)]
      exact nofun

/-! ## Stretches of a text -/

namespace Text

theorem trimList_infix (cs : List Char) : trimList cs <:+: cs := by
  have hfront : cs.dropWhile isBlank <:+ cs := List.dropWhile_suffix _
  have hback : trimList cs <+: cs.dropWhile isBlank := by
    rw [trimList, ← List.reverse_suffix, List.reverse_reverse]
    exact List.dropWhile_suffix _
  exact hback.isInfix.trans hfront.isInfix

/-- A run of a text stands in it from its start on. -/
theorem prefix_of_mem_runsFrom {p : Char → Bool} {offset : Nat} {cs : List Char} {r : Run}
    (h : r ∈ runsFrom p offset cs) : ∃ k, r.start = offset + k ∧ r.text <+: cs.drop k := by
  induction cs generalizing offset r with
  | nil => exact absurd h List.not_mem_nil
  | cons c rest ih =>
    have hlater : ∀ {r}, r ∈ runsFrom p (offset + 1) rest →
        ∃ k, r.start = offset + k ∧ r.text <+: (c :: rest).drop k := fun hr => by
      obtain ⟨k, hstart, hprefix⟩ := ih hr
      exact ⟨k + 1, by omega, hprefix⟩
    rw [runsFrom] at h
    split at h
    · cases hruns : runsFrom p (offset + 1) rest with
      | nil =>
        rw [hruns, Run.push, List.mem_singleton] at h
        exact ⟨0, by rw [h]; rfl, by rw [h]; exact List.prefix_append [c] rest⟩
      | cons first more =>
        rw [hruns, Run.push] at h
        split at h
        · next hjoins =>
          rcases List.mem_cons.1 h with rfl | h
          · obtain ⟨k, hstart, hprefix⟩ := ih (hruns ▸ List.mem_cons_self)
            obtain rfl : k = 0 := by omega
            exact ⟨0, rfl, List.cons_prefix_cons.2 ⟨rfl, hprefix⟩⟩
          · exact hlater (hruns ▸ List.mem_cons_of_mem _ h)
        · rcases List.mem_cons.1 h with rfl | h
          · exact ⟨0, rfl, List.prefix_append [c] rest⟩
          · exact hlater (hruns ▸ h)
    · exact hlater h

theorem infix_of_mem_runsFrom {p : Char → Bool} {offset : Nat} {cs : List Char} {r : Run}
    (h : r ∈ runsFrom p offset cs) : r.text <:+: cs := by
  obtain ⟨k, -, hprefix⟩ := prefix_of_mem_runsFrom h
  exact hprefix.isInfix.trans (List.drop_suffix k cs).isInfix

theorem infix_of_mem_words {cs w : List Char} (h : w ∈ words cs) : w <:+: cs := by
  obtain ⟨r, hr, rfl⟩ := List.mem_map.1 h
  exact infix_of_mem_runsFrom hr

/-- The first piece stands at the front of a list, the others behind it. -/
theorem splitOn_spec (sep : Char) (cs : List Char) :
    ∃ first more, splitOn sep cs = first :: more ∧ first <+: cs ∧ ∀ piece ∈ more, piece <:+: cs := by
  induction cs with
  | nil => exact ⟨[], [], rfl, List.prefix_rfl, fun _ h => absurd h List.not_mem_nil⟩
  | cons c rest ih =>
    obtain ⟨first, more, hsplit, hfirst, hmore⟩ := ih
    rw [splitOn]
    split
    · refine ⟨[], first :: more, by rw [hsplit], List.nil_prefix, fun piece h => ?_⟩
      rcases List.mem_cons.1 h with rfl | h
      · exact List.infix_cons hfirst.isInfix
      · exact List.infix_cons (hmore piece h)
    · rw [hsplit]
      exact ⟨c :: first, more, rfl, List.cons_prefix_cons.2 ⟨rfl, hfirst⟩,
        fun piece h => List.infix_cons (hmore piece h)⟩

theorem infix_of_mem_splitOn {sep : Char} {cs piece : List Char} (h : piece ∈ splitOn sep cs) :
    piece <:+: cs := by
  obtain ⟨first, more, hsplit, hfirst, hmore⟩ := splitOn_spec sep cs
  rw [hsplit] at h
  rcases List.mem_cons.1 h with rfl | h
  · exact hfirst.isInfix
  · exact hmore piece h

theorem infix_of_after? {lead cs rest : List Char} (h : after? lead cs = some rest) :
    rest <:+: cs := by
  rw [after?_eq_some_iff.1 h]
  exact (List.suffix_append lead rest).isInfix

end Text

/-! ## Classes -/

/-- **A numeral** as classes end in it: ASCII digits, and at least one. -/
def IsAsciiNumeral (cs : List Char) : Prop :=
  cs ≠ [] ∧ ∀ c ∈ cs, c.isDigit

theorem asciiNumeral?_eq_some_iff {cs ds : List Char} :
    asciiNumeral? cs = some ds ↔ ds = cs ∧ IsAsciiNumeral cs := by
  rw [asciiNumeral?, IsAsciiNumeral, ← List.all_eq_true, Ne, ← List.isEmpty_iff]
  split
  · next hnil => simp [hnil]
  · next hne =>
    split
    · next hall => simp [hne, hall, eq_comm]
    · next hall => simp [hall]

theorem length_le_of_asciiNumeral? {text cs ds : List Char} (hshort : HasShortAsciiNumerals text)
    (hcs : cs <:+: text) (h : asciiNumeral? cs = some ds) : ds.length ≤ 300 := by
  obtain ⟨rfl, -, hdigits⟩ := asciiNumeral?_eq_some_iff.1 h
  exact hshort ds hcs hdigits

namespace ClassMapping

variable {cs : List Char}

theorem ofNumeric?_ok (h : HasShortAsciiNumerals cs) : ∃ m, ofNumeric? cs = .ok m := by
  unfold ofNumeric?
  simp only
  split
  · exact ⟨_, rfl⟩
  · next f digits hfound =>
    obtain ⟨family, -, hfamily⟩ := List.exists_of_findSome?_eq_some hfound
    obtain ⟨ds, hds, heq⟩ := Option.map_eq_some_iff.1 hfamily
    obtain ⟨rest, hafter, hnumeral⟩ := Option.bind_eq_some_iff.1 hds
    cases heq
    have hlength := length_le_of_asciiNumeral? h (Text.infix_of_after? hafter) hnumeral
    rw [Numeral.read_of_length_le hlength]
    exact ⟨_, rfl⟩

/-- The two parts of a fraction are stretches of its text. -/
theorem length_le_of_fraction? {text ns ds : List Char} (hshort : HasShortAsciiNumerals text)
    (hcs : cs <:+: text) (h : fraction? cs = some (ns, ds)) : ns.length ≤ 300 ∧ ds.length ≤ 300 := by
  unfold fraction? at h
  split at h
  · next n d hsplit =>
    have hn : n <:+: text := (Text.infix_of_mem_splitOn (hsplit ▸ List.mem_cons_self)).trans hcs
    have hd : d <:+: text :=
      (Text.infix_of_mem_splitOn (hsplit ▸ List.mem_cons_of_mem _ List.mem_cons_self)).trans hcs
    split at h
    · next hnum hden =>
      cases h
      exact ⟨length_le_of_asciiNumeral? hshort hn hnum, length_le_of_asciiNumeral? hshort hd hden⟩
    · cases h
  · cases h

theorem percentage?_ok {ns ds : List Char} (hn : ns.length ≤ 300) (hd : ds.length ≤ 300) :
    ∃ p, percentage? ns ds = .ok p := by
  unfold percentage?
  rw [Numeral.read_of_length_le hn, Numeral.read_of_length_le hd]
  change ∃ p, (if Numeral.value ds = 0 then _ else _ : Except NumberError (Option String)) = .ok p
  split
  · exact ⟨_, rfl⟩
  · split
    · next hinf => exact absurd hinf (Binary64.nearest_ne_infinite (Numeral.log2_value_lt hn))
    · exact ⟨_, rfl⟩

theorem ofFractional?_ok (h : HasShortAsciiNumerals cs) : ∃ m, ofFractional? cs = .ok m := by
  unfold ofFractional?
  simp only
  split
  · exact ⟨_, rfl⟩
  · next code n d hfound =>
    obtain ⟨family, -, hfamily⟩ := List.exists_of_findSome?_eq_some hfound
    obtain ⟨⟨n', d'⟩, hparts, heq⟩ := Option.map_eq_some_iff.1 hfamily
    obtain ⟨rest, hafter, hfraction⟩ := Option.bind_eq_some_iff.1 hparts
    cases heq
    obtain ⟨hn, hd⟩ := length_le_of_fraction? h (Text.infix_of_after? hafter) hfraction
    obtain ⟨p, hp⟩ := percentage?_ok hn hd
    rw [hp]
    exact ⟨_, rfl⟩

/-- **Every class has a meaning or has none** where its numerals are short. -/
theorem ofClass?_ok {cls : String} (h : HasShortAsciiNumerals cls.toList) :
    ∃ m, ofClass? cls = .ok m := by
  have htrim : HasShortAsciiNumerals (Text.trim cls).toList := by
    rw [Text.trim, String.toList_ofList]
    exact h.of_infix (Text.trimList_infix _)
  rw [ofClass?, ofTrimmed?]
  generalize (Catalogue.fixed ++ Catalogue.sizes).lookup (Text.trim cls) = found
  cases found with
  | some m => exact ⟨_, rfl⟩
  | none =>
    obtain ⟨m, hm⟩ := ofNumeric?_ok htrim
    obtain ⟨m', hm'⟩ := ofFractional?_ok htrim
    simp only [hm, hm']
    cases m <;> exact ⟨_, rfl⟩

end ClassMapping

/-! ## Class lists -/

/-- **A class list is translated** where its numerals are short. -/
theorem ClassList.ofText_ok {classes : String} (h : HasShortAsciiNumerals classes.toList) :
    ∃ l, ClassList.ofText classes = .ok l := by
  refine foldlM_ok (fun word hword l => ?_) _
  have hshort : HasShortAsciiNumerals (String.ofList word).toList := by
    rw [String.toList_ofList]
    exact h.of_infix (Text.infix_of_mem_words hword)
  obtain ⟨m, hm⟩ := ClassMapping.ofClass?_ok hshort
  simp only [hm]
  cases m <;> exact ⟨_, rfl⟩

theorem ClassCheck.ofClass_ok {cls : String} (h : HasShortAsciiNumerals cls.toList) :
    ∃ check, ClassCheck.ofClass cls = .ok check := by
  have htrim : HasShortAsciiNumerals (Text.trim cls).toList := by
    rw [Text.trim, String.toList_ofList]
    exact h.of_infix (Text.trimList_infix _)
  obtain ⟨m, hm⟩ := ClassMapping.ofClass?_ok htrim
  rw [ClassCheck.ofClass]
  simp only [hm]
  split
  · exact ⟨_, rfl⟩
  · cases m <;> exact ⟨_, rfl⟩

/-- **And its classes are checked.** -/
theorem PlacedClass.ofText_ok {classes : String} (h : HasShortAsciiNumerals classes.toList)
    (column : Int) : ∃ placed, PlacedClass.ofText classes column = .ok placed := by
  refine mapM_ok fun run hrun => ?_
  have hshort : HasShortAsciiNumerals (String.ofList run.text).toList := by
    rw [String.toList_ofList]
    exact h.of_infix (Text.infix_of_mem_runsFrom hrun)
  obtain ⟨check, hcheck⟩ := ClassCheck.ofClass_ok hshort
  simp only [hcheck]
  exact ⟨_, rfl⟩

end Gsx
