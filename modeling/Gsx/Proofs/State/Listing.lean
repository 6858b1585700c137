import Gsx.Proofs.Bindings
import Gsx.Proofs.Blanking.Sources
import Gsx.Proofs.Grammar.Spelling
import Gsx.Proofs.State.Reads
/-!
# Lists of dependencies

Variables can be spelled out as the value of a `deps` attribute: an array with a comma
and a blank between two names. Reading such an array gives the variables back, each of
them once and in order, and there is nothing to report, provided that they are known
and that their names are words.
-/

namespace Gsx

/-! ## Words and blanks -/

theorem isAsciiWord_blankCodes : ∀ n ∈ blankCodes, isAsciiWord (Char.ofNat n) = false := by
  decide +kernel

/-- No word has a blank in it. -/
theorem isBlank_of_isAsciiWord {x : Char} (h : isAsciiWord x = true) : Text.isBlank x = false := by
  refine Bool.eq_false_iff.2 fun hblank => ?_
  have hnot := isAsciiWord_blankCodes _ (toNat_mem_blankCodes hblank)
  rw [Char.ofNat_toNat, h] at hnot
  cases hnot

namespace Text

/-- A text without blanks at its ends is trimmed already. -/
theorem trimList_eq_self {cs : List Char} (hfront : ∀ x, cs.head? = some x → isBlank x = false)
    (hback : ∀ x, cs.getLast? = some x → isBlank x = false) : trimList cs = cs := by
  have hdrop : ∀ ds : List Char, (∀ x, ds.head? = some x → isBlank x = false) →
      ds.dropWhile isBlank = ds := fun ds hds => by
    cases ds with
    | nil => rfl
    | cons x ds => rw [List.dropWhile_cons_of_neg (by rw [hds x rfl]; exact Bool.false_ne_true)]
  rw [trimList, hdrop cs hfront, hdrop cs.reverse fun x hx => hback x (by rwa [← List.head?_reverse]),
    List.reverse_reverse]

/-- Splitting is that of the library. -/
theorem splitOn_eq (sep : Char) (cs : List Char) : splitOn sep cs = cs.splitOn sep := by
  induction cs with
  | nil => rfl
  | cons c cs ih =>
    rw [splitOn, List.splitOn_cons_eq_if_modifyHead, ih]
    simp only [beq_iff_eq]
    split
    · rfl
    · cases hsplit : cs.splitOn sep with
      | nil => exact absurd hsplit (List.splitOn_ne_nil sep cs)
      | cons piece pieces => rfl

end Text

namespace StateText

variable {word : List Char} {words : List (List Char)}

theorem IsWord.trimList_eq (h : IsWord word) : Text.trimList word = word :=
  Text.trimList_eq_self
    (fun x hx => isBlank_of_isAsciiWord (h.all_word x (List.mem_of_head? hx)))
    fun x hx => isBlank_of_isAsciiWord (h.all_word x (List.mem_of_getLast? hx))

/-- Words with commas and blanks between them begin and end with words. -/
theorem ends_intercalate (hne : words ≠ []) (hwords : ∀ w ∈ words, IsWord w) :
    [',', ' '].intercalate words ≠ []
      ∧ (∀ x, ([',', ' '].intercalate words).head? = some x → isAsciiWord x = true)
      ∧ ∀ x, ([',', ' '].intercalate words).getLast? = some x → isAsciiWord x = true := by
  induction words with
  | nil => exact absurd rfl hne
  | cons w words ih =>
    obtain ⟨hw, hrest⟩ := List.forall_mem_cons.1 hwords
    have hhead : ∀ rest x, (w ++ rest).head? = some x → isAsciiWord x = true := fun rest x hx => by
      rw [List.head?_append_of_ne_nil _ hw.ne_nil] at hx
      exact hw.all_word x (List.mem_of_head? hx)
    cases words with
    | nil =>
      rw [List.intercalate_singleton]
      refine ⟨hw.ne_nil, ?_, fun x hx => hw.all_word x (List.mem_of_getLast? hx)⟩
      have hself := hhead []
      rwa [List.append_nil] at hself
    | cons w' words =>
      obtain ⟨hnil, -, hback⟩ := ih (List.cons_ne_nil w' words) hrest
      rw [List.intercalate_cons_cons]
      refine ⟨List.append_ne_nil_of_right_ne_nil _ hnil, ?_, fun x hx => hback x ?_⟩
      · rw [List.append_assoc]
        exact hhead _
      · rwa [List.getLast?_append_of_ne_nil _ hnil] at hx

theorem trimList_intercalate (hne : words ≠ []) (hwords : ∀ w ∈ words, IsWord w) :
    Text.trimList ([',', ' '].intercalate words) = [',', ' '].intercalate words := by
  obtain ⟨-, hfront, hback⟩ := ends_intercalate hne hwords
  exact Text.trimList_eq_self (fun x hx => isBlank_of_isAsciiWord (hfront x hx))
    fun x hx => isBlank_of_isAsciiWord (hback x hx)

/-- The blank behind a comma is the first character of what follows the comma. -/
theorem intercalate_comma_blank (w : List Char) (ws : List (List Char)) :
    [',', ' '].intercalate (w :: ws) = [','].intercalate (w :: ws.map (' ' :: ·)) := by
  induction ws generalizing w with
  | nil => rfl
  | cons w' ws ih =>
    rw [List.intercalate_cons_cons, ih, List.map_cons, List.intercalate_cons_cons,
      List.intercalate_cons_cons_left, List.append_assoc, List.append_assoc]
    rfl

/-- **Split at the commas, words with commas and blanks between them come back**, but
for the blanks. -/
theorem map_trimList_splitOn_intercalate (hne : words ≠ []) (hwords : ∀ w ∈ words, IsWord w) :
    (Text.splitOn ',' ([',', ' '].intercalate words)).map Text.trimList = words := by
  obtain ⟨w, words, rfl⟩ := List.exists_cons_of_ne_nil hne
  obtain ⟨hw, hrest⟩ := List.forall_mem_cons.1 hwords
  have hcomma : ∀ piece ∈ w :: words.map (' ' :: ·), ',' ∉ piece := by
    refine List.forall_mem_cons.2 ⟨hw.not_mem (by decide), fun piece hpiece => ?_⟩
    obtain ⟨w', hw', rfl⟩ := List.mem_map.1 hpiece
    exact List.not_mem_cons_of_ne_of_not_mem (by decide) ((hrest w' hw').not_mem (by decide))
  -- the text is joined by two characters and split at one
  rw [Text.splitOn_eq, intercalate_comma_blank,
    List.splitOn_intercalate ',' hcomma (List.cons_ne_nil _ _), List.map_cons, List.map_map,
    hw.trimList_eq]
  refine congrArg (w :: ·) ((List.map_congr_left fun w' hw' => ?_).trans (List.map_id words))
  have hblank : Text.trimList ([' '] ++ (w' ++ [])) = Text.trimList w' :=
    Text.trimList_append_append (List.all_eq_true.1 (by decide)) (List.forall_mem_nil _) w'
  rw [List.append_nil, (hrest w' hw').trimList_eq] at hblank
  exact hblank

end StateText

/-! ## Reading a list -/

namespace Deps

open StateText

variable {known vars : List String}

/-- The array that lists some variables. -/
def listing (vars : List String) : String :=
  "[" ++ ", ".intercalate vars ++ "]"

theorem toList_listing (vars : List String) :
    (listing vars).toList = '[' :: ([',', ' '].intercalate (vars.map String.toList) ++ [']']) := by
  rw [listing, String.toList_append, String.toList_append, String.toList_intercalate]
  rfl

/-- The names in a list of words. -/
theorem names_intercalate (hne : vars ≠ []) (hwords : ∀ v ∈ vars, IsWord v.toList) :
    names (String.ofList ([',', ' '].intercalate (vars.map String.toList))) = vars := by
  have hpieces : (Text.splitOn ',' ([',', ' '].intercalate (vars.map String.toList))).map Text.trimList
      = vars.map String.toList :=
    map_trimList_splitOn_intercalate (by simpa using hne) (List.forall_mem_map.2 hwords)
  have hself : String.ofList ∘ String.toList = id := funext fun v => String.ofList_toList
  rw [names, String.toList_ofList, ← Function.comp_def String.ofList, ← List.map_map, hpieces,
    List.map_map, hself, List.map_id]
  refine List.filter_eq_self.2 fun v hv => ?_
  have hv : v.toList ≠ [] := (hwords v hv).ne_nil
  simpa using hv

/-- Names that differ are all first occurrences. -/
theorem firstOccurrences_eq_self (h : vars.Nodup) : firstOccurrences vars = vars := by
  induction vars with
  | nil => rfl
  | cons v vars ih =>
    obtain ⟨hv, hvars⟩ := List.nodup_cons.1 h
    rw [firstOccurrences, ih hvars, List.filter_eq_self.2]
    intro w hw
    simpa using fun heq : w = v => hv (heq ▸ hw)

/-- **A list of known variables is read back**, with nothing to report. -/
theorem ofValue_listing {g : GoExpr} (hcode : g.code = listing vars) (hne : vars ≠ [])
    (hwords : ∀ v ∈ vars, IsWord v.toList) (hknown : vars ⊆ known) (hnodup : vars.Nodup) :
    ofValue known (.expression g) = ⟨some vars, []⟩ := by
  have hwords' : ∀ w ∈ vars.map String.toList, IsWord w := List.forall_mem_map.2 hwords
  have hne' : vars.map String.toList ≠ [] := by simpa using hne
  obtain ⟨hnil, -, -⟩ := ends_intercalate hne' hwords'
  have htrim : Text.trim (String.ofList ([',', ' '].intercalate (vars.map String.toList)))
      = String.ofList ([',', ' '].intercalate (vars.map String.toList)) := by
    rw [Text.trim, String.toList_ofList, trimList_intercalate hne' hwords']
  have hlisted : listed ([',', ' '].intercalate (vars.map String.toList)) = vars := by
    rw [← names_trim, htrim, names_intercalate hne hwords]
  have hcontains : ∀ v ∈ vars, known.contains v = true := fun v hv =>
    List.contains_iff_mem.2 (hknown hv)
  have harray : (Text.trim g.code).toList
      = '[' :: ([',', ' '].intercalate (vars.map String.toList) ++ [']']) := by
    rw [hcode, Text.trim, String.toList_ofList, toList_listing, Text.trimList_eq_self]
    · rintro x hx
      obtain rfl := Option.some.inj hx
      decide
    · rintro x hx
      rw [← List.cons_append, List.getLast?_concat] at hx
      obtain rfl := Option.some.inj hx
      decide
  rw [ofValue_array harray, htrim, if_neg, hlisted, List.filter_eq_self.2 hcontains,
    firstOccurrences_eq_self hnodup, List.filter_eq_nil_iff.2, List.map_nil]
  · exact fun v hv => by simpa using hknown hv
  · exact fun hempty => hnil (by simpa using congrArg String.toList hempty)

end Deps

end Gsx
