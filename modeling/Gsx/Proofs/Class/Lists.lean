import Gsx.Proofs.Class.Names
import Gsx.Proofs.Complaints
/-!
# Class lists

A class list is read twice. The check takes what stands between spaces and tabs and
trims it; the translation takes the words, between blanks of any kind. A class with a
blank of another kind in it would be one entry here and two words there. But no class
that has a meaning has a blank in it, so if every entry is known, then the words are
the entries, and the translation drops none of them (`check_covers_translation`).
-/

namespace Gsx

open Validation (isClassChar)

/-! ## Words -/

namespace Text

variable {c : Char} {cs rest front back : List Char}

/-- The texts of the runs do not depend on where the text starts. -/
theorem map_text_runsFrom (p : Char → Bool) (k : Nat) (cs : List Char) :
    (runsFrom p k cs).map (·.text) = (runsFrom p 0 cs).map (·.text) := by
  rw [← Nat.add_zero k, runsFrom_add, List.map_map]
  rfl

theorem words_cons_of_blank (h : isBlank c = true) (rest : List Char) :
    words (c :: rest) = words rest := by
  rw [words, runsFrom_cons_of_neg (by rw [h]; rfl), map_text_runsFrom, words]

theorem words_cons_of_not_blank (h : isBlank c = false) (rest : List Char) :
    words (c :: rest) = (c :: rest.takeWhile fun d => !isBlank d)
      :: words (rest.dropWhile fun d => !isBlank d) := by
  rw [words, runsFrom_cons_of_pos (by rw [h]; rfl), List.map_cons, map_text_runsFrom, words]

theorem words_append_of_blank (h : ∀ c ∈ front, isBlank c = true) (back : List Char) :
    words (front ++ back) = words back := by
  induction front with
  | nil => rfl
  | cons c front ih =>
    obtain ⟨hc, hfront⟩ := List.forall_mem_cons.1 h
    rw [List.cons_append, words_cons_of_blank hc, ih hfront]

/-- **A blank parts the words** in front of it from those behind it. -/
theorem words_append (front : List Char) (h : ∀ c, back.head? = some c → isBlank c = true) :
    words (front ++ back) = words front ++ words back := by
  have hstop : back.takeWhile (fun d => !isBlank d) = []
      ∧ back.dropWhile (fun d => !isBlank d) = back := by
    cases back with
    | nil => exact ⟨rfl, rfl⟩
    | cons d back =>
      have hd : ¬(!isBlank d) = true := by rw [h d rfl]; exact Bool.false_ne_true
      exact ⟨List.takeWhile_cons_of_neg hd, List.dropWhile_cons_of_neg hd⟩
  induction hlength : front.length using Nat.strong_induction_on generalizing front with
  | _ n ih =>
    cases front with
    | nil => rfl
    | cons c rest =>
      rw [List.length_cons] at hlength
      rw [List.cons_append]
      cases hc : isBlank c with
      | true => rw [words_cons_of_blank hc, words_cons_of_blank hc, ih _ (by omega) rest rfl]
      | false =>
        have hshorter : (rest.dropWhile fun d => !isBlank d).length < n := by
          have := (List.dropWhile_suffix (l := rest) fun d => !isBlank d).length_le
          omega
        have hword : (rest ++ back).takeWhile (fun d => !isBlank d)
            = rest.takeWhile fun d => !isBlank d := by
          rw [List.takeWhile_append, hstop.1, List.append_nil]
          split
          · next hall =>
            exact ((List.takeWhile_prefix _).eq_of_length hall).symm
          · rfl
        have hbehind : (rest ++ back).dropWhile (fun d => !isBlank d)
            = (rest.dropWhile fun d => !isBlank d) ++ back := by
          rw [List.dropWhile_append, hstop.2]
          split
          · next hnil => rw [List.isEmpty_iff.1 hnil, List.nil_append]
          · rfl
        rw [words_cons_of_not_blank hc, words_cons_of_not_blank hc, hword, hbehind,
          ih _ hshorter _ rfl, List.cons_append]

theorem words_of_blank (h : ∀ c ∈ cs, isBlank c = true) : words cs = [] := by
  rw [← List.append_nil cs, words_append_of_blank h]
  rfl

theorem words_of_not_blank (hne : cs ≠ []) (h : ∀ c ∈ cs, isBlank c = false) :
    words cs = [cs] := by
  obtain ⟨c, rest, rfl⟩ := List.exists_cons_of_ne_nil hne
  obtain ⟨hc, hrest⟩ := List.forall_mem_cons.1 h
  have hall : ∀ d ∈ rest, (!isBlank d) = true := fun d hd => by rw [hrest d hd]; rfl
  rw [words_cons_of_not_blank hc, List.takeWhile_eq_self_iff.2 hall,
    List.dropWhile_eq_nil_iff.2 hall]
  rfl

/-- **A text with blanks at its ends alone** is one word. -/
theorem words_of_trimList (hne : trimList cs ≠ []) (h : ∀ c ∈ trimList cs, isBlank c = false) :
    words cs = [trimList cs] := by
  obtain ⟨behind, hcs, hbehind⟩ := exists_trimList cs
  calc words cs
      = words (cs.takeWhile isBlank ++ (trimList cs ++ behind)) := congrArg words hcs
    _ = words (trimList cs ++ behind) := words_append_of_blank (fun _ => List.mem_takeWhile_imp) _
    _ = words (trimList cs) ++ words behind :=
        words_append _ fun c hc => hbehind c (List.mem_of_head? hc)
    _ = [trimList cs] := by rw [words_of_not_blank hne h, words_of_blank hbehind]; rfl

/-- **The words of a text are those of its runs**, if what is between the runs is
blank. -/
theorem words_eq_flatMap {p : Char → Bool} (hp : ∀ c, p c = false → isBlank c = true)
    (cs : List Char) : words cs = ((runsFrom p 0 cs).map (·.text)).flatMap words := by
  induction hlength : cs.length using Nat.strong_induction_on generalizing cs with
  | _ n ih =>
    cases cs with
    | nil => rfl
    | cons c rest =>
      rw [List.length_cons] at hlength
      cases hc : p c with
      | false =>
        rw [words_cons_of_blank (hp c hc), runsFrom_cons_of_neg hc, map_text_runsFrom,
          ih _ (by omega) rest rfl]
      | true =>
        have hshorter : (rest.dropWhile p).length < n := by
          have := (List.dropWhile_suffix (l := rest) p).length_le
          omega
        have hsplit : c :: rest = (c :: rest.takeWhile p) ++ rest.dropWhile p := by
          rw [List.cons_append, List.takeWhile_append_dropWhile]
        rw [runsFrom_cons_of_pos hc, List.map_cons, List.flatMap_cons, map_text_runsFrom,
          ← ih _ hshorter _ rfl, hsplit]
        exact words_append _ fun d hd => hp d (eq_false_of_head?_dropWhile hd)

end Text

/-! ## Translation -/

namespace ClassEffect

/-- The option that an effect is, if it is one. -/
def option? : ClassEffect → Option String
  | .option code => some code
  | .textStyle _ => none

/-- The text style that an effect is, if it is one. -/
def textStyle? : ClassEffect → Option String
  | .option _ => none
  | .textStyle call => some call

@[simp] theorem option?_option (code : String) : (option code).option? = some code := rfl

@[simp] theorem option?_textStyle (call : String) : (textStyle call).option? = none := rfl

@[simp] theorem textStyle?_option (code : String) : (option code).textStyle? = none := rfl

@[simp] theorem textStyle?_textStyle (call : String) :
    (textStyle call).textStyle? = some call := rfl

end ClassEffect

namespace ClassList

/-- **The list of some meanings**: their options and their text styles, in order. -/
def ofMappings (ms : List ClassMapping) : ClassList where
  options := ms.filterMap (·.effect.option?)
  textStyles := ms.filterMap (·.effect.textStyle?)
  needsTui := ms.any (·.needsTui)

theorem ofMappings_append_singleton (ms : List ClassMapping) (m : ClassMapping) :
    ofMappings (ms ++ [m]) = (ofMappings ms).add m := by
  obtain ⟨effect, needsTui⟩ := m
  cases effect <;> simp [ofMappings, add]

/-- Each meaning is an option or a text style. -/
theorem length_ofMappings (ms : List ClassMapping) :
    (ofMappings ms).options.length + (ofMappings ms).textStyles.length = ms.length := by
  induction ms with
  | nil => rfl
  | cons m ms ih =>
    obtain ⟨effect, needsTui⟩ := m
    simp only [ofMappings] at ih
    cases effect <;>
      simp only [ofMappings, List.filterMap_cons, ClassEffect.option?_option,
        ClassEffect.option?_textStyle, ClassEffect.textStyle?_option,
        ClassEffect.textStyle?_textStyle, List.length_cons] <;> omega

/-- Words that are all known, each with its meaning. -/
def AreMeanings (words : List (List Char)) (ms : List ClassMapping) : Prop :=
  List.Forall₂ (fun word m => ClassMapping.ofClass? (String.ofList word) = .ok (some m)) words ms

/-- Adding known words to a class list. -/
theorem foldlM_of_areMeanings {step : ClassList → List Char → Except NumberError ClassList}
    (hstep : ∀ l word m, ClassMapping.ofClass? (String.ofList word) = .ok (some m) →
      step l word = .ok (l.add m))
    {words : List (List Char)} {ms : List ClassMapping} (h : AreMeanings words ms)
    (before : List ClassMapping) :
    words.foldlM step (ofMappings before) = .ok (ofMappings (before ++ ms)) := by
  induction h generalizing before with
  | nil => rw [List.append_nil]; rfl
  | @cons word m words ms hm _ ih =>
    have hrest := ih (before ++ [m])
    rw [ofMappings_append_singleton, List.append_assoc, List.singleton_append] at hrest
    rw [List.foldlM_cons, hstep _ word m hm]
    exact hrest

/-- **A class list of known words** is that of their meanings. -/
theorem ofText_eq {classes : String} {ms : List ClassMapping}
    (h : AreMeanings (Text.words classes.toList) ms) : ofText classes = .ok (ofMappings ms) := by
  refine foldlM_of_areMeanings (fun l word m hm => ?_) h []
  rw [hm]
  rfl

end ClassList

/-! ## The check -/

/-- For each entry of a list one can be chosen that is related to it. -/
theorem exists_forall₂ {α β : Type} {R : α → β → Prop} {xs : List α} (h : ∀ x ∈ xs, ∃ y, R x y) :
    ∃ ys, List.Forall₂ R xs ys := by
  induction xs with
  | nil => exact ⟨[], .nil⟩
  | cons x xs ih =>
    obtain ⟨⟨y, hy⟩, hrest⟩ := List.forall_mem_cons.1 h
    obtain ⟨ys, hys⟩ := ih hrest
    exact ⟨y :: ys, .cons hy hys⟩

/-- **A listing of the classes in a text**, whose first character stands at a column:
the maximal stretches of characters other than space and tab, each between its
columns, from left to right; what is in none of them is a space or a tab. -/
structure PlacedClass.IsListing (cs : List Char) (column : Int) (placed : List PlacedClass) :
    Prop where
  stretch : ∀ e ∈ placed,
    Text.IsStretch isClassChar cs ⟨(e.start - column).toNat, e.check.cls.toList⟩
  columns : ∀ e ∈ placed, column ≤ e.start ∧ e.stop = e.start + e.check.cls.toList.length
    ∧ (cs.take (e.stop - column).toNat).drop (e.start - column).toNat = e.check.cls.toList
  ascending : placed.Pairwise fun e e' => e.stop < e'.start
  between : ∀ (i : Nat) (c : Char), cs[i]? = some c →
    (∀ e ∈ placed, ¬(e.start ≤ column + i ∧ column + i < e.stop)) → c = ' ' ∨ c = '\t'

namespace PlacedClass

variable {classes : String} {column : Int} {placed : List PlacedClass}

/-- Where an entry is and what it shows are those of its run. -/
theorem map_of_ofText (h : ofText classes column = .ok placed) :
    placed.map (fun e => (e.start, e.stop, e.check.cls))
      = (Text.runsFrom isClassChar 0 classes.toList).map fun r =>
        (column + r.start, column + r.start + r.text.length, String.ofList r.text) := by
  refine map_of_mapM h fun r e he => ?_
  obtain ⟨check, -, he⟩ := bind_eq_ok_iff.1 he
  cases he
  rfl

/-- The run of an entry. -/
theorem exists_run_of_mem (h : ofText classes column = .ok placed) {e : PlacedClass}
    (he : e ∈ placed) : ∃ r ∈ Text.runsFrom isClassChar 0 classes.toList,
      e.start = column + r.start ∧ e.stop = column + r.start + r.text.length
      ∧ e.check.cls = String.ofList r.text := by
  have hmem := List.mem_map_of_mem (f := fun e : PlacedClass => (e.start, e.stop, e.check.cls)) he
  rw [map_of_ofText h] at hmem
  obtain ⟨r, hr, heq⟩ := List.mem_map.1 hmem
  simp only [Prod.mk.injEq] at heq
  exact ⟨r, hr, heq.1.symm, heq.2.1.symm, heq.2.2.symm⟩

/-- The entry of a run. -/
theorem exists_entry_of_mem (h : ofText classes column = .ok placed) {r : Text.Run}
    (hr : r ∈ Text.runsFrom isClassChar 0 classes.toList) :
    ∃ e ∈ placed, e.start = column + r.start ∧ e.stop = column + r.start + r.text.length := by
  have hmem := List.mem_map_of_mem (f := fun r : Text.Run =>
    (column + r.start, column + r.start + r.text.length, String.ofList r.text)) hr
  rw [← map_of_ofText h] at hmem
  obtain ⟨e, he, heq⟩ := List.mem_map.1 hmem
  simp only [Prod.mk.injEq] at heq
  exact ⟨e, he, heq.1, heq.2.1⟩

/-- **The check lists the classes of the text.** -/
theorem isListing_of_ofText (h : ofText classes column = .ok placed) :
    IsListing classes.toList column placed where
  stretch e he := by
    obtain ⟨r, hr, hstart, -, hcls⟩ := exists_run_of_mem h he
    have hplace : (e.start - column).toNat = r.start := by omega
    rw [hplace, hcls, String.toList_ofList]
    exact Text.mem_runsFrom_iff.1 hr
  columns e he := by
    obtain ⟨r, hr, hstart, hstop, hcls⟩ := exists_run_of_mem h he
    obtain ⟨before, after, hsplit, hbefore, -⟩ := (Text.mem_runsFrom_iff.1 hr).stands
    have hplace : (e.start - column).toNat = before.length := by omega
    have hend : (e.stop - column).toNat = (before ++ r.text).length := by
      rw [List.length_append]
      omega
    rw [hcls, String.toList_ofList]
    refine ⟨by omega, by omega, ?_⟩
    rw [hplace, hend, hsplit, ← List.append_assoc, List.take_left, List.drop_left]
  ascending := by
    have hruns := Text.pairwise_runsFrom isClassChar 0 classes.toList
    have hentries : (placed.map fun e => (e.start, e.stop, e.check.cls)).Pairwise
        fun x y => x.2.1 < y.1 := by
      rw [map_of_ofText h, List.pairwise_map]
      refine hruns.imp fun {r r'} hlt => ?_
      show column + r.start + r.text.length < column + r'.start
      omega
    exact List.pairwise_map.1 hentries
  between i c hc hnone := by
    by_contra hblank
    have hclass : isClassChar c = true := by
      rw [isClassChar, Bool.and_eq_true, bne_iff_ne, bne_iff_ne]
      exact not_or.1 hblank
    obtain ⟨r, hr, hin⟩ : ∃ r ∈ Text.runsFrom isClassChar 0 classes.toList,
        r.start ≤ 0 + i ∧ 0 + i < r.start + r.text.length := Text.exists_mem_runsFrom hc hclass
    obtain ⟨e, he, hstart, hstop⟩ := exists_entry_of_mem h hr
    exact hnone e he (by omega)

/-- The verdict of an entry is that of the class it shows. -/
theorem verdict_of_mem (h : ofText classes column = .ok placed) {e : PlacedClass}
    (he : e ∈ placed) :
    (e.check.valid = true ↔ ∃ m, ClassMapping.ofClass? e.check.cls = .ok (some m))
      ∧ (e.check.suggestion ≠ "" → e.check.valid = false) := by
  obtain ⟨r, hr⟩ := exists_of_mapM h e he
  obtain ⟨check, hcheck, hr⟩ := bind_eq_ok_iff.1 hr
  cases hr
  rcases Validation.ofClass_eq hcheck with ⟨hvalid, hnone, m, hm⟩ | ⟨hvalid, hm, -⟩
  · exact ⟨iff_of_true hvalid ⟨m, hm⟩, fun hne => absurd hnone hne⟩
  · refine ⟨iff_of_false (by rw [hvalid]; exact Bool.false_ne_true) ?_, fun _ => hvalid⟩
    rintro ⟨m, hm'⟩
    rw [hm] at hm'
    cases hm'

/-- **The entries of a list of known classes**, trimmed, are the words of the list. -/
theorem words_eq_of_valid (h : ofText classes column = .ok placed)
    (hvalid : ∀ e ∈ placed, e.check.valid = true) :
    Text.words classes.toList = placed.map fun e => (Text.trim e.check.cls).toList := by
  have hblank : ∀ c, isClassChar c = false → Text.isBlank c = true := by
    intro c hc
    rw [isClassChar, Bool.and_eq_false_iff, bne_eq_false_iff_eq, bne_eq_false_iff_eq] at hc
    rcases hc with rfl | rfl <;> rfl
  have htexts : (Text.runsFrom isClassChar 0 classes.toList).map (·.text)
      = placed.map fun e => e.check.cls.toList := by
    have := congrArg (List.map fun x : Int × Int × String => x.2.2.toList) (map_of_ofText h)
    simp only [List.map_map, Function.comp_def, String.toList_ofList] at this
    exact this.symm
  rw [Text.words_eq_flatMap hblank, htexts, List.flatMap_map, List.map_eq_flatMap]
  refine List.flatMap_congr fun e he => ?_
  obtain ⟨m, hm⟩ := (verdict_of_mem h he).1.1 (hvalid e he)
  have hclass := ClassMapping.isClass_of_ofTrimmed? hm
  have htrim : (Text.trim e.check.cls).toList = Text.trimList e.check.cls.toList := by
    rw [Text.trim, String.toList_ofList]
  have hne : Text.trimList e.check.cls.toList ≠ [] := by
    rw [← htrim, Ne, String.toList_eq_nil_iff]
    exact hclass.ne_empty
  rw [htrim, Text.words_of_trimList hne (htrim ▸ hclass.isBlank)]

/-- **The check of a class list covers its translation.** Both are made, if the numerals
in the list are short. The check lists the classes, an entry is valid exactly if the
class has a meaning, and only invalid entries have a suggestion. If all are valid, then
the words of the list are the trimmed entries, and the translation is the list of their
meanings: an option or a text style for each, in order, and the package is needed
exactly if one of them needs it. -/
theorem check_covers_translation {classes : String}
    (hshort : HasShortAsciiNumerals classes.toList) (column : Int) :
    ∃ placed l, ofText classes column = .ok placed ∧ ClassList.ofText classes = .ok l
      ∧ IsListing classes.toList column placed
      ∧ (∀ e ∈ placed,
        (e.check.valid = true ↔ ∃ m, ClassMapping.ofClass? e.check.cls = .ok (some m))
          ∧ (e.check.suggestion ≠ "" → e.check.valid = false))
      ∧ ((∀ e ∈ placed, e.check.valid = true) →
        Text.words classes.toList = placed.map (fun e => (Text.trim e.check.cls).toList)
          ∧ ∃ ms, List.Forall₂
              (fun e m => ClassMapping.ofClass? e.check.cls = .ok (some m)) placed ms
            ∧ l.options = ms.filterMap (·.effect.option?)
            ∧ l.textStyles = ms.filterMap (·.effect.textStyle?)
            ∧ l.options.length + l.textStyles.length = placed.length
            ∧ l.needsTui = ms.any (·.needsTui)) := by
  obtain ⟨placed, hplaced⟩ := ofText_ok hshort column
  obtain ⟨l, hl⟩ := ClassList.ofText_ok hshort
  refine ⟨placed, l, hplaced, hl, isListing_of_ofText hplaced,
    fun e he => verdict_of_mem hplaced he, fun hvalid => ?_⟩
  have hwords := words_eq_of_valid hplaced hvalid
  obtain ⟨ms, hms⟩ := exists_forall₂ fun e he => (verdict_of_mem hplaced he).1.1 (hvalid e he)
  have htranslated : ClassList.ofText classes = .ok (.ofMappings ms) := by
    refine ClassList.ofText_eq ?_
    rw [hwords, ClassList.AreMeanings, List.forall₂_map_left_iff]
    refine hms.imp fun e m hm => ?_
    rwa [String.ofList_toList, Validation.ofClass?_trim]
  obtain rfl : l = .ofMappings ms := Except.ok.inj (hl.symm.trans htranslated)
  exact ⟨hwords, ms, hms, rfl, rfl, (ClassList.length_ofMappings ms).trans hms.length_eq.symm, rfl⟩

/-- A class list with a blank that only the translation takes for one. -/
def verticalTab : String :=
  "flex-col \x0bgap-2\ttext-cyan"

/-- Its second entry is shown with the blank and trimmed before it is checked, so all
three are valid and the translation has all of them. -/
theorem check_covers_translation_verticalTab :
    HasShortAsciiNumerals verticalTab.toList
    ∧ ∃ placed l, ofText verticalTab 5 = .ok placed ∧ ClassList.ofText verticalTab = .ok l
      ∧ IsListing verticalTab.toList 5 placed
      ∧ placed.map (fun e => (e.check.cls, e.start, e.stop))
        = [("flex-col", 5, 13), ("\x0bgap-2", 14, 20), ("text-cyan", 21, 30)]
      ∧ (∀ e ∈ placed, e.check.valid = true)
      ∧ Text.words verticalTab.toList = placed.map (fun e => (Text.trim e.check.cls).toList)
      ∧ ∃ ms, List.Forall₂
          (fun e m => ClassMapping.ofClass? e.check.cls = .ok (some m)) placed ms
        ∧ l.options = ms.filterMap (·.effect.option?)
        ∧ l.textStyles = ms.filterMap (·.effect.textStyle?)
        ∧ l.options.length + l.textStyles.length = placed.length
        ∧ l.needsTui = ms.any (·.needsTui) := by
  have hshort : HasShortAsciiNumerals verticalTab.toList := fun ds hds _ =>
    hds.length_le.trans (by decide)
  obtain ⟨placed, l, hplaced, hl, hlisting, -, hcovers⟩ := check_covers_translation hshort 5
  have hchecked : ofText verticalTab 5 = .ok [⟨⟨"flex-col", true, ""⟩, 5, 13⟩,
      ⟨⟨"\x0bgap-2", true, ""⟩, 14, 20⟩, ⟨⟨"text-cyan", true, ""⟩, 21, 30⟩] := by rfl
  obtain rfl := Except.ok.inj (hplaced.symm.trans hchecked)
  have hvalid : ∀ e ∈ [(⟨⟨"flex-col", true, ""⟩, 5, 13⟩ : PlacedClass),
      ⟨⟨"\x0bgap-2", true, ""⟩, 14, 20⟩, ⟨⟨"text-cyan", true, ""⟩, 21, 30⟩],
      e.check.valid = true := by decide
  exact ⟨hshort, _, l, hplaced, hl, hlisting, rfl, hvalid, hcovers hvalid⟩

end PlacedClass

end Gsx
