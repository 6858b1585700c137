import Mathlib.Order.Bounds.Basic
import Mathlib.Order.MinMax
import Gsx.Class.EditDistance
/-!
# Edit scripts

An edit puts a character into a text, takes one out, or puts another one in the
place of one. The edit distance is the length of the shortest script of edits that
turns one text into another (`distance_isLeast_edits`).

The rows are first told by recursion on both texts (`fewest`), which takes the
characters off at the front; a row goes on at the back, so it holds the values for
the reversed beginnings. That no script is shorter is the other half: one edit
changes the value by one at most, whatever the other text is.
-/

namespace Gsx.EditDistance

variable {a b c : List Char} {x y : Char} {m n : Nat}

/-! ## Scripts -/

/-- **One edit** of a text. -/
inductive Edit : List Char → List Char → Prop
  /-- A character is put in. -/
  | insert (before after : List Char) (x : Char) :
      Edit (before ++ after) (before ++ x :: after)
  /-- A character is taken out. -/
  | delete (before after : List Char) (x : Char) :
      Edit (before ++ x :: after) (before ++ after)
  /-- A character takes the place of another one. -/
  | substitute (before after : List Char) (x y : Char) :
      Edit (before ++ x :: after) (before ++ y :: after)

/-- **A script** of a number of edits that turns one text into another. -/
inductive Edits : Nat → List Char → List Char → Prop
  | refl (a : List Char) : Edits 0 a a
  | head {a b c : List Char} {n : Nat} : Edit a b → Edits n b c → Edits (n + 1) a c

theorem Edit.symm (h : Edit a b) : Edit b a := by
  cases h with
  | insert before after x => exact .delete before after x
  | delete before after x => exact .insert before after x
  | substitute before after x y => exact .substitute before after y x

theorem Edit.cons (h : Edit a b) (x : Char) : Edit (x :: a) (x :: b) := by
  cases h with
  | insert before after y => exact .insert (x :: before) after y
  | delete before after y => exact .delete (x :: before) after y
  | substitute before after y z => exact .substitute (x :: before) after y z

theorem Edit.reverse (h : Edit a b) : Edit a.reverse b.reverse := by
  cases h with
  | insert before after x =>
    simpa using Edit.insert after.reverse before.reverse x
  | delete before after x =>
    simpa using Edit.delete after.reverse before.reverse x
  | substitute before after x y =>
    simpa using Edit.substitute after.reverse before.reverse x y

/-- An edit makes a text longer by one character, or shorter by one, or neither. -/
theorem Edit.length_le (h : Edit a b) : a.length ≤ b.length + 1 := by
  cases h <;> simp only [List.length_append, List.length_cons] <;> omega

namespace Edits

theorem trans (h : Edits m a b) (h' : Edits n b c) : Edits (m + n) a c := by
  induction h with
  | refl => rwa [Nat.zero_add]
  | head hedit _ ih =>
    rw [Nat.add_right_comm]
    exact .head hedit (ih h')

theorem single (h : Edit a b) : Edits 1 a b :=
  .head h (.refl b)

theorem symm (h : Edits n a b) : Edits n b a := by
  induction h with
  | refl => exact .refl _
  | head hedit _ ih => exact ih.trans (single hedit.symm)

theorem cons (h : Edits n a b) (x : Char) : Edits n (x :: a) (x :: b) := by
  induction h with
  | refl => exact .refl _
  | head hedit _ ih => exact .head (hedit.cons x) ih

theorem reverse (h : Edits n a b) : Edits n a.reverse b.reverse := by
  induction h with
  | refl => exact .refl _
  | head hedit _ ih => exact .head hedit.reverse ih

theorem length_le (h : Edits n a b) : a.length ≤ b.length + n := by
  induction h with
  | refl => omega
  | head hedit _ ih =>
    have := hedit.length_le
    omega

/-- Any text is written with one edit for each character. -/
theorem write (b : List Char) : Edits b.length [] b := by
  induction b with
  | nil => exact .refl []
  | cons y b ih => exact .head (.insert [] [] y) (ih.cons y)

end Edits

/-! ## The recursion on both texts -/

/-- The edit distance, by recursion on both texts from their fronts. -/
def fewest : List Char → List Char → Nat
  | [], b => b.length
  | x :: a, [] => (x :: a).length
  | x :: a, y :: b =>
    min (min (fewest a (y :: b) + 1) (fewest (x :: a) b + 1))
      (fewest a b + if x = y then 0 else 1)
termination_by a b => a.length + b.length

theorem fewest_nil_left (b : List Char) : fewest [] b = b.length := by
  rw [fewest]

theorem fewest_nil_right (a : List Char) : fewest a [] = a.length := by
  cases a <;> rw [fewest]

/-- **There is a script** of that many edits. -/
theorem edits_fewest (a b : List Char) : Edits (fewest a b) a b := by
  fun_induction fewest a b with
  | case1 b => exact .write b
  | case2 x a => exact (Edits.write (x :: a)).symm
  | case3 x a y b hdelete hinsert hboth =>
    rcases min_choice (min (fewest a (y :: b) + 1) (fewest (x :: a) b + 1))
      (fewest a b + if x = y then 0 else 1) with hmin | hmin
    · rw [hmin]
      rcases min_choice (fewest a (y :: b) + 1) (fewest (x :: a) b + 1) with hmin | hmin
      · rw [hmin]
        exact .head (.delete [] a x) hdelete
      · rw [hmin]
        exact .head (.insert [] (x :: a) y) (hinsert.cons y)
    · rw [hmin]
      by_cases hxy : x = y
      · subst hxy
        rw [if_pos rfl]
        exact hboth.cons x
      · rw [if_neg hxy]
        exact .head (.substitute [] a x y) (hboth.cons y)

/-! ## No script is shorter -/

theorem fewest_cons_left_le (x : Char) (a b : List Char) :
    fewest (x :: a) b ≤ fewest a b + 1 := by
  cases b with
  | nil => rw [fewest_nil_right, fewest_nil_right, List.length_cons]
  | cons y b =>
    rw [fewest]
    exact (min_le_left _ _).trans (min_le_left _ _)

theorem fewest_cons_right_le (a : List Char) (y : Char) (b : List Char) :
    fewest a (y :: b) ≤ fewest a b + 1 := by
  cases a with
  | nil => rw [fewest_nil_left, fewest_nil_left, List.length_cons]
  | cons x a =>
    rw [fewest]
    exact (min_le_left _ _).trans (min_le_right _ _)

/-- What is at most each of the three ways to go on is at most the distance. -/
theorem le_fewest_cons (hdelete : n ≤ fewest a (y :: b) + 1) (hinsert : n ≤ fewest (x :: a) b + 1)
    (hboth : n ≤ fewest a b) : n ≤ fewest (x :: a) (y :: b) := by
  rw [fewest]
  exact le_min (le_min hdelete hinsert) (hboth.trans (Nat.le_add_right _ _))

theorem fewest_le_cons_left (x : Char) (a b : List Char) :
    fewest a b ≤ fewest (x :: a) b + 1 := by
  induction b with
  | nil =>
    rw [fewest_nil_right, fewest_nil_right, List.length_cons]
    omega
  | cons y b ih =>
    have hnext := fewest_cons_right_le a y b
    rw [← Nat.sub_le_iff_le_add]
    exact le_fewest_cons (by omega) (by omega) (by omega)

theorem fewest_substitute_le (x z : Char) (a b : List Char) :
    fewest (z :: a) b ≤ fewest (x :: a) b + 1 := by
  induction b with
  | nil => simp only [fewest_nil_right, List.length_cons, Nat.le_add_right]
  | cons y b ih =>
    have hdelete := fewest_cons_left_le z a (y :: b)
    have hboth : fewest (z :: a) (y :: b) ≤ fewest a b + 1 := by
      rw [fewest]
      split <;> omega
    have hinsert := fewest_cons_right_le (z :: a) y b
    rw [← Nat.sub_le_iff_le_add]
    exact le_fewest_cons (by omega) (by omega) (by omega)

/-- Texts that are one apart stay so behind the same character. -/
theorem fewest_cons_le_cons (h : ∀ b, fewest a b ≤ fewest c b + 1) (x : Char) (b : List Char) :
    fewest (x :: a) b ≤ fewest (x :: c) b + 1 := by
  induction b with
  | nil =>
    have := h []
    simp only [fewest_nil_right, List.length_cons] at this ⊢
    omega
  | cons y b ih =>
    have hdelete := h (y :: b)
    have hboth := h b
    rw [fewest, fewest]
    split <;> omega

/-- **One edit changes the distance by one at most.** -/
theorem Edit.fewest_le (h : Edit a c) (b : List Char) : fewest a b ≤ fewest c b + 1 := by
  have hbehind : ∀ {as cs : List Char}, (∀ b, fewest as b ≤ fewest cs b + 1) →
      ∀ before b, fewest (before ++ as) b ≤ fewest (before ++ cs) b + 1 := by
    intro as cs hfront before
    induction before with
    | nil => exact hfront
    | cons x before ih => exact fewest_cons_le_cons ih x
  cases h with
  | insert before after x => exact hbehind (fewest_le_cons_left x after) before b
  | delete before after x => exact hbehind (fewest_cons_left_le x after) before b
  | substitute before after x y => exact hbehind (fewest_substitute_le y x after) before b

theorem fewest_self (b : List Char) : fewest b b = 0 := by
  induction b with
  | nil => rw [fewest, List.length_nil]
  | cons y b ih => rw [fewest, if_pos rfl, ih, Nat.add_zero, Nat.min_zero]

theorem Edits.fewest_le (h : Edits n a b) : fewest a b ≤ n := by
  induction h with
  | refl a => rw [fewest_self]
  | head hedit _ ih => exact (hedit.fewest_le _).trans (Nat.add_le_add_right ih 1)

/-- The distance is at most the length of the longer text. -/
theorem fewest_le_max (a b : List Char) : fewest a b ≤ max a.length b.length := by
  fun_induction fewest a b with
  | case1 b => exact le_max_right _ _
  | case2 x a => exact le_max_left _ _
  | case3 x a y b hdelete hinsert hboth =>
    simp only [List.length_cons] at hdelete hinsert ⊢
    split <;> omega

/-! ## Rows -/

/-- **The row of a text** from some place in the other one on, both told backwards:
an entry for the place, and one behind each of the characters still to come. -/
def entries (a b : List Char) : List Char → List Nat
  | [] => [fewest a b]
  | y :: rest => fewest a b :: entries a (y :: b) rest

theorem entries_eq_cons (a b rest : List Char) :
    entries a b rest = fewest a b :: (entries a b rest).tail := by
  cases rest <;> rfl

/-- **The loop of a row**: from the row above and the entry just written it writes
the entries still to come. -/
theorem extendRow_entries (x : Char) (a b rest : List Char) :
    extendRow x (fewest (x :: a) b) rest (entries a b rest) = (entries (x :: a) b rest).tail := by
  induction rest generalizing b with
  | nil => rfl
  | cons y rest ih =>
    have hentry : Nat.min (Nat.min (fewest a (y :: b) + 1) (fewest (x :: a) b + 1))
        (if x = y then fewest a b else fewest a b + 1) = fewest (x :: a) (y :: b) := by
      rw [fewest]
      split <;> rfl
    rw [entries, entries_eq_cons a (y :: b) rest, extendRow, hentry, ← entries_eq_cons, ih,
      entries, List.tail_cons, ← entries_eq_cons]

theorem nextRow_entries (x : Char) (a rest : List Char) :
    nextRow x rest (entries a [] rest) = entries (x :: a) [] rest := by
  have hfirst : (entries a [] rest).headD 0 + 1 = fewest (x :: a) [] := by
    rw [entries_eq_cons, List.headD_cons, fewest_nil_right, fewest_nil_right, List.length_cons]
  rw [nextRow, hfirst, extendRow_entries, ← entries_eq_cons]

/-- **The loop over the rows.** -/
theorem row_entries (rest a before : List Char) :
    row rest a (entries before [] rest) = entries (a.reverse ++ before) [] rest := by
  induction a generalizing before with
  | nil => rfl
  | cons x a ih =>
    rw [row, nextRow_entries, ih, List.reverse_cons, List.append_assoc, List.singleton_append]

theorem entries_nil (b rest : List Char) :
    entries [] b rest = List.range' b.length (rest.length + 1) := by
  induction rest generalizing b with
  | nil => rw [entries, fewest_nil_left]; rfl
  | cons y rest ih => rw [entries, fewest_nil_left, ih, List.length_cons, List.range'_succ]; rfl

theorem getLastD_entries (a b rest : List Char) (k : Nat) :
    (entries a b rest).getLastD k = fewest a (rest.reverse ++ b) := by
  induction rest generalizing b k with
  | nil => rfl
  | cons y rest ih =>
    rw [entries, List.getLastD_cons, ih, List.reverse_cons, List.append_assoc,
      List.singleton_append]

/-- **The rows compute the recursion**, backwards. -/
theorem distance_eq_fewest (a b : List Char) : distance a b = fewest a.reverse b.reverse := by
  have hfirst : List.range (b.length + 1) = entries [] [] b := by
    rw [entries_nil, List.range_eq_range', List.length_nil]
  rw [distance, hfirst, row_entries, getLastD_entries, List.append_nil, List.append_nil]

/-! ## The distance -/

theorem edits_distance (a b : List Char) : Edits (distance a b) a b := by
  rw [distance_eq_fewest]
  simpa using (edits_fewest a.reverse b.reverse).reverse

theorem Edits.distance_le (h : Edits n a b) : distance a b ≤ n := by
  rw [distance_eq_fewest]
  exact h.reverse.fewest_le

theorem distance_le_swap (a b : List Char) : distance a b ≤ distance b a :=
  (edits_distance b a).symm.distance_le

/-- **The edit distance is the length of the shortest script.** So it is zero for a
text and itself alone, it is the same in both directions, a way round is no shorter,
and it lies between the difference of the lengths and the greater of them. -/
theorem distance_isLeast_edits (a b : List Char) :
    IsLeast {n | Edits n a b} (distance a b)
    ∧ (distance a b = 0 ↔ a = b)
    ∧ distance a b = distance b a
    ∧ (∀ c, distance a c ≤ distance a b + distance b c)
    ∧ ((a.length : Int) - b.length).natAbs ≤ distance a b
    ∧ distance a b ≤ max a.length b.length := by
  have hscript := edits_distance a b
  refine ⟨⟨hscript, fun n h => h.distance_le⟩, ⟨fun hzero => ?_, ?_⟩,
    Nat.le_antisymm (distance_le_swap a b) (distance_le_swap b a),
    fun c => (hscript.trans (edits_distance b c)).distance_le, ?_, ?_⟩
  · rw [hzero] at hscript
    cases hscript
    rfl
  · rintro rfl
    exact Nat.le_zero.1 (Edits.refl a).distance_le
  · have hlong := hscript.length_le
    have hshort := hscript.symm.length_le
    omega
  · simpa [distance_eq_fewest] using fewest_le_max a.reverse b.reverse

end Gsx.EditDistance
