/-!
# Searching and splitting

Plain searches in a list of characters: what follows a given lead, whether a
pattern occurs, and the pieces between separators.
-/

namespace Gsx.Text

/-- What follows `lead` at the front of a list, if the list starts with it. -/
def after? : List Char → List Char → Option (List Char)
  | [], cs => some cs
  | _ :: _, [] => none
  | a :: lead, c :: cs => if a = c then after? lead cs else none

/-- Whether a list starts with `lead`. -/
def startsWith (lead cs : List Char) : Bool :=
  (after? lead cs).isSome

/-- Whether a list ends with `tail`. -/
def endsWith (tail cs : List Char) : Bool :=
  startsWith tail.reverse cs.reverse

/-- Whether `pattern` occurs somewhere in a list. -/
def occursIn (pattern : List Char) : List Char → Bool
  | [] => pattern.isEmpty
  | c :: rest => startsWith pattern (c :: rest) || occursIn pattern rest

/-- The pieces of a list between occurrences of a separator. -/
def splitOn (sep : Char) : List Char → List (List Char)
  | [] => [[]]
  | c :: rest =>
    if c = sep then [] :: splitOn sep rest
    else
      match splitOn sep rest with
      | [] => [[c]]
      | piece :: more => (c :: piece) :: more

theorem after?_eq_some_iff {lead cs rest : List Char} :
    after? lead cs = some rest ↔ cs = lead ++ rest := by
  induction lead generalizing cs with
  | nil => simp [after?, eq_comm]
  | cons a lead ih =>
    cases cs with
    | nil => simp [after?]
    | cons c cs =>
      by_cases h : a = c
      · subst h; simp [after?, ih]
      · simp only [after?, h, if_false, List.cons_append, List.cons.injEq]
        constructor
        · intro h'; cases h'
        · intro h'; exact absurd h'.1.symm h

end Gsx.Text
