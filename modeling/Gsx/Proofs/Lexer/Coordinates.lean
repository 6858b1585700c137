import Gsx.Lexer
/-!
# Coordinates of a rescan

The line and column of an offset are defined here by looking back from it:
`Position.ofOffset` counts the line ends before the offset and measures the
distance to the last of them. A cursor keeps its line and column step by step
instead. Where there is something left to read the two agree; at the end of the
input a cursor may have taken steps that went nowhere, and its column is only
bounded from below.
-/

namespace Gsx

/-- The offset of the last line end before an offset, and -1 where there is
none. -/
def lastNewline (source : List Char) : Nat → Int
  | 0 => -1
  | n + 1 => if source[n]? = some '\n' then n else lastNewline source n

/-- The position of an offset, as a scan of the source up to it gives it. -/
def Position.ofOffset (source : List Char) (n : Nat) : Position :=
  ⟨1 + (source.take n).count '\n', n - lastNewline source n⟩

variable {source : List Char}

/-- One character further, the scan does what a cursor does. -/
theorem Position.ofOffset_succ {n : Nat} {ch : Char} (h : source[n]? = some ch) :
    Position.ofOffset source (n + 1) = Cursor.after (.ofOffset source n) ch := by
  have htake : source.take (n + 1) = source.take n ++ [ch] := by
    rw [List.take_add_one, h]
    rfl
  simp only [Position.ofOffset, htake, List.count_append, lastNewline, h, Cursor.after,
    Option.some.injEq]
  by_cases hch : ch = '\n'
  · simp only [hch, if_true, Position.mk.injEq]
    simp only [List.count_cons_self, List.count_nil]
    omega
  · simp only [if_neg hch, Position.mk.injEq, List.count_singleton, beq_iff_eq]
    omega

namespace Cursor

/-- **Where a cursor stands in a source.** The character at it is the one at
its offset, and its line is that of a rescan; so is its column where something
is left to read, and at the end it is at least that. -/
structure IsIn (source : List Char) (c : Cursor) : Prop where
  offset_le : c.offset ≤ source.length
  rest_eq : c.rest = source.drop c.offset
  line_eq : c.position.line = (Position.ofOffset source c.offset).line
  column_eq : c.offset < source.length →
    c.position.column = (Position.ofOffset source c.offset).column
  le_column : (Position.ofOffset source c.offset).column ≤ c.position.column

variable {c : Cursor}

/-- A cursor whose coordinates are those of a rescan stands in the source. -/
theorem IsIn.of_position (hle : c.offset ≤ source.length) (hrest : c.rest = source.drop c.offset)
    (hpos : c.position = .ofOffset source c.offset) : c.IsIn source :=
  ⟨hle, hrest, by rw [hpos], fun _ => by rw [hpos], Int.le_of_eq (by rw [hpos])⟩

theorem IsIn.start (source : List Char) : (Cursor.start source).IsIn source :=
  .of_position (Nat.zero_le _) rfl rfl

namespace IsIn

theorem current?_eq (h : c.IsIn source) : c.current? = source[c.offset]? := by
  rw [current?, h.rest_eq, List.head?_drop]

theorem length_rest (h : c.IsIn source) : c.rest.length = source.length - c.offset := by
  rw [h.rest_eq, List.length_drop]

theorem offset_lt (h : c.IsIn source) (hne : c.rest ≠ []) : c.offset < source.length := by
  have := h.length_rest
  have := List.length_pos_iff.2 hne
  omega

theorem offset_eq (h : c.IsIn source) (hnil : c.rest = []) : c.offset = source.length := by
  have := h.length_rest
  have := h.offset_le
  rw [hnil, List.length_nil] at *
  omega

/-- Where something is left to read, the coordinates are those of a rescan. -/
theorem position_eq (h : c.IsIn source) (hne : c.offset < source.length) :
    c.position = .ofOffset source c.offset := by
  have hl := h.line_eq
  have hc := h.column_eq hne
  cases hp : c.position with
  | mk line column =>
    rw [hp] at hl hc
    simp only at hl hc
    rw [hl, hc]

/-- One step. -/
theorem next (h : c.IsIn source) : c.next.IsIn source := by
  cases hr : c.rest with
  | nil =>
    have hnext : c.next = { c with position := ⟨c.position.line, c.position.column + 1⟩ } := by
      rw [Cursor.next, hr]
    rw [hnext]
    have hle := h.le_column
    refine ⟨h.offset_le, h.rest_eq, h.line_eq, fun hlt => ?_, ?_⟩
    · have := h.offset_eq hr
      exact absurd hlt (by simp only; omega)
    · simp only
      omega
  | cons ch rest =>
    have hnext : c.next = ⟨rest, c.offset + 1, after c.position ch⟩ := by
      rw [Cursor.next, hr]
    have hlt : c.offset < source.length := h.offset_lt (by rw [hr]; exact List.cons_ne_nil _ _)
    have hdrop : source.drop c.offset = ch :: rest := by rw [← h.rest_eq, hr]
    have hch : source[c.offset]? = some ch := by
      rw [← List.head?_drop, hdrop]
      rfl
    rw [hnext]
    refine .of_position hlt ?_ ?_
    · simp only
      rw [← List.tail_drop, hdrop]
      rfl
    · simp only
      rw [h.position_eq hlt, Position.ofOffset_succ hch]

/-- And any number of steps. -/
theorem advance (h : c.IsIn source) (n : Nat) : (Cursor.advance n c).IsIn source := by
  induction n generalizing c with
  | zero => exact h
  | succ n ih => exact ih h.next

end IsIn

/-! ## Steps that stay in the source -/

theorem offset_advance (n : Nat) (c : Cursor) :
    (advance n c).offset = c.offset + min n c.rest.length := by
  induction n generalizing c with
  | zero => simp [advance]
  | succ n ih =>
    rw [advance, ih]
    cases hr : c.rest with
    | nil => simp [next, hr]
    | cons ch rest =>
      simp only [next, hr, List.length_cons]
      omega

/-- **No step is wasted before the end**: a cursor that has taken steps and not
gone beyond the end has the coordinates of a rescan, at the end too. -/
theorem position_advance {n : Nat} (h : c.IsIn source) (hlt : c.offset < source.length)
    (hn : n ≤ c.rest.length) :
    (advance n c).position = .ofOffset source (c.offset + n) := by
  induction n with
  | zero => exact h.position_eq hlt
  | succ n ih =>
    have hin := h.advance n
    have hoff : (advance n c).offset = c.offset + n := by
      rw [offset_advance]
      omega
    have hlen := h.length_rest
    have hlt' : c.offset + n < source.length := by omega
    obtain ⟨ch, hch⟩ : ∃ ch, source[c.offset + n]? = some ch :=
      ⟨_, List.getElem?_eq_getElem hlt'⟩
    have hrest : (advance n c).rest = ch :: source.drop (c.offset + n + 1) := by
      rw [hin.rest_eq, hoff]
      exact List.drop_eq_getElem_cons hlt' |>.trans (by
        rw [List.getElem?_eq_getElem hlt'] at hch
        rw [Option.some.inj hch])
    rw [advance_add n 1 c, advance, advance, next, hrest]
    simp only
    rw [ih (by omega), ← Nat.add_assoc, Position.ofOffset_succ hch]

/-- Two cursors that have moved to one place in a source are one. -/
theorem advance_eq_advance {c' : Cursor} {n n' : Nat}
    (hc : c.IsIn source) (hc' : c'.IsIn source) (hlt : c.offset < source.length)
    (hlt' : c'.offset < source.length) (hoffset : c.offset + n = c'.offset + n')
    (hle : c.offset + n ≤ source.length) : advance n c = advance n' c' := by
  have hn : n ≤ c.rest.length := by
    rw [hc.length_rest]
    omega
  have hn' : n' ≤ c'.rest.length := by
    rw [hc'.length_rest]
    omega
  have hposition : (advance n c).position = (advance n' c').position := by
    rw [position_advance hc hlt hn, position_advance hc' hlt' hn', hoffset]
  have hrest : (advance n c).rest = (advance n' c').rest := by
    rw [rest_advance, rest_advance, hc.rest_eq, hc'.rest_eq, List.drop_drop, List.drop_drop,
      hoffset]
  have hstop : (advance n c).offset = (advance n' c').offset := by
    rw [offset_advance, offset_advance]
    omega
  calc advance n c
      = ⟨(advance n c).rest, (advance n c).offset, (advance n c).position⟩ := rfl
    _ = advance n' c' := by rw [hrest, hstop, hposition]

end Cursor

end Gsx
