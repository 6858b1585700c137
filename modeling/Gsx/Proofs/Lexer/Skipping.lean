import Gsx.Lexer
/-!
# On the way to a token

A lexer goes to the next token by moves over a blank or a comment each. What a
move does is told once: `Skips` has a constructor for each of the four kinds, and
all that a move keeps is shown by cases on it. What every move keeps is kept on
the way to the token (`skipUpTo_induction`), and two lexers that stand in front
of the same characters make the same moves (`rel_skipOne?`, `rel_skipUpTo`).
-/

namespace Gsx.Lexer

variable {l m : Lexer} {rest : List Char} {n : Nat}

theorem length_le_of_blockLength? {cs : List Char} {n : Nat} (h : blockLength? cs = some n) :
    n ≤ cs.length := by
  fun_induction blockLength? cs generalizing n with
  | case1 => cases h
  | case2 rest =>
    cases h
    simp
  | case3 c rest _ ih =>
    obtain ⟨m, hm, rfl⟩ := Option.map_eq_some_iff.1 h
    have := ih hm
    simp only [List.length_cons]
    omega

theorem length_line_le (h : l.cursor.rest = '/' :: '/' :: rest) :
    (rest.takeWhile (· != '\n')).length + 2 ≤ l.cursor.rest.length := by
  rw [h]
  exact Nat.add_le_add_right (List.takeWhile_sublist _).length_le 2

theorem length_block_le (h : l.cursor.rest = '/' :: '*' :: rest)
    (hn : blockLength? rest = some n) : n + 2 ≤ l.cursor.rest.length := by
  rw [h]
  exact Nat.add_le_add_right (length_le_of_blockLength? hn) 2

/-! ## One move -/

theorem skipOne?_nil (h : l.cursor.rest = []) : l.skipOne? = none := by
  rw [skipOne?, h]

theorem skipOne?_blank {c : Char} (hr : l.cursor.rest = c :: rest)
    (hc : c = ' ' ∨ c = '\t' ∨ c = '\r') : l.skipOne? = some (l.step 1) := by
  rcases hc with rfl | rfl | rfl <;> rw [skipOne?, hr] <;> rfl

theorem skipOne?_line (hr : l.cursor.rest = '/' :: '/' :: rest) :
    l.skipOne? = some (l.collect false ((rest.takeWhile (· != '\n')).length + 2)) := by
  rw [skipOne?, hr]
  rfl

theorem skipOne?_block (hr : l.cursor.rest = '/' :: '*' :: rest)
    (hn : blockLength? rest = some n) : l.skipOne? = some (l.collect true (n + 2)) := by
  rw [skipOne?, hr]
  simp only [hn]

theorem skipOne?_openBlock (hr : l.cursor.rest = '/' :: '*' :: rest)
    (hn : blockLength? rest = none) :
    l.skipOne?
      = some ((l.report l.cursor.position .unterminatedComment).step (rest.length + 2)) := by
  rw [skipOne?, hr]
  simp only [hn]

/-- **One move over blanks or a comment**: what is collected, if anything. -/
inductive Skips (l : Lexer) : Lexer → Prop
  | blank {c : Char} {rest : List Char} (hrest : l.cursor.rest = c :: rest)
      (hblank : c = ' ' ∨ c = '\t' ∨ c = '\r') : Skips l (l.step 1)
  | line {rest : List Char} (hrest : l.cursor.rest = '/' :: '/' :: rest) :
      Skips l (l.collect false ((rest.takeWhile (· != '\n')).length + 2))
  | block {rest : List Char} {n : Nat} (hrest : l.cursor.rest = '/' :: '*' :: rest)
      (hlength : blockLength? rest = some n) : Skips l (l.collect true (n + 2))
  | openBlock {rest : List Char} (hrest : l.cursor.rest = '/' :: '*' :: rest)
      (hopen : blockLength? rest = none) :
      Skips l ((l.report l.cursor.position .unterminatedComment).step (rest.length + 2))

theorem skips_of_skipOne? (h : l.skipOne? = some m) : Skips l m := by
  rw [skipOne?] at h
  split at h
  case h_1 rest hr => exact Option.some.inj h ▸ .blank hr (.inl rfl)
  case h_2 rest hr => exact Option.some.inj h ▸ .blank hr (.inr (.inl rfl))
  case h_3 rest hr => exact Option.some.inj h ▸ .blank hr (.inr (.inr rfl))
  case h_4 rest hr => exact Option.some.inj h ▸ .line hr
  case h_5 rest hr =>
    cases hb : blockLength? rest with
    | some n =>
      rw [hb] at h
      exact Option.some.inj h ▸ .block hr hb
    | none =>
      rw [hb] at h
      exact Option.some.inj h ▸ .openBlock hr hb
  case h_6 => cases h

/-- **The same move** is made in front of the same characters. -/
theorem rel_skipOne? {r : Lexer → Lexer → Prop} (hrest : m.cursor.rest = l.cursor.rest)
    (hstep : ∀ n, r (l.step n) (m.step n))
    (hcollect : ∀ isBlock n, l.cursor.rest ≠ [] → 0 < n →
      r (l.collect isBlock n) (m.collect isBlock n))
    (hopen : ∀ n, r ((l.report l.cursor.position .unterminatedComment).step n)
      ((m.report m.cursor.position .unterminatedComment).step n)) :
    Option.Rel r l.skipOne? m.skipOne? := by
  rw [skipOne?, skipOne?, hrest]
  split
  case h_4 rest hr => exact .some (hcollect _ _ (hr ▸ List.cons_ne_nil _ _) (Nat.succ_pos _))
  case h_5 rest hr =>
    cases blockLength? rest with
    | some n => exact .some (hcollect _ _ (hr ▸ List.cons_ne_nil _ _) (Nat.succ_pos _))
    | none => exact .some (hopen _)
  case h_6 => exact .none
  all_goals exact .some (hstep 1)

/-! ## All moves -/

theorem skipUpTo_of_none {fuel : Nat} (h : l.skipOne? = none) : skipUpTo fuel l = l := by
  cases fuel with
  | zero => rfl
  | succ fuel => rw [skipUpTo, h]

/-- **What every move keeps** is kept on the way to a token. -/
theorem skipUpTo_induction {p : Lexer → Prop}
    (hmove : ∀ {l m : Lexer}, p l → l.skipOne? = some m → p m) (h : p l) (fuel : Nat) :
    p (skipUpTo fuel l) := by
  induction fuel generalizing l with
  | zero => exact h
  | succ fuel ih =>
    rw [skipUpTo]
    cases hs : l.skipOne? with
    | none => exact h
    | some m => exact ih (hmove h hs)

/-- **What two lexers keep** with every move, they keep on the way to a token. -/
theorem rel_skipUpTo {r : Lexer → Lexer → Prop}
    (hmove : ∀ {l m : Lexer}, r l m → Option.Rel r l.skipOne? m.skipOne?) (h : r l m)
    (fuel : Nat) : r (skipUpTo fuel l) (skipUpTo fuel m) := by
  induction fuel generalizing l m with
  | zero => exact h
  | succ fuel ih =>
    rw [skipUpTo, skipUpTo]
    have hone := hmove h
    generalize l.skipOne? = l' at hone ⊢
    generalize m.skipOne? = m' at hone ⊢
    cases hone with
    | none => exact h
    | some hm => exact ih hm

end Gsx.Lexer
