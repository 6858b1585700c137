import Gsx.Lexer
/-!
# The closing brace

Where the brace stands that closes another does not depend on what follows it:
the literals before it are closed, so none of them reaches beyond it. What is
read between braces depends on nothing but the source behind the opening one,
and all that is said of such a read comes from `exists_of_readBraces` or from the
equation for its outcome.
-/

namespace Gsx

/-- A character is none that is ruled out in front of nothing and in front of
anything. -/
theorem ne_of_nil_of_cons {c d : Char} {cs : List Char} (hnil : c = d → cs = [] → False)
    (hcons : ∀ c' cs', c = d → cs = c' :: cs' → False) : c ≠ d := fun h => by
  cases cs with
  | nil => exact hnil h rfl
  | cons c' cs => exact hcons c' cs h rfl

namespace Braces

variable {cs : List Char}

theorem stringLength_cons {c : Char} (h : c ≠ '\\') (rest : List Char) :
    stringLength (c :: rest) = if c = '"' then 1 else stringLength rest + 1 := by
  rw [stringLength]
  · exact fun hc _ => h hc
  · exact fun _ _ hc _ => h hc

/-- A string that is closed has its length whatever follows it. -/
theorem stringLength_append (h : stringLength cs < cs.length) (rest : List Char) :
    stringLength (cs ++ rest) = stringLength cs := by
  fun_induction stringLength cs with
  | case1 => exact absurd h (Nat.lt_irrefl _)
  | case2 => exact absurd h (Nat.lt_irrefl _)
  | case3 c cs ih =>
    rw [List.cons_append, List.cons_append, stringLength, ih (by simpa using h)]
  | case4 cs => rw [List.cons_append, stringLength_cons (by decide), if_pos rfl]
  | case5 c cs hnil hcons hquote ih =>
    have hslash : c ≠ '\\' := ne_of_nil_of_cons hnil hcons
    rw [List.cons_append, stringLength_cons hslash, if_neg hquote, ih (by simpa using h)]

theorem rawStringLength_append (h : rawStringLength cs < cs.length) (rest : List Char) :
    rawStringLength (cs ++ rest) = rawStringLength cs := by
  induction cs with
  | nil => exact absurd h (Nat.lt_irrefl _)
  | cons c cs ih =>
    rw [rawStringLength] at h
    rw [List.cons_append, rawStringLength, rawStringLength]
    split
    · rfl
    · next hc =>
      rw [if_neg hc] at h
      rw [ih (by simpa using h)]

/-- The length of a rune depends on its first three characters only. -/
theorem runeLength_append (h : runeLength cs < cs.length) (rest : List Char) :
    runeLength (cs ++ rest) = runeLength cs := by
  match cs with
  | [] => exact absurd h (Nat.lt_irrefl _)
  | [c] =>
    by_cases hc : c = '\\'
    · simp [runeLength, hc] at h
    · simp [runeLength] at h
  | [c, c'] =>
    by_cases hc : c = '\\'
    · simp [runeLength, hc] at h
    · by_cases hc' : c' = '\''
      · simp [runeLength, hc'] at h
      · simp [runeLength, hc, hc']
  | c :: c' :: c'' :: cs =>
    by_cases hc : c = '\\'
    · by_cases hc'' : c'' = '\'' <;> simp [runeLength, hc, hc'']
    · by_cases hc' : c' = '\'' <;> simp [runeLength, hc, hc']

theorem lt_length_of_closingFrom_drop {fuel depth k n : Nat}
    (h : closingFrom fuel depth (cs.drop k) = some n) : k < cs.length := by
  refine Nat.lt_of_not_le fun hle => ?_
  rw [List.drop_eq_nil_of_le hle] at h
  cases fuel <;> exact absurd h nofun

theorem closingFrom_append {fuel depth n : Nat} (h : closingFrom fuel depth cs = some n)
    (more : Nat) (rest : List Char) : closingFrom (fuel + more) depth (cs ++ rest) = some n := by
  induction fuel generalizing depth cs n with
  | zero => exact absurd h nofun
  | succ fuel ih =>
    cases cs with
    | nil => exact absurd h nofun
    | cons c cs =>
      have hmap : ∀ {k m depth n}, (closingFrom fuel depth (cs.drop k)).map (· + m) = some n →
          (closingFrom (fuel + more) depth ((cs ++ rest).drop k)).map (· + m) = some n := by
        intro k m depth n hk
        obtain ⟨n', hn', rfl⟩ := Option.map_eq_some_iff.1 hk
        have hlt := lt_length_of_closingFrom_drop hn'
        rw [List.drop_append_of_le_length (Nat.le_of_lt hlt), ih hn']
        rfl
      have hlt : ∀ {k m depth n}, (closingFrom fuel depth (cs.drop k)).map (· + m) = some n →
          k < cs.length := by
        intro k m depth n hk
        obtain ⟨n', hn', -⟩ := Option.map_eq_some_iff.1 hk
        exact lt_length_of_closingFrom_drop hn'
      rw [Nat.succ_add, List.cons_append]
      unfold closingFrom at h ⊢
      split
      · exact hmap (k := 0) h
      · cases depth with
        | zero => exact h
        | succ depth => exact hmap (k := 0) h
      · rw [stringLength_append (hlt h)]
        exact hmap h
      · rw [rawStringLength_append (hlt h)]
        exact hmap h
      · rw [runeLength_append (hlt h)]
        exact hmap h
      · split at h
        case h_6 => exact hmap (k := 0) h
        all_goals contradiction

/-- **The closing brace** of a text stays where it is when more text follows. -/
theorem closing?_append {n : Nat} (h : closing? cs = some n) (rest : List Char) :
    closing? (cs ++ rest) = some n := by
  have := closingFrom_append h rest.length rest
  rw [closing?, List.length_append]
  rw [← this]
  congr 1
  omega

theorem closingFrom_lt {fuel depth n : Nat} (h : closingFrom fuel depth cs = some n) :
    n < cs.length := by
  induction fuel generalizing depth cs n with
  | zero => exact absurd h nofun
  | succ fuel ih =>
    cases cs with
    | nil => exact absurd h nofun
    | cons c cs =>
      have hmap : ∀ {k depth}, (closingFrom fuel depth (cs.drop k)).map (· + (k + 1)) = some n →
          n < cs.length + 1 := by
        intro k depth hk
        obtain ⟨n', hn', rfl⟩ := Option.map_eq_some_iff.1 hk
        have hlt := ih hn'
        rw [List.length_drop] at hlt
        omega
      unfold closingFrom at h
      split at h
      · exact hmap (k := 0) h
      · cases depth with
        | zero =>
          cases h
          exact Nat.succ_pos _
        | succ depth => exact hmap (k := 0) h
      · exact hmap h
      · exact hmap h
      · exact hmap h
      · exact hmap (k := 0) h

/-- The closing brace stands in the text. -/
theorem closing?_lt {n : Nat} (h : closing? cs = some n) : n < cs.length :=
  closingFrom_lt h

end Braces

/-! ## Reading between braces -/

namespace Lexer

variable {l m : Lexer} {p n : Nat} {code : String} {cs : List Char}

/-- Text between braces that are closed. -/
theorem readBraces_of_closing? (hp : l.source.drop p = '{' :: cs)
    (h : Braces.closing? cs = some n) :
    l.readBraces p = .ok (String.ofList (cs.take n),
      { l with
        pending := l.pending.filter (·.offset < p)
        cursor := (Cursor.start l.source).advance (p + n + 2) }) := by
  change l.readBraces (.ofNat p) = _
  simp only [Lexer.readBraces, hp, h]

theorem readBraces_of_not_closed (hp : l.source.drop p = '{' :: cs)
    (h : Braces.closing? cs = none) : l.readBraces p = .error .neverClosed := by
  change l.readBraces (.ofNat p) = _
  simp only [Lexer.readBraces, hp, h]

theorem readBraces_of_no_brace (h : ∀ cs, l.source.drop p ≠ '{' :: cs) :
    l.readBraces p = .error .noBraceThere := by
  change l.readBraces (.ofNat p) = _
  simp only [Lexer.readBraces]

/-- Text between braces was read because the braces are there and closed. -/
theorem exists_of_readBraces (h : l.readBraces p = .ok (code, m)) :
    ∃ cs n, l.source.drop p = '{' :: cs ∧ Braces.closing? cs = some n
      ∧ code = String.ofList (cs.take n)
      ∧ m = { l with
          pending := l.pending.filter (·.offset < p)
          cursor := (Cursor.start l.source).advance (p + n + 2) } := by
  by_cases hbrace : ∃ cs, l.source.drop p = '{' :: cs
  · obtain ⟨cs, hp⟩ := hbrace
    cases hclosing : Braces.closing? cs with
    | none =>
      rw [readBraces_of_not_closed hp hclosing] at h
      cases h
    | some n =>
      rw [readBraces_of_closing? hp hclosing] at h
      cases h
      exact ⟨cs, n, hp, hclosing, rfl, rfl⟩
  · rw [readBraces_of_no_brace (not_exists.1 hbrace)] at h
    cases h

theorem diagnostics_readBraces (h : l.readBraces p = .ok (code, m)) :
    m.diagnostics = l.diagnostics := by
  obtain ⟨_, _, _, _, _, rfl⟩ := exists_of_readBraces h
  rfl

theorem pending_readBraces (h : l.readBraces p = .ok (code, m)) : m.pending ⊆ l.pending := by
  obtain ⟨_, _, _, _, _, rfl⟩ := exists_of_readBraces h
  exact fun c hc => (List.mem_filter.1 hc).1

end Lexer

end Gsx
