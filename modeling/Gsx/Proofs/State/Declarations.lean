import Mathlib.Data.List.DropRight
import Gsx.State.Binding
/-!
# What a declaration is read as

A statement `name := constructor(init)`, with anything behind it, declares a state
variable. Its initial value is not found by its brackets: it is all that stands
between the parenthesis behind the constructor and the last closing parenthesis of
that line. So it is `init` only if that is on one line and no parenthesis closes
behind it there. A comment behind the statement may well close one, and a value of
several lines is not found at all.
-/

namespace Gsx

namespace StateText

/-! ## The argument of a call -/

/-- What is left of the line at the front of a text. -/
def restOfLine (cs : List Char) : List Char :=
  cs.takeWhile (· != '\n')

/-- **The argument that a call is taken to have**: not empty, on one line, and no
parenthesis closes behind the call on that line. -/
structure IsArgument (callee cs value rest : List Char) : Prop where
  text_eq : cs = callee ++ '(' :: (value ++ ')' :: rest)
  value_ne_nil : value ≠ []
  one_line : '\n' ∉ value
  last : ')' ∉ restOfLine rest

section
variable {callee constructor cs value rest : List Char}

theorem restOfLine_append (h : '\n' ∉ value) :
    restOfLine (value ++ cs) = value ++ restOfLine cs :=
  List.takeWhile_append_of_pos fun x hx => by
    have hne : x ≠ '\n' := fun heq => h (heq ▸ hx)
    simpa using hne

theorem newline_not_mem_restOfLine (cs : List Char) : '\n' ∉ restOfLine cs := fun h => by
  simpa using List.mem_takeWhile_imp h

theorem beforeLastParen?_of_not_mem (h : ')' ∉ cs) : beforeLastParen? cs = none := by
  have hnone : cs.reverse.dropWhile (· != ')') = [] := List.dropWhile_eq_nil_iff.2 fun x hx => by
    have hne : x ≠ ')' := fun heq => h (heq ▸ List.mem_reverse.1 hx)
    simpa using hne
  rw [beforeLastParen?, hnone]
  rfl

theorem beforeLastParen?_append (h : ')' ∉ rest) :
    beforeLastParen? (value ++ ')' :: rest) = if value.isEmpty then none else some value := by
  have hback : (value ++ ')' :: rest).reverse.dropWhile (· != ')') = ')' :: value.reverse := by
    rw [List.reverse_append, List.reverse_cons, List.append_assoc, List.dropWhile_append_of_pos]
    · rfl
    · intro x hx
      have hne : x ≠ ')' := fun heq => h (heq ▸ List.mem_reverse.1 hx)
      simpa using hne
  rw [beforeLastParen?, hback, List.drop_one, List.tail_cons, List.reverse_reverse]

/-- A text with some character has a last one of it. -/
theorem exists_last {x : Char} (h : x ∈ cs) : ∃ front tail, cs = front ++ x :: tail ∧ x ∉ tail := by
  obtain ⟨tail, front, hreverse, htail⟩ := List.eq_append_cons_of_mem (List.mem_reverse.2 h)
  refine ⟨front.reverse, tail.reverse, ?_, by simpa using htail⟩
  rw [← List.reverse_reverse cs, hreverse]
  simp

/-- The part in front of the last closing parenthesis. -/
theorem beforeLastParen?_eq_some_iff :
    beforeLastParen? cs = some value ↔
      value ≠ [] ∧ ∃ tail, cs = value ++ ')' :: tail ∧ ')' ∉ tail := by
  constructor
  · intro h
    by_cases hmem : ')' ∈ cs
    · obtain ⟨front, tail, rfl, htail⟩ := exists_last hmem
      rw [beforeLastParen?_append htail] at h
      split at h
      · cases h
      · next hne =>
        obtain rfl := Option.some.inj h
        exact ⟨by simpa using hne, tail, rfl, htail⟩
    · rw [beforeLastParen?_of_not_mem hmem] at h
      cases h
  · rintro ⟨hne, tail, rfl, htail⟩
    rw [beforeLastParen?_append htail, if_neg (by simpa using hne)]

/-- The argument is looked for in what is left of the line. -/
theorem argument?_eq_some_iff_restOfLine :
    argument? callee cs = some (value, rest) ↔
      ∃ inner, cs = callee ++ '(' :: inner ∧ beforeLastParen? (restOfLine inner) = some value
        ∧ inner.drop (value.length + 1) = rest := by
  simp only [argument?, Option.bind_eq_bind, Option.bind_eq_some_iff, Text.after?_eq_some_iff,
    Option.pure_def, Option.some.injEq, Prod.mk.injEq, restOfLine, List.append_assoc,
    List.singleton_append]
  constructor
  · rintro ⟨inner, hcs, _, hvalue, rfl, hrest⟩
    exact ⟨inner, hcs, hvalue, hrest⟩
  · rintro ⟨inner, hcs, hvalue, hrest⟩
    exact ⟨inner, hcs, value, hvalue, rfl, hrest⟩

/-- **The argument found** is the one described. -/
theorem argument?_eq_some_iff :
    argument? callee cs = some (value, rest) ↔ IsArgument callee cs value rest := by
  rw [argument?_eq_some_iff_restOfLine]
  constructor
  · rintro ⟨inner, rfl, hvalue, rfl⟩
    obtain ⟨hne, tail, hline, htail⟩ := beforeLastParen?_eq_some_iff.1 hvalue
    have hone : '\n' ∉ value ++ [')'] := fun hmem => newline_not_mem_restOfLine inner <| by
      rw [hline, List.append_cons]
      exact List.mem_append_left _ hmem
    have hinner : inner = (value ++ [')']) ++ (tail ++ inner.dropWhile (· != '\n')) := by
      rw [← List.append_assoc, List.append_assoc value, List.singleton_append, ← hline]
      exact List.takeWhile_append_dropWhile.symm
    generalize inner.dropWhile (· != '\n') = after at hinner
    subst hinner
    have hdrop : ((value ++ [')']) ++ (tail ++ after)).drop (value.length + 1) = tail ++ after :=
      List.drop_left' (by simp)
    rw [hdrop]
    have hrest : restOfLine (tail ++ after) = tail := by
      rw [restOfLine_append hone] at hline
      simpa using hline
    refine ⟨by rw [List.append_assoc, List.singleton_append], hne,
      fun hmem => hone (List.mem_append_left _ hmem), ?_⟩
    rwa [hrest]
  · rintro ⟨rfl, hne, hone, hlast⟩
    refine ⟨value ++ ')' :: rest, rfl, ?_, ?_⟩
    · rw [restOfLine_append hone]
      exact beforeLastParen?_eq_some_iff.2 ⟨hne, _, rfl, hlast⟩
    · rw [← List.drop_drop]
      simp

/-! ## Declarations from the left -/

/-- A text up to the parenthesis behind the constructor of a declaration. -/
structure IsHead (constructor name head : List Char) : Prop where
  name_ne_nil : name ≠ []
  name_word : ∀ x ∈ name, isAsciiWord x = true
  head_eq : ∃ gap gap', (∀ x ∈ gap, isAsciiBlank x = true) ∧ (∀ x ∈ gap', isAsciiBlank x = true)
    ∧ head = name ++ (gap ++ ':' :: '=' :: (gap' ++ (constructor ++ ['('])))

theorem withBlanksDropped_eq_none {α : Type} {f : List Char → Option α} {n : Nat}
    (h : ∀ j ≤ n, f (cs.drop j) = none) : withBlanksDropped f n cs = none := by
  induction n with
  | zero => exact h 0 (Nat.le_refl 0)
  | succ n ih =>
    rw [withBlanksDropped, h _ (Nat.le_refl _), ih fun j hj => h j (Nat.le_succ_of_le hj)]
    rfl

/-- Where only one number of dropped blanks can do, that one is taken. -/
theorem withBlanksDropped_eq {α : Type} {f : List Char → Option α} {k n : Nat} (hle : k ≤ n)
    (h : ∀ j ≤ n, j ≠ k → f (cs.drop j) = none) :
    withBlanksDropped f n cs = f (cs.drop k) := by
  induction n with
  | zero =>
    obtain rfl := Nat.le_zero.1 hle
    rfl
  | succ n ih =>
    rw [withBlanksDropped]
    by_cases hk : k = n + 1
    · subst hk
      rw [withBlanksDropped_eq_none fun j hj => h j (Nat.le_succ_of_le hj) (by omega)]
      cases f (cs.drop (n + 1)) <;> rfl
    · rw [h _ (Nat.le_refl _) (Ne.symm hk), ih (by omega) fun j hj => h j (Nat.le_succ_of_le hj)]
      rfl

theorem exists_of_withBlanksDropped {α : Type} {f : List Char → Option α} {n : Nat} {a : α}
    (h : withBlanksDropped f n cs = some a) : ∃ j, f (cs.drop j) = some a := by
  induction n with
  | zero => exact ⟨0, h⟩
  | succ n ih =>
    rw [withBlanksDropped] at h
    cases hhere : f (cs.drop (n + 1)) with
    | some b => exact ⟨n + 1, by rw [hhere]; simpa [hhere] using h⟩
    | none => exact ih (by simpa [hhere] using h)

/-- The blanks at the front of a text. -/
def blankRun (cs : List Char) : List Char :=
  cs.takeWhile isAsciiBlank

theorem blankRun_append (h : ∀ x ∈ value, isAsciiBlank x = true) :
    blankRun (value ++ cs) = value ++ blankRun cs :=
  List.takeWhile_append_of_pos h

theorem length_blankRun_drop {k : Nat} (h : k ≤ (blankRun cs).length) :
    (blankRun (cs.drop k)).length = (blankRun cs).length - k := by
  have hdrop : cs.drop k = (blankRun cs).drop k ++ cs.dropWhile isAsciiBlank := by
    rw [← List.drop_append_of_le_length h]
    exact congrArg (List.drop k) List.takeWhile_append_dropWhile.symm
  have hnone : blankRun (cs.dropWhile isAsciiBlank) = [] := by
    rw [blankRun, List.takeWhile_eq_nil_iff]
    exact fun hlength => by simpa using List.dropWhile_get_zero_not isAsciiBlank cs hlength
  have hblank : ∀ x ∈ (blankRun cs).drop k, isAsciiBlank x = true := fun x hx =>
    List.mem_takeWhile_imp (List.mem_of_mem_drop hx)
  rw [hdrop, blankRun_append hblank, hnone, List.append_nil, List.length_drop]

/-- The blanks in front of a parenthesis have nothing to do with what is behind
it. -/
theorem blankRun_callee (callee cs : List Char) :
    blankRun (callee ++ '(' :: cs) = blankRun callee := by
  induction callee with
  | nil => rfl
  | cons x callee ih =>
    rw [List.cons_append, blankRun, blankRun, List.takeWhile_cons, List.takeWhile_cons]
    split
    · exact congrArg (x :: ·) ih
    · rfl

/-- **The argument behind blanks** is that of the call right behind them, also where
the callee itself starts with blanks. -/
theorem argument?_blanks {gap : List Char} (h : ∀ x ∈ gap, isAsciiBlank x = true) :
    withBlanksDropped (argument? callee) (blankRun (gap ++ (callee ++ '(' :: cs))).length
        (gap ++ (callee ++ '(' :: cs))
      = argument? callee (callee ++ '(' :: cs) := by
  have hrun : (blankRun (gap ++ (callee ++ '(' :: cs))).length
      = gap.length + (blankRun callee).length := by
    rw [blankRun_append h, blankRun_callee, List.length_append]
  have hle : gap.length ≤ (blankRun (gap ++ (callee ++ '(' :: cs))).length := by omega
  rw [withBlanksDropped_eq hle, List.drop_left]
  · intro j hj hne
    cases hargument : argument? callee ((gap ++ (callee ++ '(' :: cs)).drop j) with
    | none => rfl
    | some found =>
      -- the callee would start at another place, with as many blanks
      have hlength := length_blankRun_drop hj
      rw [(argument?_eq_some_iff.1 hargument).text_eq, blankRun_callee, hrun] at hlength
      omega

/-- No control and no blank is a character of a word. -/
theorem isAsciiWord_ofNat {n : Nat} (h : n < 33) : isAsciiWord (Char.ofNat n) = false := by
  have hall : ((List.range 33).all fun n => !isAsciiWord (Char.ofNat n)) = true := by decide +kernel
  simpa using List.all_eq_true.1 hall n (List.mem_range.2 h)

theorem isAsciiWord_of_isAsciiBlank {x : Char} (h : isAsciiBlank x = true) :
    isAsciiWord x = false := by
  have hlow : x.toNat < 33 := by
    simp only [isAsciiBlank, Bool.or_eq_true, Bool.and_eq_true, beq_iff_eq,
      decide_eq_true_eq] at h
    rcases h with rfl | h
    · decide
    · omega
  have hword := isAsciiWord_ofNat hlow
  rwa [Char.ofNat_toNat] at hword

/-- **A declaration at the front of a text.** -/
theorem declaration?_head {name head : List Char} (h : IsHead constructor name head) :
    declaration? constructor (head ++ cs)
      = (argument? constructor (constructor ++ '(' :: cs)).map (name, ·) := by
  obtain ⟨hne, hword, gap, gap', hgap, hgap', rfl⟩ := h
  have hend : (gap ++ ':' :: '=' :: (gap' ++ (constructor ++ '(' :: cs))).takeWhile isAsciiWord
      = [] := by
    cases gap with
    | nil => rfl
    | cons x gap =>
      rw [List.cons_append, List.takeWhile_cons,
        isAsciiWord_of_isAsciiBlank (hgap x List.mem_cons_self)]
      rfl
  have htext : name ++ (gap ++ ':' :: '=' :: (gap' ++ (constructor ++ ['(']))) ++ cs
      = name ++ (gap ++ ':' :: '=' :: (gap' ++ (constructor ++ '(' :: cs))) := by simp
  have hname : (name ++ (gap ++ ':' :: '=' :: (gap' ++ (constructor ++ '(' :: cs)))).takeWhile
      isAsciiWord = name := by
    rw [List.takeWhile_append_of_pos hword, hend, List.append_nil]
  have hgap : (gap ++ ':' :: '=' :: (gap' ++ (constructor ++ '(' :: cs))).dropWhile isAsciiBlank
      = [':', '='] ++ (gap' ++ (constructor ++ '(' :: cs)) := by
    rw [List.dropWhile_append_of_pos hgap]
    rfl
  rw [htext, declaration?]
  have hempty : name.isEmpty = false := by simpa using hne
  have hargument := @argument?_blanks constructor cs gap' hgap'
  simp only [hname, hempty, List.drop_left, hgap, Text.after?_eq_some_iff.2 rfl]
  change (do
    let found ← withBlanksDropped (argument? constructor)
      (blankRun (gap' ++ (constructor ++ '(' :: cs))).length (gap' ++ (constructor ++ '(' :: cs))
    pure (name, found)) = _
  rw [hargument]
  cases argument? constructor (constructor ++ '(' :: cs) <;> rfl

/-- A declaration found has an argument found somewhere in the text. -/
theorem exists_of_declaration? {name : List Char}
    (h : declaration? constructor cs = some (name, value, rest)) :
    ∃ before, before <:+ cs ∧ IsArgument constructor before value rest := by
  rw [declaration?] at h
  split at h
  · cases h
  · obtain ⟨behind, hbehind, h⟩ := Option.bind_eq_some_iff.1 h
    obtain ⟨⟨value', rest'⟩, hfound, heq⟩ := Option.bind_eq_some_iff.1 h
    cases heq
    obtain ⟨j, hargument⟩ := exists_of_withBlanksDropped hfound
    refine ⟨_, ?_, argument?_eq_some_iff.1 hargument⟩
    have hsuffix : behind <:+ (cs.drop (cs.takeWhile isAsciiWord).length).dropWhile isAsciiBlank :=
      ⟨_, (Text.after?_eq_some_iff.1 hbehind).symm⟩
    exact (List.drop_suffix j _).trans <| hsuffix.trans <|
      (List.dropWhile_suffix _).trans (List.drop_suffix _ _)

/-- What follows a declaration is shorter than the text. -/
theorem length_lt_of_declaration? {name : List Char}
    (h : declaration? constructor cs = some (name, value, rest)) : rest.length < cs.length := by
  obtain ⟨before, hsuffix, hargument⟩ := exists_of_declaration? h
  refine Nat.lt_of_lt_of_le ?_ hsuffix.length_le
  rw [hargument.text_eq]
  simp only [List.length_append, List.length_cons]
  omega

/-- Any number of places does that is not less than the length of the text. -/
theorem declarationsUpTo_congr {m n : Nat} (hm : cs.length ≤ m) (hn : cs.length ≤ n) :
    declarationsUpTo constructor m cs = declarationsUpTo constructor n cs := by
  induction m generalizing n cs with
  | zero =>
    obtain rfl := List.eq_nil_of_length_eq_zero (Nat.le_zero.1 hm)
    cases n <;> rfl
  | succ m ih =>
    cases cs with
    | nil => cases n <;> rfl
    | cons x cs =>
      obtain ⟨n, rfl⟩ : ∃ n', n = n' + 1 := ⟨n - 1, by simp at hn; omega⟩
      simp only [List.length_cons] at hm hn
      rw [declarationsUpTo, declarationsUpTo]
      split
      · next name value rest hfound =>
        have hlt := length_lt_of_declaration? hfound
        rw [List.length_cons] at hlt
        rw [@ih rest n (by omega) (by omega)]
      · exact ih (by omega) (by omega)

/-- The declarations in a text, as names and values. -/
def declared (constructor cs : List Char) : List (List Char × List Char) :=
  declarationsUpTo constructor (cs.length + 1) cs

/-- A declaration at the front comes before those in what follows it. -/
theorem declared_eq_cons {name : List Char}
    (h : declaration? constructor cs = some (name, value, rest)) :
    declared constructor cs = (name, value) :: declared constructor rest := by
  have hlt := length_lt_of_declaration? h
  cases cs with
  | nil => cases hlt
  | cons x cs =>
    rw [List.length_cons] at hlt
    rw [declared, declarationsUpTo, h]
    exact congrArg _ (declarationsUpTo_congr (by simp only [List.length_cons]; omega) (by omega))

/-- A value found is on one line. -/
theorem newline_not_mem_of_mem_declared {d : List Char × List Char}
    (h : d ∈ declared constructor cs) : '\n' ∉ d.2 := by
  rw [declared] at h
  generalize cs.length + 1 = n at h
  induction n generalizing cs with
  | zero => cases h
  | succ n ih =>
    cases cs with
    | nil => cases h
    | cons x cs =>
      rw [declarationsUpTo] at h
      split at h
      · next name value rest hfound =>
        rcases List.mem_cons.1 h with rfl | h
        · obtain ⟨before, -, hargument⟩ := exists_of_declaration? hfound
          exact hargument.one_line
        · exact ih h
      · exact ih h

/-- A call with a parenthesis that closes on its line has an argument, which starts
with what stands in front of that. -/
theorem exists_isArgument {init : List Char} (hne : init ≠ []) (hline : '\n' ∉ init) :
    ∃ more after, init ++ ')' :: rest = (init ++ more) ++ ')' :: after
      ∧ IsArgument callee (callee ++ '(' :: (init ++ ')' :: rest)) (init ++ more) after := by
  have hmem : ')' ∈ restOfLine (')' :: rest) := by simp [restOfLine]
  obtain ⟨more, tail, hlast, htail⟩ := exists_last hmem
  have hvalue : beforeLastParen? (restOfLine (init ++ ')' :: rest)) = some (init ++ more) := by
    rw [restOfLine_append hline, hlast]
    exact beforeLastParen?_eq_some_iff.2
      ⟨List.append_ne_nil_of_left_ne_nil hne _, tail, (List.append_assoc _ _ _).symm, htail⟩
  have hargument : IsArgument callee (callee ++ '(' :: (init ++ ')' :: rest)) (init ++ more) _ :=
    argument?_eq_some_iff.1 (argument?_eq_some_iff_restOfLine.2 ⟨_, rfl, hvalue, rfl⟩)
  refine ⟨more, _, ?_, hargument⟩
  simpa using hargument.text_eq

end

end StateText

/-! ## The variables of a statement -/

namespace StateVar

open StateText

variable {c : Config} {code : String} {name head init rest : List Char}

/-- The variable that a declaration makes, by its name and its initial value. -/
def ofDeclaration (name value : List Char) : StateVar :=
  ⟨String.ofList name, GoType.infer (String.ofList value), String.ofList value, false⟩

theorem ofStatement_eq_map (c : Config) (code : String) :
    ofStatement c code = (declared c.stateConstructor.toList code.toList).map fun d =>
      ofDeclaration d.1 d.2 := by
  rw [ofStatement, declarations, List.map_map]
  rfl

theorem ofDeclaration_inj {name' value value' : List Char} :
    ofDeclaration name value = ofDeclaration name' value' ↔ name = name' ∧ value = value' := by
  rw [ofDeclaration, ofDeclaration, StateVar.mk.injEq, String.ofList_inj, String.ofList_inj]
  grind

/-- **A declaration whose value starts on its line** makes a variable. Its value is what
stands in the parentheses of the constructor, and what follows up to the last closing
parenthesis of the line. -/
theorem exists_ofStatement_eq_cons (hhead : IsHead c.stateConstructor.toList name head)
    (hcode : code.toList = head ++ (init ++ ')' :: rest)) (hne : init ≠ [])
    (hline : '\n' ∉ init) :
    ∃ more after, init ++ ')' :: rest = (init ++ more) ++ ')' :: after
      ∧ '\n' ∉ more ∧ ')' ∉ restOfLine after
      ∧ ofStatement c code
        = ofDeclaration name (init ++ more) :: ofStatement c (String.ofList after) := by
  obtain ⟨more, after, htext, hargument⟩ :=
    @exists_isArgument c.stateConstructor.toList rest init hne hline
  refine ⟨more, after, htext, fun hmem => hargument.one_line (List.mem_append_right _ hmem),
    hargument.last, ?_⟩
  have hfound : declaration? c.stateConstructor.toList code.toList
      = some (name, init ++ more, after) := by
    rw [hcode, declaration?_head hhead, argument?_eq_some_iff.2 hargument]
    rfl
  rw [ofStatement_eq_map, declared_eq_cons hfound, ofStatement_eq_map, String.toList_ofList,
    List.map_cons]

/-- **One statement** is read as the one variable that it declares, with its value,
exactly if that is on one line, no parenthesis closes behind it there, and there is
no declaration in what follows. -/
theorem ofStatement_eq_singleton_iff (hhead : IsHead c.stateConstructor.toList name head)
    (hcode : code.toList = head ++ (init ++ ')' :: rest)) (hne : init ≠ []) :
    ofStatement c code = [ofDeclaration name init] ↔
      '\n' ∉ init ∧ ')' ∉ restOfLine rest ∧ ofStatement c (String.ofList rest) = [] := by
  constructor
  · intro h
    have hline : '\n' ∉ init := by
      rw [ofStatement_eq_map] at h
      obtain ⟨d, hd, heq⟩ := List.mem_map.1 (h ▸ List.mem_singleton_self (ofDeclaration name init))
      rw [← (ofDeclaration_inj.1 heq).2]
      exact newline_not_mem_of_mem_declared hd
    obtain ⟨more, after, htext, -, hlast, hvars⟩ := exists_ofStatement_eq_cons hhead hcode hne hline
    rw [hvars, List.cons.injEq, ofDeclaration_inj] at h
    obtain ⟨⟨-, hvalue⟩, hnone⟩ := h
    obtain rfl : more = [] := by simpa using hvalue
    obtain rfl : rest = after := by simpa using htext
    exact ⟨hline, hlast, hnone⟩
  · rintro ⟨hline, hlast, hnone⟩
    obtain ⟨more, after, htext, hone, -, hvars⟩ := exists_ofStatement_eq_cons hhead hcode hne hline
    rw [List.append_assoc, List.append_cancel_left_eq] at htext
    cases more with
    | nil =>
      obtain rfl : rest = after := by simpa using htext
      rw [hvars, hnone, List.append_nil]
    | cons x more =>
      -- the value would go on to a parenthesis further to the right
      obtain ⟨rfl, rfl⟩ : ')' = x ∧ rest = more ++ ')' :: after := by simpa using htext
      have hone' : '\n' ∉ more := fun hmem => hone (List.mem_cons_of_mem _ hmem)
      rw [restOfLine_append hone'] at hlast
      exact absurd (List.mem_append_right _ (by simp [restOfLine])) hlast

/-! ## The variables of a component -/

section
variable {comp : Component} {g : GoCode} {front back : List Node}

/-- The variables of a statement stand between those of what surrounds it. -/
theorem ofComponent_eq_append (h : comp.body = front ++ .goCode g :: back) :
    ofComponent c comp = ofComponent c { comp with body := front }
      ++ (ofStatement c g.code ++ ofComponent c { comp with params := [], body := back }) := by
  have hstatements : (Node.goCode g :: back).filterMap Node.statement?
      = g.code :: back.filterMap Node.statement? := rfl
  rw [ofComponent, ofComponent, ofComponent, h, List.filterMap_append, hstatements,
    List.flatMap_append, List.flatMap_cons, List.append_assoc]
  rfl

/-- **A declaration is read whole where it ends its line.** A component has, for a
statement at the top of its body that declares a variable, just this variable with its
value, exactly if the value is on one line, no parenthesis closes behind it on that
line, and no declaration follows in the statement. If the value is on one line, the
variable has at least that value, and what follows up to the last parenthesis that
closes on the line. -/
theorem declared_whole_iff (hbody : comp.body = front ++ .goCode g :: back)
    (hhead : IsHead c.stateConstructor.toList name head)
    (hcode : g.code.toList = head ++ (init ++ ')' :: rest)) (hne : init ≠ []) :
    (ofComponent c comp = ofComponent c { comp with body := front }
        ++ ([ofDeclaration name init] ++ ofComponent c { comp with params := [], body := back })
      ↔ '\n' ∉ init ∧ ')' ∉ restOfLine rest ∧ ofStatement c (String.ofList rest) = [])
    ∧ ('\n' ∉ init → ∃ more after, init ++ ')' :: rest = (init ++ more) ++ ')' :: after
      ∧ '\n' ∉ more ∧ ')' ∉ restOfLine after
      ∧ ofComponent c comp = ofComponent c { comp with body := front }
        ++ (ofDeclaration name (init ++ more) :: ofStatement c (String.ofList after)
          ++ ofComponent c { comp with params := [], body := back })) := by
  rw [ofComponent_eq_append hbody, List.append_cancel_left_eq, List.append_cancel_right_eq,
    ofStatement_eq_singleton_iff hhead hcode hne]
  refine ⟨.rfl, fun hline => ?_⟩
  obtain ⟨more, after, htext, hone, hlast, hvars⟩ := exists_ofStatement_eq_cons hhead hcode hne hline
  exact ⟨more, after, htext, hone, hlast, by rw [hvars]⟩

end

/-- A component with a declaration and a comment on its line. -/
def notedCounter : Component where
  name := "Counter"
  params := []
  body := [.goCode ⟨"count := tui.NewState(max(0, 1)) // at first", ⟨4, 2⟩, none⟩]
  acceptsChildren := false
  position := ⟨3, 1⟩
  leading := none
  trailing := none
  orphans := []

/-- Its declaration is read whole. -/
theorem declared_whole_iff_notedCounter :
    IsHead Config.standard.stateConstructor.toList "count".toList "count := tui.NewState(".toList
      ∧ ofComponent .standard notedCounter
        = ofComponent .standard { notedCounter with body := [] }
          ++ ([ofDeclaration "count".toList "max(0, 1)".toList]
            ++ ofComponent .standard { notedCounter with params := [], body := [] }) := by
  have hhead : IsHead Config.standard.stateConstructor.toList "count".toList
      "count := tui.NewState(".toList :=
    ⟨by decide, List.all_eq_true.1 (by decide), [' '], [' '], List.all_eq_true.1 (by decide),
      List.all_eq_true.1 (by decide), by decide⟩
  obtain ⟨hiff, -⟩ := @declared_whole_iff .standard "count".toList "count := tui.NewState(".toList
    "max(0, 1)".toList " // at first".toList notedCounter _ [] [] rfl hhead (by decide) (by decide)
  exact ⟨hhead, hiff.2 (by decide)⟩

/-- A parenthesis in the comment is taken for that of the constructor. -/
example : ofStatement .standard "x := tui.NewState(0) // see (docs)"
    = [⟨"x", "any", "0) // see (docs", false⟩] := by decide

end StateVar

end Gsx
