import Mathlib.Data.List.DropRight
import Gsx.State.Binding
/-!
# What an expression reads

A read of a variable is a call of the accessor on its name, or on what the name
points to. The reads in an expression are found in one scan from the left that goes
on behind each read it finds, so a read could be lost behind another one that
overlaps it. None is: a call has its empty parentheses at its end and nowhere else,
so two reads that overlap end together, and then one of them stands in the middle of
a name.

Names are words of ASCII letters, digits and underscores. A variable with another
name is never found.
-/

namespace Gsx

namespace StateText

/-- A word of ASCII letters, digits and underscores. -/
structure IsWord (name : List Char) : Prop where
  ne_nil : name ≠ []
  all_word : ∀ x ∈ name, isAsciiWord x = true

/-- The call of an accessor. -/
def accessorCall (accessor : List Char) : List Char :=
  '.' :: (accessor ++ ['(', ')'])

/-- What the accessor is called on to read a variable: its name, or what it points
to. -/
inductive Receives (name : List Char) : List Char → Prop
  | plain : Receives name name
  | pointer : Receives name ('(' :: '*' :: (name ++ [')']))

/-- **A text reads a variable** if the accessor is called on it somewhere. A name is
not the end of a longer word. -/
structure ReadsAt (accessor name cs before receiver after : List Char) : Prop where
  text_eq : cs = before ++ (receiver ++ (accessorCall accessor ++ after))
  receives : Receives name receiver
  boundary : receiver = name → ∀ x, before.getLast? = some x → isAsciiWord x = false

section
variable {accessor name receiver cs rest : List Char}

theorem IsWord.not_mem {x : Char} (h : IsWord name) (hx : isAsciiWord x = false) : x ∉ name :=
  fun hmem => by
    rw [h.all_word x hmem] at hx
    cases hx

/-- A word ends where something else follows. -/
theorem IsWord.takeWhile_append {x : Char} (h : IsWord name) (hx : isAsciiWord x = false) :
    (name ++ x :: cs).takeWhile isAsciiWord = name := by
  rw [List.takeWhile_append_of_pos h.all_word, List.takeWhile_cons, if_neg (by simp [hx]),
    List.append_nil]

/-! ## One read -/

/-- The word at the front of a text, if it is followed by some lead, and what follows
that. -/
def wordThen? (lead cs : List Char) : Option (List Char × List Char) :=
  if (cs.takeWhile isAsciiWord).isEmpty then none
  else do
    let rest ← Text.after? lead (cs.drop (cs.takeWhile isAsciiWord).length)
    return (cs.takeWhile isAsciiWord, rest)

theorem wordThen?_eq_some_iff {x : Char} {lead : List Char} (hx : isAsciiWord x = false) :
    wordThen? (x :: lead) cs = some (name, rest)
      ↔ IsWord name ∧ cs = name ++ x :: (lead ++ rest) := by
  rw [wordThen?]
  constructor
  · intro h
    split at h
    · cases h
    · next hne =>
      obtain ⟨behind, hbehind, heq⟩ := Option.bind_eq_some_iff.1 h
      cases heq
      refine ⟨⟨by simpa using hne, fun _ hy => List.mem_takeWhile_imp hy⟩, ?_⟩
      rw [← List.cons_append, ← Text.after?_eq_some_iff.1 hbehind]
      exact (List.prefix_iff_eq_append.1 (List.takeWhile_prefix isAsciiWord)).symm
  · rintro ⟨hword, rfl⟩
    rw [hword.takeWhile_append hx, if_neg (by simpa using hword.ne_nil), List.drop_left,
      ← List.cons_append, Text.after?_eq_some_iff.2 rfl]
    rfl

theorem plainRead?_eq_some_iff :
    plainRead? accessor cs = some (name, rest) ↔
      IsWord name ∧ cs = name ++ (accessorCall accessor ++ rest) :=
  wordThen?_eq_some_iff (by decide)

theorem derefRead?_eq_some_iff :
    derefRead? accessor cs = some (name, rest) ↔
      IsWord name ∧ cs = '(' :: '*' :: (name ++ ')' :: (accessorCall accessor ++ rest)) := by
  have hread : derefRead? accessor cs
      = (Text.after? ['(', '*'] cs).bind (wordThen? (')' :: accessorCall accessor)) := rfl
  rw [hread, Option.bind_eq_some_iff]
  simp only [Text.after?_eq_some_iff, wordThen?_eq_some_iff (by decide : isAsciiWord ')' = false)]
  constructor
  · rintro ⟨_, rfl, hword, rfl⟩
    exact ⟨hword, rfl⟩
  · rintro ⟨hword, rfl⟩
    exact ⟨_, rfl, hword, rfl⟩

/-- The read at the front of a text. -/
def read? (accessor cs : List Char) : Option (List Char × List Char) :=
  derefRead? accessor cs <|> plainRead? accessor cs

/-- **A read at the front of a text** is the call of the accessor on something that
receives it for a word. -/
theorem read?_eq_some_iff :
    read? accessor cs = some (name, rest) ↔
      IsWord name ∧ ∃ receiver, Receives name receiver
        ∧ cs = receiver ++ (accessorCall accessor ++ rest) := by
  rw [read?, Option.orElse_eq_orElse, Option.orElse_eq_or, Option.or_eq_some_iff,
    derefRead?_eq_some_iff, plainRead?_eq_some_iff]
  constructor
  · rintro (⟨hword, rfl⟩ | ⟨-, hword, rfl⟩)
    · exact ⟨hword, _, .pointer, by simp⟩
    · exact ⟨hword, _, .plain, rfl⟩
  · rintro ⟨hword, receiver, hreceives, rfl⟩
    cases hreceives with
    | pointer => exact .inl ⟨hword, by simp⟩
    | plain =>
      -- no word starts with the parenthesis of a read through a pointer
      refine .inr ⟨?_, hword, rfl⟩
      cases hderef : derefRead? accessor (name ++ (accessorCall accessor ++ rest)) with
      | none => rfl
      | some found =>
        obtain ⟨-, htext⟩ := derefRead?_eq_some_iff.1 hderef
        cases hname : name with
        | nil => exact absurd hname hword.ne_nil
        | cons x word =>
          rw [hname, List.cons_append, List.cons.injEq] at htext
          have hx := hword.all_word x (hname ▸ List.mem_cons_self)
          rw [htext.1] at hx
          cases hx

/-! ## Reads that overlap -/

/-- A text in front of empty parentheses has none in it, nor together with the first
of them. -/
def HasNoCall (cs : List Char) : Prop :=
  ∀ before after, cs ++ ['('] ≠ before ++ '(' :: ')' :: after

/-- Two texts in front of the first empty parentheses are the same. -/
theorem HasNoCall.unique {cs' after after' : List Char} (h : HasNoCall cs) (h' : HasNoCall cs')
    (heq : cs ++ '(' :: ')' :: after = cs' ++ '(' :: ')' :: after') : cs = cs' := by
  have hnot : ∀ {cs cs' more after after' : List Char}, HasNoCall cs' →
      cs' = cs ++ more → '(' :: ')' :: after = more ++ '(' :: ')' :: after' → more = [] := by
    rintro cs _ more after after' hno rfl hmore
    match more with
    | [] => rfl
    | [x] => cases hmore
    | x :: y :: more =>
      cases hmore
      exact absurd (by simp) (hno cs (more ++ ['(']))
  rcases List.append_eq_append_iff.1 heq with ⟨more, hcs, hmore⟩ | ⟨more, hcs, hmore⟩
  · rw [hcs, hnot h' hcs hmore, List.append_nil]
  · rw [hcs, hnot h hcs hmore, List.append_nil]

theorem HasNoCall.of_eq_append {cs' front : List Char} (h : HasNoCall cs')
    (heq : cs' = front ++ cs) : HasNoCall cs := by
  subst heq
  intro before after hcall
  exact h (front ++ before) after (by rw [List.append_assoc, hcall, List.append_assoc])

/-- **A read has no empty parentheses but at its end**, for an accessor without a
closing one. -/
theorem Receives.hasNoCall (h : Receives name receiver) (hword : IsWord name)
    (haccessor : ')' ∉ accessor) : HasNoCall (receiver ++ '.' :: accessor) := by
  intro before after heq
  have hname : ')' ∉ name := hword.not_mem (by decide)
  cases h with
  | plain =>
    have hmem : ')' ∈ name ++ '.' :: accessor ++ ['('] := by rw [heq]; simp
    simp [hname, haccessor] at hmem
  | pointer =>
    have heq' : ('(' :: '*' :: name) ++ ')' :: ('.' :: accessor ++ ['('])
        = (before ++ ['(']) ++ ')' :: after := by simpa using heq
    obtain ⟨hfront, -⟩ := (List.append_cons_inj_of_notMem (by simp [hname])
      (by simp [haccessor])).1 heq'
    -- a word would end in a parenthesis
    have hlast : name.getLast? = some '(' := by
      rw [← List.getLast?_append_of_ne_nil ['(', '*'] hword.ne_nil]
      exact (congrArg List.getLast? hfront).trans List.getLast?_concat
    exact hword.not_mem (by decide) (List.mem_of_getLast? hlast)

/-- What receives an accessor does not start with a closing parenthesis. -/
theorem Receives.ne_cons (h : Receives name receiver) (hword : IsWord name) :
    receiver ≠ [] ∧ ∀ tail, receiver ≠ ')' :: tail := by
  cases h with
  | plain =>
    exact ⟨hword.ne_nil, fun tail heq =>
      hword.not_mem (by decide) (heq ▸ List.mem_cons_self : ')' ∈ name)⟩
  | pointer => exact ⟨by simp, fun tail heq => by simp at heq⟩

/-- **Two reads that overlap** end together. -/
theorem receiver_eq_append_of_overlap {name' receiver' before after : List Char}
    (hword : IsWord name) (hword' : IsWord name') (haccessor : ')' ∉ accessor)
    (hreceives : Receives name receiver) (hreceives' : Receives name' receiver')
    (heq : receiver' ++ (accessorCall accessor ++ rest)
      = before ++ (receiver ++ (accessorCall accessor ++ after)))
    (hlt : before.length < (receiver' ++ accessorCall accessor).length) :
    receiver' = before ++ receiver := by
  have hcall : ∀ front back : List Char, front ++ (accessorCall accessor ++ back)
      = (front ++ '.' :: accessor) ++ '(' :: ')' :: back := fun front back => by
    simp [accessorCall]
  have hno := hreceives.hasNoCall hword haccessor
  have hno' := hreceives'.hasNoCall hword' haccessor
  rw [hcall, hcall] at heq
  obtain ⟨more, hmore, hsplit⟩ : ∃ more, receiver' ++ '.' :: accessor = before ++ more
      ∧ more ++ '(' :: ')' :: rest = (receiver ++ '.' :: accessor) ++ '(' :: ')' :: after := by
    rcases List.append_eq_append_iff.1 heq with ⟨more, rfl, hmore⟩ | ⟨more, hmore, hsplit⟩
    · match more with
      | [] => exact ⟨[], by simp, hmore⟩
      | [x] =>
        -- the second read would start with the closing parenthesis of the first
        obtain ⟨hne, hnot⟩ := hreceives.ne_cons hword
        obtain ⟨y, tail, rfl⟩ := List.exists_cons_of_ne_nil hne
        rw [List.singleton_append, List.cons.injEq, List.cons_append, List.cons_append,
          List.cons.injEq] at hmore
        exact absurd (congrArg (· :: tail) hmore.2.1.symm) (hnot tail)
      | x :: y :: more =>
        simp only [accessorCall, List.length_append, List.length_cons, List.length_nil] at hlt
        omega
    · exact ⟨more, hmore, hsplit.symm⟩
  rw [(hno'.of_eq_append hmore).unique hno hsplit, ← List.append_assoc] at hmore
  exact List.append_cancel_right hmore

/-- **Two reads that end together** are the same: one in the middle of a name is none. -/
theorem eq_nil_of_receives_append {name' before : List Char} (hword : IsWord name)
    (hword' : IsWord name') (h : Receives name receiver) (h' : Receives name' (before ++ receiver))
    (hboundary : receiver = name → ∀ x, before.getLast? = some x → isAsciiWord x = false) :
    before = [] ∧ name' = name := by
  have hnot : ∀ {x : Char}, isAsciiWord x = false → x ∉ name' := fun hx => hword'.not_mem hx
  generalize hwhole : before ++ receiver = receiver' at h'
  cases h with
  | plain =>
    cases h' with
    | plain =>
      cases hlast : before.getLast? with
      | none =>
        obtain rfl := List.getLast?_eq_none_iff.1 hlast
        exact ⟨rfl, hwhole.symm⟩
      | some x =>
        -- the name would be the end of a longer one
        have hx := hword'.all_word x
          (hwhole ▸ List.mem_append_left _ (List.mem_of_getLast? hlast))
        rw [hboundary rfl x hlast] at hx
        cases hx
    | pointer =>
      have hlast := congrArg List.getLast? hwhole
      rw [List.getLast?_append_of_ne_nil _ hword.ne_nil, ← List.cons_append, ← List.cons_append,
        List.getLast?_concat] at hlast
      exact absurd (List.mem_of_getLast? hlast) (hword.not_mem (by decide))
  | pointer =>
    cases h' with
    | plain => exact absurd (by rw [← hwhole]; simp) (hnot (x := ')') (by decide))
    | pointer =>
      cases before with
      | nil => exact ⟨rfl, by simpa using hwhole.symm⟩
      | cons x before =>
        obtain ⟨-, hrest⟩ := List.cons.inj hwhole
        have hmem : '(' ∈ '*' :: (name' ++ [')']) := by rw [← hrest]; simp
        have hname : '(' ∉ name' := hnot (by decide)
        simp [hname] at hmem

/-! ## The scan -/

/-- **The reads that the scan finds** in a text from an offset on: where each starts, and
the name that is read. -/
def placedReads (accessor : List Char) : Nat → Nat → List Char → List (Nat × List Char)
  | 0, _, _ => []
  | _ + 1, _, [] => []
  | fuel + 1, o, x :: cs =>
    match read? accessor (x :: cs) with
    | some (name, rest) =>
      (o, name) :: placedReads accessor fuel (o + ((x :: cs).length - rest.length)) rest
    | none => placedReads accessor fuel (o + 1) cs

theorem map_placedReads (accessor : List Char) (fuel o : Nat) (cs : List Char) :
    (placedReads accessor fuel o cs).map Prod.snd = readsUpTo accessor fuel cs := by
  induction fuel generalizing o cs with
  | zero => rfl
  | succ fuel ih =>
    cases cs with
    | nil => rfl
    | cons x cs =>
      rw [placedReads, readsUpTo, ← read?]
      cases read? accessor (x :: cs) with
      | none => exact ih _ _
      | some found => exact congrArg (found.1 :: ·) (ih _ _)

/-- Every name that the scan finds is a word. -/
theorem isWord_of_mem_readsUpTo {fuel : Nat} (h : name ∈ readsUpTo accessor fuel cs) :
    IsWord name := by
  induction fuel generalizing cs with
  | zero => cases h
  | succ fuel ih =>
    cases cs with
    | nil => cases h
    | cons x cs =>
      rw [readsUpTo] at h
      split at h
      · next found rest hfound =>
        rcases List.mem_cons.1 h with rfl | h
        · exact (read?_eq_some_iff.1 hfound).1
        · exact ih h
      · exact ih h

theorem ReadsAt.ne_nil {before after : List Char}
    (h : ReadsAt accessor name cs before receiver after) : cs ≠ [] := by
  rw [h.text_eq]
  simp [accessorCall]

/-- Without some text in front, a read behind that is still there. -/
theorem ReadsAt.of_append {front before after : List Char}
    (h : ReadsAt accessor name (front ++ cs) (front ++ before) receiver after) :
    ReadsAt accessor name cs before receiver after := by
  refine ⟨?_, h.receives, fun hname x hx => h.boundary hname x ?_⟩
  · have htext := h.text_eq
    rwa [List.append_assoc, List.append_cancel_left_eq] at htext
  · have hne : before ≠ [] := fun hnil => by rw [hnil] at hx; cases hx
    rw [List.getLast?_append_of_ne_nil _ hne, hx]

/-- **The scan finds every read** at its place, for an accessor without a closing
parenthesis. What it goes over is either in front of the read, or the read itself. -/
theorem mem_placedReads {before after : List Char} {fuel o : Nat} (hword : IsWord name)
    (haccessor : ')' ∉ accessor) (h : ReadsAt accessor name cs before receiver after)
    (hfuel : cs.length ≤ fuel) :
    (o + before.length, name) ∈ placedReads accessor fuel o cs := by
  induction fuel generalizing cs before o with
  | zero => exact absurd (List.eq_nil_of_length_eq_zero (Nat.le_zero.1 hfuel)) h.ne_nil
  | succ fuel ih =>
    obtain ⟨x, rest, rfl⟩ := List.exists_cons_of_ne_nil h.ne_nil
    rw [List.length_cons] at hfuel
    rw [placedReads]
    split
    · next name' rest' hfound =>
      obtain ⟨hword', receiver', hreceives', htext⟩ := read?_eq_some_iff.1 hfound
      by_cases hlt : before.length < (receiver' ++ accessorCall accessor).length
      · have hsuffix := receiver_eq_append_of_overlap hword hword' haccessor h.receives
          hreceives' (htext.symm.trans h.text_eq) hlt
        obtain ⟨rfl, rfl⟩ := eq_nil_of_receives_append hword hword' h.receives
          (hsuffix ▸ hreceives') h.boundary
        exact List.mem_cons_self
      · rw [← List.append_assoc] at htext
        obtain ⟨between, rfl⟩ : receiver' ++ accessorCall accessor <+: before :=
          List.prefix_of_prefix_length_le ⟨rest', htext.symm⟩ ⟨_, h.text_eq.symm⟩
            (Nat.le_of_not_lt hlt)
        have hlength := congrArg List.length htext
        have hplace : o + ((x :: rest).length - rest'.length) + between.length
            = o + ((receiver' ++ accessorCall accessor) ++ between).length := by
          rw [htext, List.length_append, @List.length_append _ _ between]
          omega
        simp only [List.length_append, List.length_cons, accessorCall] at hlength
        refine List.mem_cons_of_mem _ ?_
        rw [← hplace]
        exact ih (htext ▸ h).of_append (by omega)
    · next hnone =>
      cases before with
      | nil =>
        -- the read at the front would have been found
        have hfound : read? accessor (x :: rest) = some (name, after) :=
          read?_eq_some_iff.2 ⟨hword, receiver, h.receives, h.text_eq⟩
        exact absurd (hnone.symm.trans hfound) (by simp)
      | cons y before =>
        obtain rfl : x = y := (List.cons.inj h.text_eq).1
        have hrest : ReadsAt accessor name ([x] ++ rest) ([x] ++ before) receiver after := h
        rw [List.length_cons, Nat.add_comm before.length, ← Nat.add_assoc]
        exact ih hrest.of_append (by omega)

theorem mem_readsUpTo {before after : List Char} {fuel : Nat} (hword : IsWord name)
    (haccessor : ')' ∉ accessor) (h : ReadsAt accessor name cs before receiver after)
    (hfuel : cs.length ≤ fuel) : name ∈ readsUpTo accessor fuel cs := by
  rw [← map_placedReads accessor fuel 0]
  exact List.mem_map_of_mem (mem_placedReads hword haccessor h hfuel)

end

end StateText

/-- The text of an expression reads a variable. -/
def ReadsVar (accessor code name : String) : Prop :=
  ∃ before receiver after, StateText.ReadsAt accessor.toList name.toList code.toList before
    receiver after

/-- **The variables that an expression is found to read** are those known ones that it
reads by a word. -/
theorem mem_readVars_of_readsVar {names : List String} {accessor code name : String}
    (haccessor : ')' ∉ accessor.toList) (hword : StateText.IsWord name.toList)
    (hknown : name ∈ names) (h : ReadsVar accessor code name) :
    name ∈ readVars names accessor code := by
  obtain ⟨before, receiver, after, h⟩ := h
  rw [readVars, mem_firstOccurrences, List.mem_filter, List.contains_iff_mem, StateText.reads,
    List.mem_map]
  exact ⟨⟨_, StateText.mem_readsUpTo hword haccessor h (Nat.le_succ _), String.ofList_toList⟩,
    hknown⟩

theorem isWord_of_mem_readVars {names : List String} {accessor code name : String}
    (h : name ∈ readVars names accessor code) : StateText.IsWord name.toList := by
  rw [readVars, mem_firstOccurrences, List.mem_filter, StateText.reads, List.mem_map] at h
  obtain ⟨⟨word, hmem, rfl⟩, -⟩ := h
  rw [String.toList_ofList]
  exact StateText.isWord_of_mem_readsUpTo hmem

end Gsx
