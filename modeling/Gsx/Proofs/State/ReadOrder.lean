import Mathlib.Order.Nat
import Gsx.Proofs.State.Reads
/-!
# The order of reads

The scan for reads finds them from left to right, and nothing but reads: what it finds
behind a character that it has passed over is no end of a longer word, for then the
whole word would have been found in front of that character. So the variables that an
expression is found to read are the known ones that it does read, in the order of
their first reads (`readVars_in_order`).
-/

namespace Gsx

namespace StateText

/-- **A text reads a word** at an offset. -/
def ReadsWordAt (accessor cs name : List Char) (i : Nat) : Prop :=
  IsWord name ∧ ∃ before receiver after, ReadsAt accessor name cs before receiver after
    ∧ before.length = i

/-- **Where the scan stands** no read starts in the middle of a word: behind a word
character there is no word on which the accessor is called. -/
def Fresh (accessor front cs : List Char) : Prop :=
  ∀ x, front.getLast? = some x → isAsciiWord x = true →
    ∀ name after, IsWord name → cs ≠ name ++ (accessorCall accessor ++ after)

variable {accessor name receiver front cs rest : List Char} {x : Char} {fuel i : Nat}

theorem Fresh.nil (accessor cs : List Char) : Fresh accessor [] cs :=
  fun _ h => nomatch h

/-- Behind a read there is no word character. -/
theorem Fresh.behind_call (accessor front cs : List Char) :
    Fresh accessor (front ++ accessorCall accessor) cs := by
  intro x hx hword
  have hlast : (front ++ accessorCall accessor).getLast? = some ')' := by
    rw [accessorCall, ← List.cons_append, ← List.append_assoc, List.getLast?_append_cons]
    rfl
  rw [hlast, Option.some.injEq] at hx
  subst hx
  cases hword

/-- Nor does a word go on behind a character in front of which nothing is read. -/
theorem Fresh.behind_char (hnone : read? accessor (x :: cs) = none) :
    Fresh accessor (front ++ [x]) cs := by
  intro y hy hx name after hname hcs
  rw [List.getLast?_concat, Option.some.injEq] at hy
  subst hy
  have hlonger : IsWord (x :: name) :=
    ⟨List.cons_ne_nil _ _, List.forall_mem_cons.2 ⟨hx, hname.all_word⟩⟩
  have hfound : read? accessor (x :: cs) = some (x :: name, after) :=
    read?_eq_some_iff.2 ⟨hlonger, _, .plain, congrArg (x :: ·) hcs⟩
  rw [hnone] at hfound
  cases hfound

/-- **The scan finds nothing but reads**, one behind the other. -/
theorem placedReads_spec (hfresh : Fresh accessor front cs) :
    (∀ r ∈ placedReads accessor fuel front.length cs,
        front.length ≤ r.1 ∧ ReadsWordAt accessor (front ++ cs) r.2 r.1)
      ∧ (placedReads accessor fuel front.length cs).Pairwise fun r s => r.1 < s.1 := by
  induction fuel generalizing front cs with
  | zero => exact ⟨fun _ h => absurd h List.not_mem_nil, .nil⟩
  | succ fuel ih =>
    cases cs with
    | nil => exact ⟨fun _ h => absurd h List.not_mem_nil, .nil⟩
    | cons x cs =>
      rw [placedReads]
      split
      · next name rest hfound =>
        obtain ⟨hword, receiver, hreceives, htext⟩ := read?_eq_some_iff.1 hfound
        have hbehind : Fresh accessor (front ++ receiver ++ accessorCall accessor) rest :=
          .behind_call _ _ _
        have hplace : front.length + ((x :: cs).length - rest.length)
            = (front ++ receiver ++ accessorCall accessor).length := by
          rw [htext]
          simp only [List.length_append]
          omega
        have hwhole : front ++ receiver ++ accessorCall accessor ++ rest = front ++ x :: cs := by
          rw [htext]
          simp only [List.append_assoc]
        obtain ⟨hreads, hrow⟩ := ih hbehind
        rw [hplace]
        have hlt : front.length < (front ++ receiver ++ accessorCall accessor).length := by
          simp only [accessorCall, List.length_append, List.length_cons]
          omega
        refine ⟨List.forall_mem_cons.2 ⟨⟨le_rfl, hword, front, receiver, rest, ⟨?_, hreceives, ?_⟩,
          rfl⟩, fun r hr => ?_⟩, .cons (fun r hr => hlt.trans_le (hreads r hr).1) hrow⟩
        · rw [htext]
        -- A plain read right behind a word character would be the end of a longer word.
        · rintro rfl y hy
          by_contra hyword
          rw [Bool.not_eq_false] at hyword
          exact hfresh y hy hyword _ rest hword htext
        · obtain ⟨hle, hread⟩ := hreads r hr
          exact ⟨hlt.le.trans hle, hwhole ▸ hread⟩
      · next hnone =>
        have hfresh' : Fresh accessor (front ++ [x]) cs := .behind_char hnone
        obtain ⟨hreads, hrow⟩ := ih hfresh'
        rw [List.length_append, List.length_singleton] at hreads hrow
        rw [List.append_assoc] at hreads
        exact ⟨fun r hr => ⟨(Nat.le_succ _).trans (hreads r hr).1, (hreads r hr).2⟩, hrow⟩

/-- **The reads that the scan finds in a text** are its reads, in their order. -/
theorem mem_placedReads_iff (haccessor : ')' ∉ accessor) (hfuel : cs.length ≤ fuel) :
    (i, name) ∈ placedReads accessor fuel 0 cs ↔ ReadsWordAt accessor cs name i := by
  constructor
  · intro h
    exact ((placedReads_spec (.nil accessor cs)).1 _ h).2
  · rintro ⟨hword, before, receiver, after, hread, rfl⟩
    have hmem : (0 + before.length, name) ∈ placedReads accessor fuel 0 cs :=
      mem_placedReads hword haccessor hread hfuel
    rwa [Nat.zero_add] at hmem

end StateText

/-! ## First occurrences -/

/-- **First occurrences** are in order: a name stands in front of another one if some
occurrence of it is in front of all occurrences of that one. -/
theorem pairwise_firstOccurrences (names : List String) :
    (firstOccurrences names).Pairwise fun v w =>
      ∃ front back, names = front ++ v :: back ∧ v ∉ front ∧ w ∉ front ∧ w ≠ v := by
  induction names with
  | nil => exact .nil
  | cons name names ih =>
    rw [firstOccurrences]
    refine .cons (fun w hw => ⟨[], names, rfl, List.not_mem_nil, List.not_mem_nil, ?_⟩) ?_
    · exact bne_iff_ne.1 (List.mem_filter.1 hw).2
    · refine (ih.filter _).imp_of_mem fun hv hw h => ?_
      obtain ⟨front, back, rfl, hfirst, hfront, hne⟩ := h
      exact ⟨name :: front, back, rfl,
        List.not_mem_cons_of_ne_of_not_mem (bne_iff_ne.1 (List.mem_filter.1 hv).2) hfirst,
        List.not_mem_cons_of_ne_of_not_mem (bne_iff_ne.1 (List.mem_filter.1 hw).2) hfront, hne⟩

/-! ## The variables that are read -/

/-- **An expression reads a variable** at an offset, by a word. -/
def ReadsVarAt (accessor code name : String) (i : Nat) : Prop :=
  StateText.ReadsWordAt accessor.toList code.toList name.toList i

section
variable {names : List String} {accessor code v w : String} {i j : Nat}

theorem not_mem_of_isSimpleIdentifier (h : isSimpleIdentifier accessor = true) :
    ')' ∉ accessor.toList := by
  rw [isSimpleIdentifier] at h
  cases hchars : accessor.toList with
  | nil => exact List.not_mem_nil
  | cons x xs =>
    rw [hchars] at h
    simp only [Bool.and_eq_true, List.all_eq_true] at h
    refine List.not_mem_cons_of_ne_of_not_mem ?_ fun hmem => absurd (h.2 _ hmem) (by decide)
    rintro rfl
    exact absurd h.1 (by decide)

/-- The reads of known variables in an expression, each at its offset. -/
def knownReads (names : List String) (accessor code : String) : List (Nat × String) :=
  ((StateText.placedReads accessor.toList (code.toList.length + 1) 0 code.toList).map
    fun r => (r.1, String.ofList r.2)).filter fun r => names.contains r.2

theorem mem_knownReads (haccessor : ')' ∉ accessor.toList) :
    (i, v) ∈ knownReads names accessor code ↔ v ∈ names ∧ ReadsVarAt accessor code v i := by
  rw [knownReads, List.mem_filter, List.mem_map, List.contains_iff_mem, and_comm]
  refine and_congr_right fun _ => ?_
  rw [ReadsVarAt, ← StateText.mem_placedReads_iff haccessor (Nat.le_succ _)]
  constructor
  · rintro ⟨r, hr, heq⟩
    cases heq
    rwa [String.toList_ofList]
  · exact fun h => ⟨_, h, by rw [String.ofList_toList]⟩

theorem readVars_eq (names : List String) (accessor code : String) :
    readVars names accessor code
      = firstOccurrences ((knownReads names accessor code).map Prod.snd) := by
  rw [readVars, StateText.reads, ← StateText.map_placedReads accessor.toList _ 0, knownReads]
  simp only [List.filter_map, List.map_map]
  rfl

/-- They are found from left to right. -/
theorem pairwise_knownReads (names : List String) (accessor code : String) :
    (knownReads names accessor code).Pairwise fun r s => r.1 < s.1 := by
  have hrow : (StateText.placedReads accessor.toList (code.toList.length + 1) 0
      code.toList).Pairwise fun r s => r.1 < s.1 :=
    (StateText.placedReads_spec (.nil accessor.toList code.toList)).2
  refine List.Pairwise.filter _ ?_
  exact List.pairwise_map.2 hrow

/-- What is read of a known variable that none of the first reads is of is the read behind
them, or it comes later. -/
theorem eq_or_lt_of_reads {firsts later : List (Nat × String)} (haccessor : ')' ∉ accessor.toList)
    (hreads : knownReads names accessor code = firsts ++ (i, v) :: later) (hknown : w ∈ names)
    (hj : ReadsVarAt accessor code w j) (hnot : w ∉ firsts.map Prod.snd) :
    (j, w) = (i, v) ∨ i < j := by
  have hmem := (mem_knownReads haccessor).2 ⟨hknown, hj⟩
  have hrow := pairwise_knownReads names accessor code
  rw [hreads] at hmem hrow
  rcases List.mem_append.1 hmem with hfirst | hbehind
  · exact absurd (List.mem_map_of_mem hfirst) hnot
  · refine (List.mem_cons.1 hbehind).imp_right fun hlater => ?_
    exact (List.pairwise_cons.1 (List.pairwise_append.1 hrow).2.1).1 _ hlater

theorem mem_readVars_iff (haccessor : ')' ∉ accessor.toList) :
    v ∈ readVars names accessor code ↔ v ∈ names ∧ ∃ i, ReadsVarAt accessor code v i := by
  rw [readVars_eq, mem_firstOccurrences, List.mem_map, ← exists_and_left]
  constructor
  · rintro ⟨⟨i, v⟩, hread, rfl⟩
    exact ⟨i, (mem_knownReads haccessor).1 hread⟩
  · rintro ⟨i, hread⟩
    exact ⟨_, (mem_knownReads haccessor).2 hread, rfl⟩

/-- **The variables that an expression is found to read** are the known ones that it
reads, in the order of their first reads. -/
theorem readVars_in_order (names : List String) (code : String)
    (haccessor : isSimpleIdentifier accessor = true) :
    (∀ v, v ∈ readVars names accessor code ↔ v ∈ names ∧ ∃ i, ReadsVarAt accessor code v i)
      ∧ (readVars names accessor code).Nodup
      ∧ (readVars names accessor code).Pairwise fun v w => ∃ i j,
        IsLeast {i | ReadsVarAt accessor code v i} i ∧ IsLeast {j | ReadsVarAt accessor code w j} j
          ∧ i < j := by
  have hno := not_mem_of_isSimpleIdentifier haccessor
  refine ⟨fun v => mem_readVars_iff hno, by rw [readVars_eq]; exact nodup_firstOccurrences _, ?_⟩
  have horder := pairwise_firstOccurrences ((knownReads names accessor code).map Prod.snd)
  rw [← readVars_eq] at horder
  refine horder.imp_of_mem fun {v w} _ hw h => ?_
  obtain ⟨front, back, hsplit, hfirst, hfront, hne⟩ := h
  obtain ⟨firsts, rest, hreads, rfl, hrest⟩ := List.map_eq_append_iff.1 hsplit
  obtain ⟨⟨i, v⟩, later, rfl, rfl, -⟩ := List.map_eq_cons_iff.1 hrest
  obtain ⟨hv, hi⟩ := (mem_knownReads hno).1 (hreads ▸ List.mem_append_right _ List.mem_cons_self)
  obtain ⟨hknown, hex⟩ := (mem_readVars_iff hno).1 hw
  -- The first read of `v` is the known one that the split shows; that of `w` is somewhere
  -- behind it, so it is only found as a least offset.
  classical
  refine ⟨i, Nat.find hex, ⟨hi, fun j hj => ?_⟩, Nat.isLeast_find hex, ?_⟩
  · rcases eq_or_lt_of_reads hno hreads hv hj hfirst with heq | hlt
    · exact (congrArg Prod.fst heq).ge
    · exact hlt.le
  · rcases eq_or_lt_of_reads hno hreads hknown (Nat.find_spec hex) hfront with heq | hlt
    · exact absurd (congrArg Prod.snd heq) hne
    · exact hlt

/-- A read through a pointer comes in front of a plain one. -/
theorem readVars_in_order_greeting :
    isSimpleIdentifier "Get" = true
      ∧ readVars ["name", "count"] "Get" "(*count).Get() + len(name.Get())" = ["count", "name"]
      ∧ ∃ i j, IsLeast {i | ReadsVarAt "Get" "(*count).Get() + len(name.Get())" "count" i} i
        ∧ IsLeast {j | ReadsVarAt "Get" "(*count).Get() + len(name.Get())" "name" j} j ∧ i < j := by
  have hread : readVars ["name", "count"] "Get" "(*count).Get() + len(name.Get())"
      = ["count", "name"] := by decide +kernel
  have hsimple : isSimpleIdentifier "Get" = true := by decide +kernel
  obtain ⟨-, -, horder⟩ := readVars_in_order ["name", "count"] "(*count).Get() + len(name.Get())"
    hsimple
  rw [hread] at horder
  exact ⟨hsimple, hread, List.rel_of_pairwise_cons horder List.mem_cons_self⟩

end

end Gsx
