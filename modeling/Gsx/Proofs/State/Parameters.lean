import Gsx.State.Binding
/-!
# Which parameters are state

A parameter is a state variable if its type, without blank ends, ends in a state
type: from some place on it reads `*state[T]`, on one line, up to its end. Nothing
asks that this place is the front. So a slice, a map, a channel or a function of
state pointers passes as well, with the parameter of the type that it ends in; and
a state type whose parameter has several lines does not pass, whatever is in it.

Of several such places the first one counts, which makes the parameter as long as
it can be.
-/

namespace Gsx

/-! ## State types in a text -/

namespace StateText

/-- A text reads `*state[T]` from some place on, on one line, up to its end. -/
structure EndsIn (stateType : String) (text front parameter : List Char) : Prop where
  text_eq : text = front ++ ('*' :: stateType.toList ++ '[' :: (parameter ++ [']']))
  parameter_ne_nil : parameter ≠ []
  one_line : '\n' ∉ parameter

/-- **The first state type at the end of a text**: no place further to the left will
do. -/
structure EndsFirstIn (stateType : String) (text front parameter : List Char) : Prop
    extends EndsIn stateType text front parameter where
  first : ∀ front' parameter', EndsIn stateType text front' parameter' →
    front.length ≤ front'.length

/-- Text with balanced brackets. -/
inductive IsBalanced : List Char → Prop
  | nil : IsBalanced []
  | other {c : Char} {rest : List Char} :
      c ∉ ['(', ')', '[', ']', '{', '}'] → IsBalanced rest → IsBalanced (c :: rest)
  | pair {opener closer : Char} {inner rest : List Char} :
      (opener, closer) ∈ [('(', ')'), ('[', ']'), ('{', '}')] →
      IsBalanced inner → IsBalanced rest → IsBalanced (opener :: inner ++ closer :: rest)

/-- **A state type**: `*state[T]` and nothing else, with balanced brackets. -/
structure IsStateType (stateType : String) (text parameter : List Char) : Prop where
  text_eq : text = '*' :: stateType.toList ++ '[' :: (parameter ++ [']'])
  parameter_ne_nil : parameter ≠ []
  balanced : IsBalanced parameter

section
variable {stateType : String} {text front parameter : List Char}

/-- What the test takes for a state type that makes up a whole text. -/
theorem wholeParameter?_eq_some_iff :
    wholeParameter? ('*' :: stateType.toList ++ ['[']) text = some parameter
      ↔ EndsIn stateType text [] parameter := by
  simp only [wholeParameter?, Option.bind_eq_bind, Option.bind_eq_some_iff, Text.after?_eq_some_iff]
  constructor
  · rintro ⟨rest, rfl, hrest⟩
    split at hrest
    · next htest =>
      simp only [Bool.and_eq_true, decide_eq_true_eq, Bool.not_eq_true', List.isEmpty_eq_false_iff,
        List.contains_eq_mem, decide_eq_false_iff_not] at htest
      obtain ⟨⟨hlast, hne⟩, hline⟩ := htest
      obtain ⟨value, rfl⟩ := List.getLast?_eq_some_iff.1 hlast
      rw [List.dropLast_concat] at hrest hne hline
      obtain rfl := Option.some.inj hrest
      exact ⟨by simp, hne, hline⟩
    · cases hrest
  · rintro ⟨rfl, hne, hline⟩
    refine ⟨parameter ++ [']'], by simp, ?_⟩
    rw [List.dropLast_concat, if_pos (by simp [hne, hline])]

/-- A state type at the end of a text, with one character more in front. -/
theorem endsIn_cons {c : Char} :
    EndsIn stateType (c :: text) (c :: front) parameter ↔ EndsIn stateType text front parameter :=
  ⟨fun h => ⟨(List.cons.inj h.text_eq).2, h.parameter_ne_nil, h.one_line⟩,
    fun h => ⟨congrArg (c :: ·) h.text_eq, h.parameter_ne_nil, h.one_line⟩⟩

/-- A parameter is settled by where its state type starts. -/
theorem EndsIn.unique {front' parameter' : List Char} (h : EndsIn stateType text front parameter)
    (h' : EndsIn stateType text front' parameter') (hlength : front.length = front'.length) :
    front = front' ∧ parameter = parameter' := by
  have heq := h.text_eq.symm.trans h'.text_eq
  obtain ⟨hfront, hrest⟩ := List.append_inj heq hlength
  refine ⟨hfront, ?_⟩
  simpa using hrest

/-- **The search finds the first state type** that the text ends in. -/
theorem parameterIn?_eq_some_iff :
    parameterIn? ('*' :: stateType.toList ++ ['[']) text = some parameter
      ↔ ∃ front, EndsFirstIn stateType text front parameter := by
  induction text with
  | nil =>
    refine ⟨fun h => (by cases h), ?_⟩
    rintro ⟨front, h⟩
    have hlength := congrArg List.length h.text_eq
    simp at hlength
  | cons c rest ih =>
    rw [parameterIn?]
    cases hwhole : wholeParameter? ('*' :: stateType.toList ++ ['[']) (c :: rest) with
    | some whole =>
      have hhere := wholeParameter?_eq_some_iff.1 hwhole
      rw [Option.orElse_eq_orElse, Option.orElse_eq_or, Option.some_or, Option.some.injEq]
      constructor
      · rintro rfl
        exact ⟨[], hhere, fun _ _ _ => Nat.zero_le _⟩
      · rintro ⟨front, h⟩
        have hnil : front.length = 0 := Nat.le_zero.1 (h.first _ _ hhere)
        exact (hhere.unique h.toEndsIn hnil.symm).2
    | none =>
      -- nothing starts here, so the first state type of the rest is that of the text
      have hnot : ∀ {front parameter}, EndsIn stateType (c :: rest) front parameter →
          ∃ front', front = c :: front' := fun {front parameter} h => by
        cases front with
        | nil => rw [wholeParameter?_eq_some_iff.2 h] at hwhole; cases hwhole
        | cons c' front' => exact ⟨front', by rw [(List.cons.inj h.text_eq).1]⟩
      rw [Option.orElse_eq_orElse, Option.orElse_eq_or, Option.none_or, ih]
      constructor
      · rintro ⟨front, h⟩
        refine ⟨c :: front, endsIn_cons.2 h.toEndsIn, fun front' parameter' h' => ?_⟩
        obtain ⟨front', rfl⟩ := hnot h'
        exact Nat.succ_le_succ (h.first _ _ (endsIn_cons.1 h'))
      · rintro ⟨front, h⟩
        obtain ⟨front, rfl⟩ := hnot h.toEndsIn
        refine ⟨front, endsIn_cons.1 h.toEndsIn, fun front' parameter' h' => ?_⟩
        exact Nat.le_of_succ_le_succ (h.first _ _ (endsIn_cons.2 h'))

end

end StateText

/-! ## Parameters -/

namespace StateVar

open StateText

variable {c : Config} {p : Param} {parameter : List Char}

/-- The variable that a parameter of a component is, if its state type has the given
parameter. -/
def ofTypeParameter (p : Param) (parameter : List Char) : StateVar :=
  ⟨p.name, String.ofList parameter, "", true⟩

/-- A parameter is state by the first state type that its type ends in. -/
theorem ofParam?_eq_some_iff {v : StateVar} :
    ofParam? c p = some v ↔ ∃ front parameter,
      EndsFirstIn c.stateType (Text.trim p.type).toList front parameter
        ∧ v = ofTypeParameter p parameter := by
  simp only [ofParam?, parameter?, Option.map_map, Option.map_eq_some_iff, Function.comp_apply,
    parameterIn?_eq_some_iff]
  constructor
  · rintro ⟨parameter, ⟨front, h⟩, rfl⟩
    exact ⟨front, parameter, h, rfl⟩
  · rintro ⟨front, parameter, h, rfl⟩
    exact ⟨parameter, ⟨front, h⟩, rfl⟩

theorem ofParam?_eq_ofTypeParameter_iff :
    ofParam? c p = some (ofTypeParameter p parameter) ↔
      ∃ front, EndsFirstIn c.stateType (Text.trim p.type).toList front parameter := by
  rw [ofParam?_eq_some_iff]
  constructor
  · rintro ⟨front, parameter', h, heq⟩
    obtain rfl : parameter = parameter' := by simpa [ofTypeParameter, String.ofList_inj] using heq
    exact ⟨front, h⟩
  · rintro ⟨front, h⟩
    exact ⟨front, parameter, h, rfl⟩

/-- The variables that are parameters come from the parameters alone. -/
theorem filter_isParameter_ofComponent (c : Config) (comp : Component) :
    (ofComponent c comp).filter (·.isParameter) = comp.params.filterMap (ofParam? c) := by
  rw [ofComponent, List.filter_append, List.filter_eq_self.2, List.filter_eq_nil_iff.2,
    List.append_nil]
  · intro v hv
    obtain ⟨code, -, hv⟩ := List.mem_flatMap.1 hv
    obtain ⟨d, -, rfl⟩ := List.mem_map.1 hv
    exact Bool.false_ne_true
  · intro v hv
    obtain ⟨p, -, hp⟩ := List.mem_filterMap.1 hv
    obtain ⟨front, parameter, -, rfl⟩ := ofParam?_eq_some_iff.1 hp
    rfl

/-- **The parameters that are state.** They are reported in order, each by the first
state type that its type ends in, with the parameter of that. So a parameter is
reported exactly if its type is a state type where two things hold of the type:
nothing stands in front of the first state type that it ends in, whose parameter has
balanced brackets; and if it is a state type, that is on one line. -/
theorem reported_by_end (c : Config) (comp : Component) :
    (ofComponent c comp).filter (·.isParameter) = comp.params.filterMap (ofParam? c)
      ∧ ∀ p : Param,
        (∀ v, ofParam? c p = some v ↔ ∃ front parameter,
          EndsFirstIn c.stateType (Text.trim p.type).toList front parameter
            ∧ v = ofTypeParameter p parameter)
        ∧ ((∀ parameter, ofParam? c p = some (ofTypeParameter p parameter)
              ↔ IsStateType c.stateType (Text.trim p.type).toList parameter)
          ↔ (∀ front parameter,
              EndsFirstIn c.stateType (Text.trim p.type).toList front parameter →
              front = [] ∧ IsBalanced parameter)
            ∧ ∀ parameter, IsStateType c.stateType (Text.trim p.type).toList parameter →
              '\n' ∉ parameter) := by
  refine ⟨filter_isParameter_ofComponent c comp, fun p => ⟨fun v => ofParam?_eq_some_iff, ?_⟩⟩
  simp only [ofParam?_eq_ofTypeParameter_iff]
  constructor
  · refine fun hiff => ⟨fun front parameter h => ?_, fun parameter h => ?_⟩
    · have hstate := (hiff parameter).1 ⟨front, h⟩
      refine ⟨?_, hstate.balanced⟩
      have heq := h.text_eq.symm.trans hstate.text_eq
      exact List.append_left_eq_self.1 heq
    · obtain ⟨front, h⟩ := (hiff parameter).2 h
      exact h.one_line
  · refine fun ⟨hends, hline⟩ parameter => ⟨?_, fun h => ⟨[], ?_⟩⟩
    · rintro ⟨front, h⟩
      obtain ⟨rfl, hbalanced⟩ := hends front parameter h
      exact ⟨h.text_eq, h.parameter_ne_nil, hbalanced⟩
    · exact ⟨⟨h.text_eq, h.parameter_ne_nil, hline parameter h⟩, fun _ _ _ => Nat.zero_le _⟩

/-- A slice of state pointers passes for state. -/
example : ofParam? .standard ⟨"rows", "[]*tui.State[int]", ⟨1, 1⟩⟩
    = some ⟨"rows", "int", "", true⟩ := by decide

end StateVar

end Gsx
