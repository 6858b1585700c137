import Mathlib.Data.List.TakeWhile
import Gsx.Proofs.Numerals
/-!
# Stretches

What the runs of a text are, told without the scan that finds them: a run is a
stretch of characters of one class that cannot be made longer at either end. The
scan finds every such stretch once, from left to right.
-/

namespace Gsx.Text

/-- **A maximal stretch** of characters that satisfy `p`, at its place: what
stands in front of it does not end in such a character, and what stands behind it
does not begin with one. -/
structure IsStretch (p : Char → Bool) (cs : List Char) (r : Run) : Prop where
  ne_nil : r.text ≠ []
  all : ∀ c ∈ r.text, p c = true
  stands : ∃ before after, cs = before ++ (r.text ++ after) ∧ r.start = before.length
    ∧ (∀ c, before.getLast? = some c → p c = false)
    ∧ ∀ c, after.head? = some c → p c = false

/-- The run with another start. -/
def Run.shifted (k : Nat) (r : Run) : Run :=
  { r with start := k + r.start }

section
variable {p : Char → Bool} {offset : Nat} {c : Char} {cs rest : List Char} {r : Run}

/-! ## The scan, run by run -/

theorem le_start_of_mem_runsFrom (h : r ∈ runsFrom p offset cs) : offset ≤ r.start := by
  obtain ⟨k, hstart, -⟩ := prefix_of_mem_runsFrom h
  omega

/-- A character in front of runs that start further on is a run of its own. -/
theorem Run.push_of_lt {rs : List Run} (h : ∀ r ∈ rs, offset + 1 < r.start) :
    Run.push offset c rs = ⟨offset, [c]⟩ :: rs := by
  cases rs with
  | nil => rfl
  | cons first more =>
    have hne : first.start ≠ offset + 1 := by
      have := h first List.mem_cons_self
      omega
    rw [Run.push, if_neg hne]

theorem runsFrom_cons_of_neg (h : p c = false) :
    runsFrom p offset (c :: rest) = runsFrom p (offset + 1) rest := by
  rw [runsFrom, if_neg (by rw [h]; exact Bool.false_ne_true)]

/-- **The first run** takes all characters of its class, and the scan goes on
behind it. -/
theorem runsFrom_cons_of_pos (h : p c = true) :
    runsFrom p offset (c :: rest) = ⟨offset, c :: rest.takeWhile p⟩
      :: runsFrom p (offset + 1 + (rest.takeWhile p).length) (rest.dropWhile p) := by
  induction rest generalizing offset c with
  | nil =>
    rw [runsFrom, if_pos h]
    rfl
  | cons d rest ih =>
    rw [runsFrom, if_pos h]
    by_cases hd : p d = true
    · -- the next character opens a run right behind this one
      rw [ih hd, Run.push, if_pos rfl, List.takeWhile_cons_of_pos hd, List.dropWhile_cons_of_pos hd,
        List.length_cons]
      have hend : offset + 1 + 1 + (rest.takeWhile p).length
          = offset + 1 + ((rest.takeWhile p).length + 1) := by omega
      rw [hend]
    · have hd' : p d = false := by simpa using hd
      rw [List.takeWhile_cons_of_neg hd, List.dropWhile_cons_of_neg hd, List.length_nil]
      refine Run.push_of_lt fun r hr => ?_
      rw [runsFrom_cons_of_neg hd'] at hr
      have := le_start_of_mem_runsFrom hr
      omega

/-- What the first run leaves does not begin with a character of the class. -/
theorem eq_false_of_head?_dropWhile {d : Char} (h : (rest.dropWhile p).head? = some d) :
    p d = false := by
  have := List.head?_dropWhile_not p rest
  rw [h] at this
  simpa using this

/-- **Induction along the runs**: a text begins with a character that is in none of
them, or with one of them and all of its characters. -/
@[elab_as_elim]
theorem runs_induction (p : Char → Bool) {motive : List Char → Prop} (nil : motive [])
    (skip : ∀ c rest, p c = false → motive rest → motive (c :: rest))
    (run : ∀ c rest, p c = true → motive (rest.dropWhile p) → motive (c :: rest))
    (cs : List Char) : motive cs := by
  induction hlength : cs.length using Nat.strong_induction_on generalizing cs with
  | _ n ih =>
    cases cs with
    | nil => exact nil
    | cons c rest =>
      rw [List.length_cons] at hlength
      cases hc : p c with
      | false => exact skip c rest hc (ih rest.length (by omega) rest rfl)
      | true =>
        have hle := (List.dropWhile_suffix (l := rest) p).length_le
        exact run c rest hc (ih _ (by omega) (rest.dropWhile p) rfl)

/-- The runs of a text that starts further on start further on. -/
theorem runsFrom_add (k : Nat) :
    runsFrom p (k + offset) cs = (runsFrom p offset cs).map (Run.shifted k) := by
  induction cs using runs_induction p generalizing offset with
  | nil => rfl
  | skip c rest hc ih => rw [runsFrom_cons_of_neg hc, runsFrom_cons_of_neg hc, Nat.add_assoc, ih]
  | run c rest hc ih =>
    have hend : k + offset + 1 + (rest.takeWhile p).length
        = k + (offset + 1 + (rest.takeWhile p).length) := by omega
    rw [runsFrom_cons_of_pos hc, runsFrom_cons_of_pos hc, List.map_cons, ← ih, hend]
    rfl

/-- **The runs go from left to right**, with something between each and the next. -/
theorem pairwise_runsFrom (p : Char → Bool) (offset : Nat) (cs : List Char) :
    (runsFrom p offset cs).Pairwise fun r r' => r.start + r.text.length < r'.start := by
  induction cs using runs_induction p generalizing offset with
  | nil => exact .nil
  | skip c rest hc ih =>
    rw [runsFrom_cons_of_neg hc]
    exact ih _
  | run c rest hc ih =>
    rw [runsFrom_cons_of_pos hc]
    refine List.pairwise_cons.2 ⟨fun r hr => ?_, ih _⟩
    show offset + (c :: rest.takeWhile p).length < r.start
    rw [List.length_cons]
    -- the first character behind the run is of no run
    cases hback : rest.dropWhile p with
    | nil =>
      rw [hback] at hr
      exact absurd hr List.not_mem_nil
    | cons d back =>
      have hd : p d = false := eq_false_of_head?_dropWhile (by rw [hback]; rfl)
      rw [hback, runsFrom_cons_of_neg hd] at hr
      have := le_start_of_mem_runsFrom hr
      omega

/-- **Each character of the class is in a run.** -/
theorem exists_mem_runsFrom {i : Nat} {x : Char} (h : cs[i]? = some x) (hx : p x = true) :
    ∃ r ∈ runsFrom p offset cs, r.start ≤ offset + i ∧ offset + i < r.start + r.text.length := by
  induction cs using runs_induction p generalizing offset i with
  | nil => cases h
  | skip c rest hc ih =>
    rw [runsFrom_cons_of_neg hc]
    cases i with
    | zero =>
      obtain rfl := Option.some.inj h
      rw [hc] at hx
      cases hx
    | succ i =>
      rw [List.getElem?_cons_succ] at h
      obtain ⟨r, hr, hin⟩ := @ih (offset + 1) _ h
      exact ⟨r, hr, by omega⟩
  | run c rest hc ih =>
    rw [runsFrom_cons_of_pos hc]
    by_cases hi : i < (c :: rest.takeWhile p).length
    · exact ⟨_, List.mem_cons_self, Nat.le_add_right _ _, Nat.add_lt_add_left hi _⟩
    · rw [← List.takeWhile_append_dropWhile (p := p) (l := rest), ← List.cons_append,
        List.getElem?_append_right (Nat.le_of_not_lt hi)] at h
      rw [List.length_cons] at h hi
      obtain ⟨r, hr, hin⟩ := @ih (offset + 1 + (rest.takeWhile p).length) _ h
      exact ⟨r, List.mem_cons_of_mem _ hr, by omega⟩

/-! ## Runs and stretches -/

/-- A stretch of a list that begins with another character begins further on. -/
theorem isStretch_cons_of_neg (h : p c = false) :
    IsStretch p (c :: rest) r ↔ ∃ r', IsStretch p rest r' ∧ r = r'.shifted 1 := by
  obtain ⟨start, text⟩ := r
  constructor
  · rintro ⟨hne, hall, before, after, hsplit, rfl, hbefore, hafter⟩
    cases before with
    | nil =>
      -- then the stretch would begin with the character itself
      obtain ⟨d, text, rfl⟩ := List.exists_cons_of_ne_nil hne
      obtain rfl : c = d := (List.cons.inj hsplit).1
      rw [hall c List.mem_cons_self] at h
      cases h
    | cons d before =>
      obtain ⟨rfl, hrest⟩ := List.cons.inj hsplit
      refine ⟨⟨before.length, text⟩, ⟨hne, hall, before, after, hrest, rfl, ?_, hafter⟩, ?_⟩
      · intro e he
        refine hbefore e ?_
        rw [List.getLast?_cons, he]
        rfl
      · rw [Run.shifted, List.length_cons, Nat.add_comm]
  · rintro ⟨r', ⟨hne, hall, before, after, hsplit, hstart, hbefore, hafter⟩, heq⟩
    obtain ⟨rfl, rfl⟩ := Run.mk.inj heq
    refine ⟨hne, hall, c :: before, after, by rw [hsplit]; rfl, ?_, fun d hd => ?_, hafter⟩
    · show 1 + r'.start = _
      rw [hstart, List.length_cons, Nat.add_comm]
    · rw [List.getLast?_cons] at hd
      cases hlast : before.getLast? with
      | none =>
        rw [hlast] at hd
        exact Option.some.inj hd ▸ h
      | some e =>
        rw [hlast] at hd
        exact hbefore d (hlast.trans hd)

/-- Two ways to begin a list with characters of one class that end where the class
ends begin it alike. -/
theorem eq_of_append_of_ends {xs ys us vs : List Char} (hsplit : xs ++ us = ys ++ vs)
    (hxs : ∀ c ∈ xs, p c = true) (hys : ∀ c ∈ ys, p c = true)
    (hus : ∀ c, us.head? = some c → p c = false) (hvs : ∀ c, vs.head? = some c → p c = false) :
    xs = ys ∧ us = vs := by
  have htake : ∀ {as bs : List Char}, (∀ c ∈ as, p c = true) →
      (∀ c, bs.head? = some c → p c = false) → (as ++ bs).takeWhile p = as := by
    intro as bs has hbs
    rw [List.takeWhile_append_of_pos has]
    cases bs with
    | nil => rw [List.takeWhile_nil, List.append_nil]
    | cons b bs =>
      rw [List.takeWhile_cons_of_neg (by rw [hbs b rfl]; exact Bool.false_ne_true),
        List.append_nil]
  have hsame : xs = ys := by
    rw [← htake hxs hus, hsplit, htake hys hvs]
  subst hsame
  exact ⟨rfl, List.append_cancel_left hsplit⟩

/-- What is in front of a stretch, if it reaches into some characters of the class
at the front of the list, has all of them. -/
theorem exists_append_of_prefix {front before text us after : List Char} (hfront : front ≠ [])
    (hall : ∀ c ∈ front, p c = true) (hbefore : before ≠ [])
    (hlast : ∀ c, before.getLast? = some c → p c = false)
    (hsplit : front ++ us = before ++ (text ++ after)) :
    ∃ more, before = front ++ more ∧ more ≠ [] := by
  rcases List.append_eq_append_iff.1 hsplit with ⟨more, rfl, -⟩ | ⟨more, rfl, -⟩
  · refine ⟨more, rfl, ?_⟩
    rintro rfl
    rw [List.append_nil] at hlast
    have hend := hlast _ (List.getLast?_eq_some_getLast hfront)
    rw [hall _ (List.getLast_mem hfront)] at hend
    cases hend
  · have hend := hlast _ (List.getLast?_eq_some_getLast hbefore)
    rw [hall _ (List.mem_append_left _ (List.getLast_mem hbefore))] at hend
    cases hend

/-- **The first stretch** of a list that begins with a character of the class, and
those behind it. -/
theorem isStretch_append {front back : List Char} (hfront : front ≠ [])
    (hall : ∀ c ∈ front, p c = true) (hback : ∀ c, back.head? = some c → p c = false) :
    IsStretch p (front ++ back) r
      ↔ r = ⟨0, front⟩ ∨ ∃ r', IsStretch p back r' ∧ r = r'.shifted front.length := by
  obtain ⟨start, text⟩ := r
  constructor
  · rintro ⟨hne, htext, before, after, hsplit, rfl, hbefore, hafter⟩
    by_cases hnil : before = []
    · subst hnil
      rw [List.nil_append] at hsplit
      obtain ⟨heq, -⟩ := eq_of_append_of_ends hsplit hall htext hback hafter
      exact .inl (congrArg (Run.mk 0) heq.symm)
    · obtain ⟨more, rfl, hmore⟩ := exists_append_of_prefix hfront hall hnil hbefore hsplit
      rw [List.append_assoc] at hsplit
      refine .inr ⟨⟨more.length, text⟩, ⟨hne, htext, more, after,
        List.append_cancel_left hsplit, rfl, fun c hc => hbefore c ?_, hafter⟩, ?_⟩
      · rw [List.getLast?_append, hc]
        rfl
      · rw [Run.shifted, List.length_append]
  · rintro (heq | ⟨r', ⟨hne, htext, before, after, hsplit, hstart, hbefore, hafter⟩, heq⟩)
    · obtain ⟨rfl, rfl⟩ := Run.mk.inj heq
      exact ⟨hfront, hall, [], back, rfl, rfl, nofun, hback⟩
    · obtain ⟨rfl, rfl⟩ := Run.mk.inj heq
      refine ⟨hne, htext, front ++ before, after, ?_, ?_, fun c hc => ?_, hafter⟩
      · rw [hsplit, List.append_assoc]
      · show front.length + r'.start = _
        rw [hstart, List.length_append]
      · cases hlast : before.getLast? with
        | none =>
          -- then the stretch would stand at the front of the rest
          obtain rfl := List.getLast?_eq_none_iff.1 hlast
          obtain ⟨d, more, hmore⟩ := List.exists_cons_of_ne_nil hne
          have hhead : back.head? = some d := by rw [hsplit, hmore]; rfl
          have hd := hback d hhead
          rw [htext d (hmore ▸ List.mem_cons_self)] at hd
          cases hd
        | some d =>
          rw [List.getLast?_append, hlast] at hc
          exact hbefore c (hlast.trans hc)

/-- If the runs of a text are its stretches, those of the text further on are these
further on. -/
theorem mem_runsFrom_of_iff {k : Nat} (h : ∀ {r}, r ∈ runsFrom p 0 cs ↔ IsStretch p cs r) :
    r ∈ runsFrom p k cs ↔ ∃ r', IsStretch p cs r' ∧ r = r'.shifted k := by
  rw [← Nat.add_zero k, runsFrom_add k, List.mem_map]
  exact exists_congr fun r' => and_congr h eq_comm

/-- **The runs of a text are its maximal stretches.** -/
theorem mem_runsFrom_iff : r ∈ runsFrom p 0 cs ↔ IsStretch p cs r := by
  induction cs using runs_induction p generalizing r with
  | nil =>
    refine iff_of_false List.not_mem_nil ?_
    rintro ⟨hne, -, before, after, hsplit, -⟩
    have hnil := List.append_eq_nil_iff.1 hsplit.symm
    exact hne (List.append_eq_nil_iff.1 hnil.2).1
  | skip c rest hc ih => rw [runsFrom_cons_of_neg hc, mem_runsFrom_of_iff ih, isStretch_cons_of_neg hc]
  | run c rest hc ih =>
    have hsplit : c :: rest = (c :: rest.takeWhile p) ++ rest.dropWhile p := by
      rw [List.cons_append, List.takeWhile_append_dropWhile]
    have hall : ∀ d ∈ c :: rest.takeWhile p, p d = true := by
      intro d hd
      rcases List.mem_cons.1 hd with rfl | hd
      · exact hc
      · exact List.mem_takeWhile_imp hd
    have hback : ∀ d, (rest.dropWhile p).head? = some d → p d = false :=
      fun d => eq_false_of_head?_dropWhile
    rw [runsFrom_cons_of_pos hc, List.mem_cons, mem_runsFrom_of_iff ih, hsplit,
      isStretch_append (List.cons_ne_nil _ _) hall hback]
    rw [List.length_cons, Nat.zero_add, Nat.add_comm 1]

end

end Gsx.Text
