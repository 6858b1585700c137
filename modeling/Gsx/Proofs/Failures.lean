import Mathlib.Data.List.Forall2
/-!
# Computations that may fail

What a computation has gone through, told by how it ended. A walk through a list
that succeeds has a result for each member (`mapM_eq_ok_iff`), and all that is
said of its results comes from there; one that fails does so at a member.
-/

namespace Gsx

variable {α β γ ε : Type} {e : ε} {xs : List α} {ys : List β}

/-! ## One step after another -/

theorem bind_eq_ok_iff {x : Except ε α} {f : α → Except ε β} {b : β} :
    x >>= f = .ok b ↔ ∃ a, x = .ok a ∧ f a = .ok b := by
  cases x with
  | error e =>
    refine iff_of_false nofun ?_
    rintro ⟨_, h, -⟩
    cases h
  | ok a =>
    refine ⟨fun h => ⟨a, rfl, h⟩, ?_⟩
    rintro ⟨_, h, hf⟩
    cases h
    exact hf

theorem bind_eq_error_iff {x : Except ε α} {f : α → Except ε β} :
    x >>= f = .error e ↔ x = .error e ∨ ∃ a, x = .ok a ∧ f a = .error e := by
  cases x with
  | error e' =>
    refine ⟨fun h => .inl (congrArg Except.error (Except.error.inj h)), ?_⟩
    rintro (h | ⟨_, h, -⟩)
    · exact congrArg Except.error (Except.error.inj h)
    · cases h
  | ok a =>
    refine ⟨fun h => .inr ⟨a, rfl, h⟩, ?_⟩
    rintro (h | ⟨_, h, hf⟩)
    · cases h
    · cases h
      exact hf

/-! ## Walks through a list -/

/-- A fold succeeds where every step of it does. -/
theorem foldlM_ok {f : β → α → Except ε β} (h : ∀ x ∈ xs, ∀ b, ∃ b', f b x = .ok b') (b : β) :
    ∃ b', xs.foldlM f b = .ok b' := by
  induction xs generalizing b with
  | nil => exact ⟨b, rfl⟩
  | cons x xs ih =>
    obtain ⟨b', hb'⟩ := h x List.mem_cons_self b
    obtain ⟨b'', hb''⟩ := ih (fun y hy => h y (List.mem_cons_of_mem _ hy)) b'
    exact ⟨b'', List.foldlM_cons.trans (bind_eq_ok_iff.2 ⟨b', hb', hb''⟩)⟩

/-- And one that fails does so at one of its steps. -/
theorem error_of_foldlM {f : β → α → Except ε β} {b : β} (h : xs.foldlM f b = .error e) :
    ∃ x ∈ xs, ∃ b, f b x = .error e := by
  induction xs generalizing b with
  | nil => cases h
  | cons x xs ih =>
    rw [List.foldlM_cons] at h
    rcases bind_eq_error_iff.1 h with hx | ⟨b', -, hxs⟩
    · exact ⟨x, List.mem_cons_self, b, hx⟩
    · obtain ⟨x', hx', hfails⟩ := ih hxs
      exact ⟨x', List.mem_cons_of_mem _ hx', hfails⟩

/-- **A walk that succeeds** has done so member by member. -/
theorem mapM_eq_ok_iff {f : α → Except ε β} :
    xs.mapM f = .ok ys ↔ List.Forall₂ (fun x y => f x = .ok y) xs ys := by
  induction xs generalizing ys with
  | nil =>
    rw [List.forall₂_nil_left_iff]
    exact ⟨fun h => (Except.ok.inj h).symm, fun h => h ▸ rfl⟩
  | cons x xs ih =>
    rw [List.mapM_cons, List.forall₂_cons_left_iff, bind_eq_ok_iff]
    refine exists_congr fun y => ?_
    rw [bind_eq_ok_iff, exists_and_left]
    refine and_congr_right fun _ => exists_congr fun ys' => and_congr ih ?_
    exact ⟨fun h => (Except.ok.inj h).symm, fun h => h ▸ rfl⟩

/-- It succeeds where every step does. -/
theorem mapM_ok {f : α → Except ε β} (h : ∀ x ∈ xs, ∃ y, f x = .ok y) :
    ∃ ys, xs.mapM f = .ok ys := by
  induction xs with
  | nil => exact ⟨[], rfl⟩
  | cons x xs ih =>
    obtain ⟨y, hy⟩ := h x List.mem_cons_self
    obtain ⟨ys, hys⟩ := ih fun z hz => h z (List.mem_cons_of_mem _ hz)
    exact ⟨y :: ys, mapM_eq_ok_iff.2 (.cons hy (mapM_eq_ok_iff.1 hys))⟩

/-- And gives the results of its steps. -/
theorem mapM_eq_map {f : α → Except ε β} {g : α → β} (h : ∀ x ∈ xs, f x = .ok (g x)) :
    xs.mapM f = .ok (xs.map g) := by
  rw [mapM_eq_ok_iff, List.forall₂_map_right_iff]
  exact List.forall₂_same.2 h

/-- If it has succeeded, every step has. -/
theorem ok_of_mapM {f : α → Except ε β} (h : xs.mapM f = .ok ys) : ∀ x ∈ xs, ∃ y, f x = .ok y := by
  intro x hx
  induction mapM_eq_ok_iff.1 h with
  | nil => cases hx
  | cons hy hrest ih =>
    rcases List.mem_cons.1 hx with rfl | hx
    · exact ⟨_, hy⟩
    · exact ih (mapM_eq_ok_iff.2 hrest) hx

/-- Each of its results is that of one of its steps. -/
theorem exists_of_mapM {f : α → Except ε β} (h : xs.mapM f = .ok ys) :
    ∀ y ∈ ys, ∃ x, f x = .ok y := by
  intro y hy
  induction mapM_eq_ok_iff.1 h with
  | nil => cases hy
  | cons hx hrest ih =>
    rcases List.mem_cons.1 hy with rfl | hy
    · exact ⟨_, hx⟩
    · exact ih (mapM_eq_ok_iff.2 hrest) hy

/-- A walk that fails does so at one of its steps. -/
theorem error_of_mapM {f : α → Except ε β} (h : xs.mapM f = .error e) : ∃ x ∈ xs, f x = .error e := by
  induction xs with
  | nil => cases h
  | cons x xs ih =>
    rw [List.mapM_cons] at h
    rcases bind_eq_error_iff.1 h with hx | ⟨y, -, hrest⟩
    · exact ⟨x, List.mem_cons_self, hx⟩
    · rcases bind_eq_error_iff.1 hrest with hxs | ⟨ys, -, hpure⟩
      · obtain ⟨x', hx', hfails⟩ := ih hxs
        exact ⟨x', List.mem_cons_of_mem _ hx', hfails⟩
      · cases hpure

/-- What a step that keeps some of its results keeps, result by result. -/
theorem filter_map_of_mapM {f : α → Except ε β} {p : α → Bool} {q : β → Bool} {k : β → γ}
    {h : α → γ} (hrun : xs.mapM f = .ok ys)
    (hstep : ∀ x y, f x = .ok y → q y = p x ∧ (p x = true → k y = h x)) :
    (ys.filter q).map k = (xs.filter p).map h := by
  induction mapM_eq_ok_iff.1 hrun with
  | nil => rfl
  | @cons x y xs ys hx hrest ih =>
    obtain ⟨hkeep, hsame⟩ := hstep x y hx
    have ih := ih (mapM_eq_ok_iff.2 hrest)
    by_cases hp : p x = true
    · rw [List.filter_cons_of_pos hp, List.filter_cons_of_pos (hkeep.trans hp), List.map_cons,
        List.map_cons, hsame hp, ih]
    · rw [List.filter_cons_of_neg hp, List.filter_cons_of_neg (by rwa [hkeep]), ih]

/-- What is made of the results of a walk. -/
theorem map_of_mapM {f : α → Except ε β} {k : β → γ} {h : α → γ} (hrun : xs.mapM f = .ok ys)
    (hstep : ∀ x y, f x = .ok y → k y = h x) : ys.map k = xs.map h := by
  have hall := filter_map_of_mapM (p := fun _ => true) (q := fun _ => true) hrun
    fun x y hy => ⟨rfl, fun _ => hstep x y hy⟩
  simpa only [List.filter_true] using hall

end Gsx
