import Gsx.Proofs.Grammar.Heads
/-!
# Rounds of a repetition

A repetition whose rounds move to the right never comes to its bound, so how many
rounds are allowed does not matter: behind a round that says that another one
follows it goes on as it would have begun there (`Parse.run_repeated_again`).
-/

namespace Gsx

open TokenStream

namespace Parse

variable {α : Type} {b m : Nat} {s s' : TokenStream}

/-- How many rounds are allowed does not matter, if there are enough. -/
theorem run_repeatUpTo_eq {round : Parse (Round α)}
    (h : Moves (fun _ => True) b round fun r => r.again) (fuel fuel' : Nat) (hs : s.InOrder)
    (hb : s.remaining ≤ b) (hfuel : s.remaining < fuel) (hfuel' : s.remaining < fuel') :
    (repeatUpTo round fuel).run s = (repeatUpTo round fuel').run s := by
  induction fuel generalizing s fuel' with
  | zero => exact absurd hfuel (Nat.not_lt_zero _)
  | succ fuel ih =>
    obtain ⟨fuel', rfl⟩ : ∃ k, fuel' = k + 1 := ⟨fuel' - 1, by omega⟩
    cases hagain : (round.run s).1.again with
    | false => rw [repeatUpTo_last fuel hagain, repeatUpTo_last fuel' hagain]
    | true =>
      obtain ⟨hpath, hlt⟩ := h s hs hb trivial
      have hless := (hpath.inOrder hs).remaining_lt (hpath.source_eq hs) (hlt hagain)
      rw [repeatUpTo_again fuel hagain, repeatUpTo_again fuel' hagain,
        ih fuel' (hpath.inOrder hs) (by omega) (by omega) (by omega)]

/-- **A repetition goes on** behind a round that says so as it would have begun there. -/
theorem run_repeated_again {round : Parse (Round α)}
    (h : Moves (fun _ => True) b round fun r => r.again) (hs : s.InOrder) (hb : s.remaining ≤ b)
    (hagain : (round.run s).1.again = true) :
    (repeated round).run s
      = ((round.run s).1.items ++ ((repeated round).run (round.run s).2).1,
        ((repeated round).run (round.run s).2).2) := by
  obtain ⟨hpath, hlt⟩ := h s hs hb trivial
  have hs' := hpath.inOrder hs
  have hless := hs'.remaining_lt (hpath.source_eq hs) (hlt hagain)
  rw [run_repeated, rounds, repeatUpTo_again _ hagain, run_repeated,
    run_repeatUpTo_eq h s.lexer.source.length (round.run s).2.rounds hs' (by omega) ?_
      (remaining_lt_rounds _)]
  have := s.remaining_lt_rounds
  rw [rounds] at this
  omega

theorem run_repeated_more {round : Parse (Round α)}
    (h : Moves (fun _ => True) b round fun r => r.again) (hs : s.InOrder) (hb : s.remaining ≤ b)
    {items : List α} (hmore : round.run s = (Round.more items, s')) :
    (repeated round).run s
      = (items ++ ((repeated round).run s').1, ((repeated round).run s').2) := by
  have hgoes := run_repeated_again h hs hb (by rw [hmore]; rfl)
  rwa [hmore] at hgoes

/-- And it ends behind a round that says so. -/
theorem run_repeated_of_not_again {round : Parse (Round α)}
    (hlast : (round.run s).1.again = false) :
    (repeated round).run s = ((round.run s).1.items, (round.run s).2) :=
  repeatUpTo_last _ hlast

theorem run_repeated_last {round : Parse (Round α)} {items : List α}
    (hlast : round.run s = (Round.last items, s')) : (repeated round).run s = (items, s') := by
  have hagain : (round.run s).1.again = false := by rw [hlast]; rfl
  have hends := run_repeated_of_not_again hagain
  rwa [hlast] at hends

/-- Some rounds that all go on keep a stream in order, with no more left to read. -/
theorem inOrder_roundsOf {round : Parse (Round α)}
    (h : Moves (fun _ => True) b round fun r => r.again) (hs : s.InOrder) (hb : s.remaining ≤ b) :
    ((roundsOf round m).run s).2.InOrder
      ∧ ((roundsOf round m).run s).2.remaining ≤ s.remaining := by
  induction m generalizing s with
  | zero => exact ⟨hs, le_rfl⟩
  | succ m ih =>
    obtain ⟨hpath, -⟩ := h s hs hb trivial
    have hle := hpath.remaining_le hs
    obtain ⟨horder, hrest⟩ := ih (hpath.inOrder hs) (hle.trans hb)
    exact ⟨horder, hrest.trans hle⟩

/-- **A repetition is its first rounds**, if each of them says that another one
follows, and the repetition from there. -/
theorem run_repeated_roundsOf {round : Parse (Round α)}
    (h : Moves (fun _ => True) b round fun r => r.again) (hs : s.InOrder) (hb : s.remaining ≤ b)
    (hagain : ∀ r ∈ ((roundsOf round m).run s).1, r.again = true) :
    (repeated round).run s
      = (((roundsOf round m).run s).1.flatMap Round.items
          ++ ((repeated round).run ((roundsOf round m).run s).2).1,
        ((repeated round).run ((roundsOf round m).run s).2).2) := by
  induction m generalizing s with
  | zero => rfl
  | succ m ih =>
    rw [run_roundsOf_succ] at hagain ⊢
    obtain ⟨hfirst, hrest⟩ := List.forall_mem_cons.1 hagain
    obtain ⟨hpath, -⟩ := h s hs hb trivial
    rw [run_repeated_again h hs hb hfirst,
      ih (hpath.inOrder hs) ((hpath.remaining_le hs).trans hb) hrest, List.flatMap_cons,
      List.append_assoc]

end Parse

end Gsx
