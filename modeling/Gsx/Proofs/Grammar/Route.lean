import Gsx.Proofs.Grammar.Following
import Gsx.Proofs.Lexer.Scanners
/-!
# Routes through a source

What reading goes over, told without the readers: single tokens, stretches of
Go that are taken as they stand, and text between braces. A route leads from
one place of the source to another, and each of its items starts where the one
before has left off. Behind braces the tokens are read anew from the closing
one, so what a token is may depend on the way to it.

A route may also pass a fault, which takes up no place. The items that take up
something start further and further to the right.
-/

namespace Gsx

/-- **What a route goes over.** -/
inductive Item where
  /-- A token, and the one behind it. -/
  | token (t next : Token)
  /-- A stretch of the source that is taken as it stands, from its first token
  on. -/
  | capture (first : Token) (text : List Char)
  /-- The text between braces, and the token at the opening one. -/
  | braces (first : Token) (text : List Char)
  /-- Something that was reported. -/
  | fault

namespace Item

/-- Whether behind an item the tokens are those of the lexer in front of it. -/
def isPlain : Item → Bool
  | .braces _ _ => false
  | _ => true

/-- The token at which an item starts that takes up something. -/
def first? : Item → Option Token
  | .token t _ => if t.kind = .endOfInput then none else some t
  | .capture first text => if text = [] then none else some first
  | .braces first _ => some first
  | .fault => none

end Item

open Lexer

/-- **A route**, from where one lexer stands to where another does. A capture
takes up the tokens that start in front of its end. -/
inductive Route : Lexer → List Item → Lexer → Prop
  | nil (l : Lexer) : Route l [] l
  | token {l m : Lexer} {is : List Item} :
      Route (after 1 l) is m → Route l (.token (l.token 0) (l.token 1) :: is) m
  | capture {l m : Lexer} {is : List Item} (n stop : Nat)
      (inside : ∀ i < n, (l.token i).start < stop ∨ (l.token i).kind = .endOfInput)
      (behind : stop ≤ (l.token n).start) :
      Route (after n l) is m →
      Route l (.capture (l.token 0) (l.slice (l.token 0).start stop) :: is) m
  | braces {l behind m : Lexer} {is : List Item} {rest : List Char} {length : Nat}
      (opening : l.source.drop (l.token 0).start = '{' :: rest)
      (closing : Braces.closing? rest = some length)
      (source : behind.source = l.source)
      (cursor : behind.cursor
        = (Cursor.start l.source).advance ((l.token 0).start + length + 2)) :
      Route behind is m → Route l (.braces (l.token 0) (rest.take length) :: is) m
  | fault {l m : Lexer} {is : List Item} : Route l is m → Route l (.fault :: is) m

/-! ## The tokens of a source -/

namespace Lexer

variable {l : Lexer}

theorem reads_token (h : l.cursor.IsIn l.source) (n : Nat) :
    (after n l).Reads (l.token n) (after (n + 1) l) := by
  obtain ⟨hsource, hin⟩ := isIn_after h n
  rw [after_succ]
  exact reads_next (hsource ▸ hin)

theorem start_token_le (h : l.cursor.IsIn l.source) (n : Nat) :
    (l.token n).start ≤ (l.token (n + 1)).start :=
  (reads_token h n).start_le.trans (reads_token h (n + 1)).le_start

theorem start_token_lt (h : l.cursor.IsIn l.source) {n : Nat}
    (hthere : (l.token n).kind ≠ .endOfInput) : (l.token n).start < (l.token (n + 1)).start :=
  ((reads_token h n).start_lt hthere).trans_le (reads_token h (n + 1)).le_start

/-- **Tokens stand in a row.** -/
theorem start_token_mono (h : l.cursor.IsIn l.source) {m n : Nat} (hle : m ≤ n) :
    (l.token m).start ≤ (l.token n).start := by
  induction n, hle using Nat.le_induction with
  | base => exact le_rfl
  | succ n _ ih => exact ih.trans (start_token_le h n)

theorem start_token_lt_of_lt (h : l.cursor.IsIn l.source) {m n : Nat} (hlt : m < n)
    (hthere : (l.token m).kind ≠ .endOfInput) : (l.token m).start < (l.token n).start :=
  (start_token_lt h hthere).trans_le (start_token_mono h hlt)

/-- The position of a token is that of its start. -/
theorem position_token (h : l.cursor.IsIn l.source) {n : Nat}
    (hlt : (l.token n).start < l.source.length) :
    (l.token n).position = .ofOffset l.source (l.token n).start := by
  obtain ⟨hsource, hin⟩ := isIn_after h n
  -- of the comments before it a token knows nothing
  have hplaced : ({ after n l with pending := [] } : Lexer).Placed l.source :=
    ⟨hsource, hsource ▸ hin, nofun⟩
  have htoken : ({ after n l with pending := [] } : Lexer).next.1 = l.token n :=
    (next_congr (m := { after n l with pending := [] }) (l := after n l) rfl).1
  have hisIn := hplaced.next.1
  rw [htoken] at hisIn
  exact hisIn.position_eq hlt

/-- A token that is there starts inside the source. -/
theorem start_token_lt_length (h : l.cursor.IsIn l.source) {n : Nat}
    (hthere : (l.token n).kind ≠ .endOfInput) : (l.token n).start < l.source.length := by
  obtain ⟨hsource, hin⟩ := isIn_after h (n + 1)
  exact ((reads_token h n).start_lt hthere).trans_le hin.offset_le

theorem start_token_le_length (h : l.cursor.IsIn l.source) (n : Nat) :
    (l.token n).start ≤ l.source.length := by
  obtain ⟨hsource, hin⟩ := isIn_after h (n + 1)
  exact (reads_token h n).start_le.trans hin.offset_le

/-- The first tokens, each with the one behind it. -/
def passed (l : Lexer) (n : Nat) : List Item :=
  (List.range n).map fun i => .token (l.token i) (l.token (i + 1))

theorem passed_succ (l : Lexer) (n : Nat) :
    l.passed (n + 1) = l.passed n ++ [.token (l.token n) (l.token (n + 1))] := by
  rw [passed, List.range_succ, List.map_append]
  rfl

theorem passed_cons (l : Lexer) (n : Nat) :
    l.passed (n + 1) = .token (l.token 0) (l.token 1) :: (after 1 l).passed n := by
  rw [passed, passed, List.range_succ_eq_map, List.map_cons, List.map_map]
  refine congrArg _ (List.map_congr_left fun i _ => ?_)
  rw [token_after, token_after, Nat.add_comm 1 i, Nat.add_comm 1 (i + 1)]
  rfl

theorem mem_passed {n : Nat} {i : Item} :
    i ∈ l.passed n ↔ ∃ k < n, i = .token (l.token k) (l.token (k + 1)) := by
  simp only [passed, List.mem_map, List.mem_range, eq_comm (a := i)]

end Lexer

/-! ## Routes -/

namespace Route

variable {l m n : Lexer} {is js : List Item}

theorem append (h : Route l is m) (h' : Route m js n) : Route l (is ++ js) n := by
  induction h with
  | nil => exact h'
  | token _ ih => exact .token (ih h')
  | capture n stop inside behind _ ih => exact .capture n stop inside behind (ih h')
  | braces opening closing source cursor _ ih => exact .braces opening closing source cursor (ih h')
  | fault _ ih => exact .fault (ih h')

/-- Some tokens. -/
theorem passed (l : Lexer) (n : Nat) : Route l (l.passed n) (after n l) := by
  induction n with
  | zero => exact .nil l
  | succ n ih =>
    rw [passed_succ]
    refine ih.append ?_
    have hlast : Route (after n l) [.token ((after n l).token 0) ((after n l).token 1)]
        (after 1 (after n l)) := .token (.nil _)
    rwa [token_after, token_after, ← after_add] at hlast

/-- A route over plain items is a number of tokens. -/
theorem exists_after (h : Route l is m) (hplain : ∀ i ∈ is, i.isPlain) : ∃ n, m = after n l := by
  induction h with
  | nil => exact ⟨0, rfl⟩
  | token _ ih =>
    obtain ⟨n, hn⟩ := ih fun i hi => hplain i (List.mem_cons_of_mem _ hi)
    exact ⟨1 + n, by rw [hn, after_add]⟩
  | capture k _ _ _ _ ih =>
    obtain ⟨n, hn⟩ := ih fun i hi => hplain i (List.mem_cons_of_mem _ hi)
    exact ⟨k + n, by rw [hn, after_add]⟩
  | braces => cases hplain _ List.mem_cons_self
  | fault _ ih => exact ih fun i hi => hplain i (List.mem_cons_of_mem _ hi)

/-- The stretch up to a token. -/
theorem captureTo (h : l.cursor.IsIn l.source) (n : Nat) :
    Route l [.capture (l.token 0) (l.slice (l.token 0).start (l.token n).start)] (after n l) := by
  refine .capture n _ (fun i hi => ?_) le_rfl (.nil _)
  by_cases hend : (l.token i).kind = .endOfInput
  · exact .inr hend
  · exact .inl (start_token_lt_of_lt h hi hend)

/-- The stretch up to a token of one character, and that token. -/
theorem captureThrough (h : l.cursor.IsIn l.source) {n : Nat}
    (hthere : (l.token n).kind ≠ .endOfInput) :
    Route l [.capture (l.token 0) (l.slice (l.token 0).start ((l.token n).start + 1))]
      (after (n + 1) l) :=
  .capture (n + 1) _
    (fun _ hi => .inl (Nat.lt_succ_of_le (start_token_mono h (Nat.le_of_lt_succ hi))))
    (start_token_lt h hthere) (.nil _)

/-! ### Places -/

theorem isIn_behind {behind : Lexer} {n : Nat} (source : behind.source = l.source)
    (cursor : behind.cursor = (Cursor.start l.source).advance n) :
    behind.cursor.IsIn behind.source := by
  rw [cursor, source]
  exact (Cursor.IsIn.start _).advance _

/-- Text between braces ends behind the opening one. -/
theorem start_lt_braces {behind : Lexer} {rest : List Char} {length : Nat}
    (opening : l.source.drop (l.token 0).start = '{' :: rest)
    (closing : Braces.closing? rest = some length)
    (source : behind.source = l.source)
    (cursor : behind.cursor = (Cursor.start l.source).advance ((l.token 0).start + length + 2)) :
    (l.token 0).start < (behind.token 0).start := by
  have hlength := congrArg List.length opening
  have hclosing := Braces.closing?_lt closing
  simp only [List.length_drop, List.length_cons] at hlength
  have hoffset : behind.cursor.offset = (l.token 0).start + length + 2 := by
    rw [cursor, Cursor.offset_advance]
    simp only [Cursor.start]
    omega
  have hle := (reads_next (isIn_behind source cursor)).le_start
  change behind.cursor.offset ≤ (behind.token 0).start at hle
  omega

/-- **An item that takes up something leads to the right**, and no item leads to
the left. -/
theorem start_le (h : Route l is m) (hl : l.cursor.IsIn l.source) :
    (l.token 0).start ≤ (m.token 0).start := by
  induction h with
  | nil => exact le_rfl
  | token h ih =>
    obtain ⟨hsource, hin⟩ := isIn_after hl 1
    have hle := ih (hsource ▸ hin)
    rw [token_after] at hle
    exact (start_token_le hl 0).trans hle
  | capture n _ _ _ h ih =>
    obtain ⟨hsource, hin⟩ := isIn_after hl n
    have hle := ih (hsource ▸ hin)
    rw [token_after] at hle
    exact (start_token_mono hl (Nat.zero_le _)).trans hle
  | braces opening closing source cursor _ ih =>
    exact (start_lt_braces opening closing source cursor).le.trans
      (ih (isIn_behind source cursor))
  | fault _ ih => exact ih hl

end Route

/-- **Items in a row**: those that take up something start from an offset on,
in front of another, each behind the one before. -/
structure Item.InRow (start stop : Nat) (is : List Item) : Prop where
  le_start : ∀ t ∈ is.filterMap first?, start ≤ t.start
  lt_stop : ∀ t ∈ is.filterMap first?, t.start < stop
  pairwise : (is.filterMap first?).Pairwise fun t t' => t.start < t'.start

namespace Item.InRow

variable {start mid stop : Nat} {is : List Item} {i : Item}

theorem nil : InRow start stop [] :=
  ⟨nofun, nofun, .nil⟩

/-- An item in front of a row. -/
theorem cons (h : InRow mid stop is) (hle : start ≤ mid) (hstop : mid ≤ stop)
    (hi : ∀ t ∈ i.first?, t.start = start ∧ start < mid) : InRow start stop (i :: is) := by
  cases hfirst : i.first? with
  | none =>
    have hmap : (i :: is).filterMap first? = is.filterMap first? := by
      rw [List.filterMap_cons, hfirst]
    refine ⟨?_, ?_, ?_⟩ <;> rw [hmap]
    · exact fun t ht => hle.trans (h.le_start t ht)
    · exact h.lt_stop
    · exact h.pairwise
  | some t =>
    obtain ⟨hstart, hlt⟩ := hi t hfirst
    have hmap : (i :: is).filterMap first? = t :: is.filterMap first? := by
      rw [List.filterMap_cons, hfirst]
    refine ⟨?_, ?_, ?_⟩ <;> rw [hmap]
    · refine List.forall_mem_cons.2 ⟨hstart.ge, fun t' ht' => hle.trans (h.le_start t' ht')⟩
    · exact List.forall_mem_cons.2 ⟨hstart ▸ hlt.trans_le hstop, h.lt_stop⟩
    · refine List.pairwise_cons.2 ⟨fun t' ht' => ?_, h.pairwise⟩
      exact (hstart ▸ hlt).trans_le (h.le_start t' ht')

end Item.InRow

namespace Route

variable {l m : Lexer} {is : List Item}

/-- **The items of a route stand in a row.** -/
theorem inRow (h : Route l is m) (hl : l.cursor.IsIn l.source) :
    Item.InRow (l.token 0).start (m.token 0).start is := by
  induction h with
  | nil => exact .nil
  | token h ih =>
    obtain ⟨hsource, hin⟩ := isIn_after hl 1
    have hrow := ih (hsource ▸ hin)
    have hle := h.start_le (hsource ▸ hin)
    rw [token_after] at hrow hle
    refine hrow.cons (start_token_le hl 0) hle fun t ht => ?_
    rw [Item.first?] at ht
    split at ht
    · cases ht
    · next hthere =>
      cases ht
      exact ⟨rfl, start_token_lt hl hthere⟩
  | @capture l _ _ n stop inside behind h ih =>
    obtain ⟨hsource, hin⟩ := isIn_after hl n
    have hrow := ih (hsource ▸ hin)
    have hle := h.start_le (hsource ▸ hin)
    rw [token_after] at hrow hle
    refine hrow.cons (start_token_mono hl (Nat.zero_le _)) hle fun t ht => ?_
    rw [Item.first?] at ht
    split at ht
    · cases ht
    · next hne =>
      cases ht
      refine ⟨rfl, Nat.lt_of_lt_of_le (Nat.lt_of_not_le fun hstop => hne ?_) behind⟩
      rw [slice, Nat.sub_eq_zero_of_le hstop, List.take_zero]
  | braces opening closing source cursor h ih =>
    have hin := isIn_behind source cursor
    refine (ih hin).cons (start_lt_braces opening closing source cursor).le (h.start_le hin)
      fun t ht => ?_
    cases ht
    exact ⟨rfl, start_lt_braces opening closing source cursor⟩
  | fault h ih =>
    exact (ih hl).cons le_rfl (h.start_le hl) fun _ ht => absurd ht (Option.not_mem_none _)

end Route

/-! ## Where an item comes from -/

/-- **An item of a source**: what some lexer on it reads. -/
def Item.IsOf (source : List Char) (i : Item) : Prop :=
  ∃ l : Lexer, l.source = source ∧ l.cursor.IsIn l.source ∧
    match i with
    | .token t next => t = l.token 0 ∧ next = l.token 1
    | .capture first text => first = l.token 0
        ∧ ∃ stop, stop ≤ source.length ∧ text = l.slice first.start stop
    | .braces first text => first = l.token 0
        ∧ ∃ rest, source.drop first.start = '{' :: rest ∧ Braces.content? rest = some text
    | .fault => True

/-- **Every item of a route is one of its source.** -/
theorem Route.isOf {source : List Char} {l m : Lexer} {is : List Item} (h : Route l is m)
    (hl : l.cursor.IsIn l.source) (hsource : l.source = source) : ∀ i ∈ is, i.IsOf source := by
  induction h with
  | nil => exact fun _ hi => absurd hi List.not_mem_nil
  | @token l _ _ _ ih =>
    obtain ⟨hafter, hin⟩ := isIn_after hl 1
    have hfirst : (Item.token (l.token 0) (l.token 1)).IsOf source := ⟨l, hsource, hl, rfl, rfl⟩
    exact List.forall_mem_cons.2 ⟨hfirst, ih (hafter ▸ hin) (hafter.trans hsource)⟩
  | @capture l _ _ n stop _ behind _ ih =>
    obtain ⟨hafter, hin⟩ := isIn_after hl n
    have hstop : stop ≤ source.length := hsource ▸ behind.trans (start_token_le_length hl n)
    have hfirst : (Item.capture (l.token 0) (l.slice (l.token 0).start stop)).IsOf source :=
      ⟨l, hsource, hl, rfl, stop, hstop, rfl⟩
    exact List.forall_mem_cons.2 ⟨hfirst, ih (hafter ▸ hin) (hafter.trans hsource)⟩
  | @braces l _ _ _ rest length opening closing hbehind cursor _ ih =>
    have hcontent : Braces.content? rest = some (rest.take length) := by
      rw [Braces.content?, closing]
      rfl
    have hfirst : (Item.braces (l.token 0) (rest.take length)).IsOf source :=
      ⟨l, hsource, hl, rfl, rest, hsource ▸ opening, hcontent⟩
    exact List.forall_mem_cons.2
      ⟨hfirst, ih (isIn_behind hbehind cursor) (hbehind.trans hsource)⟩
  | @fault l _ _ _ ih =>
    have hfirst : Item.fault.IsOf source := ⟨l, hsource, hl, trivial⟩
    exact List.forall_mem_cons.2 ⟨hfirst, ih hl hsource⟩

end Gsx
