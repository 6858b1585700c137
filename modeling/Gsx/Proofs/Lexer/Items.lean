import Gsx.Proofs.Lexer.Scanners
/-!
# The grammar between braces

What the text between braces is made of, told without the scan: `IsAtom` and
`IsItems` have a constructor for each kind of item, so a literal is a literal
because of its own characters, and braces count where no literal hides them.
`IsItems.closes` takes a text of items in front of a brace and finds the scan at
that brace, `passesItems_of_closes` takes a scan that closes and gives the items
it has passed. Together they say that the scan accepts the texts of the grammar
and no others.

A rune need not be closed: `'a` is one as well, as long as no quote follows. So
whether a text is made of items depends on the first character behind it, and
there the lemmas ask for a character that is no quote.
-/

namespace Gsx

namespace Braces

/-- What is left of a string literal, closing quote included. -/
inductive IsStringRest : List Char → Prop
  /-- The closing quote. -/
  | close : IsStringRest ['"']
  /-- A backslash takes the next character with it. -/
  | escape (c : Char) {cs : List Char} : IsStringRest cs → IsStringRest ('\\' :: c :: cs)
  | char {c : Char} {cs : List Char} :
      c ≠ '\\' → c ≠ '"' → IsStringRest cs → IsStringRest (c :: cs)

/-- What a rune literal has between its quotes. -/
inductive IsRuneText : List Char → Prop
  | escape (c : Char) : IsRuneText ['\\', c]
  | char {c : Char} : c ≠ '\\' → IsRuneText [c]

/-- The characters that stand for themselves between braces. -/
def IsPlain (c : Char) : Prop :=
  c ≠ '{' ∧ c ≠ '}' ∧ c ≠ '"' ∧ c ≠ '\x60' ∧ c ≠ '\''

/-- An item with no items in it that is over by itself, whatever follows. -/
inductive IsAtom : List Char → Prop
  | plain {c : Char} : IsPlain c → IsAtom [c]
  | string {s : List Char} : IsStringRest s → IsAtom ('"' :: s)
  | rawString {s : List Char} : '\x60' ∉ s → IsAtom ('\x60' :: (s ++ ['\x60']))
  | rune {r : List Char} : IsRuneText r → IsAtom ('\'' :: (r ++ ['\'']))

/-- **The grammar** of the text between braces, one item after the other. -/
inductive IsItems : List Char → Prop
  | nil : IsItems []
  | atom {i cs : List Char} : IsAtom i → IsItems cs → IsItems (i ++ cs)
  /-- A rune that no quote closes. -/
  | openRune {r cs : List Char} :
      IsRuneText r → cs.head? ≠ some '\'' → IsItems cs → IsItems ('\'' :: (r ++ cs))
  | braces {inner cs : List Char} :
      IsItems inner → IsItems cs → IsItems ('{' :: (inner ++ '}' :: cs))

/-! ## Literals -/

variable {depth n : Nat} {cs : List Char}

theorem IsStringRest.stringLength_append {s : List Char} (h : IsStringRest s) (cs : List Char) :
    stringLength (s ++ cs) = s.length := by
  induction h with
  | close => rw [List.singleton_append, stringLength_cons (by decide), if_pos rfl]; rfl
  | escape c _ ih => rw [List.cons_append, List.cons_append, stringLength, ih]; rfl
  | char hslash hquote _ ih =>
    rw [List.cons_append, stringLength_cons hslash, if_neg hquote, ih]; rfl

theorem isStringRest_take (h : stringLength cs < cs.length) :
    IsStringRest (cs.take (stringLength cs)) := by
  fun_induction stringLength cs with
  | case1 => exact absurd h (Nat.lt_irrefl _)
  | case2 => exact absurd h (Nat.lt_irrefl _)
  | case3 c cs ih => exact .escape c (ih (by simpa using h))
  | case4 cs => exact .close
  | case5 c cs hnil hcons hquote ih =>
    have hslash : c ≠ '\\' := ne_of_nil_of_cons hnil hcons
    exact .char hslash hquote (ih (by simpa using h))

theorem rawStringLength_append_quote {s : List Char} (h : '\x60' ∉ s) (cs : List Char) :
    rawStringLength (s ++ '\x60' :: cs) = s.length + 1 := by
  induction s with
  | nil => exact if_pos rfl
  | cons c s ih =>
    have hc : c ≠ '\x60' := (List.ne_of_not_mem_cons h).symm
    rw [List.cons_append, rawStringLength, if_neg hc, ih (List.not_mem_of_not_mem_cons h)]
    rfl

theorem exists_rawString (h : rawStringLength cs < cs.length) :
    ∃ s, '\x60' ∉ s ∧ cs.take (rawStringLength cs) = s ++ ['\x60'] := by
  induction cs with
  | nil => exact absurd h (Nat.lt_irrefl _)
  | cons c cs ih =>
    rw [rawStringLength] at h ⊢
    by_cases hc : c = '\x60'
    · rw [if_pos hc, hc]
      exact ⟨[], List.not_mem_nil, rfl⟩
    · rw [if_neg hc] at h ⊢
      obtain ⟨s, hs, htake⟩ := ih (by simpa using h)
      exact ⟨c :: s, List.not_mem_cons_of_ne_of_not_mem (Ne.symm hc) hs,
        congrArg (c :: ·) htake⟩

theorem IsRuneText.runeLength_closed {r : List Char} (h : IsRuneText r) (cs : List Char) :
    runeLength (r ++ '\'' :: cs) = r.length + 1 := by
  cases h with
  | escape c => rfl
  | char hslash => simp [runeLength, hslash]

theorem IsRuneText.runeLength_open {r cs : List Char} (h : IsRuneText r)
    (hcs : cs.head? ≠ some '\'') : runeLength (r ++ cs) = r.length := by
  cases h <;> cases cs <;> simp_all [runeLength]

theorem exists_rune (h : runeLength cs < cs.length) :
    ∃ r, IsRuneText r ∧ (cs.take (runeLength cs) = r ++ ['\'']
      ∨ cs.take (runeLength cs) = r ∧ (cs.drop (runeLength cs)).head? ≠ some '\'') := by
  fun_cases runeLength cs with
  | case1 c cs => exact ⟨_, .escape c, .inl rfl⟩
  | case2 cs hquote =>
    cases cs with
    | nil => exact absurd h (by decide)
    | cons c cs =>
      refine ⟨_, .escape c, .inr ⟨rfl, fun hhead => ?_⟩⟩
      obtain ⟨rest, hrest⟩ := List.head?_eq_some_iff.1 hhead
      exact hquote c rest (congrArg (c :: ·) hrest)
  | case3 c cs _ hslash => exact ⟨_, .char hslash, .inl rfl⟩
  | case4 c cs _ hslash hquote =>
    refine ⟨_, .char hslash, .inr ⟨rfl, fun hhead => ?_⟩⟩
    obtain ⟨rest, hrest⟩ := List.head?_eq_some_iff.1 hhead
    exact hquote rest hrest
  | case5 => exact absurd h (Nat.lt_irrefl _)

/-! ## The scan without fuel -/

/-- The offset of the brace that closes `depth + 1` open ones. -/
def closes (depth : Nat) (cs : List Char) : Option Nat :=
  closingFrom (cs.length + 1) depth cs

/-- Fuel for every character is enough. -/
theorem closingFrom_eq_closes {fuel : Nat} (h : cs.length < fuel) :
    closingFrom fuel depth cs = closes depth cs := by
  rw [closes, GoText.closingFrom_eq_stop? (d := ⟨depth + 1, 0, 0⟩) rfl h,
    GoText.closingFrom_eq_stop? (d := ⟨depth + 1, 0, 0⟩) rfl (Nat.lt_succ_self _)]

theorem closingFrom_drop (n : Nat) :
    closingFrom (cs.length + 1) depth (cs.drop n) = closes depth (cs.drop n) := by
  refine closingFrom_eq_closes ?_
  rw [List.length_drop]
  omega

theorem closes_open : closes depth ('{' :: cs) = (closes (depth + 1) cs).map (· + 1) :=
  rfl

theorem closes_close_zero : closes 0 ('}' :: cs) = some 0 :=
  rfl

theorem closes_close_succ : closes (depth + 1) ('}' :: cs) = (closes depth cs).map (· + 1) :=
  rfl

theorem closes_quote :
    closes depth ('"' :: cs)
      = (closes depth (cs.drop (stringLength cs))).map (· + (stringLength cs + 1)) :=
  congrArg (Option.map _) (closingFrom_drop _)

theorem closes_backquote :
    closes depth ('\x60' :: cs)
      = (closes depth (cs.drop (rawStringLength cs))).map (· + (rawStringLength cs + 1)) :=
  congrArg (Option.map _) (closingFrom_drop _)

theorem closes_apostrophe :
    closes depth ('\'' :: cs)
      = (closes depth (cs.drop (runeLength cs))).map (· + (runeLength cs + 1)) :=
  congrArg (Option.map _) (closingFrom_drop _)

theorem closes_plain {c : Char} (h : IsPlain c) :
    closes depth (c :: cs) = (closes depth cs).map (· + 1) := by
  obtain ⟨hleft, hright, hstring, hraw, hrune⟩ := h
  change closingFrom (cs.length + 1 + 1) depth (c :: cs) = _
  unfold closingFrom
  split <;> first | contradiction | rfl

/-- An atom is jumped over. -/
theorem IsAtom.closes {i : List Char} (h : IsAtom i) (depth : Nat) (cs : List Char) :
    closes depth (i ++ cs) = (closes depth cs).map (· + i.length) := by
  cases h with
  | plain hc => exact closes_plain hc
  | string hs =>
    rw [List.cons_append, closes_quote, hs.stringLength_append, List.drop_left]
    rfl
  | rawString hs =>
    rw [List.cons_append, List.append_assoc, List.singleton_append, closes_backquote,
      rawStringLength_append_quote hs, List.append_cons, List.drop_left' (by simp),
      List.length_cons, List.length_append]
    rfl
  | rune hr =>
    rw [List.cons_append, List.append_assoc, List.singleton_append, closes_apostrophe,
      hr.runeLength_closed, List.append_cons, List.drop_left' (by simp), List.length_cons,
      List.length_append]
    rfl

theorem closes_openRune {r : List Char} (hr : IsRuneText r) (hcs : cs.head? ≠ some '\'') :
    closes depth ('\'' :: (r ++ cs)) = (closes depth cs).map (· + (r.length + 1)) := by
  rw [closes_apostrophe, hr.runeLength_open hcs, List.drop_left]

/-! ## The scan and the grammar -/

theorem head?_append_ne {b rest : List Char} {c : Char} (h : b.head? ≠ some c)
    (hrest : rest.head? ≠ some c) : (b ++ rest).head? ≠ some c := by
  cases b with
  | nil => exact hrest
  | cons _ _ => exact h

theorem map_add_map_add {o : Option Nat} {k m : Nat} (h : m + k = n) :
    (o.map (· + m)).map (· + k) = o.map (· + n) := by
  subst h
  rw [Option.map_map]
  exact congrArg (o.map ·) (funext fun i => Nat.add_assoc i m k)

/-- The scan goes over items to what is behind them. -/
theorem IsItems.closes {c rest : List Char} (h : IsItems c) (depth : Nat)
    (hrest : rest.head? ≠ some '\'') :
    closes depth (c ++ rest) = (closes depth rest).map (· + c.length) := by
  induction h generalizing depth rest with
  | nil => simp
  | atom hi _ ih =>
    rw [List.append_assoc, hi.closes, ih depth hrest]
    exact map_add_map_add (by simp only [List.length_append]; omega)
  | openRune hr hcs _ ih =>
    rw [List.cons_append, List.append_assoc, closes_openRune hr (head?_append_ne hcs hrest),
      ih depth hrest]
    exact map_add_map_add (by simp only [List.length_cons, List.length_append]; omega)
  | braces _ _ ihinner ih =>
    rw [List.cons_append, List.append_assoc, List.cons_append, closes_open,
      ihinner (depth + 1) (by simp), closes_close_succ, ih depth hrest, map_add_map_add rfl,
      map_add_map_add rfl]
    exact map_add_map_add (by simp only [List.length_cons, List.length_append]; omega)

/-- A text of items is closed by the brace behind it. -/
theorem IsItems.closing? {c : List Char} (h : IsItems c) (rest : List Char) :
    closing? (c ++ '}' :: rest) = some c.length := by
  change Braces.closes 0 _ = _
  rw [h.closes 0 (by simp), closes_close_zero]
  exact congrArg some (Nat.zero_add _)

/-- A scan that passes items, comes to a closing brace and stops at `n`. -/
def PassesItems (depth n : Nat) (cs : List Char) : Prop :=
  ∃ inner rest, IsItems inner ∧ cs = inner ++ '}' :: rest ∧ inner.length ≤ n
    ∧ closes depth ('}' :: rest) = some (n - inner.length)

/-- One item more in front. -/
theorem PassesItems.item (h : PassesItems depth n cs) (item : List Char)
    (hitem : ∀ inner, IsItems inner → (cs.head? ≠ some '\'' → inner.head? ≠ some '\'') →
      IsItems (item ++ inner)) :
    PassesItems depth (n + item.length) (item ++ cs) := by
  obtain ⟨inner, rest, hinner, rfl, hle, hclose⟩ := h
  refine ⟨item ++ inner, rest, hitem inner hinner fun h => ?_, by rw [List.append_assoc], ?_, ?_⟩
  · cases inner with
    | nil => exact nofun
    | cons _ _ => exact h
  · rw [List.length_append]
    omega
  · rw [hclose, List.length_append]
    congr 1
    omega

/-- Braces more in front, where the scan passes items behind them as well. -/
theorem PassesItems.braces (h : PassesItems (depth + 1) n cs)
    (hnext : ∀ {rest m}, rest.length < cs.length → closes depth rest = some m →
      PassesItems depth m rest) :
    PassesItems depth (n + 1) ('{' :: cs) := by
  obtain ⟨inner, rest, hinner, rfl, hle, hclose⟩ := h
  rw [closes_close_succ] at hclose
  obtain ⟨m, hm, hmn⟩ := Option.map_eq_some_iff.1 hclose
  have hshort : rest.length < (inner ++ '}' :: rest).length := by
    simp only [List.length_append, List.length_cons]
    omega
  have hn : n + 1 = m + ('{' :: (inner ++ ['}'])).length := by
    simp only [List.length_append, List.length_cons, List.length_nil]
    omega
  have hpass := (hnext hshort hm).item ('{' :: (inner ++ ['}'])) fun inner' h' _ => by
    simpa using hinner.braces h'
  rw [hn]
  simpa using hpass

/-- A literal in front, of which the scan is at the end after `k` characters. -/
theorem PassesItems.literal {quote : Char} {k : Nat}
    (h : (closes depth (cs.drop k)).map (· + (k + 1)) = some n)
    (hnext : ∀ {m}, closes depth (cs.drop k) = some m → PassesItems depth m (cs.drop k))
    (hitem : k < cs.length → ∀ inner, IsItems inner →
      ((cs.drop k).head? ≠ some '\'' → inner.head? ≠ some '\'') →
        IsItems (quote :: (cs.take k ++ inner))) :
    PassesItems depth n (quote :: cs) := by
  obtain ⟨m, hm, rfl⟩ := Option.map_eq_some_iff.1 h
  have hlt : k < cs.length := lt_length_of_closingFrom_drop (closingFrom_drop k ▸ hm)
  have hpass := (hnext hm).item (quote :: cs.take k) (hitem hlt)
  rw [List.length_cons, List.length_take, Nat.min_eq_left (Nat.le_of_lt hlt),
    List.cons_append, List.take_append_drop] at hpass
  exact hpass

/-- A scan that closes has passed items. -/
theorem passesItems_of_closes (h : closes depth cs = some n) : PassesItems depth n cs := by
  -- the scan goes over a whole literal at once, so the induction is on the length
  induction hlength : cs.length using Nat.strongRecOn generalizing depth n cs with
  | ind length ih =>
    subst hlength
    cases cs with
    | nil => exact absurd h nofun
    | cons c cs =>
      have hnext : ∀ {depth k m}, closes depth (cs.drop k) = some m →
          PassesItems depth m (cs.drop k) := fun hm =>
        ih _ (by rw [List.length_drop, List.length_cons]; omega) hm rfl
      by_cases hopen : c = '{'
      · subst hopen
        obtain ⟨m, hm, rfl⟩ := Option.map_eq_some_iff.1 (closes_open ▸ h)
        exact .braces (hnext (k := 0) hm) fun hlt hm' =>
          ih _ (Nat.lt_succ_of_lt hlt) hm' rfl
      by_cases hclose : c = '}'
      · subst hclose
        exact ⟨[], cs, .nil, rfl, Nat.zero_le _, h⟩
      by_cases hquote : c = '"'
      · subst hquote
        exact .literal (closes_quote ▸ h) hnext fun hlt _ hinner _ =>
          .atom (.string (isStringRest_take hlt)) hinner
      by_cases hback : c = '\x60'
      · subst hback
        refine .literal (closes_backquote ▸ h) hnext fun hlt inner hinner _ => ?_
        obtain ⟨s, hs, htake⟩ := exists_rawString hlt
        rw [htake]
        exact .atom (.rawString hs) hinner
      by_cases hrune : c = '\''
      · subst hrune
        refine .literal (closes_apostrophe ▸ h) hnext fun hlt inner hinner hhead => ?_
        obtain ⟨r, hr, htake | ⟨htake, hend⟩⟩ := exists_rune hlt
        · rw [htake]
          exact .atom (.rune hr) hinner
        · rw [htake]
          exact .openRune hr (hhead hend) hinner
      have hplain : IsPlain c := ⟨hopen, hclose, hquote, hback, hrune⟩
      obtain ⟨m, hm, rfl⟩ := Option.map_eq_some_iff.1 (closes_plain hplain ▸ h)
      exact (hnext (k := 0) hm).item [c] fun inner hinner _ =>
        .atom (.plain hplain) hinner

/-- **Soundness and completeness**: the closing brace is behind the items. -/
theorem closing?_eq_some_iff :
    closing? cs = some n ↔ ∃ c rest, cs = c ++ '}' :: rest ∧ IsItems c ∧ c.length = n := by
  refine ⟨fun h => ?_, ?_⟩
  · have hpass : PassesItems 0 n cs := passesItems_of_closes h
    obtain ⟨c, rest, hc, rfl, hle, hclose⟩ := hpass
    have := Option.some.inj (closes_close_zero.symm.trans hclose)
    exact ⟨c, rest, rfl, hc, by omega⟩
  · rintro ⟨c, rest, rfl, hc, rfl⟩
    exact hc.closing? rest

/-- The items in front of a closing brace are determined. -/
theorem IsItems.eq_of_append {c c' rest rest' : List Char} (h : IsItems c) (h' : IsItems c')
    (heq : c ++ '}' :: rest = c' ++ '}' :: rest') : c = c' := by
  have hlength : c.length = c'.length :=
    Option.some.inj ((h.closing? rest).symm.trans (heq ▸ h'.closing? rest'))
  exact (List.append_inj heq hlength).1

end Braces

namespace Lexer

variable {l : Lexer} {p : Nat}

theorem drop_eq_cons_of_brace (hbrace : l.source[p]? = some '{') :
    l.source.drop p = '{' :: l.source.drop (p + 1) := by
  rw [List.drop_eq_getElem?_toList_append, hbrace]
  rfl

/-- A read between braces gives the items up to the closing brace. -/
theorem exists_readBraces_iff (hbrace : l.source[p]? = some '{') (c : String) :
    (∃ m, l.readBraces p = .ok (c, m)) ↔
      ∃ rest, l.source.drop (p + 1) = c.toList ++ '}' :: rest ∧ Braces.IsItems c.toList := by
  have hp := drop_eq_cons_of_brace hbrace
  constructor
  · rintro ⟨m, hm⟩
    obtain ⟨cs, n, hcs, hclosing, rfl, -⟩ := exists_of_readBraces hm
    obtain rfl : l.source.drop (p + 1) = cs := (List.cons.inj (hp.symm.trans hcs)).2
    obtain ⟨c, rest, hdrop, hc, rfl⟩ := Braces.closing?_eq_some_iff.1 hclosing
    rw [hdrop, List.take_left, String.toList_ofList]
    exact ⟨rest, rfl, hc⟩
  · rintro ⟨rest, hdrop, hc⟩
    have hread := readBraces_of_closing? hp (hdrop ▸ hc.closing? rest)
    rw [hdrop, List.take_left, String.ofList_toList] at hread
    exact ⟨_, hread⟩

/-- **The scan between braces accepts the texts of the grammar.** At a brace in
the source, whatever calls the lexer has had, a read gives a text exactly if
the text is made of items and the brace behind it comes next. There is no more
than one such text, and where there is none the read fails. -/
theorem readBraces_accepts_items (hbrace : l.source[p]? = some '{') :
    (∀ c, (∃ m, l.readBraces p = .ok (c, m)) ↔
      ∃ rest, l.source.drop (p + 1) = c.toList ++ '}' :: rest ∧ Braces.IsItems c.toList)
    ∧ (∀ c c' rest rest', l.source.drop (p + 1) = c ++ '}' :: rest → Braces.IsItems c →
      l.source.drop (p + 1) = c' ++ '}' :: rest' → Braces.IsItems c' → c = c')
    ∧ ((¬∃ c rest, l.source.drop (p + 1) = c ++ '}' :: rest ∧ Braces.IsItems c) →
      l.readBraces p = .error .neverClosed) := by
  refine ⟨exists_readBraces_iff hbrace, fun c c' rest rest' hc hitems hc' hitems' =>
    hitems.eq_of_append hitems' (hc.symm.trans hc'), fun hnone => ?_⟩
  have hp := drop_eq_cons_of_brace hbrace
  cases hclosing : Braces.closing? (l.source.drop (p + 1)) with
  | none => exact readBraces_of_not_closed hp hclosing
  | some n =>
    obtain ⟨c, rest, hdrop, hc, -⟩ := Braces.closing?_eq_some_iff.1 hclosing
    exact absurd ⟨c, rest, hdrop, hc⟩ hnone

/-- Braces with nested ones, in which there are a closed string, a rune and an
apostrophe, and braces that are not closed. -/
def nestedItems : String := "\x7bf(\x7b\"\\\"\x7d\", 'a', don't\x7d)\x7d \x7b'"

/-- The nested braces are passed, and those that are not closed fail. -/
theorem readBraces_nestedItems :
    let l := ofSource "a.gsx" nestedItems
    l.source[0]? = some '{' ∧ l.source[25]? = some '{'
      ∧ (∃ m, l.readBraces 0 = .ok ("f(\x7b\"\\\"\x7d\", 'a', don't\x7d)", m))
      ∧ (∃ rest, l.source.drop 1 = "f(\x7b\"\\\"\x7d\", 'a', don't\x7d)".toList ++ '}' :: rest
        ∧ Braces.IsItems "f(\x7b\"\\\"\x7d\", 'a', don't\x7d)".toList)
      ∧ l.readBraces 25 = .error .neverClosed := by
  have hfirst : (ofSource "a.gsx" nestedItems).source[0]? = some '{' := by decide
  have hread : ∃ m, (ofSource "a.gsx" nestedItems).readBraces 0
      = .ok ("f(\x7b\"\\\"\x7d\", 'a', don't\x7d)", m) := ⟨_, rfl⟩
  have hlast : (ofSource "a.gsx" nestedItems).source[25]? = some '{' := by decide
  refine ⟨hfirst, hlast, hread, ((readBraces_accepts_items hfirst).1 _).1 hread,
    (readBraces_accepts_items hlast).2.2 ?_⟩
  rintro ⟨c, rest, hrest, -⟩
  have hmem : '}' ∈ ['\''] :=
    (show (ofSource "a.gsx" nestedItems).source.drop 26 = ['\''] from by decide)
      ▸ hrest ▸ List.mem_append_right _ List.mem_cons_self
  exact absurd hmem (by decide)

end Lexer

end Gsx
