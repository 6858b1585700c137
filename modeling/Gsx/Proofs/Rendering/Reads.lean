import Gsx.Proofs.Lexer.Closing
import Gsx.Proofs.Rendering.Stands
/-!
# Readers on texts

A reader reads one text up to another one, giving a value of some kind. The
rules below follow the ways in which readers are composed; scans, comments and
text between braces have a rule each.
-/

namespace Gsx.Rendering

open Lexer Parse

variable {α β σ : Type} {source cs cs' cs'' : List Char} {k : TokenKind} {w : List Char}
  {p : α → Prop}

/-- **What a reader does with a text**: standing in front of `cs`, it gives a
value that satisfies `p` and ends in front of `cs'`. -/
def Reads (source cs : List Char) (r : Parse α) (p : α → Prop) (cs' : List Char) : Prop :=
  ∀ s : TokenStream, At source cs s → p (r.run s).1 ∧ At source cs' (r.run s).2

/-- Whether an item is there and satisfies a test. -/
def Gives (test : α → Bool) (o : Option α) : Prop :=
  ∃ a, o = some a ∧ test a

/-! ## Composition -/

theorem Reads.pure {a : α} (h : p a) : Reads source cs (pure a) p cs :=
  fun _ hs => ⟨h, hs⟩

theorem Reads.bind {r : Parse β} {f : β → Parse α} {q : β → Prop} (hr : Reads source cs r q cs')
    (hf : ∀ a, q a → Reads source cs' (f a) p cs'') : Reads source cs (r >>= f) p cs'' := by
  intro s hs
  obtain ⟨ha, hs'⟩ := hr s hs
  exact hf _ ha _ hs'

theorem Reads.weaken {r : Parse α} {q : α → Prop} (h : Reads source cs r q cs')
    (hq : ∀ a, q a → p a) : Reads source cs r p cs' := by
  intro s hs
  obtain ⟨ha, hs'⟩ := h s hs
  exact ⟨hq _ ha, hs'⟩

/-- The text of a gap in front of a text may be left out. -/
theorem Reads.gap {r : Parse α} {c : Char} (hc : isGap c) (h : Reads source cs r p cs') :
    Reads source (c :: cs) r p cs' :=
  fun s hs => h s (hs.gap hc)

/-- The text of a gap behind what is read may be left out as well. -/
theorem Reads.skipGap {r : Parse α} {c : Char} (hc : isGap c)
    (h : Reads source cs r p (c :: cs')) : Reads source cs r p cs' := by
  intro s hs
  obtain ⟨ha, hs'⟩ := h s hs
  exact ⟨ha, hs'.gap hc⟩

/-! ## Single tokens -/

theorem Reads.current {f : Token → Parse α} (hf : Front cs k w cs')
    (h : ∀ t, IsAt source cs k w t → Reads source cs (f t) p cs'') :
    Reads source cs (current >>= f) p cs'' :=
  fun s hs => h _ (hs.current hf) s hs

theorem Reads.kind {f : TokenKind → Parse α} (hf : Front cs k w cs')
    (h : Reads source cs (f k) p cs'') : Reads source cs (kind >>= f) p cs'' := by
  intro s hs
  have hk : s.current.kind = k := (hs.current hf).kind
  change p ((f s.current.kind).run s).1 ∧ At source cs'' ((f s.current.kind).run s).2
  rw [hk]
  exact h s hs

theorem Reads.position {f : Position → Parse α}
    (h : ∀ place, Reads source cs (f place) p cs'') : Reads source cs (position >>= f) p cs'' :=
  fun s hs => h s.current.position s hs

theorem Reads.advance {f : Unit → Parse α} (hf : Front cs k w cs')
    (h : Reads source cs' (f ()) p cs'') : Reads source cs (advance >>= f) p cs'' :=
  fun _ hs => h _ (hs.advanced hf)

theorem reads_expect (hf : Front cs k w cs') : Reads source cs (expect k) (· = true) cs' := by
  refine .kind hf ?_
  rw [if_pos rfl]
  exact .advance hf (.pure rfl)

theorem Reads.expect {f : Bool → Parse α} (hf : Front cs k w cs')
    (h : Reads source cs' (f true) p cs'') : Reads source cs (expect k >>= f) p cs'' :=
  (reads_expect hf).bind fun _ ha => ha ▸ h

theorem Reads.stream {f : TokenStream → Parse α}
    (h : ∀ s, At source cs s → Reads source cs (f s) p cs') :
    Reads source cs (get >>= f) p cs' :=
  fun s hs => h s hs s hs

/-- A loop has more rounds than the text in front of it has characters. -/
theorem Reads.rounds (r : Nat → Parse α) (n : Nat) (hn : n ≤ cs.length)
    (h : ∀ fuel, Reads source cs (r (fuel + n + 1)) p cs') :
    Reads source cs (do r (← get).rounds) p cs' := by
  refine .stream fun s hs => ?_
  have hle := hs.length_le
  have hrounds : s.rounds = (source.length - n) + n + 1 := by
    rw [TokenStream.rounds, hs.source_eq]
    omega
  rw [hrounds]
  exact h _

/-! ## Scans -/

/-- Whether a step looks at the kind and the literal of a token only. -/
def IsLocal (step : σ → Token → Option σ) : Prop :=
  ∀ a t t', t.kind = t'.kind → t.literal = t'.literal → step a t = step a t'

variable {step : σ → Token → Option σ} {a a' : σ}

/-- A text at whose front a scan stops. -/
def StopsAt (step : σ → Token → Option σ) (a : σ) (cs : List Char) : Prop :=
  ∃ k w cs', Front cs k w cs' ∧ ∀ t : Token, t.kind = k → step a t = none

theorem reads_scanUpTo_stop (h : StopsAt step a cs) (fuel : Nat) :
    Reads source cs (scanUpTo step (fuel + 1) a) (· = a) cs := by
  obtain ⟨k, w, cs', hf, hstop⟩ := h
  have hround : Reads source cs (scanRound step a) (· = none) cs := by
    refine .current hf fun t ht => ?_
    split
    · exact .pure rfl
    · simp only [hstop t ht.kind]
      exact .pure rfl
  rw [scanUpTo]
  refine hround.bind ?_
  rintro _ rfl
  exact .pure rfl

theorem reads_scanUpTo_take (hf : Front cs k w cs') (hk : k ≠ .endOfInput)
    (hstep : ∀ t : Token, t.kind = k → t.literal = String.ofList w → step a t = some a')
    {fuel : Nat} {q : σ → Prop} (h : Reads source cs' (scanUpTo step fuel a') q cs'') :
    Reads source cs (scanUpTo step (fuel + 1) a) q cs'' := by
  have hround : Reads source cs (scanRound step a) (· = some a') cs' := by
    refine .current hf fun t ht => ?_
    rw [if_neg (ht.kind ▸ hk)]
    simp only [hstep t ht.kind ht.literal]
    exact .advance hf (.pure rfl)
  rw [scanUpTo]
  refine hround.bind ?_
  rintro _ rfl
  exact h

/-- **A scan over a text made of lexemes** takes them one by one and stops behind
the last one. -/
theorem reads_scanUpTo (hlocal : IsLocal step) {d : Char} {rest : List Char} {xs : List Lexeme}
    (hspells : Spells cs xs) (hd : isDelimiter d)
    (hfold : xs.foldlM (fun a x => step a (token x)) a = some a')
    (hstop : StopsAt step a' (d :: rest)) {fuel : Nat} (hfuel : xs.length < fuel) :
    Reads source (cs ++ d :: rest) (scanUpTo step fuel a) (· = a') (d :: rest) := by
  induction hspells generalizing a fuel with
  | nil =>
    cases hfold
    obtain ⟨fuel, rfl⟩ := Nat.exists_eq_add_one.2 hfuel
    exact reads_scanUpTo_stop hstop fuel
  | gap hc _ ih => exact (ih hfold hfuel).gap hc
  | @lexeme c cs xs hc hcomment hfault _ ih =>
    obtain ⟨fuel, rfl⟩ := Nat.exists_eq_add_one.2 (Nat.lt_of_le_of_lt (Nat.zero_le _) hfuel)
    rw [List.foldlM_cons] at hfold
    obtain ⟨a₁, ha₁, hfold⟩ := Option.bind_eq_some_iff.1 hfold
    refine reads_scanUpTo_take (front_lexeme hc hcomment hfault hd)
      (Lexeme.isProper_read c cs).kind_ne (fun t hk hw => ?_) (ih hfold (by simpa using hfuel))
    -- the fold ran over lexemes; the token has the kind and the literal of its lexeme
    rw [← ha₁]
    exact hlocal a t _ hk hw

theorem reads_scan (hlocal : IsLocal step) {d : Char} {rest : List Char} {xs : List Lexeme}
    (hspells : Spells cs xs) (hd : isDelimiter d)
    (hfold : xs.foldlM (fun a x => step a (token x)) a = some a')
    (hstop : StopsAt step a' (d :: rest)) :
    Reads source (cs ++ d :: rest) (scan step a) (· = a') (d :: rest) := by
  have hlength := hspells.length_le
  refine .rounds (scanUpTo step · a) xs.length ?_ fun fuel =>
    reads_scanUpTo hlocal hspells hd hfold hstop (by omega)
  rw [List.length_append]
  omega

/-! ## Line ends -/

theorem front_newline (cs : List Char) : Front ('\n' :: cs) .newline ['\n'] cs :=
  ⟨rfl, 1, rfl, rfl⟩

/-- A text that starts on a line with something on it. -/
def StartsLine (cs : List Char) : Prop :=
  ∃ k w cs', Front cs k w cs' ∧ k ≠ .newline

theorem StartsLine.stopsAt (h : StartsLine cs) :
    StopsAt (fun () (t : Token) => if t.kind = .newline then some () else none) () cs := by
  obtain ⟨k, w, cs', hf, hk⟩ := h
  exact ⟨k, w, cs', hf, fun t ht => if_neg (ht ▸ hk)⟩

/-- Where no line ends, none is passed. -/
theorem reads_skipNewlines (h : StartsLine cs) :
    Reads source cs skipNewlines (fun _ => True) cs :=
  .rounds (scanUpTo _ · ()) 0 (Nat.zero_le _) fun fuel =>
    (reads_scanUpTo_stop (by simpa using h.stopsAt) fuel).weaken fun _ _ => trivial

theorem reads_skipNewlines_newline (h : StartsLine cs) :
    Reads source ('\n' :: cs) skipNewlines (fun _ => True) cs := by
  refine .rounds (scanUpTo _ · ()) 1 (by simp) fun fuel =>
    reads_scanUpTo_take (front_newline cs) (by decide) (fun t ht _ => if_pos (decide_eq_true ht)) ?_
  exact (reads_scanUpTo_stop (by simpa using h.stopsAt) fuel).weaken fun _ _ => trivial

theorem Reads.advanceLine {f : Unit → Parse α} {cs₁ : List Char} (hf : Front cs k w cs₁)
    (hline : Reads source cs₁ skipNewlines (fun _ => True) cs')
    (h : Reads source cs' (f ()) p cs'') : Reads source cs (advanceLine >>= f) p cs'' := by
  refine Reads.bind (q := fun _ => True) ?_ fun _ _ => h
  exact .advance hf hline

theorem Reads.expectLine {f : Bool → Parse α} {cs₁ : List Char} (hf : Front cs k w cs₁)
    (hline : Reads source cs₁ skipNewlines (fun _ => True) cs')
    (h : Reads source cs' (f true) p cs'') : Reads source cs (expectLine k >>= f) p cs'' := by
  refine Reads.bind (q := (· = true)) ?_ fun _ ha => ha ▸ h
  refine .expect hf ?_
  rw [if_pos rfl]
  exact hline.bind fun _ _ => .pure rfl

/-! ## Repetition -/

/-- **A round that is not the last one** gives an item, and the others follow. -/
theorem reads_repeatUpTo_more {round : Parse (Round α)} {q : List α → Prop}
    {fuel : Nat} (hround : Reads source cs round (fun r => ∃ a, p a ∧ r = .more [a]) cs')
    (h : Reads source cs' (repeatUpTo round fuel) q cs'') :
    Reads source cs (repeatUpTo round (fuel + 1)) (fun as => ∃ a bs, p a ∧ q bs ∧ as = a :: bs)
      cs'' := by
  rw [repeatUpTo]
  refine hround.bind ?_
  rintro _ ⟨a, ha, rfl⟩
  exact h.bind fun bs hbs => .pure ⟨a, bs, ha, hbs, rfl⟩

/-- The last round ends the repetition. -/
theorem reads_repeatUpTo_last {round : Parse (Round α)} {q : List α → Prop}
    (hround : Reads source cs round (fun r => ∃ as, q as ∧ r = .last as) cs') (fuel : Nat) :
    Reads source cs (repeatUpTo round (fuel + 1)) q cs' := by
  rw [repeatUpTo]
  refine hround.bind ?_
  rintro _ ⟨as, has, rfl⟩
  exact .pure has

/-! ## Comments -/

variable {s : TokenStream}

theorem At.comments (h : At source cs s) : s.comments = [] := by
  obtain ⟨l, -, rfl⟩ := h
  rfl

/-- In front of a quiet text there are no comments to collect. -/
theorem collected_eq (hs : At source cs s) (hq : Quiet 2 cs) : s.collected = s := by
  have hpending := (hs.quiet hq).1
  have hcomments := hs.comments
  rw [TokenStream.collected, takeComments]
  simp only [hpending, List.append_nil]
  cases s with
  | mk l =>
    cases l
    cases hpending
    rfl

theorem reads_leadingComments (hq : Quiet 2 cs) :
    Reads source cs leadingComments (· = none) cs := by
  intro s hs
  have hrun : leadingComments.run s = (none, s) := by
    rw [leadingComments]
    simp only [StateT.run_bind, StateT.run_modify, StateT.run_get, pure_bind, collected_eq hs hq,
      hs.comments]
    rfl
  rw [hrun]
  exact ⟨rfl, hs⟩

theorem reads_trailingComment (hq : Quiet 2 cs) (line : Nat) :
    Reads source cs (trailingComment line) (· = none) cs := by
  intro s hs
  have hrun : (trailingComment line).run s = (none, s) := by
    rw [trailingComment]
    simp only [StateT.run_bind, StateT.run_modify, StateT.run_get, pure_bind, collected_eq hs hq,
      hs.comments]
    rfl
  rw [hrun]
  exact ⟨rfl, hs⟩

theorem reads_orphanComments (hq : Quiet 2 cs) : Reads source cs orphanComments (· = []) cs := by
  refine (reads_leadingComments hq).bind ?_
  rintro _ rfl
  exact .pure rfl

/-! ## Source text -/

theorem isBlank_of_isGap {c : Char} (h : isGap c) : Text.isBlank c := by
  rw [isGap, Bool.or_eq_true, Bool.or_eq_true, beq_iff_eq, beq_iff_eq, beq_iff_eq] at h
  rcases h with (rfl | rfl) | rfl <;> rfl

theorem dropWhile_of_isTrimmed (h : isTrimmed cs) : cs.dropWhile Text.isBlank = cs := by
  have htrim : Text.trimList cs = cs := by simpa [isTrimmed] using h
  -- trimming is done on both sides, so what it leaves is no longer than after one of them
  have hsuffix : cs.dropWhile Text.isBlank <:+ cs := List.dropWhile_suffix _
  refine hsuffix.eq_of_length ?_
  have hle := hsuffix.length_le
  have hle' := (List.dropWhile_suffix (l := (cs.dropWhile Text.isBlank).reverse)
    Text.isBlank).length_le
  have hlength := congrArg List.length htrim
  rw [Text.trimList, List.length_reverse] at hlength
  rw [List.length_reverse] at hle'
  omega

theorem dropWhile_reverse_of_isTrimmed (h : isTrimmed cs) :
    cs.reverse.dropWhile Text.isBlank = cs.reverse := by
  have htrim : Text.trimList cs = cs := by simpa [isTrimmed] using h
  rw [Text.trimList, dropWhile_of_isTrimmed h] at htrim
  rw [← List.reverse_reverse (cs.reverse.dropWhile Text.isBlank), htrim]

theorem isGap_of_isTrimmed {c : Char} (h : isTrimmed (c :: cs)) : isGap c = false := by
  cases hc : isGap c with
  | false => rfl
  | true =>
    have hdrop := dropWhile_of_isTrimmed h
    rw [List.dropWhile_cons_of_pos (isBlank_of_isGap hc)] at hdrop
    have := congrArg List.length hdrop
    have hle := (List.dropWhile_suffix (l := cs) Text.isBlank).length_le
    simp only [List.length_cons] at this
    omega

/-- Blanks behind a text fall away when it is trimmed. -/
theorem trimList_append {gaps : List Char} (h : isTrimmed cs) (hne : cs ≠ [])
    (hgaps : ∀ c ∈ gaps, isGap c) : Text.trimList (cs ++ gaps) = cs := by
  obtain ⟨c, cs, rfl⟩ := List.exists_cons_of_ne_nil hne
  have hc : ¬ Text.isBlank c := by
    intro hc
    have hdrop := dropWhile_of_isTrimmed h
    rw [List.dropWhile_cons_of_pos hc] at hdrop
    have := congrArg List.length hdrop
    have hle := (List.dropWhile_suffix (l := cs) Text.isBlank).length_le
    simp only [List.length_cons] at this
    omega
  rw [Text.trimList, List.cons_append, List.dropWhile_cons_of_neg hc, ← List.cons_append,
    List.reverse_append, List.dropWhile_append_of_pos, dropWhile_reverse_of_isTrimmed h,
    List.reverse_reverse]
  exact fun c hc => isBlank_of_isGap (hgaps c (List.mem_reverse.1 hc))

/-- A trimmed text stands between the front of a text and what follows it. -/
theorem exists_trimmed (h : isTrimmed cs) (rest : List Char) :
    ∃ mid, (cs ++ rest).dropWhile isGap = mid ++ rest.dropWhile isGap
      ∧ Text.trimList mid = cs := by
  cases cs with
  | nil => exact ⟨[], rfl, rfl⟩
  | cons c cs =>
    refine ⟨c :: cs ++ rest.takeWhile isGap, ?_, trimList_append h nofun fun d hd => ?_⟩
    · rw [List.cons_append, List.dropWhile_cons_of_neg (by simp [isGap_of_isTrimmed h]),
        ← List.cons_append, List.append_assoc, List.takeWhile_append_dropWhile]
    · exact List.all_eq_true.1 List.all_takeWhile d hd

/-- The source between two tokens, without blank ends. -/
theorem reads_trimmedText {cs₁ cs₂ mid v : List Char} {k₁ k₂ : TokenKind} {w₁ w₂ : List Char}
    {first last : Token} (hfirst : IsAt source cs₁ k₁ w₁ first) (hlast : IsAt source cs₂ k₂ w₂ last)
    (hmid : cs₁.dropWhile isGap = mid ++ cs₂.dropWhile isGap) (hv : Text.trimList mid = v) :
    Reads source cs (trimmedText first.start last.start) (· = String.ofList v) cs := by
  intro s hs
  refine ⟨?_, hs⟩
  change Text.trim (String.ofList (s.lexer.slice first.start last.start)) = _
  have hlength := congrArg List.length hfirst.drop_eq
  have hlength' := congrArg List.length hlast.drop_eq
  rw [hmid] at hlength
  simp only [List.length_drop, List.length_append] at hlength hlength'
  have hle := hfirst.start_le
  have hle' := hlast.start_le
  -- both offsets are measured from the end of the source, where the texts are known
  have hstop : last.start - first.start = mid.length := by omega
  rw [Lexer.slice, hs.source_eq, hfirst.drop_eq, hmid, hstop, List.take_left, Text.trim,
    String.toList_ofList, hv]

/-! ## Text between braces -/

theorem front_leftBrace (cs : List Char) : Front ('{' :: cs) .leftBrace ['{'] cs :=
  ⟨rfl, 1, rfl, rfl⟩

theorem front_rightBrace (cs : List Char) : Front ('}' :: cs) .rightBrace ['}'] cs :=
  ⟨rfl, 1, rfl, rfl⟩

/-- Text between braces starts quietly. -/
theorem quiet_code {code rest : List Char} (h : isCode code) : Quiet 1 (code ++ '}' :: rest) := by
  simp only [isCode, Bool.and_eq_true, beq_iff_eq, Bool.not_eq_true', Option.isNone_iff_eq_none]
    at h
  obtain ⟨⟨⟨htrim, -⟩, hcomment⟩, hfault⟩ := h
  cases code with
  | nil => exact ⟨_, _, _, front_rightBrace _, trivial⟩
  | cons c cs =>
    exact ⟨_, _, _, front_lexeme (isGap_of_isTrimmed htrim) hcomment hfault rfl, trivial⟩

/-- A lexer that goes back to a brace stands behind the one that closes it. -/
theorem exists_readBraces {l : Lexer} {start : Nat} {code rest cs : List Char} (h : isCode code)
    (hl : Stands source l cs) (hdrop : source.drop start = '{' :: code ++ '}' :: rest) :
    ∃ l', l.readBraces start = .ok (String.ofList code, l') ∧ Stands source l' rest := by
  simp only [isCode, Bool.and_eq_true, beq_iff_eq] at h
  have hclosing : Braces.closing? (code ++ '}' :: rest) = some code.length := by
    have := Braces.closing?_append h.1.1.2 rest
    rwa [List.append_assoc] at this
  -- reading starts over at the brace, whatever has been looked at ahead
  have hread := Lexer.readBraces_of_closing? (hl.source_eq ▸ hdrop) hclosing
  rw [List.take_left, hl.source_eq] at hread
  refine ⟨_, hread, ⟨rfl, (Cursor.IsIn.start source).advance _, ?_, ?_, hl.lastCommentLine,
    hl.diagnostics, le_column_advance (Int.le_refl _) _⟩⟩
  · have hbehind : source.drop (start + code.length + 2) = rest := by
      rw [Nat.add_assoc, ← List.drop_drop, hdrop]
      simp
    rw [Cursor.rest_advance]
    exact hbehind
  · simp only [hl.pending, List.filter_nil]

/-- **Text between braces is read verbatim**, and reading goes on behind them. -/
theorem reads_bracedText {code rest : List Char} (h : isCode code) :
    Reads source ('{' :: code ++ '}' :: rest) bracedText (· = some (String.ofList code)) rest := by
  intro s hs
  have hdrop : source.drop s.current.start = '{' :: code ++ '}' :: rest :=
    (hs.current (front_leftBrace (code ++ '}' :: rest))).drop_eq
  obtain ⟨_, hl⟩ := hs.exists_stands ⟨_, _, _, front_leftBrace _, quiet_code h⟩
  obtain ⟨l', hread, hl'⟩ := exists_readBraces h hl hdrop
  have hbehind : behindBraces s = .ok (String.ofList code, ofLexer l') := by
    rw [behindBraces, hread]
    obtain ⟨l, -, rfl⟩ := hs
    rfl
  have hrun : bracedText.run s = (some (String.ofList code), ofLexer l') := by
    rw [bracedText, StateT.run_bind]
    simp only [StateT.run_get, pure_bind, hbehind]
    rfl
  rw [hrun]
  exact ⟨rfl, l', hl', rfl⟩

end Gsx.Rendering
