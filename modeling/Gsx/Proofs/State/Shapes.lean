import Gsx.Proofs.State.Listing
import Gsx.State.GoType
/-!
# Shapes of initial values

Nine shapes tell a type, and they are tried in turn. The order does not matter: no text
has two of them. The quotes, the bracket of a slice and the ampersand tell their shapes
by the first character; every other shape starts with a word, and what stands right
behind that word tells it (`Fits.eq_shapeOf`). So the type of a value is what its only
shape tells, in whichever order the shapes are tried (`infer_in_any_order`).

A pattern that is anchored at its end also takes a text with one more line break there.
A trimmed text has none, but the shapes exclude each other on any text.
-/

namespace Gsx.GoType

open StateText (IsWord)

/-! ## What the shapes say -/

/-- The shapes that tell a type. -/
inductive Shape
  | int | float | bool | string | nil | slice | map | address | composite
  deriving DecidableEq, Repr

/-- Where a pattern is anchored at its end there is nothing more, or one line break. -/
def AtEnd (rest : List Char) : Prop :=
  rest = [] ∨ rest = ['\n']

/-- At most one minus sign. -/
def IsSign (sign : List Char) : Prop :=
  sign = [] ∨ sign = ['-']

/-- The name of a type, which may be qualified by a package. -/
inductive IsTypeName : List Char → Prop
  | plain {name : List Char} (h : IsWord name) : IsTypeName name
  | qualified {package name : List Char} (hp : IsWord package) (h : IsWord name) :
      IsTypeName (package ++ '.' :: name)

/-- **A text has a shape**, which tells a type. -/
inductive Fits : Shape → List Char → String → Prop
  | int {sign digits rest : List Char} (hsign : IsSign sign) (hdigits : isDigits digits = true)
      (hend : AtEnd rest) : Fits .int (sign ++ (digits ++ rest)) "int"
  | float {sign whole fraction rest : List Char} (hsign : IsSign sign)
      (hwhole : isDigits whole = true) (hfraction : isDigits fraction = true)
      (hend : AtEnd rest) : Fits .float (sign ++ (whole ++ '.' :: (fraction ++ rest))) "float64"
  | bool {word rest : List Char} (hword : word = "true".toList ∨ word = "false".toList)
      (hend : AtEnd rest) : Fits .bool (word ++ rest) "bool"
  | string {quote : Char} {inner rest : List Char} (hquote : quote = '"' ∨ quote = '\x60')
      (hend : AtEnd rest) : Fits .string (quote :: (inner ++ quote :: rest)) "string"
  | nil {rest : List Char} (hend : AtEnd rest) : Fits .nil ("nil".toList ++ rest) "any"
  | slice {name rest : List Char} (hname : IsTypeName name) :
      Fits .slice ("[]".toList ++ (name ++ '{' :: rest)) ("[]" ++ String.ofList name)
  | map {key name rest : List Char} (hkey : IsWord key) (hname : IsTypeName name) :
      Fits .map ("map[".toList ++ (key ++ ']' :: (name ++ '{' :: rest)))
        ("map[" ++ String.ofList key ++ "]" ++ String.ofList name)
  | address {name rest : List Char} (hname : IsTypeName name) :
      Fits .address ('&' :: (name ++ '{' :: rest)) ("*" ++ String.ofList name)
  | composite {name rest : List Char} (hname : IsTypeName name) :
      Fits .composite (name ++ '{' :: rest) (String.ofList name)

/-- All shapes, in the order in which they are tried. -/
def Shape.all : List Shape :=
  [.int, .float, .bool, .string, .nil, .slice, .map, .address, .composite]

/-- The type that a shape tells, if a text has it. -/
def Shape.read? : Shape → List Char → Option String
  | .int => intShape
  | .float => floatShape
  | .bool => boolShape
  | .string => stringShape
  | .nil => nilShape
  | .slice => sliceShape
  | .map => mapShape
  | .address => addressShape
  | .composite => compositeShape

theorem shapes_eq : shapes = Shape.all.map Shape.read? :=
  rfl

/-! ## No text has two shapes -/

/-- The literal that a word of its own can be. -/
def loneShape : List Char → Shape
  | 'n' :: _ => .nil
  | x :: _ => if x.isDigit then .int else .bool
  | [] => .bool

/-- The shape that a word belongs to, by what stands behind it. -/
def shapeBehind (lone : Shape) : List Char → Shape
  | '{' :: _ => .composite
  | '[' :: _ => .map
  | '.' :: rest => if (rest.dropWhile isAsciiWord).head? = some '{' then .composite else .float
  | _ => lone

/-- The only shape of a text that starts with a word. -/
def wordShape (body : List Char) : Shape :=
  shapeBehind (loneShape body) (body.dropWhile isAsciiWord)

/-- The only shape that a text can have. -/
def shapeOf : List Char → Shape
  | '"' :: _ => .string
  | '\x60' :: _ => .string
  | '[' :: _ => .slice
  | '&' :: _ => .address
  | cs => wordShape (unsigned cs)

section
variable {word name digits whole fraction rest cs : List Char} {p q : Shape} {t u : String}

theorem isWord_of_isDigits (h : isDigits digits = true) : IsWord digits := by
  simp only [isDigits, Bool.and_eq_true, Bool.not_eq_true', List.all_eq_true] at h
  exact ⟨by simpa using h.1, fun x hx => by simp [isAsciiWord, Char.isAlphanum, h.2 x hx]⟩

/-- Behind an anchored end no word goes on. -/
theorem AtEnd.dropWhile (h : AtEnd rest) : rest.dropWhile isAsciiWord = rest := by
  obtain rfl | rfl := h <;> decide

theorem AtEnd.shapeBehind (h : AtEnd rest) (lone : Shape) : shapeBehind lone rest = lone := by
  obtain rfl | rfl := h <;> rfl

theorem wordShape_append (h : IsWord word) :
    wordShape (word ++ rest) = shapeBehind (loneShape word) (rest.dropWhile isAsciiWord) := by
  obtain ⟨x, more, rfl⟩ := List.exists_cons_of_ne_nil h.ne_nil
  have hlone : loneShape (x :: more ++ rest) = loneShape (x :: more) := by
    rw [List.cons_append]
    unfold loneShape
    split <;> grind
  rw [wordShape, List.dropWhile_append_of_pos h.all_word, hlone]

/-- A text that starts with a word, be it behind a sign, is told by that word. -/
theorem shapeOf_word {sign : List Char} (hsign : IsSign sign) (h : IsWord word)
    (rest : List Char) :
    shapeOf (sign ++ (word ++ rest))
      = shapeBehind (loneShape word) (rest.dropWhile isAsciiWord) := by
  rw [← wordShape_append h]
  obtain ⟨x, more, rfl⟩ := List.exists_cons_of_ne_nil h.ne_nil
  have hx := h.all_word x List.mem_cons_self
  obtain rfl | rfl := hsign
  · rw [List.nil_append, List.cons_append, shapeOf, unsigned]
    -- A word character is none of those that tell a shape, nor a sign.
    all_goals
      intro tail heq
      rw [(List.cons.inj heq).1] at hx
      cases hx
  · rfl

theorem loneShape_digits (h : isDigits digits = true) : loneShape digits = .int := by
  -- Whether a word is `nil` is asked first, but no digit is its first character.
  obtain ⟨x, more, rfl⟩ := List.exists_cons_of_ne_nil (isWord_of_isDigits h).ne_nil
  have hx : x.isDigit = true := by
    simp only [isDigits, Bool.and_eq_true, List.all_cons] at h
    exact h.2.1
  rw [loneShape, if_pos hx]
  rintro rfl
  cases hx

/-- A type name right before a brace is told by the brace. -/
theorem shapeOf_typeName (h : IsTypeName name) : shapeOf (name ++ '{' :: rest) = .composite := by
  have hbrace : ('{' :: rest).dropWhile isAsciiWord = '{' :: rest :=
    List.dropWhile_cons_of_neg (by decide)
  cases h with
  | plain h =>
    have hshape := shapeOf_word (.inl rfl) h ('{' :: rest)
    rwa [hbrace] at hshape
  | @qualified package name hp h =>
    have hshape := shapeOf_word (.inl rfl) hp ('.' :: (name ++ '{' :: rest))
    rw [List.dropWhile_cons_of_neg (by decide), shapeBehind,
      List.dropWhile_append_of_pos h.all_word, hbrace, List.head?_cons, if_pos rfl] at hshape
    rwa [List.append_assoc]

/-- **A text has no other shape** than the one that its first word tells. -/
theorem Fits.eq_shapeOf (h : Fits p cs t) : p = shapeOf cs := by
  cases h with
  | int hsign hdigits hend =>
    rw [shapeOf_word hsign (isWord_of_isDigits hdigits), hend.dropWhile, hend.shapeBehind,
      loneShape_digits hdigits]
  | float hsign hwhole hfraction hend =>
    rw [shapeOf_word hsign (isWord_of_isDigits hwhole), List.dropWhile_cons_of_neg (by decide),
      shapeBehind, List.dropWhile_append_of_pos (isWord_of_isDigits hfraction).all_word,
      hend.dropWhile]
    obtain rfl | rfl := hend <;> rfl
  | bool hword hend =>
    obtain rfl | rfl := hword <;> obtain rfl | rfl := hend <;> decide
  | string hquote hend =>
    obtain rfl | rfl := hquote <;> rfl
  | nil hend => obtain rfl | rfl := hend <;> decide
  | slice hname => rfl
  | @map key name rest hkey hname =>
    have hword : IsWord ['m', 'a', 'p'] := ⟨List.cons_ne_nil _ _, List.all_eq_true.1 rfl⟩
    have hmap := shapeOf_word (.inl rfl) hword ('[' :: (key ++ ']' :: (name ++ '{' :: rest)))
    rw [List.dropWhile_cons_of_neg (by decide)] at hmap
    exact hmap.symm
  | address hname => rfl
  | composite hname => rw [shapeOf_typeName hname]

theorem Fits.shape_unique (hp : Fits p cs t) (hq : Fits q cs u) : p = q :=
  hp.eq_shapeOf.trans hq.eq_shapeOf.symm

/-! ## A shape is read where it is -/

/-- What is read as a word is one, if there is anything of it. -/
theorem isWord_takeWhile (h : (cs.takeWhile isAsciiWord).isEmpty ≠ true) :
    IsWord (cs.takeWhile isAsciiWord) :=
  ⟨by simpa using h, fun _ hx => List.mem_takeWhile_imp hx⟩

theorem takeWhile_append_drop_length (cs : List Char) :
    cs.takeWhile isAsciiWord ++ cs.drop (cs.takeWhile isAsciiWord).length = cs :=
  (List.prefix_iff_eq_append.1 (List.takeWhile_prefix isAsciiWord))

/-- What is read as the name of a type is one, at the front of the text. -/
theorem typeName?_sound (h : typeName? cs = some (name, rest)) :
    IsTypeName name ∧ cs = name ++ rest := by
  rw [typeName?] at h
  split at h
  · cases h
  next hfirst =>
  have hcs := takeWhile_append_drop_length cs
  split at h
  · next behind hbehind =>
    rw [hbehind] at hcs
    dsimp only at h
    split at h
    · cases h
      exact ⟨.plain (isWord_takeWhile hfirst), hcs.symm⟩
    · next hsecond =>
      cases h
      refine ⟨.qualified (isWord_takeWhile hfirst) (isWord_takeWhile hsecond), ?_⟩
      rw [List.append_assoc, List.cons_append, takeWhile_append_drop_length, hcs]
  · cases h
    exact ⟨.plain (isWord_takeWhile hfirst), hcs.symm⟩

/-- The name of a type is read whole where neither a word nor a dot goes on. -/
theorem typeName?_append {c : Char} (hname : IsTypeName name) (hc : isAsciiWord c = false)
    (hdot : c ≠ '.') : typeName? (name ++ c :: rest) = some (name, c :: rest) := by
  cases hname with
  | plain h =>
    rw [typeName?, h.takeWhile_append hc, if_neg (by simpa using h.ne_nil), List.drop_left]
    split
    · next heq => exact absurd (List.cons.inj heq).1 hdot
    · rfl
  | @qualified package name hp h =>
    have htext : package ++ '.' :: name ++ c :: rest = package ++ '.' :: (name ++ c :: rest) := by
      simp
    rw [htext, typeName?, hp.takeWhile_append (by decide), if_neg (by simpa using hp.ne_nil),
      List.drop_left]
    simp only [h.takeWhile_append hc, List.drop_left]
    rw [if_neg (by simpa using h.ne_nil)]

/-- **A type name before a brace** is read where it is, and nowhere else. -/
theorem literalType?_eq_some_iff :
    literalType? cs = some name ↔ IsTypeName name ∧ ∃ rest, cs = name ++ '{' :: rest := by
  constructor
  · intro h
    rw [literalType?] at h
    split at h
    · next found rest hfound =>
      cases h
      obtain ⟨hname, htext⟩ := typeName?_sound hfound
      exact ⟨hname, rest, htext⟩
    · cases h
  · rintro ⟨hname, rest, rfl⟩
    rw [literalType?, typeName?_append hname (by decide) (by decide)]
    rfl

/-- Where the text ends in no line break, an anchored pattern takes all of it. -/
theorem AtEnd.eq_nil (h : AtEnd rest) (front : List Char)
    (hback : (front ++ rest).getLast? ≠ some '\n') : rest = [] := by
  obtain rfl | rfl := h
  · rfl
  · exact absurd List.getLast?_concat hback

theorem unsigned_append {sign : List Char} (hsign : IsSign sign) (h : IsWord word) :
    unsigned (sign ++ (word ++ rest)) = word ++ rest := by
  obtain ⟨x, more, rfl⟩ := List.exists_cons_of_ne_nil h.ne_nil
  obtain rfl | rfl := hsign
  · rw [List.nil_append, List.cons_append, unsigned]
    intro tail heq
    have hx := h.all_word x List.mem_cons_self
    rw [(List.cons.inj heq).1] at hx
    cases hx
  · rfl

theorem exists_sign (cs : List Char) : ∃ sign, IsSign sign ∧ cs = sign ++ unsigned cs := by
  unfold unsigned
  split
  · exact ⟨['-'], .inr rfl, rfl⟩
  · exact ⟨[], .inl rfl, rfl⟩

/-- Two pieces with a dot between them. -/
theorem eq_of_splitOn (h : Text.splitOn '.' cs = [whole, fraction]) :
    cs = whole ++ '.' :: fraction := by
  have hjoin : ['.'].intercalate (cs.splitOn '.') = cs := List.intercalate_splitOn '.'
  rw [← Text.splitOn_eq, h] at hjoin
  simpa [List.intercalate_cons_cons] using hjoin.symm

theorem splitOn_pair (hwhole : IsWord whole) (hfraction : IsWord fraction) :
    Text.splitOn '.' (whole ++ '.' :: fraction) = [whole, fraction] := by
  rw [Text.splitOn_eq, List.splitOn_append_cons_self,
    List.splitOn_eq_singleton (hwhole.not_mem (by decide)),
    List.splitOn_eq_singleton (hfraction.not_mem (by decide))]
  rfl

theorem isBetween_iff {quote : Char} :
    isBetween quote cs = true ↔ ∃ inner, cs = quote :: (inner ++ [quote]) := by
  simp only [isBetween, Bool.and_eq_true, decide_eq_true_eq]
  constructor
  · rintro ⟨⟨hlength, hhead⟩, hlast⟩
    obtain ⟨more, rfl⟩ : ∃ more, cs = quote :: more := ⟨cs.tail, (List.cons_head?_tail hhead).symm⟩
    have hmore : more ≠ [] := by
      rintro rfl
      simp at hlength
    obtain ⟨inner, x, rfl⟩ := (List.eq_nil_or_concat more).resolve_left hmore
    rw [List.concat_eq_append, ← List.cons_append, List.getLast?_concat, Option.some.injEq] at hlast
    exact ⟨inner, by rw [hlast, List.concat_eq_append]⟩
  · rintro ⟨inner, rfl⟩
    refine ⟨⟨by simp, rfl⟩, ?_⟩
    rw [← List.cons_append, List.getLast?_concat]

/-- The name of a type behind a lead and in front of a brace, with something put before
it. -/
def typeBehind? (lead : List Char) (mark : String) (cs : List Char) : Option String :=
  (Text.after? lead cs).bind fun rest =>
    (literalType? rest).bind fun name => some (mark ++ String.ofList name)

theorem typeBehind?_eq_some_iff (lead : List Char) (mark : String) :
    typeBehind? lead mark cs = some t ↔ ∃ name rest, IsTypeName name
      ∧ cs = lead ++ (name ++ '{' :: rest) ∧ mark ++ String.ofList name = t := by
  simp only [typeBehind?, Option.bind_eq_some_iff, Text.after?_eq_some_iff,
    literalType?_eq_some_iff, Option.some.injEq]
  constructor
  · rintro ⟨_, rfl, name, ⟨hname, rest, rfl⟩, ht⟩
    exact ⟨name, rest, hname, rfl, ht⟩
  · rintro ⟨name, rest, hname, rfl, ht⟩
    exact ⟨_, rfl, name, ⟨hname, rest, rfl⟩, ht⟩

/-- The type of a map literal. -/
theorem mapShape_eq_some_iff :
    mapShape cs = some t ↔ ∃ key name rest, IsWord key ∧ IsTypeName name
      ∧ cs = "map[".toList ++ (key ++ ']' :: (name ++ '{' :: rest))
      ∧ "map[" ++ String.ofList key ++ "]" ++ String.ofList name = t := by
  constructor
  · intro h
    obtain ⟨behind, hlead, h⟩ := Option.bind_eq_some_iff.1 h
    dsimp only at h
    split at h
    · cases h
    next hkey =>
    obtain ⟨name, rest, hname, hcs, ht⟩ := (typeBehind?_eq_some_iff [']'] _).1 h
    refine ⟨_, name, rest, isWord_takeWhile hkey, hname, ?_, ht⟩
    rw [Text.after?_eq_some_iff.1 hlead, ← List.singleton_append, ← hcs,
      takeWhile_append_drop_length]
  · rintro ⟨key, name, rest, hkey, hname, rfl, ht⟩
    rw [mapShape, Text.after?_eq_some_iff.2 rfl, Option.bind_eq_bind, Option.bind_some]
    dsimp only
    rw [hkey.takeWhile_append (by decide), if_neg (by simpa using hkey.ne_nil), List.drop_left]
    exact (typeBehind?_eq_some_iff [']'] _).2 ⟨name, rest, hname, rfl, ht⟩

/-- What a shape is read off has it. -/
theorem fits_of_read? (h : p.read? cs = some t) : Fits p cs t := by
  cases p with
  | int =>
    obtain ⟨hdigits, rfl⟩ : isDigits (unsigned cs) = true ∧ "int" = t := by
      simpa [Shape.read?, intShape] using h
    obtain ⟨sign, hsign, hcs⟩ := exists_sign cs
    have hfits := Fits.int hsign hdigits (.inl rfl)
    rwa [List.append_nil, ← hcs] at hfits
  | float =>
    change floatShape cs = some t at h
    rw [floatShape] at h
    split at h
    · next whole fraction hsplit =>
      obtain ⟨⟨hwhole, hfraction⟩, rfl⟩ : (isDigits whole = true ∧ isDigits fraction = true)
          ∧ "float64" = t := by simpa using h
      obtain ⟨sign, hsign, hcs⟩ := exists_sign cs
      have hfits := Fits.float hsign hwhole hfraction (.inl rfl)
      rwa [List.append_nil, ← eq_of_splitOn hsplit, ← hcs] at hfits
    · cases h
  | bool =>
    obtain ⟨hword, rfl⟩ : (cs = "true".toList ∨ cs = "false".toList) ∧ "bool" = t := by
      simpa [Shape.read?, boolShape] using h
    have hfits := Fits.bool hword (.inl rfl)
    rwa [List.append_nil] at hfits
  | string =>
    obtain ⟨hquote, rfl⟩ :
        (isBetween '"' cs = true ∨ isBetween '\x60' cs = true) ∧ "string" = t := by
      simpa [Shape.read?, stringShape] using h
    obtain hquote | hquote := hquote
    all_goals
      obtain ⟨inner, rfl⟩ := isBetween_iff.1 hquote
    · exact .string (.inl rfl) (.inl rfl)
    · exact .string (.inr rfl) (.inl rfl)
  | nil =>
    obtain ⟨rfl, rfl⟩ : cs = "nil".toList ∧ "any" = t := by
      simpa [Shape.read?, nilShape] using h
    exact .nil (.inl rfl)
  | slice =>
    obtain ⟨name, rest, hname, rfl, rfl⟩ := (typeBehind?_eq_some_iff "[]".toList "[]").1 h
    exact .slice hname
  | map =>
    obtain ⟨key, name, rest, hkey, hname, rfl, rfl⟩ := mapShape_eq_some_iff.1 h
    exact .map hkey hname
  | address =>
    obtain ⟨name, rest, hname, rfl, rfl⟩ := (typeBehind?_eq_some_iff ['&'] "*").1 h
    exact .address hname
  | composite =>
    obtain ⟨name, hname, rfl⟩ := Option.map_eq_some_iff.1 h
    obtain ⟨htype, rest, rfl⟩ := literalType?_eq_some_iff.1 hname
    exact .composite htype

/-- A text that has a shape is read so, provided that no line break stands at its end. -/
theorem Fits.read?_eq (h : Fits p cs t) (hback : cs.getLast? ≠ some '\n') :
    p.read? cs = some t := by
  cases h with
  | @int sign digits rest hsign hdigits hend =>
    obtain rfl : rest = [] := hend.eq_nil (sign ++ digits) (by rwa [List.append_assoc])
    have hword := isWord_of_isDigits hdigits
    rw [Shape.read?, intShape, unsigned_append hsign hword, List.append_nil, if_pos hdigits]
  | @float sign whole fraction rest hsign hwhole hfraction hend =>
    obtain rfl : rest = [] :=
      hend.eq_nil (sign ++ whole ++ '.' :: fraction) (by simpa using hback)
    rw [Shape.read?, floatShape, unsigned_append hsign (isWord_of_isDigits hwhole),
      List.append_nil, splitOn_pair (isWord_of_isDigits hwhole) (isWord_of_isDigits hfraction)]
    simp [hwhole, hfraction]
  | bool hword hend =>
    obtain rfl := hend.eq_nil _ hback
    rw [List.append_nil]
    obtain rfl | rfl := hword <;> rfl
  | @string quote inner rest hquote hend =>
    obtain rfl : rest = [] :=
      hend.eq_nil (quote :: (inner ++ [quote])) (by simpa using hback)
    have hbetween : isBetween quote (quote :: (inner ++ [quote])) = true :=
      isBetween_iff.2 ⟨inner, rfl⟩
    rw [Shape.read?, stringShape]
    obtain rfl | rfl := hquote <;> simp [hbetween]
  | nil hend =>
    obtain rfl := hend.eq_nil _ hback
    rfl
  | slice hname => exact (typeBehind?_eq_some_iff "[]".toList "[]").2 ⟨_, _, hname, rfl, rfl⟩
  | map hkey hname => exact mapShape_eq_some_iff.2 ⟨_, _, _, hkey, hname, rfl, rfl⟩
  | address hname => exact (typeBehind?_eq_some_iff ['&'] "*").2 ⟨_, _, hname, rfl, rfl⟩
  | composite hname =>
    exact Option.map_eq_some_iff.2 ⟨_, literalType?_eq_some_iff.2 ⟨hname, _, rfl⟩, rfl⟩

end

/-! ## The order does not matter -/

section
variable {value : String} {p : Shape} {t : String} {order : List (List Char → Option String)}

/-- A trimmed text has no line break at its end. -/
theorem getLast?_trimList (cs : List Char) : (Text.trimList cs).getLast? ≠ some '\n' := by
  intro h
  rw [Text.trimList, List.getLast?_reverse] at h
  have hnot := List.head?_dropWhile_not Text.isBlank (cs.dropWhile Text.isBlank).reverse
  rw [h] at hnot
  cases hnot

/-- On the trimmed text of a value a shape is read where it is. -/
theorem read?_eq_some_iff :
    p.read? (Text.trimList value.toList) = some t ↔ Fits p (Text.trimList value.toList) t :=
  ⟨fits_of_read?, fun h => h.read?_eq (getLast?_trimList _)⟩

/-- The type of a value, by shapes that are tried in some order. -/
def inferBy (order : List (List Char → Option String)) (value : String) : String :=
  (order.findSome? fun shape => shape (Text.trimList value.toList)).getD "any"

theorem infer_eq_inferBy : infer = inferBy shapes :=
  rfl

theorem mem_shapes_iff {shape : List Char → Option String} :
    shape ∈ shapes ↔ ∃ p, Shape.read? p = shape := by
  have hall : ∀ p, p ∈ Shape.all := fun p => by cases p <;> decide
  simp [shapes_eq, hall]

/-- The shape that a value has is found in any order. -/
theorem inferBy_eq_of_fits (horder : order.Perm shapes)
    (h : Fits p (Text.trimList value.toList) t) : inferBy order value = t := by
  rw [inferBy]
  cases hfound : order.findSome? fun shape => shape (Text.trimList value.toList) with
  | none =>
    have hnone := List.findSome?_eq_none_iff.1 hfound _
      (horder.mem_iff.2 (mem_shapes_iff.2 ⟨p, rfl⟩))
    rw [read?_eq_some_iff.2 h] at hnone
    cases hnone
  | some u =>
    -- What is found first is read off some shape, and the value has only one.
    obtain ⟨shape, hmem, hu⟩ := List.exists_of_findSome?_eq_some hfound
    obtain ⟨q, rfl⟩ := mem_shapes_iff.1 (horder.mem_iff.1 hmem)
    obtain rfl := h.shape_unique (fits_of_read? hu)
    rw [read?_eq_some_iff.2 h] at hu
    exact (Option.some.inj hu).symm

theorem inferBy_eq_any (horder : order.Perm shapes)
    (h : ∀ p t, ¬ Fits p (Text.trimList value.toList) t) : inferBy order value = "any" := by
  have hnone : (order.findSome? fun shape => shape (Text.trimList value.toList)) = none := by
    refine List.findSome?_eq_none_iff.2 fun shape hmem => ?_
    obtain ⟨p, rfl⟩ := mem_shapes_iff.1 (horder.mem_iff.1 hmem)
    exact Option.eq_none_iff_forall_ne_some.2 fun t ht => h p t (fits_of_read? ht)
  rw [inferBy, hnone, Option.getD_none]

theorem inferBy_eq_infer (horder : order.Perm shapes) (value : String) :
    inferBy order value = infer value := by
  rw [infer_eq_inferBy]
  by_cases h : ∃ p t, Fits p (Text.trimList value.toList) t
  · obtain ⟨p, t, h⟩ := h
    rw [inferBy_eq_of_fits horder h, inferBy_eq_of_fits (.refl _) h]
  · simp only [not_exists] at h
    rw [inferBy_eq_any horder h, inferBy_eq_any (.refl _) h]

end

/-- **No two shapes are read off one text**, and the type of a value is what its only
shape tells, in whichever order the shapes are tried. -/
theorem infer_in_any_order (value : String) :
    (∀ p t, p.read? (Text.trimList value.toList) = some t
        ↔ Fits p (Text.trimList value.toList) t)
      ∧ (∀ p q t u, Fits p (Text.trimList value.toList) t →
          Fits q (Text.trimList value.toList) u → p = q)
      ∧ (∀ order, order.Perm shapes → inferBy order value = infer value)
      ∧ (∀ p t, Fits p (Text.trimList value.toList) t → infer value = t)
      ∧ ((∀ p t, ¬ Fits p (Text.trimList value.toList) t) → infer value = "any") :=
  ⟨fun _ _ => read?_eq_some_iff, fun _ _ _ _ => Fits.shape_unique,
    fun _ horder => inferBy_eq_infer horder value, fun _ _ => inferBy_eq_of_fits (.refl _),
    inferBy_eq_any (.refl _)⟩

end Gsx.GoType
