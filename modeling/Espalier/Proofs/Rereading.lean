import Espalier.Json.Parser
import Espalier.Json.Printer
import Mathlib.Tactic.SplitIfs

set_option autoImplicit false

/-! # JSON text that reads back

The text of a value, one item or member per line, reads as that value again
(`Json.parse?_pretty`), as long as all of it is asked for, its numbers are spelled as numbers are,
and it is nested no deeper than the reader allows; what is nested deeper is refused. The reader
leaves what follows a value, so the statement about a value is one about any text behind it. -/

namespace Espalier.Json

/-! ## String literals -/

theorem hexDigit?_hexChar : ∀ n < 16, hexDigit? (hexChar n) = some n := by decide

/-- An escape of four digits reads as its unit, unless that is half of a surrogate pair. -/
theorem stringBody?_unicode {a b c d : Char} {u : Nat} (h : hexQuad? a b c d = some u)
    (hu : u < 0xD800) (rest : List Char) :
    stringBody? ('\\' :: 'u' :: a :: b :: c :: d :: rest) =
      (stringBody? rest).map fun r => (Char.ofNat u :: r.1, r.2) := by
  have hhigh : isHighSurrogate u = false := by simp [isHighSurrogate]; omega
  have hlow : isLowSurrogate u = false := by simp [isLowSurrogate]; omega
  rw [stringBody?.eq_def]
  split
  · simp_all
  · simp_all
  · next heq =>
    -- Another escape follows, and is looked at together with this one.
    cases heq
    simp only [h, Option.bind_eq_bind, Option.bind_some, hhigh, hlow]
    cases stringBody? ('\\' :: 'u' :: _) <;> rfl
  · next heq =>
    cases heq
    simp only [h, Option.bind_eq_bind, Option.bind_some, hhigh, hlow]
    cases stringBody? rest <;> rfl
  · next hnot heq =>
    cases heq
    exact (hnot a b c d rest rfl rfl).elim
  · next heq => cases heq; simp_all

theorem stringBody?_simple {c e : Char} (he : simpleEscape? e = some c) (hu : e ≠ 'u')
    (rest : List Char) :
    stringBody? ('\\' :: e :: rest) = (stringBody? rest).map fun r => (c :: r.1, r.2) := by
  rw [stringBody?.eq_def]
  split
  · simp_all
  · simp_all
  · simp_all
  · simp_all
  · next heq =>
    cases heq
    simp only [he, Option.bind_eq_bind, Option.bind_some]
    cases stringBody? rest <;> rfl
  · next hnot heq =>
    cases heq
    exact (hnot _ _ rfl rfl).elim

theorem stringBody?_plain {c : Char} (hquote : c ≠ '"') (hslash : c ≠ '\\')
    (hc : ¬ c.toNat < 0x20) (rest : List Char) :
    stringBody? (c :: rest) = (stringBody? rest).map fun r => (c :: r.1, r.2) := by
  rw [stringBody?.eq_def]
  split
  · simp_all
  · simp_all
  · simp_all
  · simp_all
  · simp_all
  · next heq =>
    cases heq
    rw [if_neg (by simp [hslash, hc])]
    cases stringBody? rest <;> rfl

/-- What is written for a character inside a string literal reads as that character. -/
theorem stringBody?_escapeChar (c : Char) (rest : List Char) :
    stringBody? (escapeChar c ++ rest) =
      (stringBody? rest).map fun r => (c :: r.1, r.2) := by
  unfold escapeChar
  split_ifs with h₁ h₂ h₃ h₄ h₅ h₆ h₇ h₈
  · exact stringBody?_simple (by rw [h₁]; decide) (by decide) rest
  · exact stringBody?_simple (by rw [h₂]; decide) (by decide) rest
  · exact stringBody?_simple (by rw [h₃]; decide) (by decide) rest
  · exact stringBody?_simple (by rw [h₄]; decide) (by decide) rest
  · exact stringBody?_simple (by rw [h₅]; decide) (by decide) rest
  · exact stringBody?_simple (by rw [h₆]; decide) (by decide) rest
  · exact stringBody?_simple (by rw [h₇]; decide) (by decide) rest
  · have hquad : hexQuad? '0' '0' (hexChar (c.toNat / 16)) (hexChar (c.toNat % 16)) =
        some c.toNat := by
      have hzero : hexDigit? '0' = some 0 := by decide
      simp only [hexQuad?, hzero, hexDigit?_hexChar (c.toNat / 16) (by omega),
        hexDigit?_hexChar (c.toNat % 16) (by omega), Option.bind_eq_bind, Option.bind_some]
      exact congrArg some (by omega)
    have h := stringBody?_unicode hquad (by omega) rest
    rwa [Char.ofNat_toNat] at h
  · exact stringBody?_plain h₁ h₂ h₈ rest

/-- A string literal reads as its text. -/
theorem stringBody?_escaped (cs rest : List Char) :
    stringBody? (cs.flatMap escapeChar ++ '"' :: rest) = some (cs, rest) := by
  induction cs with
  | nil => rfl
  | cons c cs ih => rw [List.flatMap_cons, List.append_assoc, stringBody?_escapeChar, ih]; rfl

theorem toList_quote (s : String) :
    (quote s).toList = '"' :: (s.toList.flatMap escapeChar ++ ['"']) := String.toList_ofList

/-! ## Numbers -/

/-- The characters by which a number goes on. -/
def continuesNumber (c : Char) : Bool := c.isDigit || c == '.' || c == 'e' || c == 'E'

/-- A text that does not go on with a number. -/
def EndsNumber (rest : List Char) : Prop := ∀ c ∈ rest.head?, continuesNumber c = false

theorem EndsNumber.nil : EndsNumber [] := nofun

theorem EndsNumber.cons {c : Char} (h : continuesNumber c = false) (rest : List Char) :
    EndsNumber (c :: rest) := by
  intro c' hc
  obtain rfl := Option.some.inj hc
  exact h

/-- A number as it is spelled: digits, of which the whole part has no leading zero, and at least
one digit in the exponent. -/
def Number.isSpelled (n : Number) : Bool :=
  (n.whole == [0] || (!n.whole.isEmpty && n.whole.head? != some 0)) &&
  n.whole.all (· < 10) && n.fraction.all (· < 10) &&
  n.exponent.all fun e => !e.2.isEmpty && e.2.all (· < 10)

/-- Digits are read up to what is no digit. -/
theorem digits_digitText {ds : List Nat} (hds : ds.all (· < 10)) {rest : List Char}
    (hrest : ∀ c ∈ rest.head?, c.isDigit = false) :
    digits ((digitText ds).toList ++ rest) = (ds, rest) := by
  have hdigit : ∀ d < 10, (Char.ofNat (d + 48)).isDigit = true ∧
      (Char.ofNat (d + 48)).toNat - 48 = d := by decide
  rw [digitText, String.toList_ofList]
  induction ds with
  | nil =>
    cases rest with
    | nil => rfl
    | cons c rest => simp [digits, hrest c rfl]
  | cons d ds ih =>
    rw [List.all_cons, Bool.and_eq_true, decide_eq_true_eq] at hds
    obtain ⟨h₁, h₂⟩ := hdigit d hds.1
    have ih := ih hds.2
    rw [digits, Prod.mk.injEq] at ih
    simp [digits, h₁, h₂, ih.1, ih.2]

/-- The fraction part as it is written. -/
def fractionText (ds : List Nat) : String := if ds = [] then "" else "." ++ digitText ds

/-- The exponent part as it is written. -/
def exponentText : Option (Bool × List Nat) → String
  | none => ""
  | some (negative, ds) => "e" ++ (if negative then "-" else "+") ++ digitText ds

theorem Number.text_eq (n : Number) : n.text =
    (if n.negative then "-" else "") ++ digitText n.whole ++ fractionText n.fraction
      ++ exponentText n.exponent := by
  obtain ⟨negative, whole, fraction, exponent⟩ := n
  cases exponent <;> rfl

theorem fraction?_fractionText {ds : List Nat} (hds : ds.all (· < 10)) {rest : List Char}
    (hrest : ∀ c ∈ rest.head?, c.isDigit = false ∧ c ≠ '.') :
    fraction? ((fractionText ds).toList ++ rest) = some (ds, rest) := by
  unfold fractionText
  split
  · next h =>
    subst h
    cases rest with
    | nil => rfl
    | cons c rest =>
      have hc : c ≠ '.' := (hrest c rfl).2
      simp [fraction?, hc]
  · next h =>
    have hpoint : ("." ++ digitText ds).toList ++ rest =
        '.' :: ((digitText ds).toList ++ rest) := by simp
    rw [hpoint, fraction?, digits_digitText hds fun c hc => (hrest c hc).1]
    cases ds with
    | nil => exact absurd rfl h
    | cons d ds => rfl

theorem exponentDigits?_digitText {ds : List Nat} (hne : ds ≠ []) (hds : ds.all (· < 10))
    (negative : Bool) {rest : List Char} (hrest : ∀ c ∈ rest.head?, c.isDigit = false) :
    exponentDigits? negative ((digitText ds).toList ++ rest) =
      some (some (negative, ds), rest) := by
  rw [exponentDigits?, digits_digitText hds hrest]
  cases ds with
  | nil => exact absurd rfl hne
  | cons d ds => rfl

theorem exponent?_exponentText {e : Option (Bool × List Nat)}
    (he : e.all fun e => !e.2.isEmpty && e.2.all (· < 10)) {rest : List Char}
    (hrest : EndsNumber rest) :
    exponent? ((exponentText e).toList ++ rest) = some (e, rest) := by
  cases e with
  | none =>
    cases rest with
    | nil => rfl
    | cons c rest =>
      have hc := hrest c rfl
      simp only [continuesNumber, Bool.or_eq_false_iff, beq_eq_false_iff_ne] at hc
      simp [exponentText, exponent?, hc]
  | some e =>
    obtain ⟨negative, ds⟩ := e
    have he : ds ≠ [] ∧ ds.all (· < 10) := by simpa using he
    have hdigits := fun negative => exponentDigits?_digitText he.1 he.2 negative fun c hc => by
      have hc := hrest c hc
      simp only [continuesNumber, Bool.or_eq_false_iff] at hc
      exact hc.1.1.1
    cases negative with
    | true =>
      have htext : (exponentText (some (true, ds))).toList ++ rest =
          'e' :: '-' :: ((digitText ds).toList ++ rest) := by simp [exponentText]
      rw [htext, exponent?, if_pos (.inl rfl), hdigits]
    | false =>
      have htext : (exponentText (some (false, ds))).toList ++ rest =
          'e' :: '+' :: ((digitText ds).toList ++ rest) := by simp [exponentText]
      rw [htext, exponent?, if_pos (.inl rfl), hdigits]

/-- What stands before the exponent ends there. -/
theorem head_exponentText (e : Option (Bool × List Nat)) {rest : List Char}
    (hrest : EndsNumber rest) :
    ∀ c ∈ ((exponentText e).toList ++ rest).head?, c.isDigit = false ∧ c ≠ '.' := by
  intro c hc
  cases e with
  | none =>
    have hc := hrest c (by simpa [exponentText] using hc)
    simp only [continuesNumber, Bool.or_eq_false_iff, beq_eq_false_iff_ne] at hc
    exact hc.1.1
  | some e =>
    obtain rfl : 'e' = c := by simpa [exponentText] using hc
    decide

/-- The whole part ends where the fraction or the exponent starts. -/
theorem head_fractionText (ds : List Nat) {rest : List Char}
    (hrest : ∀ c ∈ rest.head?, c.isDigit = false) :
    ∀ c ∈ ((fractionText ds).toList ++ rest).head?, c.isDigit = false := by
  intro c hc
  unfold fractionText at hc
  split at hc
  · exact hrest c (by simpa using hc)
  · obtain rfl : '.' = c := by simpa using hc
    decide

theorem unsigned?_text {n : Number} (hn : n.isSpelled) {rest : List Char}
    (hrest : EndsNumber rest) :
    unsigned? n.negative ((digitText n.whole).toList ++ ((fractionText n.fraction).toList
      ++ ((exponentText n.exponent).toList ++ rest))) = some (n, rest) := by
  obtain ⟨negative, whole, fraction, exponent⟩ := n
  simp only [Number.isSpelled, Bool.and_eq_true] at hn
  obtain ⟨⟨⟨hlead, hwhole⟩, hfraction⟩, hexponent⟩ := hn
  have hhead := head_exponentText exponent hrest
  rw [unsigned?, digits_digitText hwhole (head_fractionText _ fun c hc => (hhead c hc).1)]
  split
  · next heq =>
    obtain ⟨rfl, -⟩ := Prod.mk.inj heq
    simp at hlead
  · next heq =>
    obtain ⟨rfl, -⟩ := Prod.mk.inj heq
    simp at hlead
  · next heq =>
    obtain ⟨rfl, rfl⟩ := Prod.mk.inj heq
    have hexponent := exponent?_exponentText hexponent hrest
    simp only [fraction?_fractionText hfraction hhead, Option.bind_eq_bind, Option.bind_some,
      hexponent]

/-- The digits of a number start with a digit. -/
theorem exists_digit_head {ds : List Nat} (hne : ds ≠ []) (hds : ds.all (· < 10)) :
    ∃ c cs, (digitText ds).toList = c :: cs ∧ c.isDigit = true := by
  cases ds with
  | nil => exact absurd rfl hne
  | cons d ds =>
    have hdigit : ∀ d < 10, (Char.ofNat (d + 48)).isDigit = true := by decide
    rw [List.all_cons, Bool.and_eq_true, decide_eq_true_eq] at hds
    exact ⟨_, _, by rw [digitText, String.toList_ofList, List.map_cons], hdigit d hds.1⟩

theorem Number.whole_ne_nil {n : Number} (hn : n.isSpelled) : n.whole ≠ [] := by
  intro hnil
  simp [isSpelled, hnil] at hn

theorem Number.whole_all {n : Number} (hn : n.isSpelled) : n.whole.all (· < 10) := by
  simp only [isSpelled, Bool.and_eq_true] at hn
  exact hn.1.1.2

/-- The text of a number starts with a dash or a digit. -/
theorem Number.text_head {n : Number} (hn : n.isSpelled) :
    ∃ c cs, n.text.toList = c :: cs ∧ (c = '-' ∨ c.isDigit = true) := by
  obtain ⟨c, cs, hcs, hc⟩ := exists_digit_head (whole_ne_nil hn) (whole_all hn)
  rw [text_eq]
  simp only [String.toList_append, hcs]
  cases n.negative with
  | true => exact ⟨'-', _, rfl, .inl rfl⟩
  | false => exact ⟨c, _, rfl, .inr hc⟩

/-- The text of a number reads as that number. -/
theorem number?_text {n : Number} (hn : n.isSpelled) {rest : List Char} (hrest : EndsNumber rest) :
    number? (n.text.toList ++ rest) = some (n, rest) := by
  have hunsigned := unsigned?_text hn hrest
  cases hneg : n.negative with
  | true =>
    rw [hneg] at hunsigned
    have htext : n.text.toList ++ rest = '-' :: ((digitText n.whole).toList ++
        ((fractionText n.fraction).toList ++ ((exponentText n.exponent).toList ++ rest))) := by
      simp [Number.text_eq, hneg]
    rw [htext]
    exact hunsigned
  | false =>
    rw [hneg] at hunsigned
    have htext : n.text.toList ++ rest = (digitText n.whole).toList ++
        ((fractionText n.fraction).toList ++ ((exponentText n.exponent).toList ++ rest)) := by
      simp [Number.text_eq, hneg]
    obtain ⟨c, cs, hcs, hc⟩ := exists_digit_head (Number.whole_ne_nil hn) (Number.whole_all hn)
    rw [htext]
    rw [hcs, List.cons_append] at hunsigned ⊢
    have hdash : c ≠ '-' := by
      rintro rfl
      cases hc
    unfold number?
    split
    · next heq => exact absurd (List.cons.inj heq).1 hdash
    · exact hunsigned

/-! ## Values -/

mutual

/-- How deeply brackets are nested in a value. -/
def depth : Json → Nat
  | .arr items => depthOfList items + 1
  | .obj members => depthOfMembers members + 1
  | _ => 0

/-- `depth` for the items of an array. -/
def depthOfList : List Json → Nat
  | [] => 0
  | j :: rest => max (depth j) (depthOfList rest)

/-- `depth` for the members of an object. -/
def depthOfMembers : List (String × Json) → Nat
  | [] => 0
  | (_, j) :: rest => max (depth j) (depthOfMembers rest)

end

mutual

/-- Does a shape ask for every part of a value? -/
def Shape.asks (s : Shape) : Json → Bool
  | .arr items => !s.isIgnored && s.asksItems 0 items
  | .obj members => !s.isIgnored && s.asksMembers members
  | _ => !s.isIgnored

/-- `asks` for the items of an array from an index on. -/
def Shape.asksItems (s : Shape) (index : Nat) : List Json → Bool
  | [] => true
  | j :: rest => (s.item index).asks j && s.asksItems (index + 1) rest

/-- `asks` for the members of an object. -/
def Shape.asksMembers (s : Shape) : List (String × Json) → Bool
  | [] => true
  | (name, j) :: rest => (s.member name).asks j && s.asksMembers rest

end

theorem Shape.not_ignored {s : Shape} {j : Json} (h : s.asks j) : s.isIgnored = false := by
  cases j <;> simp_all [asks]

/-! ### Layout -/

/-- Parts with a comma and `lead` between them and `closing` behind the last. -/
def listed (lead closing : List Char) : List (List Char) → List Char
  | [] => closing
  | [part] => part ++ closing
  | part :: next :: parts => part ++ ',' :: (lead ++ listed lead closing (next :: parts))

theorem toList_bracketed (level : Nat) (opening closing : String) {parts : List String}
    (hne : parts ≠ []) : (bracketed level opening closing parts).toList = opening.toList ++
      ((newline (level + 1)).toList ++ listed (newline (level + 1)).toList
        ((newline level).toList ++ closing.toList) (parts.map String.toList)) := by
  rw [bracketed, if_neg hne]
  simp only [String.toList_append, String.toList_intercalate, List.append_assoc]
  refine congrArg _ (congrArg _ ?_)
  induction parts with
  | nil => exact absurd rfl hne
  | cons part parts ih =>
    cases parts with
    | nil => simp [listed]
    | cons next parts =>
      have ih := ih (by simp)
      simp only [List.map_cons] at ih
      rw [List.map_cons, List.map_cons, List.intercalate_cons_cons, List.append_assoc,
        List.append_assoc, ih, listed]
      simp

theorem isBlank_newline (level : Nat) : (newline level).toList.all isBlank = true := by
  simp [newline, isBlank]

theorem skipBlanks_append {blanks : List Char} (hb : blanks.all isBlank = true) (cs : List Char) :
    skipBlanks (blanks ++ cs) = skipBlanks cs := by
  induction blanks with
  | nil => rfl
  | cons b blanks ih =>
    rw [List.all_cons, Bool.and_eq_true] at hb
    simp only [skipBlanks, List.cons_append, List.dropWhile_cons, hb.1, if_true]
    exact ih hb.2

theorem skipBlanks_cons {c : Char} (hc : isBlank c = false) (cs : List Char) :
    skipBlanks (c :: cs) = c :: cs := by simp [skipBlanks, hc]

/-! ### Steps of the reader -/

section Steps

variable {shape : Shape} {levels fuel : Nat} {cs rest : List Char}

attribute [local simp] value?

/-- A text that is no literal and opens no bracket is read as a word or a number. -/
theorem value?_scalar {c : Char} (hshape : shape.isIgnored = false)
    (hcs : skipBlanks cs = c :: rest) (hquote : c ≠ '"') (harr : c ≠ '[') (hobj : c ≠ '\x7b') :
    value? shape levels (fuel + 1) cs = scalar? (c :: rest) := by
  cases shape with
  | ignored => cases hshape
  | _ => simp [hcs, hquote, harr, hobj]

/-- Where no more levels are allowed, no bracket is opened. -/
theorem value?_too_deep {c : Char} (hshape : shape.isIgnored = false)
    (hcs : skipBlanks cs = c :: rest) (hc : c = '[' ∨ c = '\x7b') :
    value? shape 0 (fuel + 1) cs = none := by
  have hscalar : scalar? (c :: rest) = none := by
    rcases hc with rfl | rfl <;> simp [scalar?, number?, unsigned?, digits]
  cases shape with
  | ignored => cases hshape
  | _ => rcases hc with rfl | rfl <;> simp [hcs, hscalar]

theorem value?_quote (hshape : shape.isIgnored = false) (text : String) {cs : List Char}
    (hcs : skipBlanks cs = (quote text).toList ++ rest) :
    value? shape levels (fuel + 1) cs = some (.str text, rest) := by
  rw [toList_quote, List.cons_append, List.append_assoc] at hcs
  cases shape with
  | ignored => cases hshape
  | _ => simp [hcs, stringBody?_escaped]

theorem value?_arr (hshape : shape.isIgnored = false) (hcs : skipBlanks cs = '[' :: rest)
    (hrest : ∀ r, skipBlanks rest ≠ ']' :: r) : value? shape (levels + 1) (fuel + 1) cs =
      (items? shape 0 levels fuel (skipBlanks rest)).map fun r => (.arr r.1, r.2) := by
  rw [value?.eq_3 _ _ _ _ _ _ hcs]
  · split
    · next h => exact absurd h (hrest _)
    · cases items? shape 0 levels fuel (skipBlanks rest) <;> rfl
  · rintro rfl
    cases hshape

theorem value?_obj (hshape : shape.isIgnored = false) (hcs : skipBlanks cs = '\x7b' :: rest)
    (hrest : ∀ r, skipBlanks rest ≠ '\x7d' :: r) : value? shape (levels + 1) (fuel + 1) cs =
      (members? shape levels fuel (skipBlanks rest)).map fun r => (.obj r.1, r.2) := by
  rw [value?.eq_4 _ _ _ _ _ _ hcs]
  · split
    · next h => exact absurd h (hrest _)
    · cases members? shape levels fuel (skipBlanks rest) <;> rfl
  · rintro rfl
    cases hshape

/-- An empty bracket. -/
theorem value?_empty_arr (hshape : shape.isIgnored = false)
    (hcs : skipBlanks cs = '[' :: ']' :: rest) :
    value? shape (levels + 1) (fuel + 1) cs = some (.arr [], rest) := by
  cases shape with
  | ignored => cases hshape
  | _ => simp [hcs, skipBlanks_cons (show isBlank ']' = false by decide)]

theorem value?_empty_obj (hshape : shape.isIgnored = false)
    (hcs : skipBlanks cs = '\x7b' :: '\x7d' :: rest) :
    value? shape (levels + 1) (fuel + 1) cs = some (.obj [], rest) := by
  cases shape with
  | ignored => cases hshape
  | _ => simp [hcs, skipBlanks_cons (show isBlank '\x7d' = false by decide)]

/-- An item with another one behind it. -/
theorem items?_more {index : Nat} {item : Json} {r : List Char}
    (hitem : value? (shape.item index) levels fuel cs = some (item, r))
    (hr : skipBlanks r = ',' :: rest) :
    items? shape index levels (fuel + 1) cs =
      (items? shape (index + 1) levels fuel rest).map fun r => (item :: r.1, r.2) := by
  rw [items?.eq_2, hitem, Option.bind_eq_bind, Option.bind_some]
  simp only [hr]
  cases items? shape (index + 1) levels fuel rest <;> rfl

theorem items?_last {index : Nat} {item : Json} {r : List Char}
    (hitem : value? (shape.item index) levels fuel cs = some (item, r))
    (hr : skipBlanks r = ']' :: rest) :
    items? shape index levels (fuel + 1) cs = some ([item], rest) := by
  rw [items?.eq_2, hitem, Option.bind_eq_bind, Option.bind_some]
  simp only [hr]

theorem items?_refused {index : Nat} (hitem : value? (shape.item index) levels fuel cs = none) :
    items? shape index levels (fuel + 1) cs = none := by
  rw [items?.eq_2, hitem]
  rfl

/-- A member with another one behind it. -/
theorem members?_more {name : String} {item : Json} {r r' : List Char}
    (hcs : skipBlanks cs = (quote name).toList ++ ':' :: r)
    (hitem : value? (shape.member name) levels fuel r = some (item, r'))
    (hr : skipBlanks r' = ',' :: rest) (hasked : (shape.member name).isIgnored = false) :
    members? shape levels (fuel + 1) cs =
      (members? shape levels fuel rest).map fun r => ((name, item) :: r.1, r.2) := by
  rw [toList_quote, List.cons_append, List.append_assoc] at hcs
  rw [members?.eq_2, hcs]
  simp only [List.singleton_append, stringBody?_escaped, Option.bind_eq_bind, Option.bind_some,
    String.ofList_toList, skipBlanks_cons (show isBlank ':' = false by decide), hitem, hr]
  cases members? shape levels fuel rest with
  | none => rfl
  | some r => simp [Shape.keep, hasked]

theorem members?_last {name : String} {item : Json} {r r' : List Char}
    (hcs : skipBlanks cs = (quote name).toList ++ ':' :: r)
    (hitem : value? (shape.member name) levels fuel r = some (item, r'))
    (hr : skipBlanks r' = '\x7d' :: rest) (hasked : (shape.member name).isIgnored = false) :
    members? shape levels (fuel + 1) cs = some ([(name, item)], rest) := by
  rw [toList_quote, List.cons_append, List.append_assoc] at hcs
  rw [members?.eq_2, hcs]
  simp [stringBody?_escaped, skipBlanks_cons (show isBlank ':' = false by decide), hitem, hr,
    Shape.keep, hasked]

theorem members?_refused {name : String} {r : List Char}
    (hcs : skipBlanks cs = (quote name).toList ++ ':' :: r)
    (hitem : value? (shape.member name) levels fuel r = none) :
    members? shape levels (fuel + 1) cs = none := by
  rw [toList_quote, List.cons_append, List.append_assoc] at hcs
  rw [members?.eq_2, hcs]
  simp [stringBody?_escaped, skipBlanks_cons (show isBlank ':' = false by decide), hitem]

end Steps

/-! ### What is written reads back -/

theorem prettyAt_arr (level : Nat) (items : List Json) :
    (prettyAt level (.arr items)).toList =
      '[' :: (prettyAt level (.arr items)).toList.tail := by
  rw [prettyAt, bracketed]
  split <;> simp

theorem prettyAt_obj (level : Nat) (members : List (String × Json)) :
    (prettyAt level (.obj members)).toList =
      '\x7b' :: (prettyAt level (.obj members)).toList.tail := by
  rw [prettyAt, bracketed]
  split <;> simp

/-- The text of a value starts with a character that is no blank and closes no bracket. -/
theorem prettyAt_head {j : Json} (hj : j.allNumbers Number.isSpelled) (level : Nat) :
    ∃ c cs, (prettyAt level j).toList = c :: cs ∧ isBlank c = false ∧ c ≠ ']' := by
  cases j with
  | null => exact ⟨'n', ['u', 'l', 'l'], by rw [prettyAt]; rfl, by decide, by decide⟩
  | bool b =>
    cases b with
    | true => exact ⟨'t', ['r', 'u', 'e'], by rw [prettyAt]; rfl, by decide, by decide⟩
    | false => exact ⟨'f', ['a', 'l', 's', 'e'], by rw [prettyAt]; rfl, by decide, by decide⟩
  | num n =>
    obtain ⟨c, cs, hcs, hc⟩ := Number.text_head (n := n) hj
    refine ⟨c, cs, hcs, ?_⟩
    rcases hc with rfl | hc
    · decide
    · constructor
      · cases hblank : isBlank c with
        | false => rfl
        | true =>
          simp only [isBlank, Bool.or_eq_true, beq_iff_eq] at hblank
          rcases hblank with ((rfl | rfl) | rfl) | rfl <;> cases hc
      · rintro rfl
        cases hc
  | str s => exact ⟨'"', _, toList_quote s, by decide, by decide⟩
  | arr items =>
    exact ⟨'[', _, prettyAt_arr level items, by decide, by decide⟩
  | obj members =>
    exact ⟨'\x7b', _, prettyAt_obj level members, by decide, by decide⟩

/-- Blanks and a bracket end a number. -/
theorem EndsNumber.of_blanks {blanks : List Char} (hb : blanks.all isBlank = true) {c : Char}
    (hc : continuesNumber c = false) (rest : List Char) : EndsNumber (blanks ++ c :: rest) := by
  cases blanks with
  | nil => exact .cons hc rest
  | cons b blanks =>
    rw [List.all_cons, Bool.and_eq_true] at hb
    refine .cons ?_ _
    simp only [isBlank, Bool.or_eq_true, beq_iff_eq] at hb
    rcases hb.1 with ((rfl | rfl) | rfl) | rfl <;> decide

theorem length_newline_pos (level : Nat) : 0 < (newline level).toList.length := by simp [newline]

section Parts

variable {shape : Shape} {levels fuel level : Nat} {cs rest : List Char}

/-- The text of a value without parts, whatever follows it, reads as that value. -/
theorem value?_atom {j : Json} (hdepth : j.depth = 0) (hasks : shape.asks j)
    (hj : j.allNumbers Number.isSpelled) (hrest : EndsNumber rest)
    (hcs : skipBlanks cs = (prettyAt level j).toList ++ rest) :
    value? shape levels (fuel + 1) cs = some (j, rest) := by
  cases j with
  | null =>
    simp only [Shape.asks, Bool.not_eq_true'] at hasks
    rw [prettyAt] at hcs
    rw [value?_scalar hasks hcs (by decide) (by decide) (by decide)]
    rfl
  | bool b =>
    simp only [Shape.asks, Bool.not_eq_true'] at hasks
    cases b <;>
    · rw [prettyAt] at hcs
      rw [value?_scalar hasks hcs (by decide) (by decide) (by decide)]
      rfl
  | num n =>
    simp only [Shape.asks, Bool.not_eq_true'] at hasks
    rw [prettyAt] at hcs
    have hn := number?_text hj hrest
    obtain ⟨c, r, hhead, hc⟩ := Number.text_head (n := n) hj
    rw [hhead, List.cons_append] at hcs hn
    have hne : c ≠ '"' ∧ c ≠ '[' ∧ c ≠ '\x7b' ∧ c ≠ 'n' ∧ c ≠ 't' ∧ c ≠ 'f' := by
      refine ⟨?_, ?_, ?_, ?_, ?_, ?_⟩ <;> rintro rfl <;> rcases hc with h | h <;> cases h
    obtain ⟨hquote, harr, hobj, hnull, htrue, hfalse⟩ := hne
    rw [value?_scalar hasks hcs hquote harr hobj]
    simp [scalar?, hnull, htrue, hfalse, hn]
  | str text =>
    simp only [Shape.asks, Bool.not_eq_true'] at hasks
    rw [prettyAt] at hcs
    exact value?_quote hasks text hcs
  | arr | obj => simp [depth] at hdepth

end Parts

/-- The items of an array at a nesting level, up to the bracket behind them. -/
def itemsText (level : Nat) (closing : List Char) (items : List Json) : List Char :=
  listed (newline level).toList (closing ++ [']']) ((prettyItems level items).map String.toList)

/-- The members of an object at a nesting level, up to the brace behind them. -/
def membersText (level : Nat) (closing : List Char) (members : List (String × Json)) : List Char :=
  listed (newline level).toList (closing ++ ['\x7d'])
    ((prettyMembers level members).map String.toList)

theorem toList_prettyAt_arr (level : Nat) (item : Json) (items : List Json) :
    (prettyAt level (.arr (item :: items))).toList = '[' :: ((newline (level + 1)).toList ++
      itemsText (level + 1) (newline level).toList (item :: items)) := by
  rw [prettyAt, toList_bracketed level _ _ (by simp [prettyItems])]
  simp [itemsText]

theorem toList_prettyAt_obj (level : Nat) (m : String × Json) (members : List (String × Json)) :
    (prettyAt level (.obj (m :: members))).toList = '\x7b' :: ((newline (level + 1)).toList ++
      membersText (level + 1) (newline level).toList (m :: members)) := by
  rw [prettyAt, toList_bracketed level _ _ (by simp [prettyMembers])]
  simp [membersText]

theorem skipBlanks_itemsText {blanks : List Char} (hb : blanks.all isBlank = true) {item : Json}
    (hitem : item.allNumbers Number.isSpelled) (level : Nat) (closing : List Char)
    (items : List Json) (rest : List Char) :
    skipBlanks (blanks ++ (itemsText level closing (item :: items) ++ rest)) =
      itemsText level closing (item :: items) ++ rest := by
  obtain ⟨c, cs, hhead, hblank, -⟩ := prettyAt_head hitem level
  rw [itemsText, prettyItems, List.map_cons, hhead, skipBlanks_append hb]
  cases (prettyItems level items).map String.toList <;> exact skipBlanks_cons hblank _

theorem toList_member (level : Nat) (name : String) (j : Json) :
    (quote name ++ ": " ++ prettyAt level j).toList =
      (quote name).toList ++ ':' :: ' ' :: (prettyAt level j).toList := by simp

theorem skipBlanks_membersText {blanks : List Char} (hb : blanks.all isBlank = true)
    (m : String × Json) (level : Nat) (closing : List Char) (members : List (String × Json))
    (rest : List Char) :
    skipBlanks (blanks ++ (membersText level closing (m :: members) ++ rest)) =
      membersText level closing (m :: members) ++ rest := by
  rw [membersText, prettyMembers, List.map_cons, toList_member, toList_quote, skipBlanks_append hb]
  cases (prettyMembers level members).map String.toList <;> exact skipBlanks_cons rfl _

theorem itemsText_singleton (level : Nat) (closing : List Char) (item : Json) :
    itemsText level closing [item] = (prettyAt level item).toList ++ (closing ++ [']']) := rfl

theorem itemsText_cons_cons (level : Nat) (closing : List Char) (item next : Json)
    (items : List Json) : itemsText level closing (item :: next :: items) =
      (prettyAt level item).toList ++
        ',' :: ((newline level).toList ++ itemsText level closing (next :: items)) := rfl

theorem membersText_singleton (level : Nat) (closing : List Char) (name : String) (item : Json) :
    membersText level closing [(name, item)] = (quote name).toList ++
      ':' :: ' ' :: ((prettyAt level item).toList ++ (closing ++ ['\x7d'])) := by
  simp [membersText, prettyMembers, listed]

theorem membersText_cons_cons (level : Nat) (closing : List Char) (name : String) (item : Json)
    (next : String × Json) (members : List (String × Json)) :
    membersText level closing ((name, item) :: next :: members) = (quote name).toList ++
      ':' :: ' ' :: ((prettyAt level item).toList ++
        ',' :: ((newline level).toList ++ membersText level closing (next :: members))) := by
  simp [membersText, prettyMembers, listed]

/-- The items of an array are read where it opens. -/
theorem value?_prettyItems {item : Json} {items : List Json} {shape : Shape}
    {levels fuel level : Nat} {cs rest : List Char} (hshape : shape.isIgnored = false)
    (hitem : item.allNumbers Number.isSpelled)
    (hcs : skipBlanks cs = (prettyAt level (.arr (item :: items))).toList ++ rest) :
    value? shape (levels + 1) (fuel + 1) cs =
      (items? shape 0 levels fuel
        (itemsText (level + 1) (newline level).toList (item :: items) ++ rest)).map
        fun r => (.arr r.1, r.2) := by
  rw [toList_prettyAt_arr, List.cons_append, List.append_assoc] at hcs
  have hskip := skipBlanks_itemsText (isBlank_newline (level + 1)) hitem (level + 1)
    (newline level).toList items rest
  rw [value?_arr hshape hcs, hskip]
  intro r hr
  obtain ⟨c, cs', hhead, -, hbracket⟩ := prettyAt_head hitem (level + 1)
  rw [hskip, itemsText, prettyItems, List.map_cons, hhead] at hr
  cases hitems : (prettyItems (level + 1) items).map String.toList with
  | nil =>
    rw [hitems] at hr
    exact hbracket (List.cons.inj hr).1
  | cons _ _ =>
    rw [hitems] at hr
    exact hbracket (List.cons.inj hr).1

/-- The members of an object are read where it opens. -/
theorem value?_prettyMembers {m : String × Json} {members : List (String × Json)} {shape : Shape}
    {levels fuel level : Nat} {cs rest : List Char} (hshape : shape.isIgnored = false)
    (hcs : skipBlanks cs = (prettyAt level (.obj (m :: members))).toList ++ rest) :
    value? shape (levels + 1) (fuel + 1) cs =
      (members? shape levels fuel
        (membersText (level + 1) (newline level).toList (m :: members) ++ rest)).map
        fun r => (.obj r.1, r.2) := by
  rw [toList_prettyAt_obj, List.cons_append, List.append_assoc] at hcs
  have hskip := skipBlanks_membersText (isBlank_newline (level + 1)) m (level + 1)
    (newline level).toList members rest
  rw [value?_obj hshape hcs, hskip]
  intro r hr
  rw [hskip, membersText, prettyMembers, List.map_cons, toList_member, toList_quote] at hr
  cases hmembers : (prettyMembers (level + 1) members).map String.toList with
  | nil =>
    rw [hmembers] at hr
    cases (List.cons.inj hr).1
  | cons _ _ =>
    rw [hmembers] at hr
    cases (List.cons.inj hr).1

mutual

/-- The text of a value, whatever follows it, reads as that value, or is nested too deeply. -/
theorem value?_prettyAt (j : Json) (level levels fuel : Nat) {shape : Shape}
    {cs rest : List Char} (hasks : shape.asks j) (hj : j.allNumbers Number.isSpelled)
    (hfuel : (prettyAt level j).toList.length < fuel) (hrest : EndsNumber rest)
    (hcs : skipBlanks cs = (prettyAt level j).toList ++ rest) :
    value? shape levels fuel cs = if j.depth ≤ levels then some (j, rest) else none := by
  cases fuel with
  | zero => omega
  | succ fuel =>
    cases j with
    | null | bool | num | str =>
      rw [value?_atom (by simp [depth]) hasks hj hrest hcs]
      simp [depth]
    | arr items =>
      simp only [Shape.asks, Bool.and_eq_true, Bool.not_eq_true'] at hasks
      cases levels with
      | zero =>
        rw [prettyAt_arr] at hcs
        rw [value?_too_deep hasks.1 hcs (.inl rfl), depth, if_neg (by omega)]
      | succ levels =>
        cases items with
        | nil =>
          rw [prettyAt, prettyItems, bracketed, if_pos rfl] at hcs
          rw [value?_empty_arr hasks.1 hcs, if_pos (by simp [depth, depthOfList])]
          rfl
        | cons item items =>
          have hitem : item.allNumbers Number.isSpelled := by
            simp only [allNumbers, allNumbersOfList, Bool.and_eq_true] at hj
            exact hj.1
          have hskip := skipBlanks_itemsText List.all_nil hitem (level + 1) (newline level).toList
            items rest
          rw [List.nil_append] at hskip
          have hlength : (itemsText (level + 1) (newline level).toList (item :: items)).length <
              fuel := by
            rw [toList_prettyAt_arr, List.length_cons, List.length_append] at hfuel
            have := length_newline_pos (level + 1)
            omega
          have hitems := items?_prettyItems (item :: items) (level + 1) 0 levels fuel (by simp)
            hasks.2 hj (isBlank_newline level) hlength hskip
          rw [value?_prettyItems hasks.1 hitem hcs, hitems, depth]
          by_cases hdepth : depthOfList (item :: items) ≤ levels
          · rw [if_pos hdepth, if_pos (by omega)]
            rfl
          · rw [if_neg hdepth, if_neg (by omega)]
            rfl
    | obj members =>
      simp only [Shape.asks, Bool.and_eq_true, Bool.not_eq_true'] at hasks
      cases levels with
      | zero =>
        rw [prettyAt_obj] at hcs
        rw [value?_too_deep hasks.1 hcs (.inr rfl), depth, if_neg (by omega)]
      | succ levels =>
        cases members with
        | nil =>
          rw [prettyAt, prettyMembers, bracketed, if_pos rfl] at hcs
          rw [value?_empty_obj hasks.1 hcs, if_pos (by simp [depth, depthOfMembers])]
          rfl
        | cons m members =>
          have hskip := skipBlanks_membersText List.all_nil m (level + 1) (newline level).toList
            members rest
          rw [List.nil_append] at hskip
          have hlength : (membersText (level + 1) (newline level).toList (m :: members)).length <
              fuel := by
            rw [toList_prettyAt_obj, List.length_cons, List.length_append] at hfuel
            have := length_newline_pos (level + 1)
            omega
          have hmembers := members?_prettyMembers (m :: members) (level + 1) levels fuel (by simp)
            hasks.2 hj (isBlank_newline level) hlength hskip
          rw [value?_prettyMembers hasks.1 hcs, hmembers, depth]
          by_cases hdepth : depthOfMembers (m :: members) ≤ levels
          · rw [if_pos hdepth, if_pos (by omega)]
            rfl
          · rw [if_neg hdepth, if_neg (by omega)]
            rfl

/-- The text of the items of an array, up to the bracket behind them. -/
theorem items?_prettyItems (items : List Json) (level index levels fuel : Nat) {shape : Shape}
    {closing cs rest : List Char} (hne : items ≠ [])
    (hasks : shape.asksItems index items) (hj : allNumbersOfList Number.isSpelled items)
    (hclosing : closing.all isBlank = true) (hfuel : (itemsText level closing items).length < fuel)
    (hcs : skipBlanks cs = itemsText level closing items ++ rest) :
    items? shape index levels fuel cs =
      if depthOfList items ≤ levels then some (items, rest) else none := by
  cases fuel with
  | zero => omega
  | succ fuel =>
    cases items with
    | nil => exact absurd rfl hne
    | cons item items =>
      simp only [Shape.asksItems, Bool.and_eq_true] at hasks
      simp only [allNumbersOfList, Bool.and_eq_true] at hj
      cases items with
      | nil =>
        rw [itemsText_singleton, List.append_assoc, List.append_assoc] at hcs
        rw [itemsText_singleton, List.length_append, List.length_append] at hfuel
        have hitem := value?_prettyAt item level levels fuel hasks.1 hj.1
          (by simp at hfuel; omega) (.of_blanks (c := ']') hclosing rfl rest) hcs
        by_cases hdepth : item.depth ≤ levels
        · have hclose : skipBlanks (closing ++ ']' :: rest) = ']' :: rest := by
            rw [skipBlanks_append hclosing]
            exact skipBlanks_cons rfl rest
          rw [if_pos hdepth] at hitem
          rw [items?_last hitem hclose, if_pos (by simpa [depthOfList] using hdepth)]
        · rw [if_neg hdepth] at hitem
          rw [items?_refused hitem, if_neg (by rw [depthOfList]; omega)]
      | cons next items =>
        rw [itemsText_cons_cons, List.append_assoc, List.cons_append, List.append_assoc] at hcs
        rw [itemsText_cons_cons, List.length_append, List.length_cons, List.length_append] at hfuel
        have hitem := value?_prettyAt item level levels fuel hasks.1 hj.1
          (by omega) (.cons (c := ',') rfl _) hcs
        have hnext : next.allNumbers Number.isSpelled := by
          have hj := hj.2
          simp only [allNumbersOfList, Bool.and_eq_true] at hj
          exact hj.1
        have hmore := items?_prettyItems (next :: items) level (index + 1) levels fuel (by simp)
          hasks.2 hj.2 hclosing (by omega)
          (skipBlanks_itemsText (isBlank_newline level) hnext level closing items rest)
        by_cases hdepth : item.depth ≤ levels
        · rw [if_pos hdepth] at hitem
          rw [items?_more hitem (skipBlanks_cons rfl _), hmore]
          by_cases hdepths : depthOfList (next :: items) ≤ levels
          · rw [if_pos hdepths, if_pos (by rw [depthOfList]; omega)]
            rfl
          · rw [if_neg hdepths, if_neg (by rw [depthOfList]; omega)]
            rfl
        · rw [if_neg hdepth] at hitem
          rw [items?_refused hitem, if_neg (by rw [depthOfList]; omega)]

/-- The text of the members of an object, up to the brace behind them. -/
theorem members?_prettyMembers (members : List (String × Json)) (level levels fuel : Nat)
    {shape : Shape} {closing cs rest : List Char} (hne : members ≠ [])
    (hasks : shape.asksMembers members) (hj : allNumbersOfMembers Number.isSpelled members)
    (hclosing : closing.all isBlank = true)
    (hfuel : (membersText level closing members).length < fuel)
    (hcs : skipBlanks cs = membersText level closing members ++ rest) :
    members? shape levels fuel cs =
      if depthOfMembers members ≤ levels then some (members, rest) else none := by
  cases fuel with
  | zero => omega
  | succ fuel =>
    cases members with
    | nil => exact absurd rfl hne
    | cons m members =>
      obtain ⟨name, item⟩ := m
      simp only [Shape.asksMembers, Bool.and_eq_true] at hasks
      simp only [allNumbersOfMembers, Bool.and_eq_true] at hj
      have hasked := Shape.not_ignored hasks.1
      have hskip : ∀ r, skipBlanks (' ' :: ((prettyAt level item).toList ++ r)) =
          (prettyAt level item).toList ++ r := by
        intro r
        obtain ⟨c, cs', hhead, hblank, -⟩ := prettyAt_head hj.1 level
        rw [hhead]
        exact skipBlanks_cons hblank _
      cases members with
      | nil =>
        rw [membersText_singleton, List.append_assoc, List.cons_append, List.cons_append,
          List.append_assoc, List.append_assoc] at hcs
        rw [membersText_singleton, List.length_append, List.length_cons, List.length_cons,
          List.length_append] at hfuel
        have hitem := value?_prettyAt item level levels fuel hasks.1 hj.1
          (by omega) (.of_blanks (c := '\x7d') hclosing rfl rest) (hskip _)
        by_cases hdepth : item.depth ≤ levels
        · have hclose : skipBlanks (closing ++ '\x7d' :: rest) = '\x7d' :: rest := by
            rw [skipBlanks_append hclosing]
            exact skipBlanks_cons rfl rest
          rw [if_pos hdepth] at hitem
          rw [members?_last hcs hitem hclose hasked,
            if_pos (by simpa [depthOfMembers] using hdepth)]
        · rw [if_neg hdepth] at hitem
          rw [members?_refused hcs hitem, if_neg (by rw [depthOfMembers]; omega)]
      | cons next members =>
        rw [membersText_cons_cons, List.append_assoc, List.cons_append, List.cons_append,
          List.append_assoc, List.cons_append, List.append_assoc] at hcs
        rw [membersText_cons_cons, List.length_append, List.length_cons, List.length_cons,
          List.length_append, List.length_cons, List.length_append] at hfuel
        have hitem := value?_prettyAt item level levels fuel hasks.1 hj.1
          (by omega) (.cons (c := ',') rfl _) (hskip (',' :: ((newline level).toList ++
            (membersText level closing (next :: members) ++ rest))))
        have hmore := members?_prettyMembers (next :: members) level levels fuel (by simp) hasks.2
          hj.2 hclosing (by omega)
          (skipBlanks_membersText (isBlank_newline level) next level closing members rest)
        by_cases hdepth : item.depth ≤ levels
        · rw [if_pos hdepth] at hitem
          rw [members?_more hcs hitem (skipBlanks_cons rfl _) hasked, hmore]
          by_cases hdepths : depthOfMembers (next :: members) ≤ levels
          · rw [if_pos hdepths, if_pos (by rw [depthOfMembers]; omega)]
            rfl
          · rw [if_neg hdepths, if_neg (by rw [depthOfMembers]; omega)]
            rfl
        · rw [if_neg hdepth] at hitem
          rw [members?_refused hcs hitem, if_neg (by rw [depthOfMembers]; omega)]

end

/-- The text of a value reads as that value as long as all of it is asked for and it is not nested
too deeply; what is nested too deeply is refused. -/
theorem parse?_pretty {shape : Shape} {j : Json} (levels : Nat) (hasks : shape.asks j)
    (hj : j.allNumbers Number.isSpelled) :
    parse? shape levels j.pretty = if j.depth ≤ levels then some j else none := by
  have hcs : skipBlanks j.pretty.toList = (prettyAt 0 j).toList ++ [] := by
    obtain ⟨c, cs, hhead, hblank, -⟩ := prettyAt_head hj 0
    rw [List.append_nil, pretty, hhead]
    exact skipBlanks_cons hblank cs
  have hvalue := value?_prettyAt j 0 levels (j.pretty.toList.length + 1) hasks hj
    (Nat.lt_succ_self _) .nil hcs
  simp only [parse?, hvalue]
  by_cases hdepth : j.depth ≤ levels
  · simp [hdepth, skipBlanks]
  · simp [hdepth]

end Espalier.Json
