import Espalier.Proofs.Rereading
import Espalier.Syntax.Decode

set_option autoImplicit false

/-! # Numbers that read back

The digits of a natural number are those of a number as it is spelled, and read as that natural
number up to the largest that fits (`Numeral.ofNumber?_digitsOf`). The number written for a double
is spelled that way as well (`Double.isSpelled_jsonNumber?`): the shortest decimal never starts
with a zero. -/

namespace Espalier

/-! ## The digits of a natural number -/

namespace Decimal

theorem digitsOf_of_lt {n : Nat} (h : n < 10) : digitsOf n = [n] := by
  rw [digitsOf, Nat.toDigits_of_lt_base h, List.map_singleton, Nat.toNat_digitChar_of_lt_ten h]
  congr 1
  omega

theorem digitsOf_of_le {n : Nat} (h : 10 ≤ n) : digitsOf n = digitsOf (n / 10) ++ [n % 10] := by
  have hlt : n % 10 < 10 := Nat.mod_lt _ (by decide)
  rw [digitsOf, Nat.toDigits_of_base_le (by decide) h, List.map_append, List.map_singleton,
    Nat.toNat_digitChar_of_lt_ten hlt]
  congr 2
  omega

/-- Digits of which the first is not zero. -/
def Leads (ds : List Nat) : Prop := (∃ d rest, ds = d :: rest ∧ 0 < d) ∧ ds.all (· < 10)

theorem Leads.append {ds es : List Nat} (hds : Leads ds) (hes : es.all (· < 10)) :
    Leads (ds ++ es) := by
  obtain ⟨⟨d, rest, rfl, hd⟩, hall⟩ := hds
  exact ⟨⟨d, rest ++ es, rfl, hd⟩, by rw [List.all_append, hall, hes]; rfl⟩

/-- A positive number is written without a leading zero. -/
theorem leads_digitsOf (n : Nat) (hn : 0 < n) : Leads (digitsOf n) := by
  induction n using Nat.strongRecOn with
  | ind n ih =>
    by_cases h : n < 10
    · rw [digitsOf_of_lt h]
      exact ⟨⟨n, [], rfl, hn⟩, by simp [h]⟩
    · rw [digitsOf_of_le (by omega)]
      exact (ih (n / 10) (by omega) (by omega)).append (by simp; omega)

theorem digitsOf_cases (n : Nat) : digitsOf n = [0] ∨ Leads (digitsOf n) := by
  rcases Nat.eq_zero_or_pos n with rfl | h
  · exact .inl rfl
  · exact .inr (leads_digitsOf n h)

theorem digitsOf_ne_nil (n : Nat) : digitsOf n ≠ [] := by
  rcases digitsOf_cases n with h | ⟨⟨d, rest, h, -⟩, -⟩ <;> rw [h] <;> simp

theorem all_digitsOf (n : Nat) : (digitsOf n).all (· < 10) := by
  rcases digitsOf_cases n with h | h
  · rw [h]; decide
  · exact h.2

theorem ofDigits_digitsOf (n : Nat) : Numeral.ofDigits (digitsOf n) = n := by
  induction n using Nat.strongRecOn with
  | ind n ih =>
    by_cases h : n < 10
    · rw [digitsOf_of_lt h]
      simp [Numeral.ofDigits]
    · have ih := ih (n / 10) (by omega)
      rw [Numeral.ofDigits] at ih ⊢
      rw [digitsOf_of_le (by omega), List.foldl_append, ih]
      simp only [List.foldl_cons, List.foldl_nil]
      omega

/-- A number has so many digits that the power of ten of one less is not beyond it. -/
theorem pow_length_digitsOf_le (n : Nat) (hn : 0 < n) :
    Nat.pow 10 ((digitsOf n).length - 1) ≤ n := by
  have hpos : 0 < (Nat.toDigits 10 n).length := Nat.length_toDigits_pos
  rw [digitsOf, List.length_map]
  rcases Nat.eq_zero_or_pos ((Nat.toDigits 10 n).length - 1) with h | h
  · rw [h]
    exact hn
  · refine Nat.le_of_not_lt fun hlt => ?_
    have := (Nat.length_toDigits_le_iff (by decide : 1 < 10) h).2 hlt
    omega

theorem lt_pow_length_digitsOf (n : Nat) : n < Nat.pow 10 (digitsOf n).length := by
  have hpos : 0 < (Nat.toDigits 10 n).length := Nat.length_toDigits_pos
  rw [digitsOf, List.length_map]
  exact (Nat.length_toDigits_le_iff (by decide : 1 < 10) hpos).1 (Nat.le_refl _)

end Decimal

namespace Numeral

theorem le_foldl_digits (ds : List Nat) (s : Nat) : s ≤ ds.foldl (fun n d => n * 10 + d) s := by
  induction ds generalizing s with
  | nil => exact Nat.le_refl s
  | cons d ds ih => exact Nat.le_trans (by omega) (ih (s * 10 + d))

/-- All digits are taken when the number they end up at fits. -/
theorem takeDigits_of_le (ds : List Nat) (s : Nat)
    (h : ds.foldl (fun n d => n * 10 + d) s ≤ maxSignificand) :
    takeDigits s ds = (ds.foldl (fun n d => n * 10 + d) s, ds.length) := by
  induction ds generalizing s with
  | nil => rfl
  | cons d ds ih =>
    have hstep := Nat.le_trans (le_foldl_digits ds (s * 10 + d)) h
    rw [takeDigits, if_pos hstep, ih _ h]
    rfl

/-- The digits of a number that fits read as that number. -/
theorem ofNumber?_digitsOf {n : Nat} (h : n < Nat.pow 2 64) :
    ofNumber? (.ofDigits (Decimal.digitsOf n)) = some (.natural n) := by
  have hvalue : (Decimal.digitsOf n).foldl (fun n d => n * 10 + d) 0 = n :=
    Decimal.ofDigits_digitsOf n
  have htake := takeDigits_of_le (Decimal.digitsOf n) 0
    (by rw [hvalue]; exact Nat.le_pred_of_lt h)
  rw [hvalue] at htake
  simp [ofNumber?, Json.Number.ofDigits, htake]

end Numeral

namespace Json

theorem Number.isSpelled_of_whole {n : Number} (hlead : n.whole = [0] ∨ Decimal.Leads n.whole)
    (hfraction : n.fraction.all (· < 10))
    (hexponent : n.exponent.all fun e => !e.2.isEmpty && e.2.all (· < 10)) : n.isSpelled := by
  simp only [isSpelled, hfraction, hexponent, Bool.and_true]
  rcases hlead with h | ⟨⟨d, rest, h, hd⟩, hall⟩
  · rw [h]; decide
  · have hd : d ≠ 0 := by omega
    rw [hall, h]
    simp [hd]

theorem Number.isSpelled_digitsOf (n : Nat) : (ofDigits (Decimal.digitsOf n)).isSpelled :=
  isSpelled_of_whole (Decimal.digitsOf_cases n) rfl rfl

/-- A natural number below a bound of at most 64 bits reads back. -/
theorem natBelow?_ofNat {bound n : Nat} (hn : n < bound) (hbound : bound ≤ Nat.pow 2 64) :
    natBelow? bound (ofNat n) = some n := by
  have h := Numeral.ofNumber?_digitsOf (Nat.lt_of_lt_of_le hn hbound)
  simp only [ofNat, natBelow?]
  rw [Decimal.digitsOf] at h
  simp [h, hn]

end Json

/-! ## The shortest decimal -/

namespace Decimal

theorem leads_dropTrailingZeros {ds : List Nat} (h : Leads ds) : Leads (dropTrailingZeros ds) := by
  obtain ⟨⟨d, rest, rfl, hd⟩, hall⟩ := h
  have hzero : (d == 0) = false := by simp; omega
  have hdrop : dropTrailingZeros (d :: rest) = d :: dropTrailingZeros rest := by
    rw [dropTrailingZeros, List.reverse_cons, List.dropWhile_append]
    split
    · next hnil =>
      rw [List.isEmpty_iff] at hnil
      simp [dropTrailingZeros, hnil, hzero]
    · simp [dropTrailingZeros]
  refine ⟨⟨d, dropTrailingZeros rest, hdrop, hd⟩, ?_⟩
  rw [List.all_eq_true] at hall ⊢
  intro e he
  rw [dropTrailingZeros, List.mem_reverse] at he
  exact hall e (List.mem_reverse.1 ((List.dropWhile_sublist _).mem he))

theorem leads_ofGridPoint (step : Int) {c : Nat} (hc : 0 < c) : Leads (ofGridPoint step c).digits :=
  leads_dropTrailingZeros (leads_digitsOf c hc)

theorem onGrid_pos (step : Int) {coarse : Nat} (h : 0 < coarse) (fine : Nat) :
    0 < (onGrid step coarse fine).1 := by
  unfold onGrid
  split
  · exact Nat.mul_pos h (Nat.pow_pos (by decide))
  · exact h

/-- What lies in an interval above zero is not zero. -/
theorem Interval.pos_of_holds {i : Interval} (hlow : 0 < i.low) {step : Int} {c : Nat}
    (h : i.holds step c) : 0 < c := by
  have hle : (onGrid step (c * i.den) i.low).2 ≤ (onGrid step (c * i.den) i.low).1 := by
    unfold holds at h
    dsimp only at h
    split at h <;> simp only [Bool.and_eq_true, decide_eq_true_eq] at h
    · exact h.1
    · exact Nat.le_of_lt h.1
  refine Nat.pos_of_ne_zero ?_
  rintro rfl
  have hpos : 0 < (onGrid step (0 * i.den) i.low).2 := by
    unfold onGrid
    split
    · exact hlow
    · exact Nat.mul_pos hlow (Nat.pow_pos (by decide))
  have hzero : (onGrid step (0 * i.den) i.low).1 = 0 := by
    unfold onGrid
    split <;> simp
  omega

theorem Interval.gridPoint?_pos {i : Interval} (hlow : 0 < i.low) {tie : Tie} {step : Int} {c : Nat}
    (h : i.gridPoint? tie step = some c) : 0 < c := by
  unfold gridPoint? at h
  dsimp only at h
  split at h
  · next hbelow =>
    split at h <;> obtain rfl := Option.some.inj h
    · exact Nat.succ_pos _
    · exact pos_of_holds hlow hbelow
  · split at h
    · obtain rfl := Option.some.inj h
      exact Nat.succ_pos _
    · cases h

/-- The last resort of the search: seventeen places behind the leading digit, the value is not
below one unit. -/
theorem onGrid_leadingExponent {num den : Nat} (hnum : 0 < num) (hden : 0 < den) {step : Int}
    (hstep : step ≤ leadingExponent num den) :
    (onGrid step den num).1 ≤ (onGrid step den num).2 := by
  have hgrow : ∀ k l : Nat, k ≤ l → Nat.pow 10 k ≤ Nat.pow 10 l := fun k l h =>
    Nat.pow_le_pow_right (by decide) h
  unfold leadingExponent at hstep
  unfold onGrid
  split at hstep
  · next hle =>
    have hpow := pow_length_digitsOf_le (num / den) (Nat.div_pos hle hden)
    split
    · next hpos =>
      calc den * Nat.pow 10 step.toNat
          ≤ den * (num / den) := Nat.mul_le_mul_left _ (Nat.le_trans (hgrow _ _ (by omega)) hpow)
        _ ≤ num := Nat.mul_div_le num den
    · exact Nat.le_trans hle (Nat.le_mul_of_pos_right _ (Nat.pow_pos (by decide)))
  · next hlt =>
    dsimp only at hstep
    have hneg : ¬ 0 ≤ step := by
      split at hstep
      · next hle =>
        rcases Nat.eq_zero_or_pos ((digitsOf (den / num)).length - 1) with h | h
        · rw [h] at hle
          exact absurd (by simpa using hle) hlt
        · omega
      · have := List.length_pos_iff.2 (digitsOf_ne_nil (den / num))
        omega
    rw [if_neg hneg]
    split at hstep
    · next hle => exact Nat.le_trans hle (Nat.mul_le_mul_left _ (hgrow _ _ (by omega)))
    · have hdiv : den < Nat.pow 10 (digitsOf (den / num)).length * num :=
        (Nat.div_lt_iff_lt_mul hnum).1 (lt_pow_length_digitsOf (den / num))
      rw [Nat.mul_comm] at hdiv
      exact Nat.le_trans (Nat.le_of_lt hdiv) (Nat.mul_le_mul_left _ (hgrow _ _ (by omega)))

theorem Interval.leads_search {i : Interval} (hlow : 0 < i.low) (hvalue : 0 < i.value)
    (hden : 0 < i.den) (tie : Tie) (tries count : Nat) (hcount : 0 < count) :
    Leads (i.search tie (leadingExponent i.value i.den) tries count).digits := by
  induction tries generalizing count with
  | zero =>
    have hstep : leadingExponent i.value i.den + 1 - count ≤ leadingExponent i.value i.den := by
      omega
    rw [search]
    refine leads_ofGridPoint _ (Nat.div_pos (onGrid_leadingExponent hvalue hden hstep) ?_)
    exact onGrid_pos _ hden _
  | succ tries ih =>
    rw [search]
    split
    · next heq => exact leads_ofGridPoint _ (gridPoint?_pos hlow heq)
    · exact ih (count + 1) (by omega)

theorem leads_shortest (tie : Tie) {significand : Nat} (hs : 0 < significand) (exponent : Int) :
    Leads (shortest tie significand exponent).digits := by
  have hunit : 0 < (Double.scaled 1 (exponent - 2)).1 ∧ 0 < (Double.scaled 1 (exponent - 2)).2 := by
    unfold Double.scaled
    split
    · exact ⟨Nat.mul_pos Nat.one_pos (Nat.pow_pos (by decide)), Nat.one_pos⟩
    · exact ⟨Nat.one_pos, Nat.pow_pos (by decide)⟩
  refine Interval.leads_search ?_ ?_ hunit.2 tie 17 1 (by decide)
  · refine Nat.mul_pos ?_ hunit.1
    split <;> omega
  · exact Nat.mul_pos (by omega) hunit.1

end Decimal

/-- The digits before the point start with no zero, unless there is nothing else. -/
theorem Decimal.positional_spelled {d : Decimal} (h : Leads d.digits) :
    (d.positional.1 = [0] ∨ Leads d.positional.1) ∧ d.positional.2.all (· < 10) := by
  obtain ⟨⟨a, rest, hdigits, ha⟩, hall⟩ := h
  unfold positional
  split
  · exact ⟨.inl rfl, by simp [hall, List.all_replicate]⟩
  · have htake : (d.digits.take (d.exponent.toNat + 1)).all (· < 10) := by
      rw [List.all_eq_true] at hall ⊢
      exact fun e he => hall e (List.mem_of_mem_take he)
    have hdrop : (d.digits.drop (d.exponent.toNat + 1)).all (· < 10) := by
      rw [List.all_eq_true] at hall ⊢
      exact fun e he => hall e (List.mem_of_mem_drop he)
    refine ⟨.inr (Leads.append ⟨⟨a, rest.take d.exponent.toNat, ?_, ha⟩, htake⟩ ?_), hdrop⟩
    · rw [hdigits, List.take_succ_cons]
    · simp [List.all_replicate]

/-- The number written for a double is spelled as numbers are. -/
theorem Double.isSpelled_jsonNumber? {d : Double} {n : Json.Number} (h : d.jsonNumber? = some n) :
    n.isSpelled := by
  unfold jsonNumber? at h
  split at h
  · cases h
    rfl
  · next negative m e hm heq =>
    have hleads := Decimal.leads_shortest .even (Nat.pos_of_ne_zero hm) e
    dsimp only at h
    generalize Decimal.shortest .even m e = dec at h hleads
    split at h
    · obtain rfl := Option.some.inj h
      obtain ⟨hwhole, hfraction⟩ := Decimal.positional_spelled hleads
      refine Json.Number.isSpelled_of_whole hwhole ?_ rfl
      dsimp only
      split
      · rfl
      · exact hfraction
    · obtain rfl := Option.some.inj h
      obtain ⟨⟨a, rest, hdigits, ha⟩, hall⟩ := hleads
      rw [hdigits, List.all_cons, Bool.and_eq_true] at hall
      refine Json.Number.isSpelled_of_whole (.inr ⟨⟨a, [], ?_, ha⟩, ?_⟩) ?_ ?_
      · rw [hdigits]; rfl
      · rw [hdigits]; simpa using hall.1
      · rw [hdigits]; exact hall.2
      · have hne := Decimal.digitsOf_ne_nil dec.exponent.natAbs
        simp [hne, Decimal.all_digitsOf dec.exponent.natAbs]
  · cases h

end Espalier
