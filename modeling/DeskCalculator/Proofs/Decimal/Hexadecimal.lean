import DeskCalculator.Proofs.Decimal.Bitwise
import DeskCalculator.Proofs.Decimal.Literal.Reading
import Mathlib.Order.Bounds.Basic
import Mathlib.Tactic.IntervalCases

namespace DeskCalculator

namespace Digits

/-- The nibbles of an integer in two's complement of eighty bits, counted from the lowest. -/
def nibble (m : Int) (i : Nat) : Nat := lowBits 80 m / 16 ^ i % 16

/-- From this nibble on there is nothing but F. -/
def FilledFrom (m : Int) (k : Nat) : Prop := ∀ i, k ≤ i → i < 20 → nibble m i = 15

/-- The width in which `n` nibbles are shown with at least one F above them. -/
def signedWidth (n : Nat) : Nat :=
  if n + 1 < 4 then 4
  else if n + 1 < 8 then 8
  else if n + 1 < 16 then 16
  else n + 1

theorem lt_signedWidth (n : Nat) : n < signedWidth n := by
  unfold signedWidth
  split_ifs <;> omega

theorem signedWidth_le {n : Nat} (h : n ≤ 17) : signedWidth n ≤ 20 := by
  unfold signedWidth
  split_ifs <;> omega

theorem value_filled (n : Nat) : value 16 (List.replicate n 15) + 1 = 16 ^ n := by
  induction n with
  | zero => rfl
  | succ n ih =>
    rw [List.replicate_succ, value_cons, Nat.pow_succ']
    omega

theorem take_append_trim {ds : List Nat} (h : ds.getLast? ≠ some 0) :
    ds.take 1 ++ trim (ds.drop 1) = ds := by
  cases ds with
  | nil => rfl
  | cons d ds =>
    have htop : ds.getLast? ≠ some 0 := by
      cases ds with
      | nil => simp
      | cons e es => rwa [List.getLast?_cons_cons] at h
    rw [List.drop_succ_cons, List.drop_zero, trim_eq_self htop]
    rfl

end Digits

namespace Decimal

open Digits (Below FilledFrom nibble signedWidth trim)
open Literal (number)

variable {x : Decimal}

theorem WellFormed.getElem?_nibbles (hx : x.WellFormed) {i : Nat} (hi : i < 20) :
    x.nibbles[i]? = some (nibble x.integerPart i) := by
  have hlt : i < x.nibbles.length := hx.length_nibbles ▸ hi
  have hget : x.nibbles[i]? = some x.nibbles[i] := List.getElem?_eq_getElem hlt
  have hvalue := hx.below_nibbles.value_div_mod (by omega) hget
  rw [hx.value_nibbles_eq] at hvalue
  rw [hget, nibble, hvalue]

theorem shownWidth_eq (ds : List Nat) :
    shownWidth ds = signedWidth (max 1 (ds.reverse.dropWhile (· == 15)).length) := rfl

/-- What is shown reaches up to the highest nibble that is not F, and takes in at least one. -/
theorem isLeast_filledFrom (hx : x.WellFormed) :
    IsLeast {k | 1 ≤ k ∧ FilledFrom x.integerPart k}
      (max 1 (x.nibbles.reverse.dropWhile (· == 15)).length) := by
  obtain ⟨n, hrun, htop⟩ := Digits.exists_top_run 15 x.nibbles
  rw [← List.length_reverse]
  generalize (x.nibbles.reverse.dropWhile (· == 15)).reverse = low at hrun htop
  constructor
  · refine ⟨Nat.le_max_left _ _, ?_⟩
    intro i hk hi
    have hget := hx.getElem?_nibbles hi
    rw [hrun, List.getElem?_append_right (Nat.le_trans (Nat.le_max_right _ _) hk)] at hget
    exact List.eq_of_mem_replicate (List.mem_of_getElem? hget)
  · rintro k ⟨h1, hfilled⟩
    apply Nat.max_le.mpr ⟨h1, ?_⟩
    by_contra hshort
    have hlength : x.nibbles.length = 20 := hx.length_nibbles
    rw [hrun, List.length_append] at hlength
    have hget := hx.getElem?_nibbles (i := low.length - 1) (by omega)
    rw [hfilled _ (by omega) (by omega), hrun, List.getElem?_append_left (by omega),
      ← List.getLast?_eq_getElem?] at hget
    exact htop hget

theorem lowBits_of_neg {m : Int} (hm : m < 0) (hlt : m.natAbs < scale) :
    (Digits.lowBits 80 m : Int) = 2 ^ 80 + m := by
  have hs : scale ≤ 2 ^ 80 := by decide
  rw [Digits.cast_lowBits, ← Int.add_emod_left, Int.emod_eq_of_lt (by omega) (by omega)]

/-- Twenty decimal digits need seventeen nibbles. -/
theorem filledFrom_seventeen {m : Int} (hm : m < 0) (hlt : m.natAbs < scale) :
    FilledFrom m 17 := by
  have hv := lowBits_of_neg hm hlt
  have hs : scale < 16 ^ 17 := by decide
  intro i hlow hhigh
  unfold nibble
  interval_cases i <;> omega

/-- Where all higher nibbles are F, the lower ones hold the integer with its sign. -/
theorem value_take_of_filledFrom (hx : x.WellFormed) (hm : x.integerPart < 0) {w : Nat} (hw : w ≤ 20)
    (hf : FilledFrom x.integerPart w) :
    (Digits.value 16 (x.nibbles.take w) : Int) - 16 ^ w = x.integerPart := by
  have hlength : x.nibbles.length = 20 := hx.length_nibbles
  have hdrop : x.nibbles.drop w = List.replicate (20 - w) 15 := by
    apply List.eq_replicate_iff.mpr
    refine ⟨by rw [List.length_drop, hlength], ?_⟩
    intro d hd
    obtain ⟨i, hi⟩ := List.mem_iff_getElem?.mp hd
    have hlt := (List.getElem?_eq_some_iff.mp hi).1
    rw [List.length_drop, hlength] at hlt
    rw [List.getElem?_drop, hx.getElem?_nibbles (by omega)] at hi
    rw [← Option.some.inj hi]
    exact hf _ (by omega) (by omega)
  have htake : (x.nibbles.take w).length = w := by
    rw [List.length_take, hlength]
    exact Nat.min_eq_left hw
  have hvalue := Digits.value_append 16 (x.nibbles.take w) (x.nibbles.drop w)
  rw [List.take_append_drop, hdrop, htake, hx.value_nibbles_eq] at hvalue
  have hfilled := Digits.value_filled (20 - w)
  have hv := lowBits_of_neg hm hx.natAbs_integerPart_lt
  have hpow : 16 ^ w * 16 ^ (20 - w) = 2 ^ 80 := by
    rw [← Nat.pow_add, Nat.add_sub_cancel' hw]
    rfl
  rw [← hfilled, Nat.mul_succ] at hpow
  zify at hvalue hpow
  rw [hv] at hvalue
  linarith

theorem hexText_toList (x : Decimal) :
    x.hexText.toList = '0' :: 'x' :: Digits.characters x.hexDigits :=
  String.toList_ofList

/-- The text of a negative integer part. -/
theorem hexText_of_neg (hx : x.WellFormed) (hm : x.integerPart < 0) :
    ∃ n ds, IsLeast {k | 1 ≤ k ∧ FilledFrom x.integerPart k} n ∧
      x.hexText.toList = '0' :: 'x' :: ds.map Digits.character ∧ Below 16 ds ∧
      ds.length = signedWidth n ∧ ds.head? = some 15 ∧
      (number 16 ds : Int) - 16 ^ ds.length = x.integerPart := by
  have hn := negative_of_integerPart_neg hm
  have hleast := isLeast_filledFrom hx
  have hwidth := shownWidth_eq x.nibbles
  generalize max 1 (x.nibbles.reverse.dropWhile (· == 15)).length = n at hleast hwidth
  have hseventeen : n ≤ 17 :=
    hleast.2 ⟨by omega, filledFrom_seventeen hm hx.natAbs_integerPart_lt⟩
  have hlow := Digits.lt_signedWidth n
  have hhigh := Digits.signedWidth_le hseventeen
  have hlength : (x.nibbles.take (signedWidth n)).length = signedWidth n := by
    rw [List.length_take, hx.length_nibbles]
    exact Nat.min_eq_left hhigh
  -- the shown width is above `n`, from where on all nibbles are filled
  have htop : (x.nibbles.take (signedWidth n)).getLast? = some 15 := by
    rw [List.getLast?_eq_getElem?, hlength, List.getElem?_take_of_lt (by omega),
      hx.getElem?_nibbles (by omega), hleast.1.2 _ (by omega) (by omega)]
  have hdigits : x.hexDigits = x.nibbles.take (signedWidth n) := by
    rw [hexDigits, if_pos hn, hwidth]
    exact Digits.take_append_trim (by simp [htop])
  refine ⟨n, (x.nibbles.take (signedWidth n)).reverse, hleast, ?_, ?_, ?_, ?_, ?_⟩
  · rw [hexText_toList, hdigits]
    rfl
  · exact Digits.below_reverse.mpr (hx.below_nibbles.take _)
  · rw [List.length_reverse, hlength]
  · rw [List.head?_reverse, htop]
  · rw [number, List.reverse_reverse, List.length_reverse, hlength]
    apply value_take_of_filledFrom hx hm hhigh
    intro i hi
    exact hleast.1.2 i (by omega)

/-- What is shown of an integer that is not negative, before zeros at the top are left out. Of a
negative number with nothing before the point these are zeros only. -/
theorem exists_shown (hx : x.WellFormed) (hm : 0 ≤ x.integerPart) :
    ∃ shown, shown ≠ [] ∧ x.hexDigits = shown.take 1 ++ trim (shown.drop 1) ∧ Below 16 shown ∧
      Digits.value 16 shown = x.integerPart.toNat := by
  have hne : x.nibbles ≠ [] := by
    rw [← List.length_pos_iff, hx.length_nibbles]
    decide
  have hvalue : Digits.value 16 x.nibbles = x.integerPart.toNat := by
    have hs : scale ≤ 16 ^ 20 := by decide
    have hlt := hx.natAbs_integerPart_lt
    have h := hx.value_nibbles
    rw [Int.emod_eq_of_lt hm (by omega)] at h
    omega
  cases hn : x.negative with
  | false => exact ⟨x.nibbles, hne, by rw [hexDigits, hn]; rfl, hx.below_nibbles, hvalue⟩
  | true =>
    have hzero : x.integerPart = 0 := Int.le_antisymm (integerPart_nonpos hn) hm
    have hwidth : shownWidth x.nibbles ≠ 0 := by
      rw [shownWidth_eq]
      exact Nat.ne_zero_of_lt (Digits.lt_signedWidth _)
    refine ⟨x.nibbles.take (shownWidth x.nibbles), ?_, by rw [hexDigits, hn]; rfl,
      hx.below_nibbles.take _, ?_⟩
    · intro hnil
      exact (List.take_eq_nil_iff.mp hnil).elim hwidth hne
    · rw [hx.below_nibbles.value_take (by omega), hvalue, hzero]
      exact Nat.zero_mod _

theorem exists_hexDigits (hx : x.WellFormed) (hm : 0 ≤ x.integerPart) :
    ∃ d ds, x.hexDigits = d :: trim ds ∧ Below 16 (d :: ds) ∧
      Digits.value 16 (d :: ds) = x.integerPart.toNat := by
  obtain ⟨shown, hne, hdigits, hb, hvalue⟩ := exists_shown hx hm
  obtain ⟨d, ds, rfl⟩ := List.exists_cons_of_ne_nil hne
  exact ⟨d, ds, hdigits, hb, hvalue⟩

/-- The text of an integer part that is not negative, with its digits. -/
theorem hexText_of_nonneg (hx : x.WellFormed) (hm : 0 ≤ x.integerPart) :
    ∃ ds, x.hexText.toList = '0' :: 'x' :: ds.map Digits.character ∧ ds ≠ [] ∧ Below 16 ds ∧
      (number 16 ds : Int) = x.integerPart ∧
      ds.map Digits.character = (Nat.toDigits 16 x.integerPart.toNat).map Char.toUpper := by
  obtain ⟨d, ds, hdigits, hb, hvalue⟩ := exists_hexDigits hx hm
  obtain ⟨_, _, htop⟩ := Digits.trim_append_zeros ds
  obtain ⟨hd, hds⟩ := Digits.below_cons.mp hb
  have hbelow : Below 16 (d :: trim ds) := Digits.below_cons.mpr ⟨hd, hds.trim⟩
  have hsame : Digits.value 16 (d :: trim ds) = x.integerPart.toNat := by
    rw [Digits.value_cons, Digits.value_trim, ← Digits.value_cons, hvalue]
  refine ⟨(d :: trim ds).reverse, ?_, by simp, Digits.below_reverse.mpr hbelow, ?_, ?_⟩
  · rw [hexText_toList, hdigits]
    rfl
  · rw [number, List.reverse_reverse, hsame, Int.toNat_of_nonneg hm]
  · rw [← hsame, ← Digits.characters_eq_map_toDigits (by omega) d _ hbelow htop]
    rfl

theorem continued_characters {ds : List Nat} (hb : Below 16 ds) :
    Literal.Continued 16 (ds.map Digits.character) ds := by
  induction ds with
  | nil => exact .nil
  | cons d ds ih =>
    obtain ⟨hd, hds⟩ := Digits.below_cons.mp hb
    exact .digit ⟨hd, .inr rfl⟩ (ih hds)

theorem run_characters {ds : List Nat} (hne : ds ≠ []) (hb : Below 16 ds) :
    Literal.Run 16 (ds.map Digits.character) ds := by
  cases ds with
  | nil => exact absurd rfl hne
  | cons d ds =>
    obtain ⟨hd, hds⟩ := Digits.below_cons.mp hb
    exact ⟨⟨hd, .inr rfl⟩, continued_characters hds⟩

/-- Hexadecimal digits in capital letters are read as the integer that they write. -/
theorem parse_hexadecimal {text : String} {ds : List Nat}
    (ht : text.toList = '0' :: 'x' :: ds.map Digits.character) (hne : ds ≠ []) (hb : Below 16 ds)
    (hl : ds.length ≤ 19) (hlt : number 16 ds < 10 ^ 20) :
    ∃ r : Decimal, r.WellFormed ∧ parse text = .ok r ∧ r.toRat = number 16 ds := by
  have hexcess : (Literal.hexadecimal ds).excess = none := by
    rw [Literal.excess, if_neg (Nat.not_lt.mpr hl), if_neg (Nat.not_le.mpr hlt)]
  have hends : Literal.Ends [] := by
    intro c hc
    cases hc
  have hreads := readLiteral_grouped (.hexadecimal (run_characters hne hb)) hends
  rw [List.append_nil, Literal.Reads, hexcess] at hreads
  obtain ⟨r, hr, hw, hunits⟩ := hreads
  refine ⟨r, hw, ?_, ?_⟩
  · rw [parse, ht]
    change readWhole ('0' :: 'x' :: ds.map Digits.character) = .ok r
    rw [readWhole, hr]
  · have hs : (scale : ℚ) ≠ 0 := scale_rat_pos.ne'
    have hcount : r.units = (scale * number 16 ds : Nat) := by
      rwa [Literal.places, Int.pow_zero, Int.mul_one] at hunits
    rw [toRat, hcount, Int.cast_natCast, Nat.cast_mul, mul_div_cancel_left₀ _ hs]

/-- Hexadecimal text is the integer part, written as integers are or in two's complement. -/
theorem hexText_exact (hx : x.WellFormed) :
    (0 ≤ x.integerPart →
      x.hexText.toList =
        '0' :: 'x' :: (Nat.toDigits 16 x.integerPart.toNat).map Char.toUpper ∧
      ∃ r : Decimal, r.WellFormed ∧ parse x.hexText = .ok r ∧ r.toRat = x.integerPart) ∧
    (x.integerPart < 0 → ∃ n ds, IsLeast {k | 1 ≤ k ∧ FilledFrom x.integerPart k} n ∧
      x.hexText.toList = '0' :: 'x' :: ds.map Digits.character ∧ Below 16 ds ∧
      ds.length = signedWidth n ∧ ds.head? = some 15 ∧
      (number 16 ds : Int) - 16 ^ ds.length = x.integerPart) := by
  refine ⟨?_, hexText_of_neg hx⟩
  intro hm
  have hlt := hx.natAbs_integerPart_lt
  obtain ⟨ds, ht, hne, hb, hnumber, hdigits⟩ := hexText_of_nonneg hx hm
  have hlength : ds.length ≤ 17 := by
    have hsmall : x.integerPart.toNat < 16 ^ 17 := by
      have hs : scale ≤ 16 ^ 17 := by decide
      omega
    have hcount := (Nat.length_toDigits_le_iff (b := 16) (by omega) (by omega)).mpr hsmall
    have hsame := congrArg List.length hdigits
    rw [List.length_map, List.length_map] at hsame
    omega
  have hfits : number 16 ds < 10 ^ 20 := by
    change number 16 ds < scale
    omega
  obtain ⟨r, hr, hok, hvalue⟩ := parse_hexadecimal ht hne hb (by omega) hfits
  refine ⟨by rw [ht, hdigits], r, hr, hok, ?_⟩
  rw [hvalue, ← hnumber, Int.cast_natCast]

/-- The greatest number has seventeen digits. A negative number with three nibbles below its highest F
is shown with eight, not with the four that would be enough. -/
theorem hexText_exact_signs :
    (∃ r : Decimal, r.WellFormed ∧ parse (ofUnits (10 ^ 40 - 1)).hexText = .ok r ∧
      r.toRat = 10 ^ 20 - 1) ∧
    ∃ ds, (ofUnits (-40965 * 10 ^ 19)).hexText.toList = '0' :: 'x' :: ds.map Digits.character ∧
      ds.length = 8 ∧ ds.head? = some 15 ∧ (number 16 ds : Int) - 16 ^ 8 = -4096 := by
  have hgreat : (ofUnits (10 ^ 40 - 1)).integerPart = 10 ^ 20 - 1 := by decide +kernel
  have hneg : (ofUnits (-40965 * 10 ^ 19)).integerPart = -4096 := by decide +kernel
  obtain ⟨hread, -⟩ := hexText_exact (wellFormed_ofUnits (10 ^ 40 - 1))
  obtain ⟨-, hshown⟩ := hexText_exact (wellFormed_ofUnits (-40965 * 10 ^ 19))
  rw [hgreat] at hread
  rw [hneg] at hshown
  obtain ⟨-, r, hr, hok, hvalue⟩ := hread (by decide)
  obtain ⟨n, ds, hleast, ht, -, hlength, hhead, hnumber⟩ := hshown (by decide)
  have hthree : IsLeast {k | 1 ≤ k ∧ FilledFrom (-4096) k} 3 := by
    refine ⟨⟨by decide, by unfold FilledFrom; decide +kernel⟩, ?_⟩
    rintro k ⟨-, hfilled⟩
    by_contra hk
    exact absurd (hfilled 2 (by omega) (by decide)) (by decide +kernel)
  have height : ds.length = 8 := by
    rw [hlength, hleast.unique hthree]
    rfl
  rw [height] at hnumber
  exact ⟨⟨r, hr, hok, by rw [hvalue]; norm_num⟩, ds, ht, height, hhead, hnumber⟩

end Decimal

end DeskCalculator
