import DeskCalculator.Decimal.Text
import DeskCalculator.Proofs.Decimal.Units
import Mathlib.Data.List.TakeWhile

namespace DeskCalculator

namespace Digits

theorem isDigit_character : ∀ d < 10, (character d).isDigit = true := by decide

theorem character_eq_zero : ∀ d < 10, character d = '0' → d = 0 := by decide

theorem ofCharacter_character : ∀ d < 10, ofCharacter? 10 (character d) = some d := by decide

theorem length_characters (ds : List Nat) : (characters ds).length = ds.length := by
  simp [characters]

theorem isDigit_characters {ds : List Nat} (h : Below 10 ds) :
    ∀ c ∈ characters ds, c.isDigit = true := by
  intro c hc
  obtain ⟨d, hd, rfl⟩ := List.mem_map.mp hc
  exact isDigit_character d (h d (List.mem_reverse.mp hd))

theorem characters_eq_nil {ds : List Nat} : characters ds = [] ↔ ds = [] := by
  simp [characters]

/-- The first character is that of the top digit. -/
theorem head_characters (ds : List Nat) :
    (characters ds).head? = ds.getLast?.map character := by
  simp [characters, List.head?_reverse]

theorem getLast_characters (ds : List Nat) :
    (characters ds).getLast? = ds.head?.map character := by
  simp [characters, List.getLast?_reverse]

theorem map_toDigits_digit {b d : Nat} (hd : d < b) :
    (Nat.toDigits b d).map Char.toUpper = [character d] := by
  rw [Nat.toDigits_of_lt_base hd]
  rfl

/-- Digits whose top is not zero are not all zero. -/
theorem value_pos_of_getLast {b : Nat} (hb : 0 < b) {ds : List Nat} (hne : ds ≠ [])
    (htop : ds.getLast? ≠ some 0) : 0 < value b ds := by
  rcases Nat.eq_zero_or_pos (value b ds) with hz | hpos
  · have hall := List.all_eq_true.mp ((isZero_iff_value hb ds).mpr hz)
    obtain ⟨top, hlast⟩ := Option.ne_none_iff_exists'.mp (List.getLast?_eq_none_iff.not.mpr hne)
    have h0 := hall top (List.mem_of_getLast? hlast)
    rw [beq_iff_eq] at h0
    subst h0
    exact absurd hlast htop
  · exact hpos

/-- Digits without a zero at the top, but for a single one, are written as their value is, in capital
letters. -/
theorem characters_eq_map_toDigits {b : Nat} (hbase : 1 < b) (d : Nat) (ds : List Nat)
    (hb : Below b (d :: ds)) (htop : ds.getLast? ≠ some 0) :
    characters (d :: ds) = (Nat.toDigits b (value b (d :: ds))).map Char.toUpper := by
  induction ds generalizing d with
  | nil =>
    obtain ⟨hd, _⟩ := below_cons.mp hb
    rw [value_cons, value_nil, Nat.mul_zero, Nat.add_zero, map_toDigits_digit hd]
    rfl
  | cons e es ih =>
    obtain ⟨hd, hds⟩ := below_cons.mp hb
    have htop' : es.getLast? ≠ some 0 := by
      cases es with
      | nil => simp
      | cons e' es => rwa [List.getLast?_cons_cons] at htop
    have hpos := value_pos_of_getLast (b := b) (by omega) (List.cons_ne_nil e es) htop
    have happend := Nat.toDigits_append_toDigits hbase hpos hd
    calc characters (d :: e :: es) = characters (e :: es) ++ [character d] := by simp [characters]
      _ = (Nat.toDigits b (b * value b (e :: es) + d)).map Char.toUpper := by
        rw [ih e hds htop', ← map_toDigits_digit hd, ← List.map_append, happend]
      _ = (Nat.toDigits b (value b (d :: e :: es))).map Char.toUpper := by
        rw [value_cons b d, Nat.add_comm]

theorem toUpper_of_isDigit {c : Char} (h : c.isDigit = true) : c.toUpper = c := by
  have hc : c.toNat ≤ 57 := by
    simp only [Char.isDigit, Bool.and_eq_true, decide_eq_true_eq] at h
    exact h.2
  have hlow : ¬ 97 ≤ c.toNat := by omega
  exact dif_neg fun hletter => hlow hletter.1

theorem characters_eq_toDigits (d : Nat) (ds : List Nat) (hb : Below 10 (d :: ds))
    (htop : ds.getLast? ≠ some 0) :
    characters (d :: ds) = Nat.toDigits 10 (value 10 (d :: ds)) := by
  have hplain : ∀ c ∈ Nat.toDigits 10 (value 10 (d :: ds)), c.toUpper = id c := fun c hc =>
    toUpper_of_isDigit (Nat.isDigit_of_mem_toDigits (by omega) (by omega) hc)
  rw [characters_eq_map_toDigits (by omega) d ds hb htop, List.map_congr_left hplain, List.map_id]

end Digits

namespace Decimal

open Digits (Below trim)

/-- Decimal text as it is printed: a minus sign if asked for, digits without a zero in front of
others, and, if there is a fraction, a point and digits without a zero at the end. -/
structure Canonical (negative : Bool) (whole fraction cs : List Char) : Prop where
  shape : cs = (if negative then ['-'] else []) ++ whole ++
    (if fraction.isEmpty then [] else '.' :: fraction)
  digits : ∀ c ∈ whole ++ fraction, c.isDigit = true
  nonempty : whole ≠ []
  no_leading_zero : whole.head? = some '0' → whole = ['0']
  no_trailing_zero : fraction.getLast? ≠ some '0'
  length_whole : whole.length ≤ Digits.integerWidth
  length_fraction : fraction.length ≤ Digits.fractionWidth

/-- Fraction, units digit and the digits above it. -/
structure Parts (x : Decimal) (fraction : List Nat) (unit : Nat) (above : List Nat) : Prop where
  digits : x.digits = fraction ++ unit :: above
  length_fraction : fraction.length = Digits.fractionWidth
  length_above : above.length + 1 = Digits.integerWidth
  below_fraction : Below 10 fraction
  below_whole : Below 10 (unit :: above)

theorem WellFormed.parts {x : Decimal} (hx : x.WellFormed) :
    ∃ fraction unit above, x.Parts fraction unit above := by
  have hl : (x.digits.drop Digits.fractionWidth).length = Digits.integerWidth := by
    rw [List.length_drop, hx.length]
    rfl
  cases hw : x.digits.drop Digits.fractionWidth with
  | nil => simp [hw] at hl
  | cons unit above =>
    rw [hw] at hl
    refine ⟨x.digits.take Digits.fractionWidth, unit, above, ?_, ?_, hl, ?_, ?_⟩
    · rw [← hw, List.take_append_drop]
    · rw [List.length_take, hx.length]
      rfl
    · exact Below.take hx.digit_lt _
    · rw [← hw]
      exact Below.drop hx.digit_lt _

variable {x : Decimal} {fraction above : List Nat} {unit : Nat}

theorem Parts.below_trim (h : x.Parts fraction unit above) : Below 10 (unit :: trim above) := by
  obtain ⟨hu, ha⟩ := Digits.below_cons.mp h.below_whole
  exact Digits.below_cons.mpr ⟨hu, ha.trim⟩

theorem Parts.below_dropWhile (h : x.Parts fraction unit above) :
    Below 10 (fraction.dropWhile (· == 0)) :=
  fun d hd => h.below_fraction d ((List.dropWhile_sublist _).subset hd)

/-- The window that is printed leaves out zeros on both sides, but not the units digit. -/
theorem Parts.bounds (h : x.Parts fraction unit above) :
    Digits.bounds x.digits =
      ((fraction.takeWhile (· == 0)).length, Digits.fractionWidth + 1 + (trim above).length) := by
  have hl := h.length_fraction
  have htake : x.digits.take Digits.fractionWidth = fraction := by
    rw [h.digits, ← hl, List.take_left]
  have hdrop : x.digits.drop (Digits.fractionWidth + 1) = above := by
    rw [h.digits, ← hl, List.drop_length_add_append]
    rfl
  have hlen : (x.digits.take (Digits.fractionWidth + 1)).length = Digits.fractionWidth + 1 := by
    rw [h.digits, List.length_take, List.length_append, List.length_cons, hl]
    omega
  rw [Digits.bounds, htake, hdrop, hlen]

theorem Parts.characters (h : x.Parts fraction unit above) :
    x.characters = (if x.negative then ['-'] else []) ++
      Digits.characters (unit :: trim above) ++
      (if (Digits.characters (fraction.dropWhile (· == 0))).isEmpty then []
        else '.' :: Digits.characters (fraction.dropWhile (· == 0))) := by
  have hl := h.length_fraction
  have hwhole : (x.digits.take (Digits.fractionWidth + 1 + (trim above).length)).drop
      Digits.fractionWidth = unit :: trim above := by
    rw [h.digits, ← hl, Nat.add_assoc, List.take_length_add_append, List.drop_left,
      Nat.add_comm 1, List.take_succ_cons, Digits.take_length_trim]
  have hfraction : (x.digits.take Digits.fractionWidth).drop
      (fraction.takeWhile (· == 0)).length = fraction.dropWhile (· == 0) := by
    rw [h.digits, ← hl, List.take_left]
    conv_lhs => arg 2; rw [← List.takeWhile_append_dropWhile (p := (· == 0)) (l := fraction)]
    exact List.drop_left
  rw [Decimal.characters, h.bounds]
  simp only [hwhole, hfraction]

/-- What is printed is canonical. -/
theorem Parts.canonical (h : x.Parts fraction unit above) :
    Canonical x.negative (Digits.characters (unit :: trim above))
      (Digits.characters (fraction.dropWhile (· == 0))) x.characters where
  shape := h.characters
  digits := by
    intro c hc
    rcases List.mem_append.mp hc with hw | hf
    · exact Digits.isDigit_characters h.below_trim c hw
    · exact Digits.isDigit_characters h.below_dropWhile c hf
  nonempty := by simp [Digits.characters_eq_nil]
  no_leading_zero := by
    intro hz
    obtain ⟨_, _, htop⟩ := Digits.trim_append_zeros above
    have hb := h.below_trim
    -- the trimmed digits do not end in zero, so that a zero in front can only be the unit
    cases ht : trim above with
    | nil =>
      rw [ht, Digits.head_characters] at hz
      exact congrArg (fun c => [c]) (Option.some.inj hz)
    | cons d ds =>
      rw [ht] at hz htop hb
      rw [Digits.head_characters, List.getLast?_cons_cons] at hz
      obtain ⟨top, hlast, hc⟩ := Option.map_eq_some_iff.mp hz
      have hmem := List.mem_of_getLast? hlast
      have h0 := Digits.character_eq_zero top (hb top (List.mem_cons_of_mem _ hmem)) hc
      subst h0
      exact absurd hlast htop
  no_trailing_zero := by
    intro hz
    rw [Digits.getLast_characters] at hz
    obtain ⟨last, hhead, hc⟩ := Option.map_eq_some_iff.mp hz
    have hmem := List.mem_of_head? hhead
    have h0 := Digits.character_eq_zero last (h.below_dropWhile last hmem) hc
    subst h0
    have hnot := List.head?_dropWhile_not (· == 0) fraction
    rw [hhead] at hnot
    simp at hnot
  length_whole := by
    have hle := Digits.length_trim_le above
    have ha := h.length_above
    rw [Digits.length_characters, List.length_cons]
    omega
  length_fraction := by
    rw [Digits.length_characters, ← h.length_fraction]
    exact (List.dropWhile_sublist _).length_le

/-- The absolute value of a number, as a number. -/
def unsigned (x : Decimal) : Decimal := ⟨false, x.digits⟩

theorem characters_eq_unsigned (x : Decimal) :
    x.characters = (if x.negative then ['-'] else []) ++ x.unsigned.characters := by
  simp [characters, unsigned]

theorem WellFormed.unsigned (hx : x.WellFormed) : x.unsigned.WellFormed where
  length := hx.length
  digit_lt := hx.digit_lt
  nonzero_of_negative := by
    intro h
    cases h

/-- A negative number is the negative of its absolute value. -/
theorem WellFormed.negate_unsigned (hx : x.WellFormed) (hn : x.negative = true) :
    x.unsigned.negate = x := by
  have hz := hx.nonzero_of_negative hn
  obtain ⟨negative, ds⟩ := x
  cases hn
  simp [Decimal.negate, Decimal.unsigned, signed, hz]

theorem unsigned_of_not_negative (hn : x.negative = false) : x.unsigned = x := by
  obtain ⟨negative, ds⟩ := x
  cases hn
  rfl

theorem Parts.magnitude_eq (h : x.Parts fraction unit above) :
    x.magnitude = Digits.value 10 fraction + scale * Digits.value 10 (unit :: above) := by
  rw [magnitude, h.digits, Digits.value_append, h.length_fraction]
  rfl

/-- Of a multiple of one the fraction is zero and the digits before the point are the factor. -/
theorem Parts.of_integer (h : x.Parts fraction unit above) {n : Nat}
    (hn : x.magnitude = scale * n) :
    Digits.value 10 fraction = 0 ∧ Digits.value 10 (unit :: trim above) = n := by
  have hm := h.magnitude_eq
  have hlt := h.below_fraction.value_lt (by omega)
  rw [h.length_fraction] at hlt
  change Digits.value 10 fraction < scale at hlt
  rw [hn] at hm
  have hmod := congrArg (· % scale) hm
  have hdiv := congrArg (· / scale) hm
  simp only [Nat.mul_mod_right, Nat.add_mul_mod_self_left, Nat.mod_eq_of_lt hlt] at hmod
  rw [← hmod, Nat.zero_add] at hdiv
  simp only [Nat.mul_div_cancel_left _ scale_pos] at hdiv
  rw [Digits.value_cons, Digits.value_trim, ← Digits.value_cons]
  exact ⟨hmod.symm, hdiv.symm⟩

theorem Parts.characters_integer (h : x.Parts fraction unit above) {n : Nat}
    (hn : x.magnitude = scale * n) :
    x.characters = (if x.negative then ['-'] else []) ++ Nat.toDigits 10 n := by
  obtain ⟨hzero, hvalue⟩ := h.of_integer hn
  obtain ⟨_, _, htop⟩ := Digits.trim_append_zeros above
  have hall := List.all_eq_true.mp ((Digits.isZero_iff_value (by omega) fraction).mpr hzero)
  have hdrop : fraction.dropWhile (· == 0) = [] := List.dropWhile_eq_nil_iff.mpr hall
  rw [h.characters, hdrop, Digits.characters_eq_toDigits _ _ h.below_trim htop, hvalue]
  simp [Digits.characters]

/-- An integer is written as integers are. -/
theorem text_integer {v : Int} (hv : v.natAbs < scale) :
    (ofUnits (scale * v)).text = toString v := by
  have hu := units_ofUnits (natAbs_scale_mul_lt hv)
  have hw := wellFormed_ofUnits (scale * v)
  have hm : (ofUnits (scale * v)).magnitude = scale * v.natAbs := by
    rw [← natAbs_units, hu, natAbs_scale_mul]
  have hn := hw.negative_iff
  rw [hu, scale_mul_neg_iff] at hn
  obtain ⟨fraction, unit, above, h⟩ := hw.parts
  rw [text, h.characters_integer hm, Int.toString_eq_repr, Int.repr_eq_if, ← String.toList_inj,
    String.toList_ofList]
  by_cases hneg : v < 0
  · rw [if_pos (hn.mpr hneg), if_neg (Int.not_le.mpr hneg), String.toList_append, Nat.toList_repr,
      show (-v).toNat = v.natAbs by omega]
    rfl
  · rw [if_neg (fun hp => hneg (hn.mp hp)), if_pos (Int.not_lt.mp hneg), Nat.toList_repr,
      show v.toNat = v.natAbs by omega]
    rfl

end Decimal

end DeskCalculator
