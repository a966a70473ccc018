import DeskCalculator.Json.Printer
import DeskCalculator.Json.Reader
import DeskCalculator.Proofs.Decimal.Literal.Forms

namespace DeskCalculator.Json

variable {c : Char} {n m : Nat} {rest : List Char}

/-- The units of a character, the high surrogate before the low one. -/
def units (c : Char) : List Nat :=
  if c.toNat < 0x10000 then [c.toNat]
  else [0xD800 + (c.toNat - 0x10000) / 0x400, 0xDC00 + (c.toNat - 0x10000) % 0x400]

theorem joinSurrogates_single (hhigh : isHigh n = false) (hlow : isLow n = false)
    (units : List Nat) : joinSurrogates (n :: units) = Char.ofNat n :: joinSurrogates units := by
  cases units with
  | nil => simp [joinSurrogates, hhigh, hlow]
  | cons m units => simp [joinSurrogates, hhigh, hlow]

theorem joinSurrogates_pair (hhigh : isHigh n = true) (hlow : isLow m = true) (units : List Nat) :
    joinSurrogates (n :: m :: units) =
      Char.ofNat (0x10000 + (n - 0xD800) * 0x400 + (m - 0xDC00)) :: joinSurrogates units := by
  simp [joinSurrogates, hhigh, hlow]

/-- No character is a surrogate. -/
theorem isHigh_toNat (c : Char) : isHigh c.toNat = false ∧ isLow c.toNat = false := by
  have hvalid : c.toNat < 0xD800 ∨ 0xDFFF < c.toNat ∧ c.toNat < 0x110000 := c.valid
  simp only [isHigh, isLow, Bool.and_eq_false_iff, decide_eq_false_iff_not]
  omega

theorem joinSurrogates_units (c : Char) (more : List Nat) :
    joinSurrogates (units c ++ more) = c :: joinSurrogates more := by
  have hvalid : c.toNat < 0xD800 ∨ 0xDFFF < c.toNat ∧ c.toNat < 0x110000 := c.valid
  unfold units
  split
  · obtain ⟨hhigh, hlow⟩ := isHigh_toNat c
    simp [joinSurrogates_single hhigh hlow]
  · next hlarge =>
    have hhigh : isHigh (0xD800 + (c.toNat - 0x10000) / 0x400) = true := by
      simp only [isHigh, Bool.and_eq_true, decide_eq_true_eq]
      omega
    have hlow : isLow (0xDC00 + (c.toNat - 0x10000) % 0x400) = true := by
      simp only [isLow, Bool.and_eq_true, decide_eq_true_eq]
      omega
    have hjoin : 0x10000 + (0xD800 + (c.toNat - 0x10000) / 0x400 - 0xD800) * 0x400 +
        (0xDC00 + (c.toNat - 0x10000) % 0x400 - 0xDC00) = c.toNat := by omega
    simp only [List.cons_append, List.nil_append, joinSurrogates_pair hhigh hlow, hjoin,
      Char.ofNat_toNat]

theorem joinSurrogates_flatMap (cs : List Char) : joinSurrogates (cs.flatMap units) = cs := by
  induction cs with
  | nil => rfl
  | cons c cs ih => rw [List.flatMap_cons, joinSurrogates_units, ih]

theorem unit_digitChar {a b c d : Nat} (ha : a < 16) (hb : b < 16) (hc : c < 16) (hd : d < 16) :
    unit? (Nat.digitChar a) (Nat.digitChar b) (Nat.digitChar c) (Nat.digitChar d) =
      some (((a * 16 + b) * 16 + c) * 16 + d) := by
  have hvalue : Digits.value 16 [d, c, b, a] = ((a * 16 + b) * 16 + c) * 16 + d := by
    simp only [Digits.value]
    omega
  rw [← hvalue]
  simp [unit?, Literal.ofCharacter_digitChar a ha, Literal.ofCharacter_digitChar b hb,
    Literal.ofCharacter_digitChar c hc, Literal.ofCharacter_digitChar d hd]

theorem readPoints_escapeUnit (hn : n < 0x10000) (rest : List Char) :
    readPoints (escapeUnit n ++ rest) =
      (readPoints rest).map fun (points, rest) => (n :: points, rest) := by
  have hunit := unit_digitChar (a := n / 4096) (b := n / 256 % 16) (c := n / 16 % 16)
    (d := n % 16) (by omega) (by omega) (by omega) (by omega)
  have hdigits : ((n / 4096 * 16 + n / 256 % 16) * 16 + n / 16 % 16) * 16 + n % 16 = n := by omega
  rw [hdigits] at hunit
  simp only [escapeUnit, hexUnit, List.map_cons, List.map_nil, List.cons_append, List.nil_append,
    readPoints, hunit]
  cases readPoints rest <;> rfl

theorem readPoints_named {name : Char} (hu : name ≠ 'u') (hname : named? name = some c)
    (rest : List Char) :
    readPoints ('\\' :: name :: rest) =
      (readPoints rest).map fun (points, rest) => (c.toNat :: points, rest) := by
  cases h : readPoints rest with
  | none => simp [readPoints, hu, hname, h]
  | some found => simp [readPoints, hu, hname, h]

theorem readPoints_plain (hquote : c ≠ '\x22') (hslash : c ≠ '\\') (hblank : ' ' ≤ c)
    (rest : List Char) :
    readPoints (c :: rest) =
      (readPoints rest).map fun (points, rest) => (c.toNat :: points, rest) := by
  have hc : ¬ c < ' ' := Char.not_lt.mpr hblank
  cases h : readPoints rest with
  | none => simp [readPoints, hslash, hc, h]
  | some found => simp [readPoints, hslash, hc, h]

theorem units_of_lt (h : c.toNat < 0x10000) : units c = [c.toNat] := if_pos h

theorem readPoints_escape (c : Char) (rest : List Char) :
    readPoints (escape c ++ rest) =
      (readPoints rest).map fun (points, rest) => (units c ++ points, rest) := by
  unfold escape
  -- seven characters have an escape of their own
  iterate 7
    split
    · next h =>
      subst h
      exact readPoints_named (by decide) rfl rest
  split
  · next hquote hslash _ _ _ _ _ h =>
    have hlt : c.toNat < 0x10000 := Nat.lt_of_le_of_lt h.2 (by decide)
    rw [units_of_lt hlt]
    exact readPoints_plain hquote hslash h.1 rest
  split
  · next h =>
    rw [units_of_lt h]
    exact readPoints_escapeUnit h rest
  · next h =>
    have hvalid : c.toNat < 0xD800 ∨ 0xDFFF < c.toNat ∧ c.toNat < 0x110000 := c.valid
    rw [List.append_assoc, readPoints_escapeUnit (by omega), readPoints_escapeUnit (by omega),
      Option.map_map, units, if_neg h]
    rfl

theorem readPoints_flatMap (cs rest : List Char) :
    readPoints (cs.flatMap escape ++ '\x22' :: rest) = some (cs.flatMap units, rest) := by
  induction cs with
  | nil => simp [readPoints]
  | cons c cs ih => simp [readPoints_escape, ih]

theorem printString_append (s : String) (rest : List Char) :
    printString s ++ rest = '\x22' :: (s.toList.flatMap escape ++ '\x22' :: rest) := by
  simp [printString]

theorem readString_escaped (s : String) (rest : List Char) :
    readString (s.toList.flatMap escape ++ '\x22' :: rest) = .ok (s, rest) := by
  simp [readString, readPoints_flatMap, joinSurrogates_flatMap]

end DeskCalculator.Json
