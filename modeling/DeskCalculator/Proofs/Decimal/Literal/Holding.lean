import DeskCalculator.Proofs.Decimal.FromNibbles
import DeskCalculator.Proofs.Decimal.Literal
import DeskCalculator.Proofs.Decimal.Literal.Forms

namespace DeskCalculator

open Decimal (capacity fit ofUnits scale)
open Digits (Below)
open Literal (Writes number)
open Outcome (OfLiteral Yields)

namespace Decimal

theorem double_integer {n : Nat} (hn : n < scale) :
    mulMagnitude (ofUnits (scale * (n : Int))) two = fit (scale * ((2 * n : Nat) : Int)) := by
  have h2 : two = ofUnits (scale * 2 : Nat) := whole_eq (by decide)
  rw [h2, ← Nat.cast_mul, mulMagnitude_integers hn (by decide), Nat.mul_comm n 2, Nat.cast_mul]

theorem addMagnitude_digit {m d : Nat} (hm : m < scale) (hd : d < scale) :
    addMagnitude (ofUnits (scale * (m : Int))) (whole d) = fit (scale * ((d + m : Nat) : Int)) := by
  have hw := wellFormed_ofUnits ((scale * m : Nat) : Int)
  have hmagnitude : (ofUnits ((scale * m : Nat) : Int)).magnitude + (whole d).magnitude =
      scale * (d + m) := by
    rw [whole_eq hd, magnitude_ofUnits (scale_mul_lt hm), magnitude_ofUnits (scale_mul_lt hd)]
    ring
  rw [← Nat.cast_mul, addMagnitude_eq hw (whole_wellFormed hd), hmagnitude, Nat.cast_mul]

end Decimal

namespace Literal

variable {l : Literal} {w : List Char} {c : Char} {d : Nat}

/-- More digits at the end. -/
def extend (es : List Nat) : Literal → Literal
  | whole ds => whole (ds ++ es)
  | fractional ds fs => fractional ds (fs ++ es)
  | hexadecimal ds => hexadecimal (ds ++ es)
  | binary ds => binary (ds ++ es)

/-- What is found out while the digits are read. A hexadecimal literal may have few digits and still
be too big, which shows at its end. -/
def limit : Literal → Option Fault
  | hexadecimal ds => if 19 < ds.length then some .integerPartOverflow else none
  | whole ds => (whole ds).excess
  | fractional ds fs => (fractional ds fs).excess
  | binary ds => (binary ds).excess

theorem number_append (b : Nat) (ds es : List Nat) :
    number b (ds ++ es) = number b es + b ^ es.length * number b ds := by
  rw [number, List.reverse_append, Digits.value_append, List.length_reverse]
  rfl

theorem number_le_append (ds es : List Nat) : number 2 ds ≤ number 2 (ds ++ es) := by
  rw [number_append]
  exact Nat.le_add_left_of_le (Nat.le_mul_of_pos_left _ (Nat.two_pow_pos _))

theorem extend_nil (l : Literal) : l.extend [] = l := by cases l <;> simp [extend]

theorem extend_cons (d : Nat) (ds : List Nat) (l : Literal) :
    l.extend (d :: ds) = (l.extend [d]).extend ds := by cases l <;> simp [extend]

theorem base_extend (ds : List Nat) (l : Literal) : (l.extend ds).base = l.base := by
  cases l <;> rfl

theorem base_le (l : Literal) : l.base ≤ 16 := by cases l <;> simp [Literal.base]

theorem number_lt_scale {ds : List Nat} (h : (binary ds).limit = none) : number 2 ds < scale := by
  simp only [limit, excess, ite_eq_right_iff, reduceCtorEq, imp_false, Nat.not_le] at h
  exact h

/-- Once there is too much, more digits do not help. -/
theorem limit_extend {fault : Fault} (h : l.limit = some fault) (es : List Nat) :
    (l.extend es).limit = some fault := by
  have hlong {n : Nat} {ds : List Nat} (hn : n < ds.length) : n < (ds ++ es).length := by
    rw [List.length_append]
    exact Nat.lt_add_right _ hn
  cases l with
  | whole ds | hexadecimal ds =>
    simp only [limit, excess, extend, Option.ite_none_right_eq_some] at h ⊢
    exact ⟨hlong h.1, h.2⟩
  | fractional ds fs =>
    by_cases hds : 20 < ds.length
    · simp only [limit, excess, extend, if_pos hds] at h ⊢
      exact h
    · simp only [limit, excess, extend, if_neg hds, Option.ite_none_right_eq_some] at h ⊢
      exact ⟨hlong h.1, h.2⟩
  | binary ds =>
    simp only [limit, excess, extend, Option.ite_none_right_eq_some] at h ⊢
    exact ⟨Nat.le_trans h.1 (number_le_append ds es), h.2⟩

theorem excess_of_limit {fault : Fault} (h : l.limit = some fault) : l.excess = some fault := by
  cases l with
  | whole _ | fractional _ _ | binary _ => exact h
  | hexadecimal ds =>
    obtain ⟨hlong, hf⟩ := Option.ite_none_right_eq_some.mp h
    exact (if_pos hlong).trans hf

theorem Spells.extend (h : l.Spells w) (hc : Writes l.base c d) :
    (l.extend [d]).Spells (w ++ [c]) := by
  have hlast {b : Nat} {cs : List Char} {ds : List Nat} (hs : List.Forall₂ (Writes b) cs ds)
      (hc : Writes b c d) : List.Forall₂ (Writes b) (cs ++ [c]) (ds ++ [d]) :=
    List.rel_append hs (.cons hc .nil)
  cases l with
  | whole ds => exact ⟨by simp, hlast h.2 hc⟩
  | fractional ds fs =>
    obtain ⟨before, behind, rfl, hne, hds, hfs⟩ := h
    exact ⟨before, behind ++ [c], by simp, hne, hds, hlast hfs hc⟩
  | hexadecimal ds =>
    obtain ⟨behind, rfl, hds⟩ := h
    exact ⟨behind ++ [c], by simp, hlast hds hc⟩
  | binary ds =>
    obtain ⟨behind, rfl, hds⟩ := h
    exact ⟨behind ++ [c], by simp, hlast hds hc⟩

/-- Only the digit itself spells a zero. -/
theorem eq_of_spells_zero (h : (whole [0]).Spells w) : w = ['0'] := by
  obtain ⟨_, _ | ⟨hzero, _ | _⟩⟩ := h
  obtain rfl | rfl := hzero.2
  · rfl
  · rfl

/-- The literal that has been read with some characters, and whether an underscore was seen since
the last digit. Neither a marker nor the point counts as a digit here, so that an underscore may
stand on either side of them. -/
inductive Taken : Literal → Bool → List Char → Prop where
  | first {c : Char} {d : Nat} (written : Writes 10 c d) : Taken (whole [d]) false [c]
  | digit {l : Literal} {separated : Bool} {w : List Char} {c : Char} {d : Nat}
      (before : Taken l separated w) (written : Writes l.base c d) :
      Taken (l.extend [d]) false (w ++ [c])
  | separator {l : Literal} {w : List Char} (before : Taken l false w) : Taken l true (w ++ ['_'])
  | point {ds : List Nat} {separated : Bool} {w : List Char}
      (before : Taken (whole ds) separated w) : Taken (fractional ds []) separated (w ++ ['.'])
  | hexadecimal {separated : Bool} {w : List Char} (before : Taken (whole [0]) separated w) :
      Taken (hexadecimal []) separated (w ++ ['x'])
  | binary {separated : Bool} {w : List Char} (before : Taken (whole [0]) separated w) :
      Taken (binary []) separated (w ++ ['b'])

/-- Without its underscores, what has been read spells the literal. -/
theorem Taken.spells {separated : Bool} (h : l.Taken separated w) : l.Spells (plain w) := by
  induction h with
  | first written =>
    rw [plain_cons (written.plain (by omega)).2.2]
    exact ⟨List.cons_ne_nil _ _, .cons written .nil⟩
  | @digit l _ _ _ _ _ written ih =>
    rw [plain_append, plain_cons (written.plain l.base_le).2.2]
    exact ih.extend written
  | separator _ ih => simpa using ih
  | point _ ih =>
    rw [plain_append, plain_cons (by decide)]
    exact ⟨_, [], rfl, ih.1, ih.2, .nil⟩
  | hexadecimal _ ih | binary _ ih =>
    rw [plain_append, eq_of_spells_zero ih]
    exact ⟨[], rfl, .nil⟩

theorem denotes_ofUnits (hp : l.places ≤ 20) (hlt : 10 ^ (20 - l.places) * l.numerator < capacity) :
    l.Denotes (ofUnits (10 ^ (20 - l.places) * l.numerator : Nat)) := by
  have hpow : 10 ^ (20 - l.places) * 10 ^ l.places = scale := by
    rw [← Nat.pow_add, Nat.sub_add_cancel hp]
    rfl
  refine ⟨Decimal.wellFormed_ofUnits _, ?_⟩
  rw [Decimal.units_ofUnits (by rwa [Int.natAbs_natCast]), ← hpow]
  push_cast
  ring

/-- A point with nothing behind it does not change the number. -/
theorem denotes_point {ds : List Nat} {x : Decimal} :
    (fractional ds []).Denotes x ↔ (whole ds).Denotes x := by
  simp [Denotes, places, numerator]

/-- An integer is read if it has no more than twenty digits. -/
theorem reads_integer (hp : l.places = 0)
    (he : l.excess = if scale ≤ l.numerator then some .overflow else none) (rest : List Char) :
    l.Reads rest (fit (scale * (l.numerator : Int)), rest) := by
  unfold Reads
  rw [he]
  rcases Nat.lt_or_ge l.numerator scale with hlt | hge
  · rw [if_neg (Nat.not_le.mpr hlt), Decimal.fit_integer_of_lt hlt]
    have hd := denotes_ofUnits (l := l) (by omega)
      (by rw [hp]; exact Decimal.scale_mul_lt hlt)
    rw [hp] at hd
    exact ⟨_, rfl, hd⟩
  · rw [if_pos hge, Decimal.fit_integer_of_le hge]

end Literal

namespace Numeral

variable {numeral longer : Numeral} {l : Literal} {d : Nat}

/-- The digits agree. A numeral has the last digit first, and counts the zero in front of a marker
as a digit. -/
inductive Matches : Numeral → Literal → Prop where
  | whole (ds : List Nat) : Matches (whole ds.reverse) (.whole ds)
  | fractional (ds fs : List Nat) :
      Matches (fractional ds.reverse fs.reverse) (.fractional ds fs)
  | hexadecimal (ds : List Nat) : Matches (hexadecimal (ds.reverse ++ [0])) (.hexadecimal ds)
  | binary (ds : List Nat) :
      Matches (binary (ofUnits (scale * (number 2 ds : Nat)))) (.binary ds)

/-- The literal that was read so far. -/
structure Holds (numeral : Numeral) (l : Literal) : Prop where
  wellFormed : numeral.WellFormed
  digits : numeral.Matches l
  within : l.limit = none

theorem Holds.base (h : numeral.Holds l) : numeral.base = l.base := by
  obtain ⟨_, hm, _⟩ := h
  cases hm <;> rfl

/-- Reading as far as a literal: it is held, or its limit is passed. -/
def Follows (l : Literal) (r : Except Fault Numeral) : Prop :=
  match l.limit with
  | none => ∃ numeral, r = .ok numeral ∧ numeral.Holds l
  | some fault => r = .error fault

theorem follows_ite {p q : Prop} [Decidable p] [Decidable q] {fault : Fault}
    (hl : l.limit = if q then some fault else none) (hpq : p ↔ ¬ q) (hm : longer.Matches l)
    (hw : Yields OfLiteral WellFormed (if p then .ok longer else .error fault)) :
    Follows l (if p then .ok longer else .error fault) := by
  unfold Follows
  by_cases hq : q
  · rw [if_pos hq] at hl
    rw [hl, if_neg (by simp [hpq, hq])]
  · have hp : p := hpq.mpr hq
    rw [if_neg hq] at hl
    rw [if_pos hp] at hw ⊢
    rw [hl]
    exact ⟨longer, rfl, hw, hm, hl⟩

/-- One more binary digit doubles the value. -/
theorem append_binary {n : Nat} (hn : n < scale) (hd : d < scale) :
    (binary (ofUnits (scale * (n : Int)))).append d =
      if d + 2 * n < scale then .ok (binary (ofUnits (scale * ((d + 2 * n : Nat) : Int))))
      else .error .overflow := by
  change (Decimal.mulMagnitude (ofUnits (scale * (n : Int))) Decimal.two >>= fun double =>
    Decimal.addMagnitude double (Decimal.whole d) >>= fun v => .ok (binary v)) = _
  rw [Decimal.double_integer hn]
  rcases Nat.lt_or_ge (2 * n) scale with hlt | hge
  · rw [Decimal.fit_integer_of_lt hlt, Outcome.ok_bind, Decimal.addMagnitude_digit hlt hd]
    by_cases hs : d + 2 * n < scale
    · rw [if_pos hs, Decimal.fit_integer_of_lt hs]
      rfl
    · rw [if_neg hs, Decimal.fit_integer_of_le (Nat.not_lt.mp hs)]
      rfl
  · rw [if_neg (by omega), Decimal.fit_integer_of_le hge]
    rfl

/-- A digit is taken in, or refused because there are too many. -/
theorem append_follows (h : numeral.Holds l) (hd : d < l.base) :
    Follows (l.extend [d]) (numeral.append d) := by
  have hw := append_yields h.wellFormed (h.base ▸ hd)
  obtain ⟨hwell, hm, hl⟩ := h
  cases hm with
  | whole ds =>
    refine follows_ite rfl ?_ (by simpa [Literal.extend] using Matches.whole (ds ++ [d])) hw
    simp [Digits.integerWidth]
  | fractional ds fs =>
    have hds : ds.reverse.length ≤ 20 := hwell.1.2
    rw [List.length_reverse] at hds
    refine follows_ite (if_neg (Nat.not_lt.mpr hds)) ?_
      (by simpa [Literal.extend] using Matches.fractional ds (fs ++ [d])) hw
    simp [Digits.fractionWidth]
  | hexadecimal ds =>
    refine follows_ite rfl ?_ (by simpa [Literal.extend] using Matches.hexadecimal (ds ++ [d])) hw
    simp [Digits.integerWidth]
    omega
  | binary ds =>
    have hds := Literal.number_lt_scale hl
    have hsum : number 2 (ds ++ [d]) = d + 2 * number 2 ds := by
      rw [Literal.number_append]
      simp [number]
    have hd2 : d < 2 := hd
    rw [append_binary hds (Nat.lt_trans hd2 (by decide)), ← hsum] at hw ⊢
    exact follows_ite rfl Nat.not_le.symm (Matches.binary (ds ++ [d])) hw

/-- The zeros that are filled in behind the fraction move the point to its place. -/
theorem value_fractional {ds fs : List Nat}
    (hw : (fractional ds.reverse fs.reverse).WellFormed) :
    ∃ x, (fractional ds.reverse fs.reverse).value = .ok x ∧
      (Literal.fractional ds fs).Denotes x := by
  obtain ⟨⟨hb, hl⟩, hfb, hfl⟩ := hw
  have hzeros := Digits.below_zeros (b := 10) (by omega) (Digits.fractionWidth - fs.reverse.length)
  have hlength : (Digits.zeros (Digits.fractionWidth - fs.reverse.length) ++ fs.reverse ++
      Digits.pad Digits.integerWidth ds.reverse).length = Digits.width := by
    rw [List.length_append, List.length_append, Digits.length_zeros, Digits.length_pad hl,
      Nat.sub_add_cancel hfl]
  have hbelow := Digits.below_append.mpr
    ⟨Digits.below_append.mpr ⟨hzeros, hfb⟩, hb.pad (by omega) Digits.integerWidth⟩
  have hvalue : Digits.value 10 (Digits.zeros (Digits.fractionWidth - fs.reverse.length) ++
      fs.reverse ++ Digits.pad Digits.integerWidth ds.reverse) =
      10 ^ (20 - fs.length) * number 10 (ds ++ fs) := by
    rw [List.append_assoc, Digits.value_append, Digits.value_append, Digits.value_zeros,
      Digits.length_zeros, Digits.value_pad, Literal.number_append, List.length_reverse,
      Nat.zero_add]
    rfl
  have hlt := hbelow.value_lt (by omega)
  rw [hlength, ← Decimal.capacity_eq_pow, hvalue] at hlt
  refine ⟨_, Decimal.build_eq false hlength hbelow, ?_⟩
  rw [hvalue]
  rw [List.length_reverse] at hfl
  exact Literal.denotes_ofUnits (l := .fractional ds fs) hfl hlt

/-- Where a literal ends, it is read. -/
theorem Holds.reads (h : numeral.Holds l) (rest : List Char) :
    l.Reads rest (numeral.value, rest) := by
  obtain ⟨hw, hm, hl⟩ := h
  cases hm with
  | whole ds =>
    have hf : (fractional ds.reverse [].reverse).WellFormed :=
      ⟨hw, Digits.below_nil 10, Nat.zero_le _⟩
    have he : (Literal.whole ds).excess = none := hl
    obtain ⟨x, hx, hd⟩ := value_fractional hf
    unfold Literal.Reads
    rw [he, value_whole]
    exact ⟨x, congrArg (·, rest) hx, Literal.denotes_point.mp hd⟩
  | fractional ds fs =>
    have he : (Literal.fractional ds fs).excess = none := hl
    obtain ⟨x, hx, hd⟩ := value_fractional hw
    unfold Literal.Reads
    rw [he, hx]
    exact ⟨x, rfl, hd⟩
  | hexadecimal ds =>
    have he : ¬ 19 < ds.length := by simpa [Literal.limit, Literal.excess] using hl
    have hv : Digits.value 16 (ds.reverse ++ [0]) = number 16 ds := by
      simp [Digits.value_append, number]
    rw [Numeral.value, Decimal.ofNibbles_eq, hv]
    exact Literal.reads_integer (l := .hexadecimal ds) rfl (if_neg he) rest
  | binary ds =>
    have hds := Literal.number_lt_scale hl
    rw [Numeral.value, ← Decimal.fit_integer_of_lt hds]
    exact Literal.reads_integer (l := .binary ds) rfl rfl rest

end Numeral

end DeskCalculator
