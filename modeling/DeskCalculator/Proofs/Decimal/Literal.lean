import DeskCalculator.Decimal.Literal
import DeskCalculator.Proofs.Decimal.Safety
import DeskCalculator.Proofs.Decimal.Text

namespace DeskCalculator

open Outcome (OfLiteral OfText Yields)
open Digits (Below)

namespace Digits

theorem ofCharacter_lt {base d : Nat} {c : Char} (h : ofCharacter? base c = some d) : d < base := by
  unfold ofCharacter? at h
  have hd := (Option.filter_eq_some_iff.mp h).2
  simpa using hd

/-- A decimal digit counts as one. -/
theorem ofCharacter_of_isDigit {c : Char} (h : c.isDigit = true) :
    ∃ d, ofCharacter? 10 c = some d := by
  simp only [Char.isDigit, Bool.and_eq_true, decide_eq_true_eq] at h
  obtain ⟨hlow, hhigh⟩ := h
  have hc : '0' ≤ c ∧ c ≤ '9' := ⟨hlow, hhigh⟩
  refine ⟨c.toNat - '0'.toNat, ?_⟩
  have hle : c.toNat ≤ '9'.toNat := hhigh
  have hlt : c.toNat - '0'.toNat < 10 := by
    change c.toNat ≤ 57 at hle
    change c.toNat - 48 < 10
    omega
  simp only [ofCharacter?, if_pos hc, Option.filter_some, hlt, decide_true, if_true]

end Digits

namespace Numeral

/-- The digits read so far lie below the base and fit into a number. -/
def WellFormed : Numeral → Prop
  | whole ds => Below 10 ds ∧ ds.length ≤ Digits.integerWidth
  | fractional ds fs => (Below 10 ds ∧ ds.length ≤ Digits.integerWidth) ∧
      Below 10 fs ∧ fs.length ≤ Digits.fractionWidth
  | hexadecimal _ => True
  | binary v => v.WellFormed

variable {numeral : Numeral}

theorem wellFormed_digit {digit : Nat} (h : digit < 10) : (whole [digit]).WellFormed :=
  ⟨Digits.below_cons.mpr ⟨h, Digits.below_nil 10⟩, (by decide : 1 ≤ 20)⟩

theorem mark_yields (numeral : Numeral) (c : Char) :
    Yields OfLiteral WellFormed (numeral.mark c) := by
  unfold mark
  split
  · split
    · exact trivial
    · exact Decimal.zero_wellFormed
  · exact trivial

theorem append_yields (h : numeral.WellFormed) {digit : Nat} (hd : digit < numeral.base) :
    Yields OfLiteral WellFormed (numeral.append digit) := by
  cases numeral with
  | whole ds =>
    obtain ⟨hb, _⟩ := h
    rw [append]
    split
    · rename_i hl
      exact ⟨Digits.below_cons.mpr ⟨hd, hb⟩, hl⟩
    · exact trivial
  | fractional ds fs =>
    obtain ⟨hw, hb, _⟩ := h
    rw [append]
    split
    · rename_i hl
      exact ⟨hw, Digits.below_cons.mpr ⟨hd, hb⟩, hl⟩
    · exact trivial
  | hexadecimal ds =>
    rw [append]
    split
    · exact trivial
    · exact trivial
  | binary v =>
    have hdigit : (Decimal.whole digit).WellFormed :=
      Decimal.whole_wellFormed (Nat.lt_trans hd (by decide : 2 < Decimal.scale))
    refine (Decimal.mulMagnitude_yields trivial h Decimal.two_wellFormed).bind ?_
    intro double hdouble
    refine (Decimal.addMagnitude_yields trivial hdouble hdigit).bind ?_
    intro total ht
    exact ht

theorem value_yields (h : numeral.WellFormed) :
    Yields OfLiteral Decimal.WellFormed numeral.value := by
  cases numeral with
  | whole ds =>
    obtain ⟨hb, hl⟩ := h
    exact Decimal.build_yields false (Decimal.length_zeros_append (Digits.length_pad hl))
      (Decimal.below_zeros_append (hb.pad (by omega) _))
  | fractional ds fs =>
    obtain ⟨⟨hb, hl⟩, hfb, hfl⟩ := h
    apply Decimal.build_yields
    · rw [List.length_append, List.length_append, Digits.length_zeros, Digits.length_pad hl,
        Nat.sub_add_cancel hfl]
    · have hzeros := Digits.below_zeros (b := 10) (by omega) (Digits.fractionWidth - fs.length)
      exact Digits.below_append.mpr
        ⟨Digits.below_append.mpr ⟨hzeros, hfb⟩, hb.pad (by omega) _⟩
  | hexadecimal ds => exact Decimal.ofNibbles_yields trivial ds
  | binary v => exact h

/-- One more character keeps a numeral well-formed. -/
theorem next_yields (h : numeral.WellFormed) (separated : Bool) (c : Char) :
    Yields OfLiteral (fun step => ∀ longer ∈ step, longer.1.WellFormed)
      (numeral.next separated c) := by
  unfold next
  split
  · refine (numeral.mark_yields c).map ?_
    intro marked hm
    exact Outcome.forall_mem_some hm
  · split
    · cases numeral with
      | whole ds =>
        exact Outcome.forall_mem_some ⟨h, Digits.below_nil 10, Nat.zero_le _⟩
      | fractional _ _ | hexadecimal _ | binary _ => exact Outcome.forall_mem_none _
    · split
      · split
        · exact trivial
        · exact Outcome.forall_mem_some h
      · split
        · rename_i digit hd
          refine (append_yields h (Digits.ofCharacter_lt hd)).map ?_
          intro longer hl
          exact Outcome.forall_mem_some hl
        · exact Outcome.forall_mem_none _

theorem scan_yields (h : numeral.WellFormed) (separated : Bool) (cs : List Char) :
    Yields OfLiteral Decimal.WellFormed (numeral.scan separated cs).1 := by
  induction cs generalizing numeral separated with
  | nil => exact value_yields h
  | cons c cs ih =>
    have hn := next_yields h separated c
    unfold scan
    split
    · rename_i fault hf
      exact hn.of_error hf
    · exact value_yields h
    · rename_i longer separated' hl
      exact ih (hn.of_ok hl _ rfl) separated'

end Numeral

namespace Decimal

/-- A text that begins with a digit begins with a literal. -/
theorem readLiteral_yields {c : Char} (hc : c.isDigit = true) (cs : List Char) :
    Yields OfLiteral WellFormed (readLiteral (c :: cs)).1 := by
  obtain ⟨digit, hd⟩ := Digits.ofCharacter_of_isDigit hc
  simp only [readLiteral, hd]
  exact Numeral.scan_yields (Numeral.wellFormed_digit (Digits.ofCharacter_lt hd)) false cs

/-- Where no digit stands there is no literal. -/
theorem readLiteral_yields_ofText (cs : List Char) :
    Yields OfText WellFormed (readLiteral cs).1 := by
  cases cs with
  | nil => exact trivial
  | cons c cs =>
    rw [readLiteral]
    split
    · rename_i digit hd
      have hw := Numeral.wellFormed_digit (Digits.ofCharacter_lt hd)
      exact (Numeral.scan_yields hw false cs).mono fun _ h => h.ofText
    · exact trivial

theorem readWhole_yields (cs : List Char) : Yields OfText WellFormed (readWhole cs) := by
  have hy := readLiteral_yields_ofText cs
  unfold readWhole
  split
  · rename_i x hr
    rw [hr] at hy
    exact hy
  · exact trivial
  · rename_i fault rest hr
    rw [hr] at hy
    exact hy

theorem parse_yields (text : String) : Yields OfText WellFormed (parse text) := by
  unfold parse
  split
  · exact (readWhole_yields _).map fun x hx => hx.negate
  · exact readWhole_yields _

end Decimal

namespace Digits

theorem character_plain : ∀ d < 10, character d ≠ 'x' ∧ character d ≠ 'b' ∧ character d ≠ '.' ∧
    character d ≠ '_' ∧ character d ≠ '-' := by decide

end Digits

namespace Numeral

variable {numeral : Numeral}

theorem next_digit (hbase : numeral.base = 10) {d : Nat} (hd : d < 10) (separated : Bool) :
    numeral.next separated (Digits.character d) =
      (numeral.append d).map fun longer => some (longer, false) := by
  obtain ⟨hx, hb, hp, hu, _⟩ := Digits.character_plain d hd
  have hm : numeral.isMarker (Digits.character d) = false := by simp [isMarker, hx, hb]
  simp [next, hm, hp, hu, hbase, Digits.ofCharacter_character d hd]

/-- Printed digits, as many as fit, are taken into the part of the numeral that grows. -/
theorem scan_digits (grown : List Nat → Numeral) (hbase : ∀ ds, (grown ds).base = 10)
    (hgrow : ∀ d ds, ds.length < 20 → (grown ds).append d = .ok (grown (d :: ds)))
    (es : List Nat) {ds : List Nat} (hb : Below 10 es) (hl : es.length + ds.length ≤ 20)
    (rest : List Char) :
    (grown ds).scan false (es.map Digits.character ++ rest) =
      (grown (es.reverse ++ ds)).scan false rest := by
  induction es generalizing ds with
  | nil => rfl
  | cons e es ih =>
    obtain ⟨he, hes⟩ := Digits.below_cons.mp hb
    rw [List.length_cons] at hl
    have hstep : (grown ds).next false (Digits.character e) =
        .ok (some (grown (e :: ds), false)) := by
      rw [next_digit (hbase ds) he, hgrow e ds (by omega)]
      rfl
    have hrest : (grown (e :: ds)).scan false (es.map Digits.character ++ rest) =
        (grown (es.reverse ++ e :: ds)).scan false rest :=
      ih hes (by rw [List.length_cons]; omega)
    rw [List.map_cons, List.cons_append, scan, hstep]
    simp only
    rw [hrest, List.reverse_cons, List.append_assoc]
    rfl

theorem scan_whole (es : List Nat) {ds : List Nat} (hb : Below 10 es)
    (hl : es.length + ds.length ≤ Digits.integerWidth) (rest : List Char) :
    (whole ds).scan false (es.map Digits.character ++ rest) =
      (whole (es.reverse ++ ds)).scan false rest :=
  scan_digits whole (fun _ => rfl) (fun _ _ h => if_pos h) es hb hl rest

theorem scan_fraction (ds es : List Nat) (hb : Below 10 es)
    (hl : es.length ≤ Digits.fractionWidth) :
    (fractional ds []).scan false (es.map Digits.character) =
      ((fractional ds es.reverse).value, []) := by
  have h := scan_digits (fractional ds) (fun _ => rfl) (fun _ _ h => if_pos h) es hb
    (show es.length + [].length ≤ 20 from hl) []
  rwa [List.append_nil, List.append_nil] at h

theorem scan_point (ds : List Nat) (cs : List Char) :
    (whole ds).scan false ('.' :: cs) = (fractional ds []).scan false cs := rfl

theorem value_whole (ds : List Nat) : (whole ds).value = (fractional ds []).value := by
  simp [value]

end Numeral

namespace Decimal

open Digits (trim)

variable {x : Decimal} {fraction above : List Nat} {unit : Nat}

theorem readLiteral_characters {ds : List Nat} (hne : ds ≠ []) (hb : Below 10 ds)
    (hl : ds.length ≤ Digits.integerWidth) (rest : List Char) :
    readLiteral (Digits.characters ds ++ rest) = (Numeral.whole ds).scan false rest := by
  have hrev := Digits.below_reverse.mpr hb
  have hlen : ds.reverse.length ≤ Digits.integerWidth := by rwa [List.length_reverse]
  unfold Digits.characters
  cases hr : ds.reverse with
  | nil => exact absurd (List.reverse_eq_nil_iff.mp hr) hne
  | cons e es =>
    rw [hr] at hrev hlen
    obtain ⟨he, hes⟩ := Digits.below_cons.mp hrev
    have hfit : es.length + [e].length ≤ Digits.integerWidth := hlen
    have hds : es.reverse ++ [e] = ds := by
      rw [← List.reverse_cons, ← hr, List.reverse_reverse]
    rw [List.map_cons, List.cons_append]
    simp only [readLiteral, Digits.ofCharacter_character e he]
    rw [Numeral.scan_whole es hes hfit, hds]

/-- The digits that are not printed are zeros, and zeros are filled in for them. -/
theorem Parts.value (h : x.Parts fraction unit above) :
    (Numeral.fractional (unit :: trim above) (fraction.dropWhile (· == 0))).value =
      .ok x.unsigned := by
  have hpad : Digits.pad Digits.integerWidth (unit :: trim above) = unit :: above := by
    rw [Digits.pad, ← h.length_above, List.length_cons, Nat.add_sub_add_right, List.cons_append,
      Digits.trim_append_missing]
  have hlen : (fraction ++ unit :: above).length = Digits.width := by
    rw [List.length_append, h.length_fraction, List.length_cons, h.length_above]
  rw [Numeral.value, hpad, ← h.length_fraction, Digits.missing_append_dropWhile, build, ofDigits,
    if_pos hlen, ← h.digits]
  rfl

/-- What is printed of an absolute value is read back, to the last character. -/
theorem readLiteral_unsigned (hx : x.WellFormed) :
    readLiteral x.unsigned.characters = (.ok x.unsigned, []) := by
  obtain ⟨fraction, unit, above, h⟩ := hx.parts
  have hu : x.unsigned.Parts fraction unit above :=
    ⟨h.digits, h.length_fraction, h.length_above, h.below_fraction, h.below_whole⟩
  have hc := hu.canonical
  have hlw := hc.length_whole
  have hlf := hc.length_fraction
  rw [Digits.length_characters] at hlw hlf
  rw [hc.shape, show x.unsigned.negative = false from rfl, if_neg Bool.false_ne_true,
    List.nil_append, readLiteral_characters (List.cons_ne_nil _ _) h.below_trim hlw]
  split
  · rename_i he
    rw [List.isEmpty_iff, Digits.characters_eq_nil] at he
    have hv := h.value
    rw [he, ← Numeral.value_whole] at hv
    rw [Numeral.scan, hv]
  · have hb := Digits.below_reverse.mpr h.below_dropWhile
    rw [Numeral.scan_point, Digits.characters,
      Numeral.scan_fraction _ _ hb (by rw [List.length_reverse]; exact hlf), List.reverse_reverse,
      h.value]

/-- The text of an absolute value begins with a digit. -/
theorem head_unsigned (hx : x.WellFormed) :
    ∃ c cs, x.unsigned.characters = c :: cs ∧ c.isDigit = true := by
  obtain ⟨fraction, unit, above, h⟩ := hx.unsigned.parts
  have hc := h.canonical
  cases hw : Digits.characters (unit :: trim above) with
  | nil => exact absurd hw hc.nonempty
  | cons c cs =>
    have hshape := hc.shape
    rw [hw] at hshape
    refine ⟨c, _, hshape, hc.digits c ?_⟩
    rw [hw]
    exact List.mem_append_left _ (List.mem_cons_self)

/-- What is printed is read back as the number it was printed from. -/
theorem parse_text (hx : x.WellFormed) : parse x.text = .ok x := by
  have hread : readWhole x.unsigned.characters = .ok x.unsigned := by
    rw [readWhole, readLiteral_unsigned hx]
  unfold parse text
  rw [String.toList_ofList, characters_eq_unsigned]
  cases hn : x.negative with
  | true =>
    simp only [if_true, List.cons_append, List.nil_append]
    rw [hread]
    exact congrArg Except.ok (hx.negate_unsigned hn)
  | false =>
    obtain ⟨c, cs, hcs, hc⟩ := head_unsigned hx
    rw [if_neg Bool.false_ne_true, List.nil_append, hcs]
    rw [hcs, unsigned_of_not_negative hn] at hread
    split
    · rename_i he
      cases he
      cases hc
    · exact hread

end Decimal

end DeskCalculator
