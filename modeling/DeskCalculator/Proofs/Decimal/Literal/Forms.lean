import DeskCalculator.Decimal.Literal
import DeskCalculator.Proofs.Decimal.Units
import Mathlib.Data.List.Forall2

namespace DeskCalculator

/-- A literal by its digits, in the order in which they are written. -/
inductive Literal where
  | whole (digits : List Nat)
  | fractional (digits fraction : List Nat)
  | hexadecimal (digits : List Nat)
  | binary (digits : List Nat)
deriving DecidableEq, Repr

namespace Literal

variable {b d : Nat} {c : Char}

/-- The character of a digit; letters count in either case. -/
def Writes (base : Nat) (c : Char) (d : Nat) : Prop :=
  d < base ∧ (c = Nat.digitChar d ∨ c = (Nat.digitChar d).toUpper)

/-- The number that digits write, the most significant first. -/
def number (base : Nat) (ds : List Nat) : Nat := Digits.value base ds.reverse

def base : Literal → Nat
  | whole _ | fractional _ _ => 10
  | hexadecimal _ => 16
  | binary _ => 2

/-- The number that all digits write, be they before or behind a point. -/
def numerator : Literal → Nat
  | whole ds => number 10 ds
  | fractional ds fs => number 10 (ds ++ fs)
  | hexadecimal ds => number 16 ds
  | binary ds => number 2 ds

/-- The digits behind the point. -/
def places : Literal → Nat
  | fractional _ fs => fs.length
  | whole _ | hexadecimal _ | binary _ => 0

/-- A number has exactly the value of a literal. -/
def Denotes (literal : Literal) (x : Decimal) : Prop :=
  x.WellFormed ∧ x.units * 10 ^ literal.places = (Decimal.scale * literal.numerator : Nat)

/-- The text of a literal without underscores. There may be no digit behind a point or marker. -/
def Spells : Literal → List Char → Prop
  | whole ds, w => ds ≠ [] ∧ List.Forall₂ (Writes 10) w ds
  | fractional ds fs, w => ∃ before behind, w = before ++ '.' :: behind ∧ ds ≠ [] ∧
      List.Forall₂ (Writes 10) before ds ∧ List.Forall₂ (Writes 10) behind fs
  | hexadecimal ds, w => ∃ behind, w = '0' :: 'x' :: behind ∧ List.Forall₂ (Writes 16) behind ds
  | binary ds, w => ∃ behind, w = '0' :: 'b' :: behind ∧ List.Forall₂ (Writes 2) behind ds

/-- A text without its underscores. -/
def plain (cs : List Char) : List Char := cs.filter (· != '_')

/-- More digits, each of them with or without an underscore in front of it. -/
inductive Continued (base : Nat) : List Char → List Nat → Prop where
  | nil : Continued base [] []
  | digit {c : Char} {d : Nat} {cs : List Char} {ds : List Nat} (written : Writes base c d)
      (rest : Continued base cs ds) : Continued base (c :: cs) (d :: ds)
  | separated {c : Char} {d : Nat} {cs : List Char} {ds : List Nat} (written : Writes base c d)
      (rest : Continued base cs ds) : Continued base ('_' :: c :: cs) (d :: ds)

/-- At least one digit, with single underscores between some of them. -/
inductive Run (base : Nat) : List Char → List Nat → Prop where
  | mk {c : Char} {d : Nat} {cs : List Char} {ds : List Nat} (written : Writes base c d)
      (rest : Continued base cs ds) : Run base (c :: cs) (d :: ds)

/-- The text of a literal with single underscores between some digits. Behind a marker there is a
digit; behind a point there may be none. -/
inductive Grouped : Literal → List Char → Prop where
  | whole {cs : List Char} {ds : List Nat} (run : Run 10 cs ds) : Grouped (whole ds) cs
  | point {cs : List Char} {ds : List Nat} (run : Run 10 cs ds) :
      Grouped (fractional ds []) (cs ++ ['.'])
  | fractional {cs es : List Char} {ds fs : List Nat} (run : Run 10 cs ds)
      (fraction : Run 10 es fs) : Grouped (fractional ds fs) (cs ++ '.' :: es)
  | hexadecimal {cs : List Char} {ds : List Nat} (run : Run 16 cs ds) :
      Grouped (hexadecimal ds) ('0' :: 'x' :: cs)
  | binary {cs : List Char} {ds : List Nat} (run : Run 2 cs ds) :
      Grouped (binary ds) ('0' :: 'b' :: cs)

/-- What a literal has too much of. A binary literal may have any number of digits. -/
def excess : Literal → Option Fault
  | whole ds => if 20 < ds.length then some .integerPartOverflow else none
  | fractional ds fs =>
    if 20 < ds.length then some .integerPartOverflow
    else if 20 < fs.length then some .fractionalPartOverflow
    else none
  | hexadecimal ds =>
    if 19 < ds.length then some .integerPartOverflow
    else if 10 ^ 20 ≤ number 16 ds then some .overflow
    else none
  | binary ds => if 10 ^ 20 ≤ number 2 ds then some .overflow else none

/-- The result of reading a literal: its number, with the text behind it left over, or the fault of
what it has too much of. -/
def Reads (l : Literal) (rest : List Char) (r : Except Fault Decimal × List Char) : Prop :=
  match l.excess with
  | none => ∃ x, r = (.ok x, rest) ∧ l.Denotes x
  | some fault => r.1 = .error fault

/-- The text does not go on with a letter, a digit, an underscore or a point. -/
def Ends (cs : List Char) : Prop := ∀ c ∈ cs.head?, c.isAlphanum = false ∧ c ≠ '_' ∧ c ≠ '.'

theorem digitChar_plain : ∀ d < 16, Nat.digitChar d ∉ ['x', '.', '_'] ∧
    (Nat.digitChar d).toUpper ∉ ['x', '.', '_'] := by decide

theorem digitChar_ne_b : ∀ d < 10, Nat.digitChar d ≠ 'b' ∧ (Nat.digitChar d).toUpper ≠ 'b' := by
  decide

theorem digitChar_isAlphanum : ∀ d < 16, (Nat.digitChar d).isAlphanum = true ∧
    (Nat.digitChar d).toUpper.isAlphanum = true := by decide

theorem digitChar_isDigit : ∀ d < 10, (Nat.digitChar d).isDigit = true ∧
    (Nat.digitChar d).toUpper.isDigit = true := by decide

theorem ofCharacter_digitChar : ∀ d < 16, Digits.ofCharacter? 16 (Nat.digitChar d) = some d ∧
    Digits.ofCharacter? 16 (Nat.digitChar d).toUpper = some d := by decide

/-- What holds of a digit's character in both cases holds of each character of the digit. -/
theorem Writes.elim {P : Char → Prop} (h : Writes b c d)
    (hp : P (Nat.digitChar d) ∧ P (Nat.digitChar d).toUpper) : P c := by
  obtain ⟨hlow, hup⟩ := hp
  rcases h.2 with rfl | rfl
  · exact hlow
  · exact hup

theorem Writes.plain (h : Writes b c d) (hb : b ≤ 16) : c ≠ 'x' ∧ c ≠ '.' ∧ c ≠ '_' := by
  have hd := h.1
  have hc := h.elim (P := (· ∉ ['x', '.', '_'])) (digitChar_plain d (by omega))
  simpa using hc

theorem Writes.ne_b (h : Writes b c d) (hb : b ≤ 10) : c ≠ 'b' := by
  have hd := h.1
  exact h.elim (P := (· ≠ 'b')) (digitChar_ne_b d (by omega))

theorem Writes.isDigit (h : Writes 10 c d) : c.isDigit = true :=
  h.elim (P := (·.isDigit = true)) (digitChar_isDigit d h.1)

/-- In a smaller base fewer characters are digits. -/
theorem ofCharacter_eq_some_iff (hb : b ≤ 16) :
    Digits.ofCharacter? b c = some d ↔ Digits.ofCharacter? 16 c = some d ∧ d < b := by
  simp only [Digits.ofCharacter?, Option.filter_eq_some_iff, decide_eq_true_eq]
  constructor
  · intro h
    exact ⟨⟨h.1, by omega⟩, h.2⟩
  · intro h
    exact ⟨h.1.1, h.2⟩

/-- A character that counts as a digit is the digit's own, in one of the cases. -/
theorem writes_of_ofCharacter (h : Digits.ofCharacter? 16 c = some d) : Writes 16 c d := by
  have hdigit : ∀ n < 58, 48 ≤ n → Char.ofNat n = Nat.digitChar (n - 48) := by decide
  have hlower : ∀ n < 103, 97 ≤ n → Char.ofNat n = Nat.digitChar (n - 97 + 10) := by decide
  have hupper : ∀ n < 71, 65 ≤ n → Char.ofNat n = (Nat.digitChar (n - 65 + 10)).toUpper := by
    decide
  obtain ⟨hd, hlt⟩ := Option.filter_eq_some_iff.mp h
  refine ⟨by simpa using hlt, ?_⟩
  rw [← Char.ofNat_toNat c]
  split at hd
  · rename_i hc
    cases hd
    exact Or.inl (hdigit c.toNat (Nat.lt_succ_of_le hc.2) hc.1)
  · split at hd
    · rename_i hc
      cases hd
      exact Or.inl (hlower c.toNat (Nat.lt_succ_of_le hc.2) hc.1)
    · split at hd
      · rename_i hc
        cases hd
        exact Or.inr (hupper c.toNat (Nat.lt_succ_of_le hc.2) hc.1)
      · cases hd

theorem ofCharacter_iff_writes (hb : b ≤ 16) :
    Digits.ofCharacter? b c = some d ↔ Writes b c d := by
  rw [ofCharacter_eq_some_iff hb]
  constructor
  · intro h
    exact ⟨h.2, (writes_of_ofCharacter h.1).2⟩
  · intro h
    have hd := h.1
    have hc := ofCharacter_digitChar d (by omega)
    exact ⟨h.elim (P := (Digits.ofCharacter? 16 · = some d)) hc, hd⟩

/-- What is no letter and no digit of the alphabet is no digit in any base. -/
theorem ofCharacter_of_not_alphanum (hb : b ≤ 16) (h : c.isAlphanum = false) :
    Digits.ofCharacter? b c = none := by
  cases hc : Digits.ofCharacter? b c with
  | none => rfl
  | some d =>
    have hw := (ofCharacter_iff_writes hb).mp hc
    have hd := hw.1
    have ha := hw.elim (P := (·.isAlphanum = true)) (digitChar_isAlphanum d (by omega))
    rw [h] at ha
    cases ha

theorem Writes.unique {d' : Nat} (hb : b ≤ 16) (h : Writes b c d) (h' : Writes b c d') :
    d = d' := by
  have hs := (ofCharacter_iff_writes hb).mpr h
  rw [(ofCharacter_iff_writes hb).mpr h'] at hs
  exact (Option.some.inj hs).symm

theorem forall_writes_unique (hb : b ≤ 16) {cs : List Char} {ds es : List Nat}
    (h : List.Forall₂ (Writes b) cs ds) (h' : List.Forall₂ (Writes b) cs es) : ds = es := by
  induction h generalizing es with
  | nil => cases h'; rfl
  | cons hw _ ih =>
    cases h' with
    | cons hw' hs => rw [hw.unique hb hw', ih hs]

/-- Among digits up to nine there is no marker and no point. -/
theorem not_mem_of_writes (hb : b ≤ 10) {w : List Char} {ds : List Nat}
    (h : List.Forall₂ (Writes b) w ds) : 'x' ∉ w ∧ 'b' ∉ w ∧ '.' ∉ w := by
  induction h with
  | nil => simp
  | cons hw _ ih =>
    obtain ⟨hx, hp, _⟩ := hw.plain (by omega)
    have hne := hw.ne_b hb
    obtain ⟨ihx, ihb, ihp⟩ := ih
    simp [hx.symm, hp.symm, hne.symm, ihx, ihb, ihp]

/-- Markers and points tell the forms apart. -/
theorem Spells.marks {l : Literal} {w : List Char} (h : l.Spells w) :
    match l with
    | whole _ => 'x' ∉ w ∧ 'b' ∉ w ∧ '.' ∉ w
    | fractional _ _ => 'x' ∉ w ∧ 'b' ∉ w ∧ '.' ∈ w
    | hexadecimal _ => 'x' ∈ w
    | binary _ => 'x' ∉ w ∧ 'b' ∈ w := by
  cases l with
  | whole ds => exact not_mem_of_writes (by omega) h.2
  | fractional ds fs =>
    obtain ⟨before, behind, rfl, _, hds, hfs⟩ := h
    obtain ⟨hx, hb, _⟩ := not_mem_of_writes (by omega) hds
    obtain ⟨hx', hb', _⟩ := not_mem_of_writes (by omega) hfs
    simp [hx, hb, hx', hb']
  | hexadecimal ds =>
    obtain ⟨behind, rfl, _⟩ := h
    simp
  | binary ds =>
    obtain ⟨behind, rfl, hds⟩ := h
    obtain ⟨hx, _, _⟩ := not_mem_of_writes (by omega) hds
    simp [hx]

/-- A text spells at most one literal. -/
theorem Spells.unique {l l' : Literal} {w : List Char} (h : l.Spells w) (h' : l'.Spells w) :
    l = l' := by
  have hm := h.marks
  have hm' := h'.marks
  match l, l' with
  | whole ds, whole es => rw [forall_writes_unique (by omega) h.2 h'.2]
  | fractional ds fs, fractional es gs =>
    obtain ⟨before, behind, rfl, _, hds, hfs⟩ := h
    obtain ⟨before', behind', hw, _, hes, hgs⟩ := h'
    obtain ⟨_, _, hp⟩ := not_mem_of_writes (by omega) hds
    obtain ⟨_, _, hp'⟩ := not_mem_of_writes (by omega) hfs
    obtain ⟨rfl, _, rfl⟩ := (List.append_cons_inj_of_notMem hp hp').mp hw
    rw [forall_writes_unique (by omega) hds hes, forall_writes_unique (by omega) hfs hgs]
  | hexadecimal ds, hexadecimal es =>
    obtain ⟨behind, rfl, hds⟩ := h
    obtain ⟨behind', hw, hes⟩ := h'
    cases hw
    rw [forall_writes_unique (by omega) hds hes]
  | binary ds, binary es =>
    obtain ⟨behind, rfl, hds⟩ := h
    obtain ⟨behind', hw, hes⟩ := h'
    cases hw
    rw [forall_writes_unique (by omega) hds hes]
  -- a point or a marker tells the forms apart
  | whole _, fractional _ _ | fractional _ _, whole _ => simp_all
  | whole _, hexadecimal _ | hexadecimal _, whole _ => simp_all
  | whole _, binary _ | binary _, whole _ => simp_all
  | fractional _ _, hexadecimal _ | hexadecimal _, fractional _ _ => simp_all
  | fractional _ _, binary _ | binary _, fractional _ _ => simp_all
  | hexadecimal _, binary _ | binary _, hexadecimal _ => simp_all

@[simp] theorem plain_nil : plain [] = [] := rfl

@[simp] theorem plain_append (cs es : List Char) : plain (cs ++ es) = plain cs ++ plain es :=
  List.filter_append cs es

@[simp] theorem plain_separator (cs : List Char) : plain ('_' :: cs) = plain cs := rfl

theorem plain_cons (h : c ≠ '_') (cs : List Char) : plain (c :: cs) = c :: plain cs := by
  simp [plain, h]

theorem Continued.spells {cs : List Char} {ds : List Nat} (h : Continued b cs ds) (hb : b ≤ 16) :
    List.Forall₂ (Writes b) (plain cs) ds := by
  induction h with
  | nil => exact .nil
  | digit written _ ih =>
    rw [plain_cons (written.plain hb).2.2]
    exact .cons written ih
  | separated written _ ih =>
    rw [plain_separator, plain_cons (written.plain hb).2.2]
    exact .cons written ih

theorem Run.continued {cs : List Char} {ds : List Nat} (h : Run b cs ds) : Continued b cs ds := by
  obtain ⟨written, rest⟩ := h
  exact .digit written rest

theorem Run.spells {cs : List Char} {ds : List Nat} (h : Run b cs ds) (hb : b ≤ 16) :
    ds ≠ [] ∧ List.Forall₂ (Writes b) (plain cs) ds := by
  refine ⟨?_, h.continued.spells hb⟩
  obtain ⟨_, _⟩ := h
  exact List.cons_ne_nil _ _

/-- Without its underscores a literal is spelled as before. -/
theorem Grouped.spells {l : Literal} {cs : List Char} (h : l.Grouped cs) :
    l.Spells (plain cs) := by
  have hmarker {m : Char} (hm : m ≠ '_') (cs : List Char) :
      plain ('0' :: m :: cs) = '0' :: m :: plain cs := by
    rw [plain_cons (by decide), plain_cons hm]
  have hpoint (cs es : List Char) : plain (cs ++ '.' :: es) = plain cs ++ '.' :: plain es := by
    rw [plain_append, plain_cons (by decide)]
  cases h with
  | whole run => exact run.spells (by omega)
  | point run =>
    obtain ⟨hne, hds⟩ := run.spells (by omega)
    exact ⟨_, [], hpoint _ [], hne, hds, .nil⟩
  | fractional run fraction =>
    obtain ⟨hne, hds⟩ := run.spells (by omega)
    obtain ⟨_, hfs⟩ := fraction.spells (by omega)
    exact ⟨_, _, hpoint _ _, hne, hds, hfs⟩
  | hexadecimal run => exact ⟨_, hmarker (by decide) _, (run.spells (by omega)).2⟩
  | binary run => exact ⟨_, hmarker (by decide) _, (run.spells (by omega)).2⟩

end Literal

end DeskCalculator
