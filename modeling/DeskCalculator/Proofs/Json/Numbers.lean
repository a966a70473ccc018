import DeskCalculator.Json.Printer
import DeskCalculator.Json.Reader

namespace DeskCalculator.Json

variable {n : Nat} {c : Char} {cs rest : List Char}

/-- Nothing follows, or what comes behind an item or a member. -/
def Stops (rest : List Char) : Prop := ∀ c ∈ rest.head?, c = ',' ∨ c = '\n'

theorem stops_nil : Stops [] := by simp [Stops]

theorem stops_comma (cs : List Char) : Stops (',' :: cs) := by simp [Stops]

theorem stops_newline (depth : Nat) (cs : List Char) : Stops (newline depth ++ cs) := by
  simp [Stops, newline]

theorem Stops.elim {P : List Char → Prop} (h : Stops rest) (hnil : P [])
    (hcomma : ∀ cs, P (',' :: cs)) (hline : ∀ cs, P ('\n' :: cs)) : P rest := by
  cases rest with
  | nil => exact hnil
  | cons c cs =>
    rcases h c rfl with rfl | rfl
    · exact hcomma cs
    · exact hline cs

theorem isDigit_toDigits (n : Nat) : ∀ c ∈ Nat.toDigits 10 n, c.isDigit = true :=
  fun _ hc => Nat.isDigit_of_mem_toDigits (by decide) (by decide) hc

/-- Only zero is written with a zero in front. -/
theorem toDigits_eq_cons (n : Nat) :
    ∃ c cs, Nat.toDigits 10 n = c :: cs ∧ c.isDigit = true ∧ (0 < n → c ≠ '0') := by
  induction n using Nat.strongRecOn with
  | ind n ih =>
    rcases Nat.lt_or_ge n 10 with hlt | hge
    · have hdigit : ∀ d < 10,
          (Nat.digitChar d).isDigit = true ∧ (0 < d → Nat.digitChar d ≠ '0') := by decide
      exact ⟨_, [], Nat.toDigits_of_lt_base hlt, hdigit n hlt⟩
    · obtain ⟨c, cs, heq, hc, hzero⟩ := ih (n / 10) (by omega)
      refine ⟨c, cs ++ [Nat.digitChar (n % 10)], ?_, hc, fun _ => hzero (by omega)⟩
      rw [Nat.toDigits_of_base_le (by decide) hge, heq, List.cons_append]

theorem takeWhile_toDigits (h : Stops rest) (n : Nat) :
    (Nat.toDigits 10 n ++ rest).takeWhile Char.isDigit = Nat.toDigits 10 n := by
  have hrest : rest.takeWhile Char.isDigit = [] := by
    apply h.elim
    · rfl
    · simp
    · simp
  rw [List.takeWhile_append_of_pos (isDigit_toDigits n), hrest, List.append_nil]

theorem wholeDigits_toDigits (h : Stops rest) (n : Nat) :
    wholeDigits (Nat.toDigits 10 n ++ rest) = Nat.toDigits 10 n := by
  unfold wholeDigits
  split
  · next cs heq =>
    rcases Nat.eq_zero_or_pos n with rfl | hpos
    · rfl
    · obtain ⟨c, more, hcons, -, hzero⟩ := toDigits_eq_cons n
      simp only [hcons, List.cons_append, List.cons.injEq] at heq
      exact absurd heq.1 (hzero hpos)
  · exact takeWhile_toDigits h n

theorem natOfCharacters_toDigits (n : Nat) :
    Digits.natOfCharacters (Nat.toDigits 10 n) = n :=
  Nat.ofDigitChars_toDigits (by decide) (by decide)

theorem Stops.no_fraction (h : Stops rest) : fractionPart rest = [] := by
  apply h.elim <;> simp [fractionPart]

theorem Stops.no_exponent (h : Stops rest) : exponentPart rest = [] := by
  apply h.elim <;> simp [exponentPart]

theorem readUnsigned_toDigits (h : Stops rest) (n : Nat) (negative : Bool) :
    readUnsigned negative (Nat.toDigits 10 n ++ rest) =
      if (Nat.toDigits 10 n).length ≤ digitLimit then
        .ok (int (if negative then -(n : Int) else n), rest)
      else .error .tooManyDigits := by
  have hbehind : (Nat.toDigits 10 n ++ rest).drop (Nat.toDigits 10 n).length = rest := by simp
  have hne : Nat.toDigits 10 n ≠ [] := Nat.toDigits_ne_nil
  unfold readUnsigned
  rw [wholeDigits_toDigits h n]
  split
  · contradiction
  · rcases Nat.lt_or_ge digitLimit (Nat.toDigits 10 n).length with hlimit | hlimit
    · simp [hbehind, h.no_fraction, h.no_exponent, hlimit, Nat.not_le.mpr hlimit]
    · simp [hbehind, h.no_fraction, h.no_exponent, Nat.not_lt.mpr hlimit, hlimit,
        natOfCharacters_toDigits]

theorem ne_of_isDigit {d : Char} (hc : c.isDigit = true) (hd : d.isDigit = false) : d ≠ c := by
  rintro rfl
  simp [hd] at hc

theorem readWord_digit (hc : c.isDigit = true) (cs : List Char) : readWord (c :: cs) = none := by
  have hne {d : Char} : d.isDigit = false → d ≠ c := ne_of_isDigit hc
  simp [readWord, words, hne (d := 'n') rfl, hne (d := 't') rfl, hne (d := 'f') rfl,
    hne (d := 'N') rfl, hne (d := 'I') rfl, hne (d := '-') rfl]

theorem readWord_minus (hc : c.isDigit = true) (cs : List Char) :
    readWord ('-' :: c :: cs) = none := by
  have hne : 'I' ≠ c := ne_of_isDigit hc rfl
  simp [readWord, words, hne]

theorem toList_toString (m : Int) :
    (toString m).toList = (if m < 0 then ['-'] else []) ++ Nat.toDigits 10 m.natAbs := by
  cases m with
  | ofNat n => simp [Int.toString_eq_repr, Int.repr_eq_if]
  | negSucc n =>
    have hneg : Int.negSucc n < 0 := Int.negSucc_lt_zero n
    simp [Int.toString_eq_repr, Int.repr_eq_if, hneg]

theorem toString_eq_cons (m : Int) :
    ∃ c cs, (toString m).toList = c :: cs ∧ (c = '-' ∨ c.isDigit = true) := by
  rw [toList_toString]
  split
  · exact ⟨'-', _, rfl, .inl rfl⟩
  · obtain ⟨c, cs, hcons, hc, -⟩ := toDigits_eq_cons m.natAbs
    exact ⟨c, cs, hcons, .inr hc⟩

theorem readScalar_digits (h : Stops rest) (n : Nat) :
    readScalar (Nat.toDigits 10 n ++ rest) =
      if (Nat.toDigits 10 n).length ≤ digitLimit then .ok (int n, rest)
      else .error .tooManyDigits := by
  have hread := readUnsigned_toDigits h n false
  obtain ⟨c, cs, hcons, hc, -⟩ := toDigits_eq_cons n
  have hminus : c ≠ '-' := (ne_of_isDigit hc rfl).symm
  rw [hcons, List.cons_append] at hread ⊢
  simpa [readScalar, readWord_digit hc, hminus] using hread

theorem readScalar_minus (h : Stops rest) (n : Nat) :
    readScalar ('-' :: (Nat.toDigits 10 n ++ rest)) =
      if (Nat.toDigits 10 n).length ≤ digitLimit then .ok (int (-n), rest)
      else .error .tooManyDigits := by
  have hread := readUnsigned_toDigits h n true
  obtain ⟨c, cs, hcons, hc, -⟩ := toDigits_eq_cons n
  rw [hcons, List.cons_append] at hread ⊢
  simpa [readScalar, readWord_minus hc] using hread

/-- What is too long to be written is too long to be read. -/
theorem readScalar_int (h : Stops rest) (m : Int) :
    readScalar ((toString m).toList ++ rest) =
      if isPrintable (int m) then .ok (int m, rest) else .error .tooManyDigits := by
  have hlimit : isPrintable (int m) = true ↔ (Nat.toDigits 10 m.natAbs).length ≤ digitLimit := by
    rw [← Nat.toList_repr, String.length_toList]
    simp [isPrintable]
  rw [toList_toString]
  split
  · next hneg =>
    have hread := readScalar_minus h m.natAbs
    have hm : -(m.natAbs : Int) = m := by omega
    simpa only [hm, ← hlimit, List.cons_append, List.nil_append] using hread
  · next hnonneg =>
    have hread := readScalar_digits h m.natAbs
    have hm : (m.natAbs : Int) = m := by omega
    simpa only [hm, ← hlimit, List.nil_append] using hread

end DeskCalculator.Json
