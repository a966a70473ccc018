import DeskCalculator.Proofs.Decimal.Integers
import DeskCalculator.Proofs.Decimal.Nibbles
import DeskCalculator.Proofs.Decimal.Rational
import DeskCalculator.Proofs.Decimal.Text

namespace DeskCalculator.Decimal

variable {t p n : Nat}

/-- An integer that needs more than twenty digits. -/
theorem fit_integer_of_le {n : Nat} (h : scale ≤ n) : fit (scale * (n : Int)) = .error .overflow :=
  fit_of_le (capacity_le_natAbs_scale_mul h)

theorem fit_integer_of_lt {n : Nat} (h : n < scale) :
    fit (scale * (n : Int)) = .ok (ofUnits (scale * (n : Int))) :=
  fit_of_lt (natAbs_scale_mul_lt h)

/-- A nibble adds its multiple of the power. -/
theorem addNibble_eq (ht : t < scale) (hp : p < scale) (hpos : 0 < p) :
    addNibble (ofUnits (scale * (t : Int))) (ofUnits (scale * (p : Int))) n =
      fit (scale * ((t + n * p : Nat) : Int)) := by
  unfold addNibble
  by_cases h0 : n = 0
  · subst h0
    rw [if_pos rfl, Nat.zero_mul, Nat.add_zero, fit_integer_of_lt ht]
  · have hn : n ≤ n * p := Nat.le_mul_of_pos_right n hpos
    rw [if_neg h0]
    change (ofInt n >>= fun m => mul m (ofUnits (scale * (p : Int))) >>= fun multiple =>
      add (ofUnits (scale * (t : Int))) multiple) = _
    rw [ofInt_eq]
    rcases Nat.lt_or_ge n scale with hlt | hge
    · rw [fit_integer_of_lt hlt, Outcome.ok_bind, mul_integers (a := n) (b := p) hlt hp,
        ← Nat.cast_mul]
      rcases Nat.lt_or_ge (n * p) scale with hm | hm
      · rw [fit_integer_of_lt hm, Outcome.ok_bind, add_integers (a := t) (b := (n * p : Nat)) ht hm,
          ← Nat.cast_add]
      · rw [fit_integer_of_le hm, fit_integer_of_le (by omega)]
        rfl
    · rw [fit_integer_of_le hge, fit_integer_of_le (by omega)]
      rfl

theorem mul_sixteen (hp : p < scale) :
    mul (ofUnits (scale * (p : Int))) sixteen = fit (scale * ((16 * p : Nat) : Int)) := by
  have h16 : ((16 : Nat) : Int).natAbs < scale := by decide
  have hs : sixteen = ofUnits (scale * ((16 : Nat) : Int)) := by
    rw [sixteen_eq, Nat.cast_mul]
  rw [hs, mul_integers (a := p) (b := (16 : Nat)) hp h16, ← Nat.cast_mul, Nat.mul_comm]

/-- The total is at every moment the value of the nibbles read, and the power that of the next one.
Where a power no longer fits, neither does the total, since the last nibble is not zero. -/
theorem addNibbles_eq (ns : List Nat) (ht : t < scale) (hp : p < scale) (hpos : 0 < p)
    (htop : ns.getLast? ≠ some 0) :
    addNibbles (ofUnits (scale * (t : Int))) (ofUnits (scale * (p : Int))) ns =
      fit (scale * ((t + p * Digits.value 16 ns : Nat) : Int)) := by
  induction ns generalizing t p with
  | nil => simp [addNibbles, fit_integer_of_lt ht]
  | cons n ns ih =>
    cases ns with
    | nil =>
      rw [addNibbles, addNibble_eq ht hp hpos, Digits.value_cons, Digits.value_nil, Nat.mul_zero,
        Nat.add_zero, Nat.mul_comm p n]
    | cons m ns =>
      have htop' : (m :: ns).getLast? ≠ some 0 := by rwa [List.getLast?_cons_cons] at htop
      have hv := Digits.value_pos_of_getLast (b := 16) (by omega) (List.cons_ne_nil m ns) htop'
      have htotal : t + p * Digits.value 16 (n :: m :: ns) =
          t + n * p + 16 * p * Digits.value 16 (m :: ns) := by
        rw [Digits.value_cons 16 n]
        ring
      have hpower : 16 * p ≤ 16 * p * Digits.value 16 (m :: ns) := Nat.le_mul_of_pos_right _ hv
      rw [addNibbles, addNibble_eq ht hp hpos, htotal]
      rcases Nat.lt_or_ge (t + n * p) scale with hs | hs
      · rw [fit_integer_of_lt hs, Outcome.ok_bind, mul_sixteen hp]
        rcases Nat.lt_or_ge (16 * p) scale with hq | hq
        · rw [fit_integer_of_lt hq, Outcome.ok_bind, ih hs hq (by omega) htop']
        · rw [fit_integer_of_le hq, fit_integer_of_le (by omega)]
          rfl
      · rw [fit_integer_of_le hs, fit_integer_of_le (by omega)]
        rfl

theorem zero_eq_integer : zero = ofUnits (scale * ((0 : Nat) : Int)) := by
  rw [zero_eq]
  rfl

theorem one_eq_integer : one = ofUnits (scale * ((1 : Nat) : Int)) := by
  rw [one_eq, Nat.cast_one, Int.mul_one]

/-- Nibbles make the number of their value, if it has no more than twenty digits. -/
theorem ofNibbles_eq (ns : List Nat) :
    ofNibbles ns = fit (scale * ((Digits.value 16 ns : Nat) : Int)) := by
  obtain ⟨_, _, htop⟩ := Digits.trim_append_zeros ns
  rw [ofNibbles, zero_eq_integer, one_eq_integer, addNibbles_eq _ scale_pos (by decide) Nat.one_pos htop,
    Digits.value_trim, Nat.zero_add, Nat.one_mul]

/-- The nibbles that more follow: each is added, and the power is taken one further. -/
def pass (total power : Decimal) : List Nat → Except Fault (Decimal × Decimal)
  | [] => .ok (total, power)
  | nibble :: nibbles => do
    let total ← addNibble total power nibble
    pass total (← mul power sixteen) nibbles

theorem addNibbles_append (low : List Nat) {high : List Nat} (h : high ≠ [])
    (total power : Decimal) :
    addNibbles total power (low ++ high) =
      pass total power low >>= fun (total, power) => addNibbles total power high := by
  induction low generalizing total power with
  | nil => rfl
  | cons nibble low ih =>
    obtain ⟨next, rest, hcons⟩ := List.exists_cons_of_ne_nil (List.append_ne_nil_of_right_ne_nil low h)
    rw [List.cons_append, hcons, addNibbles, pass, ← hcons]
    cases addNibble total power nibble with
    | error fault => rfl
    | ok total =>
      cases hpower : mul power sixteen with
      | error fault => rfl
      | ok power => exact ih total power

/-- As long as the whole fits, so does the total so far, and the power of the next nibble. -/
theorem pass_eq (low : List Nat) {high : List Nat} (h : high ≠ []) (htop : high.getLast? ≠ some 0)
    (hpos : 0 < p) (hfits : t + p * Digits.value 16 (low ++ high) < scale) :
    pass (ofUnits (scale * (t : Int))) (ofUnits (scale * (p : Int))) low =
      .ok (ofUnits (scale * ((t + p * Digits.value 16 low : Nat) : Int)),
        ofUnits (scale * ((p * 16 ^ low.length : Nat) : Int))) := by
  induction low generalizing t p with
  | nil => simp [pass]
  | cons n low ih =>
    have hne := List.append_ne_nil_of_right_ne_nil low h
    have hlast : (low ++ high).getLast? ≠ some 0 := by
      rwa [List.getLast?_append_of_ne_nil low h]
    have hv := Digits.value_pos_of_getLast (b := 16) (by omega) hne hlast
    have htotal : t + n * p + 16 * p * Digits.value 16 (low ++ high) =
        t + p * Digits.value 16 (n :: low ++ high) := by
      rw [List.cons_append, Digits.value_cons]
      ring
    -- more nibbles follow and the last is not zero: the next power is not above the whole either
    have hpower : 16 * p ≤ 16 * p * Digits.value 16 (low ++ high) := Nat.le_mul_of_pos_right _ hv
    rw [← htotal] at hfits
    rw [pass, addNibble_eq (by omega) (by omega) hpos, fit_integer_of_lt (by omega),
      Outcome.ok_bind, mul_sixteen (by omega), fit_integer_of_lt (by omega), Outcome.ok_bind,
      ih (by omega) hfits, Digits.value_cons, List.length_cons, Nat.pow_succ']
    congr 4 <;> push_cast <;> ring

theorem toRat_integer {n : Nat} (h : n < scale) : (ofUnits (scale * (n : Int))).toRat = n := by
  rw [toRat_ofUnits (natAbs_scale_mul_lt (v := n) h)]
  push_cast
  exact mul_div_cancel_left₀ _ scale_rat_pos.ne'

/-- Where the value fits, no nibble is reached with a total or a power that did not fit. -/
theorem exists_pass {ns low high : List Nat} (h : Digits.value 16 ns < 10 ^ 20)
    (hsplit : Digits.trim ns = low ++ high) (hne : high ≠ []) :
    ∃ total power : Decimal, pass zero one low = .ok (total, power) ∧
      total.toRat = Digits.value 16 low ∧ power.toRat = 16 ^ low.length ∧
      ofNibbles ns = addNibbles total power high := by
  obtain ⟨_, _, htop⟩ := Digits.trim_append_zeros ns
  rw [hsplit, List.getLast?_append_of_ne_nil low hne] at htop
  have hvalue := Digits.value_append 16 low high
  rw [← hsplit, Digits.value_trim] at hvalue
  -- what follows is no zero, so that the power it is multiplied with is not above the value
  have hhigh := Digits.value_pos_of_getLast (b := 16) (by omega) hne htop
  have hpower : 16 ^ low.length ≤ 16 ^ low.length * Digits.value 16 high :=
    Nat.le_mul_of_pos_right _ hhigh
  have hfits : 0 + 1 * Digits.value 16 (low ++ high) < scale := by
    rw [← hsplit, Digits.value_trim, Nat.zero_add, Nat.one_mul]
    exact h
  have hpass := pass_eq low hne htop Nat.one_pos hfits
  have hscale : scale = 10 ^ 20 := rfl
  rw [← zero_eq_integer, ← one_eq_integer, Nat.zero_add, Nat.one_mul, Nat.one_mul] at hpass
  refine ⟨_, _, hpass, toRat_integer (by omega), ?_, ?_⟩
  · rw [toRat_integer (by omega)]
    push_cast
    rfl
  · rw [ofNibbles, hsplit, addNibbles_append low hne, hpass]
    rfl

/-- Nibbles make a number if and only if their value has no more than twenty digits. Zeros above them
make no difference, and where the value fits no nibble is reached with a total or a power that did not
fit. -/
theorem ofNibbles_exact (ns : List Nat) :
    (Digits.value 16 ns < 10 ^ 20 →
      ∃ x : Decimal, x.WellFormed ∧ ofNibbles ns = .ok x ∧ x.toRat = Digits.value 16 ns) ∧
    (10 ^ 20 ≤ Digits.value 16 ns → ofNibbles ns = .error .overflow) ∧
    (∀ count, ofNibbles (ns ++ Digits.zeros count) = ofNibbles ns) ∧
    (Digits.value 16 ns < 10 ^ 20 → ∀ low high, Digits.trim ns = low ++ high → high ≠ [] →
      ∃ total power : Decimal, pass zero one low = .ok (total, power) ∧
        total.toRat = Digits.value 16 low ∧ power.toRat = 16 ^ low.length ∧
        ofNibbles ns = addNibbles total power high) := by
  refine ⟨?_, ?_, ?_, ?_⟩
  · intro h
    exact ⟨_, wellFormed_ofUnits _, by rw [ofNibbles_eq, fit_integer_of_lt h], toRat_integer h⟩
  · intro h
    rw [ofNibbles_eq, fit_integer_of_le h]
  · intro count
    rw [ofNibbles_eq, ofNibbles_eq, Digits.value_append, Digits.value_zeros, Nat.mul_zero,
      Nat.add_zero]
  · intro h low high hsplit hne
    exact exists_pass h hsplit hne

/-- The greatest integer, with zeros above its seventeen nibbles, and the one that follows it. -/
theorem ofNibbles_exact_edge :
    (∃ x : Decimal, x.WellFormed ∧ ofNibbles (Digits.ofNat 16 20 (10 ^ 20 - 1)).1 = .ok x ∧
      x.toRat = 10 ^ 20 - 1) ∧
    ofNibbles (Digits.ofNat 16 17 (10 ^ 20)).1 = .error .overflow := by
  have hlow : Digits.value 16 (Digits.ofNat 16 20 (10 ^ 20 - 1)).1 = 10 ^ 20 - 1 := by decide
  have hhigh : Digits.value 16 (Digits.ofNat 16 17 (10 ^ 20)).1 = 10 ^ 20 := by decide
  obtain ⟨hfits, -⟩ := ofNibbles_exact (Digits.ofNat 16 20 (10 ^ 20 - 1)).1
  obtain ⟨-, hover, -⟩ := ofNibbles_exact (Digits.ofNat 16 17 (10 ^ 20)).1
  rw [hlow] at hfits
  rw [hhigh] at hover
  obtain ⟨x, hx, hok, hvalue⟩ := hfits (by decide)
  refine ⟨⟨x, hx, hok, ?_⟩, hover (Nat.le_refl _)⟩
  rw [hvalue]
  norm_num

end DeskCalculator.Decimal
