import DeskCalculator.Proofs.Digits.Value

namespace DeskCalculator.Digits

variable {xs ys : List Nat}

theorem length_addFrom (carry : Nat) (hl : xs.length = ys.length) :
    (addFrom carry xs ys).1.length = xs.length := by
  induction xs generalizing ys carry with
  | nil => rfl
  | cons x xs ih =>
    cases ys with
    | nil => simp at hl
    | cons y ys => simp [addFrom, ih _ (Nat.succ.inj hl)]

theorem below_addFrom (carry : Nat) (xs ys : List Nat) : Below 10 (addFrom carry xs ys).1 := by
  induction xs generalizing ys carry with
  | nil => exact below_nil 10
  | cons x xs ih =>
    cases ys with
    | nil => exact below_nil 10
    | cons y ys => exact below_cons.mpr ⟨Nat.mod_lt _ (by omega), ih _ _⟩

/-- Nothing is lost on the way: the digits and the last carry make up the sum. -/
theorem value_addFrom (carry : Nat) (hl : xs.length = ys.length) :
    value 10 (addFrom carry xs ys).1 + 10 ^ xs.length * (addFrom carry xs ys).2 =
      value 10 xs + value 10 ys + carry := by
  induction xs generalizing ys carry with
  | nil =>
    cases ys with
    | nil => simp [addFrom]
    | cons y ys => simp at hl
  | cons x xs ih =>
    cases ys with
    | nil => simp at hl
    | cons y ys =>
      have hd := Nat.mod_add_div (x + y + carry) 10
      have hi := ih ((x + y + carry) / 10) (Nat.succ.inj hl)
      simp only [addFrom, value_cons, List.length_cons, Nat.pow_succ']
      rw [Nat.mul_assoc]
      omega

theorem add_eq (hl : xs.length = ys.length) :
    add xs ys =
      if value 10 xs + value 10 ys < 10 ^ xs.length
      then .ok (ofNat 10 xs.length (value 10 xs + value 10 ys)).1
      else .error .overflow := by
  have hv := value_addFrom 0 hl
  have hb := below_addFrom 0 xs ys
  have hn := length_addFrom 0 hl
  have hlt := hb.value_lt (by omega)
  rw [hn] at hlt
  cases hr : addFrom 0 xs ys with
  | mk zs carry =>
    rw [hr] at hv hb hn hlt
    simp only [Nat.add_zero] at hv hb hn hlt
    cases carry with
    | zero =>
      simp only [Nat.mul_zero, Nat.add_zero] at hv
      have hz := hb.ofNat_value (by omega)
      rw [hn, hv] at hz
      rw [if_pos (by omega), hz, add, hr]
      rfl
    | succ carry =>
      have hm : 10 ^ xs.length ≤ 10 ^ xs.length * (carry + 1) :=
        Nat.le_mul_of_pos_right _ (Nat.succ_pos carry)
      rw [if_neg (by omega), add, hr]
      rfl

theorem length_subtractFrom (borrow : Nat) (hl : xs.length = ys.length) :
    (subtractFrom borrow xs ys).length = xs.length := by
  induction xs generalizing ys borrow with
  | nil => rfl
  | cons x xs ih =>
    cases ys with
    | nil => simp at hl
    | cons y ys =>
      unfold subtractFrom
      split <;> simp [ih _ (Nat.succ.inj hl)]

theorem below_subtractFrom (borrow : Nat) (hx : Below 10 xs) (ys : List Nat) :
    Below 10 (subtractFrom borrow xs ys) := by
  induction xs generalizing ys borrow with
  | nil => exact below_nil 10
  | cons x xs ih =>
    cases ys with
    | nil => exact below_nil 10
    | cons y ys =>
      obtain ⟨hd, ht⟩ := below_cons.mp hx
      unfold subtractFrom
      split
      · exact below_cons.mpr ⟨by omega, ih _ ht _⟩
      · exact below_cons.mpr ⟨by omega, ih _ ht _⟩

/-- What a difference still borrows beyond its last digit. -/
def lastBorrow (borrow : Nat) : List Nat → List Nat → Nat
  | x :: xs, y :: ys => lastBorrow (if y + borrow ≤ x then 0 else 1) xs ys
  | _, _ => borrow

/-- Nothing is lost on the way: the digits fall short of the difference by the last borrow. -/
theorem value_subtractFrom (borrow : Nat) (hb : borrow ≤ 1) (hl : xs.length = ys.length)
    (hx : Below 10 xs) (hy : Below 10 ys) :
    value 10 (subtractFrom borrow xs ys) + value 10 ys + borrow =
      value 10 xs + 10 ^ xs.length * lastBorrow borrow xs ys := by
  induction xs generalizing ys borrow with
  | nil =>
    cases ys with
    | nil => simp [subtractFrom, lastBorrow]
    | cons y ys => simp at hl
  | cons x xs ih =>
    cases ys with
    | nil => simp at hl
    | cons y ys =>
      obtain ⟨hx0, hxs⟩ := below_cons.mp hx
      obtain ⟨hy0, hys⟩ := below_cons.mp hy
      rw [subtractFrom, lastBorrow, value_cons, value_cons, List.length_cons, Nat.pow_succ',
        Nat.mul_assoc]
      split
      · have hi := ih 0 (by omega) (Nat.succ.inj hl) hxs hys
        rw [value_cons]
        omega
      · have hi := ih 1 (by omega) (Nat.succ.inj hl) hxs hys
        rw [value_cons]
        omega

/-- Nothing is borrowed beyond the last digit just where the difference is not negative. -/
theorem lastBorrow_eq_zero_iff (hl : xs.length = ys.length) (hx : Below 10 xs)
    (hy : Below 10 ys) : lastBorrow 0 xs ys = 0 ↔ value 10 ys ≤ value 10 xs := by
  have hv := value_subtractFrom 0 (by omega) hl hx hy
  have hlt := (below_subtractFrom 0 hx ys).value_lt (by omega)
  rw [length_subtractFrom 0 hl] at hlt
  constructor
  · intro h
    rw [h, Nat.mul_zero] at hv
    omega
  · intro h
    by_contra hne
    have hm := Nat.le_mul_of_pos_right (10 ^ xs.length) (Nat.pos_of_ne_zero hne)
    omega

theorem value_subtract (hl : xs.length = ys.length) (hx : Below 10 xs) (hy : Below 10 ys)
    (h : value 10 ys ≤ value 10 xs) :
    value 10 (subtract xs ys) = value 10 xs - value 10 ys := by
  have hv := value_subtractFrom 0 (by omega) hl hx hy
  rw [(lastBorrow_eq_zero_iff hl hx hy).mpr h, Nat.mul_zero] at hv
  rw [subtract]
  omega

theorem subtract_eq (hl : xs.length = ys.length) (hx : Below 10 xs) (hy : Below 10 ys)
    (h : value 10 ys ≤ value 10 xs) :
    subtract xs ys = (ofNat 10 xs.length (value 10 xs - value 10 ys)).1 := by
  have hz := (below_subtractFrom 0 hx ys).ofNat_value (by omega)
  have hv := value_subtract hl hx hy h
  rw [subtract] at hv
  rw [length_subtractFrom 0 hl, hv] at hz
  exact hz.symm

/-- Where the higher digits differ, a lower digit cannot make up for it. -/
theorem compare_then {b x y m n : Nat} (hx : x < b) (hy : y < b) :
    (Ord.compare m n).then (Ord.compare x y) = Ord.compare (x + b * m) (y + b * n) := by
  rcases Nat.lt_trichotomy m n with h | h | h
  · have hm : b * (m + 1) ≤ b * n := Nat.mul_le_mul_left b h
    have hlt : x + b * m < y + b * n := by rw [Nat.mul_succ] at hm; omega
    rw [Nat.compare_eq_lt.mpr h, Nat.compare_eq_lt.mpr hlt]
    rfl
  · subst n
    rw [Nat.compare_eq_eq.mpr rfl, Ordering.eq_then]
    rcases Nat.lt_trichotomy x y with hd | hd | hd
    · rw [Nat.compare_eq_lt.mpr hd, Nat.compare_eq_lt.mpr (Nat.add_lt_add_right hd _)]
    · rw [hd, Nat.compare_eq_eq.mpr rfl, Nat.compare_eq_eq.mpr rfl]
    · rw [Nat.compare_eq_gt.mpr hd, Nat.compare_eq_gt.mpr (Nat.add_lt_add_right hd _)]
  · have hm : b * (n + 1) ≤ b * m := Nat.mul_le_mul_left b h
    have hlt : y + b * n < x + b * m := by rw [Nat.mul_succ] at hm; omega
    rw [Nat.compare_eq_gt.mpr h, Nat.compare_eq_gt.mpr hlt]
    rfl

theorem compare_eq {b : Nat} (hl : xs.length = ys.length) (hx : Below b xs) (hy : Below b ys) :
    compare xs ys = Ord.compare (value b xs) (value b ys) := by
  induction xs generalizing ys with
  | nil =>
    cases ys with
    | nil => rfl
    | cons y ys => simp at hl
  | cons x xs ih =>
    cases ys with
    | nil => simp at hl
    | cons y ys =>
      obtain ⟨hx0, hxs⟩ := below_cons.mp hx
      obtain ⟨hy0, hys⟩ := below_cons.mp hy
      rw [compare, ih (Nat.succ.inj hl) hxs hys, compare_then hx0 hy0, value_cons, value_cons]

theorem compare_eq_lt_iff {b : Nat} (hl : xs.length = ys.length) (hx : Below b xs)
    (hy : Below b ys) : compare xs ys = .lt ↔ value b xs < value b ys := by
  rw [compare_eq hl hx hy, Nat.compare_eq_lt]

end DeskCalculator.Digits
