import DeskCalculator.Digits
import Mathlib.Data.Nat.Digits.Lemmas

namespace DeskCalculator.Digits

/-- Every digit lies below the base. -/
def Below (base : Nat) (ds : List Nat) : Prop := ∀ d ∈ ds, d < base

theorem below_nil (b : Nat) : Below b [] := by simp [Below]

theorem below_cons {b d : Nat} {ds : List Nat} : Below b (d :: ds) ↔ d < b ∧ Below b ds := by
  simp [Below]

theorem below_append {b : Nat} {xs ys : List Nat} :
    Below b (xs ++ ys) ↔ Below b xs ∧ Below b ys := by
  simp [Below, or_imp, forall_and]

theorem below_reverse {b : Nat} {ds : List Nat} : Below b ds.reverse ↔ Below b ds := by
  simp [Below]

theorem below_zeros {b : Nat} (hb : 0 < b) (n : Nat) : Below b (zeros n) := by
  intro d hd
  rw [List.eq_of_mem_replicate hd]
  exact hb

theorem Below.take {b : Nat} {ds : List Nat} (h : Below b ds) (n : Nat) : Below b (ds.take n) :=
  fun d hd => h d (List.mem_of_mem_take hd)

theorem Below.drop {b : Nat} {ds : List Nat} (h : Below b ds) (n : Nat) : Below b (ds.drop n) :=
  fun d hd => h d (List.mem_of_mem_drop hd)

@[simp] theorem length_zeros (n : Nat) : (zeros n).length = n := List.length_replicate

theorem value_eq_ofDigits (b : Nat) (ds : List Nat) : value b ds = Nat.ofDigits b ds := by
  induction ds with
  | nil => rfl
  | cons d ds ih => simp [value, Nat.ofDigits_cons, ih]

@[simp] theorem value_nil (b : Nat) : value b [] = 0 := rfl

@[simp] theorem value_cons (b d : Nat) (ds : List Nat) :
    value b (d :: ds) = d + b * value b ds := rfl

theorem value_append (b : Nat) (xs ys : List Nat) :
    value b (xs ++ ys) = value b xs + b ^ xs.length * value b ys := by
  simp only [value_eq_ofDigits, Nat.ofDigits_append]

@[simp] theorem value_zeros (b n : Nat) : value b (zeros n) = 0 := by
  rw [value_eq_ofDigits, zeros, Nat.ofDigits_replicate_zero]

theorem Below.value_lt {b : Nat} (hb : 1 < b) {ds : List Nat} (h : Below b ds) :
    value b ds < b ^ ds.length := by
  rw [value_eq_ofDigits]
  exact Nat.ofDigits_lt_base_pow_length hb h

/-- Digits are settled by their count and their value. -/
theorem Below.eq_of_value {b : Nat} (hb : 1 < b) {xs ys : List Nat} (hx : Below b xs)
    (hy : Below b ys) (hl : xs.length = ys.length) (hv : value b xs = value b ys) : xs = ys := by
  rw [value_eq_ofDigits, value_eq_ofDigits] at hv
  exact Nat.ofDigits_inj_of_len_eq hb hl hx hy hv

theorem Below.value_take {b : Nat} (hb : 1 < b) {ds : List Nat} (h : Below b ds) (n : Nat) :
    value b (ds.take n) = value b ds % b ^ n := by
  rw [value_eq_ofDigits, value_eq_ofDigits, Nat.ofDigits_mod_pow_eq_ofDigits_take n (by omega) ds h]

theorem Below.value_drop {b : Nat} (hb : 1 < b) {ds : List Nat} (h : Below b ds) (n : Nat) :
    value b (ds.drop n) = value b ds / b ^ n := by
  rw [value_eq_ofDigits, value_eq_ofDigits, Nat.ofDigits_div_pow_eq_ofDigits_drop n (by omega) ds h]

/-- Each digit is found in the value at its own place. -/
theorem Below.value_div_mod {b i d : Nat} (hb : 1 < b) {ds : List Nat} (h : Below b ds)
    (hi : ds[i]? = some d) : value b ds / b ^ i % b = d := by
  obtain ⟨hlt, hd⟩ := List.getElem?_eq_some_iff.mp hi
  have hdrop := h.value_drop hb i
  rw [List.drop_eq_getElem_cons hlt, hd, value_cons] at hdrop
  rw [← hdrop, Nat.add_mul_mod_self_left, Nat.mod_eq_of_lt (h d (List.mem_of_getElem? hi))]

theorem isZero_iff_value {b : Nat} (hb : 0 < b) (ds : List Nat) :
    isZero ds = true ↔ value b ds = 0 := by
  induction ds with
  | nil => simp [isZero]
  | cons d ds ih =>
    simp only [isZero, List.all_cons, Bool.and_eq_true, beq_iff_eq, value_cons] at ih ⊢
    rw [ih, Nat.add_eq_zero_iff, Nat.mul_eq_zero]
    constructor
    · intro h
      exact ⟨h.1, Or.inr h.2⟩
    · intro h
      rcases h.2 with hz | hv
      · omega
      · exact ⟨h.1, hv⟩

theorem length_ofNat (b c n : Nat) : (ofNat b c n).1.length = c := by
  induction c generalizing n with
  | zero => rfl
  | succ c ih => simp [ofNat, ih]

theorem below_ofNat {b : Nat} (hb : 0 < b) (c n : Nat) : Below b (ofNat b c n).1 := by
  induction c generalizing n with
  | zero => exact below_nil b
  | succ c ih => exact below_cons.mpr ⟨Nat.mod_lt n hb, ih (n / b)⟩

theorem value_ofNat_add (b c n : Nat) :
    value b (ofNat b c n).1 + b ^ c * (ofNat b c n).2 = n := by
  induction c generalizing n with
  | zero => simp [ofNat]
  | succ c ih =>
    simp only [ofNat, value_cons]
    have hd := Nat.mod_add_div n b
    calc n % b + b * value b (ofNat b c (n / b)).1 + b ^ (c + 1) * (ofNat b c (n / b)).2
        = n % b + b * (value b (ofNat b c (n / b)).1 + b ^ c * (ofNat b c (n / b)).2) := by ring
      _ = n := by rw [ih, hd]

theorem value_ofNat {b : Nat} (hb : 1 < b) (c n : Nat) :
    value b (ofNat b c n).1 = n % b ^ c ∧ (ofNat b c n).2 = n / b ^ c := by
  have he := value_ofNat_add b c n
  have hlt := (below_ofNat (by omega) c n).value_lt hb
  rw [length_ofNat] at hlt
  constructor
  · rw [← he, Nat.add_mul_mod_self_left, Nat.mod_eq_of_lt hlt]
    rw [he]
  · have hp : 0 < b ^ c := Nat.pos_of_ne_zero (by positivity)
    rw [← he, Nat.add_mul_div_left _ _ hp, Nat.div_eq_of_lt hlt, Nat.zero_add]
    rw [he]

/-- The digits of its value are the digits of a list. -/
theorem Below.ofNat_value {b : Nat} (hb : 1 < b) {ds : List Nat} (h : Below b ds) :
    (ofNat b ds.length (value b ds)).1 = ds := by
  apply (below_ofNat (by omega) _ _).eq_of_value hb h (length_ofNat _ _ _)
  rw [(value_ofNat hb _ _).1, Nat.mod_eq_of_lt (h.value_lt hb)]

theorem value_pad (b n : Nat) (ds : List Nat) : value b (pad n ds) = value b ds := by
  rw [pad, value_append, value_zeros, Nat.mul_zero, Nat.add_zero]

theorem length_pad {n : Nat} {ds : List Nat} (h : ds.length ≤ n) : (pad n ds).length = n := by
  rw [pad, List.length_append, length_zeros]
  omega

theorem Below.pad {b : Nat} (hb : 0 < b) {ds : List Nat} (h : Below b ds) (n : Nat) :
    Below b (pad n ds) :=
  below_append.mpr ⟨h, below_zeros hb _⟩

/-- A run of one digit at the top is taken away as a whole. -/
theorem exists_top_run (v : Nat) (ds : List Nat) :
    ∃ n, ds = (ds.reverse.dropWhile (· == v)).reverse ++ List.replicate n v ∧
      (ds.reverse.dropWhile (· == v)).reverse.getLast? ≠ some v := by
  refine ⟨(ds.reverse.takeWhile (· == v)).length, ?_, ?_⟩
  · have hv : ds.reverse.takeWhile (· == v) =
        List.replicate (ds.reverse.takeWhile (· == v)).length v := by
      apply List.eq_replicate_length.mpr
      intro d hd
      simpa using List.all_eq_true.mp List.all_takeWhile d hd
    rw [← List.reverse_replicate, ← hv, ← List.reverse_append, List.takeWhile_append_dropWhile,
      List.reverse_reverse]
  · rw [List.getLast?_reverse]
    intro hs
    have := List.head?_dropWhile_not (· == v) ds.reverse
    rw [hs] at this
    simp at this

/-- Trimming takes away zeros, as many as there are at the top. -/
theorem trim_append_zeros (ds : List Nat) :
    ∃ n, ds = trim ds ++ zeros n ∧ (trim ds).getLast? ≠ some 0 := exists_top_run 0 ds

theorem trim_eq_self {ds : List Nat} (h : ds.getLast? ≠ some 0) : trim ds = ds := by
  obtain ⟨n, he, _⟩ := trim_append_zeros ds
  cases n with
  | zero => rwa [zeros, List.replicate_zero, List.append_nil, eq_comm] at he
  | succ n =>
    rw [he, zeros, List.getLast?_append_of_ne_nil _ (by simp)] at h
    simp [List.getLast?_replicate] at h

theorem length_trim_le (ds : List Nat) : (trim ds).length ≤ ds.length := by
  obtain ⟨n, he, _⟩ := trim_append_zeros ds
  have hl := congrArg List.length he
  rw [List.length_append] at hl
  omega

theorem take_length_trim (ds : List Nat) : ds.take (trim ds).length = trim ds := by
  obtain ⟨n, he, _⟩ := trim_append_zeros ds
  calc ds.take (trim ds).length = (trim ds ++ zeros n).take (trim ds).length := by rw [← he]
    _ = trim ds := List.take_left

/-- Zeros that were left out can be filled up again. -/
theorem trim_append_missing (ds : List Nat) :
    trim ds ++ zeros (ds.length - (trim ds).length) = ds := by
  obtain ⟨n, he, _⟩ := trim_append_zeros ds
  have hl := congrArg List.length he
  rw [List.length_append, length_zeros] at hl
  rw [show ds.length - (trim ds).length = n by omega, ← he]

/-- Zeros at the other end are dropped and filled up in the same way. -/
theorem missing_append_dropWhile (ds : List Nat) :
    zeros (ds.length - (ds.dropWhile (· == 0)).length) ++ ds.dropWhile (· == 0) = ds := by
  have h := congrArg List.reverse (trim_append_missing ds.reverse)
  simpa [trim, zeros] using h

theorem value_trim (b : Nat) (ds : List Nat) : value b (trim ds) = value b ds := by
  obtain ⟨n, he, _⟩ := trim_append_zeros ds
  conv_rhs => rw [he, value_append, value_zeros, Nat.mul_zero, Nat.add_zero]

theorem Below.trim {b : Nat} {ds : List Nat} (h : Below b ds) : Below b (trim ds) := by
  obtain ⟨n, he, _⟩ := trim_append_zeros ds
  rw [he] at h
  exact (below_append.mp h).1

end DeskCalculator.Digits
