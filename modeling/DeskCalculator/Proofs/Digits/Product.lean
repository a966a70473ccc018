import DeskCalculator.Proofs.Digits.Sum

namespace DeskCalculator.Digits

variable {xs ys ds total : List Nat} {digit m n : Nat}

theorem length_scaleFrom (digit carry : Nat) (ds : List Nat) :
    (scaleFrom digit carry ds).length = ds.length + 1 := by
  induction ds generalizing carry with
  | nil => rfl
  | cons d ds ih => simp [scaleFrom, ih]

theorem value_scaleFrom (digit carry : Nat) (ds : List Nat) :
    value 10 (scaleFrom digit carry ds) = digit * value 10 ds + carry := by
  induction ds generalizing carry with
  | nil => simp [scaleFrom]
  | cons d ds ih =>
    have hd := Nat.mod_add_div (digit * d + carry) 10
    have hm : digit * (d + 10 * value 10 ds) = digit * d + 10 * (digit * value 10 ds) := by ring
    simp only [scaleFrom, value_cons, ih, hm]
    omega

theorem value_row (ds : List Nat) (digit shift : Nat) :
    value 10 (row ds digit shift) = 10 ^ shift * (digit * value 10 ds) := by
  rw [row, value_pad, value_append, value_zeros, length_zeros, value_scaleFrom, Nat.zero_add,
    Nat.add_zero]

theorem below_scaleFrom {carry : Nat} (hd : digit < 10) (hc : carry < 10) (h : Below 10 ds) :
    Below 10 (scaleFrom digit carry ds) := by
  induction ds generalizing carry with
  | nil => exact below_cons.mpr ⟨hc, below_nil 10⟩
  | cons d ds ih =>
    obtain ⟨hd0, hds⟩ := below_cons.mp h
    -- nine times nine and a carry of nine carry nine at most
    have hprod : digit * d ≤ 9 * 9 := Nat.mul_le_mul (by omega) (by omega)
    exact below_cons.mpr ⟨Nat.mod_lt _ (by omega), ih (by omega) hds⟩

theorem width_add_width_lt : width + width < productWidth := by decide

/-- A work space of full width that holds `n`. -/
structure Buffer (n : Nat) (ds : List Nat) : Prop where
  length : ds.length = productWidth
  below : Below 10 ds
  holds : value 10 ds = n

theorem Buffer.eq_ofNat (h : Buffer n ds) : ds = (ofNat 10 productWidth n).1 := by
  have he := h.below.ofNat_value (by omega)
  rw [h.length, h.holds] at he
  exact he.symm

theorem Buffer.unique (h : Buffer n xs) (h' : Buffer n ys) : xs = ys :=
  h.eq_ofNat.trans h'.eq_ofNat.symm

theorem buffer_ofNat (h : n < 10 ^ productWidth) : Buffer n (ofNat 10 productWidth n).1 where
  length := length_ofNat _ _ _
  below := below_ofNat (by omega) _ _
  holds := by rw [(value_ofNat (by omega) _ _).1, Nat.mod_eq_of_lt h]

/-- A sum below the work space's limit leaves no carry at its end. -/
theorem Buffer.add (hx : Buffer m xs) (hy : Buffer n ys) (h : m + n < 10 ^ productWidth) :
    ∃ sum, Digits.add xs ys = .ok sum ∧ Buffer (m + n) sum := by
  refine ⟨_, ?_, buffer_ofNat h⟩
  rw [add_eq (hx.length.trans hy.length.symm), hx.length, hx.holds, hy.holds, if_pos h]

/-- A line that fits is filled up to the full width; nothing is written beyond it. -/
theorem buffer_row (shift : Nat) (hx : Below 10 xs) (hd : digit < 10)
    (h : shift + xs.length < productWidth) :
    Buffer (10 ^ shift * (digit * value 10 xs)) (row xs digit shift) where
  length := by
    apply length_pad
    rw [List.length_append, length_zeros, length_scaleFrom]
    omega
  below := by
    apply Below.pad (by omega)
    exact below_append.mpr ⟨below_zeros (by omega) shift, below_scaleFrom hd (by omega) hx⟩
  holds := value_row xs digit shift

/-- The lines still to come are added to the total, provided that they fit. -/
theorem Buffer.addRows (shift : Nat) (ht : Buffer n total) (hx : Below 10 xs) (hy : Below 10 ys)
    (hs : shift + ys.length + xs.length ≤ productWidth)
    (hv : n + 10 ^ shift * (value 10 xs * value 10 ys) < 10 ^ productWidth) :
    ∃ product, Digits.addRows xs shift ys total = .ok product ∧
      Buffer (n + 10 ^ shift * (value 10 xs * value 10 ys)) product := by
  induction ys generalizing total shift n with
  | nil => exact ⟨total, rfl, by simpa using ht⟩
  | cons y ys ih =>
    obtain ⟨hy0, hys⟩ := below_cons.mp hy
    have hsplit : n + 10 ^ shift * (value 10 xs * value 10 (y :: ys)) =
        10 ^ shift * (y * value 10 xs) + n +
          10 ^ (shift + 1) * (value 10 xs * value 10 ys) := by
      rw [value_cons]
      ring
    rw [hsplit] at hv ⊢
    rw [List.length_cons] at hs
    by_cases h0 : y = 0
    · subst y
      simp only [Nat.zero_mul, Nat.mul_zero, Nat.zero_add] at hv ⊢
      exact ih (shift + 1) ht hys (by omega) hv
    · obtain ⟨sum, hsum, hb⟩ := (buffer_row shift hx hy0 (by omega)).add ht (by omega)
      obtain ⟨product, hproduct, hp⟩ := ih (shift + 1) hb hys (by omega) hv
      refine ⟨product, ?_, hp⟩
      rw [Digits.addRows, if_neg h0, if_neg (by omega), hsum]
      exact hproduct

/-- A product with no more than `width` digits of the second factor. -/
theorem buffer_multiply (hx : Below 10 xs) (hy : Below 10 ys) (hlx : xs.length = width)
    (hly : ys.length ≤ width) :
    ∃ product, multiply xs ys = .ok product ∧ Buffer (value 10 xs * value 10 ys) product := by
  have hroom := width_add_width_lt
  have hvx := hx.value_lt (by omega)
  have hvy := hy.value_lt (by omega)
  have hp : value 10 xs * value 10 ys < 10 ^ productWidth :=
    calc value 10 xs * value 10 ys < 10 ^ xs.length * 10 ^ ys.length := Nat.mul_lt_mul'' hvx hvy
      _ = 10 ^ (xs.length + ys.length) := (Nat.pow_add _ _ _).symm
      _ ≤ 10 ^ productWidth := Nat.pow_le_pow_right (by omega) (by omega)
  have hzero : Buffer 0 (zeros productWidth) :=
    ⟨length_zeros _, below_zeros (by omega) _, value_zeros _ _⟩
  obtain ⟨product, hrun, hb⟩ := hzero.addRows 0 hx hy (by omega) (by simpa using hp)
  exact ⟨product, hrun, by simpa using hb⟩

theorem multiply_eq (hx : Below 10 xs) (hy : Below 10 ys) (hlx : xs.length = width)
    (hly : ys.length ≤ width) :
    multiply xs ys = .ok (ofNat 10 productWidth (value 10 xs * value 10 ys)).1 := by
  obtain ⟨product, hrun, hb⟩ := buffer_multiply hx hy hlx hly
  rw [hrun, hb.eq_ofNat]

/-- One line of the multiplication: the lines before it come to a full work space, the line itself
is one, and their sum is what the lines up to it come to. -/
theorem multiply_row (hx : Below 10 xs) (hy : Below 10 ys) (hlx : xs.length = width)
    (hly : ys.length = width) {i d : Nat} (hd : ys[i]? = some d) :
    Buffer (10 ^ i * (d * value 10 xs)) (row xs d i) ∧
      ∃ total next, multiply xs (ys.take i) = .ok total ∧
        Buffer (value 10 xs * value 10 (ys.take i)) total ∧
        Digits.add (row xs d i) total = .ok next ∧
        multiply xs (ys.take (i + 1)) = .ok next := by
  have hroom := width_add_width_lt
  have hi : i < width := by
    rw [← hly]
    exact (List.getElem?_eq_some_iff.mp hd).1
  have hline := buffer_row i hx (hy d (List.mem_of_getElem? hd)) (by omega)
  obtain ⟨total, htotal, hb⟩ := buffer_multiply hx (hy.take i) hlx (by simp; omega)
  obtain ⟨last, hlast, hbl⟩ := buffer_multiply hx (hy.take (i + 1)) hlx (by simp; omega)
  have hvalue : value 10 xs * value 10 (ys.take (i + 1)) =
      10 ^ i * (d * value 10 xs) + value 10 xs * value 10 (ys.take i) := by
    have hlen : (ys.take i).length = i := by simp; omega
    rw [List.take_add_one, hd, Option.toList_some, value_append, hlen, value_cons, value_nil]
    ring
  have hfits := hbl.below.value_lt (by omega)
  rw [hbl.length, hbl.holds, hvalue] at hfits
  rw [hvalue] at hbl
  obtain ⟨next, hnext, hbn⟩ := hline.add hb hfits
  refine ⟨hline, total, next, htotal, hb, hnext, ?_⟩
  rw [hlast, hbn.unique hbl]

end DeskCalculator.Digits
