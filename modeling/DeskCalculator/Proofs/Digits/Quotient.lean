import DeskCalculator.Proofs.Digits.Sum

namespace DeskCalculator.Digits

variable {divisor remainder : List Nat}

theorem value_bringDown {n : Nat} (digit : Nat) (hr : Below 10 remainder)
    (hl : remainder.length = n + 1) (hv : value 10 remainder < 10 ^ n) :
    value 10 (bringDown digit remainder) = digit + 10 * value 10 remainder := by
  have ht := hr.value_take (by omega) n
  rw [Nat.mod_eq_of_lt hv] at ht
  rw [bringDown, value_cons, List.dropLast_eq_take, hl, Nat.add_sub_cancel, ht]

theorem length_bringDown {n : Nat} (digit : Nat) (hl : remainder.length = n + 1) :
    (bringDown digit remainder).length = n + 1 := by
  simp [bringDown, hl]

theorem below_bringDown {digit : Nat} (hd : digit < 10) (hr : Below 10 remainder) :
    Below 10 (bringDown digit remainder) := by
  refine below_cons.mpr ⟨hd, ?_⟩
  rw [List.dropLast_eq_take]
  exact hr.take _

theorem value_reverse_cons (d : Nat) (ds : List Nat) :
    value 10 (d :: ds).reverse = value 10 ds.reverse + 10 ^ ds.length * d := by
  rw [List.reverse_cons, value_append, List.length_reverse, value_cons, value_nil, Nat.mul_zero,
    Nat.add_zero]

/-- Long division on its way: between two digits of the quotient, or within the one for which the
divisor was taken out `count` times so far. The digits of the quotient stand the last one first, and
those that are still to be brought down the next one first. -/
inductive Division where
  | between (remainder quotient coming : List Nat)
  | within (remainder : List Nat) (count : Nat) (quotient coming : List Nat)

namespace Division

/-- The start of a division, with `extra` zeros to be brought down behind the dividend. -/
def start (dividend : List Nat) (extra : Nat) : Division :=
  .between (zeros (width + 1)) [] (dividend.reverse ++ zeros extra)

/-- One action. Whether there is one more subtraction is decided by comparing digits. -/
inductive Step (divisor : List Nat) : Division → Division → Prop where
  | bringDown {remainder quotient coming : List Nat} {digit : Nat} :
      Step divisor (.between remainder quotient (digit :: coming))
        (.within (Digits.bringDown digit remainder) 0 quotient coming)
  | takeOut {remainder quotient coming : List Nat} {count : Nat}
      (h : compare remainder divisor ≠ .lt) :
      Step divisor (.within remainder count quotient coming)
        (.within (subtract remainder divisor) (count + 1) quotient coming)
  | settle {remainder quotient coming : List Nat} {count : Nat}
      (h : compare remainder divisor = .lt) :
      Step divisor (.within remainder count quotient coming)
        (.between remainder (count :: quotient) coming)

/-- Actions one after another, with their number. -/
inductive Run (divisor : List Nat) : Nat → Division → Division → Prop where
  | done (s : Division) : Run divisor 0 s s
  | step {n : Nat} {s t u : Division} (h : Step divisor s t) (rest : Run divisor n t u) :
      Run divisor (n + 1) s u

variable {quotient coming : List Nat} {m n k count total places : Nat} {s t u : Division}

theorem Step.unique {t' : Division} (h : Step divisor s t) (h' : Step divisor s t') : t' = t := by
  cases h with
  | bringDown =>
    cases h' with
    | bringDown => rfl
  | takeOut hge =>
    cases h' with
    | takeOut _ => rfl
    | settle hlt => exact absurd hlt hge
  | settle hlt =>
    cases h' with
    | takeOut hge => exact absurd hlt hge
    | settle _ => rfl

theorem Run.trans (h : Run divisor m s t) (h' : Run divisor n t u) :
    Run divisor (m + n) s u := by
  induction h with
  | done => rwa [Nat.zero_add]
  | step hstep _ ih =>
    rw [Nat.add_right_comm]
    exact .step hstep (ih h')

/-- Where the machine stops, every run leads on to. -/
theorem Run.rest (h : Run divisor n s u) (hstop : ∀ v, ¬ Step divisor u v)
    (h' : Run divisor m s t) : m ≤ n ∧ Run divisor (n - m) t u := by
  induction h' generalizing n with
  | done => exact ⟨Nat.zero_le n, h⟩
  | step hstep _ ih =>
    cases h with
    | done => exact absurd hstep (hstop _)
    | step hfirst hrest =>
      obtain rfl := hfirst.unique hstep
      obtain ⟨hle, hrun⟩ := ih hrest
      exact ⟨Nat.succ_le_succ hle, by rwa [Nat.succ_sub_succ]⟩

/-- The remainder as it stands. -/
def left : Division → List Nat
  | between remainder _ _ => remainder
  | within remainder _ _ _ => remainder

/-- The digits of the quotient, with the one that is on its way. -/
def found : Division → List Nat
  | between _ quotient _ => quotient
  | within _ count quotient _ => count :: quotient

/-- The digits that are still to be brought down. -/
def waiting : Division → List Nat
  | between _ _ coming => coming
  | within _ _ _ coming => coming

/-- Digits of a number that is not zero, with a zero above them. -/
structure IsDivisor (divisor : List Nat) (n : Nat) : Prop where
  below : Below 10 divisor
  length : divisor.length = n + 1
  value_le : value 10 divisor ≤ 10 ^ n
  pos : 0 < value 10 divisor

/-- Between two digits the remainder is below the divisor; within one, what was brought down was
below ten times the divisor. -/
def Bounded (divisor : List Nat) : Division → Prop
  | between remainder _ _ => value 10 remainder < value 10 divisor
  | within remainder count _ _ =>
    value 10 remainder + count * value 10 divisor < 10 * value 10 divisor

/-- What is found, left and waiting makes up the dividend `total`, digit by digit in its place. -/
structure Holds (divisor : List Nat) (total places : Nat) (s : Division) : Prop where
  below_left : Below 10 s.left
  length_left : s.left.length = divisor.length
  below_found : Below 10 s.found
  below_waiting : Below 10 s.waiting
  length : s.found.length + s.waiting.length = places
  total_eq : (value 10 s.found * value 10 divisor + value 10 s.left) * 10 ^ s.waiting.length +
    value 10 s.waiting.reverse = total
  bounded : s.Bounded divisor

/-- A digit comes down to the remainder, and stands for as much there as it did before. -/
theorem Holds.bringDown {digit : Nat} (hd : IsDivisor divisor n)
    (h : Holds divisor total places (.between remainder quotient (digit :: coming))) :
    Holds divisor total places (.within (Digits.bringDown digit remainder) 0 quotient coming) := by
  have hleft : Below 10 remainder := h.below_left
  have hlength : remainder.length = n + 1 := h.length_left.trans hd.length
  have hbound : value 10 remainder < value 10 divisor := h.bounded
  obtain ⟨hdigit, hcoming⟩ := below_cons.mp h.below_waiting
  have hvalue := value_bringDown digit hleft hlength (hbound.trans_le hd.value_le)
  have hplaces := h.length
  have htotal := h.total_eq
  refine ⟨below_bringDown hdigit hleft, (length_bringDown digit hlength).trans hd.length.symm,
    below_cons.mpr ⟨by omega, h.below_found⟩, hcoming, ?_, ?_, ?_⟩
  · simp only [found, waiting, List.length_cons] at hplaces ⊢
    omega
  · simp only [found, left, waiting, value_reverse_cons, List.length_cons, Nat.pow_succ'] at htotal
    simp only [found, left, waiting, value_cons, hvalue]
    rw [← htotal]
    ring
  · simp only [Bounded, hvalue]
    omega

/-- A subtraction moves one time the divisor from the remainder to the quotient. -/
theorem Holds.takeOut (hd : IsDivisor divisor n)
    (h : Holds divisor total places (.within remainder count quotient coming))
    (hge : value 10 divisor ≤ value 10 remainder) :
    Holds divisor total places
      (.within (subtract remainder divisor) (count + 1) quotient coming) := by
  have hleft : Below 10 remainder := h.below_left
  have hlength : remainder.length = divisor.length := h.length_left
  have hbound : value 10 remainder + count * value 10 divisor < 10 * value 10 divisor := h.bounded
  obtain ⟨-, hquotient⟩ := below_cons.mp h.below_found
  have hvalue := value_subtract hlength hleft hd.below hge
  obtain ⟨rest, hrest⟩ := Nat.exists_eq_add_of_le hge
  rw [hrest, Nat.add_sub_cancel_left] at hvalue
  rw [hrest] at hbound
  -- ten subtractions would take out more than was brought down
  have hcount : count + 1 < 10 := by
    apply Nat.lt_of_mul_lt_mul_right (a := value 10 divisor)
    linarith
  have htotal := h.total_eq
  refine ⟨below_subtractFrom 0 hleft divisor, (length_subtractFrom 0 hlength).trans hlength,
    below_cons.mpr ⟨hcount, hquotient⟩, h.below_waiting, h.length, ?_, ?_⟩
  · simp only [found, left, waiting, value_cons, hrest] at htotal
    simp only [found, left, waiting, value_cons, hvalue]
    rw [← htotal]
    ring
  · simp only [Bounded, hvalue]
    linarith

/-- A digit of the quotient is done where the remainder is below the divisor again. -/
theorem Holds.settle (h : Holds divisor total places (.within remainder count quotient coming))
    (hlt : value 10 remainder < value 10 divisor) :
    Holds divisor total places (.between remainder (count :: quotient) coming) :=
  ⟨h.below_left, h.length_left, h.below_found, h.below_waiting, h.length, h.total_eq, hlt⟩

/-- The digits are compared as the numbers that they stand for. -/
theorem Holds.compare_eq_lt_iff (hd : IsDivisor divisor n) (h : Holds divisor total places s) :
    compare s.left divisor = .lt ↔ value 10 s.left < value 10 divisor :=
  Digits.compare_eq_lt_iff h.length_left h.below_left hd.below

theorem Holds.step (hd : IsDivisor divisor n) (h : Holds divisor total places s)
    (hstep : Step divisor s t) : Holds divisor total places t := by
  have hcompare := h.compare_eq_lt_iff hd
  cases hstep with
  | bringDown => exact h.bringDown hd
  | takeOut hge => exact h.takeOut hd (Nat.le_of_not_lt fun hlt => hge (hcompare.mpr hlt))
  | settle hlt => exact h.settle (hcompare.mp hlt)

theorem Holds.run (hd : IsDivisor divisor n) (h : Holds divisor total places s)
    (hrun : Run divisor m s t) : Holds divisor total places t := by
  induction hrun with
  | done => exact h
  | step hstep _ ih => exact ih (h.step hd hstep)

/-- No shift drops a digit but zero, no more than nine subtractions are made for a digit, and none of
them leaves a borrow. -/
def Sound (divisor : List Nat) : Division → Prop
  | between remainder _ _ => remainder.getLast? = some 0
  | within remainder count _ _ =>
    count ≤ 9 ∧ (compare remainder divisor ≠ .lt → lastBorrow 0 remainder divisor = 0)

theorem Holds.sound (hd : IsDivisor divisor n) (h : Holds divisor total places s) :
    s.Sound divisor := by
  have hcompare := h.compare_eq_lt_iff hd
  cases s with
  | between remainder quotient coming =>
    have hleft : Below 10 remainder := h.below_left
    have hlength : remainder.length = n + 1 := h.length_left.trans hd.length
    have hbound : value 10 remainder < value 10 divisor := h.bounded
    -- the digit on top counts how often `10 ^ n` is in the value, which is below the divisor
    have hlast : remainder[n]? = some remainder[n] := List.getElem?_eq_getElem (by omega)
    have htop := hleft.value_div_mod (by omega) hlast
    rw [Nat.div_eq_of_lt (hbound.trans_le hd.value_le), Nat.zero_mod] at htop
    rw [Sound, List.getLast?_eq_getElem?, hlength, Nat.add_sub_cancel, hlast, ← htop]
  | within remainder count quotient coming =>
    obtain ⟨hcount, -⟩ := below_cons.mp h.below_found
    refine ⟨Nat.le_of_lt_succ hcount, fun hge => ?_⟩
    apply (lastBorrow_eq_zero_iff h.length_left h.below_left hd.below).mpr
    exact Nat.le_of_not_lt fun hlt => hge (hcompare.mpr hlt)

/-- So many actions are enough from here: eleven for each digit to be brought down, which are the
shift, nine subtractions and the step to the next digit. -/
def allowance : Division → Nat
  | between _ _ coming => 11 * coming.length
  | within _ count _ coming => 10 - count + 11 * coming.length

theorem Holds.allowance_lt (hd : IsDivisor divisor n) (h : Holds divisor total places s)
    (hstep : Step divisor s t) : t.allowance < s.allowance := by
  have hsound := h.sound hd
  have hsound' := (h.step hd hstep).sound hd
  cases hstep with
  | bringDown =>
    simp only [allowance, List.length_cons]
    omega
  | takeOut hge =>
    have hcount := hsound'.1
    simp only [allowance]
    omega
  | settle hlt =>
    have hcount := hsound.1
    simp only [allowance]
    omega

theorem Holds.run_le (hd : IsDivisor divisor n) (h : Holds divisor total places s)
    (hrun : Run divisor m s t) : m + t.allowance ≤ s.allowance := by
  induction hrun with
  | done => omega
  | step hstep _ ih =>
    have hlt := h.allowance_lt hd hstep
    have hle := ih (h.step hd hstep)
    omega

/-- Subtractions, as many as a bound allows. -/
theorem run_takeOut (divisor : List Nat) (fuel : Nat) (remainder : List Nat) (count : Nat)
    (quotient coming : List Nat) :
    Run divisor (takeOut divisor fuel remainder).1 (.within remainder count quotient coming)
      (.within (takeOut divisor fuel remainder).2 (count + (takeOut divisor fuel remainder).1)
        quotient coming) := by
  induction fuel generalizing remainder count with
  | zero => exact .done _
  | succ fuel ih =>
    unfold takeOut
    split
    · exact .done _
    · next hge =>
      have hrest := ih (subtract remainder divisor) (count + 1)
      rw [Nat.add_right_comm] at hrest
      exact .step (.takeOut hge) hrest

/-- A bound that is no less than the remainder is enough for it to come below the divisor, because each
subtraction takes at least one away. -/
theorem compare_takeOut (fuel : Nat) (hd : IsDivisor divisor n) (hr : Below 10 remainder)
    (hl : remainder.length = divisor.length) (hf : value 10 remainder ≤ fuel) :
    compare (takeOut divisor fuel remainder).2 divisor = .lt := by
  have hcompare := Digits.compare_eq_lt_iff hl hr hd.below
  have hpos := hd.pos
  induction fuel generalizing remainder with
  | zero => exact hcompare.mpr (by omega)
  | succ fuel ih =>
    unfold takeOut
    split
    · assumption
    · next hge =>
      have hle := Nat.le_of_not_lt fun hlt => hge (hcompare.mpr hlt)
      have hrest := below_subtractFrom 0 hr divisor
      have hlength := (length_subtractFrom 0 hl).trans hl
      have hvalue := value_subtract hl hr hd.below hle
      exact ih hrest hlength (by omega) (Digits.compare_eq_lt_iff hlength hrest hd.below)

/-- One digit of the quotient: the shift, the subtractions, and the step to the next digit. -/
theorem Holds.exists_run_digit {digit : Nat} {rest : List Nat} (hd : IsDivisor divisor n)
    (h : Holds divisor total places (.between remainder quotient (digit :: coming)))
    (hout : Digits.takeOut divisor (value 10 (Digits.bringDown digit remainder))
      (Digits.bringDown digit remainder) = (count, rest)) :
    ∃ m, Run divisor m (.between remainder quotient (digit :: coming))
      (.between rest (count :: quotient) coming) := by
  have hdown := h.bringDown hd
  have hdone := compare_takeOut _ hd hdown.below_left hdown.length_left (Nat.le_refl _)
  have hrun := run_takeOut divisor (value 10 (Digits.bringDown digit remainder))
    (Digits.bringDown digit remainder) 0 quotient coming
  simp only [left, hout, Nat.zero_add] at hdone hrun
  exact ⟨_, .step .bringDown (hrun.trans (.step (.settle hdone) (.done _)))⟩

/-- The digits that are brought down one after another are a run from the first to the last. -/
theorem Holds.exists_run (hd : IsDivisor divisor n)
    (h : Holds divisor total places (.between remainder quotient coming)) :
    ∃ m, Run divisor m (.between remainder quotient coming)
      (.between (divideFrom divisor remainder coming).2
        ((divideFrom divisor remainder coming).1.reverse ++ quotient) []) := by
  induction coming generalizing remainder quotient with
  | nil => exact ⟨0, .done _⟩
  | cons digit coming ih =>
    cases hout : Digits.takeOut divisor (value 10 (Digits.bringDown digit remainder))
      (Digits.bringDown digit remainder) with
    | mk count rest =>
      obtain ⟨m, hdigit⟩ := h.exists_run_digit hd hout
      obtain ⟨k, hrest⟩ := ih (h.run hd hdigit)
      refine ⟨m + k, hdigit.trans ?_⟩
      simp only [divideFrom, hout, List.reverse_cons, List.append_assoc, List.singleton_append]
      exact hrest

/-- A zero on top changes nothing. -/
theorem value_append_zero (ds : List Nat) : value 10 (ds ++ [0]) = value 10 ds := by
  simp [value_append]

theorem isDivisor_append_zero (hd : Below 10 divisor) (hld : divisor.length = width)
    (hpos : 0 < value 10 divisor) : IsDivisor (divisor ++ [0]) width where
  below := below_append.mpr ⟨hd, below_cons.mpr ⟨by decide, below_nil 10⟩⟩
  length := by rw [List.length_append, hld]; rfl
  value_le := by
    rw [value_append_zero, ← hld]
    exact (hd.value_lt (by omega)).le
  pos := by rwa [value_append_zero]

theorem holds_start {dividend : List Nat} (extra : Nat) (hx : Below 10 dividend)
    (hlx : dividend.length = width) (hd : IsDivisor divisor width) :
    Holds divisor (value 10 dividend * 10 ^ extra) (width + extra) (start dividend extra) where
  below_left := below_zeros (by omega) (width + 1)
  length_left := (length_zeros _).trans hd.length.symm
  below_found := below_nil 10
  below_waiting := below_append.mpr ⟨below_reverse.mpr hx, below_zeros (by omega) extra⟩
  length := by simp [start, found, waiting, hlx]
  total_eq := by
    simp only [start, found, left, waiting, List.reverse_append, List.reverse_reverse, zeros,
      List.reverse_replicate]
    rw [← zeros, ← zeros, value_append, value_zeros, value_zeros, length_zeros, value_nil]
    ring
  bounded := by
    rw [start, Bounded, value_zeros]
    exact hd.pos

/-- A division is a run from the start to where there is no digit left to bring down. -/
theorem exists_divide_run {dividend : List Nat} (extra : Nat) (hx : Below 10 dividend)
    (hlx : dividend.length = width) (hd : IsDivisor (divisor ++ [0]) width) :
    ∃ m, Run (divisor ++ [0]) m (start dividend extra)
      (.between (divide dividend divisor extra).2 (divide dividend divisor extra).1 []) := by
  have hrun := Holds.exists_run hd (holds_start extra hx hlx hd)
  rw [List.append_nil] at hrun
  rw [divide, List.take_of_length_le hlx.le]
  exact hrun

/-- Where a division stops, nothing waits, so that quotient and remainder make up the dividend. -/
theorem Holds.total_eq_of_stopped (h : Holds (divisor ++ [0]) total places
    (.between remainder quotient [])) :
    total = value 10 quotient * value 10 divisor + value 10 remainder ∧
      value 10 remainder < value 10 divisor := by
  have htotal := h.total_eq
  have hbound : value 10 remainder < value 10 (divisor ++ [0]) := h.bounded
  simp only [found, left, waiting, value_append_zero, List.length_nil, Nat.pow_zero, Nat.mul_one,
    List.reverse_nil, value_nil, Nat.add_zero] at htotal
  rw [value_append_zero] at hbound
  exact ⟨htotal.symm, hbound⟩

/-- Long division comes to an end by itself, after at most eleven actions for each digit. Then the
quotient has a digit for each that was brought down and the remainder one more than the divisor, and
they are those of the values. On the way no shift drops a digit but zero, there are no more than nine
subtractions for a digit, and none of them leaves a borrow. -/
theorem divide_run {dividend : List Nat} (hx : Below 10 dividend) (hlx : dividend.length = width)
    (hd : Below 10 divisor) (hld : divisor.length = width) (hpos : 0 < value 10 divisor)
    (extra : Nat) :
    ∃ quotient remainder, divide dividend divisor extra = (quotient, remainder) ∧
      quotient.length = width + extra ∧ Below 10 quotient ∧
      remainder.length = width + 1 ∧ Below 10 remainder ∧
      value 10 dividend * 10 ^ extra =
        value 10 quotient * value 10 divisor + value 10 remainder ∧
      value 10 remainder < value 10 divisor ∧
      ∃ n, n ≤ 11 * (width + extra) ∧
        Run (divisor ++ [0]) n (start dividend extra) (.between remainder quotient []) ∧
        ∀ m s, Run (divisor ++ [0]) m (start dividend extra) s →
          m ≤ n ∧ Run (divisor ++ [0]) (n - m) s (.between remainder quotient []) ∧
            s.Sound (divisor ++ [0]) := by
  have hdivisor := isDivisor_append_zero hd hld hpos
  have hstart := holds_start extra hx hlx hdivisor
  obtain ⟨n, hrun⟩ := exists_divide_run extra hx hlx hdivisor
  have hend := hstart.run hdivisor hrun
  have hle := hstart.run_le hdivisor hrun
  obtain ⟨htotal, hbound⟩ := hend.total_eq_of_stopped
  refine ⟨_, _, rfl, hend.length, hend.below_found, hend.length_left.trans hdivisor.length,
    hend.below_left, htotal, hbound, n, ?_, hrun, ?_⟩
  · simpa [start, allowance, hlx] using hle
  · intro m s hs
    have hstop : ∀ v, ¬ Step (divisor ++ [0])
        (.between (divide dividend divisor extra).2 (divide dividend divisor extra).1 []) v := by
      intro v hv
      cases hv
    obtain ⟨hm, hrest⟩ := hrun.rest hstop hs
    exact ⟨hm, hrest, (hstart.run hdivisor hs).sound hdivisor⟩

/-- One divided by seven, to twenty places. -/
theorem divide_run_seventh :
    ∃ quotient remainder,
      divide (ofNat 10 width 1).1 (ofNat 10 width 7).1 20 = (quotient, remainder) ∧
      quotient.length = 60 ∧ 10 ^ 20 = value 10 quotient * 7 + value 10 remainder ∧
      ∃ n, n ≤ 660 ∧ Run ((ofNat 10 width 7).1 ++ [0]) n (start (ofNat 10 width 1).1 20)
        (.between remainder quotient []) := by
  have hone : value 10 (ofNat 10 width 1).1 = 1 := by decide
  have hseven : value 10 (ofNat 10 width 7).1 = 7 := by decide
  have hrun := divide_run (below_ofNat (by omega) width 1) (length_ofNat ..)
    (below_ofNat (by omega) width 7) (length_ofNat ..) (by rw [hseven]; decide) 20
  rw [hone, hseven, Nat.one_mul] at hrun
  obtain ⟨quotient, remainder, hdivide, hlength, -, -, -, htotal, -, n, hn, hsteps, -⟩ := hrun
  exact ⟨quotient, remainder, hdivide, hlength, htotal, n, hn, hsteps⟩

end Division

/-- Quotient and remainder of a division are those of the values. -/
theorem divide_eq {dividend : List Nat} (extra : Nat) (hx : Below 10 dividend)
    (hd : Below 10 divisor) (hlx : dividend.length = width) (hld : divisor.length = width)
    (hpos : 0 < value 10 divisor) :
    divide dividend divisor extra =
      ((ofNat 10 (width + extra) (value 10 dividend * 10 ^ extra / value 10 divisor)).1,
        (ofNat 10 (width + 1) (value 10 dividend * 10 ^ extra % value 10 divisor)).1) := by
  have hdivisor := Division.isDivisor_append_zero hd hld hpos
  obtain ⟨m, hrun⟩ := Division.exists_divide_run extra hx hlx hdivisor
  have hend := (Division.holds_start extra hx hlx hdivisor).run hdivisor hrun
  obtain ⟨htotal, hbound⟩ := hend.total_eq_of_stopped
  have hsplit : value 10 (divide dividend divisor extra).2 +
      value 10 divisor * value 10 (divide dividend divisor extra).1 =
        value 10 dividend * 10 ^ extra := by
    rw [htotal, Nat.mul_comm, Nat.add_comm]
  obtain ⟨hquotient, hremainder⟩ := (Nat.div_mod_unique hpos).mpr ⟨hsplit, hbound⟩
  have hlengthQuotient : (divide dividend divisor extra).1.length = width + extra := hend.length
  have hlengthRemainder : (divide dividend divisor extra).2.length = width + 1 :=
    hend.length_left.trans hdivisor.length
  rw [hquotient, hremainder, ← hlengthQuotient, ← hlengthRemainder]
  exact Prod.ext (hend.below_found.ofNat_value (by omega)).symm
    (hend.below_left.ofNat_value (by omega)).symm

end DeskCalculator.Digits
