import Mathlib.Analysis.Real.Sqrt
import Mathlib.Logic.Function.Iterate
import Mathlib.Tactic.Linarith
import Mathlib.Tactic.Ring

namespace DeskCalculator.Newton

/-- The mean of a guess of the root of `n` and the quotient by that guess. -/
def mean (n g : Nat) : Nat := (g + n / g) / 2

variable {n g b c : Nat}

theorem sqrt_le_mean (hg : 0 < g) : n.sqrt ≤ mean n g := by
  have hq : 2 * n.sqrt - g ≤ n / g := by
    rw [Nat.le_div_iff_mul_le hg]
    have hs := n.sqrt_le
    rcases Nat.le_total (2 * n.sqrt) g with h | h
    · simp [Nat.sub_eq_zero_of_le h]
    · obtain ⟨d, hd⟩ := Nat.exists_eq_add_of_le h
      rw [hd, Nat.add_sub_cancel_left]
      zify at hd hs ⊢
      nlinarith [sq_nonneg ((g : Int) - d)]
  unfold mean
  omega

/-- A guess above the root comes down at least half of the way. -/
theorem two_mul_mean_le (h : n.sqrt < g) : 2 * mean n g ≤ g + n.sqrt := by
  have hq : n / g < n.sqrt + 1 := by
    apply Nat.div_lt_of_lt_mul
    exact n.lt_succ_sqrt.trans_le (Nat.mul_le_mul_right _ h)
  unfold mean
  omega

/-- The distance of the next guess goes with the square of the distance. -/
theorem mean_le_square (hs : 0 < n.sqrt) (h : n.sqrt < g) :
    mean n g ≤ n.sqrt + ((g - n.sqrt) ^ 2 / (2 * n.sqrt) + 1) := by
  obtain ⟨e, rfl⟩ := Nat.exists_eq_add_of_lt h
  have hn := n.sqrt_le_add
  have hq := Nat.div_mul_le_self n (n.sqrt + e + 1)
  have he := Nat.lt_mul_div_succ ((n.sqrt + e + 1 - n.sqrt) ^ 2) (Nat.mul_pos Nat.two_pos hs)
  rw [show n.sqrt + e + 1 - n.sqrt = e + 1 by omega] at he ⊢
  unfold mean
  generalize n / (n.sqrt + e + 1) = q at hq ⊢
  generalize (e + 1) ^ 2 / (2 * n.sqrt) = Q at he ⊢
  generalize n.sqrt = s at *
  by_contra hlt
  have hsum : s + 2 * Q + 4 ≤ q + (e + 1) := by omega
  have hprod := Nat.mul_le_mul_right (s + e + 1) hsum
  nlinarith

theorem mean_sqrt (hs : 0 < n.sqrt) :
    mean n n.sqrt = n.sqrt ∨ mean n n.sqrt = n.sqrt + 1 ∧ (n.sqrt + 1) ^ 2 = n + 1 := by
  have hn := n.sqrt_le_add
  have hlow : n.sqrt ≤ n / n.sqrt := (Nat.le_div_iff_mul_le hs).mpr n.sqrt_le
  rcases Nat.lt_or_ge n (n.sqrt * n.sqrt + n.sqrt + n.sqrt) with hlt | hge
  · left
    have hhigh : n / n.sqrt < n.sqrt + 2 := by
      apply Nat.div_lt_of_lt_mul
      linarith
    unfold mean
    omega
  · right
    have heq : n = n.sqrt * n.sqrt + n.sqrt + n.sqrt := Nat.le_antisymm hn hge
    have hdiv : n / n.sqrt = n.sqrt + 2 := by
      apply Nat.div_eq_of_lt_le <;> linarith
    refine ⟨?_, ?_⟩
    · unfold mean
      omega
    · linarith

/-- A guess from which the sequence no longer comes down: the root itself, or the root of the
perfect square right above a positive `n`. -/
def Settled (n g : Nat) : Prop := g = n.sqrt ∨ 0 < n ∧ g = n.sqrt + 1 ∧ g ^ 2 = n + 1

/-- A guess that is settled, or above the root by no more than `b`. -/
def Within (n b g : Nat) : Prop := Settled n g ∨ n.sqrt < g ∧ g ≤ n.sqrt + b

theorem Settled.mean (hs : 0 < n.sqrt) (h : Settled n g) : Settled n (mean n g) := by
  rcases h with rfl | ⟨hn, rfl, _⟩
  · rcases mean_sqrt hs with h | ⟨h, hsquare⟩
    · exact .inl h
    · exact .inr ⟨Nat.sqrt_pos.mp hs, h, h.symm ▸ hsquare⟩
  · have hle := two_mul_mean_le (Nat.lt_add_one n.sqrt)
    have hge : n.sqrt ≤ Newton.mean n (n.sqrt + 1) := sqrt_le_mean (Nat.succ_pos _)
    left
    omega

theorem Within.of_mean (hle : g ≤ n.sqrt + b) (hge : n.sqrt ≤ g) : Within n b g := by
  rcases Nat.eq_or_lt_of_le hge with h | h
  · exact .inl (.inl h.symm)
  · exact .inr ⟨h, hle⟩

theorem Within.mono (h : Within n b g) (hbc : b ≤ c) : Within n c g := by
  rcases h with h | ⟨hlt, hle⟩
  · exact .inl h
  · exact .inr ⟨hlt, by omega⟩

theorem Within.settled (h : Within n 0 g) : Settled n g := by
  rcases h with h | ⟨hlt, hle⟩
  · exact h
  · omega

theorem Within.halve (hs : 0 < n.sqrt) (h : Within n b g) : Within n (b / 2) (Newton.mean n g) := by
  rcases h with h | ⟨hlt, hle⟩
  · exact .inl (h.mean hs)
  · have hm := two_mul_mean_le hlt
    exact .of_mean (by omega) (sqrt_le_mean (by omega))

theorem Within.square (hs : 0 < n.sqrt) (h : Within n b g) :
    Within n (b ^ 2 / (2 * n.sqrt) + 1) (Newton.mean n g) := by
  rcases h with h | ⟨hlt, hle⟩
  · exact .inl (h.mean hs)
  · have hm := mean_le_square hs hlt
    have hb : (g - n.sqrt) ^ 2 / (2 * n.sqrt) ≤ b ^ 2 / (2 * n.sqrt) :=
      Nat.div_le_div_right (Nat.pow_le_pow_left (by omega) 2)
    exact .of_mean (by omega) (sqrt_le_mean (by omega))

theorem Within.iterate (hs : 0 < n.sqrt) (h : Within n b g) (k : Nat) :
    Within n (b / 2 ^ k) ((Newton.mean n)^[k] g) := by
  induction k with
  | zero => simpa using h
  | succ k ih =>
    rw [Function.iterate_succ_apply', Nat.pow_succ, ← Nat.div_div_eq_div_mul]
    exact ih.halve hs

theorem Settled.iterate (hs : 0 < n.sqrt) (h : Settled n g) (k : Nat) :
    Settled n ((Newton.mean n)^[k] g) := by
  induction k with
  | zero => exact h
  | succ k ih =>
    rw [Function.iterate_succ_apply']
    exact ih.mean hs

theorem Settled.le (h : Settled n g) : g ≤ n.sqrt + 1 := by
  rcases h with rfl | ⟨_, rfl, _⟩ <;> omega

theorem Settled.sq_le_or (h : Settled n g) :
    g ^ 2 ≤ n ∧ n < (g + 1) ^ 2 ∨ g ^ 2 = n + 1 := by
  rcases h with rfl | ⟨_, _, hsquare⟩
  · exact .inl ⟨n.sqrt_le', n.lt_succ_sqrt'⟩
  · exact .inr hsquare

/-- A perfect square has one settled guess. -/
theorem Settled.eq_of_sq {m : Nat} (h : Settled (m ^ 2) g) : g = m := by
  rcases h with rfl | ⟨hpos, rfl, hsquare⟩
  · exact Nat.sqrt_eq' m
  · rw [Nat.sqrt_eq'] at hsquare
    have hm : m = 0 := by nlinarith
    subst hm
    cases hpos

theorem Settled.abs_sub_sqrt_le (h : Settled n g) : |(g : ℝ) - √(n : ℝ)| ≤ 1 := by
  have hlow := Real.nat_sqrt_le_real_sqrt (a := n)
  have hhigh := Real.real_sqrt_lt_nat_sqrt_succ (a := n)
  rw [abs_le]
  rcases h with rfl | ⟨_, rfl, hsquare⟩
  · constructor <;> linarith
  · have hle : √(n : ℝ) ≤ ((n.sqrt + 1 : Nat) : ℝ) := by
      apply Real.sqrt_le_iff.mpr
      refine ⟨Nat.cast_nonneg _, ?_⟩
      exact_mod_cast (Nat.le_succ n).trans hsquare.ge
    push_cast at hle ⊢
    constructor <;> linarith

end DeskCalculator.Newton
