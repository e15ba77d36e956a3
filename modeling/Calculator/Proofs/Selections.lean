import Calculator.Proofs.Naturals
import Calculator.Proofs.Products

/-!
# Counting selections of natural numbers

For natural numbers up to `2 ^ 53`, the counts of selections are exact as long as the numbers on the
way are doubles that stand for natural numbers too: falling factorials, and binomial coefficients
times the divisor that comes next. Whether things are chosen or left out is the same product.
-/

namespace Calculator.Combinatorics

open Binary64

variable {x y z s t : Float} {n r m d i k : Nat} {v : Float}

/-! ## The numbers of a selection -/

theorem isSelection_of_standsFor (hx : StandsFor x n) (hy : StandsFor y r) (hr : r ≤ n) :
    isSelection x y = true := by
  simp only [isSelection, isNonNegativeInteger, Bool.and_eq_true, decide_eq_true_eq]
  exact ⟨⟨⟨hx.nonneg, hx.isIntegral⟩, hy.nonneg, hy.isIntegral⟩, (hy.le_iff hx).mpr hr⟩

/-- The shorter side is the smaller of both numbers. -/
theorem standsFor_shorterSide (hx : StandsFor x n) (hy : StandsFor y r) (hr : r ≤ n)
    (hn : n ≤ 2 ^ 53) : StandsFor (shorterSide x y) (min r (n - r)) := by
  have hsub := hx.sub hy hr hn
  unfold shorterSide
  by_cases hle : r ≤ n - r
  · rw [if_pos ((hy.le_iff hsub).mpr hle), min_eq_left hle]
    exact hy
  · rw [if_neg (mt (hy.le_iff hsub).mp hle), min_eq_right (by omega)]
    exact hsub

/-- What is left out of `n` is as much as what is chosen, or more. -/
theorem choose_shorterSide (hr : r ≤ n) :
    n.choose r = (n - min r (n - r) + min r (n - r)).choose (min r (n - r)) := by
  have hmin : n - min r (n - r) + min r (n - r) = n := by omega
  rw [hmin]
  obtain h | h := min_choice r (n - r)
  · rw [h]
  · rw [h, Nat.choose_symm hr]

/-! ## Permutations -/

theorem ascFactorial_mono (n : Nat) (h : k ≤ r) :
    n.succ.ascFactorial k ≤ n.succ.ascFactorial r := by
  refine monotone_nat_of_le_succ (fun k => ?_) h
  rw [Nat.ascFactorial_succ]
  exact Nat.le_mul_of_pos_left _ (by omega)

/-- The quotient of the factorials is a product of consecutive factors. -/
theorem factorial_div_factorial (hr : r ≤ n) :
    n.factorial / (n - r).factorial = (n - r + 1).ascFactorial r := by
  have h := Nat.factorial_mul_ascFactorial (n - r) r
  rw [Nat.sub_add_cancel hr] at h
  rw [← h, Nat.mul_div_cancel_left _ (Nat.factorial_pos _)]

theorem standsFor_permutationProduct (hx : StandsFor x n) (hy : StandsFor y r) (hr : r ≤ n)
    (hn : n ≤ 2 ^ 53) (hfit : (n - r + 1).ascFactorial r ≤ 2 ^ 53) :
    StandsFor (permutationProduct x y).value ((n - r + 1).ascFactorial r) := by
  have hstep : ∀ k < r, ∀ v, StandsFor v ((n - r + 1).ascFactorial k) →
      StandsFor (v * (x - y + 1 + .ofNat k)) ((n - r + 1).ascFactorial (k + 1)) := by
    intro k hk v hv
    have hfirst := (hx.sub hy hr hn).add standsFor_one (by omega)
    have hfactor := hfirst.add (standsFor_ofNat (n := k) (by omega)) (by omega)
    have hnext := Nat.ascFactorial_succ (n := n - r + 1) (k := k)
    have hle := (ascFactorial_mono (n - r) (by omega : k + 1 ≤ r)).trans hfit
    rw [hnext, mul_comm] at hle ⊢
    exact hv.mul hfactor (Nat.ascFactorial_pos _ k) (by omega) hle
  obtain ⟨w, hrun, hw⟩ := multiply_all (fun k v => StandsFor v ((n - r + 1).ascFactorial k))
    (fun k v hv => hv.finite) hstep standsFor_one
  have hproduct : permutationProduct x y = ⟨r, w⟩ := by
    rw [permutationProduct, hy.toNat_eq]
    exact hrun
  rw [hproduct]
  exact hw

/-! ## Combinations -/

/-- The product of combinations with its first `i` factors. -/
def partialCombination (n r : Float) (i : Nat) : Progress :=
  multiply (fun i product => product * (n - r + .ofNat (i + 1)) / .ofNat (i + 1)) i one

theorem partialCombination_zero (n r : Float) : partialCombination n r 0 = one := rfl

theorem combinationProduct_eq_partial (n r : Float) :
    combinationProduct n r = partialCombination n r (Binary64.toNat r) := rfl

/-- A factor leads from one coefficient to the next, times the divisor of that one. -/
theorem choose_mul_factor (d k : Nat) :
    (d + k).choose k * (d + (k + 1)) = (d + (k + 1)).choose (k + 1) * (k + 1) :=
  (mul_comm _ _).trans (Nat.add_one_mul_choose_eq (d + k) k)

theorem choose_le_succ (d k : Nat) : (d + k).choose k ≤ (d + (k + 1)).choose (k + 1) := by
  have h : (d + (k + 1)).choose (k + 1) = (d + k).choose k + (d + k).choose (k + 1) :=
    Nat.choose_succ_succ (d + k) k
  rw [h]
  exact Nat.le_add_right _ _

/-- The products before the divisions grow. -/
theorem mul_choose_mono (d : Nat) (h : k ≤ m) : k * (d + k).choose k ≤ m * (d + m).choose m :=
  monotone_nat_of_le_succ (f := fun k => k * (d + k).choose k)
    (fun k => Nat.mul_le_mul (Nat.le_succ k) (choose_le_succ d k)) h

theorem standsFor_factor (hd : StandsFor (x - s) d) (hm : d + (k + 1) ≤ 2 ^ 53)
    (hk : k + 1 < 2 ^ 53) : StandsFor (x - s + .ofNat (k + 1)) (d + (k + 1)) :=
  hd.add (standsFor_ofNat hk) hm

/-- Each division comes out even, and nothing is rounded. -/
theorem standsFor_partialCombination (hd : StandsFor (x - s) d) (hm : m < 2 ^ 53)
    (hdm : d + m ≤ 2 ^ 53) (hfit : m * (d + m).choose m ≤ 2 ^ 53) (hi : i ≤ m) :
    ∃ w, partialCombination x s i = ⟨i, w⟩ ∧ StandsFor w ((d + i).choose i) := by
  refine multiply_all (fun k v => StandsFor v ((d + k).choose k)) (fun k v hv => hv.finite)
    (fun k hk v hv => ?_) ?_
  · have hfactor := standsFor_factor hd (k := k) (by omega) (by omega)
    have hle := (mul_choose_mono d (by omega : k + 1 ≤ m)).trans hfit
    rw [mul_comm] at hle
    have hproduct := hv.mul hfactor (Nat.choose_pos (Nat.le_add_left k d)) (by omega)
      (by rwa [choose_mul_factor])
    rw [choose_mul_factor] at hproduct
    refine hproduct.div (standsFor_ofNat (by omega)) (Nat.choose_pos (Nat.le_add_left _ d))
      (Nat.succ_pos k) ?_
    exact (Nat.le_mul_of_pos_right _ (Nat.succ_pos k)).trans hle
  · rw [Nat.choose_zero_right]
    exact standsFor_one

/-- Selections of natural numbers are counted exactly while the numbers fit: permutations if the
count itself is at most `2 ^ 53`, combinations if it is so times the shorter side. Then the product
of combinations after `i` factors is a binomial coefficient too. -/
theorem counts_exact (hx : StandsFor x n) (hy : StandsFor y r) (hr : r ≤ n) (hn : n ≤ 2 ^ 53) :
    (n.factorial / (n - r).factorial ≤ 2 ^ 53 →
      ∃ v, permutations x y = .ok v ∧ StandsFor v (n.factorial / (n - r).factorial)) ∧
    (min r (n - r) * n.choose r ≤ 2 ^ 53 →
      (∃ v, combinations x y = .ok v ∧ StandsFor v (n.choose r)) ∧
      ∀ i ≤ min r (n - r), ∃ w, partialCombination x (shorterSide x y) i = ⟨i, w⟩ ∧
        StandsFor w ((n - min r (n - r) + i).choose i)) := by
  have hselection := isSelection_of_standsFor hx hy hr
  constructor
  · intro hfit
    rw [factorial_div_factorial hr] at hfit ⊢
    exact ⟨_, if_pos hselection, standsFor_permutationProduct hx hy hr hn hfit⟩
  · intro hfit
    have hshort := standsFor_shorterSide hx hy hr hn
    have hd := hx.sub hshort (by omega) hn
    rw [choose_shorterSide hr] at hfit ⊢
    have hpartial : ∀ i ≤ min r (n - r), ∃ w, partialCombination x (shorterSide x y) i = ⟨i, w⟩ ∧
        StandsFor w ((n - min r (n - r) + i).choose i) :=
      fun i hi => standsFor_partialCombination hd (by omega) (by omega) hfit hi
    obtain ⟨w, hrun, hw⟩ := hpartial _ le_rfl
    refine ⟨⟨_, if_pos hselection, ?_⟩, hpartial⟩
    rw [combinationProduct_eq_partial, hshort.toNat_eq, hrun]
    exact hw.round (Nat.choose_pos (Nat.le_add_left _ _))

/-- With 12 things out of 18, the shorter side is what is left out. -/
theorem counts_exact_eighteen :
    (StandsFor 18 18 ∧ StandsFor 12 12 ∧ Nat.factorial 18 / Nat.factorial (18 - 12) ≤ 2 ^ 53 ∧
      min 12 (18 - 12) * Nat.choose 18 12 ≤ 2 ^ 53) ∧
    (∃ v, permutations 18 12 = .ok v ∧ StandsFor v (Nat.factorial 18 / Nat.factorial (18 - 12))) ∧
    (∃ v, combinations 18 12 = .ok v ∧ StandsFor v (Nat.choose 18 12)) ∧
    ∀ i ≤ min 12 (18 - 12), ∃ w, partialCombination 18 (shorterSide 18 12) i = ⟨i, w⟩ ∧
      StandsFor w ((18 - min 12 (18 - 12) + i).choose i) := by
  have hx : StandsFor 18 18 := standsFor_ofNat (n := 18) (by norm_num)
  have hy : StandsFor 12 12 := standsFor_ofNat (n := 12) (by norm_num)
  have hpermutations : Nat.factorial 18 / Nat.factorial (18 - 12) ≤ 2 ^ 53 := by decide +kernel
  have hcombinations : min 12 (18 - 12) * Nat.choose 18 12 ≤ 2 ^ 53 := by decide +kernel
  obtain ⟨hp, hc⟩ := counts_exact hx hy (by norm_num) (by norm_num)
  exact ⟨⟨hx, hy, hpermutations, hcombinations⟩, hp hpermutations, hc hcombinations⟩

/-! ## Symmetry -/

/-- The product depends on the number of factors only, not on the sign of a zero. -/
theorem combinationProduct_congr (hs : StandsFor s m) (ht : StandsFor t m) :
    combinationProduct x s = combinationProduct x t := by
  obtain rfl | hm := Nat.eq_zero_or_pos m
  · rw [combinationProduct_eq_partial, combinationProduct_eq_partial, hs.toNat_eq, ht.toNat_eq,
      partialCombination_zero, partialCombination_zero]
  · rw [hs.eq ht hm]

/-- Choosing some things gives the same double as leaving them out, whatever its size. -/
theorem combinations_symm (hx : StandsFor x n) (hy : StandsFor y r) (hz : StandsFor z (n - r))
    (hr : r ≤ n) (hn : n ≤ 2 ^ 53) :
    ∃ v, combinations x y = .ok v ∧ combinations x z = .ok v := by
  have hyside := standsFor_shorterSide hx hy hr hn
  have hzside := standsFor_shorterSide hx hz (Nat.sub_le n r) hn
  rw [Nat.sub_sub_self hr, min_comm] at hzside
  refine ⟨_, if_pos (isSelection_of_standsFor hx hy hr), ?_⟩
  rw [combinationProduct_congr hyside hzside]
  exact if_pos (isSelection_of_standsFor hx hz (Nat.sub_le n r))

/-- Here both products overflow. -/
theorem combinations_symm_overflow :
    (StandsFor 2000 2000 ∧ StandsFor 700 700 ∧ StandsFor 1300 (2000 - 700)) ∧
      ∃ v, combinations 2000 700 = .ok v ∧ combinations 2000 1300 = .ok v := by
  have hx : StandsFor 2000 2000 := standsFor_ofNat (n := 2000) (by norm_num)
  have hy : StandsFor 700 700 := standsFor_ofNat (n := 700) (by norm_num)
  have hz : StandsFor 1300 (2000 - 700) := standsFor_ofNat (n := 1300) (by norm_num)
  exact ⟨⟨hx, hy, hz⟩, combinations_symm hx hy hz (by norm_num) (by norm_num)⟩

end Calculator.Combinatorics
