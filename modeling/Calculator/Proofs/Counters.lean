import Calculator.Proofs.Products
import Calculator.Proofs.RelativeError

/-!
# Products with a counter

The products of the combinatorial functions, factor by factor, as loops with a counter that is a
machine word. A counter that passes the last word would be a fault, and a loop has about a thousand
rounds: beyond them there is no result. There is one: a product has overflowed by then if it has not
ended before, however large its count is, since a factorial or a power of two bounds it from below
in spite of every rounding. So permutations take in at most 171 factors and combinations at most
1024.
-/

namespace Calculator.Guarded

open Calculator.Binary64 Calculator.Combinatorics

/-- Multiplies as long as the counter `i` asks for `more` and the value is finite. No result if the
counter leaves the words of 64 bits, or if so many rounds are not enough. -/
def multiplyWhile (more : Nat → Bool) (grow : Nat → Float → Float) :
    (rounds i : Nat) → (value : Float) → Option Float
  | 0, _, _ => none
  | rounds + 1, i, value =>
    if more i && value.isFinite then
      if i + 1 < 2 ^ 64 then multiplyWhile more grow rounds (i + 1) (grow i value) else none
    else some value

/-- How many rounds a product of factors from two on may take: it overflows before. -/
def maxRounds : Nat := 1026

/-- The product `(n - r + 1) · … · n`. -/
def permutationProduct (n r : Float) : Option Float :=
  let first := n - r + 1
  multiplyWhile (fun i => .ofNat i < r) (fun i product => product * (first + .ofNat i)) maxRounds
    0 1

/-- The product of `(n - r + i) / i` for `i` from one to `r`. -/
def combinationProduct (n r : Float) : Option Float :=
  multiplyWhile (fun i => .ofNat i ≤ r) (fun i product => product * (n - r + .ofNat i) / .ofNat i)
    maxRounds 1 1

/-- The loop of `permutationProduct`, with so many rounds at most. -/
def permutationLoop (n r : Float) (rounds : Nat) : Option Float :=
  multiplyWhile (fun i => .ofNat i < r) (fun i product => product * (n - r + 1 + .ofNat i)) rounds
    0 1

/-- The loop of `combinationProduct`, with so many rounds at most. -/
def combinationLoop (n r : Float) (rounds : Nat) : Option Float :=
  multiplyWhile (fun i => .ofNat i ≤ r) (fun i product => product * (n - r + .ofNat i) / .ofNat i)
    rounds 1 1

/-- The loop runs its body so many times, and ends with `v` in one more round. Its counter, which
begins at `start`, stays a word of 64 bits, and every value of it is exact as a double. -/
structure EndsAfter (loop : Nat → Option Float) (start bodies : Nat) (v : Float) : Prop where
  ends : ∀ rounds, loop rounds = if bodies < rounds then some v else none
  word : start + bodies < 2 ^ 64
  counter : ∀ i ≤ start + bodies, StandsFor (.ofNat i) i

/-- The product of the numbers from two up to the integer part of `n` as a word of 32 bits, or up to
the greatest such word. -/
def factorialProduct (n : Float) : Float :=
  (List.range' 2 (min (Binary64.toNat n) (2 ^ 32 - 1) - 1)).foldl
    (fun product k => product * .ofNat k) 1

variable {n r v : Float} {k count start horizon rounds : Nat}

/-! ## The loop -/

theorem multiplyWhile_of_not_finite (more : Nat → Bool) (grow : Nat → Float → Float) (i : Nat)
    (hr : 0 < rounds) (hv : v.isFinite = false) : multiplyWhile more grow rounds i v = some v := by
  obtain ⟨r, rfl⟩ : ∃ r, rounds = r + 1 := ⟨rounds - 1, by omega⟩
  rw [multiplyWhile, hv, Bool.and_false, if_neg Bool.false_ne_true]

/-- The course of a loop is that of a product with a count, as far as some horizon: until then the
counter asks for more exactly below the count, and what comes to the horizon is infinite. -/
structure Course (start horizon count : Nat) (more : Nat → Bool) (grow : Nat → Float → Float)
    (Inv : Nat → Float → Prop) : Prop where
  more : ∀ k < horizon, more (start + k) = decide (k < count)
  step : ∀ k < horizon, k < count → ∀ v, v.isFinite = true → Inv k v →
    Inv (k + 1) (grow (start + k) v)
  infinite : ∀ v, Inv horizon v → v.isFinite = false
  room : start + horizon < 2 ^ 64

variable {more : Nat → Bool} {grow : Nat → Float → Float} {Inv : Nat → Float → Prop}

theorem Course.not_horizon (h : Course start horizon count more grow Inv) (hk : k ≤ horizon)
    (hfin : v.isFinite = true) (hv : Inv k v) : k < horizon := by
  refine Nat.lt_of_le_of_ne hk fun heq => ?_
  rw [heq] at hv
  rw [h.infinite v hv] at hfin
  cases hfin

/-- The product ends at the horizon, or before. -/
theorem Course.factors_le (h : Course start horizon count more grow Inv) (hone : Inv 0 1) :
    (multiply (fun k => grow (start + k)) count one).factors ≤ horizon := by
  have hstep : ∀ k < count, ∀ v, v.isFinite = true → k ≤ horizon ∧ Inv k v →
      k + 1 ≤ horizon ∧ Inv (k + 1) (grow (start + k) v) := by
    intro k hcount v hfin hv
    have hlt := h.not_horizon hv.1 hfin hv.2
    exact ⟨hlt, h.step k hlt hcount v hfin hv.2⟩
  obtain ⟨j, w, hrun, ⟨hj, -⟩, -⟩ := multiply_run (fun k v => k ≤ horizon ∧ Inv k v) hstep
    (Nat.zero_add count) ⟨Nat.zero_le horizon, hone⟩
  rw [one, hrun]
  exact hj

theorem le_factors_multiply (grow : Nat → Float → Float) (count k : Nat) (v : Float) :
    k ≤ (multiply grow count ⟨k, v⟩).factors := by
  obtain ⟨j, w, hrun, -, hle, -⟩ :=
    multiply_run (fun _ _ => True) (fun _ _ _ _ _ => trivial) rfl trivial
  rw [hrun]
  exact hle

/-- The loop goes round once for each factor of the product with the count. -/
theorem Course.multiplyWhile_add (h : Course start horizon count more grow Inv) (hk : k ≤ horizon)
    (hv : Inv k v) :
    multiplyWhile more grow rounds (start + k) v =
      if (multiply (fun k => grow (start + k)) (count - k) ⟨k, v⟩).factors < k + rounds then
        some (multiply (fun k => grow (start + k)) (count - k) ⟨k, v⟩).value
      else none := by
  induction rounds generalizing k v with
  | zero => exact (if_neg (not_lt.mpr (le_factors_multiply _ _ k v))).symm
  | succ rounds ih =>
    have hend : k < k + (rounds + 1) := by omega
    by_cases hfin : v.isFinite = true
    · have hlt := h.not_horizon hk hfin hv
      have hmore := h.more k hlt
      have hroom := h.room
      by_cases hcount : k < count
      · have hsplit : count - k = (count - (k + 1)) + 1 := by omega
        have hrounds : k + (rounds + 1) = k + 1 + rounds := by omega
        rw [multiplyWhile, hmore, decide_eq_true hcount, hfin, Bool.and_self, if_pos rfl,
          if_pos (by omega), hsplit, multiply_of_finite hfin, hrounds]
        exact ih hlt (h.step k hlt hcount v hfin hv)
      · have hnone : count - k = 0 := by omega
        rw [multiplyWhile, hmore, decide_eq_false hcount, Bool.false_and,
          if_neg Bool.false_ne_true, hnone, multiply, if_pos hend]
    · have hinf := Bool.eq_false_iff.mpr hfin
      rw [multiplyWhile_of_not_finite _ _ _ (Nat.succ_pos _) hinf, multiply_of_not_finite hinf,
        if_pos hend]

/-- A loop that begins with one needs a round for each factor, and one more to end. -/
theorem Course.multiplyWhile_eq (h : Course start horizon count more grow Inv) (hone : Inv 0 1) :
    multiplyWhile more grow rounds start 1 =
      if (multiply (fun k => grow (start + k)) count one).factors < rounds then
        some (multiply (fun k => grow (start + k)) count one).value
      else none := by
  have hloop : multiplyWhile more grow rounds (start + 0) 1 = _ :=
    h.multiplyWhile_add (Nat.zero_le horizon) hone
  rwa [Nat.zero_add, Nat.sub_zero] at hloop

/-- So many bodies are the factors of the product with the count. -/
theorem Course.endsAfter (h : Course start horizon count more grow Inv) (hone : Inv 0 1)
    (hexact : start + horizon < 2 ^ 53) :
    EndsAfter (fun rounds => multiplyWhile more grow rounds start 1) start
      (multiply (fun k => grow (start + k)) count one).factors
      (multiply (fun k => grow (start + k)) count one).value where
  ends _ := h.multiplyWhile_eq hone
  word := by
    have hle := h.factors_le hone
    omega
  counter i hi := by
    have hle := h.factors_le hone
    exact standsFor_ofNat (by omega)

/-- With enough rounds there is a result. -/
theorem EndsAfter.eq_some {loop : Nat → Option Float} {bodies : Nat}
    (h : EndsAfter loop start bodies v) (hrounds : bodies < rounds) : loop rounds = some v :=
  (h.ends rounds).trans (if_pos hrounds)

/-! ## Permutations -/

/-- What the numbers of a selection are. -/
theorem of_isSelection (h : isSelection n r = true) :
    n.isFinite = true ∧ r.isFinite = true ∧ value r = Binary64.toNat r ∧ value r ≤ value n := by
  simp only [isSelection, isNonNegativeInteger, Bool.and_eq_true, decide_eq_true_eq] at h
  obtain ⟨⟨⟨hn0, hn⟩, hr0, hr⟩, hle⟩ := h
  obtain ⟨hnf, -⟩ := value_eq_toNat hn hn0
  obtain ⟨hrf, hrv⟩ := value_eq_toNat hr hr0
  exact ⟨hnf, hrf, hrv, (le_iff_value hrf hnf).mp hle⟩

/-- If anything is selected, neither number is zero. -/
theorem isMagnitude_of_isSelection (h : isSelection n r = true) (hr : 0 < Binary64.toNat r) :
    IsMagnitude n ∧ IsMagnitude r ∧ 1 ≤ value r := by
  obtain ⟨hnf, hrf, hrv, hle⟩ := of_isSelection h
  have hone : 1 ≤ value r := by
    rw [hrv]
    exact_mod_cast hr
  exact ⟨isMagnitude_of_pos hnf (by linarith), isMagnitude_of_pos hrf (by linarith), hone⟩

/-- The factors are at least those of a factorial. -/
theorem atLeast_factor (hn : IsMagnitude n) (hr : IsMagnitude r) (hle : value r ≤ value n)
    (hk : k + 1 < 2 ^ 53) : AtLeast ((k + 1 : Nat) : ℚ) (n - r + 1 + .ofNat k) := by
  obtain ⟨hofNat, hvk⟩ := value_ofNat (n := k) (by omega)
  have hdiff : AtLeast 0 (n - r) :=
    (hn.nearest_sub hr hle).atLeast (by exact_mod_cast representable_natCast (m := 0) (by norm_num))
      (sub_nonneg.mpr hle)
  have hfirst : AtLeast 1 (n - r + 1) := by
    have h := hdiff.add isMagnitude_one (by
      rw [value_one]
      exact_mod_cast representable_natCast (m := 1) (by norm_num))
    rwa [value_one, zero_add] at h
  have hv : ((k + 1 : Nat) : ℚ) = 1 + value (Float.ofNat k) := by
    rw [hvk]
    push_cast
    ring
  have hr := representable_natCast hk
  rw [hv] at hr ⊢
  exact hfirst.add hofNat hr

theorem atLeast_one : AtLeast 1 1 := by
  have h := isMagnitude_one.atLeast
  rwa [value_one] at h

/-- The factorial of 171 is beyond all finite doubles, in spite of all roundings. -/
theorem factorial_171_le : (2 : ℚ) ^ 1024 ≤ (1 - roundoff) ^ 171 * (Nat.factorial 171 : ℚ) := by
  have hfactorial : (2 : ℚ) ^ 1025 ≤ (Nat.factorial 171 : ℚ) := by
    exact_mod_cast (by decide +kernel : 2 ^ 1025 ≤ Nat.factorial 171)
  have hhalf : 1 / 2 ≤ (1 - roundoff) ^ 171 := half_le_pow (by norm_num)
  calc (2 : ℚ) ^ 1024 = 1 / 2 * 2 ^ 1025 := by
        rw [pow_succ _ 1024, mul_comm, mul_assoc, mul_one_div_cancel two_ne_zero, mul_one]
    _ ≤ (1 - roundoff) ^ 171 * (Nat.factorial 171 : ℚ) :=
      mul_le_mul hhalf hfactorial (pow_nonneg two_pos.le 1025) (one_half_pos.le.trans hhalf)

/-- After `k` factors the product is at least the factorial of `k`, up to `k` roundings. -/
theorem course_permutations (h : isSelection n r = true) :
    Course 0 171 (Binary64.toNat r) (fun i => Float.ofNat i < r)
      (fun i product => product * (n - r + 1 + .ofNat i))
      fun k v => AtLeast ((1 - roundoff) ^ k * k.factorial) v where
  more k hk := by
    obtain ⟨-, hrf, hrv, -⟩ := of_isSelection h
    obtain ⟨hofNat, hvk⟩ := value_ofNat (n := k) (by omega)
    rw [Nat.zero_add, decide_eq_decide, lt_iff_value hofNat.finite hrf, hvk, hrv, Nat.cast_lt]
  step k hk hlt v hv hInv := by
    obtain ⟨hn, hr, -⟩ := isMagnitude_of_isSelection h (by omega)
    have hle := (of_isSelection h).2.2.2
    have hfactor := atLeast_factor hn hr hle (k := k) (by omega)
    have hhalf : 1 / 2 ≤ (1 - roundoff) ^ k := half_le_pow (by omega)
    have hfactorial : (1 : ℚ) ≤ k.factorial := by exact_mod_cast k.factorial_pos
    have hk1 : (1 : ℚ) ≤ (k + 1 : Nat) := by exact_mod_cast Nat.succ_pos k
    have hpos : 1 / 2 ≤ (1 - roundoff) ^ k * k.factorial :=
      hhalf.trans (le_mul_of_one_le_right (by linarith) hfactorial)
    have hmag : IsMagnitude v := ⟨hv, hInv.unsigned⟩
    have hmul := hmag.mul_atLeast_relative (hInv.le hv) (by linarith) hfactor (by positivity)
      (normal_of_half_le (hpos.trans (le_mul_of_one_le_right (by linarith) hk1)))
    have hnext : (1 - roundoff) ^ (k + 1) * ((k + 1).factorial : ℚ) =
        (1 - roundoff) * ((1 - roundoff) ^ k * k.factorial * (k + 1 : Nat)) := by
      rw [Nat.factorial_succ]
      push_cast
      ring
    rw [Nat.zero_add, hnext]
    exact hmul
  infinite v hInv := (hInv.mono factorial_171_le).isFinite_eq_false
  room := by norm_num

theorem atLeast_factorial_zero : AtLeast ((1 - roundoff) ^ 0 * (Nat.factorial 0 : ℚ)) 1 := by
  rw [pow_zero, one_mul, Nat.factorial_zero, Nat.cast_one]
  exact atLeast_one

theorem permutationLoop_endsAfter (h : isSelection n r = true) :
    (Combinatorics.permutationProduct n r).factors ≤ 171 ∧
      EndsAfter (permutationLoop n r) 0 (Combinatorics.permutationProduct n r).factors
        (Combinatorics.permutationProduct n r).value := by
  have hcourse := course_permutations h
  have hle := hcourse.factors_le atLeast_factorial_zero
  have hends := hcourse.endsAfter atLeast_factorial_zero (by norm_num)
  simp only [Nat.zero_add] at hle hends
  exact ⟨hle, hends⟩

theorem permutationProduct_eq (h : isSelection n r = true) :
    permutationProduct n r = some (Combinatorics.permutationProduct n r).value := by
  obtain ⟨hle, hends⟩ := permutationLoop_endsAfter h
  exact hends.eq_some (hle.trans_lt (by decide : 171 < maxRounds))

/-! ## Combinations -/

/-- Half of a number from one on is representable. -/
theorem representable_half (hn : IsMagnitude n) (hone : 1 ≤ value n) :
    Representable (value n / 2) := by
  obtain ⟨m, e, hc, -, -, hv⟩ := hn.exists_positive
  have hmlt : (m : ℚ) < 2 ^ 53 := by exact_mod_cast hc.lt
  have hleast := hc.least
  have he : e ≠ -1074 := by
    rintro rfl
    have hlt : (m : ℚ) * 2 ^ (-1074 : Int) < 2 ^ (53 : Int) * 2 ^ (-1074 : Int) :=
      mul_lt_mul_of_pos_right hmlt (two_zpow_pos _)
    rw [← zpow_add₀ two_ne_zero] at hlt
    have hsmall : (2 : ℚ) ^ ((53 : Int) + -1074) ≤ 1 :=
      zpow_le_one_of_nonpos₀ one_le_two (by norm_num)
    rw [hv] at hone
    exact absurd (hone.trans_lt (hlt.trans_le hsmall)) (lt_irrefl 1)
  have hhalf : value n / 2 = m * 2 ^ (e - 1) := by
    rw [hv, zpow_sub_one₀ two_ne_zero, mul_div_assoc, div_eq_mul_inv]
  rw [hhalf]
  exact representable_scaled hc.lt (by omega)

/-- The shorter side is finite, and no more than what it leaves of `n`. -/
theorem shorterSide_spec (h : isSelection n r = true) :
    (shorterSide n r).isFinite = true ∧
      (0 < Binary64.toNat (shorterSide n r) →
        AtLeast (value (shorterSide n r)) (n - shorterSide n r)) := by
  obtain ⟨hnf, hrf, hrv, hle⟩ := of_isSelection h
  unfold shorterSide
  by_cases hside : r ≤ n - r
  · rw [if_pos hside]
    refine ⟨hrf, fun hpos => ?_⟩
    obtain ⟨hn, hr, -⟩ := isMagnitude_of_isSelection h hpos
    have hdiff := hn.nearest_sub hr hle
    exact ⟨hdiff.unsigned, fun hfin => (le_iff_value hrf hfin).mp hside⟩
  · rw [if_neg hside]
    have hpos : 0 < Binary64.toNat r := by
      refine Nat.pos_of_ne_zero fun hzero => hside ?_
      rw [hzero, Nat.cast_zero] at hrv
      obtain hsub | ⟨-, hsub⟩ := sub_of_isZero n (isZero_of_value hrf hrv)
      · rw [hsub]
        exact (le_iff_value hrf hnf).mpr hle
      · obtain ⟨hsf, hsv⟩ := hsub.value_eq
        rw [le_iff_value hrf hsf, hrv, hsv]
    obtain ⟨hn, hr, hone⟩ := isMagnitude_of_isSelection h hpos
    have hdiff := hn.nearest_sub hr hle
    have hfin := hdiff.isFinite_of_le hn (sub_le_self _ hr.value_nonneg)
    have hmag : IsMagnitude (n - r) := ⟨hfin, hdiff.unsigned⟩
    have hlt : value (n - r) < value r := not_le.mp (mt (le_iff_value hrf hfin).mpr hside)
    have hhalf := representable_half hn (hone.trans hle)
    have hbound : value (n - r) ≤ value n / 2 := by
      refine hdiff.value_le hfin hhalf ?_ ?_
      · exact (half_le_self hn.value_nonneg).trans_lt hn.value_lt
      · by_contra hgt
        have hge := hdiff.le_value hfin hhalf (le_of_not_ge hgt)
        linarith
    refine ⟨hfin, fun _ => ?_⟩
    refine (hn.nearest_sub hmag ?_).atLeast hmag.representable ?_
    · linarith [hn.value_nonneg]
    · linarith

/-- After `k` factors the product is at least `2 ^ k`. -/
theorem course_combinations (hs : r.isFinite = true)
    (hle : 0 < Binary64.toNat r → AtLeast (value r) (n - r)) :
    Course 1 1024 (Binary64.toNat r) (fun i => Float.ofNat i ≤ r)
      (fun i product => product * (n - r + .ofNat i) / .ofNat i) fun k v => AtLeast (2 ^ k) v where
  more k hk := by
    obtain ⟨hofNat, hvk⟩ := value_ofNat (n := 1 + k) (by omega)
    rw [decide_eq_decide, le_iff_value hofNat.finite hs, hvk, toNat_eq_floor,
      ← Nat.le_floor_iff' (by omega), Nat.add_comm]
    rfl
  step k hk hlt v hv hInv := by
    obtain ⟨hofNat, hvk⟩ := value_ofNat (n := 1 + k) (by omega)
    have hmag : IsMagnitude v := ⟨hv, hInv.unsigned⟩
    generalize hi : 1 + k = i at hofNat hvk ⊢
    have hpos : (0 : ℚ) < i := by
      rw [← hi]
      positivity
    have hir : (i : ℚ) ≤ value r := by
      rw [← Nat.le_floor_iff' (by omega), ← toNat_eq_floor]
      omega
    have hdiff : AtLeast i (n - r) := (hle (by omega)).mono hir
    have hsum : AtLeast (i + i) (n - r + .ofNat i) := by
      have hr := representable_natCast (m := i + i) (by omega)
      rw [Nat.cast_add] at hr
      have h := hdiff.add hofNat (by rwa [hvk])
      rwa [hvk] at h
    have hproduct : AtLeast (i * 2 ^ (k + 1)) (v * (n - r + .ofNat i)) := by
      have hv : (i : ℚ) * 2 ^ (k + 1) = 2 ^ k * (i + i) := by
        rw [pow_succ]
        ring
      have hr := representable_mul_two_pow (m := i) (by omega) (k + 1)
      rw [hv] at hr ⊢
      exact hmag.mul_atLeast (hInv.le ‹_›) (by positivity) hsum (by positivity) hr
    have hquotient : (i : ℚ) * 2 ^ (k + 1) / value (.ofNat i) = 2 ^ (k + 1) := by
      rw [hvk, mul_div_cancel_left₀ _ hpos.ne']
    have hr := representable_mul_two_pow (m := 1) (by norm_num) (k + 1)
    rw [Nat.cast_one, one_mul, ← hquotient] at hr
    rw [← hquotient]
    exact hproduct.div hofNat (by rwa [hvk]) hr
  infinite v hInv := hInv.isFinite_eq_false
  room := by norm_num

theorem combinationLoop_endsAfter (h : isSelection n r = true) :
    (Combinatorics.combinationProduct n (shorterSide n r)).factors ≤ 1024 ∧
      EndsAfter (combinationLoop n (shorterSide n r)) 1
        (Combinatorics.combinationProduct n (shorterSide n r)).factors
        (Combinatorics.combinationProduct n (shorterSide n r)).value := by
  obtain ⟨hfin, hle⟩ := shorterSide_spec h
  have hcourse := course_combinations hfin hle
  have hle := hcourse.factors_le atLeast_one
  have hends := hcourse.endsAfter atLeast_one (by norm_num)
  simp only [Nat.add_comm 1] at hle hends
  exact ⟨hle, hends⟩

theorem combinationProduct_eq (h : isSelection n r = true) :
    combinationProduct n (shorterSide n r) =
      some (Combinatorics.combinationProduct n (shorterSide n r)).value := by
  obtain ⟨hle, hends⟩ := combinationLoop_endsAfter h
  exact hends.eq_some (hle.trans_lt (by decide : 1024 < maxRounds))

/-- Whatever is selected, the loops end soon: after at most 171 bodies, and at most 1024. -/
theorem loops_end_soon (h : isSelection n r = true) :
    (∃ bodies ≤ 171, ∃ v, EndsAfter (permutationLoop n r) 0 bodies v ∧ permutations n r = .ok v) ∧
      ∃ bodies ≤ 1024, ∃ v, EndsAfter (combinationLoop n (shorterSide n r)) 1 bodies v ∧
        combinations n r = .ok (Binary64.round v) := by
  obtain ⟨hple, hpends⟩ := permutationLoop_endsAfter h
  obtain ⟨hcle, hcends⟩ := combinationLoop_endsAfter h
  exact ⟨⟨_, hple, _, hpends, if_pos h⟩, _, hcle, _, hcends, if_pos h⟩

/-- Here half of the largest finite double is chosen out of all of it. -/
theorem loops_end_soon_largest :
    isSelection (.ofBits 9218868437227405311) (.ofBits 9214364837600034815) = true ∧
      (∃ bodies ≤ 171, ∃ v,
        EndsAfter
          (permutationLoop (.ofBits 9218868437227405311) (.ofBits 9214364837600034815)) 0 bodies v ∧
        permutations (.ofBits 9218868437227405311) (.ofBits 9214364837600034815) = .ok v) ∧
      ∃ bodies ≤ 1024, ∃ v,
        EndsAfter
          (combinationLoop (.ofBits 9218868437227405311)
            (shorterSide (.ofBits 9218868437227405311) (.ofBits 9214364837600034815))) 1 bodies v ∧
        combinations (.ofBits 9218868437227405311) (.ofBits 9214364837600034815) =
          .ok (Binary64.round v) := by
  have h : isSelection (.ofBits 9218868437227405311) (.ofBits 9214364837600034815) = true := by
    decide +kernel
  exact ⟨h, loops_end_soon h⟩

/-! ## Factorials -/

/-- Up to the largest factorial, the integer part fits the word. -/
theorem toNat_le_of_not_lt (h : isNonNegativeInteger n = true) (hle : ¬ largestFactorial < n) :
    Binary64.toNat n ≤ 170 := by
  simp only [isNonNegativeInteger, Bool.and_eq_true, decide_eq_true_eq] at h
  obtain ⟨hfin, hv⟩ := value_eq_toNat h.2 h.1
  obtain ⟨hofNat, hv170⟩ := value_ofNat (n := 170) (by norm_num)
  have hlargest : largestFactorial = .ofNat 170 := rfl
  rw [hlargest, lt_iff_value hofNat.finite hfin, hv170, hv, Nat.cast_lt] at hle
  omega

theorem factorialProduct_eq (h : isNonNegativeInteger n = true) (hle : ¬ largestFactorial < n) :
    factorialProduct n =
      (List.range' 2 (Binary64.toNat n - 1)).foldl (fun product k => product * .ofNat k) 1 := by
  have hword := toNat_le_of_not_lt h hle
  have hmin : min (Binary64.toNat n) (2 ^ 32 - 1) = Binary64.toNat n := by omega
  rw [factorialProduct, hmin]

end Calculator.Guarded
