import Calculator.Combinatorics
import Calculator.Proofs.SpecialValues

/-!
# Products factor by factor

A product under way takes in factors until it has all of them, or overflows. What each factor keeps
holds of the product at the end.
-/

namespace Calculator.Combinatorics

variable {grow : Nat → Float → Float} {count total k : Nat} {v : Float}

/-- A product that has overflowed takes in nothing. -/
theorem multiply_of_not_finite (hv : v.isFinite = false) : multiply grow count ⟨k, v⟩ = ⟨k, v⟩ := by
  cases count with
  | zero => rfl
  | succ count => rw [multiply, if_neg (by simp [hv])]

theorem multiply_of_finite (hv : v.isFinite = true) :
    multiply grow (count + 1) ⟨k, v⟩ = multiply grow count ⟨k + 1, grow k v⟩ := by
  rw [multiply, if_pos hv]

/-- The product at the end has what each factor keeps, and all the factors unless it has
overflowed. -/
theorem multiply_run (Inv : Nat → Float → Prop)
    (hstep : ∀ k < total, ∀ v, v.isFinite = true → Inv k v → Inv (k + 1) (grow k v))
    (hk : k + count = total) (hv : Inv k v) :
    ∃ j w, multiply grow count ⟨k, v⟩ = ⟨j, w⟩ ∧ Inv j w ∧ k ≤ j ∧ j ≤ total ∧
      (w.isFinite = true → j = total) := by
  induction count generalizing k v with
  | zero => exact ⟨k, v, rfl, hv, le_rfl, hk.le, fun _ => hk⟩
  | succ count ih =>
    by_cases hfin : v.isFinite = true
    · obtain ⟨j, w, hrun, hInv, hle, hend⟩ :=
        ih (k := k + 1) (by omega) (hstep k (by omega) v hfin hv)
      exact ⟨j, w, (multiply_of_finite hfin).trans hrun, hInv, by omega, hend⟩
    · exact ⟨k, v, multiply_of_not_finite (Bool.eq_false_iff.mpr hfin), hv, le_rfl, by omega,
        fun h => absurd h hfin⟩

/-- A product that stays finite takes in every factor. -/
theorem multiply_all (Inv : Nat → Float → Prop) (hfin : ∀ k v, Inv k v → v.isFinite = true)
    (hstep : ∀ k < count, ∀ v, Inv k v → Inv (k + 1) (grow k v)) (hone : Inv 0 1) :
    ∃ w, multiply grow count one = ⟨count, w⟩ ∧ Inv count w := by
  obtain ⟨j, w, hrun, hInv, -, -, hend⟩ :=
    multiply_run Inv (fun k hk v _ hv => hstep k hk v hv) (Nat.zero_add count) hone
  obtain rfl := hend (hfin j w hInv)
  exact ⟨w, hrun, hInv⟩

end Calculator.Combinatorics
