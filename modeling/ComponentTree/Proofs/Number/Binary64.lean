import ComponentTree.Number.Binary64
import Mathlib.Algebra.Group.Nat.Defs

/-!
Integers as binary64 numbers.

Main statements: the number nearest to an integer of at most 64 bits is finite (`ofInt_finite`), an
integer below `2 ^ 53` is met exactly (`ofInt_exact`), and finite numbers that are the same integer
are equal but for the sign of zero (`Finite.same_of_toInt?`).
-/

namespace ComponentTree

/-! ### Rounded quotients -/

theorem roundDiv_mul {den : Nat} (h : 0 < den) (n : Nat) : roundDiv (n * den) den = n := by
  simp only [roundDiv, Nat.mul_mod_left, Nat.mul_zero, if_pos h]
  exact Nat.mul_div_cancel n h

theorem roundDiv_eq (num den : Nat) :
    roundDiv num den = num / den ∨ roundDiv num den = num / den + 1 := by
  unfold roundDiv
  dsimp only
  split
  · exact Or.inl rfl
  · split
    · exact Or.inr rfl
    · rcases Nat.mod_two_eq_zero_or_one (num / den) with h | h <;> rw [h]
      · exact Or.inl rfl
      · exact Or.inr rfl

namespace Binary64

theorem pack_of_normal (negative : Bool) {mantissa scale : Nat} (hlow : 4503599627370496 ≤ mantissa)
    (hhigh : mantissa < 9007199254740992) (hscale : scale ≤ 2045) :
    ∃ x : Finite, pack negative mantissa scale = .finite x ∧ x.negative = negative ∧
      x.mantissa = mantissa ∧ x.scale = scale := by
  have h : mantissa < 9007199254740992 ∧ scale ≤ 2045 ∧
    (scale = 0 ∨ 4503599627370496 ≤ mantissa) := ⟨hhigh, hscale, Or.inr hlow⟩
  exact ⟨⟨negative, mantissa, scale, h⟩, dif_pos h, rfl, rfl, rfl⟩

/-! ### The number nearest to an integer -/

theorem unitsPerOne_eq : unitsPerOne = 2 ^ 1074 := by
  unfold unitsPerOne
  generalize 1074 = k
  exact Nat.pow_eq

theorem unitsPerOne_pos : 0 < unitsPerOne := by
  rw [unitsPerOne_eq]
  generalize 1074 = k
  exact Nat.two_pow_pos k

theorem log2_mul_two_pow {n : Nat} (h : n ≠ 0) (k : Nat) : Nat.log2 (n * 2 ^ k) = n.log2 + k := by
  rw [Nat.log2_eq_iff (Nat.mul_ne_zero h (Nat.ne_of_gt (Nat.two_pow_pos k)))]
  constructor
  · rw [Nat.pow_add]
    exact Nat.mul_le_mul_right _ (Nat.log2_self_le h)
  · rw [Nat.add_right_comm, Nat.pow_add]
    exact Nat.mul_lt_mul_of_pos_right Nat.lt_log2_self (Nat.two_pow_pos k)

theorem log2_mul_unitsPerOne {n : Nat} (h : n ≠ 0) :
    Nat.log2 (n * unitsPerOne) = n.log2 + 1074 := by
  rw [unitsPerOne_eq]
  exact log2_mul_two_pow h 1074

/-- The units of a natural number, counted in units of the last place of a mantissa, are at least
`2 ^ 52` and below `2 ^ 53`. -/
theorem mantissa_bounds {n : Nat} (h : n ≠ 0) :
    4503599627370496 ≤ n * unitsPerOne / 2 ^ (n.log2 + 1022) ∧
      n * unitsPerOne / 2 ^ (n.log2 + 1022) < 9007199254740992 := by
  have hlow : 2 ^ (n.log2 + 1074) ≤ n * unitsPerOne := by
    rw [← log2_mul_unitsPerOne h]
    exact Nat.log2_self_le (Nat.mul_ne_zero h (Nat.ne_of_gt unitsPerOne_pos))
  have hhigh : n * unitsPerOne < 2 ^ (n.log2 + 1074 + 1) := by
    rw [← log2_mul_unitsPerOne h]
    exact Nat.lt_log2_self
  constructor
  · rw [Nat.le_div_iff_mul_le (Nat.two_pow_pos _)]
    refine Nat.le_trans (Nat.le_of_eq ?_) hlow
    rw [show n.log2 + 1074 = 52 + (n.log2 + 1022) by omega, Nat.pow_add 2 52]
  · rw [Nat.div_lt_iff_lt_mul (Nat.two_pow_pos _)]
    refine Nat.lt_of_lt_of_le hhigh (Nat.le_of_eq ?_)
    rw [show n.log2 + 1074 + 1 = 53 + (n.log2 + 1022) by omega, Nat.pow_add 2 53]

theorem ofRatio_zero (negative : Bool) : ofRatio negative 0 1 = .finite (.zero negative) := by
  have hzero : 0 * unitsPerOne = 0 := Nat.zero_mul _
  simp only [ofRatio, hzero]
  rfl

theorem scale_of_ne_zero {n : Nat} (h : n ≠ 0) :
    Nat.log2 (n * unitsPerOne / 1) - 52 = n.log2 + 1022 := by
  rw [Nat.div_one, log2_mul_unitsPerOne h]
  omega

/-- The number nearest to a natural number below `2 ^ 1000` is finite. -/
theorem ofRatio_one_finite (negative : Bool) {n : Nat} (h : n.log2 < 1000) :
    ∃ x, ofRatio negative n 1 = .finite x := by
  by_cases hn : n = 0
  · exact ⟨_, hn ▸ ofRatio_zero negative⟩
  obtain ⟨hlow, hhigh⟩ := mantissa_bounds hn
  have hscale : n.log2 + 1022 + 1 ≤ 2045 := by omega
  have hround := roundDiv_eq (n * unitsPerOne) (2 ^ (n.log2 + 1022))
  simp only [ofRatio, scale_of_ne_zero hn, Nat.one_mul, Nat.pow_eq]
  generalize roundDiv (n * unitsPerOne) (2 ^ (n.log2 + 1022)) = mantissa at hround ⊢
  split
  · obtain ⟨x, hx, -⟩ := pack_of_normal negative (Nat.le_refl _) (by decide) hscale
    exact ⟨x, hx⟩
  · have hnormal : 4503599627370496 ≤ mantissa ∧ mantissa < 9007199254740992 := by omega
    obtain ⟨x, hx, -⟩ :=
      pack_of_normal negative hnormal.1 hnormal.2 (Nat.le_of_succ_le hscale)
    exact ⟨x, hx⟩

/-- A natural number below `2 ^ 53` is met exactly. -/
theorem ofRatio_one_exact (negative : Bool) {n : Nat} (h : n < 9007199254740992) :
    ∃ x : Finite, ofRatio negative n 1 = .finite x ∧ x.negative = negative ∧
      x.units = n * unitsPerOne := by
  by_cases hn : n = 0
  · subst hn
    exact ⟨.zero negative, ofRatio_zero negative, rfl, (Nat.zero_mul _).trans (Nat.zero_mul _).symm⟩
  have hlog : n.log2 ≤ 52 := Nat.le_of_lt_succ ((Nat.log2_lt hn).mpr h)
  have hscales : 1074 = 52 - n.log2 + (n.log2 + 1022) := by omega
  have hunits : n * unitsPerOne = n * 2 ^ (52 - n.log2) * 2 ^ (n.log2 + 1022) := by
    rw [unitsPerOne_eq, Nat.mul_assoc, ← Nat.pow_add]
    generalize 1074 = k at hscales ⊢
    rw [hscales]
  obtain ⟨hlow, hhigh⟩ := mantissa_bounds hn
  rw [hunits, Nat.mul_div_cancel _ (Nat.two_pow_pos _)] at hlow hhigh
  have hscale : n.log2 + 1022 ≤ 2045 := by omega
  obtain ⟨x, hx, hnegative, hmantissa, hxscale⟩ := pack_of_normal negative hlow hhigh hscale
  refine ⟨x, ?_, hnegative, ?_⟩
  · simp only [ofRatio, scale_of_ne_zero hn, Nat.one_mul, Nat.pow_eq]
    rw [hunits, roundDiv_mul (Nat.two_pow_pos _), if_neg (Nat.ne_of_lt hhigh)]
    exact hx
  · rw [Finite.units, hmantissa, hxscale, hunits, Nat.pow_eq]

theorem ofInt_finite {i : Int} (h : i.natAbs ≤ 18446744073709551616) :
    ∃ x, ofInt i = .finite x := by
  refine ofRatio_one_finite _ ?_
  by_cases hi : i.natAbs = 0
  · rw [hi]
    decide
  · exact Nat.lt_trans ((Nat.log2_lt hi).mpr (show i.natAbs < 2 ^ 65 by omega)) (by decide)

namespace Finite

theorem toInt?_eq (x : Finite) :
    x.toInt? = x.magnitude?.map fun n : Nat => if x.negative then -(n : Int) else n := by
  unfold toInt?
  cases x.magnitude? <;> rfl

end Finite

/-- An integer below `2 ^ 53` is met exactly. -/
theorem ofInt_exact {i : Int} (h : i.natAbs < 9007199254740992) :
    ∃ x : Finite, ofInt i = .finite x ∧ x.toInt? = some i := by
  obtain ⟨x, hx, hnegative, hunits⟩ := ofRatio_one_exact (decide (i < 0)) h
  refine ⟨x, hx, ?_⟩
  rw [Finite.toInt?_eq, Finite.magnitude?, hunits, Nat.mul_mod_left, if_pos rfl,
    Nat.mul_div_cancel _ unitsPerOne_pos, Option.map_some, hnegative, Option.some.injEq]
  by_cases hi : i < 0
  · rw [if_pos (decide_eq_true hi)]
    omega
  · rw [if_neg (by simpa using hi)]
    omega

/-! ### Equal numbers -/

namespace Finite

theorem same_self (x : Finite) : x.same x = true := by
  rw [same, decide_eq_true rfl, Bool.true_or]

/-- A magnitude has one mantissa and one scale. -/
theorem eq_of_units {x y : Finite} (h : x.units = y.units) :
    x.mantissa = y.mantissa ∧ x.scale = y.scale := by
  have hle : ∀ {x y : Finite}, x.units = y.units → x.scale ≤ y.scale →
      x.mantissa = y.mantissa ∧ x.scale = y.scale := by
    intro x y h hs
    obtain ⟨k, hk⟩ := Nat.exists_eq_add_of_le hs
    have hm : x.mantissa = y.mantissa * 2 ^ k := by
      rw [units, units, hk, Nat.pow_eq, Nat.pow_eq, Nat.add_comm, Nat.pow_add,
        ← Nat.mul_assoc] at h
      exact Nat.eq_of_mul_eq_mul_right (Nat.two_pow_pos _) h
    cases k with
    | zero => exact ⟨by rw [hm, Nat.pow_zero, Nat.mul_one], hk.symm⟩
    | succ k =>
      -- the mantissa at the larger scale would be too large at the smaller one
      have hx := x.canonical.1
      have hy : 4503599627370496 ≤ y.mantissa := y.canonical.2.2.resolve_left (by omega)
      have hfactor : 2 ≤ 2 ^ (k + 1) := by
        rw [Nat.pow_succ]
        exact Nat.le_mul_of_pos_left 2 (Nat.two_pow_pos k)
      have hmul := Nat.mul_le_mul hy hfactor
      omega
  rcases Nat.le_total x.scale y.scale with hs | hs
  · exact hle h hs
  · exact (hle h.symm hs).imp Eq.symm Eq.symm

/-- Numbers that are the same integer are equal. -/
theorem same_of_toInt? {x y : Finite} {i : Int} (hx : x.toInt? = some i) (hy : y.toInt? = some i) :
    x.same y = true := by
  have magnitude : ∀ {x : Finite}, x.toInt? = some i → x.units = i.natAbs * unitsPerOne ∧
      (i ≠ 0 → x.negative = decide (i < 0)) := by
    intro x hx
    rw [toInt?_eq, magnitude?, Option.map_eq_some_iff] at hx
    obtain ⟨n, hn, hi⟩ := hx
    rw [Option.ite_none_right_eq_some, Option.some.injEq] at hn
    obtain ⟨hmod, hdiv⟩ := hn
    have hunits := Nat.div_add_mod x.units unitsPerOne
    rw [hmod, hdiv, Nat.add_zero, Nat.mul_comm] at hunits
    cases hneg : x.negative <;> rw [hneg] at hi
    · rw [if_neg Bool.false_ne_true] at hi
      subst hi
      exact ⟨hunits.symm, fun _ => by simp⟩
    · rw [if_pos rfl] at hi
      subst hi
      refine ⟨by rw [Int.natAbs_neg]; exact hunits.symm, fun h => ?_⟩
      rw [decide_eq_true]
      omega
  obtain ⟨hxu, hxn⟩ := magnitude hx
  obtain ⟨hyu, hyn⟩ := magnitude hy
  obtain ⟨hmantissa, hscale⟩ := eq_of_units (hxu.trans hyu.symm)
  by_cases hi : i = 0
  · have hzero : x.mantissa = 0 := by
      rw [hi, Int.natAbs_zero, Nat.zero_mul, units, Nat.pow_eq] at hxu
      exact (Nat.mul_eq_zero.mp hxu).resolve_right (Nat.ne_of_gt (Nat.two_pow_pos _))
    simp [same, isZero, ← hmantissa, hzero]
  · have hnegative := (hxn hi).trans (hyn hi).symm
    obtain ⟨negative, mantissa, scale, canonical⟩ := x
    obtain rfl : negative = y.negative := hnegative
    obtain rfl : mantissa = y.mantissa := hmantissa
    obtain rfl : scale = y.scale := hscale
    exact y.same_self

end Finite

end Binary64

end ComponentTree
