import EvaluatorGen.Proofs.Binary64.Nearest

/-!
Nine decimal places and back.

A finite number is written as a multiple of 10⁻⁹, and what is written is read as a number again.

1. `billionths_nearest` and `reload_nearest`: both roundings are to nearest, ties to even.
2. `reload_of_le`: from 2²³ on, the numbers are further apart than 10⁻⁹, so writing moves a number
   by less than half a gap and reading moves it back.
3. `billionths_reload`: below, they are closer together than 10⁻⁹, so reading moves a multiple of
   10⁻⁹ by less than half of that and it is written as it was.
4. `IsReload` says what becomes of a number without computing it, and `IsReload.unique` that this
   is one number.
-/
namespace EvaluatorGen.Binary64

variable {x : Binary64}

/-- The exact value of a finite number. -/
def toRat (x : Binary64) : ℚ := signFactor x.isNegative * (x.units / unitsInOne)

theorem billionths_eq (x : Binary64) :
    x.billionths = roundDiv (x.units * billion) unitsInOne := by
  unfold billionths unitsInOne
  generalize Nat.pow 2 1074 = e
  rfl

/-- The whole number of units of 10⁻⁹ that is written. -/
def signedBillionths (x : Binary64) : ℤ :=
  if x.isNegative then -(x.billionths : ℤ) else x.billionths

/-- What is read of a number that has been written. -/
def reload (x : Binary64) : Binary64 :=
  ofMagnitude x.isNegative (nearestMagnitude x.billionths billion)

theorem unitsInOne_cast_pos : (0 : ℚ) < unitsInOne := Nat.cast_pos.mpr unitsInOne_pos

theorem billion_cast_pos : (0 : ℚ) < billion := Nat.cast_pos.mpr (by decide)

/-! ### Writing -/

theorem signedBillionths_eq (x : Binary64) :
    (x.signedBillionths : ℚ) = signFactor x.isNegative * x.billionths := by
  unfold signedBillionths signFactor
  generalize x.billionths = k
  split <;> simp

theorem even_signedBillionths_iff : Even x.signedBillionths ↔ Even x.billionths := by
  unfold signedBillionths
  generalize x.billionths = k
  split <;> simp

theorem billionths_nearest (x : Binary64) :
    NearestEven (fun k : ℤ => (k : ℚ) / billion) Even x.toRat x.signedBillionths := by
  have hgrid := roundDiv_nearest (x.units * billion) unitsInOne_pos Nat.one_pos
  rw [Nat.mul_one, ← billionths_eq] at hgrid
  have hx : signFactor x.isNegative * (((x.units * billion : ℕ) : ℚ) / unitsInOne / billion) =
      x.toRat := by
    rw [toRat, Nat.cast_mul, mul_div_right_comm, mul_div_cancel_right₀ _ billion_cast_pos.ne']
  rw [← hx]
  refine ((hgrid.div billion_cast_pos).sign x.isNegative).comap
    (fun k => if x.isNegative then -k else k) ?_ ?_ ?_
  · unfold signedBillionths
    generalize x.billionths = k
    split <;> simp
  · intro k
    unfold signFactor
    split <;> simp [neg_div]
  · exact even_signedBillionths_iff.mpr ∘ (Int.even_coe_nat _).mp

/-! ### Reading -/

/-- Nothing that is not above a whole multiple of 10⁻⁹ is written as more. -/
theorem billionths_le {c : ℕ} (h : x.units * billion ≤ c * unitsInOne) : x.billionths ≤ c := by
  rw [billionths_eq]
  exact roundDiv_le unitsInOne_pos h

/-- The magnitude that is read, which is finite. -/
def reloadedMagnitude (x : Binary64) : ℕ := roundedMagnitude (x.billionths * unitsInOne) billion

theorem reloadedMagnitude_nearest (x : Binary64) :
    NearestEven (fun m => (unitsOf m : ℚ)) Even (x.billionths * unitsInOne / billion)
      x.reloadedMagnitude := by
  have h := roundedMagnitude_nearest (x.billionths * unitsInOne) (d := billion) (by decide)
  rwa [Nat.cast_mul] at h

theorem unitsOf_largest : unitsOf (infinity - 1) = (2 ^ 53 - 1) * 2 ^ 971 * unitsInOne := by
  have hscaled : IsScaled (971 + 1074) (2 ^ 53 - 1) := ⟨by decide, .inr (by decide)⟩
  have hbits : infinity - 1 = (971 + 1074) * 2 ^ 52 + (2 ^ 53 - 1) := by decide
  rw [hbits, unitsOf_scaled hscaled, two_pow_add_eq, Nat.mul_assoc]

theorem reloadedMagnitude_lt (hx : x.isFinite) : x.reloadedMagnitude < infinity := by
  have hle : x.units ≤ unitsOf (infinity - 1) :=
    unitsOf_strictMono.monotone (Nat.le_sub_one_of_lt (isFinite_iff.mp hx))
  have hunits : (x.billionths * unitsInOne : ℚ) / billion ≤ unitsOf (infinity - 1) := by
    rw [unitsOf_largest] at hle ⊢
    generalize (2 ^ 53 - 1) * 2 ^ 971 = c at *
    have hb : x.billionths ≤ c * billion := by
      apply billionths_le
      calc x.units * billion ≤ c * unitsInOne * billion := Nat.mul_le_mul_right _ hle
        _ = c * billion * unitsInOne := by ring
    have hb' : (x.billionths : ℚ) ≤ c * billion := by exact_mod_cast hb
    rw [div_le_iff₀ billion_cast_pos]
    calc (x.billionths * unitsInOne : ℚ) ≤ c * billion * unitsInOne :=
          mul_le_mul_of_nonneg_right hb' unitsInOne_cast_pos.le
      _ = (c * unitsInOne : ℕ) * billion := by push_cast; ring
  have hm := x.reloadedMagnitude_nearest.le_of_le unitsOf_cast_strictMono hunits
  exact Nat.lt_of_le_pred (by decide) hm

theorem reload_eq (hx : x.isFinite) : x.reload = ofMagnitude x.isNegative x.reloadedMagnitude := by
  have hmin : nearestMagnitude x.billionths billion = x.reloadedMagnitude := by
    rw [nearestMagnitude_eq]
    exact Nat.min_eq_left (reloadedMagnitude_lt hx).le
  rw [reload, hmin]

theorem magnitude_reload (hx : x.isFinite) : x.reload.magnitude = x.reloadedMagnitude := by
  rw [reload_eq hx, magnitude_ofMagnitude ((reloadedMagnitude_lt hx).trans infinity_lt)]

theorem isNegative_reload (hx : x.isFinite) : x.reload.isNegative = x.isNegative := by
  rw [reload_eq hx, isNegative_ofMagnitude ((reloadedMagnitude_lt hx).trans infinity_lt)]

theorem isFinite_reload (hx : x.isFinite) : x.reload.isFinite := by
  rw [isFinite_iff, magnitude_reload hx]
  exact reloadedMagnitude_lt hx

theorem even_bits_iff (x : Binary64) : Even x.bits.toNat ↔ Even x.magnitude := by
  rw [Nat.even_iff, Nat.even_iff, magnitude, Nat.pow_eq]
  omega

/-- What is read is the nearest of all finite numbers. -/
theorem reload_nearest (hx : x.isFinite) :
    NearestEven (fun y : {y : Binary64 // y.isFinite} => y.1.toRat) (fun y => Even y.1.bits.toNat)
      ((x.signedBillionths : ℚ) / billion) ⟨x.reload, isFinite_reload hx⟩ := by
  have hnear := x.reloadedMagnitude_nearest.div unitsInOne_cast_pos
  rw [mul_div_right_comm, mul_div_cancel_right₀ _ unitsInOne_cast_pos.ne'] at hnear
  have hsigned := hnear.signed (div_nonneg (Nat.cast_nonneg _) billion_cast_pos.le)
    (fun m => div_nonneg (Nat.cast_nonneg _) unitsInOne_cast_pos.le) (z := 0)
    (by rw [unitsOf_zero, Nat.cast_zero, zero_div]) x.isNegative
  rw [← mul_div_assoc, ← signedBillionths_eq] at hsigned
  refine hsigned.comap (fun y => (y.1.isNegative, y.1.magnitude)) ?_ (fun _ => rfl) ?_
  · rw [isNegative_reload hx, magnitude_reload hx]
  · intro heven
    rw [even_bits_iff, magnitude_reload hx]
    exact heven

theorem nearestMagnitude_zero : nearestMagnitude 0 billion = 0 := by
  rw [nearestMagnitude_eq, Nat.zero_mul]
  decide

theorem ofDecimal_billionths (negative : Bool) (k : ℕ) :
    ofDecimal negative k (-9) = ofMagnitude negative (nearestMagnitude k billion) := by
  have hnum : k * Nat.pow 10 (-9 : ℤ).toNat = k := Nat.mul_one k
  have hden : Nat.pow 10 (-(-9 : ℤ)).toNat = billion := by decide
  unfold ofDecimal
  rw [hnum, hden]
  split
  · rename_i hk
    rw [hk, nearestMagnitude_zero]
  · rw [if_neg (by omega), if_neg (by omega)]

theorem reload_of_billionths_eq_zero (h : x.billionths = 0) :
    x.reload = ofMagnitude x.isNegative 0 := by
  rw [reload, h, nearestMagnitude_zero]

/-! ### Written again -/

/-- Writing moves a number by at most half a unit of 10⁻⁹. -/
theorem abs_sub_billionths_le (x : Binary64) :
    |(x.units : ℚ) - x.billionths * unitsInOne / billion| * billion ≤ unitsInOne / 2 := by
  have h := abs_roundDiv_le (x.units * billion) unitsInOne_pos
  rw [← billionths_eq, abs_sub_comm, Nat.cast_mul] at h
  rwa [abs_sub_div_mul billion_cast_pos]

theorem units_reload (hx : x.isFinite) : x.reload.units = unitsOf x.reloadedMagnitude := by
  rw [units_eq, magnitude_reload hx]

/-- Reading moves a written number by no more than writing did. -/
theorem abs_reloaded_sub_le (x : Binary64) :
    |(unitsOf x.reloadedMagnitude : ℚ) - x.units| * billion ≤ unitsInOne := by
  have hread := mul_le_mul_of_nonneg_right (x.reloadedMagnitude_nearest.le x.magnitude)
    billion_cast_pos.le
  have hwritten := x.abs_sub_billionths_le
  have htri := mul_le_mul_of_nonneg_right
    (abs_sub_le (unitsOf x.reloadedMagnitude : ℚ) (x.billionths * unitsInOne / billion) x.units)
    billion_cast_pos.le
  rw [← units_eq] at hread
  rw [add_mul, abs_sub_comm (x.billionths * unitsInOne / billion : ℚ)] at htri
  linarith

/-- From 2²³ on, a number is read as it was. -/
theorem reload_of_le (hx : x.isFinite) (h : 2 ^ 23 * unitsInOne ≤ x.units) : x.reload = x := by
  obtain ⟨s, hs⟩ : ∃ s, 29 + s = 1074 := ⟨1045, rfl⟩
  have hsplit := unitsInOne_eq hs
  have hunits : unitsOf x.reloadedMagnitude = x.units := by
    rcases Nat.eq_or_lt_of_le h with heq | hlt
    · -- Writing is exact here, and what is read is no further away.
      have hk : x.billionths = 2 ^ 23 * billion := by
        rw [billionths_eq, ← heq]
        apply roundDiv_eq unitsInOne_pos
        push_cast
        rw [mul_right_comm, sub_self, abs_zero]
        exact half_pos unitsInOne_cast_pos
      have hvalue : (x.billionths * unitsInOne / billion : ℚ) = x.units := by
        rw [hk, ← heq, div_eq_iff billion_cast_pos.ne']
        push_cast
        ring
      have hread := x.reloadedMagnitude_nearest.le x.magnitude
      rw [← units_eq, hvalue, sub_self, abs_zero] at hread
      exact_mod_cast sub_eq_zero.mp (abs_nonpos_iff.mp hread)
    · -- The next magnitudes are further away than both roundings reach.
      by_contra hne
      have hlow : 2 ^ 52 * 2 ^ s < unitsOf x.magnitude := by
        rw [← units_eq]
        exact lt_of_eq_of_lt (by rw [hsplit]; ring) hlt
      have hgap : (2 ^ s : ℚ) ≤ |(unitsOf x.reloadedMagnitude : ℚ) - x.units| := by
        rw [le_abs]
        rcases unitsOf_add_le_or hlow hne with hle | hle
        · right
          have hle' : (unitsOf x.reloadedMagnitude + 2 ^ s : ℚ) ≤ x.units := by exact_mod_cast hle
          linarith
        · left
          have hle' : (x.units + 2 ^ s : ℚ) ≤ unitsOf x.reloadedMagnitude := by exact_mod_cast hle
          linarith
      have hreach :=
        (mul_le_mul_of_nonneg_right hgap billion_cast_pos.le).trans x.abs_reloaded_sub_le
      have hfar : (unitsInOne : ℚ) < 2 ^ s * billion := by
        rw [hsplit, Nat.mul_comm]
        exact_mod_cast Nat.mul_lt_mul_of_pos_left (by decide) (Nat.two_pow_pos s)
      exact absurd hreach hfar.not_ge
  rw [reload_eq hx, unitsOf_strictMono.injective (hunits.trans x.units_eq), ofMagnitude_magnitude]

/-- Below, what is read is written as the number was. -/
theorem billionths_reload_of_le (hx : x.isFinite) (h : x.units ≤ 2 ^ 23 * unitsInOne) :
    x.reload.billionths = x.billionths := by
  obtain ⟨s, hs⟩ : ∃ s, 30 + s = 1074 := ⟨1044, rfl⟩
  have hsplit := unitsInOne_eq hs
  have hpos : 0 < billion * 2 ^ s := Nat.mul_pos (by decide) (Nat.two_pow_pos s)
  have hk : x.billionths ≤ 2 ^ 23 * billion := by
    apply billionths_le
    calc x.units * billion ≤ 2 ^ 23 * unitsInOne * billion := Nat.mul_le_mul_right _ h
      _ = 2 ^ 23 * billion * unitsInOne := by ring
  -- The multiples of `2^s` units are magnitudes up to here, and less than 10⁻⁹ apart.
  obtain ⟨m, hm⟩ : ∃ m, unitsOf m =
      roundDiv (x.billionths * unitsInOne) (billion * 2 ^ s) * 2 ^ s := by
    apply exists_unitsOf
    apply roundDiv_le hpos
    calc x.billionths * unitsInOne ≤ 2 ^ 23 * billion * unitsInOne := Nat.mul_le_mul_right _ hk
      _ = 2 ^ 53 * (billion * 2 ^ s) := by rw [hsplit]; ring
  have hgrid := abs_roundDiv_le (x.billionths * unitsInOne) hpos
  have hread := mul_le_mul_of_nonneg_right (x.reloadedMagnitude_nearest.le m) billion_cast_pos.le
  rw [abs_sub_div_mul billion_cast_pos, abs_sub_div_mul billion_cast_pos, hm] at hread
  rw [billionths_eq, units_reload hx]
  apply roundDiv_eq unitsInOne_pos
  rw [abs_sub_comm, Nat.cast_mul]
  refine hread.trans_lt ?_
  push_cast at hgrid ⊢
  rw [mul_right_comm, mul_assoc]
  refine hgrid.trans_lt ?_
  have hgap : (billion * 2 ^ s : ℚ) < unitsInOne := by
    rw [hsplit]
    exact_mod_cast Nat.mul_lt_mul_of_pos_right (by decide) (Nat.two_pow_pos s)
  linarith

theorem billionths_reload (hx : x.isFinite) : x.reload.billionths = x.billionths := by
  rcases Nat.le_total x.units (2 ^ 23 * unitsInOne) with h | h
  · exact billionths_reload_of_le hx h
  · rw [reload_of_le hx h]

theorem toFixed_reload (hx : x.isFinite) : x.reload.toFixed = x.toFixed := by
  rw [toFixed, toFixed, billionths_reload hx, isNegative_reload hx]

/-! ### Both roundings -/

theorem abs_toRat (x : Binary64) : |x.toRat| = x.units / unitsInOne := by
  rw [toRat, abs_mul, abs_signFactor, one_mul,
    abs_of_nonneg (div_nonneg (Nat.cast_nonneg _) unitsInOne_cast_pos.le)]

theorem reload_of_le_abs (hx : x.isFinite) (h : 2 ^ 23 ≤ |x.toRat|) : x.reload = x := by
  apply reload_of_le hx
  rw [abs_toRat, le_div_iff₀ unitsInOne_cast_pos] at h
  exact_mod_cast h

/-- `y` is what becomes of `x` when it is written and read: the finite number nearest to the
    multiple of 10⁻⁹ that is nearest to `x`, with the sign of `x` also where it is zero. -/
structure IsReload (x y : Binary64) : Prop where
  finite : y.isFinite
  negative : y.isNegative = x.isNegative
  rounded : ∃ k : ℤ, NearestEven (fun j : ℤ => (j : ℚ) / billion) Even x.toRat k ∧
    NearestEven (fun z : {z : Binary64 // z.isFinite} => z.1.toRat) (fun z => Even z.1.bits.toNat)
      ((k : ℚ) / billion) ⟨y, finite⟩ ∧
    (k = 0 → y.isZero)

theorem isReload_reload (hx : x.isFinite) : IsReload x x.reload where
  finite := isFinite_reload hx
  negative := isNegative_reload hx
  rounded := by
    refine ⟨x.signedBillionths, billionths_nearest x, reload_nearest hx, fun hk => ?_⟩
    have hzero : x.billionths = 0 := by
      unfold signedBillionths at hk
      split at hk <;> omega
    rw [reload_of_billionths_eq_zero hzero, isZero, magnitude_ofMagnitude (by decide)]
    rfl

/-! ### One result -/

theorem billionths_unique {r : ℚ} {k l : ℤ}
    (hk : NearestEven (fun j : ℤ => (j : ℚ) / billion) Even r k)
    (hl : NearestEven (fun j : ℤ => (j : ℚ) / billion) Even r l) : k = l := by
  have hbetween : ∀ {i j : ℤ}, Even i → Even j → (i : ℚ) / billion < (j : ℚ) / billion →
      ∃ m : ℤ, (i : ℚ) / billion < (m : ℚ) / billion ∧ (m : ℚ) / billion < (j : ℚ) / billion := by
    intro i j hi hj hij
    rw [div_lt_div_iff_of_pos_right billion_cast_pos, Int.cast_lt] at hij
    obtain ⟨a, rfl⟩ := hi
    obtain ⟨b, rfl⟩ := hj
    refine ⟨a + a + 1, ?_⟩
    rw [div_lt_div_iff_of_pos_right billion_cast_pos, div_lt_div_iff_of_pos_right billion_cast_pos,
      Int.cast_lt, Int.cast_lt]
    omega
  have heq := le_antisymm (not_lt.mp (hl.not_lt hk hbetween)) (not_lt.mp (hk.not_lt hl hbetween))
  exact_mod_cast (div_left_inj' billion_cast_pos.ne').mp heq

theorem toRat_ofMagnitude {negative : Bool} {m : ℕ} (hm : m < infinity) :
    (ofMagnitude negative m).toRat = signFactor negative * (unitsOf m / unitsInOne) := by
  have hm' := hm.trans infinity_lt
  rw [toRat, units_eq, isNegative_ofMagnitude hm', magnitude_ofMagnitude hm']

theorem unitsOf_div_lt_iff {m n : ℕ} :
    (unitsOf m / unitsInOne : ℚ) < unitsOf n / unitsInOne ↔ m < n := by
  rw [div_lt_div_iff_of_pos_right unitsInOne_cast_pos]
  exact unitsOf_cast_strictMono.lt_iff_lt

/-- Between two numbers of one sign, both with even bits, there is another. -/
theorem exists_between {y z : Binary64} (hy : y.isFinite) (hz : z.isFinite)
    (hsign : y.isNegative = z.isNegative) (hyeven : Even y.bits.toNat) (hzeven : Even z.bits.toNat)
    (hlt : y.toRat < z.toRat) :
    ∃ w : Binary64, w.isFinite ∧ y.toRat < w.toRat ∧ w.toRat < z.toRat := by
  rw [even_bits_iff] at hyeven hzeven
  rw [isFinite_iff] at hy hz
  rw [← y.ofMagnitude_magnitude, ← z.ofMagnitude_magnitude, ← hsign, toRat_ofMagnitude hy,
    toRat_ofMagnitude hz] at hlt ⊢
  have hfinite : ∀ {m : ℕ}, m < infinity → (ofMagnitude y.isNegative m).isFinite := by
    intro m hm
    rwa [isFinite_iff, magnitude_ofMagnitude (hm.trans infinity_lt)]
  obtain ⟨a, ha⟩ := hyeven
  obtain ⟨b, hb⟩ := hzeven
  cases hneg : y.isNegative with
  | false =>
    rw [hneg] at hlt hfinite
    simp only [signFactor, Bool.false_eq_true, if_false, one_mul, unitsOf_div_lt_iff] at hlt
    have hm : y.magnitude + 1 < infinity := by omega
    refine ⟨_, hfinite hm, ?_⟩
    simp only [toRat_ofMagnitude hm, signFactor, Bool.false_eq_true, if_false, one_mul,
      unitsOf_div_lt_iff]
    omega
  | true =>
    rw [hneg] at hlt hfinite
    simp only [signFactor, if_true, neg_mul, one_mul, neg_lt_neg_iff, unitsOf_div_lt_iff] at hlt
    have hm : z.magnitude + 1 < infinity := by omega
    refine ⟨_, hfinite hm, ?_⟩
    simp only [toRat_ofMagnitude hm, signFactor, if_true, neg_mul, one_mul, neg_lt_neg_iff,
      unitsOf_div_lt_iff]
    omega

theorem eq_of_toRat_eq {y z : Binary64} (hsign : y.isNegative = z.isNegative)
    (h : y.toRat = z.toRat) : y = z := by
  have hunits : (y.units : ℚ) / unitsInOne = z.units / unitsInOne := by
    have habs := congrArg abs h
    rwa [abs_toRat, abs_toRat] at habs
  have hmagnitude : y.magnitude = z.magnitude :=
    unitsOf_strictMono.injective
      (Nat.cast_injective ((div_left_inj' unitsInOne_cast_pos.ne').mp hunits))
  rw [← y.ofMagnitude_magnitude, ← z.ofMagnitude_magnitude, hsign, hmagnitude]

/-- What becomes of a number is one number. -/
theorem IsReload.unique {y z : Binary64} (hy : IsReload x y) (hz : IsReload x z) : y = z := by
  obtain ⟨k, hk, hky, -⟩ := hy.rounded
  obtain ⟨l, hl, hlz, -⟩ := hz.rounded
  obtain rfl := billionths_unique hk hl
  have hsign : y.isNegative = z.isNegative := hy.negative.trans hz.negative.symm
  have hyz := hky.not_lt hlz fun hyeven hzeven hlt => by
    obtain ⟨w, hw, hbetween⟩ := exists_between hy.finite hz.finite hsign hyeven hzeven hlt
    exact ⟨⟨w, hw⟩, hbetween⟩
  have hzy := hlz.not_lt hky fun hzeven hyeven hlt => by
    obtain ⟨w, hw, hbetween⟩ := exists_between hz.finite hy.finite hsign.symm hzeven hyeven hlt
    exact ⟨⟨w, hw⟩, hbetween⟩
  exact eq_of_toRat_eq hsign (le_antisymm (not_lt.mp hzy) (not_lt.mp hyz))

end EvaluatorGen.Binary64
