import EvaluatorGen.Binary64.Rounding
import EvaluatorGen.Proofs.Binary64.Magnitude
import Mathlib.Algebra.Order.Field.Rat
import Mathlib.Tactic.FieldSimp
import Mathlib.Tactic.Linarith
import Mathlib.Tactic.NormNum
import Mathlib.Tactic.Positivity

/-!
Rounding to nearest, ties to even.

`NearestEven` says what rounding is for: of some numbers, none is nearer, and one that is as near
leaves the even one. It does not say how to compute it.

1. `roundDiv_nearest`: a rounded quotient is the nearest multiple.
2. `roundedMagnitude_nearest`: a quotient that is rounded at 53 bits is the nearest of all
   magnitudes, those of other exponents included.
3. `nearestMagnitude_eq`: that is what a decimal is read as, unless it is too large.
-/
namespace EvaluatorGen

/-! ### Nearest, ties to even -/

theorem abs_sub_lt_of_lt_of_le {u v x : ℚ} (huv : u < v) (hv : v ≤ x) : |v - x| < |u - x| := by
  rw [abs_of_nonpos (sub_nonpos.mpr hv), abs_of_neg (sub_neg.mpr (huv.trans_le hv))]
  linarith

theorem abs_sub_div_mul {c : ℚ} (hc : 0 < c) (u a : ℚ) : |u - a / c| * c = |u * c - a| := by
  rw [← abs_of_pos hc, ← abs_mul, abs_of_pos hc, sub_mul, div_mul_cancel₀ _ hc.ne']

/-- Of the numbers `value j` none is nearer to `x` than `value i`, and if another one is as near,
    then `i` is even. -/
def NearestEven {ι : Type} (value : ι → ℚ) (even : ι → Prop) (x : ℚ) (i : ι) : Prop :=
  ∀ j, |value i - x| ≤ |value j - x| ∧
    (value j ≠ value i → |value j - x| = |value i - x| → even i)

namespace NearestEven

variable {ι : Type} {value : ι → ℚ} {even : ι → Prop} {x : ℚ} {i : ι}

theorem le (h : NearestEven value even x i) (j : ι) : |value i - x| ≤ |value j - x| := (h j).1

theorem div (h : NearestEven value even x i) {c : ℚ} (hc : 0 < c) :
    NearestEven (fun j => value j / c) even (x / c) i := by
  intro j
  obtain ⟨hle, heven⟩ := h j
  simp only [← sub_div, abs_div, abs_of_pos hc]
  refine ⟨div_le_div_of_nonneg_right hle hc.le, fun hne heq => heven ?_ ?_⟩
  · exact fun heq => hne (congrArg (· / c) heq)
  · exact (div_left_inj' hc.ne').mp heq

/-- Some of the numbers, given by other indices. -/
theorem comap (h : NearestEven value even x i) {κ : Type} {value' : κ → ℚ} {even' : κ → Prop}
    (f : κ → ι) {k : κ} (hk : f k = i) (hvalue : ∀ j, value' j = value (f j))
    (heven : even i → even' k) : NearestEven value' even' x k := by
  intro j
  rw [hvalue, hvalue, hk]
  exact ⟨h.le _, fun hne heq => heven ((h (f j)).2 hne heq)⟩

/-- On a grid, whatever is at most half a step away is nearest. -/
theorem of_grid {g : ℚ} (hg : 0 < g) {c : ℤ} (hc : |c * g - x| ≤ g / 2)
    (heven : |c * g - x| = g / 2 → Even c) : NearestEven (fun j : ℤ => j * g) Even x c := by
  intro j
  by_cases hj : j = c
  · subst hj
    exact ⟨le_rfl, fun h => absurd rfl h⟩
  · have hstep : g ≤ |j * g - c * g| := by
      have hone : (1 : ℚ) ≤ |(j : ℚ) - c| := by
        exact_mod_cast Int.one_le_abs (sub_ne_zero.mpr hj)
      rw [← sub_mul, abs_mul, abs_of_pos hg]
      exact le_mul_of_one_le_left hg.le hone
    have htri : |j * g - c * g| ≤ |j * g - x| + |c * g - x| := by
      rw [abs_sub_comm (c * g) x]
      exact abs_sub_le _ _ _
    refine ⟨by linarith, fun _ heq => heven ?_⟩
    linarith

/-- With larger numbers further on, rounding does not pass a number that is not below `x`. -/
theorem le_of_le {value : ℕ → ℚ} {even : ℕ → Prop} (hmono : StrictMono value) {i j : ℕ}
    (h : NearestEven value even x i) (hj : x ≤ value j) : i ≤ j := by
  by_contra hlt
  have hval : value j < value i := hmono (Nat.lt_of_not_le hlt)
  have hle := h.le j
  rw [abs_of_nonneg (by linarith), abs_of_nonneg (by linarith)] at hle
  linarith

/-- Two different numbers are not both nearest, if between two of even index there is another. -/
theorem not_lt {j : ι} (h : NearestEven value even x i) (h' : NearestEven value even x j)
    (hbetween : even i → even j → value i < value j →
      ∃ k, value i < value k ∧ value k < value j) : ¬ value i < value j := by
  intro hlt
  have heq : |value i - x| = |value j - x| := le_antisymm (h.le j) (h'.le i)
  obtain ⟨k, hik, hkj⟩ := hbetween ((h j).2 hlt.ne' heq.symm) ((h' i).2 hlt.ne heq) hlt
  have hmid : value i - x = -(value j - x) := by
    rcases abs_eq_abs.mp heq with hsame | hopposite
    · linarith
    · exact hopposite
  have hnear : |value k - x| < |value i - x| := by
    rw [abs_of_neg (show value i - x < 0 by linarith), abs_lt]
    exact ⟨by linarith, by linarith⟩
  exact absurd (h.le k) hnear.not_ge

end NearestEven

/-! ### Signs -/

/-- The sign of a number, as a factor. -/
def signFactor (negative : Bool) : ℚ := if negative then -1 else 1

theorem abs_signFactor (s : Bool) : |signFactor s| = 1 := by
  cases s <;> norm_num [signFactor]

theorem abs_signFactor_mul_sub (s : Bool) (u v : ℚ) :
    |signFactor s * u - signFactor s * v| = |u - v| := by
  rw [← mul_sub, abs_mul, abs_signFactor, one_mul]

/-- Numbers of different signs are apart by the sum of their magnitudes. -/
theorem abs_signFactor_mul_sub_of_ne {s t : Bool} (h : t ≠ s) {u v : ℚ} (hu : 0 ≤ u)
    (hv : 0 ≤ v) : |signFactor t * u - signFactor s * v| = u + v := by
  obtain rfl : t = !s := Bool.eq_not_of_ne h
  have hneg : signFactor (!s) * u - signFactor s * v = signFactor (!s) * (u + v) := by
    unfold signFactor
    cases s with
    | false => simp only [Bool.not_false, if_true, Bool.false_eq_true, if_false]; ring
    | true => simp only [Bool.not_true, if_true, Bool.false_eq_true, if_false]; ring
  rw [hneg, abs_mul, abs_signFactor, one_mul, abs_of_nonneg (add_nonneg hu hv)]

theorem NearestEven.sign {ι : Type} {value : ι → ℚ} {even : ι → Prop} {x : ℚ} {i : ι}
    (h : NearestEven value even x i) (s : Bool) :
    NearestEven (fun j => signFactor s * value j) even (signFactor s * x) i := by
  intro j
  simp only [abs_signFactor_mul_sub]
  exact ⟨h.le j, fun hne heq => (h j).2 (fun hv => hne (hv ▸ rfl)) heq⟩

/-- What is nearest to a magnitude is so with its sign, among the numbers of either sign. -/
theorem NearestEven.signed {ι : Type} {value : ι → ℚ} {even : ι → Prop} {x : ℚ} {i z : ι}
    (h : NearestEven value even x i) (hx : 0 ≤ x) (hvalue : ∀ j, 0 ≤ value j) (hz : value z = 0)
    (s : Bool) :
    NearestEven (fun j : Bool × ι => signFactor j.1 * value j.2) (fun j => even j.2)
      (signFactor s * x) (s, i) := by
  rintro ⟨t, j⟩
  by_cases hts : t = s
  · subst hts
    exact h.sign t j
  · dsimp only
    rw [abs_signFactor_mul_sub, abs_signFactor_mul_sub_of_ne hts (hvalue j) hx]
    have hzero := h z
    rw [hz, zero_sub, abs_neg, abs_of_nonneg hx] at hzero
    have hj := hvalue j
    refine ⟨by linarith, fun hne heq => ?_⟩
    -- As near on the other side of zero means zero itself.
    have hvj : value j = 0 := by linarith
    refine hzero.2 (fun hvi => hne ?_) (by linarith)
    rw [hvj, ← hvi, mul_zero, mul_zero]

/-! ### Rounded quotients -/

section RoundDiv

open Binary64 (mul_add_le_of_lt)

variable {a d c : ℕ}

theorem roundDiv_spec (a : ℕ) (hd : 0 < d) :
    2 * a ≤ 2 * (roundDiv a d * d) + d ∧ 2 * (roundDiv a d * d) ≤ 2 * a + d ∧
      (2 * a = 2 * (roundDiv a d * d) + d ∨ 2 * (roundDiv a d * d) = 2 * a + d →
        roundDiv a d % 2 = 0) := by
  have hdiv := Nat.div_add_mod a d
  have hmod := Nat.mod_lt a hd
  generalize hc : roundDiv a d = c
  unfold roundDiv at hc
  dsimp only at hc
  generalize a / d = q at *
  generalize a % d = r at *
  have hq : q * d = d * q := Nat.mul_comm q d
  have hstep : (q + 1) * d = d * q + d := by rw [Nat.succ_mul, hq]
  -- Either way the product with `d` is a known one.
  split at hc
  · subst hc
    omega
  · split at hc
    · subst hc
      omega
    · split at hc
      · subst hc
        omega
      · subst hc
        omega

theorem roundDiv_le (hd : 0 < d) (h : a ≤ c * d) : roundDiv a d ≤ c := by
  by_contra hlt
  obtain ⟨-, hle, htie⟩ := roundDiv_spec a hd
  have hmul := mul_add_le_of_lt (Nat.lt_of_not_le hlt) d
  omega

theorem le_roundDiv (hd : 0 < d) (h : c * d ≤ a) : c ≤ roundDiv a d := by
  by_contra hlt
  obtain ⟨hle, -, htie⟩ := roundDiv_spec a hd
  have hmul := mul_add_le_of_lt (Nat.lt_of_not_le hlt) d
  omega

/-- Nothing but the result is less than half a step away. -/
theorem roundDiv_eq (hd : 0 < d) (h : |(c * d : ℚ) - a| < d / 2) : roundDiv a d = c := by
  obtain ⟨hlo, hhi⟩ := abs_lt.mp h
  have hlo' : 2 * a < 2 * (c * d) + d := by
    have hq : (2 * a : ℚ) < 2 * (c * d) + d := by linarith
    exact_mod_cast hq
  have hhi' : 2 * (c * d) < 2 * a + d := by
    have hq : (2 * (c * d) : ℚ) < 2 * a + d := by linarith
    exact_mod_cast hq
  obtain ⟨hle, hle', -⟩ := roundDiv_spec a hd
  refine Nat.le_antisymm ?_ ?_
  · by_contra hlt
    have hmul := mul_add_le_of_lt (Nat.lt_of_not_le hlt) d
    omega
  · by_contra hlt
    have hmul := mul_add_le_of_lt (Nat.lt_of_not_le hlt) d
    omega

theorem abs_roundDiv_le (a : ℕ) (hd : 0 < d) : |(roundDiv a d * d : ℚ) - a| ≤ d / 2 := by
  obtain ⟨hlo, hhi, -⟩ := roundDiv_spec a hd
  have hlo' : (2 * a : ℚ) ≤ 2 * (roundDiv a d * d) + d := by exact_mod_cast hlo
  have hhi' : (2 * (roundDiv a d * d) : ℚ) ≤ 2 * a + d := by exact_mod_cast hhi
  exact abs_le.mpr ⟨by linarith, by linarith⟩

theorem even_roundDiv (hd : 0 < d) (h : |(roundDiv a d * d : ℚ) - a| = d / 2) :
    Even (roundDiv a d) := by
  refine Nat.even_iff.mpr ((roundDiv_spec a hd).2.2 ?_)
  rcases (abs_eq (by positivity)).mp h with heq | heq
  · right
    have hq : (2 * (roundDiv a d * d) : ℚ) = 2 * a + d := by linarith
    exact_mod_cast hq
  · left
    have hq : (2 * a : ℚ) = 2 * (roundDiv a d * d) + d := by linarith
    exact_mod_cast hq

/-- A quotient that is rounded to a multiple of `g` is the nearest multiple. -/
theorem roundDiv_nearest (a : ℕ) {g : ℕ} (hd : 0 < d) (hg : 0 < g) :
    NearestEven (fun j : ℤ => j * (g : ℚ)) Even (a / d) (roundDiv a (d * g)) := by
  have hd' : (0 : ℚ) < d := Nat.cast_pos.mpr hd
  have hg' : (0 : ℚ) < g := Nat.cast_pos.mpr hg
  have hdg : 0 < d * g := Nat.mul_pos hd hg
  have hscale : |((roundDiv a (d * g) : ℤ) : ℚ) * g - a / d| * d =
      |(roundDiv a (d * g) * (d * g : ℕ) : ℚ) - a| := by
    rw [abs_sub_div_mul hd']
    push_cast
    rw [mul_assoc, mul_comm (g : ℚ)]
  have hstep : ((d * g : ℕ) : ℚ) / 2 = g / 2 * d := by
    push_cast
    ring
  refine NearestEven.of_grid hg' ?_ ?_
  · refine le_of_mul_le_mul_right ?_ hd'
    rw [hscale, ← hstep]
    exact abs_roundDiv_le a hdg
  · intro heq
    refine (Int.even_coe_nat _).mpr (even_roundDiv hdg ?_)
    rw [← hscale, heq, hstep]

end RoundDiv

/-! ### Magnitudes -/

namespace Binary64

variable {a d : ℕ}

/-- How many bits are rounded away for 53 to be left. -/
def shift (a d : ℕ) : ℕ := Nat.log2 (a / d) - 52

/-- The magnitude that a quotient is rounded to, without a bound. -/
def roundedMagnitude (a d : ℕ) : ℕ := shift a d * 2 ^ 52 + roundDiv a (d * 2 ^ shift a d)

theorem nearestMagnitude_eq (num den : ℕ) :
    nearestMagnitude num den = min (roundedMagnitude (num * unitsInOne) den) infinity := by
  unfold nearestMagnitude unitsInOne
  generalize Nat.pow 2 1074 = e
  rfl

theorem shift_spec (hd : 0 < d) :
    a ≤ 2 ^ 53 * (d * 2 ^ shift a d) ∧ (shift a d = 0 ∨ 2 ^ 52 * (d * 2 ^ shift a d) ≤ a) := by
  have hlt : a / d < 2 ^ (Nat.log2 (a / d) + 1) := Nat.lt_log2_self
  have hle : a / d ≠ 0 → 2 ^ Nat.log2 (a / d) ≤ a / d := Nat.log2_self_le
  unfold shift
  refine ⟨?_, ?_⟩
  · have hpow : 2 ^ (Nat.log2 (a / d) + 1) ≤ 2 ^ 53 * 2 ^ (Nat.log2 (a / d) - 52) := by
      rw [← Nat.pow_add]
      exact Nat.pow_le_pow_right Nat.two_pos (by omega)
    have hdiv : a < 2 ^ 53 * 2 ^ (Nat.log2 (a / d) - 52) * d :=
      (Nat.div_lt_iff_lt_mul hd).mp (Nat.lt_of_lt_of_le hlt hpow)
    exact hdiv.le.trans_eq (by ring)
  · by_cases hs : Nat.log2 (a / d) - 52 = 0
    · exact .inl hs
    · right
      have hne : a / d ≠ 0 := by
        intro hzero
        rw [hzero, Nat.log2_zero] at hs
        exact hs rfl
      have hpow : 2 ^ 52 * 2 ^ (Nat.log2 (a / d) - 52) = 2 ^ Nat.log2 (a / d) := by
        rw [← Nat.pow_add]
        congr 1
        omega
      have hdiv : 2 ^ 52 * 2 ^ (Nat.log2 (a / d) - 52) * d ≤ a :=
        (Nat.le_div_iff_mul_le hd).mp (hpow ▸ hle hne)
      exact le_of_eq_of_le (by ring) hdiv

theorem unitsOf_roundedMagnitude (a : ℕ) (hd : 0 < d) :
    unitsOf (roundedMagnitude a d) = roundDiv a (d * 2 ^ shift a d) * 2 ^ shift a d := by
  obtain ⟨hle, hlead⟩ := @shift_spec a d hd
  have hdg : 0 < d * 2 ^ shift a d := Nat.mul_pos hd (Nat.two_pow_pos _)
  exact unitsOf_scaled ⟨roundDiv_le hdg hle, hlead.imp_right (le_roundDiv hdg)⟩

theorem unitsOf_cast_strictMono : StrictMono fun m => (unitsOf m : ℚ) :=
  Nat.strictMono_cast.comp unitsOf_strictMono

theorem roundedMagnitude_nearest (a : ℕ) (hd : 0 < d) :
    NearestEven (fun m => (unitsOf m : ℚ)) Even (a / d) (roundedMagnitude a d) := by
  intro m
  have hgrid := roundDiv_nearest a hd (Nat.two_pow_pos (shift a d))
  have hvalue : (unitsOf (roundedMagnitude a d) : ℚ) =
      ((roundDiv a (d * 2 ^ shift a d) : ℤ) : ℚ) * (2 ^ shift a d : ℕ) := by
    rw [unitsOf_roundedMagnitude a hd]
    push_cast
    rfl
  have hd' : (0 : ℚ) < d := Nat.cast_pos.mpr hd
  have hcases : 2 ^ shift a d ∣ unitsOf m ∨
      unitsOf m < 2 ^ 52 * 2 ^ shift a d ∧ 2 ^ 52 * (d * 2 ^ shift a d) ≤ a := by
    rcases (@shift_spec a d hd).2 with hs | hge
    · rw [hs]
      exact .inl (one_dvd _)
    · exact (dvd_unitsOf_or_lt _ m).imp_right fun hlt => ⟨hlt, hge⟩
  simp only [hvalue]
  rcases hcases with ⟨t, ht⟩ | ⟨hlt, hge⟩
  · -- The other magnitude is on the grid.
    obtain ⟨hle, heven⟩ := hgrid t
    have hm : (unitsOf m : ℚ) = ((t : ℤ) : ℚ) * (2 ^ shift a d : ℕ) := by
      rw [ht]
      push_cast
      ring
    rw [hm]
    refine ⟨hle, fun hne heq => ?_⟩
    have hsig := (Int.even_coe_nat _).mp (heven hne heq)
    exact ((Nat.even_pow.mpr ⟨even_two, by norm_num⟩).mul_left _).add hsig
  · -- It is below the least of the grid, which is not above the quotient.
    have hlow : ((2 ^ 52 : ℤ) : ℚ) * (2 ^ shift a d : ℕ) ≤ a / d := by
      rw [le_div_iff₀ hd']
      have hcast : (2 ^ 52 * (d * 2 ^ shift a d : ℕ) : ℚ) ≤ a := by exact_mod_cast hge
      refine le_of_eq_of_le ?_ hcast
      push_cast
      ring
    have hlt' : (unitsOf m : ℚ) < ((2 ^ 52 : ℤ) : ℚ) * (2 ^ shift a d : ℕ) := by
      exact_mod_cast hlt
    have hle := hgrid.le (2 ^ 52)
    have hfar := hle.trans_lt (abs_sub_lt_of_lt_of_le hlt' hlow)
    exact ⟨hfar.le, fun _ heq => absurd heq hfar.ne'⟩

end Binary64

end EvaluatorGen
