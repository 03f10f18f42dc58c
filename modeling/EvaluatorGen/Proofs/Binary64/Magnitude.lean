import EvaluatorGen.Binary64.Basic
import Mathlib.Data.Nat.Basic
import Mathlib.Order.Monotone.Basic
import Mathlib.Tactic.Ring

/-!
Magnitudes and their units.

1. `exists_scaled`, `unitsOf_scaled`: the bits of a magnitude are `s · 2⁵² + sig`, and it counts
   `sig · 2^s` units. The form is not unique: `2⁵³` units of one scale are `2⁵²` of the next.
2. `unitsOf_strictMono`: a magnitude with greater bits is a greater number.
3. `dvd_unitsOf_or_lt` and `exists_unitsOf`: at `2⁵² · 2^s` and above only multiples of `2^s`
   are magnitudes, and up to `2⁵³ · 2^s` all of them are.
4. `ofMagnitude_magnitude`: a number is its sign and its magnitude.
-/
namespace EvaluatorGen.Binary64

/-! ### Scaled significands -/

/-- The units of a magnitude. -/
def unitsOf (m : Nat) : Nat :=
  if m / 2 ^ 52 = 0 then m % 2 ^ 52 else (2 ^ 52 + m % 2 ^ 52) * 2 ^ (m / 2 ^ 52 - 1)

theorem units_eq (x : Binary64) : x.units = unitsOf x.magnitude := rfl

/-- A significand with its scale. One that is scaled at all has its leading bit. -/
structure IsScaled (s sig : Nat) : Prop where
  le : sig ≤ 2 ^ 53
  lead : s = 0 ∨ 2 ^ 52 ≤ sig

theorem unitsOf_scaled {s sig : Nat} (h : IsScaled s sig) :
    unitsOf (s * 2 ^ 52 + sig) = sig * 2 ^ s := by
  obtain ⟨hle, hlead⟩ := h
  unfold unitsOf
  rcases Nat.lt_or_ge sig (2 ^ 52) with hlt | hge
  · obtain rfl : s = 0 := by omega
    have hdiv : (0 * 2 ^ 52 + sig) / 2 ^ 52 = 0 := by omega
    rw [if_pos hdiv]
    omega
  · rcases Nat.lt_or_ge sig (2 ^ 53) with hlt' | hge'
    · have hdiv : (s * 2 ^ 52 + sig) / 2 ^ 52 = s + 1 := by omega
      have hmod : 2 ^ 52 + (s * 2 ^ 52 + sig) % 2 ^ 52 = sig := by omega
      rw [hdiv, if_neg (Nat.succ_ne_zero s), hmod, Nat.add_sub_cancel]
    · -- The carry into the exponent doubles the scale.
      obtain rfl : sig = 2 ^ 53 := by omega
      have hdiv : (s * 2 ^ 52 + 2 ^ 53) / 2 ^ 52 = s + 2 := by omega
      have hmod : (s * 2 ^ 52 + 2 ^ 53) % 2 ^ 52 = 0 := by omega
      have hexp : s + 2 - 1 = s + 1 := rfl
      rw [hdiv, if_neg (Nat.succ_ne_zero _), hmod, hexp, Nat.pow_succ]
      ring

theorem exists_scaled (m : Nat) :
    ∃ s sig, IsScaled s sig ∧ sig < 2 ^ 53 ∧ m = s * 2 ^ 52 + sig := by
  by_cases h : m / 2 ^ 52 = 0
  · exact ⟨0, m, ⟨by omega, .inl rfl⟩, by omega, by omega⟩
  · exact ⟨m / 2 ^ 52 - 1, 2 ^ 52 + m % 2 ^ 52, ⟨by omega, .inr (by omega)⟩, by omega, by omega⟩

/-! ### Order -/

theorem unitsOf_lt_succ (m : Nat) : unitsOf m < unitsOf (m + 1) := by
  obtain ⟨s, sig, h, hlt, rfl⟩ := exists_scaled m
  have hnext : IsScaled s (sig + 1) := ⟨hlt, h.lead.imp_right Nat.le_succ_of_le⟩
  rw [Nat.add_assoc, unitsOf_scaled h, unitsOf_scaled hnext, Nat.succ_mul]
  exact Nat.lt_add_of_pos_right (Nat.two_pow_pos s)

theorem unitsOf_strictMono : StrictMono unitsOf := strictMono_nat_of_lt_succ unitsOf_lt_succ

theorem unitsOf_zero : unitsOf 0 = 0 := rfl

/-- The units that make one. -/
def unitsInOne : Nat := Nat.pow 2 1074

theorem unitsInOne_eq {i j : Nat} (h : i + j = 1074) : unitsInOne = 2 ^ i * 2 ^ j := by
  unfold unitsInOne
  rw [← h]
  exact Nat.pow_add 2 i j

theorem two_pow_add_eq (n : Nat) : 2 ^ (n + 1074) = 2 ^ n * unitsInOne := by
  unfold unitsInOne
  generalize 1074 = k
  exact Nat.pow_add 2 n k

theorem unitsInOne_pos : 0 < unitsInOne := by
  unfold unitsInOne
  generalize 1074 = n
  exact Nat.two_pow_pos n

/-! ### Grids -/

theorem dvd_unitsOf_or_lt (s m : Nat) : 2 ^ s ∣ unitsOf m ∨ unitsOf m < 2 ^ 52 * 2 ^ s := by
  obtain ⟨t, sig, h, hlt, rfl⟩ := exists_scaled m
  rw [unitsOf_scaled h]
  rcases Nat.lt_or_ge t s with hts | hst
  · right
    have hpow : 2 ^ 53 * 2 ^ t ≤ 2 ^ 52 * 2 ^ s := by
      have hle : 2 ^ (t + 1) ≤ 2 ^ s := Nat.pow_le_pow_right Nat.two_pos hts
      rw [Nat.pow_succ] at hle
      omega
    exact Nat.lt_of_lt_of_le (Nat.mul_lt_mul_of_pos_right hlt (Nat.two_pow_pos t)) hpow
  · exact .inl (Dvd.dvd.mul_left (Nat.pow_dvd_pow 2 hst) sig)

theorem mul_add_le_of_lt {i j : Nat} (h : i < j) (d : Nat) : i * d + d ≤ j * d := by
  rw [← Nat.succ_mul]
  exact Nat.mul_le_mul_right d h

/-- So above that, other magnitudes are at least one step of the grid away. -/
theorem unitsOf_add_le_or {s m n : Nat} (hm : 2 ^ 52 * 2 ^ s < unitsOf m)
    (hne : unitsOf n ≠ unitsOf m) :
    unitsOf n + 2 ^ s ≤ unitsOf m ∨ unitsOf m + 2 ^ s ≤ unitsOf n := by
  obtain ⟨j, hj⟩ := (dvd_unitsOf_or_lt s m).resolve_right (Nat.lt_asymm hm)
  rw [Nat.mul_comm] at hj
  rw [hj] at hm hne ⊢
  rcases dvd_unitsOf_or_lt s n with ⟨i, hi⟩ | hlt
  · rw [Nat.mul_comm] at hi
    rw [hi] at hne ⊢
    rcases Nat.lt_trichotomy i j with hij | rfl | hij
    · exact .inl (mul_add_le_of_lt hij _)
    · exact absurd rfl hne
    · exact .inr (mul_add_le_of_lt hij _)
  · -- The other one is below the grid, whose least multiple is still below this one.
    have hle := mul_add_le_of_lt (Nat.lt_of_mul_lt_mul_right hm) (2 ^ s)
    exact .inl ((Nat.add_le_add_right hlt.le _).trans hle)

theorem exists_unitsOf (s : Nat) {j : Nat} (hj : j ≤ 2 ^ 53) : ∃ m, unitsOf m = j * 2 ^ s := by
  induction s generalizing j with
  | zero => exact ⟨0 * 2 ^ 52 + j, unitsOf_scaled ⟨hj, .inl rfl⟩⟩
  | succ s ih =>
    by_cases hlead : 2 ^ 52 ≤ j
    · exact ⟨(s + 1) * 2 ^ 52 + j, unitsOf_scaled ⟨hj, .inr hlead⟩⟩
    · -- Without its leading bit, the significand is a greater one of the scale below.
      obtain ⟨m, hm⟩ := @ih (2 * j) (by omega)
      refine ⟨m, ?_⟩
      rw [hm, Nat.pow_succ]
      ring

/-! ### Sign and magnitude -/

variable {negative : Bool} {m : Nat}

theorem bits_ofMagnitude (hm : m < 2 ^ 63) :
    (ofMagnitude negative m).bits.toNat = m + if negative then 2 ^ 63 else 0 := by
  have hlt : (m + if negative then 2 ^ 63 else 0) < 2 ^ 64 := by
    split <;> omega
  exact UInt64.toNat_ofNat_of_lt' hlt

theorem magnitude_ofMagnitude (hm : m < 2 ^ 63) : (ofMagnitude negative m).magnitude = m := by
  rw [magnitude, bits_ofMagnitude hm, Nat.pow_eq]
  split <;> omega

theorem isNegative_ofMagnitude (hm : m < 2 ^ 63) :
    (ofMagnitude negative m).isNegative = negative := by
  rw [isNegative, bits_ofMagnitude hm, Nat.pow_eq]
  cases negative with
  | false => exact decide_eq_false (Nat.not_le.mpr hm)
  | true => exact decide_eq_true (Nat.le_add_left _ _)

theorem ofMagnitude_magnitude (x : Binary64) : ofMagnitude x.isNegative x.magnitude = x := by
  have hlt := x.bits.toNat_lt
  have hsum : (x.magnitude + if x.isNegative then Nat.pow 2 63 else 0) = x.bits.toNat := by
    simp only [magnitude, isNegative, Nat.pow_eq, decide_eq_true_eq]
    split <;> omega
  rw [ofMagnitude, hsum]
  simp

theorem isFinite_iff {x : Binary64} : x.isFinite ↔ x.magnitude < infinity := decide_eq_true_iff

theorem infinity_lt : infinity < 2 ^ 63 := by decide

end EvaluatorGen.Binary64
