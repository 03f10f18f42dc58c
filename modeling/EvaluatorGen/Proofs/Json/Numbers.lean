import EvaluatorGen.Proofs.Binary64.Decimal
import EvaluatorGen.Proofs.Json.Strings

/-!
Numbers as tokens.

1. `toList_toFixed`: the text of a number is its sign, the digits of a whole number of units of
   10⁻⁹, and a point in front of the last nine.
2. `foldlM_fixedDigits`: a numeral that goes on with these digits has that number and nine places.
3. `tokensFrom_closes`: a numeral ends where a value ends.
4. `lexesClosed_toFixed`: so the text of a number with nine places is one token, the number that it is
   reloaded as.
5. `lexesClosed_repr`: and the text of a whole number that fits in 64 bits is one token, that number.
-/
namespace EvaluatorGen.Binary64

/-! ### The text of a number -/

theorem toList_padDigits (width n : Nat) :
    (padDigits width n).toList =
      List.replicate (width - (Nat.toDigits 10 n).length) '0' ++ Nat.toDigits 10 n := by
  rw [padDigits, String.toList_ofList]

theorem isDigit_of_mem_padDigits {width n : Nat} : ∀ c ∈ (padDigits width n).toList, c.isDigit := by
  intro c hc
  rw [toList_padDigits, List.mem_append] at hc
  rcases hc with hc | hc
  · rw [List.eq_of_mem_replicate hc]
    decide
  · exact Nat.isDigit_of_mem_toDigits (by decide) (by decide) hc

theorem length_padDigits {width n : Nat} (hwidth : 0 < width) (h : n < 10 ^ width) :
    (padDigits width n).toList.length = width := by
  have hle := (Nat.length_toDigits_le_iff (by decide) hwidth).mpr h
  rw [toList_padDigits, List.length_append, List.length_replicate]
  omega

theorem ofDigitChars_padDigits {width n : Nat} (hwidth : 0 < width) (h : n < 10 ^ width)
    (init : Nat) :
    Nat.ofDigitChars 10 (padDigits width n).toList init = 10 ^ width * init + n := by
  rw [Nat.ofDigitChars_eq_ofDigitChars_zero, length_padDigits hwidth h, toList_padDigits,
    Nat.ofDigitChars_append, Nat.ofDigitChars_replicate_zero, Nat.mul_zero,
    Nat.ofDigitChars_ten_toDigits]

/-- The text of a number behind its sign. -/
def fixedDigits (k : Nat) : List Char :=
  Nat.toDigits 10 (k / billion) ++ '.' :: (padDigits 9 (k % billion)).toList

theorem toList_toFixed (x : Binary64) :
    x.toFixed.toList = (if x.isNegative then ['-'] else []) ++ fixedDigits x.billionths := by
  have hsign : (if x.isNegative then "-" else "").toList =
      if x.isNegative then ['-'] else [] := by
    split <;> rfl
  simp only [toFixed, fixedDigits, String.toList_append, hsign, Nat.repr_eq_ofList_toDigits,
    String.toList_ofList, List.append_assoc]
  rfl

end EvaluatorGen.Binary64

namespace EvaluatorGen.Json

/-! ### Numerals -/

namespace Numeral

variable {n : Numeral}

theorem extend?_digit_of_fraction {c : Char} (hc : c.isDigit)
    (hn : n.part = .point ∨ n.part = .fraction) : n.extend? c = some (n.pushPlace c) := by
  rcases hn with hn | hn <;> simp [extend?, hn, hc]

theorem foldlM_of_fraction {ds : List Char} (hds : ∀ c ∈ ds, c.isDigit)
    (hn : n.part = .fraction) :
    ds.foldlM extend? n =
      some { n with
        digits := Nat.ofDigitChars 10 ds n.digits
        places := n.places + ds.length } := by
  induction ds generalizing n with
  | nil => rfl
  | cons c ds ih =>
    rw [List.forall_mem_cons] at hds
    rw [List.foldlM_cons, extend?_digit_of_fraction hds.1 (.inr hn)]
    show ds.foldlM extend? (n.pushPlace c) = _
    rw [ih hds.2 rfl, Nat.ofDigitChars_cons, List.length_cons, ← Nat.add_assoc,
      Nat.add_right_comm]
    simp only [pushPlace, pushDigit, hn]
    rfl

theorem foldlM_of_point {ds : List Char} (hds : ∀ c ∈ ds, c.isDigit) (hne : ds ≠ [])
    (hn : n.part = .point) :
    ds.foldlM extend? n =
      some { n with
        part := .fraction
        digits := Nat.ofDigitChars 10 ds n.digits
        places := n.places + ds.length } := by
  cases ds with
  | nil => exact absurd rfl hne
  | cons c ds =>
    rw [List.forall_mem_cons] at hds
    rw [List.foldlM_cons, extend?_digit_of_fraction hds.1 (.inl hn)]
    show ds.foldlM extend? (n.pushPlace c) = _
    rw [foldlM_of_fraction hds.2 rfl, Nat.ofDigitChars_cons, List.length_cons, ← Nat.add_assoc,
      Nat.add_right_comm]
    rfl

theorem digitChar_eq_zero {d : Nat} (hd : d < 10) : d.digitChar = '0' ↔ d = 0 := by
  revert d
  decide

theorem digitValue_digitChar {d : Nat} (hd : d < 10) : digitValue d.digitChar = d := by
  revert d
  decide

theorem isDigit_digitChar {d : Nat} (hd : d < 10) : d.digitChar.isDigit := by
  rw [Nat.isDigit_digitChar, decide_eq_true hd]

theorem extend?_of_sign {d : Nat} (hd : d < 10) (hn : n.part = .sign) :
    n.extend? d.digitChar =
      some { n with
        part := if d = 0 then .zero else .whole
        digits := if d = 0 then n.digits else d } := by
  simp only [extend?, hn, digitChar_eq_zero hd, isDigit_digitChar hd, digitValue_digitChar hd]
  split <;> rfl

theorem extend?_of_whole {d : Nat} (hd : d < 10) (hn : n.part = .whole) :
    n.extend? d.digitChar = some { n with digits := 10 * n.digits + d } := by
  simp only [extend?, hn, isDigit_digitChar hd, pushDigit, digitValue_digitChar hd, if_true]

/-- The digits in front of the point. A number that is not zero starts with another digit. -/
theorem foldlM_toDigits (hn : n.part = .sign) (hdigits : n.digits = 0) (k : Nat) :
    (Nat.toDigits 10 k).foldlM extend? n =
      some { n with part := if k = 0 then .zero else .whole, digits := k } := by
  induction k using Nat.strongRecOn with
  | _ k ih =>
    by_cases hk : k < 10
    · rw [Nat.toDigits_of_lt_base hk, List.foldlM_cons, extend?_of_sign hk hn]
      by_cases hzero : k = 0
      · simp [hzero, hdigits]
      · simp [hzero]
    · have hhead : k / 10 ≠ 0 := by omega
      rw [Nat.toDigits_of_base_le (by decide) (by omega), List.foldlM_append,
        ih (k / 10) (by omega), Option.bind_eq_bind, Option.bind_some, List.foldlM_cons,
        extend?_of_whole (Nat.mod_lt _ (by decide)) (if_neg hhead), if_neg hhead,
        if_neg (by omega)]
      have hsum : 10 * (k / 10) + k % 10 = k := Nat.div_add_mod k 10
      exact congrArg (fun digits => some { n with part := .whole, digits }) hsum

end Numeral

theorem tokensFrom_numeral {n n' : Numeral} {cs : List Char}
    (h : cs.foldlM Numeral.extend? n = some n') (rest : List (Option Char)) :
    tokensFrom (.numeral n) (cs.map some ++ rest) = tokensFrom (.numeral n') rest := by
  induction cs generalizing n with
  | nil =>
    cases h
    rfl
  | cons c cs ih =>
    rw [List.foldlM_cons] at h
    obtain ⟨m, hm, hcs⟩ := Option.bind_eq_some_iff.mp h
    rw [List.map_cons, List.cons_append, tokensFrom, Lexeme.step, Lexeme.stepNumeral, hm]
    exact ih hcs

namespace Numeral

/-- A numeral of nine places. -/
def ofBillionths (negative : Bool) (k : Nat) : Numeral where
  part := .fraction
  negative
  digits := k
  places := 9

theorem extend?_point {n : Numeral} (hn : n.part = .zero ∨ n.part = .whole) :
    n.extend? '.' = some { n with part := .point } := by
  rcases hn with hn | hn
  · simp [extend?, hn, openPart]
  · simp [extend?, hn, openPart]

theorem foldlM_fixedDigits (negative : Bool) (k : Nat) :
    (Binary64.fixedDigits k).foldlM extend? { part := .sign, negative } =
      some (ofBillionths negative k) := by
  have hlow : k % Binary64.billion < 10 ^ 9 := Nat.mod_lt k (by decide)
  have hlength := Binary64.length_padDigits (by decide) hlow
  have hvalue := Binary64.ofDigitChars_padDigits (by decide) hlow (k / Binary64.billion)
  have hsum : 10 ^ 9 * (k / Binary64.billion) + k % Binary64.billion = k := Nat.div_add_mod k _
  have hpart : (if k / Binary64.billion = 0 then NumeralPart.zero else .whole) = .zero ∨
      (if k / Binary64.billion = 0 then NumeralPart.zero else .whole) = .whole := by
    split
    · exact .inl rfl
    · exact .inr rfl
  have hne : (Binary64.padDigits 9 (k % Binary64.billion)).toList ≠ [] := by
    intro hnil
    rw [hnil] at hlength
    cases hlength
  rw [Binary64.fixedDigits, List.foldlM_append, foldlM_toDigits rfl rfl, Option.bind_eq_bind,
    Option.bind_some, List.foldlM_cons, extend?_point hpart, Option.bind_eq_bind, Option.bind_some,
    foldlM_of_point Binary64.isDigit_of_mem_padDigits hne rfl, hlength, hvalue, hsum]
  rfl

theorem value_ofBillionths (negative : Bool) (k : Nat) :
    (ofBillionths negative k).value =
      .float (Binary64.ofMagnitude negative (Binary64.nearestMagnitude k Binary64.billion)) := by
  rw [← Binary64.ofDecimal_billionths]
  rfl

end Numeral

/-- Without a sign, a numeral starts at a digit as it would behind one. -/
theorem start_digit {c : Char} (hc : c.isDigit) :
    Lexeme.start c = Lexeme.stepNumeral { part := .sign, negative := false } c := by
  unfold Lexeme.start
  split
  case h_15 =>
    have hminus : c ≠ '-' := by
      rintro rfl
      exact absurd hc (by decide)
    by_cases hzero : c = '0'
    · subst hzero
      rfl
    · simp [Numeral.start?, Lexeme.stepNumeral, Numeral.extend?, hminus, hzero, hc]
  all_goals exact absurd hc (by decide)

/-- Digits are a numeral without a sign. -/
theorem tokensFrom_toDigits (k : Nat) (rest : List (Option Char)) :
    tokensFrom .gap ((Nat.toDigits 10 k).map some ++ rest) =
      tokensFrom (.numeral { part := .sign, negative := false })
        ((Nat.toDigits 10 k).map some ++ rest) := by
  have hdigits : ∀ c ∈ Nat.toDigits 10 k, c.isDigit :=
    fun _ => Nat.isDigit_of_mem_toDigits (by decide) (by decide)
  cases h : Nat.toDigits 10 k with
  | nil => exact absurd h Nat.toDigits_ne_nil
  | cons c cs =>
    rw [h, List.forall_mem_cons] at hdigits
    rw [List.map_cons, List.cons_append, tokensFrom, tokensFrom, Lexeme.step, Lexeme.step,
      start_digit hdigits.1]

/-- A comma and a closing bracket end a numeral, and so does the end of the text. -/
theorem tokensFrom_closes {n : Numeral} (hn : n.isComplete) {rest : List (Option Char)}
    (h : Closes rest) :
    tokensFrom (.numeral n) rest = .scalar n.value :: tokensFrom .gap rest := by
  cases rest with
  | nil =>
    rw [tokensFrom, Lexeme.finish, Lexeme.cutNumeral, if_pos hn]
    rfl
  | cons c rest =>
    cases c with
    | none => cases h
    | some c =>
      have hdigit : c.isDigit = false := by rcases h with rfl | rfl | rfl <;> rfl
      have hopen : n.openPart c = none := by
        rcases h with rfl | rfl | rfl <;> simp [Numeral.openPart]
      have hext : n.extend? c = none := by
        unfold Numeral.isComplete at hn
        unfold Numeral.extend?
        split at hn <;> simp_all
      rw [tokensFrom, Lexeme.step, Lexeme.stepNumeral, hext]
      dsimp only
      rw [hdigit, Bool.and_false, Bool.not_false, Bool.and_true, if_pos hn]
      rcases h with rfl | rfl | rfl <;> rfl

/-! ### Numbers with nine places -/

theorem lexesClosed_toFixed (x : Binary64) :
    LexesClosed x.toFixed.toList [.scalar (.float x.reload)] := by
  intro rest h
  have hstart : ∀ negative k, tokensFrom .gap
      (((if negative then ['-'] else []) ++ Binary64.fixedDigits k).map some ++ rest) =
      tokensFrom (.numeral { part := .sign, negative })
        ((Binary64.fixedDigits k).map some ++ rest) := by
    intro negative k
    cases negative with
    | true => rfl
    | false =>
      rw [if_neg Bool.false_ne_true, List.nil_append, Binary64.fixedDigits, List.map_append,
        List.append_assoc]
      exact tokensFrom_toDigits _ _
  rw [Binary64.toList_toFixed, hstart, tokensFrom_numeral (Numeral.foldlM_fixedDigits _ _),
    tokensFrom_closes rfl h, Numeral.value_ofBillionths, Binary64.reload]
  rfl

/-! ### Whole numbers -/

namespace Numeral

/-- A numeral of digits only. -/
def ofNat (negative : Bool) (k : Nat) : Numeral where
  part := if k = 0 then .zero else .whole
  negative
  digits := k

theorem isComplete_ofNat (negative : Bool) (k : Nat) : (ofNat negative k).isComplete := by
  unfold isComplete ofNat
  by_cases hzero : k = 0 <;> simp [hzero]

theorem value_ofNat {k : Nat} (hk : k < UInt64.size) : (ofNat false k).value = .int k := by
  by_cases hzero : k = 0
  · subst hzero
    rfl
  · simp [value, integer?, ofNat, hzero, hk]

theorem value_ofNat_negative {k : Nat} (hpos : 0 < k) (hk : k ≤ 2 ^ 63) :
    (ofNat true k).value = .int (-k) := by
  have hzero : k ≠ 0 := Nat.ne_of_gt hpos
  have hle : k ≤ Nat.pow 2 63 := hk
  simp [value, integer?, ofNat, hzero, hpos, hle]

end Numeral

theorem tokensFrom_ofNat (negative : Bool) (k : Nat) {rest : List (Option Char)}
    (h : Closes rest) :
    tokensFrom (.numeral { part := .sign, negative }) ((Nat.toDigits 10 k).map some ++ rest) =
      .scalar (Numeral.ofNat negative k).value :: tokensFrom .gap rest := by
  rw [tokensFrom_numeral (Numeral.foldlM_toDigits rfl rfl k)]
  exact tokensFrom_closes (Numeral.isComplete_ofNat negative k) h

/-- A whole number that one of the two kinds of words can hold is read as what it is. -/
theorem lexesClosed_repr {n : Int} (hlow : -2 ^ 63 ≤ n) (hhigh : n < 2 ^ 64) :
    LexesClosed n.repr.toList [.scalar (.int n)] := by
  intro rest h
  cases n with
  | ofNat k =>
    have hk : k < UInt64.size := by
      rw [Int.ofNat_eq_natCast] at hhigh
      show k < 2 ^ 64
      omega
    show tokensFrom .gap ((Nat.repr k).toList.map some ++ rest) = _
    rw [Nat.repr_eq_ofList_toDigits, String.toList_ofList, tokensFrom_toDigits,
      tokensFrom_ofNat false k h, Numeral.value_ofNat hk]
    rfl
  | negSucc k =>
    have hk : k + 1 ≤ 2 ^ 63 := by omega
    have hrepr : (Int.negSucc k).repr.toList = '-' :: Nat.toDigits 10 (k + 1) := by
      show ("-" ++ Nat.repr (k + 1)).toList = _
      rw [Nat.repr_eq_ofList_toDigits, String.toList_append, String.toList_ofList,
        String.toList_ofList]
      rfl
    rw [hrepr, List.map_cons, List.cons_append]
    show tokensFrom (.numeral { part := .sign, negative := true }) _ = _
    rw [tokensFrom_ofNat true (k + 1) h, Numeral.value_ofNat_negative (Nat.succ_pos k) hk]
    rfl

end EvaluatorGen.Json
