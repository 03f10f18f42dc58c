import EvaluatorGen.Text.Utf8

/-!
Reading and comparing UTF-8.

The bytes of a text are read as its characters, and none of them is stray: `charsOfBytes_encode`.
A character has one to four bytes, and each number of bytes its own range of lead bytes:
`leadingChar?_encode`. The ranges are in the order of the characters, so texts are in the order of
their bytes: `encode_lt_iff`.
-/
namespace EvaluatorGen.Text

theorem toNat_ofNat {n : Nat} (h : n < 256) : (UInt8.ofNat n).toNat = n :=
  UInt8.toNat_ofNat_of_lt' h

/-! ### Continuation bytes -/

theorem isContinuation_encode (n : Nat) :
    isContinuation (UInt8.ofNat (n % 64 + 128)) = true := by
  have hn := toNat_ofNat (n := n % 64 + 128) (by omega)
  rw [isContinuation, Bool.and_eq_true, decide_eq_true_iff, decide_eq_true_iff,
    UInt8.le_iff_toNat_le, UInt8.le_iff_toNat_le, hn]
  exact ⟨Nat.le_add_left _ _, Nat.add_le_add_right (Nat.le_of_lt_succ (Nat.mod_lt n (by decide))) _⟩

theorem continuationBits_encode (n : Nat) :
    continuationBits (UInt8.ofNat (n % 64 + 128)) = n % 64 := by
  rw [continuationBits, toNat_ofNat (by omega)]
  omega

/-! ### Characters -/

theorem scalar?_toNat {c : Char} {least n : Nat} (hn : n = c.toNat) (h : least ≤ n) :
    scalar? least n = some c := by
  subst hn
  have hvalid : c.toNat.isValidChar := c.valid
  rw [scalar?, if_pos ⟨h, hvalid⟩, Char.ofNat_toNat]

theorem leadingChar?_encode (c : Char) (rest : List UInt8) :
    leadingChar? (String.utf8EncodeChar c ++ rest) =
      some (c, (String.utf8EncodeChar c).length) := by
  have hmax : c.val.toNat < 0x110000 := by
    have hvalid : c.toNat < 0xD800 ∨ 0xDFFF < c.toNat ∧ c.toNat < 0x110000 := c.valid
    have hval : c.toNat = c.val.toNat := rfl
    omega
  rw [String.utf8EncodeChar.eq_1]
  generalize hv : c.val.toNat = v at hmax
  have hc : ∀ {least n}, n = v → least ≤ n → scalar? least n = some c :=
    fun hn => scalar?_toNat (hn.trans hv.symm)
  split
  · have ha := toNat_ofNat (n := v) (by omega)
    unfold leadingChar?
    simp only [List.singleton_append, UInt8.lt_iff_toNat_lt, ha, UInt8.reduceToNat]
    rw [if_pos (by omega), hc rfl (Nat.zero_le v)]
    rfl
  · split
    · have ha := toNat_ofNat (n := v / 64 % 32 + 192) (by omega)
      unfold leadingChar?
      simp only [List.cons_append, List.nil_append, UInt8.lt_iff_toNat_lt, UInt8.le_iff_toNat_le,
        ha, UInt8.reduceToNat, isContinuation_encode, continuationBits_encode]
      rw [if_neg (by omega), if_pos (by omega), if_pos trivial, hc (by omega) (by omega)]
      rfl
    · split
      · have ha := toNat_ofNat (n := v / 4096 % 16 + 224) (by omega)
        unfold leadingChar?
        simp only [List.cons_append, List.nil_append, UInt8.lt_iff_toNat_lt,
          UInt8.le_iff_toNat_le, ha, UInt8.reduceToNat, isContinuation_encode,
          continuationBits_encode]
        rw [if_neg (by omega), if_neg (by omega), if_pos (by omega), if_pos (by decide),
          hc (by omega) (by omega)]
        rfl
      · have ha := toNat_ofNat (n := v / 262144 % 8 + 240) (by omega)
        unfold leadingChar?
        simp only [List.cons_append, List.nil_append, UInt8.lt_iff_toNat_lt,
          UInt8.le_iff_toNat_le, ha, UInt8.reduceToNat, isContinuation_encode,
          continuationBits_encode]
        rw [if_neg (by omega), if_neg (by omega), if_neg (by omega), if_pos (by omega),
          if_pos (by decide), hc (by omega) (by omega)]
        rfl

theorem charsOfBytes_encode (text : List Char) :
    charsOfBytes (text.flatMap String.utf8EncodeChar) = text.map some := by
  induction text with
  | nil => rw [List.flatMap_nil, charsOfBytes, List.map_nil]
  | cons c text ih =>
    have hlead := leadingChar?_encode c (text.flatMap String.utf8EncodeChar)
    rw [List.flatMap_cons, List.map_cons, ← ih]
    cases hbytes : String.utf8EncodeChar c with
    | nil => exact absurd hbytes String.utf8EncodeChar_ne_nil
    | cons a bytes =>
      rw [hbytes] at hlead
      rw [List.cons_append] at hlead ⊢
      rw [charsOfBytes, hlead]
      dsimp only
      rw [List.length_cons, Nat.add_sub_cancel, List.drop_left]

/-! ### Order -/

theorem ofNat_cons_lt_iff {m n : Nat} (hm : m < 256) (hn : n < 256) {as bs : List UInt8} :
    UInt8.ofNat m :: as < UInt8.ofNat n :: bs ↔ m < n ∨ m = n ∧ as < bs := by
  rw [List.cons_lt_cons_iff, UInt8.lt_iff_toNat_lt, ← UInt8.toNat_inj, toNat_ofNat hm,
    toNat_ofNat hn]

/-- The smaller character has the smaller bytes, and they show it before they end. -/
theorem encodeChar_lt {c d : Char} (h : c < d) (as bs : List UInt8) :
    String.utf8EncodeChar c ++ as < String.utf8EncodeChar d ++ bs := by
  have hlt : c.val.toNat < d.val.toNat := h
  have hmax : d.val.toNat < 0x110000 := by
    have hvalid : d.toNat < 0xD800 ∨ 0xDFFF < d.toNat ∧ d.toNat < 0x110000 := d.valid
    have hval : d.toNat = d.val.toNat := rfl
    omega
  rw [String.utf8EncodeChar.eq_1, String.utf8EncodeChar.eq_1]
  generalize c.val.toNat = v at hlt
  generalize d.val.toNat = w at hlt hmax
  have hdiv : ∀ u : Nat, u / 4096 = u / 64 / 64 ∧ u / 262144 = u / 64 / 64 / 64 := by
    intro u
    simp only [Nat.div_div_eq_div_mul, and_self]
  rw [(hdiv v).1, (hdiv v).2, (hdiv w).1, (hdiv w).2]
  -- Fewer bytes start with a smaller one; as many bytes are the digits of the number in base 64.
  repeat' split
  all_goals
    simp (disch := omega) only [List.cons_append, List.nil_append, ofNat_cons_lt_iff]
    omega

theorem encode_lt {a b : List Char} (h : a < b) :
    a.flatMap String.utf8EncodeChar < b.flatMap String.utf8EncodeChar := by
  induction h with
  | @nil d b =>
    rw [List.flatMap_cons]
    cases hbytes : String.utf8EncodeChar d with
    | nil => exact absurd hbytes String.utf8EncodeChar_ne_nil
    | cons x bytes => exact List.nil_lt_cons x _
  | @rel c as d bs h => exact encodeChar_lt h _ _
  | @cons c as bs h ih =>
    rw [List.flatMap_cons, List.flatMap_cons]
    exact List.append_left_lt ih

/-- The order of texts by characters is that of their bytes. -/
theorem encode_lt_iff {a b : List Char} :
    a.flatMap String.utf8EncodeChar < b.flatMap String.utf8EncodeChar ↔ a < b := by
  refine ⟨?_, encode_lt⟩
  intro h
  apply Classical.byContradiction
  intro hn
  by_cases heq : a = b
  · rw [heq] at h
    exact List.lt_irrefl _ h
  · have hlt : b < a := by
      apply Classical.byContradiction
      intro hn'
      exact heq (List.le_antisymm (List.not_lt.mp hn') (List.not_lt.mp hn))
    exact List.lt_asymm h (encode_lt hlt)
end EvaluatorGen.Text
