/-!
UTF-8 with stray bytes.

Bytes are read as characters as long as they are UTF-8. A byte that neither is a character
nor starts one is stray; it is passed over alone, so the bytes behind it are read as usual.
-/
namespace EvaluatorGen.Text

def isContinuation (b : UInt8) : Bool := decide (0x80 ≤ b) && decide (b ≤ 0xBF)

/-- The six bits of a continuation byte. -/
def continuationBits (b : UInt8) : Nat := b.toNat % 64

/-- A character of at least `least`, which fewer bytes cannot write. -/
def scalar? (least n : Nat) : Option Char :=
  if least ≤ n ∧ n.isValidChar then some (Char.ofNat n) else none

/-- The character that some bytes start with, and the number of its bytes. -/
def leadingChar? : List UInt8 → Option (Char × Nat)
  | a :: rest =>
    if a < 0x80 then (scalar? 0 a.toNat).map (·, 1)
    else if 0xC0 ≤ a ∧ a ≤ 0xDF then
      match rest with
      | b :: _ =>
        if isContinuation b then
          (scalar? 0x80 (a.toNat % 32 * 64 + continuationBits b)).map (·, 2)
        else none
      | _ => none
    else if 0xE0 ≤ a ∧ a ≤ 0xEF then
      match rest with
      | b :: c :: _ =>
        if isContinuation b && isContinuation c then
          (scalar? 0x800
            ((a.toNat % 16 * 64 + continuationBits b) * 64 + continuationBits c)).map (·, 3)
        else none
      | _ => none
    else if 0xF0 ≤ a ∧ a ≤ 0xF7 then
      match rest with
      | b :: c :: d :: _ =>
        if isContinuation b && isContinuation c && isContinuation d then
          (scalar? 0x10000
            (((a.toNat % 8 * 64 + continuationBits b) * 64 + continuationBits c) * 64 +
              continuationBits d)).map (·, 4)
        else none
      | _ => none
    else none
  | [] => none

/-- The characters of some bytes; none for a stray byte. -/
def charsOfBytes : List UInt8 → List (Option Char)
  | [] => []
  | a :: rest =>
    match leadingChar? (a :: rest) with
    | some (c, size) => some c :: charsOfBytes (rest.drop (size - 1))
    | none => none :: charsOfBytes rest
termination_by bytes => bytes.length
decreasing_by
  · simp only [List.length_drop, List.length_cons]
    omega
  · simp only [List.length_cons]
    omega

end EvaluatorGen.Text
