import Mathlib.Algebra.Group.Nat.Defs
import Mathlib.Tactic.Common

/-!
# The order of bytes

Texts are ordered by their code points. That is also the order of their bytes in UTF-8: among
characters of different sizes the first byte decides, and among characters of one size the bytes
are the digits of the code point to base 64.
-/

namespace Sting.Text

/-- The bytes of a text in UTF-8. -/
def bytes (text : String) : List UInt8 :=
  text.toUTF8.data.toList

/-- The bytes of a text are those of its characters. -/
theorem bytes_eq (text : String) : bytes text = text.toList.flatMap String.utf8EncodeChar := by
  rw [bytes, String.toUTF8, ← String.utf8Encode_toList]
  exact List.toList_data_toByteArray

/-- The bytes behind the first one: the last `count` digits of a code point to base 64. -/
def continuation : (count code : Nat) → List UInt8
  | 0, _ => []
  | count + 1, code => .ofNat (code / 64 ^ count % 64 + 128) :: continuation count code

/-- Between code points that agree but for their last digits, those digits decide. -/
theorem continuation_append_lt {m n : Nat} (h : m < n) (count : Nat)
    (hcount : m / 64 ^ count = n / 64 ^ count) (s t : List UInt8) :
    continuation count m ++ s < continuation count n ++ t := by
  induction count with
  | zero => simp only [Nat.pow_zero, Nat.div_one] at hcount; omega
  | succ count ih =>
    have hle : m / 64 ^ count ≤ n / 64 ^ count := Nat.div_le_div_right (Nat.le_of_lt h)
    rw [Nat.pow_succ, ← Nat.div_div_eq_div_mul, ← Nat.div_div_eq_div_mul] at hcount
    simp only [continuation, List.cons_append, List.cons_lt_cons_iff]
    by_cases heq : m / 64 ^ count = n / 64 ^ count
    · exact .inr ⟨by rw [heq], ih heq⟩
    · refine .inl ?_
      rw [UInt8.lt_iff_toNat_lt, UInt8.toNat_ofNat', UInt8.toNat_ofNat']
      omega

/-- The first byte tells how many bytes follow it, and holds the digits that they leave. -/
theorem exists_lead (c : Char) : ∃ count lead,
    String.utf8EncodeChar c = .ofNat lead :: continuation count c.toNat ∧
      (count = 0 ∧ c.toNat ≤ 0x7f ∧ lead = c.toNat ∨
        count = 1 ∧ 0x7f < c.toNat ∧ c.toNat ≤ 0x7ff ∧ lead = c.toNat / 64 + 0xc0 ∨
        count = 2 ∧ 0x7ff < c.toNat ∧ c.toNat ≤ 0xffff ∧ lead = c.toNat / 4096 + 0xe0 ∨
        count = 3 ∧ 0xffff < c.toNat ∧ c.toNat < 0x110000 ∧ lead = c.toNat / 262144 + 0xf0) := by
  have hc : c.toNat < 0x110000 := c.valid.elim (fun h => Nat.lt_trans h (by decide)) And.right
  simp only [String.utf8EncodeChar, ← Char.toNat.eq_1]
  generalize c.toNat = n at hc ⊢
  split_ifs with h₁ h₂ h₃
  · exact ⟨0, n, rfl, by omega⟩
  · refine ⟨1, n / 64 % 32 + 0xc0, ?_, by omega⟩
    simp only [continuation, Nat.pow_zero, Nat.div_one]
  · refine ⟨2, n / 4096 % 16 + 0xe0, ?_, by omega⟩
    simp only [continuation, Nat.pow_zero, Nat.pow_one, Nat.div_one]
  · refine ⟨3, n / 262144 % 8 + 0xf0, ?_, by omega⟩
    simp only [continuation, Nat.pow_zero, Nat.pow_one, Nat.div_one, Nat.reducePow]

/-- The smaller of two characters has the smaller bytes, whatever follows them. -/
theorem encode_append_lt {c d : Char} (h : c < d) (s t : List UInt8) :
    String.utf8EncodeChar c ++ s < String.utf8EncodeChar d ++ t := by
  have hcd : c.toNat < d.toNat := Char.lt_def.1 h
  obtain ⟨count, lead, hc, hlead⟩ := exists_lead c
  obtain ⟨count', lead', hd, hlead'⟩ := exists_lead d
  have hcases : lead < lead' ∧ lead' < 256 ∨
      lead = lead' ∧ count = count' ∧ c.toNat / 64 ^ count = d.toNat / 64 ^ count := by
    obtain ⟨rfl, hlead⟩ | ⟨rfl, hlead⟩ | ⟨rfl, hlead⟩ | ⟨rfl, hlead⟩ := hlead <;> omega
  rw [hc, hd, List.cons_append, List.cons_append, List.cons_lt_cons_iff]
  obtain ⟨hlt, hbound⟩ | ⟨rfl, rfl, heq⟩ := hcases
  · refine .inl ?_
    rw [UInt8.lt_iff_toNat_lt, UInt8.toNat_ofNat', UInt8.toNat_ofNat']
    omega
  · exact .inr ⟨rfl, continuation_append_lt hcd count heq s t⟩

/-- The order of texts is the order of their bytes. -/
theorem bytes_lt_bytes {s t : String} (h : s < t) : bytes s < bytes t := by
  rw [bytes_eq, bytes_eq]
  have hlists : s.toList < t.toList := String.lt_iff.1 h
  generalize s.toList = cs, t.toList = ds at hlists
  induction hlists with
  | @nil d ds =>
    obtain ⟨count, lead, hd, -⟩ := exists_lead d
    rw [List.flatMap_cons, hd]
    exact List.nil_lt_cons _ _
  | cons _ ih => exact List.append_left_lt ih
  | rel h => exact encode_append_lt h _ _

end Sting.Text
