import Mathlib.Algebra.Order.Group.Nat
import Mathlib.Tactic.Common

/-! UTF-8: the octets of a Unicode scalar value. A value of several octets has its highest bits in the first one, below
a marker that tells the number of octets, and six bits in each of the others. -/

namespace XosKernel.Utf8

/-- A code point that is no surrogate. -/
def IsScalar (c : Nat) : Prop := c ≤ 0x10ffff ∧ ¬ (0xd800 ≤ c ∧ c < 0xe000)

/-- The number of octets behind the first one. -/
def extra (c : Nat) : Nat := (if 0x80 ≤ c then 1 else 0) + (if 0x800 ≤ c then 1 else 0) + if 0x10000 ≤ c then 1 else 0

/-- The marker in the first octet: `n + 1` ones for `n` octets behind it, and no marker for none. -/
def marker (n : Nat) : Nat := if n = 0 then 0 else 256 - 2 ^ (7 - n)

/-- The last `n` octets. -/
def tails : Nat → Nat → List (BitVec 8)
  | 0, _ => []
  | n + 1, c => BitVec.ofNat 8 (0x80 + c / 64 ^ n % 64) :: tails n c

def encode (c : Nat) : List (BitVec 8) := BitVec.ofNat 8 (marker (extra c) + c / 64 ^ extra c) :: tails (extra c) c

example : encode 0x20ac = [0xe2, 0x82, 0xac] := by decide

@[simp] theorem length_tails (n c : Nat) : (tails n c).length = n := by
  induction n with
  | zero => rfl
  | succ n ih => simp [tails, ih]

@[simp] theorem length_encode (c : Nat) : (encode c).length = extra c + 1 := by simp [encode]

/-- The last octets hold the low bits. -/
theorem tails_congr {n c d : Nat} (h : c % 64 ^ n = d % 64 ^ n) : tails n c = tails n d := by
  induction n with
  | zero => rfl
  | succ n ih =>
      have hbits (x : Nat) : x / 64 ^ n % 64 = x % 64 ^ (n + 1) / 64 ^ n := by
        rw [Nat.pow_succ, Nat.mod_mul_right_div_self]
      have hlow : c % 64 ^ n = d % 64 ^ n := by
        have hdvd : 64 ^ n ∣ 64 ^ (n + 1) := Nat.pow_dvd_pow 64 (Nat.le_succ n)
        rw [← Nat.mod_mod_of_dvd c hdvd, h, Nat.mod_mod_of_dvd d hdvd]
      rw [tails, tails, hbits, hbits, h, ih hlow]

/-- The last octet holds the lowest bits. -/
theorem tails_succ (n c : Nat) : tails (n + 1) c = tails n (c / 64) ++ [BitVec.ofNat 8 (0x80 + c % 64)] := by
  induction n with
  | zero => simp [tails]
  | succ n ih =>
      have hdiv : c / 64 ^ (n + 1) = c / 64 / 64 ^ n := by
        rw [Nat.div_div_eq_div_mul, Nat.pow_succ, Nat.mul_comm]
      rw [tails, ih, tails, List.cons_append, hdiv]

theorem extra_eq_zero {c : Nat} (h : c < 0x80) : extra c = 0 := by
  unfold extra
  split_ifs <;> omega

theorem extra_cases {c : Nat} (hc : c ≤ 0x10ffff) :
    (extra c = 0 ∧ c < 0x80) ∨ (extra c = 1 ∧ 0x80 ≤ c ∧ c < 0x800) ∨ (extra c = 2 ∧ 0x800 ≤ c ∧ c < 0x10000) ∨
      (extra c = 3 ∧ 0x10000 ≤ c) := by
  unfold extra
  split_ifs <;> omega

/-- The bits of the first octet leave its marker alone. -/
theorem first_lt {c : Nat} (hc : c ≤ 0x10ffff) (hpos : 0 < extra c) :
    extra c ≤ 3 ∧ c / 64 ^ extra c < 2 ^ (6 - extra c) := by
  rcases extra_cases hc with ⟨h, -⟩ | ⟨h, hlo, hhi⟩ | ⟨h, hlo, hhi⟩ | ⟨h, hlo⟩
  · omega
  · rw [h]
    omega
  · rw [h]
    omega
  · rw [h]
    omega

theorem encode_single {c : Nat} (h : c < 0x80) : encode c = [BitVec.ofNat 8 c] := by
  simp [encode, extra_eq_zero h, marker, tails]

end XosKernel.Utf8
