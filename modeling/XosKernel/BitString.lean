import XosKernel.ByteMemory

/-! Bit strings in memory, as `bt`, `bts` and `btr` address them: bit `nr` of the string at `base`, with
`nr` read as a signed offset, is bit `nr % 8` of the byte at `base + ⌊nr / 8⌋`. Bits with different
numbers never share a place, so setting or clearing one leaves all the others. -/

namespace XosKernel.Memory

variable {w : Nat}

/-- The byte that holds bit `nr`. -/
def bitByte (base nr : BitVec w) : BitVec w := base + nr.sshiftRight 3

def bitAt (m : Mem w) (base nr : BitVec w) : Bool := (m (bitByte base nr)).getLsbD (nr.toNat % 8)

def setBitAt (m : Mem w) (base nr : BitVec w) : Mem w :=
  store8 m (bitByte base nr) (m (bitByte base nr) ||| BitVec.twoPow 8 (nr.toNat % 8))

def clearBitAt (m : Mem w) (base nr : BitVec w) : Mem w :=
  store8 m (bitByte base nr) (m (bitByte base nr) &&& ~~~ BitVec.twoPow 8 (nr.toNat % 8))

/-- The place of a bit determines its number. -/
theorem bitByte_injective {base a b : BitVec w} (hbyte : bitByte base a = bitByte base b)
    (hlow : a.toNat % 8 = b.toNat % 8) : a = b := by
  have hshift : a.sshiftRight 3 = b.sshiftRight 3 := (BitVec.add_right_inj base).mp hbyte
  apply BitVec.eq_of_getLsbD_eq
  intro i hi
  by_cases hi3 : i < 3
  · have hbit := congrArg (fun n => Nat.testBit n i) (show a.toNat % 2 ^ 3 = b.toNat % 2 ^ 3 from hlow)
    simp only [Nat.testBit_mod_two_pow, hi3, decide_true, Bool.true_and] at hbit
    exact hbit
  · have hbit := congrArg (fun v : BitVec w => v.getLsbD (i - 3)) hshift
    have hsum : 3 + (i - 3) = i := by omega
    simpa [BitVec.getLsbD_sshiftRight, hsum, hi, show ¬ w ≤ i - 3 by omega] using hbit

theorem bitAt_setBitAt (m : Mem w) (base nr nr' : BitVec w) :
    bitAt (setBitAt m base nr) base nr' = (decide (nr' = nr) || bitAt m base nr') := by
  rw [bitAt, setBitAt, store8_apply]
  by_cases hbyte : bitByte base nr' = bitByte base nr
  · rw [if_pos hbyte, BitVec.getLsbD_or, ← hbyte, ← bitAt, BitVec.getLsbD_twoPow]
    by_cases hlow : nr.toNat % 8 = nr'.toNat % 8
    · have heq := bitByte_injective hbyte hlow.symm
      simp [heq, Nat.mod_lt]
    · have hne : nr' ≠ nr := fun h => hlow (by rw [h])
      simp [hlow, hne]
  · have hne : nr' ≠ nr := fun h => hbyte (by rw [h])
    rw [if_neg hbyte, decide_eq_false hne, Bool.false_or, bitAt]

theorem bitAt_clearBitAt (m : Mem w) (base nr nr' : BitVec w) :
    bitAt (clearBitAt m base nr) base nr' = (!decide (nr' = nr) && bitAt m base nr') := by
  rw [bitAt, clearBitAt, store8_apply]
  by_cases hbyte : bitByte base nr' = bitByte base nr
  · rw [if_pos hbyte, BitVec.getLsbD_and, ← hbyte, ← bitAt, BitVec.getLsbD_not, BitVec.getLsbD_twoPow]
    by_cases hlow : nr.toNat % 8 = nr'.toNat % 8
    · have heq := bitByte_injective hbyte hlow.symm
      simp [heq, Nat.mod_lt]
    · have hne : nr' ≠ nr := fun h => hlow (by rw [h])
      simp [hlow, hne, Nat.mod_lt]
  · have hne : nr' ≠ nr := fun h => hbyte (by rw [h])
    rw [if_neg hbyte, decide_eq_false hne, Bool.not_false, Bool.true_and, bitAt]

theorem bitByte_sub (base : BitVec w) (nr : BitVec w) : bitByte base nr - base = nr.sshiftRight 3 := by
  rw [bitByte, BitVec.add_comm, BitVec.add_sub_cancel]

/-- The byte of a bit with a non-negative number. -/
theorem bitByte_toNat {base nr : BitVec w} (hnr : 2 * nr.toNat < 2 ^ w) :
    (bitByte base nr - base).toNat = nr.toNat / 8 := by
  have hmsb : nr.msb = false := by
    rw [BitVec.msb_eq_false_iff_two_mul_lt]
    exact hnr
  rw [bitByte_sub, BitVec.sshiftRight_eq_of_msb_false hmsb, BitVec.toNat_ushiftRight, Nat.shiftRight_eq_div_pow]

/-! ### The word that holds a bit -/

theorem load32_getLsbD (m : Mem w) (a : BitVec w) {k : Nat} (hk : k < 32) :
    (load32 m a).getLsbD k = (m (a + BitVec.ofNat w (k / 8))).getLsbD (k % 8) := by
  have hcases : k / 8 = 0 ∨ k / 8 = 1 ∨ k / 8 = 2 ∨ k / 8 = 3 := by omega
  simp only [load32, BitVec.getLsbD_append]
  rcases hcases with h | h | h | h
  · rw [if_pos (by omega), h, show k % 8 = k by omega, BitVec.add_zero]
  · rw [if_neg (by omega), if_pos (by omega), h, show k % 8 = k - 8 by omega]
    rfl
  · rw [if_neg (by omega), if_neg (by omega), if_pos (by omega), h, show k % 8 = k - 8 - 8 by omega]
    rfl
  · rw [if_neg (by omega), if_neg (by omega), if_neg (by omega), h, show k % 8 = k - 8 - 8 - 8 by omega]
    rfl

theorem word_byte_offset (nr : BitVec 32) :
    4 * nr.sshiftRight 5 + BitVec.ofNat 32 (nr.toNat % 32 / 8) = nr.sshiftRight 3 := by
  have h5 : nr.sshiftRight 5 = BitVec.ofInt 32 (nr.toInt / 32) := by
    rw [BitVec.sshiftRight, Int.shiftRight_eq_div_pow]
    rfl
  have h3 : nr.sshiftRight 3 = BitVec.ofInt 32 (nr.toInt / 8) := by
    rw [BitVec.sshiftRight, Int.shiftRight_eq_div_pow]
    rfl
  have hlow : ((nr.toNat % 32 / 8 : Nat) : Int) = nr.toInt % 32 / 8 := by
    have := BitVec.toInt_eq_toNat_cond nr
    split at this <;> omega
  have h4 : (4 : BitVec 32) = BitVec.ofInt 32 4 := rfl
  rw [h5, h3, h4, ← BitVec.ofInt_mul, ← BitVec.ofInt_natCast, hlow, ← BitVec.ofInt_add]
  congr 1
  omega

/-- Testing a bit through the word of an array of 32-bit words that holds it. -/
theorem load32_bit (m : Mem 32) (base nr : BitVec 32) :
    (load32 m (base + 4 * nr.sshiftRight 5)).getLsbD (nr &&& 31).toNat = bitAt m base nr := by
  have hlow : (nr &&& 31).toNat = nr.toNat % 32 := by
    rw [BitVec.toNat_and]
    exact Nat.and_two_pow_sub_one_eq_mod nr.toNat 5
  rw [hlow, load32_getLsbD m _ (Nat.mod_lt _ (by decide)), BitVec.add_assoc, word_byte_offset, bitAt, bitByte,
    Nat.mod_mod_of_dvd _ (by decide)]

end XosKernel.Memory
