import XosKernel.BootmemModel

/-! What the bitmap loops of the boot-time allocator do: each writes one range of bits and leaves all
other bits, the bytes that hold none of them, and the node. -/

namespace XosKernel.Bootmem

open Memory

theorem Boot.testBit_eq (s : Boot) (nr : Word) : s.testBit nr = s.oldBit nr :=
  load32_bit s.mem s.bdata.nodeBootmemMap nr

/-- From `s` to `t` the bits `lo` to `hi - 1` take a value and nothing else changes. -/
structure BitsWritten (s t : Boot) (lo hi : Nat) (value : Bool) : Prop where
  bdata : t.bdata = s.bdata
  bits : ∀ nr : Word, t.oldBit nr = if lo ≤ nr.toNat ∧ nr.toNat < hi then value else s.oldBit nr
  frame : ∀ a : Word, (∀ nr : Word, lo ≤ nr.toNat → nr.toNat < hi → a ≠ bitByte s.bdata.nodeBootmemMap nr) →
    t.mem a = s.mem a

theorem BitsWritten.refl (s : Boot) (lo : Nat) (value : Bool) : BitsWritten s s lo lo value :=
  ⟨rfl, fun nr => by rw [if_neg (by omega)], fun _ _ => rfl⟩

theorem BitsWritten.trans {s t u : Boot} {lo mid hi : Nat} {value : Bool} (hlo : lo ≤ mid) (hhi : mid ≤ hi)
    (hst : BitsWritten s t lo mid value) (htu : BitsWritten t u mid hi value) :
    BitsWritten s u lo hi value := by
  refine ⟨htu.bdata.trans hst.bdata, fun nr => ?_, fun a ha => ?_⟩
  · rw [htu.bits, hst.bits]
    by_cases hmid : mid ≤ nr.toNat
    · by_cases hnr : nr.toNat < hi
      · rw [if_pos ⟨hmid, hnr⟩, if_pos ⟨by omega, hnr⟩]
      · rw [if_neg (by omega), if_neg (by omega), if_neg (by omega)]
    · by_cases hnr : lo ≤ nr.toNat
      · rw [if_neg (by omega), if_pos (by omega), if_pos (by omega)]
      · rw [if_neg (by omega), if_neg (by omega), if_neg (by omega)]
  · rw [htu.frame a fun nr h1 h2 => by rw [hst.bdata]; exact ha nr (by omega) h2,
      hst.frame a fun nr h1 h2 => ha nr h1 (by omega)]

theorem bitsWritten_setBit (s : Boot) (i : Word) : BitsWritten s (s.setBit i) i.toNat (i.toNat + 1) true := by
  refine ⟨rfl, fun nr => ?_, fun a ha => ?_⟩
  · have hbit := bitAt_setBitAt s.mem s.bdata.nodeBootmemMap i nr
    by_cases hnr : nr = i
    · rw [if_pos (by subst hnr; omega)]
      simpa [Boot.oldBit, Boot.setBit, hnr] using hbit
    · have hne : nr.toNat ≠ i.toNat := fun h => hnr (BitVec.eq_of_toNat_eq h)
      rw [if_neg (by omega)]
      simpa [Boot.oldBit, Boot.setBit, hnr] using hbit
  · show setBitAt s.mem s.bdata.nodeBootmemMap i a = s.mem a
    rw [setBitAt, store8_apply, if_neg (ha i le_rfl (Nat.lt_succ_self _))]

theorem bitsWritten_clearBit (s : Boot) (i : Word) :
    BitsWritten s (s.clearBit i) i.toNat (i.toNat + 1) false := by
  refine ⟨rfl, fun nr => ?_, fun a ha => ?_⟩
  · have hbit := bitAt_clearBitAt s.mem s.bdata.nodeBootmemMap i nr
    by_cases hnr : nr = i
    · rw [if_pos (by subst hnr; omega)]
      simpa [Boot.oldBit, Boot.clearBit, hnr] using hbit
    · have hne : nr.toNat ≠ i.toNat := fun h => hnr (BitVec.eq_of_toNat_eq h)
      rw [if_neg (by omega)]
      simpa [Boot.oldBit, Boot.clearBit, hnr] using hbit
  · show clearBitAt s.mem s.bdata.nodeBootmemMap i a = s.mem a
    rw [clearBitAt, store8_apply, if_neg (ha i le_rfl (Nat.lt_succ_self _))]

theorem toNat_succ {i : Word} (h : i.toNat + 1 < 2 ^ 32) : (i + 1).toNat = i.toNat + 1 := by
  rw [BitVec.toNat_add]
  exact Nat.mod_eq_of_lt h

theorem setBits_written (s : Boot) (i : Word) (n : Nat) (hn : i.toNat + n < 2 ^ 32) :
    BitsWritten s (setBits s i n) i.toNat (i.toNat + n) true := by
  induction n generalizing s i with
  | zero => exact .refl _ _ _
  | succ n ih =>
      have hsucc := toNat_succ (i := i) (by omega)
      have hrest := ih (s.setBit i) (i + 1) (by omega)
      rw [hsucc, show i.toNat + 1 + n = i.toNat + (n + 1) by omega] at hrest
      exact (bitsWritten_setBit s i).trans (by omega) (by omega) hrest

/-- Reserving an area whose bits are all clear. -/
theorem takeBits_ret (s : Boot) (i : Word) (n : Nat) (hn : i.toNat + n < 2 ^ 32)
    (hclear : ∀ nr : Word, i.toNat ≤ nr.toNat → nr.toNat < i.toNat + n → s.oldBit nr = false) :
    ∃ t, takeBits s i n = .ret () t ∧ BitsWritten s t i.toNat (i.toNat + n) true := by
  induction n generalizing s i with
  | zero => exact ⟨s, rfl, .refl s _ _⟩
  | succ n ih =>
      have hsucc := toNat_succ (i := i) (by omega)
      have hstep := bitsWritten_setBit s i
      obtain ⟨t, ht, hrest⟩ := ih (s.setBit i) (i + 1) (by omega) fun nr h1 h2 => by
        rw [hstep.bits, if_neg (by omega)]
        exact hclear nr (by omega) (by omega)
      rw [hsucc, show i.toNat + 1 + n = i.toNat + (n + 1) by omega] at hrest
      refine ⟨t, ?_, hstep.trans (by omega) (by omega) hrest⟩
      rw [takeBits, hclear i le_rfl (by omega)]
      exact ht

/-- Freeing a range of pages that are all reserved. -/
theorem clearBits_ret (s : Boot) (i : Word) (n : Nat) (hn : i.toNat + n < 2 ^ 32)
    (hset : ∀ nr : Word, i.toNat ≤ nr.toNat → nr.toNat < i.toNat + n → s.oldBit nr = true) :
    ∃ t, clearBits s i n = .ret () t := by
  induction n generalizing s i with
  | zero => exact ⟨s, rfl⟩
  | succ n ih =>
      have hsucc := toNat_succ (i := i) (by omega)
      obtain ⟨t, ht⟩ := ih (s.clearBit i) (i + 1) (by omega) fun nr h1 h2 => by
        rw [(bitsWritten_clearBit s i).bits, if_neg (by omega)]
        exact hset nr (by omega) (by omega)
      refine ⟨t, ?_⟩
      rw [clearBits, hset i le_rfl (by omega)]
      exact ht

theorem clearBits_written {s t : Boot} {i : Word} {n : Nat} (hn : i.toNat + n < 2 ^ 32)
    (h : clearBits s i n = .ret () t) : BitsWritten s t i.toNat (i.toNat + n) false := by
  induction n generalizing s i with
  | zero =>
      cases h
      exact .refl _ _ _
  | succ n ih =>
      have hsucc := toNat_succ (i := i) (by omega)
      rw [clearBits] at h
      split at h
      · have hrest := ih (by omega) h
        rw [hsucc, show i.toNat + 1 + n = i.toNat + (n + 1) by omega] at hrest
        exact (bitsWritten_clearBit s i).trans (by omega) (by omega) hrest
      · cases h

end XosKernel.Bootmem
