import Mathlib.Algebra.Order.Group.Nat
import Mathlib.Tactic.Common

/-! Byte-addressed memory over `w`-bit addresses: single bytes, fills, little-endian words, block copies,
and the bit strings that the x86 instructions `bt`, `bts` and `btr` address by a base and a signed bit offset. A
range of memory is written `(b - a).toNat < n`: the `n` bytes from `a` on, across the end of the address
space too. -/

namespace XosKernel.Memory

abbrev Mem (w : Nat) := BitVec w → BitVec 8

variable {w : Nat}

def store8 (m : Mem w) (a : BitVec w) (v : BitVec 8) : Mem w := Function.update m a v

theorem store8_apply (m : Mem w) (a b : BitVec w) (v : BitVec 8) :
    store8 m a v b = if b = a then v else m b := Function.update_apply m a v b

@[simp] theorem store8_self (m : Mem w) (a : BitVec w) (v : BitVec 8) : store8 m a v a = v := by
  rw [store8_apply, if_pos rfl]

@[simp] theorem store8_store8 (m : Mem w) (a : BitVec w) (u v : BitVec 8) :
    store8 (store8 m a u) a v = store8 m a v := by
  rw [store8, store8, store8, Function.update_idem]

theorem add_ofNat_succ (a : BitVec w) (n : Nat) : a + BitVec.ofNat w (n + 1) = a + 1 + BitVec.ofNat w n := by
  rw [Nat.add_comm, BitVec.ofNat_add, ← BitVec.add_assoc]
  rfl

/-- A store loop over `n` bytes: `while (n-- > 0) *a++ = v`. -/
def fill (m : Mem w) (a : BitVec w) (v : BitVec 8) : Nat → Mem w
  | 0 => m
  | n + 1 => fill (store8 m a v) (a + 1) v n

/-- The offset in a range that starts one byte later. -/
theorem toNat_sub_succ {a b : BitVec w} (hne : b ≠ a) : (b - a).toNat = (b - (a + 1)).toNat + 1 := by
  have hpos : (b - a).toNat ≠ 0 := fun h => hne <| by
    have hzero : b - a = 0#w := BitVec.eq_of_toNat_eq (by simpa using h)
    rwa [BitVec.sub_eq_iff_eq_add, BitVec.zero_add] at hzero
  have hwidth : 0 < w := by
    rcases Nat.eq_zero_or_pos w with rfl | hpos'
    · exact absurd (BitVec.toNat_of_zero_length rfl (b - a)) hpos
    · exact hpos'
  have hone : (1 : BitVec w).toNat = 1 := BitVec.toNat_one hwidth
  have hle : (1 : BitVec w) ≤ b - a := by
    rw [BitVec.le_def, hone]
    omega
  rw [← BitVec.sub_sub, BitVec.toNat_sub_of_le hle, hone]
  omega

theorem toNat_sub_succ_lt {a b : BitVec w} (hne : b ≠ a) (n : Nat) :
    (b - (a + 1)).toNat < n ↔ (b - a).toNat < n + 1 := by
  rw [toNat_sub_succ hne]
  omega

/-- A range that does not cross the end of the address space. -/
theorem toNat_sub_lt_iff {a b : BitVec w} {n : Nat} (h : a.toNat + n ≤ 2 ^ w) :
    (b - a).toNat < n ↔ a.toNat ≤ b.toNat ∧ b.toNat < a.toNat + n := by
  have ha := a.isLt
  have hb := b.isLt
  rw [BitVec.toNat_sub]
  by_cases hle : a.toNat ≤ b.toNat
  · rw [show 2 ^ w - a.toNat + b.toNat = (b.toNat - a.toNat) + 2 ^ w by omega, Nat.add_mod_right,
      Nat.mod_eq_of_lt (by omega)]
    omega
  · rw [Nat.mod_eq_of_lt (by omega)]
    omega

theorem fill_apply (m : Mem w) (a b : BitVec w) (v : BitVec 8) (n : Nat) :
    fill m a v n b = if (b - a).toNat < n then v else m b := by
  induction n generalizing m a with
  | zero => simp [fill]
  | succ n ih =>
      rw [fill, ih, store8_apply]
      by_cases hba : b = a
      · simp [hba]
      · rw [if_neg hba]
        simp only [toNat_sub_succ_lt hba]

/-- A byte is the last one of the range that starts behind it. -/
theorem toNat_sub_succ_self (a : BitVec w) : (a - (a + 1)).toNat = 2 ^ w - 1 := by
  rw [← BitVec.sub_sub, BitVec.sub_self, BitVec.zero_sub,
    show -(1 : BitVec w) = BitVec.allOnes w from BitVec.neg_one_eq_allOnes, BitVec.toNat_allOnes]

/-- The bytes of a list, one after the other. -/
def storeList (m : Mem w) (a : BitVec w) : List (BitVec 8) → Mem w
  | [] => m
  | c :: l => storeList (store8 m a c) (a + 1) l

theorem storeList_apply (m : Mem w) (a b : BitVec w) {l : List (BitVec 8)} (hl : l.length ≤ 2 ^ w) :
    storeList m a l b = l[(b - a).toNat]?.getD (m b) := by
  induction l generalizing m a with
  | nil => rfl
  | cons c l ih =>
      rw [List.length_cons] at hl
      rw [storeList, ih _ _ (by omega), store8_apply]
      by_cases hba : b = a
      · rw [hba, BitVec.sub_self, toNat_sub_succ_self, List.getElem?_eq_none (by omega)]
        simp
      · rw [if_neg hba, toNat_sub_succ hba, List.getElem?_cons_succ]

theorem storeList_apply_of_le {m : Mem w} {a b : BitVec w} {l : List (BitVec 8)} (hl : l.length ≤ 2 ^ w)
    (h : l.length ≤ (b - a).toNat) : storeList m a l b = m b := by
  rw [storeList_apply m a b hl, List.getElem?_eq_none h, Option.getD_none]

theorem storeList_append (m : Mem w) (a : BitVec w) (l l' : List (BitVec 8)) :
    storeList m a (l ++ l') = storeList (storeList m a l) (a + BitVec.ofNat w l.length) l' := by
  induction l generalizing m a with
  | nil => simp [storeList]
  | cons c l ih =>
      rw [List.cons_append, storeList, storeList, ih, List.length_cons, add_ofNat_succ]

/-- Stores to different places commute. -/
theorem storeList_store8 {m : Mem w} {a b : BitVec w} {l : List (BitVec 8)} (hl : l.length ≤ 2 ^ w)
    (h : l.length ≤ (b - a).toNat) (v : BitVec 8) :
    storeList (store8 m b v) a l = store8 (storeList m a l) b v := by
  funext x
  rw [storeList_apply _ _ _ hl, store8_apply, store8_apply, storeList_apply _ _ _ hl]
  by_cases hx : x = b
  · rw [hx, List.getElem?_eq_none h]
    simp
  · rw [if_neg hx, if_neg hx]

/-- A little-endian 32-bit word. -/
def load32 (m : Mem w) (a : BitVec w) : BitVec 32 :=
  m (a + 3) ++ m (a + 2) ++ m (a + 1) ++ m a

/-- A byte of a word, counted from the low end. -/
def byteOf (v : BitVec 32) (k : Nat) : BitVec 8 := v.extractLsb' (8 * k) 8

def store32 (m : Mem w) (a : BitVec w) (v : BitVec 32) : Mem w :=
  store8 (store8 (store8 (store8 m a (byteOf v 0)) (a + 1) (byteOf v 1)) (a + 2) (byteOf v 2))
    (a + 3) (byteOf v 3)

/-- A little-endian 64-bit word. -/
def load64 (m : Mem w) (a : BitVec w) : BitVec 64 := load32 m (a + 4) ++ load32 m a

def store64 (m : Mem w) (a : BitVec w) (v : BitVec 64) : Mem w :=
  store32 (store32 m a (v.extractLsb' 0 32)) (a + 4) (v.extractLsb' 32 32)

/-- `memcpy` of `n` bytes from one block into another. -/
def copy (dst : Mem w) (a : BitVec w) (src : Mem w) (c : BitVec w) (n : Nat) : Mem w := fun b =>
  if (b - a).toNat < n then src (c + (b - a)) else dst b

end XosKernel.Memory
