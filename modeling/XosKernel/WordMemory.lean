import XosKernel.ByteMemory

/-! Words and arrays of words in a 32-bit memory: a load after a store, the bytes that a store leaves, and
pages of 1024 words. The same for words of 64 bits in a 64-bit memory. -/

namespace XosKernel.Memory

variable {m m' : Mem 32} {a b c : BitVec 32} {v : BitVec 32}

theorem load32_congr (h : ∀ b, (b - a).toNat < 4 → m b = m' b) : load32 m a = load32 m' a := by
  have hbyte (i : BitVec 32) (hi : i.toNat < 4) : m (a + i) = m' (a + i) := by
    apply h
    rwa [BitVec.add_comm, BitVec.add_sub_cancel]
  have hzero : m a = m' a := by simpa using hbyte 0 (by decide)
  rw [load32, load32, hzero, hbyte 1 (by decide), hbyte 2 (by decide), hbyte 3 (by decide)]

theorem byteOf_append (v : BitVec 32) : byteOf v 3 ++ byteOf v 2 ++ byteOf v 1 ++ byteOf v 0 = v := by
  ext i hi
  simp only [byteOf, BitVec.getElem_append, BitVec.getElem_extractLsb']
  split_ifs <;> simp only [BitVec.getLsbD, BitVec.getElem_eq_testBit_toNat] <;> congr 1 <;> omega

@[simp] theorem load32_store32 (m : Mem 32) (a v : BitVec 32) : load32 (store32 m a v) a = v := by
  have hne (i j : BitVec 32) (hij : i ≠ j) : a + i ≠ a + j := fun h => hij (by simpa using h)
  have hne' (i : BitVec 32) (hi : i ≠ 0) : a ≠ a + i := fun h => hi (by simpa using h.symm)
  have hbytes : load32 (store32 m a v) a = byteOf v 3 ++ byteOf v 2 ++ byteOf v 1 ++ byteOf v 0 := by
    simp only [load32, store32, store8_apply, if_true, if_neg (hne 2 3 (by decide)), if_neg (hne 1 3 (by decide)),
      if_neg (hne 1 2 (by decide)), if_neg (hne' 3 (by decide)), if_neg (hne' 2 (by decide)),
      if_neg (hne' 1 (by decide))]
  rw [hbytes, byteOf_append]

theorem store32_apply_of_not_lt (h : ¬ (b - a).toNat < 4) : store32 m a v b = m b := by
  have hne (i : BitVec 32) (hi : i.toNat < 4) : b ≠ a + i := by
    rintro rfl
    rw [BitVec.add_comm, BitVec.add_sub_cancel] at h
    exact h hi
  have hzero : b ≠ a := by simpa using hne 0 (by decide)
  simp only [store32, store8_apply, if_neg hzero, if_neg (hne 1 (by decide)), if_neg (hne 2 (by decide)),
    if_neg (hne 3 (by decide))]

theorem load32_store32_of_disjoint (h : ∀ b, (b - a).toNat < 4 → ¬ (b - c).toNat < 4) :
    load32 (store32 m c v) a = load32 m a :=
  load32_congr fun b hb => store32_apply_of_not_lt (h b hb)

/-! ### Pages of words -/

/-- The `k`-th word of the array at `p`. -/
def entry (p : BitVec 32) (k : Nat) : BitVec 32 := p + BitVec.ofNat 32 (4 * k)

/-- A byte of the page at `p`. -/
def InPage (p b : BitVec 32) : Prop := (b - p).toNat < 4096

theorem inPage_of_entry {p : BitVec 32} {k : Nat} (hk : k < 1024) (h : (b - entry p k).toNat < 4) :
    InPage p b := by
  simp only [entry, InPage, BitVec.toNat_sub, BitVec.toNat_add, BitVec.toNat_ofNat] at h ⊢
  omega

theorem entry_disjoint {p : BitVec 32} {k l : Nat} (hk : k < 1024) (hl : l < 1024) (hne : k ≠ l)
    (h : (b - entry p k).toNat < 4) : ¬ (b - entry p l).toNat < 4 := by
  simp only [entry, BitVec.toNat_sub, BitVec.toNat_add, BitVec.toNat_ofNat] at h ⊢
  omega

/-- Two pages that share a byte are the same. -/
theorem eq_of_inPage {p q : BitVec 32} (hp : p.toNat % 4096 = 0) (hq : q.toNat % 4096 = 0) (hpb : InPage p b)
    (hqb : InPage q b) : p = q := by
  apply BitVec.eq_of_toNat_eq
  simp only [InPage, BitVec.toNat_sub] at hpb hqb
  omega

section

variable {p : BitVec 32} {k l : Nat}

theorem load32_entry_congr (hk : k < 1024) (h : ∀ b, InPage p b → m b = m' b) :
    load32 m (entry p k) = load32 m' (entry p k) :=
  load32_congr fun b hb => h b (inPage_of_entry hk hb)

/-- A store into an entry of a page, read at any entry of the page. -/
theorem load32_store32_entry (hk : k < 1024) (hl : l < 1024) (v : BitVec 32) :
    load32 (store32 m (entry p l) v) (entry p k) = if k = l then v else load32 m (entry p k) := by
  by_cases hkl : k = l
  · rw [if_pos hkl, hkl, load32_store32]
  · rw [if_neg hkl]
    exact load32_store32_of_disjoint fun b hb => entry_disjoint hk hl hkl hb

theorem store32_entry_apply (hl : l < 1024) (h : ¬ InPage p b) : store32 m (entry p l) v b = m b :=
  store32_apply_of_not_lt fun hb => h (inPage_of_entry hl hb)

theorem load32_eq_zero (hk : k < 1024) (h : ∀ b, InPage p b → m b = 0) : load32 m (entry p k) = 0 := by
  calc
    load32 m (entry p k) = load32 (fun _ => 0) (entry p k) := load32_entry_congr hk h
    _ = 0 := show (0#8 ++ 0#8 ++ 0#8 ++ 0#8 : BitVec 32) = 0 by decide

end

/-! ### Words in a 64-bit memory -/

section

variable {m m' : Mem 64} {a b c v : BitVec 64}

theorem load64_congr (h : ∀ b, (b - a).toNat < 8 → m b = m' b) : load64 m a = load64 m' a := by
  have hbyte (i : BitVec 64) (hi : i.toNat < 8) : m (a + i) = m' (a + i) := by
    apply h
    rwa [BitVec.add_comm, BitVec.add_sub_cancel]
  have hzero : m a = m' a := by simpa using hbyte 0 (by decide)
  simp only [load64, load32, BitVec.add_assoc]
  rw [hzero, hbyte 1 (by decide), hbyte 2 (by decide), hbyte 3 (by decide), hbyte 4 (by decide),
    hbyte (4 + 1) (by decide), hbyte (4 + 2) (by decide), hbyte (4 + 3) (by decide)]

theorem store64_apply_of_not_lt (h : ¬ (b - a).toNat < 8) : store64 m a v b = m b := by
  have hne (i : BitVec 64) (hi : i.toNat < 8) : b ≠ a + i := by
    rintro rfl
    rw [BitVec.add_comm, BitVec.add_sub_cancel] at h
    exact h hi
  have hzero : b ≠ a := by simpa using hne 0 (by decide)
  simp only [store64, store32, store8_apply, BitVec.add_assoc, if_neg hzero, if_neg (hne 1 (by decide)),
    if_neg (hne 2 (by decide)), if_neg (hne 3 (by decide)), if_neg (hne 4 (by decide)),
    if_neg (hne (4 + 1) (by decide)), if_neg (hne (4 + 2) (by decide)), if_neg (hne (4 + 3) (by decide))]

@[simp] theorem load64_store64 (m : Mem 64) (a v : BitVec 64) : load64 (store64 m a v) a = v := by
  have hbytes : load64 (store64 m a v) a =
      (byteOf (v.extractLsb' 32 32) 3 ++ byteOf (v.extractLsb' 32 32) 2 ++ byteOf (v.extractLsb' 32 32) 1 ++
        byteOf (v.extractLsb' 32 32) 0) ++
      (byteOf (v.extractLsb' 0 32) 3 ++ byteOf (v.extractLsb' 0 32) 2 ++ byteOf (v.extractLsb' 0 32) 1 ++
        byteOf (v.extractLsb' 0 32) 0) := by
    simp [load64, load32, store64, store32, store8_apply, BitVec.add_assoc]
  rw [hbytes, byteOf_append, byteOf_append, BitVec.extractLsb'_append_extractLsb'_eq_extractLsb' (by omega)]
  exact BitVec.extractLsb'_eq_self

theorem load64_store64_of_disjoint (h : ∀ b, (b - a).toNat < 8 → ¬ (b - c).toNat < 8) :
    load64 (store64 m c v) a = load64 m a :=
  load64_congr fun b hb => store64_apply_of_not_lt (h b hb)

end

end XosKernel.Memory
