import XosKernel.EfiModel

/-! `efi_get_virtmap`: its loop ends on every map of less than two gigabytes with descriptors of some
size, and the part of the runtime map that it writes does not depend on what the block held. -/

namespace XosKernel.Efi

open Memory Loop

/-! ### The loop ends -/

theorem Virtmap.toNat_pos {s : Virtmap} (h : s.l.toNat < 2 ^ 31) : s.pos.toNat = s.l.toNat := by
  have hmsb : s.l.msb = false := BitVec.msb_eq_false_iff_two_mul_lt.mpr (by omega)
  rw [pos, BitVec.signExtend_eq_setWidth_of_msb_false hmsb, BitVec.toNat_setWidth]
  exact Nat.mod_eq_of_lt (by omega)

theorem Virtmap.enter_l (s : Virtmap) (novamap : Bool) (descSize : U64) :
    (s.enter novamap descSize).l = s.l := by
  unfold enter
  dsimp only
  split_ifs <;> rfl

theorem Virtmap.advance_toNat_l {s : Virtmap} {descSize : U64} (hl : s.l.toNat < 2 ^ 31)
    (hfit : s.l.toNat + descSize.toNat < 2 ^ 31) :
    (s.advance descSize).l.toNat = s.l.toNat + descSize.toNat := by
  show ((s.pos + descSize).setWidth 32).toNat = _
  rw [BitVec.toNat_setWidth, BitVec.toNat_add, toNat_pos hl]
  omega

/-- A pass that goes on advances `l` by one descriptor. -/
theorem virtmapPass_next {novamap : Bool} {mapSize descSize : U64} {s t : Virtmap}
    (h : virtmapPass novamap mapSize descSize s = .next t) :
    s.pos < mapSize ∧ ∃ u : Virtmap, u.l = s.l ∧ t = u.advance descSize := by
  unfold virtmapPass at h
  split_ifs at h with hlt hruntime
  · cases h
    exact ⟨hlt, s, rfl, rfl⟩
  · cases h
    exact ⟨hlt, _, s.enter_l novamap descSize, rfl⟩

theorem efiGetVirtmap_terminates {novamap : Bool} {map runtimeMap : Bytes} {mapSize descSize : U64}
    (hdesc : descSize ≠ 0) (hfit : mapSize.toNat + descSize.toNat ≤ 2 ^ 31) {fuel : Nat}
    (hfuel : mapSize.toNat < fuel) :
    ∃ v, efiGetVirtmap fuel novamap map mapSize descSize runtimeMap = some v := by
  have hpos : 0 < descSize.toNat := Nat.pos_of_ne_zero fun h => hdesc (BitVec.eq_of_toNat_eq h)
  have hzero : (0 : U32).toNat = 0 := rfl
  refine run_terminates (fun s => s.l.toNat < 2 ^ 31) (fun s => mapSize.toNat - s.l.toNat) ?_ fuel ?_ ?_
  · intro s t hs hnext
    obtain ⟨hlt, u, hul, rfl⟩ := virtmapPass_next hnext
    rw [BitVec.lt_def, Virtmap.toNat_pos hs] at hlt
    have hu : u.l.toNat < 2 ^ 31 := by rw [hul]; exact hs
    rw [Virtmap.advance_toNat_l hu (by rw [hul]; omega), hul]
    omega
  · show (0 : U32).toNat < 2 ^ 31
    omega
  · show mapSize.toNat - (0 : U32).toNat < fuel
    omega

/-! ### The runtime map -/

/-- Two runs of the loop that differ in the bytes of the runtime map past `out` only. -/
structure Virtmap.Same (s t : Virtmap) : Prop where
  l : s.l = t.l
  efiVirtBase : s.efiVirtBase = t.efiVirtBase
  map : s.map = t.map
  out : s.out = t.out
  count : s.count = t.count
  below : ∀ i : U64, i < s.out → s.runtimeMap i = t.runtimeMap i

/-- A byte below the end of a copy is in the copy or below its start. -/
theorem sub_lt_or_lt {out d i : U64} (h : i < out + d) : (i - out).toNat < d.toNat ∨ i < out := by
  rw [BitVec.lt_def, BitVec.toNat_add] at h
  rw [BitVec.lt_def, BitVec.toNat_sub]
  omega

theorem Virtmap.Same.emit {s t : Virtmap} (h : s.Same t) (descSize : U64) :
    (s.emit descSize).Same (t.emit descSize) := by
  obtain ⟨hl, hbase, hmap, hout, hcount, hbelow⟩ := h
  have hpos : s.pos = t.pos := by rw [pos, hl, pos]
  refine ⟨hl, hbase, hmap, ?_, ?_, fun i hi => ?_⟩
  · exact congrArg (· + descSize) hout
  · exact congrArg (· + 1) hcount
  · show copy s.runtimeMap s.out s.map s.pos descSize.toNat i =
      copy t.runtimeMap t.out t.map t.pos descSize.toNat i
    rw [← hout, ← hmap, ← hpos]
    unfold copy
    by_cases hin : (i - s.out).toNat < descSize.toNat
    · rw [if_pos hin, if_pos hin]
    · rw [if_neg hin, if_neg hin]
      exact hbelow i ((sub_lt_or_lt hi).resolve_left hin)

theorem Virtmap.Same.setVirtAddr {s t : Virtmap} (h : s.Same t) (v : U64) :
    (s.setVirtAddr v).Same (t.setVirtAddr v) := by
  refine { h with map := ?_ }
  show store64 s.map (s.pos + 16) v = store64 t.map (t.pos + 16) v
  rw [h.map, pos, h.l, pos]

theorem Virtmap.Same.advance {s t : Virtmap} (h : s.Same t) (descSize : U64) :
    (s.advance descSize).Same (t.advance descSize) := by
  refine { h with l := ?_ }
  show (s.pos + descSize).setWidth 32 = (t.pos + descSize).setWidth 32
  rw [pos, h.l, pos]

section

variable {s t : Virtmap} (h : s.Same t)

include h

theorem Virtmap.Same.physAddr : s.physAddr = t.physAddr := by
  rw [Virtmap.physAddr, Virtmap.physAddr, pos, pos, h.l, h.map]

theorem Virtmap.Same.numPages : s.numPages = t.numPages := by
  rw [Virtmap.numPages, Virtmap.numPages, pos, pos, h.l, h.map]

theorem Virtmap.Same.attribute : s.attribute = t.attribute := by
  rw [Virtmap.attribute, Virtmap.attribute, pos, pos, h.l, h.map]

theorem Virtmap.Same.place (size virtAddr : U64) : (s.place size virtAddr).Same (t.place size virtAddr) := by
  unfold Virtmap.place
  dsimp only
  rw [h.physAddr, h.efiVirtBase]
  exact { h.setVirtAddr _ with efiVirtBase := rfl }

theorem Virtmap.Same.enter (novamap : Bool) (descSize : U64) :
    (s.enter novamap descSize).Same (t.enter novamap descSize) := by
  unfold Virtmap.enter
  dsimp only
  rw [h.physAddr, h.numPages]
  split_ifs
  · exact h.setVirtAddr _
  · exact (h.setVirtAddr _).emit _
  · exact ((h.setVirtAddr _).place _ _).emit _

theorem virtmapPass_same (novamap : Bool) (mapSize descSize : U64) :
    (virtmapPass novamap mapSize descSize s).Rel Virtmap.Same Virtmap.Same
      (virtmapPass novamap mapSize descSize t) := by
  have hpos : s.pos = t.pos := by rw [Virtmap.pos, h.l, Virtmap.pos]
  unfold virtmapPass
  rw [h.attribute, hpos]
  split_ifs
  · exact h.advance _
  · exact (h.enter novamap descSize).advance _
  · exact h

end

/-- What `efi_get_virtmap` writes does not depend on what the runtime map held. -/
theorem efiGetVirtmap_same {fuel : Nat} {novamap : Bool} {map old : Bytes} {mapSize descSize : U64}
    {v : Virtmap} (h : efiGetVirtmap fuel novamap map mapSize descSize old = some v) (old' : Bytes) :
    ∃ v', efiGetVirtmap fuel novamap map mapSize descSize old' = some v' ∧ v.Same v' := by
  refine run_rel (fun s t hst => virtmapPass_same hst novamap mapSize descSize) fuel ?_ h
  refine ⟨rfl, rfl, rfl, rfl, rfl, fun i hi => ?_⟩
  exact absurd hi (BitVec.not_lt_zero)

end XosKernel.Efi
