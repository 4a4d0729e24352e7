import XosKernel.BootmemNode

/-! The first-fit scan of `__alloc_bootmem_core`: the page it stops at starts a run of free pages inside the
node, and lies on the grid that the scan walks. -/

namespace XosKernel.Bootmem

theorem restFree_spec {s : Boot} {eidx j : Word} {n : Nat} (hn : j.toNat + n < 2 ^ 32)
    (h : restFree s eidx j n = true) :
    ∀ nr : Word, j.toNat ≤ nr.toNat → nr.toNat < j.toNat + n → nr < eidx ∧ s.oldBit nr = false := by
  induction n generalizing j with
  | zero => intro nr h1 h2; omega
  | succ n ih =>
      rw [restFree] at h
      split at h
      · cases h
      rename_i hlt
      split at h
      · cases h
      rename_i hbit
      rw [Boot.testBit_eq, Bool.not_eq_true] at hbit
      have hsucc := toNat_succ (i := j) (by omega)
      have hrest := ih (by omega) h
      intro nr h1 h2
      by_cases hnr : nr = j
      · rw [hnr]
        exact ⟨BitVec.not_le.mp hlt, hbit⟩
      · have hne : nr.toNat ≠ j.toNat := fun he => hnr (BitVec.eq_of_toNat_eq he)
        exact hrest nr (by omega) (by omega)

/-- What the scan has found: a page on the grid that starts a run of free pages. -/
structure Found (s : Boot) (eidx areasize : Word) (Grid : Word → Prop) (start : Word) : Prop where
  grid : Grid start
  lt : start < eidx
  free : ∀ nr : Word, start.toNat ≤ nr.toNat → nr.toNat < start.toNat + areasize.toNat →
    nr < eidx ∧ s.oldBit nr = false

theorem scanFrom_found {s : Boot} {eidx areasize incr preferred start : Word} {Grid : Word → Prop}
    (hpos : 1 ≤ areasize.toNat) (hsize : eidx.toNat + areasize.toNat < 2 ^ 32)
    (hgrid : ∀ i, i < eidx → Grid i → Grid (i + incr)) (hpref : Grid preferred)
    (h : scanFrom s eidx areasize incr preferred = some (some start)) :
    Found s eidx areasize Grid start := by
  refine @Loop.run_sound _ _ _ Grid (fun r => ∀ i, r = some i → Found s eidx areasize Grid i)
    ?_ ?_ wordCount _ _ hpref h start rfl
  · intro i i' hi hbody
    split at hbody
    · rename_i hlt
      split at hbody
      · cases hbody
        exact hgrid i hlt hi
      · split at hbody
        · cases hbody
        · cases hbody
          exact hgrid i hlt hi
    · cases hbody
  · intro i r hi hbody
    split at hbody
    · rename_i hlt
      split at hbody
      · cases hbody
      rename_i hbit
      rw [Boot.testBit_eq, Bool.not_eq_true] at hbit
      split at hbody
      · rename_i hrest
        cases hbody
        intro i' hi'
        cases hi'
        have hlt' := BitVec.lt_def.mp hlt
        have hsucc := toNat_succ (i := i) (by omega)
        have harea : (i + areasize).toNat = i.toNat + areasize.toNat := by
          rw [BitVec.toNat_add, Nat.mod_eq_of_lt (by omega)]
        refine ⟨hi, hlt, fun nr h1 h2 => ?_⟩
        by_cases hnr : nr = i
        · rw [hnr]
          exact ⟨hlt, hbit⟩
        · have hne : nr.toNat ≠ i.toNat := fun he => hnr (BitVec.eq_of_toNat_eq he)
          refine restFree_spec ?_ hrest nr (by omega) ?_ <;> rw [passes, harea, hsucc] <;> omega
      · cases hbody
    · cases hbody
      intro i' hi'
      cases hi'

theorem scan_found {s : Boot} {eidx areasize incr offset preferred start : Word} {Grid : Word → Prop}
    (hpos : 1 ≤ areasize.toNat) (hsize : eidx.toNat + areasize.toNat < 2 ^ 32)
    (hgrid : ∀ i, i < eidx → Grid i → Grid (i + incr)) (hpref : Grid preferred) (hoffset : Grid offset)
    (h : scan s eidx areasize incr offset preferred = some (some start)) :
    Found s eidx areasize Grid start := by
  rw [scan, Option.join_eq_some_iff] at h
  refine @Loop.run_sound _ _ _ Grid
    (fun r => ∀ i, r = some (some i) → Found s eidx areasize Grid i) ?_ ?_ wordCount _ _ hpref h start rfl
  · intro p p' hp hbody
    split at hbody
    · cases hbody
    · cases hbody
    · split at hbody
      · cases hbody
        exact hoffset
      · cases hbody
  · intro p r hp hbody i hi
    subst hi
    split at hbody
    · cases hbody
    · rename_i hscan
      cases hbody
      exact scanFrom_found hpos hsize hgrid hp hscan
    · split at hbody
      · cases hbody
      · cases hbody

end XosKernel.Bootmem
