import XosKernel.E820Sanitize
import Mathlib.Data.List.FinRange
import Mathlib.Data.List.Nodup

/-! The change points of a memory map and their order: every entry that is not empty has a start and an end,
and after the sort the points are in the order of their addresses, starts before ends. -/

namespace XosKernel.E820

variable {n : Nat} (biosmap : Fin n → E820Entry)

/-- The change point at the start of an entry. -/
def startPoint (i : Fin n) : ChangeMember n := ⟨i, (biosmap i).addr⟩

/-- The change point at the end of an entry. -/
def endPoint (i : Fin n) : ChangeMember n := ⟨i, (biosmap i).addr + (biosmap i).size⟩

/-- No entry ends above the last 64-bit address. -/
def NoWrap : Prop := ∀ i, (biosmap i).addr.toNat + (biosmap i).size.toNat < 2 ^ 64

/-- The points that the sweep goes through. -/
structure SweepPoints (points : List (ChangeMember n)) : Prop where
  mem : ∀ m, m ∈ points ↔ ∃ i, (biosmap i).size ≠ 0 ∧ (m = startPoint biosmap i ∨ m = endPoint biosmap i)
  nodup : points.Nodup
  sorted : points.Pairwise fun a b => swapNeeded biosmap b a = false

variable {biosmap}

theorem NoWrap.toNat_endPoint (h : NoWrap biosmap) (i : Fin n) :
    (endPoint biosmap i).addr.toNat = (biosmap i).addr.toNat + (biosmap i).size.toNat := by
  rw [endPoint, BitVec.toNat_add, Nat.mod_eq_of_lt (h i)]

theorem size_pos {e : E820Entry} (h : e.size ≠ 0) : 0 < e.size.toNat :=
  Nat.pos_of_ne_zero fun hzero => h (BitVec.eq_of_toNat_eq hzero)

theorem isStart_startPoint (i : Fin n) : isStart biosmap (startPoint biosmap i) = true := by
  rw [isStart, startPoint, beq_self_eq_true]

theorem NoWrap.isStart_endPoint (h : NoWrap biosmap) {i : Fin n} (hsize : (biosmap i).size ≠ 0) :
    isStart biosmap (endPoint biosmap i) = false := by
  rw [isStart, beq_eq_false_iff_ne]
  intro heq
  have hnat := h.toNat_endPoint i
  rw [heq] at hnat
  have hpos := size_pos hsize
  have hstart : (biosmap (endPoint biosmap i).pbios).addr.toNat = (biosmap i).addr.toNat := rfl
  omega

theorem NoWrap.startPoint_ne_endPoint (h : NoWrap biosmap) {i j : Fin n} (hsize : (biosmap j).size ≠ 0) :
    startPoint biosmap i ≠ endPoint biosmap j := by
  intro heq
  have hstart : isStart biosmap (startPoint biosmap i) = true := isStart_startPoint i
  rw [heq, h.isStart_endPoint hsize] at hstart
  cases hstart

theorem startPoint_inj {i j : Fin n} (h : startPoint biosmap i = startPoint biosmap j) : i = j :=
  congrArg ChangeMember.pbios h

theorem endPoint_inj {i j : Fin n} (h : endPoint biosmap i = endPoint biosmap j) : i = j :=
  congrArg ChangeMember.pbios h

theorem mem_entryPoints {m : ChangeMember n} {i : Fin n} : m ∈ entryPoints biosmap i ↔
    (biosmap i).size ≠ 0 ∧ (m = startPoint biosmap i ∨ m = endPoint biosmap i) := by
  by_cases hsize : (biosmap i).size = 0 <;> simp [entryPoints, hsize, startPoint, endPoint]

theorem mem_changePoints (m : ChangeMember n) : m ∈ changePoints biosmap ↔
    ∃ i, (biosmap i).size ≠ 0 ∧ (m = startPoint biosmap i ∨ m = endPoint biosmap i) := by
  simp only [changePoints, List.mem_flatMap, List.mem_finRange, true_and, mem_entryPoints]

theorem pbios_of_mem_entryPoints {m : ChangeMember n} {i : Fin n} (h : m ∈ entryPoints biosmap i) :
    m.pbios = i := by
  obtain ⟨-, rfl | rfl⟩ := mem_entryPoints.mp h <;> rfl

theorem NoWrap.changePoints_nodup (h : NoWrap biosmap) : (changePoints biosmap).Nodup := by
  rw [changePoints, List.nodup_flatMap]
  refine ⟨fun i _ => ?_, (List.nodup_finRange n).imp fun {i j} hij => ?_⟩
  · rw [entryPoints]
    split
    · rename_i hsize
      have hne := h.startPoint_ne_endPoint (i := i) hsize
      simpa [startPoint, endPoint] using hne
    · exact .nil
  · intro m hi hj
    exact hij ((pbios_of_mem_entryPoints hi).symm.trans (pbios_of_mem_entryPoints hj))

/-! ### The order of the points -/

theorem swapNeeded_eq_true {a b : ChangeMember n} : swapNeeded biosmap a b = true ↔
    a.addr.toNat < b.addr.toNat ∨
      (a.addr.toNat = b.addr.toNat ∧ isStart biosmap a = true ∧ isStart biosmap b = false) := by
  simp [swapNeeded, BitVec.lt_def, BitVec.toNat_inj, and_assoc]

theorem swapNeeded_eq_false {a b : ChangeMember n} : swapNeeded biosmap b a = false ↔
    a.addr.toNat ≤ b.addr.toNat ∧
      (a.addr.toNat = b.addr.toNat → isStart biosmap b = true → isStart biosmap a = true) := by
  rw [← Bool.not_eq_true, swapNeeded_eq_true]
  cases isStart biosmap a <;> cases isStart biosmap b <;> grind

theorem swapNeeded_asymm (a b : ChangeMember n) (h : swapNeeded biosmap a b = true) :
    swapNeeded biosmap b a = false := by
  rw [swapNeeded_eq_true] at h
  rw [swapNeeded_eq_false]
  rcases h with hlt | ⟨heq, ha, hb⟩
  · exact ⟨by omega, fun heq => by omega⟩
  · exact ⟨by omega, fun _ _ => ha⟩

theorem swapNeeded_trans (a b c : ChangeMember n) (hab : swapNeeded biosmap b a = false)
    (hbc : swapNeeded biosmap c b = false) : swapNeeded biosmap c a = false := by
  rw [swapNeeded_eq_false] at *
  exact ⟨by omega, fun heq hc => hab.2 (by omega) (hbc.2 (by omega) hc)⟩

/-- The sort ends, and the sweep goes through the change points in order. -/
theorem NoWrap.sortChangePoints_spec (h : NoWrap biosmap) :
    ∃ points, sortChangePoints biosmap (changePoints biosmap) = some points ∧ SweepPoints biosmap points := by
  obtain ⟨points, hsort, hperm, hsorted⟩ := BubbleSort.sort_sorted swapNeeded_asymm swapNeeded_trans
    (Nat.lt_succ_of_le (@BubbleSort.inversions_le _ (swapNeeded biosmap) (changePoints biosmap)))
  refine ⟨points, hsort, fun m => ?_, hperm.nodup_iff.mpr h.changePoints_nodup, hsorted⟩
  rw [hperm.mem_iff, mem_changePoints]

/-! ### A point in the middle of the sweep -/

section

variable {pre rest : List (ChangeMember n)} {point m : ChangeMember n}

theorem SweepPoints.le_of_mem_pre (h : SweepPoints biosmap (pre ++ point :: rest)) (hm : m ∈ pre) :
    m.addr.toNat ≤ point.addr.toNat :=
  (swapNeeded_eq_false.mp ((List.pairwise_append.mp h.sorted).2.2 m hm point List.mem_cons_self)).1

theorem SweepPoints.le_of_mem_rest (h : SweepPoints biosmap (pre ++ point :: rest)) (hm : m ∈ rest) :
    point.addr.toNat ≤ m.addr.toNat :=
  (swapNeeded_eq_false.mp (List.rel_of_pairwise_cons (List.pairwise_append.mp h.sorted).2.1 hm)).1

/-- The points from `point` on come at its address or after it. -/
theorem SweepPoints.le_of_mem_point (h : SweepPoints biosmap (pre ++ point :: rest)) :
    ∀ m ∈ point :: rest, point.addr.toNat ≤ m.addr.toNat := by
  intro m hm
  rcases List.mem_cons.mp hm with rfl | hm
  · exact Nat.le_refl _
  · exact h.le_of_mem_rest hm

/-- The points up to `point` come at its address or before it. -/
theorem SweepPoints.le_point_of_mem (h : SweepPoints biosmap (pre ++ point :: rest)) :
    ∀ m ∈ pre ++ [point], m.addr.toNat ≤ point.addr.toNat := by
  intro m hm
  rcases List.mem_append.mp hm with hm | hm
  · exact h.le_of_mem_pre hm
  · rw [List.mem_singleton.mp hm]

theorem SweepPoints.not_mem_pre (h : SweepPoints biosmap (pre ++ point :: rest)) : point ∉ pre := fun hm =>
  (List.nodup_append.mp h.nodup).2.2 point hm point List.mem_cons_self rfl

theorem SweepPoints.start_mem (h : SweepPoints biosmap (pre ++ rest)) {i : Fin n}
    (hi : (biosmap i).size ≠ 0) : startPoint biosmap i ∈ pre ∨ startPoint biosmap i ∈ rest :=
  List.mem_append.mp ((h.mem _).mpr ⟨i, hi, .inl rfl⟩)

theorem SweepPoints.end_mem (h : SweepPoints biosmap (pre ++ rest)) {i : Fin n}
    (hi : (biosmap i).size ≠ 0) : endPoint biosmap i ∈ pre ∨ endPoint biosmap i ∈ rest :=
  List.mem_append.mp ((h.mem _).mpr ⟨i, hi, .inr rfl⟩)

/-- A start in the sweep belongs to an entry that is not empty. -/
theorem SweepPoints.size_ne (h : SweepPoints biosmap (pre ++ rest)) (hwrap : NoWrap biosmap) {i : Fin n}
    (hi : startPoint biosmap i ∈ pre) : (biosmap i).size ≠ 0 := by
  obtain ⟨j, hj, hstart | hend⟩ := (h.mem _).mp (List.mem_append_left rest hi)
  · rwa [startPoint_inj hstart]
  · exact absurd hend (hwrap.startPoint_ne_endPoint hj)

end

end XosKernel.E820
