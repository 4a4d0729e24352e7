import XosKernel.E820Points

/-! The `still_changing` loop of `sanitize_e820_map` as it stands in the source: the pointers in `change_point` are swapped
where they stand, and the loop over them is run again until nothing was swapped. The change points come out in the
order that the sweep needs. -/

namespace XosKernel.E820

variable {n : Nat} (biosmap : Fin n → E820Entry)

/-- `while (still_changing)` over `change_point`, at most `fuel` rounds. -/
def stillChanging (fuel : Nat) (changePoint : List (ChangeMember n)) : Option (List (ChangeMember n)) :=
  BubbleSort.sortInPlace (swapNeeded biosmap) fuel changePoint

theorem stillChanging_eq (changePoint : List (ChangeMember n)) :
    stillChanging biosmap (changePoint.length * changePoint.length + 1) changePoint =
      sortChangePoints biosmap changePoint :=
  BubbleSort.sortInPlace_eq _ _

/-- The order of the points: by address, and at one address the starts before the ends. -/
structure InOrder (points : List (ChangeMember n)) : Prop where
  addr : points.Pairwise fun a b => a.addr.toNat ≤ b.addr.toNat
  startsFirst : points.Pairwise fun a b =>
    ∀ i j, a = endPoint biosmap i → b = startPoint biosmap j → a.addr ≠ b.addr

variable {biosmap}

/-- The test at the head of `sanitize_e820_map` lets exactly the maps pass whose regions end within the 64-bit
addresses. -/
theorem noWrap_iff : NoWrap biosmap ↔ ∀ i, ¬ (biosmap i).addr + (biosmap i).size < (biosmap i).addr := by
  refine forall_congr' fun i => ?_
  have haddr := (biosmap i).addr.isLt
  have hsize := (biosmap i).size.isLt
  rw [BitVec.lt_def, BitVec.toNat_add]
  omega

theorem pbios_of_mem_changePoints {m : ChangeMember n} (hm : m ∈ changePoints biosmap) :
    (biosmap m.pbios).size ≠ 0 ∧ (m = startPoint biosmap m.pbios ∨ m = endPoint biosmap m.pbios) := by
  obtain ⟨i, hsize, rfl | rfl⟩ := (mem_changePoints m).mp hm
  · exact ⟨hsize, .inl rfl⟩
  · exact ⟨hsize, .inr rfl⟩

/-- Points that the comparison does not want to swap are in order. -/
theorem NoWrap.inOrder (h : NoWrap biosmap) {points : List (ChangeMember n)}
    (hmem : ∀ m ∈ points, m ∈ changePoints biosmap)
    (hsorted : points.Pairwise fun a b => swapNeeded biosmap b a = false) : InOrder biosmap points := by
  refine ⟨hsorted.imp fun {a b} hab => (swapNeeded_eq_false.mp hab).1, ?_⟩
  refine hsorted.imp_of_mem fun {a b} ha _ hab i j hend hstart haddr => ?_
  have hsize : (biosmap i).size ≠ 0 := by
    have := (pbios_of_mem_changePoints (hmem a ha)).1
    rwa [hend] at this
  have hstartA : isStart biosmap a = true :=
    (swapNeeded_eq_false.mp hab).2 (congrArg BitVec.toNat haddr) (hstart ▸ isStart_startPoint j)
  rw [hend, h.isStart_endPoint hsize] at hstartA
  cases hstartA

/-- **The sort of the change points** ends, loses no point and puts them in the order that the sweep needs. -/
theorem stillChanging_inOrder (h : NoWrap biosmap) :
    ∃ points, stillChanging biosmap ((changePoints biosmap).length * (changePoints biosmap).length + 1)
        (changePoints biosmap) = some points ∧
      points.Perm (changePoints biosmap) ∧ InOrder biosmap points := by
  obtain ⟨points, hsort, hperm, hsorted⟩ := BubbleSort.sort_sorted swapNeeded_asymm swapNeeded_trans
    (Nat.lt_succ_of_le (@BubbleSort.inversions_le _ (swapNeeded biosmap) (changePoints biosmap)))
  refine ⟨points, ?_, hperm, ?_⟩
  · rw [stillChanging_eq]
    exact hsort
  · exact h.inOrder (fun m hm => hperm.mem_iff.mp hm) hsorted

/-- Two regions that meet, the upper one first. -/
def meetingRegions (i : Fin 2) : E820Entry := if i = 0 then ⟨4096, 4096, 1⟩ else ⟨0, 4096, 2⟩

theorem stillChanging_inOrder_two : ∃ points,
    stillChanging meetingRegions ((changePoints meetingRegions).length * (changePoints meetingRegions).length + 1)
        (changePoints meetingRegions) = some points ∧
      points.Perm (changePoints meetingRegions) ∧ InOrder meetingRegions points :=
  stillChanging_inOrder (show ∀ i, _ < _ by decide)

end XosKernel.E820
