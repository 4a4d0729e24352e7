import Mathlib.Data.Set.Lattice
import Mathlib.Order.CompletePartialOrder
import Mathlib.Tactic.Common

/-! What an allocator is for, over any type of storage cells. Blocks that are each taken out of what is left
are pairwise disjoint (`Carved`). When cells also come back, the cells held are what was given and has
not come back since (`held`), and an allocator is sound when it holds no cell that it may still give. -/

namespace XosKernel.Carving

variable {α : Type*}

/-- The blocks were taken one after another out of `initial`, and `left` is what is left at most. -/
structure Carved (initial left : Set α) (blocks : List (Set α)) : Prop where
  pairwise : blocks.Pairwise Disjoint
  inside : ∀ b ∈ blocks, b ⊆ initial
  apart : ∀ b ∈ blocks, Disjoint b left
  left_subset : left ⊆ initial

theorem Carved.start (initial : Set α) : Carved initial initial [] :=
  ⟨.nil, fun _ hb => (List.not_mem_nil hb).elim, fun _ hb => (List.not_mem_nil hb).elim, Set.Subset.rfl⟩

theorem Carved.carve {initial left left' b : Set α} {blocks : List (Set α)} (h : Carved initial left blocks)
    (hb : b ⊆ left) (hleft : left' ⊆ left \ b) : Carved initial left' (b :: blocks) := by
  have hsub : left' ⊆ left := hleft.trans Set.sdiff_subset
  refine ⟨List.pairwise_cons.mpr ⟨fun c hc => ?_, h.pairwise⟩, fun c hc => ?_, fun c hc => ?_,
    hsub.trans h.left_subset⟩
  · exact ((h.apart c hc).mono_right hb).symm
  · rcases List.mem_cons.mp hc with rfl | hc
    · exact hb.trans h.left_subset
    · exact h.inside c hc
  · rcases List.mem_cons.mp hc with rfl | hc
    · exact Set.disjoint_of_subset_right hleft Set.disjoint_sdiff_right
    · exact (h.apart c hc).mono_right hsub

/-- A block is given, or cells come back. -/
inductive Move (α : Type*)
  | give (b : Set α)
  | back (r : Set α)

/-- The cells held after the moves, the last move first. -/
def held : List (Move α) → Set α
  | [] => ∅
  | .give b :: moves => b ∪ held moves
  | .back r :: moves => held moves \ r

theorem disjoint_held_give {free free' b : Set α} {moves : List (Move α)} (h : Disjoint (held moves) free)
    (hfree : free' ⊆ free \ b) : Disjoint (held (.give b :: moves)) free' := by
  refine Set.disjoint_union_left.mpr ⟨?_, h.mono_right (hfree.trans Set.sdiff_subset)⟩
  exact Set.disjoint_of_subset_right hfree Set.disjoint_sdiff_right

theorem disjoint_held_back {free free' r : Set α} {moves : List (Move α)} (h : Disjoint (held moves) free)
    (hfree : free' ⊆ free ∪ r) : Disjoint (held (.back r :: moves)) free' := by
  refine Set.disjoint_of_subset_right hfree (Set.disjoint_union_right.mpr ⟨?_, Set.disjoint_sdiff_left⟩)
  exact h.mono_left Set.sdiff_subset

end XosKernel.Carving
