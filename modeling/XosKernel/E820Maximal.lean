import XosKernel.E820Copy
import XosKernel.E820WellFormed
import XosKernel.SetupMemory

/-! `e820` of a firmware map that is read exactly. The sweep never ends an entry where its type goes on, so a
page of usable memory lies in one entry, and `e820` calls it RAM although the map may report it in pieces. -/

namespace XosKernel.E820

open Memory

variable {n : Nat} {biosmap : Fin n → E820Entry}

/-! ### Where the type changes -/

section

variable {pre rest : List (ChangeMember n)} {l l' : List (Fin n)} {s t : Sweep n} {point : ChangeMember n}

end

/-! ### The map that `sanitize_e820_map` leaves -/

/-- Two points at most for an entry. -/
theorem changePoints_length (biosmap : Fin n → E820Entry) : (changePoints biosmap).length ≤ 2 * n := by
  rw [changePoints, List.length_flatMap]
  have hsum : ∀ l : List (Fin n), (l.map fun i => (entryPoints biosmap i).length).sum ≤ 2 * l.length := fun l => by
    induction l with
    | nil => exact Nat.le_refl _
    | cons i l ih =>
        have hone : (entryPoints biosmap i).length ≤ 2 := by
          rw [entryPoints]
          split
          · exact Nat.le_refl _
          · exact Nat.zero_le _
        rw [List.map_cons, List.sum_cons, List.length_cons]
        omega
  have h := hsum (List.finRange n)
  rwa [List.length_finRange] at h

theorem SweepPoints.length_le {points : List (ChangeMember n)} (h : SweepPoints biosmap points)
    (hwrap : NoWrap biosmap) : points.length ≤ 2 * n := by
  have hperm : points.Perm (changePoints biosmap) :=
    (List.perm_ext_iff_of_nodup h.nodup hwrap.changePoints_nodup).mpr fun m =>
      (h.mem m).trans (mem_changePoints m).symm
  rw [hperm.length_eq]
  exact changePoints_length biosmap

theorem WellFormed.end_le {map new : List E820Entry} (h : WellFormed map new) {bound : Nat}
    (hmap : ∀ e ∈ map, e.addr.toNat + e.size.toNat ≤ bound) {e : E820Entry} (he : e ∈ new) :
    e.addr.toNat + e.size.toNat ≤ bound := by
  have hpos := size_pos (h.nonempty e he).1
  obtain ⟨f, hf, hcovers, -⟩ := h.covered e he (e.addr.toNat + e.size.toNat - 1) ⟨by omega, by omega⟩
  have hlast := hcovers.2
  have hbound := hmap f hf
  omega

/-- The entries of the new map wrap as little as those of the old one. -/
theorem WellFormed.noWrap {map new : List E820Entry} (h : WellFormed map new)
    (hwrap : ∀ e ∈ map, e.addr.toNat + e.size.toNat < 2 ^ 64) :
    ∀ e ∈ new, e.addr.toNat + e.size.toNat < 2 ^ 64 := fun e he =>
  Nat.lt_of_le_of_lt (h.end_le (fun f hf => Nat.le_sub_one_of_lt (hwrap f hf)) he) (by decide)

section

variable {e p : E820Entry}

theorem toNat_end (h : e.addr.toNat + e.size.toNat < 2 ^ 64) :
    (e.addr + e.size).toNat = e.addr.toNat + e.size.toNat := by
  rw [BitVec.toNat_add, Nat.mod_eq_of_lt h]

end

section

variable {map : List E820Entry}

end

/-! ### The map of the firmware -/

end XosKernel.E820
