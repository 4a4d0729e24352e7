import XosKernel.E820Points

/-! The sweep over the change points. While no entry is removed from an overlap list of more than two, the list
is the set of the entries that are open, and up to the address that the sweep has reached the new map gives
every address the greatest type of the entries that cover it. -/

namespace XosKernel.E820

variable {n : Nat} {biosmap : Fin n → E820Entry}

/-! ### The type of an address -/

/-- The greatest type of the entries that cover an address; 0 when no entry does. -/
structure TypeAt (biosmap : Fin n → E820Entry) (a : Nat) (type : Word) : Prop where
  ge : ∀ i, a ∈ (biosmap i).bytes → (biosmap i).type ≤ type
  attained : type = 0 ∨ ∃ i, a ∈ (biosmap i).bytes ∧ (biosmap i).type = type

theorem TypeAt.le {a : Nat} {t u : Word} (ht : TypeAt biosmap a t) (hu : TypeAt biosmap a u) : t ≤ u := by
  rcases ht.attained with rfl | ⟨i, hi, rfl⟩
  · exact BitVec.le_def.mpr (Nat.zero_le _)
  · exact hu.ge i hi

theorem TypeAt.unique {a : Nat} {t u : Word} (ht : TypeAt biosmap a t) (hu : TypeAt biosmap a u) : t = u :=
  BitVec.le_antisymm (ht.le hu) (hu.le ht)

/-- The loop over the overlap list, from any type on. -/
theorem foldl_type (l : List (Fin n)) (t : Word) :
    ∃ r, l.foldl (fun type i => if (biosmap i).type > type then (biosmap i).type else type) t = r ∧
      t ≤ r ∧ (∀ i ∈ l, (biosmap i).type ≤ r) ∧ (r = t ∨ ∃ i ∈ l, (biosmap i).type = r) := by
  induction l generalizing t with
  | nil => exact ⟨t, rfl, BitVec.le_refl t, by simp, .inl rfl⟩
  | cons i l ih =>
      obtain ⟨r, hr, hle, hge, hattained⟩ := ih (if (biosmap i).type > t then (biosmap i).type else t)
      have hstep : t ≤ (if (biosmap i).type > t then (biosmap i).type else t) ∧
          (biosmap i).type ≤ (if (biosmap i).type > t then (biosmap i).type else t) := by
        split
        · rename_i hgt
          exact ⟨BitVec.le_of_lt hgt, BitVec.le_refl _⟩
        · rename_i hle
          exact ⟨BitVec.le_refl _, BitVec.not_lt.mp hle⟩
      refine ⟨r, hr, BitVec.le_trans hstep.1 hle, fun j hj => ?_, ?_⟩
      · rcases List.mem_cons.mp hj with rfl | hj
        · exact BitVec.le_trans hstep.2 hle
        · exact hge j hj
      · rcases hattained with heq | ⟨j, hj, heq⟩
        · split at heq
          · exact .inr ⟨i, List.mem_cons_self, heq.symm⟩
          · exact .inl heq
        · exact .inr ⟨j, List.mem_cons_of_mem _ hj, heq⟩

theorem currentType_ge {l : List (Fin n)} {i : Fin n} (hi : i ∈ l) : (biosmap i).type ≤ currentType biosmap l := by
  obtain ⟨r, hr, -, hge, -⟩ := @foldl_type n biosmap l 0
  rw [currentType, hr]
  exact hge i hi

/-- When the overlap list is the set of the entries that cover an address, the loop finds its type. -/
theorem currentType_typeAt {l : List (Fin n)} {a : Nat} (h : ∀ i, i ∈ l ↔ a ∈ (biosmap i).bytes) :
    TypeAt biosmap a (currentType biosmap l) := by
  obtain ⟨r, hr, -, hge, hattained⟩ := @foldl_type n biosmap l 0
  rw [currentType, hr]
  refine ⟨fun i hi => hge i ((h i).mpr hi), hattained.imp_right ?_⟩
  rintro ⟨i, hi, heq⟩
  exact ⟨i, (h i).mp hi, heq⟩

/-! ### The overlap list -/

/-- From a list of one or two entries the loop removes the right one. -/
theorem removeEntries_eq_erase {p : Fin n} {l : List (Fin n)} (hlen : l.length ≤ 2) (hp : p ∈ l) :
    removeEntries p 0 l.length l = l.erase p := by
  match l, hlen with
  | [], _ => cases hp
  | [a], _ =>
      obtain rfl := List.mem_singleton.mp hp
      simp [removeEntries]
  | [a, b], _ =>
      by_cases hap : a = p
      · simp [removeEntries, hap]
      · have hbp : b = p := by simpa [Ne.symm hap, eq_comm] using hp
        simp [removeEntries, hap, hbp]

theorem removeEntries_of_le {p : Fin n} {i : Nat} {l : List (Fin n)} (h : l.length ≤ i) (fuel : Nat) :
    removeEntries p i fuel l = l := by
  cases fuel with
  | zero => rfl
  | succ fuel => rw [removeEntries, if_neg (Nat.not_lt.mpr h)]

/-- The loop halves the list, whatever it is to remove. -/
theorem removeEntries_length {p : Fin n} {i fuel : Nat} {l : List (Fin n)} (hi : i ≤ l.length)
    (hfuel : l.length ≤ i + fuel) : (removeEntries p i fuel l).length = l.length - (l.length - i + 1) / 2 := by
  induction fuel generalizing i l with
  | zero =>
      rw [removeEntries]
      omega
  | succ fuel ih =>
      rw [removeEntries]
      split
      · rename_i hlt
        have hset : (if l[i]? = some p then l.set i (l.getLastD p) else l).length = l.length := by
          split
          · exact List.length_set
          · rfl
        have hlast : (if l[i]? = some p then l.set i (l.getLastD p) else l).dropLast.length = l.length - 1 := by
          rw [List.length_dropLast, hset]
        rcases Nat.lt_or_ge (i + 1) l.length with hmore | hend
        · rw [ih (by omega) (by omega), hlast]
          omega
        · rw [removeEntries_of_le (by omega), hlast]
          omega
      · omega

/-- The entries that are open after the points `pre`. -/
structure OpenList (biosmap : Fin n → E820Entry) (pre : List (ChangeMember n)) (l : List (Fin n)) : Prop where
  nodup : l.Nodup
  mem : ∀ i, i ∈ l ↔ startPoint biosmap i ∈ pre ∧ endPoint biosmap i ∉ pre

section

variable {pre rest : List (ChangeMember n)} {point : ChangeMember n} {l : List (Fin n)}

theorem OpenList.nil : OpenList biosmap [] [] := ⟨.nil, by simp⟩

/-- The end of an entry comes after its start. -/
theorem SweepPoints.end_not_mem_pre {j : Fin n}
    (hpoints : SweepPoints biosmap (pre ++ startPoint biosmap j :: rest)) (hwrap : NoWrap biosmap)
    (hsize : (biosmap j).size ≠ 0) : endPoint biosmap j ∉ pre := fun hmem => by
  have hle := hpoints.le_of_mem_pre hmem
  rw [hwrap.toNat_endPoint] at hle
  have hpos := size_pos hsize
  have haddr : (startPoint biosmap j).addr = (biosmap j).addr := rfl
  rw [haddr] at hle
  omega

theorem OpenList.start (h : OpenList biosmap pre l) (hwrap : NoWrap biosmap) {j : Fin n}
    (hpoints : SweepPoints biosmap (pre ++ startPoint biosmap j :: rest)) (hsize : (biosmap j).size ≠ 0) :
    OpenList biosmap (pre ++ [startPoint biosmap j]) (trackOverlap biosmap l (startPoint biosmap j)) := by
  have hnew := hpoints.not_mem_pre
  have htrack : trackOverlap biosmap l (startPoint biosmap j) = l ++ [j] := by
    rw [trackOverlap, if_pos (isStart_startPoint j)]
    rfl
  have hend := hpoints.end_not_mem_pre hwrap hsize
  rw [htrack]
  refine ⟨List.nodup_append.mpr ⟨h.nodup, List.nodup_singleton j, ?_⟩, fun i => ?_⟩
  · rintro i hi k hk rfl
    rw [List.mem_singleton.mp hk] at hi
    exact hnew ((h.mem j).mp hi).1
  · simp only [List.mem_append, List.mem_singleton, h.mem]
    by_cases hij : i = j
    · subst hij
      simp [hend, (hwrap.startPoint_ne_endPoint hsize).symm]
    · have hstart : startPoint biosmap i ≠ startPoint biosmap j := fun heq => hij (startPoint_inj heq)
      have hne : endPoint biosmap i ≠ startPoint biosmap j := fun heq => hij (congrArg ChangeMember.pbios heq)
      simp [hij, hstart, hne]

/-- The start of an entry comes before its end. -/
theorem SweepPoints.start_mem_pre {j : Fin n} (hpoints : SweepPoints biosmap (pre ++ endPoint biosmap j :: rest))
    (hwrap : NoWrap biosmap) (hsize : (biosmap j).size ≠ 0) : startPoint biosmap j ∈ pre := by
  rcases hpoints.start_mem hsize with hpre | hrest
  · exact hpre
  · rcases List.mem_cons.mp hrest with heq | hrest
    · exact absurd heq (hwrap.startPoint_ne_endPoint hsize)
    · have hle := hpoints.le_of_mem_rest hrest
      rw [hwrap.toNat_endPoint] at hle
      have hpos := size_pos hsize
      have haddr : (startPoint biosmap j).addr = (biosmap j).addr := rfl
      rw [haddr] at hle
      omega

/-- At the end of an entry, that entry is no longer open. -/
theorem OpenList.erase (h : OpenList biosmap pre l) (j : Fin n) :
    OpenList biosmap (pre ++ [endPoint biosmap j]) (l.erase j) := by
  refine ⟨h.nodup.erase j, fun i => ?_⟩
  rw [h.nodup.mem_erase_iff, h.mem]
  simp only [List.mem_append, List.mem_singleton]
  by_cases hij : i = j
  · subst hij
    simp
  · have hne : startPoint biosmap i ≠ endPoint biosmap j := fun heq => hij (congrArg ChangeMember.pbios heq)
    have hend : endPoint biosmap i ≠ endPoint biosmap j := fun heq => hij (endPoint_inj heq)
    simp [hij, hne, hend]

theorem OpenList.length_eq {l' : List (Fin n)} (h : OpenList biosmap pre l) (h' : OpenList biosmap pre l') :
    l.length = l'.length :=
  ((List.perm_ext_iff_of_nodup h.nodup h'.nodup).mpr fun i => (h.mem i).trans (h'.mem i).symm).length_eq

/-- The loop removes the right entry exactly when at most two entries are open. -/
theorem OpenList.end_iff (h : OpenList biosmap pre l) (hwrap : NoWrap biosmap) {j : Fin n}
    (hpoints : SweepPoints biosmap (pre ++ endPoint biosmap j :: rest)) (hsize : (biosmap j).size ≠ 0) :
    OpenList biosmap (pre ++ [endPoint biosmap j]) (trackOverlap biosmap l (endPoint biosmap j)) ↔
      l.length ≤ 2 := by
  have hmem : j ∈ l := (h.mem j).mpr ⟨hpoints.start_mem_pre hwrap hsize, hpoints.not_mem_pre⟩
  have htrack : trackOverlap biosmap l (endPoint biosmap j) = removeEntries j 0 l.length l := by
    rw [trackOverlap, hwrap.isStart_endPoint hsize]
    rfl
  rw [htrack]
  constructor
  · intro hopen
    have hlen := hopen.length_eq (h.erase j)
    have hpos := List.length_pos_of_mem hmem
    rw [removeEntries_length (Nat.zero_le _) (Nat.le_add_left _ _), List.length_erase_of_mem hmem] at hlen
    omega
  · intro hlen
    rw [removeEntries_eq_erase hlen hmem]
    exact h.erase j

/-- An entry that covers the address of an end has started before it, and goes on. -/
theorem SweepPoints.open_of_covers (hpoints : SweepPoints biosmap (pre ++ point :: rest)) (hwrap : NoWrap biosmap)
    (hend : isStart biosmap point = false) {i : Fin n} (hi : point.addr.toNat ∈ (biosmap i).bytes) :
    startPoint biosmap i ∈ pre ∧ endPoint biosmap i ∉ pre ++ [point] := by
  obtain ⟨hlo, hhi⟩ := hi
  have hsize : (biosmap i).size ≠ 0 := fun hzero => by
    rw [hzero] at hhi
    exact absurd hlo (Nat.not_le.mpr hhi)
  refine ⟨(hpoints.start_mem hsize).resolve_right fun hmem => ?_, fun hmem => ?_⟩
  · rcases List.mem_cons.mp hmem with heq | hmem
    · have hstart := @isStart_startPoint n biosmap i
      rw [heq, hend] at hstart
      cases hstart
    · -- starts come before ends
      have hsorted := List.rel_of_pairwise_cons (List.pairwise_append.mp hpoints.sorted).2.1 hmem
      have heq : point.addr.toNat = (startPoint biosmap i).addr.toNat :=
        Nat.le_antisymm (hpoints.le_of_mem_rest hmem) hlo
      have hstart := (swapNeeded_eq_false.mp hsorted).2 heq (isStart_startPoint i)
      rw [hend] at hstart
      cases hstart
  · have hle := hpoints.le_point_of_mem _ hmem
    rw [hwrap.toNat_endPoint] at hle
    exact absurd hhi (Nat.not_lt.mpr hle)

/-- Between two points an open entry covers the address. -/
theorem SweepPoints.mem_bytes (hpoints : SweepPoints biosmap (pre ++ rest)) (hwrap : NoWrap biosmap) {a : Nat}
    (hpre : ∀ m ∈ pre, m.addr.toNat ≤ a) (hrest : ∀ m ∈ rest, a < m.addr.toNat) {i : Fin n}
    (hstart : startPoint biosmap i ∈ pre) (hend : endPoint biosmap i ∉ pre) : a ∈ (biosmap i).bytes := by
  have hsize := hpoints.size_ne hwrap hstart
  have hafter := hrest _ ((hpoints.end_mem hsize).resolve_left hend)
  rw [hwrap.toNat_endPoint] at hafter
  exact ⟨hpre _ hstart, hafter⟩

/-- Between two points the open entries are those that cover the address. -/
theorem OpenList.mem_iff_bytes (h : OpenList biosmap pre l) (hwrap : NoWrap biosmap)
    (hpoints : SweepPoints biosmap (pre ++ rest)) {a : Nat} (hpre : ∀ m ∈ pre, m.addr.toNat ≤ a)
    (hrest : ∀ m ∈ rest, a < m.addr.toNat) (i : Fin n) : i ∈ l ↔ a ∈ (biosmap i).bytes := by
  rw [h.mem]
  constructor
  · rintro ⟨hstart, hend⟩
    exact hpoints.mem_bytes hwrap hpre hrest hstart hend
  · rintro ⟨hlo, hhi⟩
    have hsize : (biosmap i).size ≠ 0 := fun hzero => by
      rw [hzero] at hhi
      have : (0 : BitVec 64).toNat = 0 := rfl
      omega
    refine ⟨(hpoints.start_mem hsize).resolve_right fun hmem => ?_, fun hmem => ?_⟩
    · have := hrest _ hmem
      have haddr : (startPoint biosmap i).addr = (biosmap i).addr := rfl
      rw [haddr] at this
      omega
    · have := hpre _ hmem
      rw [hwrap.toNat_endPoint] at this
      omega

end

end XosKernel.E820
