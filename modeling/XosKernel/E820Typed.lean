import XosKernel.E820Sweep

/-! The new map that the sweep builds. `SweepInv` says that it types every address below the frontier; one
pass moves the frontier to the next change point, and a sweep that ends before the new map is full types
every address. -/

namespace XosKernel.E820

variable {n : Nat} {biosmap : Fin n → E820Entry}

/-- An entry of the map covers an address and has a type. -/
def Types (map : List E820Entry) (a : Nat) (type : Word) : Prop := ∃ e ∈ map, a ∈ e.bytes ∧ e.type = type

/-- The new map with its last entry drawn to the frontier. -/
def Sweep.Shows (s : Sweep n) (frontier a : Nat) (type : Word) : Prop :=
  Types s.newBios a type ∨ (s.lastType = type ∧ s.lastAddr.toNat ≤ a ∧ a < frontier)

/-- The entries of the new map have types and lie below the frontier. -/
def Below (map : List E820Entry) (frontier : Nat) : Prop := ∀ e ∈ map, e.type ≠ 0 ∧ ∀ a ∈ e.bytes, a < frontier

/-- The entry that the sweep is at. -/
structure Sweep.SlotOk (s : Sweep n) (frontier : Nat) : Prop where
  addr : s.slot.addr = s.lastAddr
  type : s.slot.type = s.lastType
  le : s.lastAddr.toNat ≤ frontier

/-- What holds before a point, after the points `pre`. -/
structure SweepInv (biosmap : Fin n → E820Entry) (pre : List (ChangeMember n)) (s : Sweep n) (frontier : Nat) :
    Prop where
  overlap : OpenList biosmap pre s.overlapList
  lastType : s.lastType = currentType biosmap s.overlapList
  slot : s.lastType ≠ 0 → s.SlotOk frontier
  below : Below s.newBios frontier
  typed : ∀ a, a < frontier → ∀ t, t ≠ 0 → (s.Shows frontier a t ↔ TypeAt biosmap a t)
  room : s.newBios.length < e820Max

section

variable {pre rest : List (ChangeMember n)} {s : Sweep n} {x y : Nat}

theorem SweepInv.start : SweepInv biosmap [] .start 0 :=
  ⟨.nil, rfl, fun h => absurd rfl h, fun _ he => absurd he List.not_mem_nil, fun _ ha => absurd ha (Nat.not_lt_zero _),
    show 0 < e820Max by decide⟩

/-- The frontier moves to the next point: in between, the type is that of the open entries. -/
theorem SweepInv.advance (h : SweepInv biosmap pre s x) (hwrap : NoWrap biosmap)
    (hpoints : SweepPoints biosmap (pre ++ rest)) (hpre : ∀ m ∈ pre, m.addr.toNat ≤ x)
    (hrest : ∀ m ∈ rest, y ≤ m.addr.toNat) (hxy : x ≤ y) : SweepInv biosmap pre s y := by
  refine ⟨h.overlap, h.lastType, fun hne => ?_, fun e he => ?_, fun a ha t ht => ?_, h.room⟩
  · obtain ⟨haddr, htype, hle⟩ := h.slot hne
    exact ⟨haddr, htype, hle.trans hxy⟩
  · obtain ⟨htype, hbytes⟩ := h.below e he
    exact ⟨htype, fun a ha => (hbytes a ha).trans_le hxy⟩
  · by_cases hax : a < x
    · rw [← h.typed a hax t ht, Sweep.Shows, Sweep.Shows]
      simp [hax, ha]
    · have hopen := h.overlap.mem_iff_bytes hwrap hpoints (a := a)
        (fun m hm => (hpre m hm).trans (Nat.le_of_not_lt hax)) fun m hm => ha.trans_le (hrest m hm)
      have hcurrent := currentType_typeAt hopen
      rw [← h.lastType] at hcurrent
      constructor
      · rintro (⟨e, he, hbytes, -⟩ | ⟨htype, -, -⟩)
        · exact absurd ((h.below e he).2 a hbytes) hax
        · rwa [← htype]
      · intro htype
        have heq := hcurrent.unique htype
        have hslot := h.slot (by rwa [heq])
        exact .inr ⟨heq, hslot.le.trans (Nat.le_of_not_lt hax), ha⟩

/-- What the end of the current entry leaves: the new map up to `addr`. -/
structure Closed (s t : Sweep n) (addr : BitVec 64) : Prop where
  overlapList : t.overlapList = s.overlapList
  below : Below t.newBios addr.toNat
  typed : ∀ a u, u ≠ 0 → (Types t.newBios a u ↔ s.Shows addr.toNat a u)

theorem types_append_singleton {map : List E820Entry} {e : E820Entry} {a : Nat} {t : Word} :
    Types (map ++ [e]) a t ↔ Types map a t ∨ (a ∈ e.bytes ∧ e.type = t) := by
  simp [Types, or_and_right, exists_or]

/-- Ending the current entry. The new map is full when the loop is left. -/
theorem closeEntry_closed {addr : BitVec 64} (hslot : s.lastType ≠ 0 → s.SlotOk addr.toNat)
    (hbelow : Below s.newBios addr.toNat) (hroom : s.newBios.length < e820Max) :
    (∃ t, s.closeEntry addr = .next t ∧ Closed s t addr ∧ t.newBios.length < e820Max) ∨
      ∃ t, s.closeEntry addr = .done t ∧ Closed s t addr ∧ e820Max ≤ t.newBios.length := by
  rw [Sweep.closeEntry]
  split
  · rename_i hne
    obtain ⟨haddr, htype, hle⟩ := hslot hne
    obtain ⟨size, hsizeDef⟩ : ∃ size, addr - s.lastAddr = size := ⟨_, rfl⟩
    have hsize : size.toNat = addr.toNat - s.lastAddr.toNat := by
      rw [← hsizeDef]
      exact BitVec.toNat_sub_of_le (BitVec.le_def.mpr hle)
    simp only [hsizeDef]
    split
    · -- the entry covers the addresses from `last_addr` to `addr`
      have hbytes : ∀ a, a ∈ (⟨s.slot.addr, size, s.slot.type⟩ : E820Entry).bytes ↔
          s.lastAddr.toNat ≤ a ∧ a < addr.toNat := fun a => by
        show s.slot.addr.toNat ≤ a ∧ a < s.slot.addr.toNat + size.toNat ↔ _
        rw [haddr, hsize]
        omega
      have hclosed : Closed s { s with
          slot := ⟨s.slot.addr, size, s.slot.type⟩
          newBios := s.newBios ++ [⟨s.slot.addr, size, s.slot.type⟩] } addr := by
        refine ⟨rfl, fun e he => ?_, fun a u hu => ?_⟩
        · rcases List.mem_append.mp he with he | he
          · exact hbelow e he
          · obtain rfl := List.mem_singleton.mp he
            exact ⟨by rw [htype]; exact hne, fun a ha => ((hbytes a).mp ha).2⟩
        · rw [types_append_singleton, hbytes, Sweep.Shows]
          simp only [htype]
          exact or_congr_right and_comm
      split
      · rename_i hfull
        exact .inr ⟨_, rfl, hclosed, hfull⟩
      · rename_i hmore
        exact .inl ⟨_, rfl, hclosed, Nat.not_le.mp hmore⟩
    · rename_i hzero
      have hzero' : size.toNat = 0 := by
        rw [not_not.mp hzero]
        rfl
      refine .inl ⟨_, rfl, ⟨rfl, hbelow, fun a u hu => ?_⟩, hroom⟩
      rw [Sweep.Shows]
      exact (or_iff_left fun ⟨_, hlo, hhi⟩ => by omega).symm
  · rename_i hzero
    rw [not_not] at hzero
    refine .inl ⟨s, rfl, ⟨rfl, hbelow, fun a u hu => ?_⟩, hroom⟩
    rw [Sweep.Shows]
    exact (or_iff_left fun ⟨htype, _⟩ => hu (by rw [← htype, hzero])).symm

/-- Every entry of the new map has the type of its addresses. -/
def Sound (biosmap : Fin n → E820Entry) (map : List E820Entry) : Prop :=
  ∀ e ∈ map, e.type ≠ 0 ∧ ∀ a ∈ e.bytes, TypeAt biosmap a e.type

theorem Sweep.openEntry_fields (s : Sweep n) (addr : BitVec 64) (type : Word) :
    (s.openEntry addr type).overlapList = s.overlapList ∧ (s.openEntry addr type).newBios = s.newBios ∧
      (s.openEntry addr type).lastType = type := by
  rw [Sweep.openEntry]
  split <;> exact ⟨rfl, rfl, rfl⟩

theorem Sweep.openEntry_slotOk (s : Sweep n) {addr : BitVec 64} {type : Word}
    (hne : (s.openEntry addr type).lastType ≠ 0) : (s.openEntry addr type).SlotOk addr.toNat := by
  rw [Sweep.openEntry] at hne ⊢
  split
  · exact ⟨rfl, rfl, Nat.le_refl _⟩
  · rename_i hzero
    exact absurd hne hzero

/-- The next entry starts at the frontier and covers nothing yet. -/
theorem shows_openEntry {addr : BitVec 64} {type : Word} {a : Nat} {t : Word} (ha : a < addr.toNat)
    (ht : t ≠ 0) : (s.openEntry addr type).Shows addr.toNat a t ↔ Types s.newBios a t := by
  rw [Sweep.openEntry]
  split
  · refine or_iff_left ?_
    rintro ⟨-, hlo, -⟩
    exact absurd ha (Nat.not_lt.mpr hlo)
  · rename_i hzero
    rw [not_not] at hzero
    refine or_iff_left ?_
    rintro ⟨htype, -⟩
    exact ht (htype.symm.trans hzero)

/-- One pass, from a frontier at the point: the invariant holds with the point done, or the new map is full
and sound. -/
theorem SweepInv.point {point : ChangeMember n} (h : SweepInv biosmap pre s point.addr.toNat)
    (hopen : OpenList biosmap (pre ++ [point]) (trackOverlap biosmap s.overlapList point)) :
    (∃ t, sweepPoint biosmap s point = .next t ∧ SweepInv biosmap (pre ++ [point]) t point.addr.toNat) ∨
      ∃ t, sweepPoint biosmap s point = .done t ∧ Sound biosmap t.newBios ∧ e820Max ≤ t.newBios.length := by
  obtain ⟨u, hu⟩ : ∃ u, ({ s with overlapList := trackOverlap biosmap s.overlapList point } : Sweep n) = u :=
    ⟨_, rfl⟩
  have huOverlap : u.overlapList = trackOverlap biosmap s.overlapList point := by rw [← hu]
  have huType : u.lastType = s.lastType := by rw [← hu]
  have hslot : u.lastType ≠ 0 → u.SlotOk point.addr.toNat := fun hne => by
    obtain ⟨haddr, htype, hle⟩ := h.slot (by rwa [← huType])
    rw [← hu]
    exact ⟨haddr, htype, hle⟩
  have hbelow : Below u.newBios point.addr.toNat := by
    rw [← hu]
    exact h.below
  have htyped : ∀ a, a < point.addr.toNat → ∀ t, t ≠ 0 → (u.Shows point.addr.toNat a t ↔ TypeAt biosmap a t) := by
    rw [← hu]
    exact h.typed
  have hroom : u.newBios.length < e820Max := by
    rw [← hu]
    exact h.room
  rw [sweepPoint]
  simp only [hu]
  split
  · rcases closeEntry_closed hslot hbelow hroom with ⟨t, ht, hclosed, hmore⟩ | ⟨t, ht, hclosed, hfull⟩
    · rw [ht]
      obtain ⟨hopenList, hopenBios, hopenType⟩ := t.openEntry_fields point.addr
        (currentType biosmap (trackOverlap biosmap s.overlapList point))
      refine .inl ⟨_, rfl, ?_, ?_, t.openEntry_slotOk, ?_, fun a ha v hv => ?_, by rw [hopenBios]; exact hmore⟩
      · rw [hopenList, hclosed.overlapList, huOverlap]
        exact hopen
      · rw [hopenType, hopenList, hclosed.overlapList, huOverlap]
      · rw [hopenBios]
        exact hclosed.below
      · rw [shows_openEntry ha hv, hclosed.typed a v hv, htyped a ha v hv]
    · rw [ht]
      refine .inr ⟨t, rfl, fun e he => ?_, hfull⟩
      obtain ⟨hne, hbytes⟩ := hclosed.below e he
      refine ⟨hne, fun a ha => ?_⟩
      rw [← htyped a (hbytes a ha) _ hne, ← hclosed.typed a _ hne]
      exact ⟨e, he, ha, rfl⟩
  · rename_i heq
    rw [not_not] at heq
    exact .inl ⟨u, rfl, huOverlap ▸ hopen, by rw [huType, huOverlap, heq], hslot, hbelow, htyped, hroom⟩

/-! ### The ends that the sweep comes to -/

/-- The region of one type that has its last address at `a` is over when the sweep comes to the ends at `x`. The starts
at `x` come first, and a greater type that starts there ends the region in front of it. -/
def Over (biosmap : Fin n → E820Entry) (x a : Nat) : Prop :=
  ∃ t u, TypeAt biosmap a t ∧ t ≠ 0 ∧ TypeAt biosmap (a + 1) u ∧ t ≠ u ∧ (a + 1 < x ∨ (a + 1 = x ∧ t < u))

/-- As long as fewer regions are over than the new map has room for, at most two entries are open at an end. -/
def AtMostTwoOpen (biosmap : Fin n → E820Entry) : Prop :=
  ∀ j, (biosmap j).size ≠ 0 →
    (∀ l : List Nat, l.Nodup → (∀ a ∈ l, Over biosmap (endPoint biosmap j).addr.toNat a) → l.length < e820Max) →
    ∀ l : List (Fin n), l.Nodup →
      (∀ i ∈ l, (biosmap i).size ≠ 0 ∧ (biosmap i).addr.toNat ≤ (endPoint biosmap j).addr.toNat ∧
        (endPoint biosmap j).addr.toNat ≤ (endPoint biosmap i).addr.toNat) → l.length ≤ 2

/-- A region that is over is in the new map. -/
theorem SweepInv.mem_of_over {point : ChangeMember n} (h : SweepInv biosmap pre s point.addr.toNat)
    (hwrap : NoWrap biosmap) (hpoints : SweepPoints biosmap (pre ++ point :: rest))
    (hend : isStart biosmap point = false) {a : Nat} (ha : Over biosmap point.addr.toNat a) :
    ∃ e ∈ s.newBios, e.addr.toNat + e.size.toNat = a + 1 := by
  obtain ⟨t, u, ht, hne, hu, hchange, hwhere⟩ := ha
  have hnot : a + 1 < point.addr.toNat → ¬ s.Shows point.addr.toNat (a + 1) t := fun hlt hshows =>
    hchange (((h.typed (a + 1) hlt t hne).mp hshows).unique hu)
  rcases (h.typed a (by omega) t hne).mpr ht with ⟨e, he, ⟨hlo, hhi⟩, htype⟩ | ⟨htype, hlo, -⟩
  · refine ⟨e, he, ?_⟩
    by_contra hgoes
    have hnext : a + 1 ∈ e.bytes := ⟨by omega, by omega⟩
    exact hnot ((h.below e he).2 (a + 1) hnext) (.inl ⟨e, he, hnext, htype⟩)
  · -- the region goes on up to the point, so no greater type starts there
    rcases hwhere with hlt | ⟨hat, hless⟩
    · exact absurd (.inr ⟨htype, by omega, hlt⟩) (hnot hlt)
    · rw [hat] at hu
      rcases hu.attained with rfl | ⟨i, hi, rfl⟩
      · exact absurd (BitVec.lt_def.mp hless) (Nat.not_lt_zero _)
      · obtain ⟨hstart, hopen⟩ := hpoints.open_of_covers hwrap hend hi
        have hmem := (h.overlap.mem i).mpr ⟨hstart, fun hmem => hopen (List.mem_append_left _ hmem)⟩
        have hle := @currentType_ge n biosmap _ i hmem
        rw [← h.lastType, htype] at hle
        exact absurd hless (BitVec.not_lt.mpr hle)

theorem SweepInv.over_lt {point : ChangeMember n} (h : SweepInv biosmap pre s point.addr.toNat)
    (hwrap : NoWrap biosmap) (hpoints : SweepPoints biosmap (pre ++ point :: rest))
    (hend : isStart biosmap point = false) {l : List Nat} (hnodup : l.Nodup)
    (hl : ∀ a ∈ l, Over biosmap point.addr.toNat a) : l.length < e820Max := by
  have hsub : l.map (· + 1) ⊆ s.newBios.map fun e => e.addr.toNat + e.size.toNat := by
    intro b hb
    obtain ⟨a, ha, rfl⟩ := List.mem_map.mp hb
    exact List.mem_map.mpr (h.mem_of_over hwrap hpoints hend (hl a ha))
  have hle := (List.subperm_of_subset (hnodup.map (add_left_injective 1)) hsub).length_le
  rw [List.length_map, List.length_map] at hle
  exact hle.trans_lt h.room

/-- The overlap list after a point is the set of the entries that are open. -/
theorem SweepInv.track {point : ChangeMember n} (h : SweepInv biosmap pre s point.addr.toNat)
    (hwrap : NoWrap biosmap) (htwo : AtMostTwoOpen biosmap)
    (hpoints : SweepPoints biosmap (pre ++ point :: rest)) :
    OpenList biosmap (pre ++ [point]) (trackOverlap biosmap s.overlapList point) := by
  obtain ⟨j, hsize, rfl | rfl⟩ := (hpoints.mem point).mp (List.mem_append_right _ List.mem_cons_self)
  · exact h.overlap.start hwrap hpoints hsize
  · have hover (l : List Nat) := h.over_lt (l := l) hwrap hpoints (hwrap.isStart_endPoint hsize)
    refine (h.overlap.end_iff hwrap hpoints hsize).mpr (htwo j hsize hover s.overlapList h.overlap.nodup fun i hi => ?_)
    obtain ⟨hstart, hend⟩ := (h.overlap.mem i).mp hi
    have hisize := hpoints.size_ne hwrap hstart
    refine ⟨hisize, hpoints.le_of_mem_pre hstart, ?_⟩
    rcases List.mem_cons.mp ((hpoints.end_mem hisize).resolve_left hend) with heq | hrest
    · rw [heq]
    · exact hpoints.le_of_mem_rest hrest

/-! ### The run of the sweep -/

/-- The new map is sound, and exact when there was room for all of it. -/
structure SweepDone (biosmap : Fin n → E820Entry) (map : List E820Entry) : Prop where
  sound : Sound biosmap map
  exact_of_room : map.length < e820Max → ∀ a t, t ≠ 0 → (Types map a t ↔ TypeAt biosmap a t)

theorem SweepInv.sound (h : SweepInv biosmap pre s x) : Sound biosmap s.newBios := fun e he => by
  obtain ⟨hne, hbytes⟩ := h.below e he
  exact ⟨hne, fun a ha => (h.typed a (hbytes a ha) _ hne).mp (.inl ⟨e, he, ha, rfl⟩)⟩

/-- After all points no entry is open, and the new map is complete. -/
theorem SweepInv.done (h : SweepInv biosmap pre s x) (hwrap : NoWrap biosmap)
    (hpoints : SweepPoints biosmap pre) (hpre : ∀ m ∈ pre, m.addr.toNat ≤ x) :
    SweepDone biosmap s.newBios := by
  refine ⟨h.sound, fun _ a t ht => ?_⟩
  have hpoints' : SweepPoints biosmap (pre ++ []) := by rwa [List.append_nil]
  have hnone : s.overlapList = [] := by
    refine List.eq_nil_iff_forall_not_mem.mpr fun i hi => ?_
    obtain ⟨hstart, hend⟩ := (h.overlap.mem i).mp hi
    rcases hpoints'.end_mem (hpoints'.size_ne hwrap hstart) with hmem | hmem
    · exact hend hmem
    · cases hmem
  have hzero : s.lastType = 0 := by
    rw [h.lastType, hnone]
    rfl
  have hfar : SweepInv biosmap pre s (max x (a + 1)) :=
    h.advance hwrap hpoints' hpre (fun m hm => by cases hm) (le_max_left _ _)
  rw [← hfar.typed a (lt_of_lt_of_le (Nat.lt_succ_self a) (le_max_right _ _)) t ht, Sweep.Shows]
  refine (or_iff_left ?_).symm
  rintro ⟨htype, -⟩
  exact ht (htype.symm.trans hzero)

/-- The run of the sweep over the remaining points. -/
theorem SweepInv.sweep (hwrap : NoWrap biosmap) (htwo : AtMostTwoOpen biosmap) :
    ∀ {rest pre : List (ChangeMember n)} {s : Sweep n} {x : Nat}, SweepInv biosmap pre s x →
      SweepPoints biosmap (pre ++ rest) → (∀ m ∈ pre, m.addr.toNat ≤ x) → (∀ m ∈ rest, x ≤ m.addr.toNat) →
      SweepDone biosmap (E820.sweep biosmap s rest).newBios
  | [], pre, s, x, h, hpoints, hpre, _ => h.done hwrap (by rwa [List.append_nil] at hpoints) hpre
  | point :: rest, pre, s, x, h, hpoints, hpre, hrest => by
      have hat := h.advance hwrap hpoints hpre hpoints.le_of_mem_point (hrest point List.mem_cons_self)
      rw [E820.sweep]
      rcases hat.point (hat.track hwrap htwo hpoints) with ⟨t, ht, hinv⟩ | ⟨t, ht, hsound, hfull⟩
      · rw [ht]
        exact SweepInv.sweep hwrap htwo hinv (by rwa [List.append_assoc]) hpoints.le_point_of_mem fun m hm =>
          hpoints.le_of_mem_rest hm
      · rw [ht]
        exact ⟨hsound, fun hroom => absurd hfull (Nat.not_le_of_lt hroom)⟩

end

end XosKernel.E820
