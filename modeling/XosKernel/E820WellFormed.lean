import XosKernel.E820Exact
import Mathlib.Data.List.Perm.Subperm

/-! The new map of `sanitize_e820_map` is well formed, whatever the removal loop loses. The entry that it is to
remove never stays, so the overlap list holds open entries only; every piece of the new map then has the type of
an entry that covers it, the pieces follow one another, and no access leaves `overlap_list` or `new_bios`. -/

namespace XosKernel.E820

variable {n : Nat}

/-! ### The accesses of the sweep -/

/-- An access to `overlap_list[i]` or to `new_bios[i]`. -/
inductive Access where
  | overlapList (i : Nat)
  | newBios (i : Nat)

/-- Both arrays have `E820MAX` elements. -/
def Access.InBounds : Access → Prop
  | .overlapList i => i < e820Max
  | .newBios i => i < e820Max

/-- The accesses of the loop that removes an entry from the overlap list. -/
def removeAccesses (pbios : Fin n) (i : Nat) : Nat → List (Fin n) → List Access
  | 0, _ => []
  | fuel + 1, overlapList =>
      if i < overlapList.length then
        let swap :=
          if overlapList[i]? = some pbios then [.overlapList (overlapList.length - 1), .overlapList i] else []
        let next :=
          if overlapList[i]? = some pbios then overlapList.set i (overlapList.getLastD pbios) else overlapList
        .overlapList i :: swap ++ removeAccesses pbios (i + 1) fuel next.dropLast
      else []

/-- The accesses of the loop that chooses the type. -/
def typeAccesses (overlapList : List (Fin n)) : List Access := (List.range overlapList.length).map .overlapList

/-- The accesses of `memcpy`, which copies the new map. -/
def Sweep.copyAccesses (s : Sweep n) : List Access := (List.range s.newBios.length).map .newBios

section

variable (biosmap : Fin n → E820Entry)

def trackAccesses (overlapList : List (Fin n)) (point : ChangeMember n) : List Access :=
  if isStart biosmap point then [.overlapList overlapList.length]
  else removeAccesses point.pbios 0 overlapList.length overlapList

/-- The accesses to `new_bios` when the type changes. -/
def Sweep.changeAccesses (s : Sweep n) (addr : BitVec 64) (type : Word) : List Access :=
  (if s.lastType ≠ 0 then [.newBios s.newBios.length] else []) ++
    match s.closeEntry addr with
    | .next s => if type ≠ 0 then [.newBios s.newBios.length] else []
    | .done _ => []

/-- The accesses of one pass of the loop over the change points. -/
def pointAccesses (s : Sweep n) (point : ChangeMember n) : List Access :=
  let overlapList := trackOverlap biosmap s.overlapList point
  let type := currentType biosmap overlapList
  trackAccesses biosmap s.overlapList point ++ typeAccesses overlapList ++
    if type ≠ s.lastType then { s with overlapList := overlapList }.changeAccesses point.addr type else []

/-- The accesses from a point of the loop on. -/
def sweepAccesses (s : Sweep n) : List (ChangeMember n) → List Access
  | [] => s.copyAccesses
  | point :: points =>
      pointAccesses biosmap s point ++
        match sweepPoint biosmap s point with
        | .next s => sweepAccesses s points
        | .done s => s.copyAccesses

end

/-! ### The removal loop -/

/-- Overwriting the entry with the last one and shortening the list removes it. -/
theorem set_last_perm {p : Fin n} {i : Nat} {l : List (Fin n)} (hnodup : l.Nodup) (hp : l[i]? = some p) :
    (l.set i (l.getLastD p)).dropLast.Perm (l.erase p) := by
  obtain ⟨hi, hget⟩ := List.getElem?_eq_some_iff.mp hp
  obtain ⟨l₁, l₂, hl, hlen⟩ : ∃ l₁ l₂, l = l₁ ++ p :: l₂ ∧ l₁.length = i := by
    refine ⟨l.take i, l.drop (i + 1), ?_, List.length_take_of_le (Nat.le_of_lt hi)⟩
    rw [← hget, List.getElem_cons_drop, List.take_append_drop]
  subst hl hlen
  have hfirst : p ∉ l₁ := fun hmem => (List.nodup_append.mp hnodup).2.2 p hmem p List.mem_cons_self rfl
  rw [List.erase_append_right _ hfirst, List.erase_cons_head, List.set_append_right _ _ (Nat.le_refl _),
    Nat.sub_self, List.set_cons_zero]
  rcases List.eq_nil_or_concat l₂ with rfl | ⟨l₃, z, rfl⟩
  · simp
  · have hlast : (l₁ ++ p :: (l₃ ++ [z])).getLastD p = z := by
      rw [← List.cons_append, ← List.append_assoc, List.getLastD_concat]
    have hdrop : (l₁ ++ z :: (l₃ ++ [z])).dropLast = l₁ ++ z :: l₃ := by
      rw [← List.cons_append, ← List.append_assoc, List.dropLast_concat]
    rw [List.concat_eq_append, hlast, hdrop]
    exact (List.perm_append_singleton z l₃).symm.append_left l₁

theorem subperm_erase_of_take {p : Fin n} {i : Nat} {l : List (Fin n)} (htake : p ∉ l.take i)
    (hle : l.length ≤ i) : l.Subperm (l.erase p) := by
  rw [List.take_of_length_le hle] at htake
  rw [List.erase_of_not_mem htake]

/-- The loop loses entries, but never keeps the one that it is to remove. -/
theorem removeEntries_subperm {p : Fin n} {i fuel : Nat} {l : List (Fin n)} (hnodup : l.Nodup)
    (htake : p ∉ l.take i) (hfuel : l.length ≤ i + fuel) : (removeEntries p i fuel l).Subperm (l.erase p) := by
  induction fuel generalizing i l with
  | zero => exact subperm_erase_of_take htake hfuel
  | succ fuel ih =>
      rw [removeEntries]
      split
      · rename_i hi
        split
        · rename_i hp
          have hperm := set_last_perm hnodup hp
          have hgone : p ∉ (l.set i (l.getLastD p)).dropLast := fun hmem =>
            hnodup.not_mem_erase (hperm.mem_iff.mp hmem)
          have hlen : (l.set i (l.getLastD p)).dropLast.length = l.length - 1 := by simp
          have hrest := ih (hperm.nodup_iff.mpr (hnodup.erase p)) (fun hmem => hgone (List.mem_of_mem_take hmem))
            (i := i + 1) (by omega)
          rw [List.erase_of_not_mem hgone] at hrest
          exact hrest.trans hperm.subperm
        · rename_i hp
          have hsub := List.dropLast_sublist l
          have hkept : p ∉ l.take (i + 1) := by
            rw [List.take_add_one, List.mem_append, Option.mem_toList, not_or]
            exact ⟨htake, hp⟩
          have hkept' : p ∉ l.dropLast.take (i + 1) := fun hmem => by
            rw [List.dropLast_eq_take, List.take_take] at hmem
            exact hkept (List.take_subset_take_left l (Nat.min_le_left _ _) hmem)
          have hlen : l.dropLast.length = l.length - 1 := List.length_dropLast
          exact (ih (hnodup.sublist hsub) hkept' (by omega)).trans (hsub.erase p).subperm
      · rename_i hi
        exact subperm_erase_of_take htake (Nat.le_of_not_lt hi)

theorem removeAccesses_inBounds {p : Fin n} {i fuel : Nat} {l : List (Fin n)} (hlen : l.length ≤ e820Max) :
    ∀ x ∈ removeAccesses p i fuel l, x.InBounds := by
  induction fuel generalizing i l with
  | zero => exact fun x hx => absurd hx List.not_mem_nil
  | succ fuel ih =>
      rw [removeAccesses]
      split
      · rename_i hi
        intro x hx
        rcases List.mem_append.mp hx with hx | hx
        · rcases List.mem_cons.mp hx with rfl | hx
          · exact Nat.lt_of_lt_of_le hi hlen
          · split at hx
            · simp only [List.mem_cons, List.not_mem_nil, or_false] at hx
              rcases hx with rfl | rfl
              · show l.length - 1 < e820Max
                omega
              · exact Nat.lt_of_lt_of_le hi hlen
            · cases hx
        · refine ih ?_ x hx
          rw [List.length_dropLast]
          refine (Nat.sub_le _ _).trans ?_
          split
          · rwa [List.length_set]
          · exact hlen
      · exact fun x hx => absurd hx List.not_mem_nil

/-! ### The overlap list holds open entries -/

/-- Every entry of the overlap list is open after the points `pre`. -/
structure Listed (biosmap : Fin n → E820Entry) (pre : List (ChangeMember n)) (l : List (Fin n)) : Prop where
  nodup : l.Nodup
  mem : ∀ i ∈ l, startPoint biosmap i ∈ pre ∧ endPoint biosmap i ∉ pre

section

variable {biosmap : Fin n → E820Entry} {pre rest : List (ChangeMember n)} {point : ChangeMember n}
  {l : List (Fin n)}

theorem Listed.length_le (h : Listed biosmap pre l) : l.length ≤ n := by
  have hle := (List.subperm_of_subset h.nodup fun i _ => List.mem_finRange i).length_le
  rwa [List.length_finRange] at hle

/-- The start of an entry puts it on the list. -/
theorem Listed.start (h : Listed biosmap pre l) (hwrap : NoWrap biosmap) {j : Fin n}
    (hpoints : SweepPoints biosmap (pre ++ startPoint biosmap j :: rest)) (hsize : (biosmap j).size ≠ 0) :
    Listed biosmap (pre ++ [startPoint biosmap j]) (l ++ [j]) := by
  refine ⟨List.nodup_append.mpr ⟨h.nodup, List.nodup_singleton j, ?_⟩, fun i hi => ?_⟩
  · rintro i hi k hk rfl
    rw [List.mem_singleton.mp hk] at hi
    exact hpoints.not_mem_pre (h.mem j hi).1
  · simp only [List.mem_append, List.mem_singleton, not_or] at hi ⊢
    rcases hi with hi | rfl
    · obtain ⟨hstart, hend⟩ := h.mem i hi
      have hisize := hpoints.size_ne hwrap hstart
      exact ⟨.inl hstart, hend, (hwrap.startPoint_ne_endPoint hisize).symm⟩
    · exact ⟨.inr rfl, hpoints.end_not_mem_pre hwrap hsize, (hwrap.startPoint_ne_endPoint hsize).symm⟩

/-- The end of an entry takes it off the list, and maybe others. -/
theorem Listed.remove (h : Listed biosmap pre l) (j : Fin n) :
    Listed biosmap (pre ++ [endPoint biosmap j]) (removeEntries j 0 l.length l) := by
  have hsub : (removeEntries j 0 l.length l).Subperm (l.erase j) :=
    removeEntries_subperm h.nodup (by simp) (Nat.le_add_left _ _)
  obtain ⟨l', hperm, hsublist⟩ := hsub
  refine ⟨hperm.nodup_iff.mp ((h.nodup.erase j).sublist hsublist), fun i hi => ?_⟩
  obtain ⟨hne, hi⟩ := h.nodup.mem_erase_iff.mp (hsublist.subset (hperm.mem_iff.mpr hi))
  obtain ⟨hstart, hend⟩ := h.mem i hi
  refine ⟨List.mem_append_left _ hstart, fun hmem => ?_⟩
  rcases List.mem_append.mp hmem with hmem | hmem
  · exact hend hmem
  · exact hne (endPoint_inj (List.mem_singleton.mp hmem))

theorem Listed.track (h : Listed biosmap pre l) (hwrap : NoWrap biosmap)
    (hpoints : SweepPoints biosmap (pre ++ point :: rest)) :
    Listed biosmap (pre ++ [point]) (trackOverlap biosmap l point) := by
  obtain ⟨j, hsize, rfl | rfl⟩ := (hpoints.mem point).mp (List.mem_append_right _ List.mem_cons_self)
  · rw [trackOverlap, if_pos (isStart_startPoint j)]
    exact h.start hwrap hpoints hsize
  · rw [trackOverlap, hwrap.isStart_endPoint hsize]
    exact h.remove j

theorem Listed.trackAccesses_inBounds (h : Listed biosmap pre l) (hwrap : NoWrap biosmap)
    (hpoints : SweepPoints biosmap (pre ++ point :: rest)) (hmax : n ≤ e820Max) :
    ∀ x ∈ trackAccesses biosmap l point, x.InBounds := by
  intro x hx
  rw [trackAccesses] at hx
  split at hx
  · rename_i hstart
    -- the list grows by one, and stays a list of different entries
    have hgrown := (h.track hwrap hpoints).length_le
    rw [trackOverlap, if_pos hstart, List.length_append] at hgrown
    rw [List.mem_singleton.mp hx]
    exact Nat.lt_of_lt_of_le hgrown hmax
  · exact removeAccesses_inBounds (h.length_le.trans hmax) x hx

end

/-! ### The new map -/

/-- An entry covers the address and has the type. -/
def CoveredAs (biosmap : Fin n → E820Entry) (a : Nat) (type : Word) : Prop :=
  ∃ i, a ∈ (biosmap i).bytes ∧ (biosmap i).type = type

/-- Pieces that follow one another below the frontier, each of the type of entries that cover it. -/
structure Laid (biosmap : Fin n → E820Entry) (map : List E820Entry) (frontier : Nat) : Prop where
  ordered : map.Pairwise fun e f => e.addr.toNat + e.size.toNat ≤ f.addr.toNat
  nonempty : ∀ e ∈ map, e.size ≠ 0 ∧ e.type ≠ 0
  covered : ∀ e ∈ map, ∀ a ∈ e.bytes, CoveredAs biosmap a e.type
  below : ∀ e ∈ map, e.addr.toNat + e.size.toNat ≤ frontier

section

variable {biosmap : Fin n → E820Entry} {pre rest : List (ChangeMember n)} {s : Sweep n} {map : List E820Entry}
  {x y : Nat}

theorem Laid.nil : Laid biosmap [] x := ⟨.nil, by simp, by simp, by simp⟩

theorem Laid.mono (h : Laid biosmap map x) (hxy : x ≤ y) : Laid biosmap map y :=
  ⟨h.ordered, h.nonempty, h.covered, fun e he => (h.below e he).trans hxy⟩

/-- One more piece, from the frontier on. -/
theorem Laid.append (h : Laid biosmap map x) {e : E820Entry} (haddr : e.addr.toNat = x)
    (hend : e.addr.toNat + e.size.toNat = y) (hsize : e.size ≠ 0) (htype : e.type ≠ 0)
    (hcovered : ∀ a ∈ e.bytes, CoveredAs biosmap a e.type) : Laid biosmap (map ++ [e]) y := by
  have hsplit : ∀ {p : E820Entry → Prop}, (∀ f ∈ map, p f) → p e → ∀ f ∈ map ++ [e], p f := by
    intro p hmap he f hf
    rcases List.mem_append.mp hf with hf | hf
    · exact hmap f hf
    · rwa [List.mem_singleton.mp hf]
  refine ⟨List.pairwise_append.mpr ⟨h.ordered, List.pairwise_singleton _ e, fun f hf g hg => ?_⟩, ?_, ?_, ?_⟩
  · rw [List.mem_singleton.mp hg, haddr]
    exact h.below f hf
  · exact hsplit h.nonempty ⟨hsize, htype⟩
  · exact hsplit h.covered hcovered
  · exact hsplit (fun f hf => (h.below f hf).trans (by omega)) (Nat.le_of_eq hend)

/-- Where the pieces of the new map end: at the start of the current entry, if there is one. -/
def Sweep.reach (s : Sweep n) (frontier : Nat) : Nat := if s.lastType ≠ 0 then s.lastAddr.toNat else frontier

/-- What holds before a point, after the points `pre`, whatever has been lost from the overlap list. -/
structure SafeInv (biosmap : Fin n → E820Entry) (pre : List (ChangeMember n)) (s : Sweep n) (frontier : Nat) :
    Prop where
  overlap : Listed biosmap pre s.overlapList
  lastType : s.lastType = currentType biosmap s.overlapList
  slot : s.lastType ≠ 0 → s.SlotOk frontier
  room : s.newBios.length < e820Max
  laid : Laid biosmap s.newBios (s.reach frontier)
  pending : s.lastType ≠ 0 → ∀ a, s.lastAddr.toNat ≤ a → a < frontier → CoveredAs biosmap a s.lastType

theorem SafeInv.start : SafeInv biosmap [] .start 0 :=
  ⟨⟨.nil, fun _ hi => absurd hi List.not_mem_nil⟩, rfl, fun h => absurd rfl h, Nat.zero_lt_succ _, .nil,
    fun h => absurd rfl h⟩

/-- A type that is not 0 is the type of an entry of the list. -/
theorem currentType_mem {l : List (Fin n)} (hne : currentType biosmap l ≠ 0) :
    ∃ i ∈ l, (biosmap i).type = currentType biosmap l := by
  obtain ⟨r, hr, -, -, hattained⟩ := @foldl_type n biosmap l 0
  rw [currentType, hr] at hne ⊢
  exact hattained.resolve_left hne

/-- Up to the next point, the entries of the list go on. -/
theorem SafeInv.advance (h : SafeInv biosmap pre s x) (hwrap : NoWrap biosmap)
    (hpoints : SweepPoints biosmap (pre ++ rest)) (hpre : ∀ m ∈ pre, m.addr.toNat ≤ x)
    (hrest : ∀ m ∈ rest, y ≤ m.addr.toNat) (hxy : x ≤ y) : SafeInv biosmap pre s y := by
  refine ⟨h.overlap, h.lastType, fun hne => ?_, h.room, ?_, fun hne a hlo hhi => ?_⟩
  · obtain ⟨haddr, htype, hle⟩ := h.slot hne
    exact ⟨haddr, htype, hle.trans hxy⟩
  · have hlaid := h.laid
    rw [Sweep.reach] at hlaid ⊢
    split
    · rename_i hne
      rwa [if_pos hne] at hlaid
    · rename_i hzero
      rw [if_neg hzero] at hlaid
      exact hlaid.mono hxy
  · rcases Nat.lt_or_ge a x with hax | hax
    · exact h.pending hne a hlo hax
    · obtain ⟨i, hi, htype⟩ := currentType_mem (h.lastType ▸ hne)
      obtain ⟨hstart, hend⟩ := h.overlap.mem i hi
      exact ⟨i, hpoints.mem_bytes hwrap (fun m hm => (hpre m hm).trans hax)
        (fun m hm => hhi.trans_le (hrest m hm)) hstart hend, htype.trans h.lastType.symm⟩

/-- What the end of the current entry leaves. -/
structure ClosedAt (biosmap : Fin n → E820Entry) (s t : Sweep n) (addr : BitVec 64) : Prop where
  overlapList : t.overlapList = s.overlapList
  laid : Laid biosmap t.newBios addr.toNat

/-- Ending the current entry lays a piece up to the point. -/
theorem closeEntry_laid {addr : BitVec 64} (hslot : s.lastType ≠ 0 → s.SlotOk addr.toNat)
    (hroom : s.newBios.length < e820Max) (hlaid : Laid biosmap s.newBios (s.reach addr.toNat))
    (hpending : s.lastType ≠ 0 → ∀ a, s.lastAddr.toNat ≤ a → a < addr.toNat → CoveredAs biosmap a s.lastType) :
    (∃ t, s.closeEntry addr = .next t ∧ ClosedAt biosmap s t addr ∧ t.newBios.length < e820Max) ∨
      ∃ t, s.closeEntry addr = .done t ∧ ClosedAt biosmap s t addr ∧ t.newBios.length = e820Max := by
  rw [Sweep.reach] at hlaid
  rw [Sweep.closeEntry]
  split
  · rename_i hne
    rw [if_pos hne] at hlaid
    obtain ⟨haddr, htype, hle⟩ := hslot hne
    obtain ⟨size, hsizeDef⟩ : ∃ size, addr - s.lastAddr = size := ⟨_, rfl⟩
    have hsize : size.toNat = addr.toNat - s.lastAddr.toNat := by
      rw [← hsizeDef]
      exact BitVec.toNat_sub_of_le (BitVec.le_def.mpr hle)
    simp only [hsizeDef]
    split
    · rename_i hpos
      have hpiece : Laid biosmap (s.newBios ++ [⟨s.slot.addr, size, s.slot.type⟩]) addr.toNat := by
        refine hlaid.append ?_ ?_ hpos ?_ fun a ha => ?_
        · show s.slot.addr.toNat = _
          rw [haddr]
        · show s.slot.addr.toNat + size.toNat = _
          rw [haddr, hsize]
          omega
        · show s.slot.type ≠ 0
          rwa [htype]
        · have hlo : s.slot.addr.toNat ≤ a := ha.1
          have hhi : a < s.slot.addr.toNat + size.toNat := ha.2
          rw [haddr] at hlo hhi
          show CoveredAs biosmap a s.slot.type
          rw [htype]
          exact hpending hne a hlo (by omega)
      have hlen : (s.newBios ++ [(⟨s.slot.addr, size, s.slot.type⟩ : E820Entry)]).length =
          s.newBios.length + 1 := List.length_append
      have hclosed : ClosedAt biosmap s { s with
          slot := ⟨s.slot.addr, size, s.slot.type⟩
          newBios := s.newBios ++ [⟨s.slot.addr, size, s.slot.type⟩] } addr := ⟨rfl, hpiece⟩
      split
      · rename_i hfull
        refine .inr ⟨_, rfl, hclosed, Nat.le_antisymm ?_ hfull⟩
        rw [hlen]
        exact hroom
      · rename_i hroom
        exact .inl ⟨_, rfl, hclosed, Nat.lt_of_not_le hroom⟩
    · have hclosed : ClosedAt biosmap s { s with slot := ⟨s.slot.addr, size, s.slot.type⟩ } addr :=
        { overlapList := rfl, laid := hlaid.mono hle }
      exact .inl ⟨_, rfl, hclosed, hroom⟩
  · rename_i hzero
    rw [if_neg hzero] at hlaid
    exact .inl ⟨s, rfl, ⟨rfl, hlaid⟩, hroom⟩

theorem openEntry_lastAddr {addr : BitVec 64} {type : Word} (hne : type ≠ 0) :
    (s.openEntry addr type).lastAddr = addr := by
  rw [Sweep.openEntry, if_pos hne]

theorem reach_openEntry {addr : BitVec 64} {type : Word} : (s.openEntry addr type).reach addr.toNat = addr.toNat := by
  rw [Sweep.reach]
  split
  · rename_i hne
    rw [(s.openEntry_fields addr type).2.2] at hne
    rw [openEntry_lastAddr hne]
  · rfl

/-- What the sweep leaves when it ends. -/
structure SafeEnd (biosmap : Fin n → E820Entry) (s : Sweep n) : Prop where
  laid : ∃ frontier, Laid biosmap s.newBios frontier
  length_le : s.newBios.length ≤ e820Max
  closed : s.newBios.length < e820Max → s.overlapList = [] ∧ s.lastType = 0

/-- One pass, from a frontier at the point. -/
theorem SafeInv.point {point : ChangeMember n} (h : SafeInv biosmap pre s point.addr.toNat)
    (hopen : Listed biosmap (pre ++ [point]) (trackOverlap biosmap s.overlapList point)) :
    (∃ t, sweepPoint biosmap s point = .next t ∧ SafeInv biosmap (pre ++ [point]) t point.addr.toNat) ∨
      ∃ t, sweepPoint biosmap s point = .done t ∧ SafeEnd biosmap t := by
  obtain ⟨u, hu⟩ : ∃ u, ({ s with overlapList := trackOverlap biosmap s.overlapList point } : Sweep n) = u :=
    ⟨_, rfl⟩
  have huInv : SafeInv biosmap pre { u with overlapList := s.overlapList } point.addr.toNat := by
    rw [← hu]
    exact h
  have huOverlap : u.overlapList = trackOverlap biosmap s.overlapList point := by rw [← hu]
  have huSlot : u.lastType ≠ 0 → u.SlotOk point.addr.toNat := fun hne =>
    ⟨(huInv.slot hne).addr, (huInv.slot hne).type, (huInv.slot hne).le⟩
  rw [← huOverlap] at hopen
  rw [sweepPoint]
  simp only [hu]
  rw [← huOverlap]
  split
  · rcases closeEntry_laid huSlot huInv.room huInv.laid huInv.pending with
      ⟨t, ht, hclosed, hroom⟩ | ⟨t, ht, hclosed, hfull⟩
    · rw [ht]
      obtain ⟨hopenList, hopenBios, hopenType⟩ := t.openEntry_fields point.addr (currentType biosmap u.overlapList)
      refine .inl ⟨_, rfl, ?_, ?_, t.openEntry_slotOk, ?_, ?_, fun hne a hlo hhi => ?_⟩
      · rw [hopenList, hclosed.overlapList]
        exact hopen
      · rw [hopenType, hopenList, hclosed.overlapList]
      · rwa [hopenBios]
      · rw [hopenBios, reach_openEntry]
        exact hclosed.laid
      · rw [hopenType] at hne
        rw [openEntry_lastAddr hne] at hlo
        omega
    · rw [ht]
      refine .inr ⟨t, rfl, ⟨_, hclosed.laid⟩, Nat.le_of_eq hfull, fun hlt => ?_⟩
      exact absurd hfull (Nat.ne_of_lt hlt)
  · rename_i heq
    rw [not_not] at heq
    have huType : s.lastType = u.lastType := by rw [← hu]
    exact .inl ⟨u, rfl, hopen, by rw [heq, huType], huSlot, huInv.room, huInv.laid, huInv.pending⟩

/-- After all points the overlap list is empty. -/
theorem SafeInv.done (h : SafeInv biosmap pre s x) (hwrap : NoWrap biosmap) (hpoints : SweepPoints biosmap pre) :
    SafeEnd biosmap s := by
  have hpoints' : SweepPoints biosmap (pre ++ []) := by rwa [List.append_nil]
  have hnone : s.overlapList = [] := by
    refine List.eq_nil_iff_forall_not_mem.mpr fun i hi => ?_
    obtain ⟨hstart, hend⟩ := h.overlap.mem i hi
    rcases hpoints'.end_mem (hpoints'.size_ne hwrap hstart) with hmem | hmem
    · exact hend hmem
    · cases hmem
  refine ⟨⟨_, h.laid⟩, Nat.le_of_lt h.room, fun _ => ⟨hnone, ?_⟩⟩
  rw [h.lastType, hnone]
  rfl

/-! ### The run of the sweep -/

/-- The loop goes on only when there is room for one more entry. -/
theorem closeEntry_room {t : Sweep n} {addr : BitVec 64} (hroom : s.newBios.length < e820Max)
    (ht : s.closeEntry addr = .next t) : t.newBios.length < e820Max := by
  rw [Sweep.closeEntry] at ht
  split at ht
  · dsimp only at ht
    split at ht
    · split at ht
      · cases ht
      · rename_i hlt
        obtain rfl := Loop.Pass.next.inj ht
        exact Nat.lt_of_not_le hlt
    · obtain rfl := Loop.Pass.next.inj ht
      exact hroom
  · obtain rfl := Loop.Pass.next.inj ht
    exact hroom

theorem changeAccesses_inBounds {addr : BitVec 64} {type : Word} (hroom : s.newBios.length < e820Max) :
    ∀ a ∈ s.changeAccesses addr type, a.InBounds := by
  have hslot : ∀ {p : Prop} [Decidable p] {k : Nat}, k < e820Max →
      ∀ a ∈ (if p then [Access.newBios k] else []), a.InBounds := by
    intro p _ k hk a ha
    split at ha
    · rw [List.mem_singleton.mp ha]
      exact hk
    · cases ha
  intro a ha
  rw [Sweep.changeAccesses] at ha
  rcases List.mem_append.mp ha with ha | ha
  · exact hslot hroom a ha
  · cases hclose : s.closeEntry addr with
    | next t =>
        rw [hclose] at ha
        exact hslot (closeEntry_room hroom hclose) a ha
    | done t =>
        rw [hclose] at ha
        cases ha

theorem copyAccesses_inBounds (hlen : s.newBios.length ≤ e820Max) : ∀ a ∈ s.copyAccesses, a.InBounds := by
  intro a ha
  obtain ⟨i, hi, rfl⟩ := List.mem_map.mp ha
  exact Nat.lt_of_lt_of_le (List.mem_range.mp hi) hlen

/-- The accesses of one pass. -/
theorem SafeInv.pointAccesses_inBounds {point : ChangeMember n} (h : SafeInv biosmap pre s x)
    (hwrap : NoWrap biosmap) (hpoints : SweepPoints biosmap (pre ++ point :: rest)) (hmax : n ≤ e820Max) :
    ∀ a ∈ pointAccesses biosmap s point, a.InBounds := by
  intro a ha
  rw [pointAccesses] at ha
  rcases List.mem_append.mp ha with ha | ha
  · rcases List.mem_append.mp ha with ha | ha
    · exact h.overlap.trackAccesses_inBounds hwrap hpoints hmax a ha
    · obtain ⟨i, hi, rfl⟩ := List.mem_map.mp ha
      have hlen := (h.overlap.track hwrap hpoints).length_le
      exact Nat.lt_of_lt_of_le (List.mem_range.mp hi) (hlen.trans hmax)
  · split at ha
    · exact changeAccesses_inBounds (s := { s with overlapList := trackOverlap biosmap s.overlapList point }) h.room a ha
    · cases ha

/-- The run over the remaining points. -/
theorem SafeInv.sweep (hwrap : NoWrap biosmap) (hmax : n ≤ e820Max) :
    ∀ {rest pre : List (ChangeMember n)} {s : Sweep n} {x : Nat}, SafeInv biosmap pre s x →
      SweepPoints biosmap (pre ++ rest) → (∀ m ∈ pre, m.addr.toNat ≤ x) → (∀ m ∈ rest, x ≤ m.addr.toNat) →
      SafeEnd biosmap (E820.sweep biosmap s rest) ∧ ∀ a ∈ sweepAccesses biosmap s rest, a.InBounds
  | [], pre, s, x, h, hpoints, hpre, _ => by
      rw [List.append_nil] at hpoints
      exact ⟨h.done hwrap hpoints, copyAccesses_inBounds (Nat.le_of_lt h.room)⟩
  | point :: rest, pre, s, x, h, hpoints, hpre, hrest => by
      have hat := h.advance hwrap hpoints hpre hpoints.le_of_mem_point (hrest point List.mem_cons_self)
      have haccesses := h.pointAccesses_inBounds hwrap hpoints hmax
      rw [E820.sweep, sweepAccesses]
      rcases hat.point (h.overlap.track hwrap hpoints) with ⟨t, ht, hinv⟩ | ⟨t, ht, hend⟩
      · rw [ht]
        obtain ⟨hend, hrestAccesses⟩ := SafeInv.sweep hwrap hmax hinv (by rwa [List.append_assoc])
          hpoints.le_point_of_mem fun m hm => hpoints.le_of_mem_rest hm
        refine ⟨hend, fun a ha => ?_⟩
        rcases List.mem_append.mp ha with ha | ha
        · exact haccesses a ha
        · exact hrestAccesses a ha
      · rw [ht]
        refine ⟨hend, fun a ha => ?_⟩
        rcases List.mem_append.mp ha with ha | ha
        · exact haccesses a ha
        · exact copyAccesses_inBounds hend.length_le a ha

end

/-! ### The result of `sanitize_e820_map` -/

/-- A map whose entries follow one another, are not empty and have the type of entries that cover them. -/
structure WellFormed (map new : List E820Entry) : Prop where
  length_le : new.length ≤ e820Max
  increasing : new.Pairwise fun e f => e.addr < f.addr
  disjoint : new.Pairwise fun e f => Disjoint e.bytes f.bytes
  nonempty : ∀ e ∈ new, e.size ≠ 0 ∧ e.type ≠ 0
  covered : ∀ e ∈ new, ∀ a ∈ e.bytes, Types map a e.type

theorem SafeEnd.wellFormed {map : List E820Entry} {s : Sweep map.length} (h : SafeEnd map.get s) :
    WellFormed map s.newBios := by
  obtain ⟨frontier, hlaid⟩ := h.laid
  refine ⟨h.length_le, hlaid.ordered.imp_of_mem fun {e f} he _ hef => ?_, hlaid.ordered.imp fun {e f} hef => ?_,
    hlaid.nonempty, fun e he a ha => ?_⟩
  · have hpos := size_pos (hlaid.nonempty e he).1
    rw [BitVec.lt_def]
    omega
  · refine Set.disjoint_left.mpr fun a ha hb => ?_
    have hend : a < e.addr.toNat + e.size.toNat := ha.2
    have hstart : f.addr.toNat ≤ a := hb.1
    omega
  · obtain ⟨i, hi, htype⟩ := hlaid.covered e he a ha
    exact ⟨map.get i, List.get_mem map i, hi, htype⟩

/-- **The new map is well formed**: the call returns 0, the entries of the new map follow one another, none is
empty or without a type, every address has the type of an entry that covers it, all accesses are inside the two
arrays, and unless the new map is full no entry is open at the end. -/
theorem sanitizeE820Map_wellFormed {map : List E820Entry} (hlen : 2 ≤ map.length) (hmax : map.length ≤ e820Max)
    (hwrap : ∀ e ∈ map, e.addr.toNat + e.size.toNat < 2 ^ 64) :
    ∃ points, sortChangePoints map.get (changePoints map.get) = some points ∧
      sanitizeE820Map map = some (0, (sweep map.get .start points).newBios) ∧
      WellFormed map (sweep map.get .start points).newBios ∧
      (∀ a ∈ sweepAccesses map.get .start points, a.InBounds) ∧
      ((sweep map.get .start points).newBios.length < e820Max →
        (sweep map.get .start points).overlapList = [] ∧ (sweep map.get .start points).lastType = 0) := by
  have hno : NoWrap map.get := fun i => hwrap _ (List.get_mem map i)
  obtain ⟨points, hsort, hpoints, hret⟩ := sanitizeE820Map_sorted hlen hwrap
  obtain ⟨hend, haccesses⟩ := SafeInv.start.sweep hno hmax hpoints (fun m hm => absurd hm List.not_mem_nil)
    fun m _ => Nat.zero_le _
  exact ⟨points, hsort, hret, hend.wellFormed, haccesses, hend.closed⟩

theorem sanitizeE820Map_wellFormed_three_nested :
    WellFormed [⟨0, 100, 1⟩, ⟨10, 80, 2⟩, ⟨20, 60, 1⟩] [⟨0, 10, 1⟩, ⟨10, 70, 2⟩, ⟨80, 10, 1⟩] := by
  have hrun : sanitizeE820Map [⟨0, 100, 1⟩, ⟨10, 80, 2⟩, ⟨20, 60, 1⟩] =
      some (0, [⟨0, 10, 1⟩, ⟨10, 70, 2⟩, ⟨80, 10, 1⟩]) := by
    decide
  obtain ⟨points, -, hret, hwell, -⟩ := @sanitizeE820Map_wellFormed [⟨0, 100, 1⟩, ⟨10, 80, 2⟩, ⟨20, 60, 1⟩]
    (by decide) (by decide) (by decide)
  rw [hrun, Option.some.injEq, Prod.mk.injEq] at hret
  rw [hret.2]
  exact hwell

end XosKernel.E820
