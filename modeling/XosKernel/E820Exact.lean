import XosKernel.E820Typed
import Mathlib.Data.List.Dedup

/-! What `sanitize_e820_map` makes of a map. It always returns 0 on two entries or more that do not wrap. The
new map is exact when at no end of an entry more than two entries are open; the removal loop breaks with
three. -/

namespace XosKernel.E820

/-- The type of an address in a map: the greatest type of the entries that cover it. -/
def IsMaxType (map : List E820Entry) (a : Nat) (type : Word) : Prop :=
  Types map a type ∧ ∀ e ∈ map, a ∈ e.bytes → e.type ≤ type

/-- The new map types every address as the old map does by priority. -/
structure TypedExactly (map new : List E820Entry) : Prop where
  typed : ∀ a t, t ≠ 0 → (Types new a t ↔ IsMaxType map a t)
  untyped : ∀ a, (∀ e ∈ new, a ∉ e.bytes) ↔ ∀ e ∈ map, e.type ≠ 0 → a ∉ e.bytes

/-- The entry is not empty, and the address lies in it or at its end. -/
def E820Entry.touches (e : E820Entry) (a : BitVec 64) : Bool :=
  decide (e.size ≠ 0 ∧ e.addr ≤ a ∧ a ≤ e.addr + e.size)

/-- At no end of an entry are more than two entries open. -/
def TwoAtEnds (map : List E820Entry) : Prop :=
  ∀ e ∈ map, e.size ≠ 0 → map.countP (fun f => f.touches (e.addr + e.size)) ≤ 2

instance (map : List E820Entry) : Decidable (TwoAtEnds map) :=
  inferInstanceAs (Decidable (∀ e ∈ map, e.size ≠ 0 → map.countP (fun f => f.touches (e.addr + e.size)) ≤ 2))

instance (e : E820Entry) (a : Nat) : Decidable (a ∈ e.bytes) :=
  inferInstanceAs (Decidable (e.addr.toNat ≤ a ∧ a < e.addr.toNat + e.size.toNat))

/-- The greatest type of the entries that cover an address. -/
def typeOf (map : List E820Entry) (a : Nat) : Word :=
  currentType map.get ((List.finRange map.length).filter fun i => a ∈ (map.get i).bytes)

/-- The addresses in front of the change points. -/
def lastAddrs (map : List E820Entry) : List Nat :=
  (map.flatMap fun e => [e.addr.toNat - 1, e.addr.toNat + e.size.toNat - 1]).dedup

/-- How many regions of one type are over when the sweep comes to the ends at `x`: those that end before, and the one
that a greater type ends there, as starts come before ends. -/
def regionsOver (map : List E820Entry) (x : Nat) : Nat :=
  ((lastAddrs map).filter fun a => typeOf map a ≠ 0 ∧ typeOf map a ≠ typeOf map (a + 1) ∧
    (a + 1 < x ∨ (a + 1 = x ∧ typeOf map a < typeOf map (a + 1)))).length

/-- The same for the ends that the sweep comes to before the new map is full. -/
def TwoAtReachedEnds (map : List E820Entry) : Prop :=
  ∀ e ∈ map, e.size ≠ 0 → regionsOver map (e.addr + e.size).toNat < e820Max →
    map.countP (fun f => f.touches (e.addr + e.size)) ≤ 2

instance (map : List E820Entry) : Decidable (TwoAtReachedEnds map) :=
  inferInstanceAs (Decidable (∀ e ∈ map, e.size ≠ 0 → regionsOver map (e.addr + e.size).toNat < e820Max →
    map.countP (fun f => f.touches (e.addr + e.size)) ≤ 2))

theorem TwoAtEnds.reached {map : List E820Entry} (h : TwoAtEnds map) : TwoAtReachedEnds map :=
  fun e he hsize _ => h e he hsize

section

variable {map : List E820Entry}

theorem length_le_countP {p : E820Entry → Bool} {l : List (Fin map.length)} (hnodup : l.Nodup)
    (h : ∀ i ∈ l, p (map.get i) = true) : l.length ≤ map.countP p := by
  have hcount : map.countP p = (List.finRange map.length).countP (p ∘ map.get) := by
    conv_lhs => rw [← List.map_get_finRange map, List.countP_map]
  rw [hcount, List.countP_eq_length_filter]
  refine (List.subperm_of_subset hnodup fun i hi => ?_).length_le
  exact List.mem_filter.mpr ⟨List.mem_finRange i, h i hi⟩

theorem typeOf_typeAt (map : List E820Entry) (a : Nat) : TypeAt map.get a (typeOf map a) :=
  currentType_typeAt fun i => by simp

theorem TwoAtReachedEnds.atMostTwoOpen (h : TwoAtReachedEnds map) : AtMostTwoOpen map.get := by
  intro j hsize hroom l hnodup hl
  have hover : regionsOver map (endPoint map.get j).addr.toNat < e820Max := by
    refine hroom _ ((List.nodup_dedup _).filter _) fun a ha => ?_
    obtain ⟨hne, hchange, hwhere⟩ := of_decide_eq_true (List.mem_filter.mp ha).2
    exact ⟨_, _, typeOf_typeAt map a, hne, typeOf_typeAt map (a + 1), hchange, hwhere⟩
  refine (length_le_countP (p := fun f => f.touches (endPoint map.get j).addr) hnodup fun i hi => ?_).trans
    (h (map.get j) (List.get_mem map j) hsize hover)
  obtain ⟨hne, hlo, hhi⟩ := hl i hi
  exact decide_eq_true ⟨hne, BitVec.le_def.mpr hlo, BitVec.le_def.mpr hhi⟩

theorem typeAt_iff_isMaxType {a : Nat} {t : Word} (ht : t ≠ 0) : TypeAt map.get a t ↔ IsMaxType map a t := by
  constructor
  · intro h
    obtain ⟨i, hi, htype⟩ := h.attained.resolve_left ht
    refine ⟨⟨map.get i, List.get_mem map i, hi, htype⟩, fun e he ha => ?_⟩
    obtain ⟨k, rfl⟩ := List.mem_iff_get.mp he
    exact h.ge k ha
  · rintro ⟨⟨e, he, ha, htype⟩, hge⟩
    obtain ⟨k, rfl⟩ := List.mem_iff_get.mp he
    exact ⟨fun i hi => hge _ (List.get_mem map i) hi, .inr ⟨k, ha, htype⟩⟩

/-- A map that is sound and types every address is exact. -/
theorem SweepDone.typedExactly {new : List E820Entry} (h : SweepDone map.get new) (hroom : new.length < e820Max) :
    TypedExactly map new := by
  have htyped : ∀ a t, t ≠ 0 → (Types new a t ↔ IsMaxType map a t) := fun a t ht =>
    (h.exact_of_room hroom a t ht).trans (typeAt_iff_isMaxType ht)
  refine ⟨htyped, fun a => ⟨fun hnone e he htype ha => ?_, fun hnone e he ha => ?_⟩⟩
  · have ht := typeOf_typeAt map a
    obtain ⟨k, rfl⟩ := List.mem_iff_get.mp he
    have hne : typeOf map a ≠ 0 := fun hzero => by
      have hle := ht.ge k ha
      rw [hzero] at hle
      exact htype (BitVec.le_antisymm hle (BitVec.le_def.mpr (Nat.zero_le _)))
    obtain ⟨f, hf, hfa, -⟩ := (htyped a _ hne).mpr ((typeAt_iff_isMaxType hne).mp ht)
    exact hnone f hf hfa
  · have hne := (h.sound e he).1
    obtain ⟨⟨f, hf, hfa, hftype⟩, -⟩ := (htyped a e.type hne).mp ⟨e, he, ha, rfl⟩
    exact hnone f hf (hftype ▸ hne) hfa

/-- A map of two entries or more without wrap goes through the sort and the sweep. -/
theorem sanitizeE820Map_sorted (hlen : 2 ≤ map.length)
    (hwrap : ∀ e ∈ map, e.addr.toNat + e.size.toNat < 2 ^ 64) :
    ∃ points, sortChangePoints map.get (changePoints map.get) = some points ∧ SweepPoints map.get points ∧
      sanitizeE820Map map = some (0, (sweep map.get .start points).newBios) := by
  have hno : NoWrap map.get := fun i => hwrap _ (List.get_mem map i)
  obtain ⟨points, hsort, hpoints⟩ := hno.sortChangePoints_spec
  have hsums : map.any (fun e => decide (e.addr + e.size < e.addr)) = false := by
    rw [List.any_eq_false]
    intro e he
    have hsum : (e.addr + e.size).toNat = e.addr.toNat + e.size.toNat := by
      rw [BitVec.toNat_add, Nat.mod_eq_of_lt (hwrap e he)]
    rw [decide_eq_true_eq, BitVec.lt_def, hsum]
    omega
  refine ⟨points, hsort, hpoints, ?_⟩
  rw [sanitizeE820Map, if_neg (Nat.not_lt.mpr hlen), if_neg (by rw [hsums]; decide), hsort]

/-- The new map of a map with at most two open entries at every end that is reached. -/
theorem sanitizeE820Map_done (hlen : 2 ≤ map.length)
    (hwrap : ∀ e ∈ map, e.addr.toNat + e.size.toNat < 2 ^ 64) (htwo : TwoAtReachedEnds map) :
    ∃ new, sanitizeE820Map map = some (0, new) ∧ SweepDone map.get new := by
  have hno : NoWrap map.get := fun i => hwrap _ (List.get_mem map i)
  obtain ⟨points, -, hpoints, hret⟩ := sanitizeE820Map_sorted hlen hwrap
  exact ⟨_, hret, SweepInv.start.sweep hno htwo.atMostTwoOpen hpoints (fun m hm => by cases hm)
    fun m _ => Nat.zero_le _⟩

/-- **Sanitizing a memory map**: the call returns 0, and when at no end of an entry more than two entries are
open and the new map is not full, every address has the greatest type of the entries that cover it. -/
theorem sanitizeE820Map_typedExactly (hlen : 2 ≤ map.length)
    (hwrap : ∀ e ∈ map, e.addr.toNat + e.size.toNat < 2 ^ 64) :
    ∃ new, sanitizeE820Map map = some (0, new) ∧
      (TwoAtEnds map → new.length < e820Max → TypedExactly map new) := by
  obtain ⟨points, -, -, hret⟩ := sanitizeE820Map_sorted hlen hwrap
  refine ⟨_, hret, fun htwo hroom => ?_⟩
  obtain ⟨new, hnew, hdone⟩ := sanitizeE820Map_done hlen hwrap htwo.reached
  rw [hret, Option.some.injEq, Prod.mk.injEq] at hnew
  rw [hnew.2] at hroom ⊢
  exact hdone.typedExactly hroom

end

theorem sanitizeE820Map_typedExactly_reserved_hole :
    TypedExactly [⟨0, 100, 1⟩, ⟨10, 80, 2⟩] [⟨0, 10, 1⟩, ⟨10, 80, 2⟩, ⟨90, 10, 1⟩] := by
  have hrun : sanitizeE820Map [⟨0, 100, 1⟩, ⟨10, 80, 2⟩] = some (0, [⟨0, 10, 1⟩, ⟨10, 80, 2⟩, ⟨90, 10, 1⟩]) := by
    decide
  obtain ⟨new, hnew, hexact⟩ := @sanitizeE820Map_typedExactly [⟨0, 100, 1⟩, ⟨10, 80, 2⟩] (by decide) (by decide)
  rw [hrun, Option.some.injEq, Prod.mk.injEq] at hnew
  rw [← hnew.2] at hexact
  exact hexact (by decide) (by decide)

/-- Three regions inside one another: the new map loses the last ten bytes of the largest. -/
theorem sanitizeE820Map_three_nested : ¬ ∀ map : List E820Entry, 2 ≤ map.length → map.length ≤ e820Max →
    (∀ e ∈ map, e.addr.toNat + e.size.toNat < 2 ^ 64) →
    ∃ new, sanitizeE820Map map = some (0, new) ∧ (new.length < e820Max → TypedExactly map new) := by
  intro h
  have hrun : sanitizeE820Map [⟨0, 100, 1⟩, ⟨10, 80, 1⟩, ⟨20, 60, 1⟩] = some (0, [⟨0, 90, 1⟩]) := by decide
  obtain ⟨new, hnew, hexact⟩ := h [⟨0, 100, 1⟩, ⟨10, 80, 1⟩, ⟨20, 60, 1⟩] (by decide) (by decide) (by decide)
  rw [hrun, Option.some.injEq, Prod.mk.injEq] at hnew
  rw [← hnew.2] at hexact
  have hlost := ((hexact (by decide)).untyped 95).mp (by simp [E820Entry.bytes])
  exact hlost ⟨0, 100, 1⟩ (by simp) (by decide) (by simp [E820Entry.bytes])

end XosKernel.E820
