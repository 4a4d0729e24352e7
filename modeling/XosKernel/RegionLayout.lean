import Mathlib.Algebra.Order.Floor.Div
import Mathlib.Data.Nat.Count
import Mathlib.Order.Monotone.Basic
import Mathlib.Tactic.Common

/-! Regions laid out one after another from a running base. A rule gives each region an alignment, a multiple of some
unit. A region is put behind the base, at the same offset in a unit as where it starts itself. Units are then never
shared by two regions. -/

namespace XosKernel.Layout

/-- The first multiple of `unit` from `x` on. -/
def alignUp (x unit : Nat) : Nat := unit * (x ⌈/⌉ unit)

theorem le_alignUp (x : Nat) {unit : Nat} (hunit : 0 < unit) : x ≤ alignUp x unit := le_smul_ceilDiv hunit

theorem dvd_alignUp (x unit : Nat) : unit ∣ alignUp x unit := Nat.dvd_mul_right _ _

theorem alignUp_le {x y unit : Nat} (hunit : 0 < unit) (h : x ≤ y) (hy : unit ∣ y) : alignUp x unit ≤ y := by
  obtain ⟨k, rfl⟩ := hy
  exact Nat.mul_le_mul_left _ ((ceilDiv_le_iff_le_smul hunit).mpr h)

structure Region where
  start : Nat
  size : Nat

/-- How regions are aligned. -/
structure Rule where
  unit : Nat
  align : Region → Nat
  unit_pos : 0 < unit
  align_pos : ∀ r, 0 < align r
  unit_dvd : ∀ r, unit ∣ align r

namespace Rule

variable (rule : Rule) (base : Nat) (r : Region)

/-- The start of the first unit of a region. -/
def slot : Nat := alignUp base (rule.align r)

/-- Where a region is put. -/
def place : Nat := rule.slot base r + r.start % rule.unit

/-- The base behind a region. -/
def next : Nat := rule.slot base r + (r.size + r.start % rule.unit)

theorem le_slot : base ≤ rule.slot base r := le_alignUp base (rule.align_pos r)

theorem unit_dvd_slot : rule.unit ∣ rule.slot base r := (rule.unit_dvd r).trans (dvd_alignUp base _)

theorem le_next : base ≤ rule.next base r := (rule.le_slot base r).trans (Nat.le_add_right _ _)

theorem place_add_size : rule.place base r + r.size = rule.next base r := by
  rw [place, next, Nat.add_assoc, Nat.add_comm r.size]

/-- A region keeps its offset in a unit. -/
theorem place_mod : rule.place base r % rule.unit = r.start % rule.unit := by
  rw [place, Nat.add_mod, Nat.mod_eq_zero_of_dvd (rule.unit_dvd_slot base r), Nat.zero_add, Nat.mod_mod, Nat.mod_mod]

theorem place_div : rule.place base r / rule.unit * rule.unit = rule.slot base r := by
  obtain ⟨k, hk⟩ := rule.unit_dvd_slot base r
  rw [place, hk, Nat.mul_add_div rule.unit_pos, Nat.div_eq_of_lt (Nat.mod_lt _ rule.unit_pos), Nat.add_zero,
    Nat.mul_comm]

/-- A region that starts at a multiple of its alignment is put at one. -/
theorem align_dvd_place (h : rule.align r ∣ r.start) : rule.align r ∣ rule.place base r := by
  rw [place, Nat.mod_eq_zero_of_dvd ((rule.unit_dvd r).trans h), Nat.add_zero]
  exact dvd_alignUp base _

section

variable (present : Nat → Prop) [DecidablePred present] (region : Nat → Region) (first : Nat)

/-- The base before region number `i`, of which those that are present are laid out. -/
def baseAt : Nat → Nat
  | 0 => first
  | i + 1 => if present i then rule.next (baseAt i) (region i) else baseAt i

variable {present}

theorem baseAt_present {i : Nat} (h : present i) :
    rule.baseAt present region first (i + 1) = rule.next (rule.baseAt present region first i) (region i) := if_pos h

theorem baseAt_absent {i : Nat} (h : ¬ present i) :
    rule.baseAt present region first (i + 1) = rule.baseAt present region first i := if_neg h

theorem baseAt_mono : Monotone (rule.baseAt present region first) := by
  refine monotone_nat_of_le_succ fun i => ?_
  by_cases h : present i
  · rw [baseAt_present rule region first h]
    exact rule.le_next _ _
  · rw [baseAt_absent rule region first h]

/-- Where region number `i` is put. -/
def placeAt (present : Nat → Prop) [DecidablePred present] (i : Nat) : Nat :=
  rule.place (rule.baseAt present region first i) (region i)

theorem first_le_placeAt (i : Nat) : first ≤ rule.placeAt region first present i :=
  calc first ≤ rule.baseAt present region first i := rule.baseAt_mono region first (Nat.zero_le i)
    _ ≤ rule.slot (rule.baseAt present region first i) (region i) := rule.le_slot _ _
    _ ≤ rule.placeAt region first present i := Nat.le_add_right _ _

/-- The last unit of a region ends where the first unit of a later one starts, or before. -/
theorem placeAt_apart {i j : Nat} (hi : present i) (hij : i < j) :
    alignUp (rule.placeAt region first present i + (region i).size) rule.unit ≤
      rule.placeAt region first present j / rule.unit * rule.unit := by
  rw [placeAt, placeAt, place_add_size, place_div]
  refine alignUp_le rule.unit_pos ?_ (rule.unit_dvd_slot _ _)
  calc rule.next (rule.baseAt present region first i) (region i)
      = rule.baseAt present region first (i + 1) := (rule.baseAt_present region first hi).symm
    _ ≤ rule.baseAt present region first j := rule.baseAt_mono region first hij
    _ ≤ rule.slot (rule.baseAt present region first j) (region j) := rule.le_slot _ _

end

end Rule

end XosKernel.Layout
