import XosKernel.E820Region
import Mathlib.Data.List.TakeWhile

/-! What `copy_e820_map` adds to `e820`. An entry becomes the pieces of it that lie outside the hole from 640 KB
to 1 MB, so the new table is the old one followed by the pieces of the entries up to the first one that wraps, as
far as the table has room. -/

namespace XosKernel.E820

/-! ### The loop over the entries -/

/-- One pass of the loop of `copy_e820_map`; `none` is the `return` on an entry that wraps. -/
def copyEntry (e820 : List E820Entry) (entry : E820Entry) : Option (List E820Entry) :=
  let start := entry.addr
  let size := entry.size
  let end64 := start + size
  if start > end64 then none
  else if entry.type = e820Ram ∧ start < 0x100000 ∧ end64 > 0xA0000 then
    let e820 := if start < 0xA0000 then addMemoryRegion e820 start (0xA0000 - start) entry.type else e820
    if end64 ≤ 0x100000 then some e820
    else some (addMemoryRegion e820 0x100000 (end64 - 0x100000) entry.type)
  else some (addMemoryRegion e820 start size entry.type)

/-- The `do` loop from the entry at `index` on, with `nrMap` the counter before `--nr_map`: the indices of the
entries that it reads, and the table. -/
def copyLoop (biosmap : List E820Entry) (index : Nat) (e820 : List E820Entry) :
    Nat → List Nat × List E820Entry
  | 0 => ([], e820)
  | nrMap + 1 =>
      match biosmap[index]?.bind (copyEntry e820) with
      | none => ([index], e820)
      | some e820 =>
          let rest := copyLoop biosmap (index + 1) e820 nrMap
          (index :: rest.1, rest.2)

theorem copyEntries_cons (e820 : List E820Entry) (entry : E820Entry) (biosmap : List E820Entry) :
    copyEntries e820 (entry :: biosmap) =
      match copyEntry e820 entry with
      | none => e820
      | some e820 => copyEntries e820 biosmap := by
  rw [copyEntries, copyEntry]
  split
  · rfl
  · split
    · dsimp only
      split <;> rfl
    · rfl

/-- The loop over indices copies as the loop over the list of the entries does. -/
theorem copyLoop_eq_copyEntries (done rest : List E820Entry) (e820 : List E820Entry) :
    (copyLoop (done ++ rest) done.length e820 rest.length).2 = copyEntries e820 rest := by
  induction rest generalizing done e820 with
  | nil => rfl
  | cons entry rest ih =>
      have hread : (done ++ entry :: rest)[done.length]? = some entry := by simp
      rw [copyEntries_cons, List.length_cons, copyLoop, hread, Option.bind_some]
      cases hbody : copyEntry e820 entry with
      | none => rfl
      | some e820' =>
          have hrest := ih (done ++ [entry]) e820'
          rw [List.append_assoc, List.singleton_append, List.length_append] at hrest
          exact hrest

/-! ### The pieces of an entry -/

/-- The sum of the start and the size of an entry wraps. -/
def E820Entry.wraps (e : E820Entry) : Bool := decide (e.addr > e.addr + e.size)

/-- The part of an entry below the hole. -/
def E820Entry.lowPiece (e : E820Entry) : List E820Entry :=
  if e.addr < 0xA0000 then [⟨e.addr, 0xA0000 - e.addr, e.type⟩] else []

/-- The part of an entry above the hole. -/
def E820Entry.highPiece (e : E820Entry) : List E820Entry :=
  if e.addr + e.size ≤ 0x100000 then [] else [⟨0x100000, e.addr + e.size - 0x100000, e.type⟩]

/-- The regions that one pass adds for an entry that does not wrap. -/
def E820Entry.pieces (e : E820Entry) : List E820Entry :=
  if e.type = e820Ram ∧ e.addr < 0x100000 ∧ e.addr + e.size > 0xA0000 then e.lowPiece ++ e.highPiece else [e]

/-- Adding a region appends it as far as the table has room. -/
theorem addMemoryRegion_eq_take {e820 : List E820Entry} (hlen : e820.length ≤ e820Max) (start size : BitVec 64)
    (type : Word) :
    addMemoryRegion e820 start size type = (e820 ++ [(⟨start, size, type⟩ : E820Entry)]).take e820Max := by
  rw [addMemoryRegion]
  split
  · rename_i hfull
    rw [← hfull, List.take_left]
  · rename_i hroom
    rw [List.take_of_length_le]
    rw [List.length_append, List.length_singleton]
    omega

theorem take_append_take {α : Type} (l l' : List α) (k : Nat) : (l.take k ++ l').take k = (l ++ l').take k := by
  rcases Nat.le_total l.length k with hle | hge
  · rw [List.take_of_length_le hle]
  · have hlen : (l.take k).length = k := List.length_take_of_le hge
    rw [List.take_append_of_le_length (Nat.le_of_eq hlen.symm), List.take_append_of_le_length hge, List.take_take,
      Nat.min_self]

theorem addMemoryRegion_take (l : List E820Entry) (start size : BitVec 64) (type : Word) :
    addMemoryRegion (l.take e820Max) start size type =
      (l ++ [(⟨start, size, type⟩ : E820Entry)]).take e820Max := by
  rw [addMemoryRegion_eq_take (List.length_take_le _ _), take_append_take]

/-- One pass appends the pieces of the entry as far as the table has room. -/
theorem copyEntry_eq_take {e820 : List E820Entry} {e : E820Entry} (hlen : e820.length ≤ e820Max)
    (hwrap : e.wraps = false) : copyEntry e820 e = some ((e820 ++ e.pieces).take e820Max) := by
  rw [E820Entry.wraps, decide_eq_false_iff_not] at hwrap
  rw [copyEntry, E820Entry.pieces, if_neg hwrap]
  split
  · have hlow : (if e.addr < 0xA0000 then addMemoryRegion e820 e.addr (0xA0000 - e.addr) e.type else e820) =
        (e820 ++ e.lowPiece).take e820Max := by
      rw [E820Entry.lowPiece]
      split
      · exact addMemoryRegion_eq_take hlen _ _ _
      · rw [List.append_nil, List.take_of_length_le hlen]
    simp only [hlow]
    rw [E820Entry.highPiece]
    split
    · rw [List.append_nil]
    · rw [addMemoryRegion_take, List.append_assoc]
  · rw [addMemoryRegion_eq_take hlen]

/-- The table after the loop. -/
theorem copyEntries_eq_take {e820 map : List E820Entry} (hlen : e820.length ≤ e820Max) :
    copyEntries e820 map =
      (e820 ++ (map.takeWhile fun e => !e.wraps).flatMap E820Entry.pieces).take e820Max := by
  induction map generalizing e820 with
  | nil =>
      rw [List.takeWhile_nil, List.flatMap_nil, List.append_nil, List.take_of_length_le hlen]
      rfl
  | cons e map ih =>
      rw [copyEntries_cons]
      cases hwrap : e.wraps with
      | true =>
          have hreturn : copyEntry e820 e = none := if_pos (of_decide_eq_true hwrap)
          rw [hreturn, List.takeWhile_cons_of_neg (by simp [hwrap]), List.flatMap_nil, List.append_nil,
            List.take_of_length_le hlen]
      | false =>
          rw [copyEntry_eq_take hlen hwrap, List.takeWhile_cons_of_pos (by simp [hwrap]), List.flatMap_cons]
          show copyEntries ((e820 ++ e.pieces).take e820Max) map = _
          rw [ih (List.length_take_le _ _), take_append_take, List.append_assoc]

/-! ### The hole -/

/-- The addresses that the copy takes away from RAM. -/
def hole : Set Nat := {a | 0xA0000 ≤ a ∧ a < 0x100000}

/-- A region of the list covers the address. -/
def Covered (regions : List E820Entry) (a : Nat) : Prop := ∃ p ∈ regions, a ∈ p.bytes

theorem covered_append {l l' : List E820Entry} {a : Nat} : Covered (l ++ l') a ↔ Covered l a ∨ Covered l' a := by
  simp [Covered, or_and_right, exists_or]

theorem covered_singleton {e : E820Entry} {a : Nat} : Covered [e] a ↔ a ∈ e.bytes := by simp [Covered]

theorem mem_bytes {e : E820Entry} {a : Nat} :
    a ∈ e.bytes ↔ e.addr.toNat ≤ a ∧ a < e.addr.toNat + e.size.toNat := Iff.rfl

section

variable {e : E820Entry}

theorem covered_lowPiece {a : Nat} (hend : (e.addr + e.size).toNat = e.addr.toNat + e.size.toNat)
    (hhigh : e.addr + e.size > 0xA0000) : Covered e.lowPiece a ↔ a ∈ e.bytes ∧ a < 0xA0000 := by
  have hhole : (0xA0000 : BitVec 64).toNat = 0xA0000 := rfl
  have hhigh := BitVec.lt_def.mp hhigh
  rw [hhole, hend] at hhigh
  rw [E820Entry.lowPiece]
  split
  · rename_i hlow
    have hsize : (0xA0000 - e.addr).toNat = 0xA0000 - e.addr.toNat := by
      rw [BitVec.toNat_sub_of_le (BitVec.le_def.mpr (Nat.le_of_lt (BitVec.lt_def.mp hlow))), hhole]
    rw [covered_singleton]
    show e.addr.toNat ≤ a ∧ a < e.addr.toNat + (0xA0000 - e.addr).toNat ↔ _
    rw [hsize, mem_bytes]
    omega
  · rename_i hlow
    have hlow := BitVec.le_def.mp (BitVec.not_lt.mp hlow)
    rw [hhole] at hlow
    have hnone : ¬ Covered [] a := fun ⟨_, hmem, _⟩ => List.not_mem_nil hmem
    refine iff_of_false hnone ?_
    rw [mem_bytes]
    omega

theorem covered_highPiece {a : Nat} (hend : (e.addr + e.size).toNat = e.addr.toNat + e.size.toNat)
    (hlow : e.addr < 0x100000) : Covered e.highPiece a ↔ a ∈ e.bytes ∧ 0x100000 ≤ a := by
  have hhole : (0x100000 : BitVec 64).toNat = 0x100000 := rfl
  have hlow := BitVec.lt_def.mp hlow
  rw [hhole] at hlow
  rw [E820Entry.highPiece]
  split
  · rename_i hhigh
    have hhigh := BitVec.le_def.mp hhigh
    rw [hhole, hend] at hhigh
    have hnone : ¬ Covered [] a := fun ⟨_, hmem, _⟩ => List.not_mem_nil hmem
    refine iff_of_false hnone ?_
    rw [mem_bytes]
    omega
  · rename_i hhigh
    have hhigh := BitVec.lt_def.mp (BitVec.not_le.mp hhigh)
    have hsize : (e.addr + e.size - 0x100000).toNat = e.addr.toNat + e.size.toNat - 0x100000 := by
      rw [BitVec.toNat_sub_of_le (BitVec.le_def.mpr (Nat.le_of_lt hhigh)), hhole, hend]
    rw [hhole, hend] at hhigh
    rw [covered_singleton]
    show (0x100000 : BitVec 64).toNat ≤ a ∧ a < (0x100000 : BitVec 64).toNat + _ ↔ _
    rw [hsize, hhole, mem_bytes]
    omega

theorem mem_lowPiece {p : E820Entry} (h : p ∈ e.lowPiece) : p.type = e.type ∧ p.size ≠ 0 := by
  rw [E820Entry.lowPiece] at h
  split at h
  · rename_i hlow
    rw [List.mem_singleton.mp h]
    refine ⟨rfl, fun hzero => ?_⟩
    have heq : 0xA0000 = e.addr := (BitVec.sub_eq_iff_eq_add.mp hzero).trans (BitVec.zero_add _)
    exact BitVec.ne_of_lt hlow heq.symm
  · cases h

theorem mem_highPiece {p : E820Entry} (h : p ∈ e.highPiece) : p.type = e.type ∧ p.size ≠ 0 := by
  rw [E820Entry.highPiece] at h
  split at h
  · cases h
  · rename_i hhigh
    rw [List.mem_singleton.mp h]
    refine ⟨rfl, fun hzero => ?_⟩
    have heq : e.addr + e.size = 0x100000 := (BitVec.sub_eq_iff_eq_add.mp hzero).trans (BitVec.zero_add _)
    exact hhigh (BitVec.le_of_eq heq)

end

/-- What becomes of an entry. -/
structure OutsideHole (e : E820Entry) (pieces : List E820Entry) : Prop where
  other : e.type ≠ e820Ram → pieces = [e]
  type : ∀ p ∈ pieces, p.type = e.type
  ram : e.type = e820Ram → ∀ a, Covered pieces a ↔ a ∈ e.bytes ∧ a ∉ hole
  nonempty : e.size ≠ 0 → ∀ p ∈ pieces, p.size ≠ 0

theorem mem_hole {a : Nat} : a ∈ hole ↔ 0xA0000 ≤ a ∧ a < 0x100000 := Iff.rfl

/-- The pieces of an entry are what lies outside the hole. -/
theorem E820Entry.outsideHole {e : E820Entry} (h : e.addr.toNat + e.size.toNat < 2 ^ 64) :
    OutsideHole e e.pieces := by
  have hend : (e.addr + e.size).toNat = e.addr.toNat + e.size.toNat := by
    rw [BitVec.toNat_add, Nat.mod_eq_of_lt h]
  by_cases hmeets : e.type = e820Ram ∧ e.addr < 0x100000 ∧ e.addr + e.size > 0xA0000
  · have hpieces : e.pieces = e.lowPiece ++ e.highPiece := if_pos hmeets
    obtain ⟨hram, hlow, hhigh⟩ := hmeets
    rw [hpieces]
    refine ⟨fun hother => absurd hram hother, fun p hp => ?_, fun _ a => ?_, fun _ p hp => ?_⟩
    · rcases List.mem_append.mp hp with hp | hp
      · exact (mem_lowPiece hp).1
      · exact (mem_highPiece hp).1
    · rw [covered_append, covered_lowPiece hend hhigh, covered_highPiece hend hlow, mem_hole, mem_bytes]
      omega
    · rcases List.mem_append.mp hp with hp | hp
      · exact (mem_lowPiece hp).2
      · exact (mem_highPiece hp).2
  · have hpieces : e.pieces = [e] := if_neg hmeets
    rw [hpieces]
    refine ⟨fun _ => rfl, fun p hp => ?_, fun hram a => ?_, fun hsize p hp => ?_⟩
    · rw [List.mem_singleton.mp hp]
    · -- the entry does not meet the hole
      have hlow : (0x100000 : BitVec 64).toNat = 0x100000 := rfl
      have hhigh : (0xA0000 : BitVec 64).toNat = 0xA0000 := rfl
      have hapart : ¬ (e.addr.toNat < 0x100000 ∧ 0xA0000 < e.addr.toNat + e.size.toNat) := by
        intro hboth
        refine hmeets ⟨hram, ?_, ?_⟩
        · rw [BitVec.lt_def, hlow]
          exact hboth.1
        · show (0xA0000 : BitVec 64) < e.addr + e.size
          rw [BitVec.lt_def, hend, hhigh]
          exact hboth.2
      rw [covered_singleton, mem_bytes, mem_hole]
      omega
    · rwa [List.mem_singleton.mp hp]

/-! ### A map without wrap -/

theorem wraps_eq_false_iff {e : E820Entry} : e.wraps = false ↔ e.addr.toNat + e.size.toNat < 2 ^ 64 := by
  have haddr := e.addr.isLt
  have hsize := e.size.isLt
  rw [E820Entry.wraps, decide_eq_false_iff_not, gt_iff_lt, BitVec.lt_def, BitVec.toNat_add]
  constructor
  · intro h
    by_contra hover
    rw [Nat.mod_eq_sub_mod (by omega), Nat.mod_eq_of_lt (by omega)] at h
    omega
  · intro h
    rw [Nat.mod_eq_of_lt h]
    omega

theorem takeWhile_of_noWrap {map : List E820Entry} (hwrap : ∀ e ∈ map, e.addr.toNat + e.size.toNat < 2 ^ 64) :
    (map.takeWhile fun e => !e.wraps) = map :=
  List.takeWhile_eq_self_iff.mpr fun e he => by rw [wraps_eq_false_iff.mpr (hwrap e he)]; rfl

/-- The copy of a map: every entry in its turn gives what lies of it outside the hole. -/
structure Copied (map new : List E820Entry) : Prop where
  inOrder : ∃ pieces : List (List E820Entry), new = pieces.flatten ∧ List.Forall₂ OutsideHole map pieces
  unchanged : ∀ e ∈ map, e.type ≠ e820Ram → e ∈ new
  ram : ∀ a, Types new a e820Ram ↔ Types map a e820Ram ∧ a ∉ hole

theorem types_flatMap_pieces {map : List E820Entry} (hwrap : ∀ e ∈ map, e.addr.toNat + e.size.toNat < 2 ^ 64)
    (a : Nat) : Types (map.flatMap E820Entry.pieces) a e820Ram ↔ Types map a e820Ram ∧ a ∉ hole := by
  constructor
  · rintro ⟨p, hp, ha, htype⟩
    obtain ⟨e, he, hpe⟩ := List.mem_flatMap.mp hp
    have hparts := e.outsideHole (hwrap e he)
    have hetype := (hparts.type p hpe).symm.trans htype
    obtain ⟨hmem, hout⟩ := (hparts.ram hetype a).mp ⟨p, hpe, ha⟩
    exact ⟨⟨e, he, hmem, hetype⟩, hout⟩
  · rintro ⟨⟨e, he, ha, htype⟩, hout⟩
    have hparts := e.outsideHole (hwrap e he)
    obtain ⟨p, hp, hpa⟩ := (hparts.ram htype a).mpr ⟨ha, hout⟩
    exact ⟨p, List.mem_flatMap.mpr ⟨e, he, hp⟩, hpa, (hparts.type p hp).trans htype⟩

theorem copied_flatMap_pieces {map : List E820Entry} (hwrap : ∀ e ∈ map, e.addr.toNat + e.size.toNat < 2 ^ 64) :
    Copied map (map.flatMap E820Entry.pieces) := by
  refine ⟨⟨map.map E820Entry.pieces, ?_, ?_⟩, fun e he htype => ?_, types_flatMap_pieces hwrap⟩
  · rw [List.flatMap_def]
  · refine List.forall₂_map_right_iff.mpr (List.forall₂_same.mpr fun e he => ?_)
    exact e.outsideHole (hwrap e he)
  · have hpieces := (e.outsideHole (hwrap e he)).other htype
    exact List.mem_flatMap.mpr ⟨e, he, by rw [hpieces]; exact List.mem_singleton_self e⟩

/-- Without a wrap the loop reads every entry once, in order. -/
theorem copyLoop_reads (done rest : List E820Entry) (e820 : List E820Entry) (hlen : e820.length ≤ e820Max)
    (hwrap : ∀ e ∈ rest, e.addr.toNat + e.size.toNat < 2 ^ 64) :
    (copyLoop (done ++ rest) done.length e820 rest.length).1 = List.range' done.length rest.length := by
  induction rest generalizing done e820 with
  | nil => rfl
  | cons entry rest ih =>
      have hread : (done ++ entry :: rest)[done.length]? = some entry := by simp
      have hentry := wraps_eq_false_iff.mpr (hwrap entry List.mem_cons_self)
      have hrest := ih (done ++ [entry]) ((e820 ++ entry.pieces).take e820Max) (List.length_take_le _ _)
        fun e he => hwrap e (List.mem_cons_of_mem _ he)
      rw [List.append_assoc, List.singleton_append, List.length_append, List.length_singleton] at hrest
      rw [List.length_cons, copyLoop, hread, Option.bind_some, copyEntry_eq_take hlen hentry, List.range'_succ]
      show done.length :: _ = _
      rw [hrest]

/-- **Copying a map without wrap**: when there is room for the pieces of all entries, every entry in its turn
gives what lies of it outside the hole, and the loop reads every entry once. -/
theorem copyE820Map_copied {map : List E820Entry} (hlen : 2 ≤ map.length)
    (hwrap : ∀ e ∈ map, e.addr.toNat + e.size.toNat < 2 ^ 64)
    (hroom : (map.flatMap E820Entry.pieces).length ≤ e820Max) :
    Copied map (copyE820Map [] map) ∧ copyLoop map 0 [] map.length = (List.range map.length, copyE820Map [] map) := by
  have hnew : copyE820Map [] map = map.flatMap E820Entry.pieces := by
    rw [copyE820Map, if_neg (Nat.not_lt.mpr hlen), copyEntries_eq_take (Nat.zero_le _), takeWhile_of_noWrap hwrap,
      List.nil_append, List.take_of_length_le hroom]
  have hcopy : copyE820Map [] map = copyEntries [] map := if_neg (Nat.not_lt.mpr hlen)
  have hreads := copyLoop_reads [] map [] (Nat.zero_le _) hwrap
  have htable := copyLoop_eq_copyEntries [] map []
  refine ⟨?_, Prod.ext ?_ ?_⟩
  · rw [hnew]
    exact copied_flatMap_pieces hwrap
  · rw [List.range_eq_range']
    exact hreads
  · rw [hcopy]
    exact htable

theorem copyE820Map_copied_across_hole :
    Copied [⟨0x9F000, 0x62000, 1⟩, ⟨0xF0000, 0x10000, 2⟩]
      [⟨0x9F000, 0x1000, 1⟩, ⟨0x100000, 0x1000, 1⟩, ⟨0xF0000, 0x10000, 2⟩] := by
  have hrun : copyE820Map [] [⟨0x9F000, 0x62000, 1⟩, ⟨0xF0000, 0x10000, 2⟩] =
      [⟨0x9F000, 0x1000, 1⟩, ⟨0x100000, 0x1000, 1⟩, ⟨0xF0000, 0x10000, 2⟩] := by decide
  rw [← hrun]
  exact (@copyE820Map_copied [⟨0x9F000, 0x62000, 1⟩, ⟨0xF0000, 0x10000, 2⟩] (by decide) (by decide)
    (by decide)).1

/-! ### A map with a wrap -/

/-- An entry that the copy drops whole. -/
def E820Entry.InHole (e : E820Entry) : Prop :=
  e.type = e820Ram ∧ 0xA0000 ≤ e.addr ∧ e.addr < 0x100000 ∧ 0xA0000 < e.addr + e.size ∧ e.addr + e.size ≤ 0x100000

theorem pieces_eq_nil_iff {e : E820Entry} : e.pieces = [] ↔ e.InHole := by
  rw [E820Entry.pieces, E820Entry.InHole]
  split
  · rename_i hmeets
    obtain ⟨hram, hlow, hhigh⟩ := hmeets
    rw [List.append_eq_nil_iff, E820Entry.lowPiece, E820Entry.highPiece]
    have hbelow : (if e.addr < 0xA0000 then [(⟨e.addr, 0xA0000 - e.addr, e.type⟩ : E820Entry)] else []) = [] ↔
        0xA0000 ≤ e.addr := by
      split
      · rename_i hbelow
        exact iff_of_false (List.cons_ne_nil _ _) (BitVec.not_le.mpr hbelow)
      · rename_i habove
        exact iff_of_true rfl (BitVec.not_lt.mp habove)
    have habove : (if e.addr + e.size ≤ 0x100000 then []
        else [(⟨0x100000, e.addr + e.size - 0x100000, e.type⟩ : E820Entry)]) = [] ↔
        e.addr + e.size ≤ 0x100000 := by
      split
      · rename_i hbelow
        exact iff_of_true rfl hbelow
      · rename_i habove
        exact iff_of_false (List.cons_ne_nil _ _) habove
    rw [hbelow, habove]
    exact ⟨fun h => ⟨hram, h.1, hlow, hhigh, h.2⟩, fun h => ⟨h.2.1, h.2.2.2.2⟩⟩
  · rename_i hapart
    exact iff_of_false (List.cons_ne_nil _ _) fun h => hapart ⟨h.1, h.2.2.1, h.2.2.2.1⟩

/-- **Copying a map with a wrap**: the table is left as it is exactly when the map has fewer than two entries,
when the table is full, or when every entry before the first one that wraps is RAM inside the hole. -/
theorem copyE820Map_eq_self_iff {e820 map : List E820Entry} (hlen : e820.length ≤ e820Max) :
    copyE820Map e820 map = e820 ↔
      map.length < 2 ∨ e820.length = e820Max ∨ ∀ e ∈ map.takeWhile fun e => !e.wraps, e.InHole := by
  rw [copyE820Map]
  split
  · rename_i hshort
    exact iff_of_true rfl (.inl hshort)
  · rename_i hlong
    rw [or_iff_right hlong, copyEntries_eq_take hlen]
    have hpieces : ((map.takeWhile fun e => !e.wraps).flatMap E820Entry.pieces) = [] ↔
        ∀ e ∈ map.takeWhile fun e => !e.wraps, e.InHole := by
      simp only [List.flatMap_eq_nil_iff, pieces_eq_nil_iff]
    rw [← hpieces]
    generalize (map.takeWhile fun e => !e.wraps).flatMap E820Entry.pieces = added
    constructor
    · intro h
      have hcount := congrArg List.length h
      rw [List.length_take, List.length_append] at hcount
      rw [← List.length_eq_zero_iff]
      omega
    · rintro (hfull | rfl)
      · rw [← hfull, List.take_left]
      · rw [List.append_nil, List.take_of_length_le hlen]

theorem copyE820Map_eq_self_in_hole :
    copyE820Map [⟨0, 0x1000, 2⟩] [⟨0xB0000, 0x1000, 1⟩, ⟨0xFFFFFFFFFFFFFFFF, 2, 1⟩] = [⟨0, 0x1000, 2⟩] :=
  (copyE820Map_eq_self_iff (by decide)).mpr (.inr (.inr (by
    have hfirst : ([⟨0xB0000, 0x1000, 1⟩, ⟨0xFFFFFFFFFFFFFFFF, 2, 1⟩] : List E820Entry).takeWhile
        (fun e => !e.wraps) = [⟨0xB0000, 0x1000, 1⟩] := by decide
    rw [hfirst]
    intro e he
    rw [List.mem_singleton.mp he]
    exact ⟨rfl, by decide, by decide, by decide, by decide⟩)))

/-- The entry before the one that wraps stays in the table. -/
theorem copyE820Map_second_wraps : ¬ ∀ e820 map : List E820Entry, e820.length ≤ e820Max →
    (∃ e ∈ map, 2 ^ 64 ≤ e.addr.toNat + e.size.toNat) → copyE820Map e820 map = e820 := by
  intro h
  have hself := h [] [⟨0, 0x1000, 1⟩, ⟨0xFFFFFFFFFFFFFFFF, 2, 1⟩] (by decide)
    ⟨⟨0xFFFFFFFFFFFFFFFF, 2, 1⟩, by simp, by decide⟩
  have hrun : copyE820Map [] [⟨0, 0x1000, 1⟩, ⟨0xFFFFFFFFFFFFFFFF, 2, 1⟩] = [⟨0, 0x1000, 1⟩] := by decide
  rw [hrun] at hself
  exact List.cons_ne_nil _ _ hself

end XosKernel.E820
