import XosKernel.E820Exact

/-! What `setup_memory_region` calls RAM. When the upper halves of the firmware's entries are zero and the
overlap list of the sweep is never cut short before the new map is full, every address that `e820` calls RAM is
an address that the firmware reports as usable and as nothing else. -/

namespace XosKernel.E820

/-! ### Copying -/

/-- The RAM of a map is RAM of another one. -/
def RamWithin (map : List E820Entry) (ram : Set Nat) : Prop :=
  ∀ e ∈ map, e.type = e820Ram → e.bytes ⊆ ram

theorem RamWithin.addMemoryRegion {map : List E820Entry} {ram : Set Nat} (h : RamWithin map ram)
    {start size : BitVec 64} {type : Word}
    (hnew : type = e820Ram → (⟨start, size, type⟩ : E820Entry).bytes ⊆ ram) :
    RamWithin (E820.addMemoryRegion map start size type) ram := by
  rw [E820.addMemoryRegion]
  split
  · exact h
  · intro e he htype
    rcases List.mem_append.mp he with he | he
    · exact h e he htype
    · obtain rfl := List.mem_singleton.mp he
      exact hnew htype

/-- The part of an entry below the hole at 640 KB. -/
theorem bytes_below_hole {e : E820Entry} (hend : (e.addr + e.size).toNat = e.addr.toNat + e.size.toNat)
    (hlow : e.addr < 0xA0000) (hhigh : e.addr + e.size > 0xA0000) :
    (⟨e.addr, 0xA0000 - e.addr, e.type⟩ : E820Entry).bytes ⊆ e.bytes := by
  have hhole : (0xA0000 : BitVec 64).toNat = 0xA0000 := rfl
  have hlow := BitVec.lt_def.mp hlow
  have hhigh := BitVec.lt_def.mp hhigh
  have hsize : (0xA0000 - e.addr).toNat = 0xA0000 - e.addr.toNat := by
    rw [BitVec.toNat_sub_of_le (BitVec.le_def.mpr (Nat.le_of_lt hlow)), hhole]
  rw [hhole] at hlow hhigh
  rintro a ⟨hlo, hhi⟩
  have hlo : e.addr.toNat ≤ a := hlo
  have hhi : a < e.addr.toNat + (0xA0000 - e.addr).toNat := hhi
  rw [hsize] at hhi
  exact ⟨hlo, by omega⟩

/-- The part of an entry above 1 MB. -/
theorem bytes_above_hole {e : E820Entry} (hend : (e.addr + e.size).toNat = e.addr.toNat + e.size.toNat)
    (hlow : e.addr < 0x100000) (hhigh : ¬ e.addr + e.size ≤ 0x100000) :
    (⟨0x100000, e.addr + e.size - 0x100000, e.type⟩ : E820Entry).bytes ⊆ e.bytes := by
  have hhole : (0x100000 : BitVec 64).toNat = 0x100000 := rfl
  have hlow := BitVec.lt_def.mp hlow
  have hhigh := BitVec.lt_def.mp (BitVec.not_le.mp hhigh)
  have hsize : (e.addr + e.size - 0x100000).toNat = e.addr.toNat + e.size.toNat - 0x100000 := by
    rw [BitVec.toNat_sub_of_le (BitVec.le_def.mpr (Nat.le_of_lt hhigh)), hhole, hend]
  rintro a ⟨hlo, hhi⟩
  rw [hsize] at hhi
  rw [hhole] at hlow hhigh hlo hhi
  exact ⟨by omega, by omega⟩

/-- Copying makes no RAM. -/
theorem copyEntries_ram {biosmap e820 : List E820Entry} {ram : Set Nat} (hmap : RamWithin e820 ram)
    (hbios : RamWithin biosmap ram) : RamWithin (copyEntries e820 biosmap) ram := by
  induction biosmap generalizing e820 with
  | nil => exact hmap
  | cons e biosmap ih =>
      have hrest : RamWithin biosmap ram := fun f hf => hbios f (List.mem_cons_of_mem _ hf)
      have hentry := hbios e List.mem_cons_self
      rw [copyEntries]
      split
      · exact hmap
      rename_i hwrap
      have hend : (e.addr + e.size).toNat = e.addr.toNat + e.size.toNat := by
        have hle := BitVec.le_def.mp (BitVec.not_lt.mp hwrap)
        have hsize := e.size.isLt
        rw [BitVec.toNat_add] at hle ⊢
        omega
      split
      · rename_i hhole
        obtain ⟨hram, hlow, hhigh⟩ := hhole
        have hbelow : RamWithin (if e.addr < 0xA0000 then
            addMemoryRegion e820 e.addr (0xA0000 - e.addr) e.type else e820) ram := by
          split
          · rename_i hcut
            exact hmap.addMemoryRegion fun htype => (bytes_below_hole hend hcut hhigh).trans (hentry htype)
          · exact hmap
        generalize (if e.addr < 0xA0000 then
          addMemoryRegion e820 e.addr (0xA0000 - e.addr) e.type else e820) = low at hbelow ⊢
        show RamWithin (if e.addr + e.size ≤ 0x100000 then copyEntries low biosmap
          else copyEntries (addMemoryRegion low 0x100000 (e.addr + e.size - 0x100000) e.type) biosmap) ram
        split
        · exact ih hbelow hrest
        · rename_i habove
          exact ih (hbelow.addMemoryRegion fun htype => (bytes_above_hole hend hlow habove).trans (hentry htype))
            hrest
      · exact ih (hmap.addMemoryRegion hentry) hrest

/-! ### The firmware's map -/

namespace MmapEntry

/-- The base address and the length that the firmware reports. -/
def base (e : MmapEntry) : BitVec 64 := e.baseAddrHigh ++ e.baseAddrLow

def length (e : MmapEntry) : BitVec 64 := e.lengthHigh ++ e.lengthLow

def bytes (e : MmapEntry) : Set Nat := {a | e.base.toNat ≤ a ∧ a < e.base.toNat + e.length.toNat}

/-- The entry of `biosmap`, which drops the upper halves. -/
def toE820 (e : MmapEntry) : E820Entry := ⟨e.baseAddrLow.setWidth 64, e.lengthLow.setWidth 64, e.type⟩

/-- The upper halves are zero, or the entry is empty. -/
def LowHalves (e : MmapEntry) : Prop := e.length = 0 ∨ (e.baseAddrHigh = 0 ∧ e.lengthHigh = 0)

instance (e : MmapEntry) : Decidable e.LowHalves := inferInstanceAs (Decidable (_ ∨ _))

theorem toNat_zero_append (x : Word) : ((0 : Word) ++ x).toNat = (x.setWidth 64).toNat := by
  have hlt := x.isLt
  rw [BitVec.toNat_append, BitVec.toNat_setWidth, Nat.mod_eq_of_lt (by omega)]
  simp

theorem LowHalves.bytes_eq {e : MmapEntry} (h : e.LowHalves) : e.toE820.bytes = e.bytes := by
  rcases h with hempty | ⟨hbase, hlength⟩
  · have hlow : e.lengthLow = 0 := by
      have hbits := congrArg (BitVec.setWidth 32) hempty
      rwa [length, BitVec.setWidth_append_eq_right] at hbits
    have hzero : e.toE820.size = 0 := by
      rw [toE820, hlow]
      rfl
    ext a
    rw [bytes, E820Entry.bytes, hempty, hzero]
    have hnat : (0 : BitVec 64).toNat = 0 := rfl
    simp only [hnat, Set.mem_ofPred_eq]
    omega
  · have hbaseNat : e.base.toNat = (e.baseAddrLow.setWidth 64).toNat := by rw [base, hbase, toNat_zero_append]
    have hlengthNat : e.length.toNat = (e.lengthLow.setWidth 64).toNat := by
      rw [length, hlength, toNat_zero_append]
    rw [bytes, hbaseNat, hlengthNat]
    rfl

end MmapEntry

theorem mem_initBiosmap {mmap : List MmapEntry} {f : E820Entry} :
    f ∈ initBiosmap mmap ↔ ∃ e ∈ mmap, e.toE820 = f := List.mem_map

/-- The firmware reports the address as usable and as nothing else. -/
structure ReportedRam (mmap : List MmapEntry) (a : Nat) : Prop where
  usable : ∃ e ∈ mmap, a ∈ e.bytes ∧ e.type = e820Ram
  only : ∀ e ∈ mmap, a ∈ e.bytes → e.type ≠ 0 → e.type = e820Ram

/-- The sums of the entries of `biosmap` do not wrap. -/
theorem initBiosmap_noWrap {mmap : List MmapEntry} :
    ∀ f ∈ initBiosmap mmap, f.addr.toNat + f.size.toNat < 2 ^ 64 := by
  intro f hf
  obtain ⟨e, -, rfl⟩ := mem_initBiosmap.mp hf
  have hbase := e.baseAddrLow.isLt
  have hlength := e.lengthLow.isLt
  show (e.baseAddrLow.setWidth 64).toNat + (e.lengthLow.setWidth 64).toNat < 2 ^ 64
  rw [BitVec.toNat_setWidth, BitVec.toNat_setWidth, Nat.mod_eq_of_lt (by omega), Nat.mod_eq_of_lt (by omega)]
  omega

/-- An address whose type in `biosmap` is RAM is reported as RAM. -/
theorem reportedRam_of_isMaxType {mmap : List MmapEntry} {a : Nat}
    (hlow : ∀ e ∈ mmap, e.type ≠ 0 → e.LowHalves) (h : IsMaxType (initBiosmap mmap) a e820Ram) :
    ReportedRam mmap a := by
  obtain ⟨⟨f, hf, ha, htype⟩, hmax⟩ := h
  obtain ⟨e, he, rfl⟩ := mem_initBiosmap.mp hf
  have htype' : e.type = e820Ram := htype
  refine ⟨⟨e, he, ?_, htype'⟩, fun g hg hga hgtype => ?_⟩
  · rwa [← (hlow e he (by rw [htype']; decide)).bytes_eq]
  · rw [← (hlow g hg hgtype).bytes_eq] at hga
    have hle := BitVec.le_def.mp (hmax g.toE820 (mem_initBiosmap.mpr ⟨g, hg, rfl⟩) hga)
    have hone : e820Ram.toNat = 1 := rfl
    have hpos : g.type.toNat ≠ 0 := fun hzero => hgtype (BitVec.eq_of_toNat_eq hzero)
    have hgNat : g.toE820.type = g.type := rfl
    rw [hgNat, hone] at hle
    exact BitVec.eq_of_toNat_eq (by rw [hone]; omega)

/-- **RAM after `setup_memory_region`**: when the upper halves of the entries are zero (or there is a single entry,
which is ignored) and at no end of an entry of `biosmap` that is reached more than two entries are open, every RAM
address of `e820` is reported as RAM and as nothing else. -/
theorem setupMemoryRegion_ram {mmap : List MmapEntry}
    (hlow : 2 ≤ mmap.length → ∀ e ∈ mmap, e.type ≠ 0 → e.LowHalves) (htwo : TwoAtReachedEnds (initBiosmap mmap)) :
    ∃ e820, setupMemoryRegion mmap = some e820 ∧ ∀ a, Types e820 a e820Ram → ReportedRam mmap a := by
  rcases Nat.lt_or_ge (initBiosmap mmap).length 2 with hshort | hlen
  · refine ⟨[], ?_, fun a h => ?_⟩
    · rw [setupMemoryRegion, sanitizeE820Map, if_pos hshort, Option.map_some, copyE820Map, if_pos hshort]
    · obtain ⟨_, hmem, -⟩ := h
      cases hmem
  · have hlow := hlow (by rwa [initBiosmap, List.length_map] at hlen)
    obtain ⟨new, hnew, hdone⟩ := sanitizeE820Map_done hlen initBiosmap_noWrap htwo
    refine ⟨copyE820Map [] new, by rw [setupMemoryRegion, hnew]; rfl, fun a h => ?_⟩
    have hnewRam : RamWithin new {a | ReportedRam mmap a} := fun e he htype b hb => by
      have htypeAt := (hdone.sound e he).2 b hb
      rw [htype] at htypeAt
      exact reportedRam_of_isMaxType hlow ((typeAt_iff_isMaxType (by decide)).mp htypeAt)
    have hcopied : RamWithin (copyE820Map [] new) {a | ReportedRam mmap a} := by
      rw [copyE820Map]
      split
      · exact fun e he => by cases he
      · exact copyEntries_ram (fun e he => by cases he) hnewRam
    obtain ⟨e, he, ha, htype⟩ := h
    exact hcopied e he htype ha

/-- Eleven usable regions, each with a reserved part in its middle, that fill the new map, and behind them three regions
inside one another. -/
def crowdedMmap : List MmapEntry :=
  ((List.range 11).flatMap fun k => [⟨20, BitVec.ofNat 32 (0x10000 * k), 0, 0x3000, 0, 1⟩,
    ⟨20, BitVec.ofNat 32 (0x10000 * k + 0x1000), 0, 0x1000, 0, 2⟩]) ++
  [⟨20, 0x10000000, 0, 100, 0, 1⟩, ⟨20, 0x1000000A, 0, 80, 0, 1⟩, ⟨20, 0x10000014, 0, 60, 0, 1⟩]

theorem setupMemoryRegion_ram_crowded : ¬ TwoAtEnds (initBiosmap crowdedMmap) ∧
    ∃ e820, setupMemoryRegion crowdedMmap = some e820 ∧ Types e820 0x10000 e820Ram ∧
      ReportedRam crowdedMmap 0x10000 := by
  have hrun : ((setupMemoryRegion crowdedMmap).any fun e820 => e820.contains ⟨0x10000, 0x1000, 1⟩) = true := by
    decide +kernel
  obtain ⟨e820, he820, hram⟩ := @setupMemoryRegion_ram crowdedMmap (by decide +kernel) (by decide +kernel)
  rw [he820, Option.any_some, List.contains_iff_mem] at hrun
  have htypes : Types e820 0x10000 e820Ram := ⟨_, hrun, by decide, rfl⟩
  exact ⟨by decide +kernel, e820, he820, htypes, hram _ htypes⟩

/-- Usable memory from 4 GB on becomes RAM at address 0. -/
theorem setupMemoryRegion_above_four_gigabytes : ¬ ∀ mmap : List MmapEntry, mmap.length ≤ e820Max →
    ∃ e820, setupMemoryRegion mmap = some e820 ∧ ∀ a, Types e820 a e820Ram → ReportedRam mmap a := by
  intro h
  have hrun : setupMemoryRegion [⟨20, 0xF0000000, 0, 0x1000, 0, 2⟩, ⟨20, 0, 1, 0x200000, 0, 1⟩] =
      some [⟨0, 0xA0000, 1⟩, ⟨0x100000, 0x100000, 1⟩, ⟨0xF0000000, 0x1000, 2⟩] := by decide +kernel
  obtain ⟨e820, he820, hram⟩ :=
    h [⟨20, 0xF0000000, 0, 0x1000, 0, 2⟩, ⟨20, 0, 1, 0x200000, 0, 1⟩] (by decide)
  rw [hrun, Option.some.injEq] at he820
  have htypes : Types e820 0x100000 e820Ram := by
    rw [← he820]
    exact ⟨⟨0x100000, 0x100000, 1⟩, by simp, by simp [E820Entry.bytes], rfl⟩
  obtain ⟨e, he, ha, -⟩ := (hram _ htypes).usable
  simp only [List.mem_cons, List.not_mem_nil, or_false] at he
  rcases he with rfl | rfl
  · exact absurd ha.1 (by decide)
  · exact absurd ha.1 (by decide)

end XosKernel.E820
