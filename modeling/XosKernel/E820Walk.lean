import XosKernel.E820Region
import XosKernel.WordMemory

/-! The walk of `init_biosmap` over the boot loader's buffer, byte by byte. The pointer moves by the size of
`mmap_entry_t` and not by the size that a record states, the upper halves are dropped, and nothing bounds the
index into `biosmap.map`, so the walk is right on plain records only. -/

namespace XosKernel.E820

open Memory

/-! ### The walk -/

/-- The packed `mmap_entry_t` at an address. -/
def loadEntry (m : Mem 32) (p : Word) : MmapEntry where
  size := load32 m p
  baseAddrLow := load32 m (p + 4)
  baseAddrHigh := load32 m (p + 8)
  lengthLow := load32 m (p + 12)
  lengthHigh := load32 m (p + 16)
  type := load32 m (p + 20)

/-- `sizeof(mmap_entry_t)`. -/
abbrev mmapEntrySize : Word := 24

/-- The loop of `init_biosmap`: its variables, the addresses of the entries that it has read and the entries
that it has written, each with its index in `biosmap.map`. -/
structure BiosWalk where
  mapEntry : Word
  count : Nat
  reads : List Word
  writes : List (E820Entry × Nat)

/-- One pass of the loop of `init_biosmap`. -/
def biosPass (m : Mem 32) (mmapEndAddr : Word) (s : BiosWalk) : Loop.Pass BiosWalk BiosWalk :=
  if s.mapEntry < mmapEndAddr then
    .next
      { mapEntry := s.mapEntry + mmapEntrySize
        count := s.count + 1
        reads := s.reads ++ [s.mapEntry]
        writes := s.writes ++ [((loadEntry m s.mapEntry).toE820, s.count)] }
  else .done s

/-- The walk over the buffer of `mmap_length` bytes at `mmap_addr`, for at most `fuel` passes. -/
def walkMmap (m : Mem 32) (mmapAddr mmapLength : Word) (fuel : Nat) : Option BiosWalk :=
  Loop.run (biosPass m (mmapAddr + mmapLength)) fuel ⟨mmapAddr, 0, [], []⟩

/-! ### The records of a buffer -/

/-- The records fill a buffer of `bytes` bytes: each takes the size that it states and the size field. -/
def FillsBuffer (m : Mem 32) (p : Word) (bytes : Nat) : List MmapEntry → Prop
  | [] => bytes = 0
  | e :: records =>
      loadEntry m p = e ∧ 20 ≤ e.size.toNat ∧ e.size.toNat + 4 ≤ bytes ∧
        FillsBuffer m (p + e.size + 4) (bytes - (e.size.toNat + 4)) records

/-- The addresses of the records. -/
def recordStarts (p : Word) : List MmapEntry → List Word
  | [] => []
  | e :: records => p :: recordStarts (p + e.size + 4) records

/-- The entry of a record with its full base and length. -/
def MmapEntry.full (e : MmapEntry) : E820Entry := ⟨e.base, e.length, e.type⟩

/-- What the walk is for: it reads at the starts of records only, and writes the full entry of each of the first
`E820MAX` records, in order, and nothing else. -/
structure CopiesRecords (p : Word) (records : List MmapEntry) (w : BiosWalk) : Prop where
  reads : ∀ q ∈ w.reads, q ∈ recordStarts p records
  writes : w.writes = ((records.take e820Max).map MmapEntry.full).zipIdx

section

variable {m : Mem 32} {p q mmapEnd : Word} {bytes : Nat} {records : List MmapEntry}

/-- The start of the next record. -/
theorem toNat_nextStart {e : MmapEntry} (hsize : e.size.toNat + 4 ≤ bytes) (hfits : p.toNat + bytes < 2 ^ 32) :
    (p + e.size + 4).toNat = p.toNat + (e.size.toNat + 4) := by
  have hfour : (4 : Word).toNat = 4 := rfl
  rw [BitVec.toNat_add, BitVec.toNat_add, hfour, Nat.mod_eq_of_lt (a := p.toNat + e.size.toNat) (by omega),
    Nat.mod_eq_of_lt (by omega)]
  omega

theorem toNat_nextEntry (hfits : p.toNat + 24 < 2 ^ 32) : (p + mmapEntrySize).toNat = p.toNat + 24 := by
  have hsize : mmapEntrySize.toNat = 24 := rfl
  rw [BitVec.toNat_add, hsize, Nat.mod_eq_of_lt hfits]

theorem le_of_mem_recordStarts (h : FillsBuffer m p bytes records) (hfits : p.toNat + bytes < 2 ^ 32)
    (hq : q ∈ recordStarts p records) : p.toNat ≤ q.toNat := by
  induction records generalizing p bytes with
  | nil => cases hq
  | cons e records ih =>
      obtain ⟨-, -, hsize, hrest⟩ := h
      rcases List.mem_cons.mp hq with rfl | hq
      · exact Nat.le_refl _
      · have hnext := toNat_nextStart hsize hfits
        have hle := ih hrest (by omega) hq
        omega

/-! ### Plain records -/

/-- Records of the size of `mmap_entry_t`. -/
def Plain (records : List MmapEntry) : Prop := ∀ e ∈ records, e.size = 20

/-- The pass at a record. -/
theorem biosPass_next {s : BiosWalk} {e : MmapEntry} (hload : loadEntry m s.mapEntry = e)
    (hlt : s.mapEntry.toNat < mmapEnd.toNat) :
    biosPass m mmapEnd s =
      .next ⟨s.mapEntry + mmapEntrySize, s.count + 1, s.reads ++ [s.mapEntry], s.writes ++ [(e.toE820, s.count)]⟩ := by
  rw [biosPass, if_pos (BitVec.lt_def.mpr hlt), hload]

/-- Over plain records the walk reads every record and writes its lower halves. -/
theorem run_biosPass_plain (hplain : Plain records) (s : BiosWalk) (h : FillsBuffer m s.mapEntry bytes records)
    (hend : s.mapEntry.toNat + bytes = mmapEnd.toNat) :
    ∃ w, Loop.run (biosPass m mmapEnd) (records.length + 1) s = some w ∧
      w.reads = s.reads ++ recordStarts s.mapEntry records ∧
      w.writes = s.writes ++ (records.map MmapEntry.toE820).zipIdx s.count := by
  have hfits := mmapEnd.isLt
  induction records generalizing s bytes with
  | nil =>
      have hdone : biosPass m mmapEnd s = .done s := if_neg (by
        rw [BitVec.lt_def]
        have hzero : bytes = 0 := h
        omega)
      exact ⟨s, Loop.run_succ_done hdone _, by simp [recordStarts], by simp⟩
  | cons e records ih =>
      obtain ⟨hload, hmin, hsize, hrest⟩ := h
      have hsize20 := hplain e List.mem_cons_self
      have hnext : s.mapEntry + mmapEntrySize = s.mapEntry + e.size + 4 := by
        rw [hsize20, BitVec.add_assoc]
        rfl
      have hnat := toNat_nextStart hsize (p := s.mapEntry) (by omega)
      obtain ⟨w, hrun, hreads, hwrites⟩ := ih (fun f hf => hplain f (List.mem_cons_of_mem _ hf))
        ⟨s.mapEntry + mmapEntrySize, s.count + 1, s.reads ++ [s.mapEntry], s.writes ++ [(e.toE820, s.count)]⟩
        (by rw [hnext]; exact hrest) (by rw [hnext, hnat]; omega)
      refine ⟨w, ?_, ?_, ?_⟩
      · rw [List.length_cons, Loop.run_succ_next (biosPass_next hload (by omega))]
        exact hrun
      · rw [hreads, recordStarts, hnext, List.append_assoc, List.singleton_append]
      · rw [hwrites, List.map_cons, List.zipIdx_cons, List.append_assoc, List.singleton_append]

/-! ### Other records -/

theorem run_biosPass_reads {s w : BiosWalk} {fuel : Nat} (h : Loop.run (biosPass m mmapEnd) fuel s = some w) :
    s.reads ⊆ w.reads := by
  refine @Loop.run_sound _ _ (biosPass m mmapEnd) (fun t => s.reads ⊆ t.reads) (fun t => s.reads ⊆ t.reads)
    (fun t t' ht hpass => ?_) (fun t r ht hpass => ?_) fuel s w (List.Subset.refl _) h
  · rw [biosPass] at hpass
    split at hpass
    · obtain rfl := Loop.Pass.next.inj hpass
      exact fun q hq => List.mem_append_left _ (ht hq)
    · cases hpass
  · rw [biosPass] at hpass
    split at hpass
    · cases hpass
    · obtain rfl := Loop.Pass.done.inj hpass
      exact ht

/-- A walk that goes on reads the entry that it is at. -/
theorem run_biosPass_mem {s w : BiosWalk} {fuel : Nat} (h : Loop.run (biosPass m mmapEnd) fuel s = some w)
    (hlt : s.mapEntry.toNat < mmapEnd.toNat) :
    s.mapEntry ∈ w.reads ∧ ∃ t fuel', Loop.run (biosPass m mmapEnd) fuel' t = some w ∧
      t.mapEntry = s.mapEntry + mmapEntrySize := by
  cases fuel with
  | zero => cases h
  | succ fuel =>
      rw [Loop.run_succ_next (biosPass_next rfl hlt)] at h
      exact ⟨run_biosPass_reads h (List.mem_append_right _ List.mem_cons_self), _, fuel, h, rfl⟩

/-- A walk that reads at the starts of records only goes over plain records: after a longer record it is inside
that record. -/
theorem plain_of_reads {s w : BiosWalk} {fuel : Nat} (h : FillsBuffer m s.mapEntry bytes records)
    (hend : s.mapEntry.toNat + bytes = mmapEnd.toNat) (hrun : Loop.run (biosPass m mmapEnd) fuel s = some w)
    (hreads : ∀ q ∈ w.reads, s.mapEntry.toNat ≤ q.toNat → q ∈ recordStarts s.mapEntry records) : Plain records := by
  have hfits := mmapEnd.isLt
  induction records generalizing s bytes fuel with
  | nil => exact fun e he => absurd he List.not_mem_nil
  | cons e records ih =>
      obtain ⟨-, hmin, hsize, hrest⟩ := h
      have hnext := toNat_nextStart hsize (p := s.mapEntry) (by omega)
      have hentry := toNat_nextEntry (p := s.mapEntry) (by omega)
      obtain ⟨-, t, fuel', hrun', ht⟩ := run_biosPass_mem hrun (by omega)
      rcases Nat.eq_or_lt_of_le hmin with heq | hlong
      · have hsize20 : e.size = 20 := BitVec.eq_of_toNat_eq heq.symm
        have hstart : t.mapEntry = s.mapEntry + e.size + 4 := by
          rw [ht, hsize20, BitVec.add_assoc]
          rfl
        refine List.forall_mem_cons.mpr ⟨hsize20, ih (s := t) (by rw [hstart]; exact hrest)
          (by rw [hstart]; omega) hrun' fun q hq hle => ?_⟩
        rw [hstart] at hle ⊢
        rcases List.mem_cons.mp (hreads q hq (by omega)) with rfl | hmem
        · omega
        · exact hmem
      · -- the next entry that the walk reads lies inside this record
        have hmem := (run_biosPass_mem hrun' (by rw [ht]; omega)).1
        rw [ht] at hmem
        rcases List.mem_cons.mp (hreads _ hmem (by omega)) with heq | hlater
        · have hnat := congrArg BitVec.toNat heq
          omega
        · have hle := le_of_mem_recordStarts hrest (by omega) hlater
          omega

/-- What a walk over plain records leaves. -/
theorem walkMmap_plain {mmapAddr mmapLength : Word} {w : BiosWalk} {fuel : Nat}
    (h : FillsBuffer m mmapAddr mmapLength.toNat records) (hfits : mmapAddr.toNat + mmapLength.toNat < 2 ^ 32)
    (hplain : Plain records) (hrun : walkMmap m mmapAddr mmapLength fuel = some w) :
    w.reads = recordStarts mmapAddr records ∧ w.writes = (initBiosmap records).zipIdx := by
  have hend : (mmapAddr + mmapLength).toNat = mmapAddr.toNat + mmapLength.toNat := by
    rw [BitVec.toNat_add, Nat.mod_eq_of_lt hfits]
  obtain ⟨w', hrun', hreads, hwrites⟩ := run_biosPass_plain hplain
    ⟨mmapAddr, 0, [], []⟩ h hend.symm
  obtain rfl := Loop.run_unique hrun hrun'
  exact ⟨hreads, hwrites⟩

end

/-! ### The condition -/

/-- The upper halves are zero. -/
def MmapEntry.Low (e : MmapEntry) : Prop := e.baseAddrHigh = 0 ∧ e.lengthHigh = 0

theorem append_eq_setWidth_iff {hi lo : Word} : (hi ++ lo : BitVec 64) = lo.setWidth 64 ↔ hi = 0 := by
  constructor
  · intro h
    have hnat := congrArg BitVec.toNat h
    have hlo := lo.isLt
    rw [BitVec.toNat_append, ← Nat.shiftLeft_add_eq_or_of_lt hlo, Nat.shiftLeft_eq, BitVec.toNat_setWidth,
      Nat.mod_eq_of_lt (by omega)] at hnat
    refine BitVec.eq_of_toNat_eq ?_
    show hi.toNat = 0
    omega
  · rintro rfl
    exact BitVec.eq_of_toNat_eq (MmapEntry.toNat_zero_append lo)

theorem toE820_eq_full_iff {e : MmapEntry} : e.toE820 = e.full ↔ e.Low := by
  rw [MmapEntry.toE820, MmapEntry.full, E820Entry.mk.injEq, MmapEntry.base, MmapEntry.length, MmapEntry.Low,
    eq_comm, append_eq_setWidth_iff, eq_comm (a := e.lengthLow.setWidth 64), append_eq_setWidth_iff]
  simp

/-- **The walk over the boot loader's buffer**: it reads at the starts of records only and writes the full entries
of the first `E820MAX` records and nothing else, exactly when every record has the size of `mmap_entry_t`, all
upper halves are zero and there are at most `E820MAX` records. -/
theorem walkMmap_copiesRecords_iff {m : Mem 32} {mmapAddr mmapLength : Word} {records : List MmapEntry}
    (hfits : mmapAddr.toNat + mmapLength.toNat < 2 ^ 32)
    (hrecords : FillsBuffer m mmapAddr mmapLength.toNat records) :
    (∃ fuel w, walkMmap m mmapAddr mmapLength fuel = some w ∧ CopiesRecords mmapAddr records w) ↔
      (∀ e ∈ records, e.size = 20) ∧ (∀ e ∈ records, e.baseAddrHigh = 0 ∧ e.lengthHigh = 0) ∧
        records.length ≤ e820Max := by
  have hend : (mmapAddr + mmapLength).toNat = mmapAddr.toNat + mmapLength.toNat := by
    rw [BitVec.toNat_add, Nat.mod_eq_of_lt hfits]
  constructor
  · rintro ⟨fuel, w, hrun, hcopies⟩
    have hplain : Plain records := plain_of_reads (s := ⟨mmapAddr, 0, [], []⟩) hrecords hend.symm hrun
      fun q hq _ => hcopies.reads q hq
    have hwrites := (walkMmap_plain hrecords hfits hplain hrun).2.symm.trans hcopies.writes
    have hentries := congrArg (List.map Prod.fst) hwrites
    rw [List.zipIdx_map_fst, List.zipIdx_map_fst] at hentries
    have hlen := congrArg List.length hentries
    rw [initBiosmap, List.length_map, List.length_map, List.length_take] at hlen
    have hmax : records.length ≤ e820Max := by omega
    rw [List.take_of_length_le hmax] at hentries
    refine ⟨hplain, fun e he => ?_, hmax⟩
    exact toE820_eq_full_iff.mp (List.map_inj_left.mp hentries e he)
  · rintro ⟨hplain, hlow, hmax⟩
    obtain ⟨w, hrun, -, -⟩ := run_biosPass_plain hplain
      ⟨mmapAddr, 0, [], []⟩ hrecords hend.symm
    obtain ⟨hreads, hwrites⟩ := walkMmap_plain hrecords hfits hplain hrun
    refine ⟨_, w, hrun, fun q hq => by rwa [← hreads], ?_⟩
    rw [hwrites, List.take_of_length_le hmax]
    congr 1
    exact List.map_congr_left fun e he => toE820_eq_full_iff.mpr (hlow e he)

/-- A buffer at 36 KB with two records: RAM up to 636 KB and a reserved page behind it. -/
def twoRecords : Mem 32 := fun a =>
  if a = 0x9000 ∨ a = 0x9018 then 20
  else if a = 0x900D ∨ a = 0x901D then 0xF0
  else if a = 0x900E ∨ a = 0x901E then 0x09
  else if a = 0x9014 then 1
  else if a = 0x9025 then 0x10
  else if a = 0x902C then 2
  else 0

theorem twoRecords_fillsBuffer :
    FillsBuffer twoRecords 0x9000 48 [⟨20, 0, 0, 0x9F000, 0, 1⟩, ⟨20, 0x9F000, 0, 0x1000, 0, 2⟩] :=
  ⟨by decide, by decide, by decide, by decide, by decide, by decide, rfl⟩

theorem walkMmap_copiesRecords_two : ∃ fuel w, walkMmap twoRecords 0x9000 48 fuel = some w ∧
    (∀ q ∈ w.reads, q ∈ [0x9000, 0x9018]) ∧
    w.writes = [(⟨0, 0x9F000, 1⟩, 0), (⟨0x9F000, 0x1000, 2⟩, 1)] := by
  obtain ⟨fuel, w, hrun, hcopies⟩ := (@walkMmap_copiesRecords_iff twoRecords 0x9000 48
    [⟨20, 0, 0, 0x9F000, 0, 1⟩, ⟨20, 0x9F000, 0, 0x1000, 0, 2⟩] (by decide) twoRecords_fillsBuffer).mpr
    ⟨by simp, by simp, by decide⟩
  exact ⟨fuel, w, hrun, hcopies.reads, hcopies.writes⟩

/-- A buffer at 36 KB with one record: 4 KB of RAM at 4 GB. -/
def highRecord : Mem 32 := fun a =>
  if a = 0x9000 then 20 else if a = 0x9008 then 1 else if a = 0x900D then 0x10 else if a = 0x9014 then 1 else 0

theorem highRecord_fillsBuffer : FillsBuffer highRecord 0x9000 24 [⟨20, 0, 1, 0x1000, 0, 1⟩] :=
  ⟨by decide, by decide, by decide, rfl⟩

/-- A record from 4 GB on is written as one from 0 on. -/
theorem walkMmap_above_four_gigabytes : ¬ ∀ (m : Mem 32) (mmapAddr mmapLength : Word) (records : List MmapEntry),
    mmapAddr.toNat + mmapLength.toNat < 2 ^ 32 → FillsBuffer m mmapAddr mmapLength.toNat records →
    ∃ fuel w, walkMmap m mmapAddr mmapLength fuel = some w ∧ CopiesRecords mmapAddr records w := by
  intro h
  obtain ⟨fuel, w, hrun, hcopies⟩ := h highRecord 0x9000 24 [⟨20, 0, 1, 0x1000, 0, 1⟩] (by decide)
    highRecord_fillsBuffer
  have hwrites := (walkMmap_plain highRecord_fillsBuffer (by decide) (by simp [Plain]) hrun).2
  rw [hcopies.writes] at hwrites
  exact absurd hwrites (by decide)

end XosKernel.E820
