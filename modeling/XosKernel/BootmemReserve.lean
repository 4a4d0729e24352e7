import XosKernel.BootmemCursor

/-! Reservations among allocations. `reserve_bootmem_core` only sets bits, while an allocation that merges takes
the rest of the cursor's page without a look at the bitmap. A reservation therefore holds when its range does not
meet that rest: then no byte of it is available, and nothing but a free makes bytes available again. -/

namespace XosKernel.Bootmem

open Memory BootmemData Carving

/-- The addresses of the rest of the page that the last block ended in. -/
def Boot.tailAddr (s : Boot) : Set Word :=
  {a | ∃ x, s.TailPage (x / 4096) ∧ s.bdata.lastOffset.toNat ≤ x % 4096 ∧ a = s.bdata.va x}

/-- The addresses of a reserved range. -/
def reservedRange (addr size : Word) : Set Word := byteSet (physToVirt addr) size

/-- The calls among which reservations hold: a free of no page of the bitmap, a reservation whose range neither
wraps nor meets the rest of the cursor's page, and an allocation with valid arguments. -/
def Boot.KeepsReserved (s : Boot) : Call → Prop
  | .free addr size => ∀ x, x / 4096 < s.bdata.pages → x / 4096 ∈ freedPages s.bdata addr size →
      ¬ s.BitmapByte (s.bdata.va x)
  | .reserve addr size => addr.toNat + size.toNat ≤ 2 ^ 32 ∧ Disjoint (reservedRange addr size) s.tailAddr
  | .alloc size align _ => size.toNat + 4095 < 2 ^ 32 ∧ align.toNat.isPowerOfTwo

/-- A call of `free_bootmem`. -/
def Call.IsFree : Call → Prop
  | .free _ _ => True
  | _ => False

/-- Every reservation of the run is effective: as long as nothing is freed, no block that is returned later
contains a byte of its range. -/
def ReservationsHold (es : List Event) : Prop :=
  ∀ late addr size r early, es = late ++ (Call.reserve addr size, r) :: early → (∀ e ∈ late, ¬ e.1.IsFree) →
    ∀ b ∈ blocks late, Disjoint b (reservedRange addr size)

/-! ### One call -/

section

variable {s t : Boot} {addr size align goal : Word} {r : Option Word}

/-- Setting bits keeps the bitmap and the cursor, and so does clearing the bits of pages without a part of the
bitmap. -/
theorem BitsWritten.safe {lo hi : Nat} {value : Bool} (h : BitsWritten s t lo hi value) (hs : s.Safe)
    (hkeeps : value = false → ∀ x, x / 4096 < s.bdata.pages → lo ≤ x / 4096 ∧ x / 4096 < hi →
      ¬ s.BitmapByte (s.bdata.va x)) : t.Safe := by
  have hbdata := h.bdata
  have htailPage : ∀ p, t.TailPage p ↔ s.TailPage p := fun p => by rw [Boot.TailPage, Boot.TailPage, hbdata]
  refine ⟨hbdata ▸ hs.node, hbdata ▸ hs.offset_lt, fun p hp => ?_, fun x hx => ?_⟩
  · rw [hbdata]
    exact hs.tail_lt p ((htailPage p).mp hp)
  · have hmap : t.BitmapByte (t.bdata.va x) ↔ s.BitmapByte (s.bdata.va x) := by
      rw [Boot.BitmapByte, Boot.BitmapByte, hbdata]
    rw [hmap]
    rcases hx with hfree | htail
    · have hlt := hfree.1
      rw [hbdata] at hlt
      rcases h.freePage hs.node hfree with hold | ⟨hvalue, hin⟩
      · exact hs.bitmap x (.inl hold)
      · exact hkeeps hvalue x hlt hin
    · exact hs.bitmap x (.inr ((htailPage _).mp htail))

theorem Boot.Safe.free (hs : s.Safe) (hkeeps : s.KeepsReserved (.free addr size))
    (hret : freeBootmemCore s addr size = .ret () t) : t.Safe :=
  (freeBootmemCore_written hret).safe hs fun _ x hx hin => hkeeps x hx (passes_range.mp hin)

theorem Boot.Safe.reserve (hs : s.Safe) (hret : reserveBootmemCore s addr size = .ret () t) : t.Safe :=
  (reserveBootmemCore_written hret).safe hs fun hvalue => by cases hvalue

/-- A reservation makes no byte available. -/
theorem reserve_availAddr (hs : s.Safe) (hret : reserveBootmemCore s addr size = .ret () t) :
    t.availAddr ⊆ s.availAddr := by
  have hwritten := reserveBootmemCore_written hret
  rintro a ⟨x, hx, rfl⟩
  refine ⟨x, ?_, by rw [hwritten.bdata]⟩
  rcases hx with hfree | ⟨htail, hoff⟩
  · rcases hwritten.freePage hs.node hfree with hold | ⟨hvalue, -⟩
    · exact .inl hold
    · cases hvalue
  · rw [Boot.TailPage, hwritten.bdata] at htail
    rw [hwritten.bdata] at hoff
    exact .inr ⟨htail, hoff⟩

/-- The checks of a reservation that returns. -/
theorem reserveBootmemCore_checks (hret : reserveBootmemCore s addr size = .ret () t) :
    (reserveSidx s.bdata addr).toNat < (reserveEidx s.bdata addr size).toNat := by
  rw [reserveBootmemCore] at hret
  split at hret
  · cases hret
  split at hret
  · cases hret
  rename_i hlt
  exact BitVec.lt_def.mp (BitVec.not_le.mp hlt)

theorem toNat_reserveSidx (b : BootmemData) (addr : Word) :
    (reserveSidx b addr).toNat = (2 ^ 32 - b.nodeBootStart.toNat + addr.toNat) % 2 ^ 32 / 4096 := by
  rw [reserveSidx, toNat_div_pageSize, BitVec.toNat_sub]

theorem toNat_reserveEidx (b : BootmemData) (addr size : Word) :
    (reserveEidx b addr size).toNat =
      ((2 ^ 32 - b.nodeBootStart.toNat + (addr.toNat + size.toNat) % 2 ^ 32) % 2 ^ 32 + 4095) % 2 ^ 32 / 4096 := by
  have hround : addr + size - b.nodeBootStart + pageSize - 1 = addr + size - b.nodeBootStart + 4095 := by
    rw [BitVec.sub_eq_add_neg _ (1 : Word), BitVec.add_assoc]
    rfl
  have hlast : (4095 : Word).toNat = 4095 := rfl
  rw [reserveEidx, toNat_div_pageSize, hround, BitVec.toNat_add, BitVec.toNat_sub, BitVec.toNat_add, hlast]

/-- The round-up to pages does not wrap when it leaves a page. -/
theorem roundUp_of_lt {e c : Nat} (he : e ≤ 2 ^ 32) (h : c < (e % 2 ^ 32 + 4095) % 2 ^ 32 / 4096) :
    (e % 2 ^ 32 + 4095) % 2 ^ 32 = e + 4095 := by
  rcases Nat.eq_or_lt_of_le he with rfl | hlt
  · rw [Nat.mod_self] at h
    exact absurd h (Nat.not_lt_zero c)
  · rw [Nat.mod_eq_of_lt hlt] at h ⊢
    rcases Nat.lt_or_ge (e + 4095) (2 ^ 32) with hfit | hwrap
    · exact Nat.mod_eq_of_lt hfit
    · have hsmall : (e + 4095) % 2 ^ 32 < 4096 := by
        rw [Nat.mod_eq_sub_mod hwrap, Nat.mod_eq_of_lt] <;> omega
      rw [Nat.div_eq_of_lt hsmall] at h
      exact absurd h (Nat.not_lt_zero c)

/-- A byte of the range lies in a page of the loop. -/
theorem reserved_page {start addr size x : Nat} (haligned : start % 4096 = 0) (hstart : start < 2 ^ 32)
    (hsize : size < 2 ^ 32) (hfit : addr + size ≤ 2 ^ 32) (hlo : addr ≤ start + x)
    (hhi : start + x < addr + size)
    (hcheck : (2 ^ 32 - start + addr) % 2 ^ 32 / 4096 <
      ((2 ^ 32 - start + (addr + size) % 2 ^ 32) % 2 ^ 32 + 4095) % 2 ^ 32 / 4096) :
    (2 ^ 32 - start + addr) % 2 ^ 32 / 4096 ≤ x / 4096 ∧
      x / 4096 < ((2 ^ 32 - start + (addr + size) % 2 ^ 32) % 2 ^ 32 + 4095) % 2 ^ 32 / 4096 := by
  -- the end of the range, counted from the start of the node
  obtain ⟨e, he⟩ : ∃ e, addr + size = start + e := ⟨addr + size - start, by omega⟩
  have hend : (2 ^ 32 - start + (addr + size) % 2 ^ 32) % 2 ^ 32 = e % 2 ^ 32 := by
    rw [Nat.add_mod_mod, he, ← Nat.add_assoc, Nat.sub_add_cancel (Nat.le_of_lt hstart), Nat.add_mod_left]
  rw [hend] at hcheck ⊢
  have hround := roundUp_of_lt (by omega) hcheck
  rw [hround] at hcheck ⊢
  rcases Nat.lt_or_ge addr start with hlow | hhigh
  · -- then the range begins behind its end
    rw [Nat.mod_eq_of_lt (a := 2 ^ 32 - start + addr) (by omega)] at hcheck
    omega
  · obtain ⟨a, rfl⟩ := Nat.exists_eq_add_of_le hhigh
    have hbegin : (2 ^ 32 - start + (start + a)) % 2 ^ 32 = a := by
      rw [← Nat.add_assoc, Nat.sub_add_cancel (Nat.le_of_lt hstart), Nat.add_mod_left, Nat.mod_eq_of_lt (by omega)]
    rw [hbegin] at hcheck ⊢
    omega

/-- A byte of the node lies in the range when its physical address does. -/
theorem va_mem_reservedRange {b : BootmemData} {x : Nat} (hx : b.nodeBootStart.toNat + x < 2 ^ 32)
    (hfit : addr.toNat + size.toNat ≤ 2 ^ 32) (h : b.va x ∈ reservedRange addr size) :
    addr.toNat ≤ b.nodeBootStart.toNat + x ∧ b.nodeBootStart.toNat + x < addr.toNat + size.toNat := by
  have hoff : b.va x - physToVirt addr = b.nodeBootStart + BitVec.ofNat 32 x - addr := by
    rw [va, physToVirt, physToVirt, BitVec.add_comm addr, ← BitVec.sub_sub, BitVec.add_sub_cancel]
  have h : (b.va x - physToVirt addr).toNat < size.toNat := h
  have hphys : (b.nodeBootStart + BitVec.ofNat 32 x).toNat = b.nodeBootStart.toNat + x := by
    rw [BitVec.toNat_add, BitVec.toNat_ofNat, Nat.mod_eq_of_lt (a := x) (by omega), Nat.mod_eq_of_lt hx]
  rw [hoff, BitVec.toNat_sub, hphys] at h
  have haddr := addr.isLt
  omega

/-- After a reservation no byte of its range is available. -/
theorem reserve_disjoint (hs : s.Safe) (hkeeps : s.KeepsReserved (.reserve addr size))
    (hret : reserveBootmemCore s addr size = .ret () t) : Disjoint (reservedRange addr size) t.availAddr := by
  obtain ⟨hfit, htail⟩ := hkeeps
  have hwritten := reserveBootmemCore_written hret
  have hpages := hs.node.pages_le
  refine Set.disjoint_left.mpr ?_
  rintro a hmem ⟨x, hx, rfl⟩
  rcases hx with hfree | ⟨hold, hoff⟩
  · have hlt := hfree.1
    rw [hwritten.bdata] at hlt hmem
    obtain ⟨hlo, hhi⟩ := va_mem_reservedRange (by omega) hfit hmem
    have hcheck := reserveBootmemCore_checks hret
    have hset := hfree.2
    rw [hwritten.reserved (by omega), if_pos] at hset
    · cases hset
    · rw [passes_range]
      rw [toNat_reserveSidx, toNat_reserveEidx] at hcheck ⊢
      exact reserved_page hs.node.aligned (BitVec.isLt _) size.isLt hfit hlo hhi hcheck
  · rw [Boot.TailPage, hwritten.bdata] at hold
    rw [hwritten.bdata] at hoff hmem
    exact Set.disjoint_left.mp htail hmem ⟨x, hold, hoff, rfl⟩

/-- An allocation draws its block from the available bytes and makes none available. -/
theorem alloc_draws (hs : s.Safe) (hkeeps : s.KeepsReserved (.alloc size align goal))
    (hret : allocBootmemCore s size align goal = .ret r t) :
    t.Safe ∧ t.availAddr ⊆ s.availAddr ∧ ∀ a, r = some a → byteSet a size ⊆ s.availAddr := by
  obtain ⟨hsize, halign⟩ := allocBootmemCore_checks hret
  have hput := allocBootmemCore_put goal hs hsize hkeeps.1 halign
  have hne := ne_zero_of_isPowerOfTwo hkeeps.2
  rw [hret] at hput
  cases hput with
  | null => exact ⟨hs, Set.Subset.rfl, fun a h => by cases h⟩
  | block x _ start areasize put behind aligned =>
      have hsafe := put.taken.safe hs put.area put.begins hsize
      obtain ⟨hblock, hsub⟩ := put.taken.draws hs put.area put.begins hsize (behind hne)
      have hpages := hsafe.node.pages_le
      have hinside := put.inside
      refine ⟨hsafe, ?_, fun a ha => ?_⟩
      · rintro c ⟨y, hy, rfl⟩
        exact ⟨y, hsub hy, put.taken.node.va_eq y⟩
      · obtain rfl := Option.some.inj ha
        exact byteSet_subset_availAddr (by omega) hblock

end

/-! ### Runs -/

/-- What holds after a run whose calls keep the reservations: no byte of a range that was reserved since the last
free is available. -/
structure ReserveInv (es : List Event) (s : Boot) : Prop where
  safe : s.Safe
  hold : ReservationsHold es
  kept : ∀ late addr size r early, es = late ++ (Call.reserve addr size, r) :: early →
    (∀ e ∈ late, ¬ e.1.IsFree) → Disjoint (reservedRange addr size) s.availAddr

section

variable {s t : Boot} {es : List Event} {addr size align goal : Word} {r : Option Word}

theorem ReserveInv.start (hs : s.Safe) : ReserveInv [] s := by
  have hnone : ∀ {late : List Event} {e : Event} {early : List Event}, [] ≠ late ++ e :: early := by simp
  exact ⟨hs, fun _ _ _ _ _ h => absurd h hnone, fun _ _ _ _ _ h => absurd h hnone⟩

/-- A call that is no reservation stands after all the reservations of the run. -/
theorem exists_late_of_cons {e : Event} {late early : List Event} {c : Event} (h : e :: es = late ++ c :: early)
    (hne : c ≠ e) : ∃ late', late = e :: late' ∧ es = late' ++ c :: early := by
  cases late with
  | nil =>
      rw [List.nil_append, List.cons.injEq] at h
      exact absurd h.1.symm hne
  | cons d late' =>
      rw [List.cons_append, List.cons.injEq] at h
      exact ⟨late', by rw [h.1], h.2⟩

theorem ReserveInv.free (h : ReserveInv es s) (hkeeps : s.KeepsReserved (.free addr size))
    (hret : freeBootmemCore s addr size = .ret () t) : ReserveInv ((.free addr size, r) :: es) t := by
  -- after the free no reservation is without a free since
  have hnone : ∀ {late a z q early}, (.free addr size, r) :: es = late ++ (Call.reserve a z, q) :: early →
      ¬ ∀ e ∈ late, ¬ e.1.IsFree := by
    intro late a z q early heq hlate
    obtain ⟨late', rfl, -⟩ := exists_late_of_cons heq (by simp)
    exact hlate _ List.mem_cons_self trivial
  exact ⟨h.safe.free hkeeps hret, fun _ _ _ _ _ heq hlate => absurd hlate (hnone heq),
    fun _ _ _ _ _ heq hlate => absurd hlate (hnone heq)⟩

theorem ReserveInv.reserve (h : ReserveInv es s) (hkeeps : s.KeepsReserved (.reserve addr size))
    (hret : reserveBootmemCore s addr size = .ret () t) : ReserveInv ((.reserve addr size, r) :: es) t := by
  refine ⟨h.safe.reserve hret, fun late a z q early heq hlate => ?_, fun late a z q early heq hlate => ?_⟩
  · cases late with
    | nil => exact fun b hb => absurd hb List.not_mem_nil
    | cons e late =>
        rw [List.cons_append, List.cons.injEq] at heq
        obtain ⟨rfl, heq⟩ := heq
        exact h.hold late a z q early heq fun e he => hlate e (List.mem_cons_of_mem _ he)
  · cases late with
    | nil =>
        rw [List.nil_append, List.cons.injEq, Prod.mk.injEq, Call.reserve.injEq] at heq
        obtain ⟨⟨⟨rfl, rfl⟩, -⟩, -⟩ := heq
        exact reserve_disjoint h.safe hkeeps hret
    | cons e late =>
        rw [List.cons_append, List.cons.injEq] at heq
        have hkept := h.kept late a z q early heq.2 fun e he => hlate e (List.mem_cons_of_mem _ he)
        exact hkept.mono_right (reserve_availAddr h.safe hret)

theorem ReserveInv.alloc (h : ReserveInv es s) (hkeeps : s.KeepsReserved (.alloc size align goal))
    (hret : allocBootmemCore s size align goal = .ret r t) : ReserveInv ((.alloc size align goal, r) :: es) t := by
  obtain ⟨hsafe, hsub, hblock⟩ := alloc_draws h.safe hkeeps hret
  refine ⟨hsafe, fun late a z q early heq hlate => ?_, fun late a z q early heq hlate => ?_⟩
  · obtain ⟨late', rfl, hes⟩ := exists_late_of_cons heq (by simp)
    have hlate' : ∀ e ∈ late', ¬ e.1.IsFree := fun e he => hlate e (List.mem_cons_of_mem _ he)
    have hkept := h.kept late' a z q early hes hlate'
    have hhold := h.hold late' a z q early hes hlate'
    cases r with
    | none => exact hhold
    | some p =>
        intro b hb
        rcases List.mem_cons.mp hb with rfl | hb
        · exact (hkept.mono_right (hblock p rfl)).symm
        · exact hhold b hb
  · obtain ⟨late', rfl, hes⟩ := exists_late_of_cons heq (by simp)
    have hkept := h.kept late' a z q early hes fun e he => hlate e (List.mem_cons_of_mem _ he)
    exact hkept.mono_right hsub

/-- The step lemma: a call that keeps the reservations keeps the invariant. -/
theorem ReserveInv.step (h : ReserveInv es s) {e : Event} (hstep : s.Step Boot.KeepsReserved e t) :
    ReserveInv (e :: es) t := by
  obtain ⟨c, r⟩ := e
  obtain ⟨hkeeps, hret⟩ := hstep
  cases c with
  | free addr size => exact h.free hkeeps (call_free hret)
  | reserve addr size => exact h.reserve hkeeps (call_reserve hret)
  | alloc size align goal => exact h.alloc hkeeps hret

end

section

variable {s₀ s : Boot} {mapstart start endPfn : Word} {es : List Event}

/-- **Reservations in mixed runs**: from `init_bootmem_core` on, in every run whose calls keep the reservations, no
block contains a byte of a range that was reserved before it, unless something was freed in between. -/
theorem reserve_run_ok (hstart : start.toNat < 2 ^ 20) (hle : start.toNat ≤ endPfn.toNat)
    (hend : endPfn.toNat ≤ 2 ^ 20) (hcursor : s₀.bdata.lastOffset = 0)
    (hrun : Run.Reaches (Boot.Step Boot.KeepsReserved) (initBootmemCore s₀ mapstart start endPfn).2 es s) :
    ReservationsHold es :=
  (hrun.invariant ReserveInv (.start (init_cursorInv hstart hle hend hcursor).inv.safe)
    fun _ _ _ _ hprev hstep => hprev.step hstep).hold

end

theorem Boot.tailAddr_eq_empty {s : Boot} (h : s.bdata.lastOffset = 0) : s.tailAddr = ∅ :=
  Set.eq_empty_iff_forall_notMem.mpr fun _ ⟨_, htail, _⟩ => htail.1 h

theorem reserve_run_ok_alloc : ∃ es s, es = [(.alloc 100 16 0, some 0xC0003000), (.reserve 0x2000 0x1000, none),
    (.free 0x2000 0x6000, none)] ∧ Run.Reaches (Boot.Step Boot.KeepsReserved)
      (initBootmemCore bootStart 1 0 8).2 es s ∧ ReservationsHold es := by
  have hrun : ((initBootmemCore bootStart 1 0 8).2.replay [.alloc 100 16 0, .reserve 0x2000 0x1000,
      .free 0x2000 0x6000]).any (fun r => r.1 == [(.alloc 100 16 0, some 0xC0003000),
        (.reserve 0x2000 0x1000, none), (.free 0x2000 0x6000, none)]) = true := by decide +kernel
  obtain ⟨⟨es, s⟩, hreplay, hvalues⟩ := (Option.any_eq_true _ _).mp hrun
  obtain ⟨es₂, s₂, r₂, hreplay₂, halloc, rfl⟩ := Boot.replay_cons hreplay
  obtain ⟨es₁, s₁, r₁, hreplay₁, hreserve, rfl⟩ := Boot.replay_cons hreplay₂
  obtain ⟨es₀, s₀, r₀, hinit, hfree, rfl⟩ := Boot.replay_cons hreplay₁
  cases hinit
  have hfreeKeeps : (initBootmemCore bootStart 1 0 8).2.KeepsReserved (.free 0x2000 0x6000) := by
    rintro x hx ⟨hlo, -⟩
    have hpage : (freeSidx (initBootmemCore bootStart 1 0 8).2.bdata 0x2000).toNat = 2 := rfl
    rw [hpage] at hlo
    have hpages : (initBootmemCore bootStart 1 0 8).2.bdata.pages = 8 := rfl
    exact not_bitmapByte_of_page_ne_one rfl rfl (by rw [hpages]; decide) hx (by omega)
  have hreserveKeeps : s₁.KeepsReserved (.reserve 0x2000 0x1000) := by
    have hoff : s₁.bdata.lastOffset = 0 := by rw [(freeBootmemCore_written (call_free hfree)).bdata]; rfl
    refine ⟨by decide, ?_⟩
    rw [Boot.tailAddr_eq_empty hoff]
    exact Set.disjoint_empty _
  have hallocKeeps : s₂.KeepsReserved (.alloc 100 16 0) := ⟨by decide, 4, rfl⟩
  have hreaches₁ : Run.Reaches (Boot.Step Boot.KeepsReserved) (initBootmemCore bootStart 1 0 8).2
      [(.free 0x2000 0x6000, r₀)] s₁ := .next .start ⟨hfreeKeeps, hfree⟩
  have hreaches₂ : Run.Reaches (Boot.Step Boot.KeepsReserved) (initBootmemCore bootStart 1 0 8).2
      [(.reserve 0x2000 0x1000, r₁), (.free 0x2000 0x6000, r₀)] s₂ := .next hreaches₁ ⟨hreserveKeeps, hreserve⟩
  have hreaches : Run.Reaches (Boot.Step Boot.KeepsReserved) (initBootmemCore bootStart 1 0 8).2
      [(.alloc 100 16 0, r₂), (.reserve 0x2000 0x1000, r₁), (.free 0x2000 0x6000, r₀)] s :=
    .next hreaches₂ ⟨hallocKeeps, halloc⟩
  exact ⟨_, s, eq_of_beq hvalues, hreaches,
    @reserve_run_ok bootStart s 1 0 8 _ (by decide) (by decide) (by decide) rfl hreaches⟩

/-- The bytes 2048 to 2303 of page 0 are reserved after a block of 100 bytes, and the next block holds them. -/
theorem reserve_in_cursor_page : ∃ es s,
    Run.Reaches (Boot.Step fun _ _ => True) (initBootmemCore bootStart 0x100 0 8).2 es s ∧
      es = [(.alloc 0x900 16 0, some 0xC0000070), (.reserve 0x800 0x100, none), (.alloc 100 16 0, some 0xC0000000),
        (.free 0 0x8000, none)] ∧ ¬ ReservationsHold es := by
  have hrun : ((initBootmemCore bootStart 0x100 0 8).2.replay [.alloc 0x900 16 0, .reserve 0x800 0x100,
      .alloc 100 16 0, .free 0 0x8000]).any (fun r =>
        r.1 == [(.alloc 0x900 16 0, some 0xC0000070), (.reserve 0x800 0x100, none),
          (.alloc 100 16 0, some 0xC0000000), (.free 0 0x8000, none)]) = true := by decide +kernel
  obtain ⟨⟨es, s⟩, hreplay, hvalues⟩ := (Option.any_eq_true _ _).mp hrun
  obtain rfl := eq_of_beq hvalues
  refine ⟨_, s, Boot.replay_reaches (fun _ _ _ => trivial) hreplay, rfl, fun hhold => ?_⟩
  have hapart := hhold [(.alloc 0x900 16 0, some 0xC0000070)] 0x800 0x100 none
    [(.alloc 100 16 0, some 0xC0000000), (.free 0 0x8000, none)] rfl (by simp [Call.IsFree])
    (byteSet 0xC0000070 0x900) List.mem_cons_self
  have hblock : (0xC0000800 : Word) ∈ byteSet 0xC0000070 0x900 := by
    show (0xC0000800 - 0xC0000070 : Word).toNat < (0x900 : Word).toNat
    decide
  have hrange : (0xC0000800 : Word) ∈ reservedRange 0x800 0x100 := by
    show (0xC0000800 - physToVirt 0x800 : Word).toNat < (0x100 : Word).toNat
    decide
  exact Set.disjoint_left.mp hapart hblock hrange

end XosKernel.Bootmem
