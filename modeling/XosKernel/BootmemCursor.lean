import XosKernel.BootmemRun

/-! The partial-page cursor in runs that mix frees, reservations and allocations. `free_bootmem_core` does not
look at `last_pos` and `last_offset`: it can free the page that the last block ended in, and the next
allocation still puts a block there. In the runs that never free that page, and never a page of the bitmap,
the page of the cursor stays reserved and no free page holds a byte of a live block. -/

namespace XosKernel.Bootmem

open Memory BootmemData Carving

/-- The addresses of the pages that a call of `free_bootmem_core` frees. -/
def freedAddr (b : BootmemData) (addr size : Word) : Set Word :=
  {a | ∃ x, x / 4096 ∈ freedPages b addr size ∧ a = b.va x}

/-- What an event gives or takes back. -/
def Event.move? (b : BootmemData) : Event → Option (Move Word)
  | (.alloc size _ _, some a) => some (.give (byteSet a size))
  | (.free addr size, _) => some (.back (freedAddr b addr size))
  | _ => none

/-- The bytes of the blocks that were returned and whose page was not freed since. -/
def liveBytes (b : BootmemData) (es : List Event) : Set Word := held (es.filterMap (Event.move? b))

/-- The cursor is valid. -/
structure CursorOk (b : BootmemData) (es : List Event) (s : Boot) : Prop where
  reserved : s.bdata.lastOffset ≠ 0 → s.reserved s.bdata.lastPos.toNat = true
  live : Disjoint (liveBytes b es) s.freeAddr

/-- The calls that keep the cursor valid: a free of neither the page the last block ended in nor a page of
the bitmap, and an allocation whose number of pages does not wrap. -/
def Boot.KeepsCursor (s : Boot) : Call → Prop
  | .free addr size => ∀ x, x / 4096 < s.bdata.pages → x / 4096 ∈ freedPages s.bdata addr size →
      ¬ s.TailPage (x / 4096) ∧ ¬ s.BitmapByte (s.bdata.va x)
  | .reserve _ _ => True
  | .alloc size _ _ => size.toNat + 4095 < 2 ^ 32

/-- What holds in every state of such a run. -/
structure CursorInv (b : BootmemData) (es : List Event) (s : Boot) : Prop where
  node : SameNode b s.bdata
  inv : s.Inv
  live : Disjoint (liveBytes b es) s.freeAddr

section

variable {b : BootmemData} {s t : Boot} {es : List Event} {addr size align goal : Word}

theorem CursorInv.ok (h : CursorInv b es s) : CursorOk b es s :=
  ⟨fun hoff => (h.inv.tail _ ⟨hoff, rfl⟩).2, h.live⟩

/-- The pages that are free after a range of bits was written. -/
theorem BitsWritten.freePage {lo hi : Nat} {value : Bool} (h : BitsWritten s t lo hi value)
    (hs : s.bdata.NodeOk) {p : Nat} (hp : t.FreePage p) :
    s.FreePage p ∨ (value = false ∧ lo ≤ p ∧ p < hi) := by
  obtain ⟨hlt, hclear⟩ := hp
  have hpages := hs.pages_le.1
  rw [h.bdata] at hlt
  rw [h.reserved (by omega)] at hclear
  split at hclear
  · rename_i hin
    exact .inr ⟨hclear, hin⟩
  · exact .inl ⟨hlt, hclear⟩

/-- Setting bits keeps the invariant, and so does clearing those of other pages than the cursor's and the
bitmap's. -/
theorem BitsWritten.inv {lo hi : Nat} {value : Bool} (h : BitsWritten s t lo hi value) (hs : s.Inv)
    (hkeeps : value = false → ∀ x, x / 4096 < s.bdata.pages → lo ≤ x / 4096 ∧ x / 4096 < hi →
      ¬ s.TailPage (x / 4096) ∧ ¬ s.BitmapByte (s.bdata.va x)) : t.Inv := by
  have hpages := hs.node.pages_le.1
  have hbdata := h.bdata
  have htailPage : ∀ p, t.TailPage p ↔ s.TailPage p := fun p => by rw [Boot.TailPage, Boot.TailPage, hbdata]
  refine ⟨hbdata ▸ hs.node, hbdata ▸ hs.offset_lt, fun p hp => ?_, fun x hx => ?_⟩
  · rw [htailPage] at hp
    obtain ⟨hlt, hset⟩ := hs.tail p hp
    rw [hbdata, h.reserved (by omega)]
    refine ⟨hlt, ?_⟩
    split
    · rename_i hin
      have hdiv : p * 4096 / 4096 = p := Nat.mul_div_cancel _ (by decide)
      by_contra hclear
      have hnot := (hkeeps (by simpa using hclear) (p * 4096) (by rw [hdiv]; exact hlt) (by rw [hdiv]; exact hin)).1
      rw [hdiv] at hnot
      exact hnot hp
    · exact hset
  · have hmap : t.BitmapByte (t.bdata.va x) ↔ s.BitmapByte (s.bdata.va x) := by
      rw [Boot.BitmapByte, Boot.BitmapByte, hbdata]
    rw [hmap]
    rcases hx with hfree | htail
    · have hlt := hfree.1
      rw [hbdata] at hlt
      rcases h.freePage hs.node hfree with hold | ⟨hvalue, hin⟩
      · exact hs.bitmap x (.inl hold)
      · exact (hkeeps hvalue x hlt hin).2
    · exact hs.bitmap x (.inr ((htailPage _).mp htail))

theorem CursorInv.free (h : CursorInv b es s) (hkeeps : s.KeepsCursor (.free addr size)) {r : Option Word}
    (hret : freeBootmemCore s addr size = .ret () t) : CursorInv b ((.free addr size, r) :: es) t := by
  have hwritten := freeBootmemCore_written hret
  have hbdata := hwritten.bdata
  have hnode : freedPages s.bdata addr size = freedPages b addr size := by
    rw [freedPages, freedPages, freeSidx, freeSidx, freeEidx, freeEidx, h.node.start]
  have hinv : t.Inv := hwritten.inv h.inv fun _ x hx hin => hkeeps x hx (passes_range.mp hin)
  refine ⟨hbdata ▸ h.node, hinv, disjoint_held_back h.live ?_⟩
  rintro a ⟨x, hx, rfl⟩
  rw [hbdata]
  rcases hwritten.freePage h.inv.node hx with hold | ⟨-, hin⟩
  · exact .inl ⟨x, hold, rfl⟩
  · exact .inr ⟨x, hnode ▸ passes_range.mp hin, h.node.va_eq x⟩

theorem CursorInv.reserve (h : CursorInv b es s) {r : Option Word}
    (hret : reserveBootmemCore s addr size = .ret () t) : CursorInv b ((.reserve addr size, r) :: es) t := by
  have hwritten := reserveBootmemCore_written hret
  have hbdata := hwritten.bdata
  refine ⟨hbdata ▸ h.node, hwritten.inv h.inv (fun hvalue => by cases hvalue), h.live.mono_right ?_⟩
  rintro a ⟨x, hx, rfl⟩
  rw [hbdata]
  rcases hwritten.freePage h.inv.node hx with hold | ⟨hvalue, -⟩
  · exact ⟨x, hold, rfl⟩
  · cases hvalue

/-- A call that returns has passed the checks at entry. -/
theorem allocBootmemCore_checks {r : Option Word} (h : allocBootmemCore s size align goal = .ret r t) :
    1 ≤ size.toNat ∧ align &&& (align - 1) = 0 := by
  rw [allocBootmemCore] at h
  split at h
  · cases h
  rename_i hsize
  split at h
  · cases h
  rename_i halign
  refine ⟨Nat.pos_of_ne_zero fun hzero => hsize (BitVec.eq_of_toNat_eq hzero), ?_⟩
  by_contra hne
  exact halign hne

theorem CursorInv.alloc (h : CursorInv b es s) (hkeeps : s.KeepsCursor (.alloc size align goal))
    {r : Option Word} (hret : allocBootmemCore s size align goal = .ret r t) :
    CursorInv b ((.alloc size align goal, r) :: es) t := by
  obtain ⟨hsize, halign⟩ := allocBootmemCore_checks hret
  have hspec := allocBootmemCore_spec goal h.inv hsize hkeeps halign
  rw [hret] at hspec
  cases hspec with
  | null => exact ⟨h.node, h.inv, h.live⟩
  | block x _ halloc =>
      have hplaced := halloc.placed
      have hpages := hplaced.inv.node.pages_le.1
      have hinside := hplaced.inside
      have hfit : x + size.toNat ≤ 2 ^ 32 := by omega
      refine ⟨h.node.trans hplaced.node, hplaced.inv, disjoint_held_give h.live ?_⟩
      rintro a ⟨y, hy, rfl⟩
      obtain ⟨hold, hout⟩ := hplaced.free _ hy
      rw [hplaced.node.va_eq]
      refine ⟨⟨y, hold, rfl⟩, fun hmem => ?_⟩
      obtain ⟨z, hz, heq⟩ := (mem_byteSet_va hfit).mp hmem
      have hylt := hy.1
      have hzlt : z < 2 ^ 32 := lt_of_lt_of_le hz.2 hfit
      rw [va_injective (by omega) hzlt heq] at hout
      exact hout z hz rfl

/-- The step lemma: a call that keeps the cursor keeps the invariant. -/
theorem CursorInv.step (h : CursorInv b es s) {e : Event} (hstep : s.Step Boot.KeepsCursor e t) :
    CursorInv b (e :: es) t := by
  obtain ⟨c, r⟩ := e
  obtain ⟨hkeeps, hret⟩ := hstep
  cases c with
  | free addr size => exact h.free hkeeps (call_free hret)
  | reserve addr size => exact h.reserve (call_reserve hret)
  | alloc size align goal => exact h.alloc hkeeps hret

end

section

variable {s₀ s : Boot} {mapstart start endPfn : Word} {es : List Event}

theorem init_cursorInv (hstart : start.toNat < 2 ^ 20) (hle : start.toNat ≤ endPfn.toNat)
    (hend : endPfn.toNat ≤ 2 ^ 20) (hcursor : s₀.bdata.lastOffset = 0) :
    CursorInv (initBootmemCore s₀ mapstart start endPfn).2.bdata []
      (initBootmemCore s₀ mapstart start endPfn).2 := by
  have hnotail : ∀ p, ¬ (initBootmemCore s₀ mapstart start endPfn).2.TailPage p := fun p h => h.1 hcursor
  have hnofree : ∀ p, ¬ (initBootmemCore s₀ mapstart start endPfn).2.FreePage p := by
    rintro p ⟨hlt, hclear⟩
    rw [initBootmemCore_pages hstart] at hlt
    rw [initBootmemCore_reserved hstart hle hend hlt] at hclear
    cases hclear
  refine ⟨.refl _, ⟨initBootmemCore_nodeOk hstart hle hend, ?_, fun p hp => absurd hp (hnotail p), ?_⟩,
    Set.empty_disjoint _⟩
  · show s₀.bdata.lastOffset.toNat < 4096
    rw [hcursor]
    decide
  · rintro x (hfree | htail)
    · exact absurd hfree (hnofree _)
    · exact absurd htail (hnotail _)

/-- **The cursor in mixed runs**: from `init_bootmem_core` on, in every run whose calls keep the cursor, the
page of the cursor is reserved and no free page holds a live byte. -/
theorem cursor_run_ok (hstart : start.toNat < 2 ^ 20) (hle : start.toNat ≤ endPfn.toNat)
    (hend : endPfn.toNat ≤ 2 ^ 20) (hcursor : s₀.bdata.lastOffset = 0)
    (hrun : Run.Reaches (Boot.Step Boot.KeepsCursor) (initBootmemCore s₀ mapstart start endPfn).2 es s) :
    CursorOk (initBootmemCore s₀ mapstart start endPfn).2.bdata es s :=
  (hrun.invariant (CursorInv _) (init_cursorInv hstart hle hend hcursor)
    fun _ _ _ _ hprev hstep => hprev.step hstep).ok

end

/-- The free of the page of the cursor, and the block that is put into the freed page. -/
theorem free_breaks_cursor :
    ∃ es s, Run.Reaches (Boot.Step fun _ _ => True) (initBootmemCore bootStart 0x100 0 8).2 es s ∧
      es = [(.alloc 100 16 0x1000, some 0xC0000070), (.free 0 0x1000, none),
        (.alloc 100 16 0, some 0xC0000000), (.free 0 0x8000, none)] ∧
      ¬ (s.bdata.lastOffset ≠ 0 → s.reserved s.bdata.lastPos.toNat = true) ∧
      ¬ Disjoint (liveBytes (initBootmemCore bootStart 0x100 0 8).2.bdata es) s.freeAddr := by
  have hrun : ((initBootmemCore bootStart 0x100 0 8).2.replay [.alloc 100 16 0x1000, .free 0 0x1000,
      .alloc 100 16 0, .free 0 0x8000]).any (fun r =>
        r.1 == [(.alloc 100 16 0x1000, some 0xC0000070), (.free 0 0x1000, none),
          (.alloc 100 16 0, some 0xC0000000), (.free 0 0x8000, none)] &&
        (r.2.bdata.nodeBootStart == 0 && r.2.bdata.nodeLowPfn == 8 && r.2.bdata.lastPos == 0 &&
          r.2.bdata.lastOffset == 212 && !r.2.reserved 0)) = true := by decide +kernel
  obtain ⟨⟨es, s⟩, hreplay, hvalues⟩ := (Option.any_eq_true _ _).mp hrun
  simp only [Bool.and_eq_true, beq_iff_eq, Bool.not_eq_true'] at hvalues
  obtain ⟨rfl, ⟨⟨⟨hstart, hlow⟩, hpos⟩, hoff⟩, hclear⟩ := hvalues
  refine ⟨_, s, Boot.replay_reaches (fun _ _ _ => trivial) hreplay, rfl, fun hcursor => ?_, fun hdisjoint => ?_⟩
  · rw [hoff, hpos] at hcursor
    have hset := hcursor (by decide)
    rw [show s.reserved (0 : Word).toNat = s.reserved 0 from rfl, hclear] at hset
    cases hset
  · have hlive : (0xC0000070 : Word) ∈ byteSet 0xC0000070 100 := by
      show (0xC0000070 - 0xC0000070 : Word).toNat < (100 : Word).toNat
      decide
    have hfree : (0xC0000070 : Word) ∈ s.freeAddr := by
      refine ⟨0x70, ⟨?_, hclear⟩, ?_⟩
      · rw [pages, hstart, hlow]
        decide
      · rw [va, hstart]
        rfl
    exact Set.disjoint_left.mp hdisjoint (Or.inl hlive) hfree

/-- A bitmap of at most 32768 bits at the start of page 1 of a node that starts at address 0. -/
theorem not_bitmapByte_of_page_ne_one {s : Boot} (hstart : s.bdata.nodeBootStart = 0)
    (hmap : s.bdata.nodeBootmemMap = 0xC0001000) (hpages : s.bdata.pages ≤ 32768) {x : Nat}
    (hx : x / 4096 < s.bdata.pages) (hpage : x / 4096 ≠ 1) : ¬ s.BitmapByte (s.bdata.va x) := by
  rintro ⟨nr, hnr, hva⟩
  have hbyte := @bitByte_toNat 32 s.bdata.nodeBootmemMap nr (by omega)
  have hbase : s.bdata.nodeBootmemMap = s.bdata.va 4096 := by
    rw [hmap, va, hstart]
    rfl
  rw [← hva, hbase] at hbyte
  have hxva : s.bdata.va x = s.bdata.va (4096 + nr.toNat / 8) := by
    rw [va_add, ← hbyte, BitVec.ofNat_toNat, BitVec.setWidth_eq, BitVec.add_comm, BitVec.sub_add_cancel]
  have hxeq := va_injective (by omega) (by omega) hxva
  omega

theorem cursor_run_ok_free_alloc :
    ∃ es s, es = [(.alloc 100 16 0, some 0xC0002000), (.free 0x2000 0x6000, none)] ∧
      CursorOk (initBootmemCore bootStart 1 0 8).2.bdata es s := by
  have hrun : ((initBootmemCore bootStart 1 0 8).2.replay [.alloc 100 16 0, .free 0x2000 0x6000]).any (fun r =>
      r.1 == [(.alloc 100 16 0, some 0xC0002000), (.free 0x2000 0x6000, none)]) = true := by decide +kernel
  obtain ⟨⟨es, s⟩, hreplay, hvalues⟩ := (Option.any_eq_true _ _).mp hrun
  have hkeeps : (initBootmemCore bootStart 1 0 8).2.KeepsCursor (.free 0x2000 0x6000) := by
    rintro x hx ⟨hlo, -⟩
    have hpage : (freeSidx (initBootmemCore bootStart 1 0 8).2.bdata 0x2000).toNat = 2 := rfl
    rw [hpage] at hlo
    have hpages : (initBootmemCore bootStart 1 0 8).2.bdata.pages = 8 := rfl
    exact ⟨fun htail => htail.1 rfl,
      not_bitmapByte_of_page_ne_one rfl rfl (by rw [hpages]; decide) hx (by omega)⟩
  obtain ⟨es₁, s₁, r₁, hfree, halloc, rfl⟩ := Boot.replay_cons hreplay
  obtain ⟨es₀, s₀, r₀, hinit, hfree, rfl⟩ := Boot.replay_cons hfree
  cases hinit
  have hwrap : (100 : Word).toNat + 4095 < 2 ^ 32 := by decide
  exact ⟨_, s, eq_of_beq hvalues, @cursor_run_ok bootStart s 1 0 8 _ (by decide) (by decide) (by decide) rfl
    (.next (.next .start ⟨hkeeps, hfree⟩) ⟨hwrap, halloc⟩)⟩

end XosKernel.Bootmem
