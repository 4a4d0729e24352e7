import XosKernel.BootmemAlloc
import XosKernel.BootmemSetup
import XosKernel.BlockCarving

/-! Runs of the boot-time allocator. A step is a call that returns; a call that reaches `BUG` or loops for
ever ends the run. The allocations that follow the setup of a node carve their blocks out of the pages
that are free at that point. -/

namespace XosKernel.Bootmem

open Memory BootmemData Carving

/-- A call of the interface. -/
inductive Call where
  | free (addr size : Word)
  | reserve (addr size : Word)
  | alloc (size align goal : Word)
  deriving DecidableEq

/-- `free_bootmem` and `reserve_bootmem`. -/
def Call.IsSetup : Call → Prop
  | .free _ _ => True
  | .reserve _ _ => True
  | .alloc _ _ _ => False

/-- An allocation with valid arguments. -/
def Call.IsAlloc : Call → Prop
  | .alloc size align _ => 1 ≤ size.toNat ∧ size.toNat + 4095 < 2 ^ 32 ∧ align.toNat.isPowerOfTwo
  | _ => False

/-- A call has the value `none` when it returns nothing or `NULL`. -/
def Boot.call (s : Boot) : Call → Outcome Boot (Option Word)
  | .free addr size => (freeBootmemCore s addr size).map fun _ => none
  | .reserve addr size => (reserveBootmemCore s addr size).map fun _ => none
  | .alloc size align goal => allocBootmemCore s size align goal

/-- A call with the value that it returned. -/
abbrev Event := Call × Option Word

/-- A call that `Ok` admits returns. -/
def Boot.Step (Ok : Boot → Call → Prop) (s : Boot) (e : Event) (t : Boot) : Prop :=
  Ok s e.1 ∧ s.call e.1 = .ret e.2 t

/-- Make calls one after another, the last call of the list first; `none` when one does not return. -/
def Boot.replay (s : Boot) : List Call → Option (List Event × Boot)
  | [] => some ([], s)
  | c :: cs =>
      match s.replay cs with
      | none => none
      | some (es, t) =>
          match t.call c with
          | .ret r u => some ((c, r) :: es, u)
          | _ => none

theorem Boot.replay_cons {s t : Boot} {c : Call} {cs : List Call} {es : List Event}
    (h : s.replay (c :: cs) = some (es, t)) :
    ∃ es' u r, s.replay cs = some (es', u) ∧ u.call c = .ret r t ∧ es = (c, r) :: es' := by
  rw [Boot.replay] at h
  split at h
  · cases h
  rename_i es' u hprev
  split at h
  · rename_i r t' hret
    cases h
    exact ⟨es', u, r, hprev, hret, rfl⟩
  · cases h

theorem Boot.replay_reaches {Ok : Boot → Call → Prop} {s : Boot} :
    ∀ {cs : List Call} {es : List Event} {t : Boot}, (∀ c ∈ cs, ∀ u, Ok u c) → s.replay cs = some (es, t) →
      Run.Reaches (Boot.Step Ok) s es t
  | [], _, _, _, h => by
      cases h
      exact .start
  | c :: cs, es, t, hok, h => by
      obtain ⟨es', u, r, hprev, hret, rfl⟩ := Boot.replay_cons h
      have hrun := Boot.replay_reaches (fun d hd => hok d (List.mem_cons_of_mem _ hd)) hprev
      exact .next hrun ⟨hok c List.mem_cons_self u, hret⟩

/-- The addresses of a block. -/
def byteSet (a size : Word) : Set Word := {c | (c - a).toNat < size.toNat}

/-- The block that an event returned. -/
def Event.block? : Event → Option (Set Word)
  | (.alloc size _ _, some a) => some (byteSet a size)
  | _ => none

/-- The blocks that a run returned. -/
def blocks (es : List Event) : List (Set Word) := es.filterMap Event.block?

/-- The addresses of the pages that are free. -/
def Boot.freeAddr (s : Boot) : Set Word := {a | ∃ x, s.FreePage (x / 4096) ∧ a = s.bdata.va x}

/-- The addresses that can still be handed out. -/
def Boot.availAddr (s : Boot) : Set Word := {a | ∃ x ∈ s.avail, a = s.bdata.va x}

/-! ### The setup of a node -/

theorem call_free {s t : Boot} {addr size : Word} {r : Option Word}
    (h : s.call (.free addr size) = .ret r t) : freeBootmemCore s addr size = .ret () t := by
  obtain ⟨_, hret, -⟩ := Outcome.map_eq_ret h
  exact hret

theorem call_reserve {s t : Boot} {addr size : Word} {r : Option Word}
    (h : s.call (.reserve addr size) = .ret r t) : reserveBootmemCore s addr size = .ret () t := by
  obtain ⟨_, hret, -⟩ := Outcome.map_eq_ret h
  exact hret

/-- Setup calls leave the node and the cursor. -/
theorem setup_bdata {s t : Boot} {e : Event} (h : s.Step (fun _ c => c.IsSetup) e t) : t.bdata = s.bdata := by
  obtain ⟨c, r⟩ := e
  obtain ⟨hsetup, hret⟩ := h
  cases c with
  | free addr size => exact (freeBootmemCore_written (call_free hret)).bdata
  | reserve addr size => exact (reserveBootmemCore_written (call_reserve hret)).bdata
  | alloc size align goal => cases hsetup

theorem setup_run_bdata {s t : Boot} {es : List Event}
    (h : Run.Reaches (Boot.Step fun _ c => c.IsSetup) s es t) : t.bdata = s.bdata :=
  h.invariant (fun _ u => u.bdata = s.bdata) rfl fun _ _ _ _ hprev hstep => (setup_bdata hstep).trans hprev

/-! ### Addresses and bytes of the node -/

theorem mem_byteSet_va {b : BootmemData} {x : Nat} {size : Word} (hfit : x + size.toNat ≤ 2 ^ 32) {c : Word} :
    c ∈ byteSet (b.va x) size ↔ ∃ y ∈ blockSet x size.toNat, c = b.va y := by
  constructor
  · intro hc
    refine ⟨x + (c - b.va x).toNat, ⟨Nat.le_add_right _ _, Nat.add_lt_add_left hc _⟩, ?_⟩
    rw [va_add, BitVec.ofNat_toNat, BitVec.setWidth_eq, BitVec.add_comm, BitVec.sub_add_cancel]
  · rintro ⟨y, ⟨hlo, hhi⟩, rfl⟩
    show (b.va y - b.va x).toNat < size.toNat
    rw [va_toNat_sub hlo (by omega)]
    omega

theorem Boot.Inv.avail_lt {s : Boot} (hs : s.Inv) {x : Nat} (hx : x ∈ s.avail) : x < 2 ^ 32 := by
  have hpages := hs.node.pages_le.1
  have hpage : x / 4096 < s.bdata.pages := by
    rcases hx with hfree | ⟨htail, -⟩
    · exact hfree.1
    · exact (hs.tail _ htail).1
  omega

section

variable {s t : Boot} {size align : Word} {x : Nat}

theorem byteSet_subset_availAddr (hfit : x + size.toNat ≤ 2 ^ 32) (hblock : blockSet x size.toNat ⊆ s.avail) :
    byteSet (s.bdata.va x) size ⊆ s.availAddr := fun c hc => by
  obtain ⟨y, hy, rfl⟩ := (mem_byteSet_va hfit).mp hc
  exact ⟨y, hblock hy, rfl⟩

/-- An allocated block in terms of addresses. -/
theorem Allocated.carves_addr (hs : s.Inv) (h : Allocated s t size align x) (halign : align ≠ 0) :
    byteSet (s.bdata.va x) size ⊆ s.availAddr ∧
      t.availAddr ⊆ s.availAddr \ byteSet (s.bdata.va x) size := by
  obtain ⟨hblock, hrest⟩ := h.carves halign
  have hpages := hs.node.pages_le.1
  have hinside := h.placed.inside
  rw [h.placed.node.pages_eq] at hinside
  have hfit : x + size.toNat ≤ 2 ^ 32 := by omega
  refine ⟨byteSet_subset_availAddr hfit hblock, fun c hc => ?_⟩
  obtain ⟨y, hy, rfl⟩ := hc
  have hlt := h.placed.inv.avail_lt hy
  obtain ⟨hold, hout⟩ := hrest hy
  rw [h.placed.node.va_eq]
  refine ⟨⟨y, hold, rfl⟩, fun hmem => ?_⟩
  obtain ⟨z, hz, heq⟩ := (mem_byteSet_va hfit).mp hmem
  have hzlt : z < 2 ^ 32 := lt_of_lt_of_le hz.2 hfit
  rw [va_injective hlt hzlt heq] at hout
  exact hout hz

theorem virtToPhys_va (b : BootmemData) (y : Nat) :
    virtToPhys (b.va y) = b.nodeBootStart + BitVec.ofNat 32 y := by
  rw [virtToPhys, va, physToVirt, BitVec.add_sub_cancel]

theorem toNat_virtToPhys_va {b : BootmemData} {y : Nat} (h : b.nodeBootStart.toNat + y < 2 ^ 32) :
    (virtToPhys (b.va y)).toNat = b.nodeBootStart.toNat + y := by
  have hy : (BitVec.ofNat 32 y).toNat = y := by
    rw [BitVec.toNat_ofNat]
    exact Nat.mod_eq_of_lt (by omega)
  rw [virtToPhys_va, BitVec.toNat_add, hy, Nat.mod_eq_of_lt h]

end

/-! ### Runs of allocations -/

theorem ne_zero_of_isPowerOfTwo {align : Word} (h : align.toNat.isPowerOfTwo) : align ≠ 0 := fun hzero => by
  have hpos := Nat.pos_of_isPowerOfTwo h
  rw [hzero] at hpos
  exact absurd hpos (by decide)

/-- What holds after a run of allocations that starts in `s₁`. -/
structure AllocsInv (s₁ : Boot) (es : List Event) (s : Boot) : Prop where
  node : SameNode s₁.bdata s.bdata
  inv : s.Inv
  carved : Carved s₁.freeAddr s.availAddr (blocks es)

/-- What an allocation does after the allocations `es`: it does not reach `BUG`, and a block that it
returns is aligned, lies in pages that were free in `s₁`, is apart from all earlier blocks, is cleared,
and leaves the bytes of the earlier blocks. -/
inductive CallOk (s₁ : Boot) (es : List Event) (s : Boot) (size align : Word) :
    Outcome Boot (Option Word) → Prop
  | null : CallOk s₁ es s size align (.ret none s)
  | block (a : Word) (t : Boot)
      (aligned : align.toNat ∣ (virtToPhys a).toNat)
      (inside : byteSet a size ⊆ s₁.freeAddr)
      (apart : ∀ b ∈ blocks es, Disjoint b (byteSet a size))
      (cleared : ∀ c ∈ byteSet a size, t.mem c = 0)
      (kept : ∀ b ∈ blocks es, ∀ c ∈ b, t.mem c = s.mem c) : CallOk s₁ es s size align (.ret (some a) t)
  | hang : CallOk s₁ es s size align .hang

section

variable {s₁ s t : Boot} {es : List Event} {size align goal : Word}

theorem AllocsInv.start (hs : s₁.Inv) (hcursor : s₁.bdata.lastOffset = 0) : AllocsInv s₁ [] s₁ := by
  refine ⟨.refl _, hs, ?_⟩
  have havail : s₁.availAddr = s₁.freeAddr := by
    ext c
    constructor
    · rintro ⟨x, hfree | ⟨htail, -⟩, rfl⟩
      · exact ⟨x, hfree, rfl⟩
      · exact absurd hcursor htail.1
    · rintro ⟨x, hfree, rfl⟩
      exact ⟨x, .inl hfree, rfl⟩
  rw [havail]
  exact .start _

/-- The bytes of the blocks are no part of the bitmap. -/
theorem AllocsInv.not_bitmapByte (h : AllocsInv s₁ es s) (hs : s₁.Inv) {b : Set Word} (hb : b ∈ blocks es)
    {c : Word} (hc : c ∈ b) : ¬ s.BitmapByte c := by
  obtain ⟨x, hfree, rfl⟩ := h.carved.inside b hb hc
  have hnot := hs.bitmap x (.inl hfree)
  rwa [Boot.BitmapByte, h.node.pages_eq, h.node.map]

theorem AllocsInv.callOk (h : AllocsInv s₁ es s) (hs : s₁.Inv) (hvalid : (Call.alloc size align goal).IsAlloc) :
    CallOk s₁ es s size align (allocBootmemCore s size align goal) := by
  obtain ⟨hsize, hwrap, hpow⟩ := hvalid
  have hspec := allocBootmemCore_spec goal h.inv hsize hwrap ((Word.and_sub_one_eq_zero_iff align).mpr (.inr hpow))
  generalize allocBootmemCore s size align goal = o at hspec
  cases hspec with
  | null => exact .null
  | hang => exact .hang
  | block x t halloc =>
      have hne := ne_zero_of_isPowerOfTwo hpow
      obtain ⟨hblock, hrest⟩ := halloc.carves_addr h.inv hne
      have hpages := h.inv.node.pages_le
      have hinside := halloc.placed.inside
      rw [halloc.placed.node.pages_eq] at hinside
      have hmem : ∀ c, c ∈ byteSet (s.bdata.va x) size ↔ ∃ y ∈ blockSet x size.toNat, c = s.bdata.va y :=
        fun c => mem_byteSet_va (by omega)
      refine .block _ t ?_ (hblock.trans h.carved.left_subset) (fun b hb => ?_) (fun c hc => ?_)
        fun b hb c hc => ?_
      · rw [toNat_virtToPhys_va (by omega)]
        exact halloc.aligned hne
      · exact (h.carved.apart b hb).mono_right hblock
      · obtain ⟨y, hy, rfl⟩ := (hmem c).mp hc
        exact halloc.placed.cleared y hy
      · refine halloc.placed.frame c (fun y hy hcy => ?_) (h.not_bitmapByte hs hb hc)
        exact Set.disjoint_left.mp (h.carved.apart b hb) hc (hblock ((hmem c).mpr ⟨y, hy, hcy⟩))

/-- The step lemma: an allocation that returns keeps the invariant. -/
theorem AllocsInv.step (h : AllocsInv s₁ es s) {e : Event} (hstep : s.Step (fun _ c => c.IsAlloc) e t) :
    AllocsInv s₁ (e :: es) t := by
  obtain ⟨c, r⟩ := e
  obtain ⟨hvalid, hret⟩ := hstep
  cases c with
  | free addr size => cases hvalid
  | reserve addr size => cases hvalid
  | alloc size align goal =>
      obtain ⟨hsize, hwrap, hpow⟩ := hvalid
      have hspec := allocBootmemCore_spec goal h.inv hsize hwrap
        ((Word.and_sub_one_eq_zero_iff align).mpr (.inr hpow))
      rw [show allocBootmemCore s size align goal = .ret r t from hret] at hspec
      cases hspec with
      | null => exact ⟨h.node, h.inv, h.carved⟩
      | block x _ halloc =>
          obtain ⟨hblock, hrest⟩ := halloc.carves_addr h.inv (ne_zero_of_isPowerOfTwo hpow)
          exact ⟨h.node.trans halloc.placed.node, halloc.placed.inv, h.carved.carve hblock hrest⟩

end

/-- A page that holds a part of the bitmap, whose size is `mapsize` bytes. -/
def Boot.HoldsMap (s : Boot) (mapsize : Word) (p : Nat) : Prop :=
  ∃ x, x / 4096 = p ∧ (s.bdata.va x - s.bdata.nodeBootmemMap).toNat < mapsize.toNat

section

variable {s₀ s₁ s₂ : Boot} {mapstart start endPfn : Word} {setup allocs : List Event}

/-- Once the pages of the bitmap are reserved, a node that was set up satisfies the invariant. -/
theorem setup_inv (hstart : start.toNat < 2 ^ 20) (hle : start.toNat ≤ endPfn.toNat)
    (hend : endPfn.toNat ≤ 2 ^ 20) (hcursor : s₀.bdata.lastOffset = 0)
    (hsetup : Run.Reaches (Boot.Step fun _ c => c.IsSetup) (initBootmemCore s₀ mapstart start endPfn).2 setup s₁)
    (hmap : ∀ p, p < s₁.bdata.pages → s₁.HoldsMap (initBootmemCore s₀ mapstart start endPfn).1 p →
      s₁.reserved p = true) :
    s₁.Inv ∧ s₁.bdata.lastOffset = 0 := by
  have hbdata := setup_run_bdata hsetup
  have hoff : s₁.bdata.lastOffset = 0 := by
    rw [hbdata]
    exact hcursor
  have hnotail : ∀ p, ¬ s₁.TailPage p := fun p htail => htail.1 hoff
  refine ⟨⟨?_, ?_, fun p hp => absurd hp (hnotail p), fun x hx hbyte => ?_⟩, hoff⟩
  · rw [hbdata]
    exact initBootmemCore_nodeOk hstart hle hend
  · rw [hoff]
    decide
  · rcases hx with hfree | htail
    · have hin : (s₁.bdata.va x - s₁.bdata.nodeBootmemMap).toNat <
          (initBootmemCore s₀ mapstart start endPfn).1.toNat := by
        rw [Boot.BitmapByte, hbdata] at hbyte
        rw [hbdata]
        exact initBootmemCore_bitmapByte hstart hle hend hbyte
      have hset := hmap _ hfree.1 ⟨x, rfl, hin⟩
      rw [hfree.2] at hset
      cases hset
    · exact hnotail _ htail

/-- **Allocation after setup**: from `init_bootmem_core` on, with any setup calls that return and leave the
pages of the bitmap reserved, every run of allocations returns pairwise disjoint blocks, and the next
allocation is as `CallOk` says. -/
theorem alloc_run_ok (hstart : start.toNat < 2 ^ 20) (hle : start.toNat ≤ endPfn.toNat)
    (hend : endPfn.toNat ≤ 2 ^ 20) (hcursor : s₀.bdata.lastOffset = 0)
    (hsetup : Run.Reaches (Boot.Step fun _ c => c.IsSetup) (initBootmemCore s₀ mapstart start endPfn).2 setup s₁)
    (hmap : ∀ p, p < s₁.bdata.pages → s₁.HoldsMap (initBootmemCore s₀ mapstart start endPfn).1 p →
      s₁.reserved p = true)
    (hallocs : Run.Reaches (Boot.Step fun _ c => c.IsAlloc) s₁ allocs s₂) :
    (blocks allocs).Pairwise Disjoint ∧ (∀ b ∈ blocks allocs, b ⊆ s₁.freeAddr) ∧
      ∀ size align goal, (Call.alloc size align goal).IsAlloc →
        CallOk s₁ allocs s₂ size align (allocBootmemCore s₂ size align goal) := by
  obtain ⟨hs, hoff⟩ := setup_inv hstart hle hend hcursor hsetup hmap
  have hinv : AllocsInv s₁ allocs s₂ :=
    hallocs.invariant (AllocsInv s₁) (.start hs hoff) fun _ _ _ _ hprev hstep => hprev.step hstep
  exact ⟨hinv.carved.pairwise, hinv.carved.inside, fun _ _ _ hvalid => hinv.callOk hs hvalid⟩

end

/-- Memory and cursor before the node is set up. -/
def bootStart : Boot := ⟨fun _ => 0, ⟨0, 0, 0, 0, 0⟩⟩

/-- A bitmap of four bytes at the start of page 1 of a node of eight pages. -/
theorem holdsMap_le_one {s : Boot} (hstart : s.bdata.nodeBootStart = 0)
    (hmap : s.bdata.nodeBootmemMap = 0xC0001000) {p : Nat} (hp : p < 8) (h : s.HoldsMap 4 p) : p ≤ 1 := by
  obtain ⟨x, hx, hlt⟩ := h
  have hva : s.bdata.va 4096 = 0xC0001000 := by
    rw [va, hstart]
    rfl
  have hfour : (4 : Word).toNat = 4 := rfl
  rcases Nat.lt_or_ge x 4096 with hlow | hhigh
  · omega
  · rw [hmap, ← hva, va_toNat_sub hhigh (by omega), hfour] at hlt
    omega

theorem alloc_run_ok_two_blocks :
    ∃ s₁ allocs s₂, Run.Reaches (Boot.Step fun _ c => c.IsAlloc) s₁ allocs s₂ ∧
      allocs.map (fun e => e.2) = [some 0xC0002070, some 0xC0002000] ∧ (blocks allocs).Pairwise Disjoint := by
  have hrun : ((initBootmemCore bootStart 1 0 8).2.replay [.free 0x2000 0x6000]).any (fun r =>
      r.2.reserved 0 && r.2.reserved 1 && (r.2.replay [.alloc 50 16 0, .alloc 100 16 0]).any (fun q =>
        q.1.map (fun e => e.2) == [some 0xC0002070, some 0xC0002000])) = true := by decide +kernel
  obtain ⟨⟨setup, s₁⟩, hsetup, hrest⟩ := (Option.any_eq_true _ _).mp hrun
  rw [Bool.and_eq_true, Bool.and_eq_true] at hrest
  obtain ⟨⟨hzero, hone⟩, hrest⟩ := hrest
  obtain ⟨⟨allocs, s₂⟩, hallocs, hvalues⟩ := (Option.any_eq_true _ _).mp hrest
  have hsetup' : Run.Reaches (Boot.Step fun _ c => c.IsSetup) (initBootmemCore bootStart 1 0 8).2 setup s₁ :=
    Boot.replay_reaches (by simp [Call.IsSetup]) hsetup
  have hallocs' : Run.Reaches (Boot.Step fun _ c => c.IsAlloc) s₁ allocs s₂ := by
    refine Boot.replay_reaches ?_ hallocs
    simp only [List.mem_cons, List.not_mem_nil, or_false, forall_eq_or_imp, forall_eq]
    exact ⟨fun _ => ⟨by decide, by decide, 4, rfl⟩, fun _ => ⟨by decide, by decide, 4, rfl⟩⟩
  have hbdata := setup_run_bdata hsetup'
  refine ⟨s₁, allocs, s₂, hallocs', eq_of_beq hvalues, ?_⟩
  refine (@alloc_run_ok bootStart s₁ s₂ 1 0 8 setup allocs (by decide) (by decide)
    (by decide) rfl hsetup' (fun p hp hholds => ?_) hallocs').1
  rw [hbdata] at hp
  have hpage := holdsMap_le_one (by rw [hbdata]; rfl) (by rw [hbdata]; rfl) hp hholds
  rcases Nat.le_one_iff_eq_zero_or_eq_one.mp hpage with rfl | rfl
  · exact hzero
  · exact hone

end XosKernel.Bootmem
