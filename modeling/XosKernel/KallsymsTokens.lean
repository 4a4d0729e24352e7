import XosKernel.KallsymsCompress

/-! The tokens of `optimize_result`. Every slot of `best_table` is unused, a letter of its own, or a pair of slots that were
in use before it. So a slot stands for a text, and replacing a pair by its slot leaves the texts that the symbols stand
for as they were. -/

namespace XosKernel.Kallsyms.Script

open PairCode

/-- A slot that was in use before the slot `c`. -/
def Earlier (s : Tables) (c a : U8) : Prop :=
  s.bestLen a.toNat = 1 ∨ s.bestLen a.toNat = 2 ∧ c.toNat < a.toNat

/-- What slot `c` of `best_table` is, when the pairs have come down to slot `i`. -/
inductive Slot (s : Tables) (val : U8 → List U8) (i : Nat) (c : U8) : Prop
  | unused (hlen : s.bestLen c.toNat = 0) (hval : val c = [])
  | letter (hlen : s.bestLen c.toNat = 1) (hbest : (s.best c.toNat).1 = c) (hval : val c = [c])
  | pair {t : U8 × U8} (hlen : s.bestLen c.toNat = 2) (hi : i ≤ c.toNat) (hbest : s.best c.toNat = t)
      (hval : val c = val t.1 ++ val t.2) (hfirst : Earlier s c t.1) (hsecond : Earlier s c t.2)

/-- The symbols are `ls`, for the texts `os`: each slot `c` stands for the text `val c`. -/
structure Coded (i : Nat) (os ls : List (List U8)) (s : Tables) (val : U8 → List U8) : Prop where
  table : List.Forall₂ Holds s.table ls
  counts : Counts s.profit ls
  texts : List.Forall₂ (fun l o => l.flatMap val = o ∧ l.length ≤ o.length) ls os
  slots : ∀ c, Slot s val i c
  used : ∀ l ∈ ls, ∀ c ∈ l, s.bestLen c.toNat ≠ 0
  infixes : ∀ c, val c ≠ [] → ∃ o ∈ os, val c <:+: o

section

variable {i : Nat} {os ls : List (List U8)} {s : Tables} {val : U8 → List U8}

theorem Slot.mono {j : Nat} (hj : j ≤ i) {c : U8} (h : Slot s val i c) : Slot s val j c := by
  cases h with
  | unused hlen hval => exact .unused hlen hval
  | letter hlen hbest hval => exact .letter hlen hbest hval
  | pair hlen hi hbest hval hfirst hsecond => exact .pair hlen (hj.trans hi) hbest hval hfirst hsecond

theorem Coded.mono {j : Nat} (hj : j ≤ i) (h : Coded i os ls s val) : Coded j os ls s val :=
  { h with slots := fun c => (h.slots c).mono hj }

/-- A slot that is in use is earlier than one that is not. -/
theorem Coded.earlier (h : Coded i os ls s val) {c a : U8} (hc : c.toNat < i) (ha : s.bestLen a.toNat ≠ 0) :
    Earlier s c a := by
  cases h.slots a with
  | unused hlen hval => exact absurd hlen ha
  | letter hlen hbest hval => exact .inl hlen
  | pair hlen hi hbest hval hfirst hsecond => exact .inr ⟨hlen, hc.trans_le hi⟩

theorem Earlier.used {c a : U8} (h : Earlier s c a) : s.bestLen a.toNat ≠ 0 := by
  rcases h with hone | ⟨htwo, -⟩
  · rw [hone]
    exact Nat.one_ne_zero
  · rw [htwo]
    exact two_ne_zero

/-- The text of the last slot would hold a NUL as a letter. -/
theorem Coded.nul_unused (h : Coded (i + 1) os ls s val) (hnul : ∀ o ∈ os, 0 ∉ o) : s.bestLen (0 : U8).toNat = 0 := by
  cases h.slots 0 with
  | unused hlen hval => exact hlen
  | letter hlen hbest hval =>
      obtain ⟨o, ho, hpart⟩ := h.infixes 0 (by rw [hval]; exact List.cons_ne_nil _ _)
      rw [hval] at hpart
      exact absurd (hpart.subset List.mem_cons_self) (hnul o ho)
  | pair hlen hi hbest hval hfirst hsecond => exact absurd hi (Nat.not_succ_le_zero i)

/-- The value of the pair is a part of a text, as the pair is a part of a symbol. -/
theorem Coded.pair_infix (h : Coded i os ls s val) {l : List U8} (hl : l ∈ ls) {t : U8 × U8} (ht : t ∈ pairs l) :
    ∃ o ∈ os, val t.1 ++ val t.2 <:+: o := by
  obtain ⟨k, hk, rfl⟩ := List.getElem_of_mem hl
  have hko : k < os.length := h.texts.length_eq ▸ hk
  have hvalue := (mem_pairs ht).flatMap val
  have htext := ((List.forall₂_iff_get.mp h.texts).2 k hk hko).1
  rw [List.get_eq_getElem] at htext
  rw [htext, List.flatMap_cons, List.flatMap_singleton] at hvalue
  exact ⟨os[k], List.getElem_mem hko, hvalue⟩

end

/-! ### A new token -/

section

variable {os ls : List (List U8)} {s : Tables} {val : U8 → List U8} {c : U8} {t : U8 × U8}

/-- The tables with the pair `t` in slot `c`. -/
def Tables.place (s : Tables) (c : U8) (t : U8 × U8) (table : List SymEntry) (profit : Nat → Int) : Tables where
  table := table
  profit := profit
  best := Function.update s.best c.toNat t
  bestLen := Function.update s.bestLen c.toNat 2

theorem bestLen_place_of_ne {table : List SymEntry} {profit : Nat → Int} {d : U8} (h : d ≠ c) :
    (s.place c t table profit).bestLen d.toNat = s.bestLen d.toNat :=
  Function.update_of_ne (fun heq => h (BitVec.eq_of_toNat_eq heq)) _ _

theorem best_place_of_ne {table : List SymEntry} {profit : Nat → Int} {d : U8} (h : d ≠ c) :
    (s.place c t table profit).best d.toNat = s.best d.toNat :=
  Function.update_of_ne (fun heq => h (BitVec.eq_of_toNat_eq heq)) _ _

@[simp] theorem bestLen_place_self {table : List SymEntry} {profit : Nat → Int} :
    (s.place c t table profit).bestLen c.toNat = 2 := Function.update_self _ _ _

/-- Slots that are in use keep their texts. -/
theorem update_of_used (hunused : s.bestLen c.toNat = 0) (text : List U8) {a : U8} (ha : s.bestLen a.toNat ≠ 0) :
    Function.update val c text a = val a :=
  Function.update_of_ne (fun heq => ha (by rwa [heq])) _ _

theorem Earlier.place {table : List SymEntry} {profit : Nat → Int} (hunused : s.bestLen c.toNat = 0) {d a : U8}
    (h : Earlier s d a) : Earlier (s.place c t table profit) d a := by
  have hac : a ≠ c := by
    rintro rfl
    exact h.used hunused
  rwa [Earlier, bestLen_place_of_ne hac]

theorem Coded.place_slots (h : Coded (c.toNat + 1) os ls s val) (hunused : s.bestLen c.toNat = 0)
    (hfirst : s.bestLen t.1.toNat ≠ 0) (hsecond : s.bestLen t.2.toNat ≠ 0) (table : List SymEntry)
    (profit : Nat → Int) (d : U8) :
    Slot (s.place c t table profit) (Function.update val c (val t.1 ++ val t.2)) c.toNat d := by
  have hvalue {a : U8} := @update_of_used s val c hunused (val t.1 ++ val t.2) a
  by_cases hdc : d = c
  · subst hdc
    refine .pair (Function.update_self _ _ _) (Nat.le_refl _) (Function.update_self _ _ _) ?_
      ((h.earlier (Nat.lt_succ_self _) hfirst).place hunused) ((h.earlier (Nat.lt_succ_self _) hsecond).place hunused)
    rw [Function.update_self, hvalue hfirst, hvalue hsecond]
  · cases h.slots d with
    | unused hlen hval =>
        refine .unused ?_ ?_
        · rwa [bestLen_place_of_ne hdc]
        · rwa [Function.update_of_ne hdc]
    | letter hlen hbest hval =>
        refine .letter ?_ ?_ ?_
        · rwa [bestLen_place_of_ne hdc]
        · rwa [best_place_of_ne hdc]
        · rwa [Function.update_of_ne hdc]
    | pair hlen hi hbest hval hearlier hearlier' =>
        refine .pair ?_ (Nat.le_of_succ_le hi) ?_ ?_ (hearlier.place hunused) (hearlier'.place hunused)
        · rwa [bestLen_place_of_ne hdc]
        · rwa [best_place_of_ne hdc]
        · rwa [Function.update_of_ne hdc, hvalue hearlier.used, hvalue hearlier'.used]

/-- One pass of `optimize_result`: the pair `t` gets the unused slot `c`. -/
theorem Coded.place (h : Coded (c.toNat + 1) os ls s val) (hnul : ∀ o ∈ os, 0 ∉ o) (hunused : s.bestLen c.toNat = 0)
    {l : List U8} (hl : l ∈ ls) (ht : t ∈ pairs l) :
    ∃ table profit, compressSymbols t c s.table s.profit = some (table, profit) ∧
      Coded c.toNat os (ls.map (replace t c)) (s.place c t table profit)
        (Function.update val c (val t.1 ++ val t.2)) ∧ table.map SymEntry.addr = s.table.map SymEntry.addr := by
  have hmem := mem_of_mem_pairs ht
  have hfirst := h.used l hl t.1 hmem.1
  have hsecond := h.used l hl t.2 hmem.2
  have hne : t.2 ≠ 0 := fun hzero => hsecond (by rw [hzero]; exact h.nul_unused hnul)
  obtain ⟨table, profit, hcompress, hholds, haddr, hcount⟩ := @compressSymbols_holds t c hne _ _ h.table s.profit
  have hvalue {a : U8} := @update_of_used s val c hunused (val t.1 ++ val t.2) a
  refine ⟨table, profit, hcompress, ⟨hholds, h.counts.compress hcount, ?_,
    h.place_slots hunused hfirst hsecond table profit, ?_, ?_⟩, haddr⟩
  · rw [List.forall₂_map_left_iff]
    refine (List.forall₂_and_left _ _).mpr ⟨h.used, h.texts⟩ |>.imp ?_
    rintro l o ⟨hl, hval, hlength⟩
    refine ⟨?_, (length_replace_le t c l).trans hlength⟩
    rw [flatMap_replace (by rw [Function.update_self, hvalue hfirst, hvalue hsecond]), ← hval]
    exact List.flatMap_congr fun a ha => hvalue (hl a ha)
  · intro l' hl' a ha
    obtain ⟨l, hl, rfl⟩ := List.mem_map.mp hl'
    rcases mem_replace ha with rfl | hmem
    · rw [bestLen_place_self]
      exact two_ne_zero
    · have hused := h.used l hl a hmem
      have hac : a ≠ c := by
        rintro rfl
        exact hused hunused
      rwa [bestLen_place_of_ne hac]
  · intro a ha
    by_cases hac : a = c
    · rw [hac, Function.update_self]
      exact h.pair_infix hl ht
    · rw [Function.update_of_ne hac] at ha ⊢
      exact h.infixes a ha

end

/-! ### The best token -/

/-- The search finds an index of the greatest profit, unless no profit is above the bound that it starts with. -/
theorem findBestToken_spec {profit : Nat → Int} (h : ∀ i < 0x10000, -10000 < profit i) :
    findBestToken profit < 0x10000 ∧ ∀ i < 0x10000, profit i ≤ profit (findBestToken profit) := by
  have hloop (n : Nat) (hn : n ≤ 0x10000) :
      let b := (List.range n).foldl (fun (b : Nat × Int) i => if profit i > b.2 then (i, profit i) else b) (0, -10000)
      (n = 0 → b.2 = -10000) ∧ (0 < n → b.1 < n ∧ b.2 = profit b.1) ∧ ∀ i < n, profit i ≤ b.2 := by
    induction n with
    | zero => exact ⟨fun _ => rfl, fun hpos => absurd hpos (Nat.lt_irrefl 0), fun i hi => absurd hi (Nat.not_lt_zero i)⟩
    | succ n ih =>
        obtain ⟨hzero, hpos, hmax⟩ := ih (Nat.le_of_succ_le hn)
        rw [List.range_succ, List.foldl_append, List.foldl_cons, List.foldl_nil]
        generalize (List.range n).foldl _ _ = b at hzero hpos hmax ⊢
        dsimp only
        by_cases hbetter : profit n > b.2
        · rw [if_pos hbetter]
          refine ⟨fun hsucc => absurd hsucc (Nat.succ_ne_zero n), fun _ => ⟨Nat.lt_succ_self n, rfl⟩, fun i hi => ?_⟩
          rcases Nat.lt_succ_iff_lt_or_eq.mp hi with hlt | rfl
          · exact (hmax i hlt).trans (Int.le_of_lt hbetter)
          · exact Int.le_refl _
        · rw [if_neg hbetter]
          have hstart : 0 < n := by
            by_contra hnot
            obtain rfl : n = 0 := by omega
            rw [hzero rfl] at hbetter
            exact hbetter (h 0 (by decide))
          obtain ⟨hless, heq⟩ := hpos hstart
          refine ⟨fun hsucc => absurd hsucc (Nat.succ_ne_zero n), fun _ => ⟨Nat.lt_succ_of_lt hless, heq⟩,
            fun i hi => ?_⟩
          rcases Nat.lt_succ_iff_lt_or_eq.mp hi with hlt | rfl
          · exact hmax i hlt
          · exact Int.not_lt.mp hbetter
  obtain ⟨-, hfound, hmax⟩ := hloop 0x10000 (Nat.le_refl _)
  obtain ⟨hless, heq⟩ := hfound (by decide)
  exact ⟨hless, fun i hi => (hmax i hi).trans_eq heq⟩

/-- The pair of an index. -/
def pairOf (best : Nat) : U8 × U8 := (BitVec.ofNat 8 (best &&& 0xff), BitVec.ofNat 8 ((best >>> 8) &&& 0xff))

theorem tokenIndex_pairOf {best : Nat} (h : best < 0x10000) : tokenIndex (pairOf best) = best := by
  have hmask (n : Nat) : n &&& 0xff = n % 256 := Nat.and_two_pow_sub_one_eq_mod n 8
  rw [tokenIndex_eq, pairOf, hmask, hmask, Nat.shiftRight_eq_div_pow, BitVec.toNat_ofNat, BitVec.toNat_ofNat]
  omega

section

variable {os : List (List U8)}

/-- The counts of the pairs decide the next token: one that occurs in a symbol, as long as any pair does. -/
theorem findBestToken_counts {profit : Nat → Int} {ls : List (List U8)} (h : Counts profit ls) :
    (profit (findBestToken profit) = 0 → ∀ l ∈ ls, pairs l = []) ∧
      (profit (findBestToken profit) ≠ 0 → ∃ l ∈ ls, pairOf (findBestToken profit) ∈ pairs l) := by
  have hcount {n : Nat} (hn : n < 0x10000) : profit n = (ls.flatMap pairs).count (pairOf n) := by
    rw [← h, tokenIndex_pairOf hn]
  have hnonneg : ∀ n < 0x10000, -10000 < profit n := by
    intro n hn
    have := hcount hn
    omega
  obtain ⟨hless, hmax⟩ := findBestToken_spec hnonneg
  constructor
  · intro hzero l hl
    rw [List.eq_nil_iff_forall_not_mem]
    intro u hu
    have hmem : u ∈ ls.flatMap pairs := List.mem_flatMap.mpr ⟨l, hl, hu⟩
    have hindex : tokenIndex u < 0x10000 := by
      rw [tokenIndex_eq]
      have := u.1.isLt
      have := u.2.isLt
      omega
    have hle := hmax _ hindex
    have hpos := List.count_pos_iff.mpr hmem
    rw [h u, hzero] at hle
    omega
  · intro hne
    rw [hcount hless] at hne
    exact List.mem_flatMap.mp (List.count_pos_iff.mp (by omega))

/-- The slots are all in use, or no symbol has a pair. -/
def Exhausted (s : Tables) (ls : List (List U8)) : Prop :=
  (∀ c : U8, s.bestLen c.toNat ≠ 0) ∨ ∀ l ∈ ls, pairs l = []

/-- `optimize_result` keeps what the symbols stand for, and goes on until nothing is left to do. -/
theorem optimizeFrom_coded (hnul : ∀ o ∈ os, 0 ∉ o) (i : Nat) (hi : i ≤ 256) {ls : List (List U8)} {s : Tables}
    {val : U8 → List U8} (h : Coded i os ls s val) (hfilled : ∀ c : U8, i ≤ c.toNat → s.bestLen c.toNat ≠ 0) :
    ∃ s' ls' val', optimizeFrom i s = some s' ∧ Coded 0 os ls' s' val' ∧ Exhausted s' ls' ∧
      s'.table.map SymEntry.addr = s.table.map SymEntry.addr := by
  induction i generalizing ls s val with
  | zero => exact ⟨s, ls, val, rfl, h, .inl fun c => hfilled c (Nat.zero_le _), rfl⟩
  | succ i ih =>
      have hslot : (BitVec.ofNat 8 i).toNat = i := by
        rw [BitVec.toNat_ofNat]
        omega
      have hother {c : U8} (hc : i ≤ c.toNat) : c = BitVec.ofNat 8 i ∨ i + 1 ≤ c.toNat := by
        rcases Nat.eq_or_lt_of_le hc with heq | hlt
        · exact .inl (BitVec.eq_of_toNat_eq (heq ▸ hslot.symm))
        · exact .inr hlt
      rw [optimizeFrom]
      by_cases hunused : s.bestLen i = 0
      · rw [if_neg (not_not.mpr hunused)]
        dsimp only
        obtain ⟨hnone, hsome⟩ := findBestToken_counts h.counts
        by_cases hzero : s.profit (findBestToken s.profit) = 0
        · rw [if_pos hzero]
          exact ⟨s, ls, val, rfl, h.mono (Nat.zero_le _), .inr (hnone hzero), rfl⟩
        · obtain ⟨l, hl, ht⟩ := hsome hzero
          obtain ⟨table, profit, hcompress, hcoded, haddr⟩ :=
            (show Coded ((BitVec.ofNat 8 i).toNat + 1) os ls s val by rwa [hslot]).place hnul (by rwa [hslot]) hl ht
          rw [hslot] at hcoded
          have hplaced : ∀ c : U8, i ≤ c.toNat →
              (s.place (BitVec.ofNat 8 i) (pairOf (findBestToken s.profit)) table profit).bestLen c.toNat ≠ 0 := by
            intro c hc
            by_cases heq : c = BitVec.ofNat 8 i
            · rw [heq, bestLen_place_self]
              exact two_ne_zero
            · rw [bestLen_place_of_ne heq]
              exact hfilled c ((hother hc).resolve_left heq)
          obtain ⟨s', ls', val', hrun, hcoded', hexhausted, haddr'⟩ := ih (Nat.le_of_succ_le hi) hcoded hplaced
          refine ⟨s', ls', val', ?_, hcoded', hexhausted, haddr'.trans haddr⟩
          rw [if_neg hzero, ← hrun, Tables.place, hslot]
          simp only [pairOf] at hcompress
          simp only [hcompress, Option.bind_eq_bind, Option.bind_some, pairOf]
      · rw [if_pos hunused]
        refine ih (Nat.le_of_succ_le hi) (h.mono (Nat.le_succ i)) fun c hc => ?_
        rcases hother hc with rfl | hlt
        · rwa [hslot]
        · exact hfilled c hlt

end

/-! ### The first tables -/

/-- The letters of a symbol get their slots. -/
theorem foldl_letters (l : List U8) (s : Tables) :
    let s' := l.foldl (fun (s : Tables) (c : U8) =>
      { s with
        best := Function.update s.best c.toNat (c, (s.best c.toNat).2)
        bestLen := Function.update s.bestLen c.toNat 1 }) s
    s'.table = s.table ∧ s'.profit = s.profit ∧
      (∀ c ∈ l, s'.bestLen c.toNat = 1 ∧ (s'.best c.toNat).1 = c) ∧
      ∀ c ∉ l, s'.bestLen c.toNat = s.bestLen c.toNat ∧ s'.best c.toNat = s.best c.toNat := by
  induction l using List.reverseRecOn with
  | nil => exact ⟨rfl, rfl, fun c hc => absurd hc List.not_mem_nil, fun c _ => ⟨rfl, rfl⟩⟩
  | append_singleton l d ih =>
      obtain ⟨htable, hprofit, hletter, hother⟩ := ih
      rw [List.foldl_append, List.foldl_cons, List.foldl_nil]
      generalize l.foldl _ s = s₁ at htable hprofit hletter hother ⊢
      dsimp only
      refine ⟨htable, hprofit, fun c hc => ?_, fun c hc => ?_⟩
      · by_cases hcd : c = d
        · rw [hcd, Function.update_self, Function.update_self]
          exact ⟨rfl, rfl⟩
        · have hne : c.toNat ≠ d.toNat := fun heq => hcd (BitVec.eq_of_toNat_eq heq)
          rw [Function.update_of_ne hne, Function.update_of_ne hne]
          exact hletter c ((List.mem_append.mp hc).resolve_right fun hmem => hcd (List.mem_singleton.mp hmem))
      · rw [List.mem_append, List.mem_singleton, not_or] at hc
        have hne : c.toNat ≠ d.toNat := fun heq => hc.2 (BitVec.eq_of_toNat_eq heq)
        rw [Function.update_of_ne hne, Function.update_of_ne hne]
        exact hother c hc.1

theorem insertRealSymbols_letters {table : List SymEntry} {os : List (List U8)} (h : List.Forall₂ Holds table os)
    (profit : Nat → Int) :
    let s := insertRealSymbolsInTable table profit
    s.table = table ∧ s.profit = profit ∧
      (∀ c, (∃ o ∈ os, c ∈ o) → s.bestLen c.toNat = 1 ∧ (s.best c.toNat).1 = c) ∧
      ∀ c, (∀ o ∈ os, c ∉ o) → s.bestLen c.toNat = 0 := by
  have hflat (table : List SymEntry) (s : Tables) :
      table.foldl (fun s e => (e.sym.take e.len).foldl (fun (s : Tables) (c : U8) =>
        { s with
          best := Function.update s.best c.toNat (c, (s.best c.toNat).2)
          bestLen := Function.update s.bestLen c.toNat 1 }) s) s =
      (table.flatMap fun e => e.sym.take e.len).foldl (fun (s : Tables) (c : U8) =>
        { s with
          best := Function.update s.best c.toNat (c, (s.best c.toNat).2)
          bestLen := Function.update s.bestLen c.toNat 1 }) s := by
    rw [List.foldl_flatMap]
  have hletters : (table.flatMap fun e => e.sym.take e.len) = os.flatten := by
    induction h with
    | nil => rfl
    | cons hfirst hrest ih => rw [List.flatMap_cons, hfirst.take, ih, List.flatten_cons]
  rw [insertRealSymbolsInTable, hflat, hletters]
  obtain ⟨htable, hprofit, hletter, hother⟩ := foldl_letters os.flatten ⟨table, profit, fun _ => (0, 0), fun _ => 0⟩
  refine ⟨htable, hprofit, fun c hc => ?_, fun c hc => ?_⟩
  · exact hletter c (List.mem_flatten.mpr hc)
  · refine (hother c fun hmem => ?_).1
    obtain ⟨o, ho, hco⟩ := List.mem_flatten.mp hmem
    exact hc o ho hco

theorem counts_learn {table : List SymEntry} {os : List (List U8)} (h : List.Forall₂ Holds table os) :
    Counts (table.foldl (fun p e => learnSymbol p e.sym e.len) fun _ => 0) os := by
  suffices hfrom : ∀ (profit : Nat → Int) (u : U8 × U8),
      table.foldl (fun p e => learnSymbol p e.sym e.len) profit (tokenIndex u) =
        profit (tokenIndex u) + (os.flatMap pairs).count u by
    intro u
    rw [hfrom, zero_add]
  induction h with
  | nil => exact fun profit u => (add_zero _).symm
  | cons hfirst hrest ih =>
      intro profit u
      rw [List.foldl_cons, ih, learnSymbol_count profit hfirst, List.flatMap_cons, List.count_append]
      push_cast
      ring

/-- Before the first token every letter of the symbols stands for itself. -/
theorem insertRealSymbols_coded {table : List SymEntry} {os : List (List U8)} (h : List.Forall₂ Holds table os)
    {profit : Nat → Int} (hcounts : Counts profit os) :
    Coded 256 os os (insertRealSymbolsInTable table profit) fun c => if ∃ o ∈ os, c ∈ o then [c] else [] := by
  obtain ⟨htable, hprofit, hletter, hother⟩ := insertRealSymbols_letters h profit
  refine ⟨htable.symm ▸ h, hprofit.symm ▸ hcounts, ?_, fun c => ?_, fun o ho c hc => ?_, fun c hc => ?_⟩
  · refine List.forall₂_same.mpr fun o ho => ⟨?_, Nat.le_refl _⟩
    have hself : o.flatMap (fun c => if ∃ o ∈ os, c ∈ o then [c] else []) = o.flatMap fun c => [c] :=
      List.flatMap_congr fun c hc => if_pos ⟨o, ho, hc⟩
    rw [hself, List.flatMap_singleton']
  · by_cases hused : ∃ o ∈ os, c ∈ o
    · exact .letter (hletter c hused).1 (hletter c hused).2 (if_pos hused)
    · refine .unused (hother c fun o ho hc => hused ⟨o, ho, hc⟩) (if_neg hused)
  · rw [(hletter c ⟨o, ho, hc⟩).1]
    exact Nat.one_ne_zero
  · by_cases hused : ∃ o ∈ os, c ∈ o
    · obtain ⟨o, ho, hco⟩ := hused
      refine ⟨o, ho, ?_⟩
      rw [if_pos ⟨o, ho, hco⟩]
      obtain ⟨before, after, rfl⟩ := List.append_of_mem hco
      exact ⟨before, after, by rw [List.append_assoc, List.singleton_append]⟩
    · exact absurd (if_neg hused) hc

/-! ### The texts of the tokens -/

section

variable {os ls : List (List U8)} {s : Tables} {val : U8 → List U8}

theorem mapM_eq_some {α β : Type} {f : α → Option β} {g : α → β} {l : List α} (h : ∀ a ∈ l, f a = some (g a)) :
    l.mapM f = some (l.map g) := by
  induction l with
  | nil => rfl
  | cons a l ih =>
      obtain ⟨ha, hrest⟩ := List.forall_mem_cons.mp h
      rw [List.mapM_cons, ha, ih hrest]
      rfl

/-- The recursion of `expand_symbol` ends, as the slots of a pair are above its own. -/
theorem Coded.expandText (h : Coded 0 os ls s val) (depth : Nat) (hdepth : 0 < depth) {data : List U8}
    (hused : ∀ c ∈ data, s.bestLen c.toNat ≠ 0)
    (hdeep : ∀ c ∈ data, s.bestLen c.toNat = 2 → 256 - c.toNat < depth) :
    expandText s depth data = some (data.flatMap val) := by
  induction depth generalizing data with
  | zero => exact absurd hdepth (Nat.lt_irrefl 0)
  | succ depth ih =>
      rw [Script.expandText, mapM_eq_some (g := val) fun c hc => ?_]
      · rfl
      · cases h.slots c with
        | unused hlen hval => exact absurd hlen (hused c hc)
        | letter hlen hbest hval => rw [if_pos ⟨hbest, hlen⟩, hval]
        | @pair t hlen hi hbest hval hfirst hsecond =>
            have hless := hdeep c hc hlen
            have hpart : ∀ a ∈ [t.1, t.2], Earlier s c a := by
              intro a ha
              rw [List.mem_cons, List.mem_singleton] at ha
              rcases ha with rfl | rfl
              · exact hfirst
              · exact hsecond
            have hexpand := @ih (by have := c.isLt; omega) [t.1, t.2] (fun a ha => (hpart a ha).used) fun a ha htwo => by
              rcases hpart a ha with hone | ⟨-, habove⟩
              · omega
              · have := a.isLt
                omega
            rw [if_neg (by omega), hlen, hbest]
            rw [List.flatMap_cons, List.flatMap_singleton, ← hval] at hexpand
            exact hexpand

/-- A token expands to the text that its slot stands for. -/
theorem Coded.expandSlot (h : Coded 0 os ls s val) (c : U8) :
    Script.expandText s 257 ([(s.best c.toNat).1, (s.best c.toNat).2].take (s.bestLen c.toNat)) = some (val c) := by
  cases h.slots c with
  | unused hlen hval =>
      rw [hlen, hval]
      rfl
  | letter hlen hbest hval =>
      have hself : ∀ a ∈ [c], s.bestLen a.toNat ≠ 0 := by simp [hlen]
      have hexpand := h.expandText 257 (by decide) hself fun a _ _ => by omega
      rw [List.flatMap_singleton] at hexpand
      rw [hlen, hbest]
      exact hexpand
  | @pair t hlen hi hbest hval hfirst hsecond =>
      have hpart : ∀ a ∈ [t.1, t.2], s.bestLen a.toNat ≠ 0 := by
        intro a ha
        rw [List.mem_cons, List.mem_singleton] at ha
        rcases ha with rfl | rfl
        · exact hfirst.used
        · exact hsecond.used
      have hexpand := h.expandText 257 (by decide) hpart fun a _ _ => by omega
      rw [List.flatMap_cons, List.flatMap_singleton, ← hval] at hexpand
      rw [hlen, hbest]
      exact hexpand

/-- Each compressed symbol expands to the symbol. -/
theorem Coded.expandSymbols (h : Coded 0 os ls s val) :
    List.Forall₂ (fun e o => Script.expandText s 257 (e.sym.take e.len) = some o) s.table os := by
  refine List.forall₂_iff_get.mpr ⟨h.table.length_eq.trans h.texts.length_eq, fun k hk hko => ?_⟩
  have hkl : k < ls.length := h.table.length_eq ▸ hk
  have htake := ((List.forall₂_iff_get.mp h.table).2 k hk hkl).take
  have htext := ((List.forall₂_iff_get.mp h.texts).2 k hkl hko).1
  rw [htake, ← htext]
  exact h.expandText 257 (by decide) (h.used _ (List.get_mem _ _)) fun c _ _ => by omega

end

end XosKernel.Kallsyms.Script
