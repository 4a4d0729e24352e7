import XosKernel.KallsymsScript
import Mathlib.Tactic.Ring

/-! `compress_symbols` replaces a pair in the block of a symbol where it stands. `size` counts one octet more for each
pair that was replaced; these octets are NULs, so the search behind the symbol finds nothing there. What is left in the
block is the symbol with every occurrence of the pair replaced, and the counts of the pairs are those of the symbols. -/

namespace XosKernel.Kallsyms.Script

open PairCode

/-- The block of a symbol: its octets and NULs. -/
structure Holds (e : SymEntry) (l : List U8) : Prop where
  len : e.len = l.length
  block : ∃ m, e.sym = l ++ List.replicate (m + 1) 0

theorem Holds.take {e : SymEntry} {l : List U8} (h : Holds e l) : e.sym.take e.len = l := by
  obtain ⟨m, hm⟩ := h.block
  rw [h.len, hm, List.take_left]

/-! ### Blocks of memory -/

theorem set_middle (before : List U8) (a c : U8) (after : List U8) :
    (before ++ a :: after).set before.length c = before ++ c :: after := by
  rw [List.set_append_right _ _ (Nat.le_refl _), Nat.sub_self, List.set_cons_zero]

/-- The octet at `before.length` is taken out, and the `n + 1` octets behind `after` stay NULs. -/
theorem memmove_middle (before : List U8) (b : U8) (after : List U8) {n m : Nat} (hn : n ≤ m) :
    memmove (before ++ b :: (after ++ List.replicate (m + 1) 0)) before.length (before.length + 1)
      (after.length + (n + 1)) = some (before ++ after ++ List.replicate (m + 2) 0) := by
  have hlength : (before ++ b :: (after ++ List.replicate (m + 1) 0)).length =
      before.length + (after.length + (m + 1) + 1) := by
    rw [List.length_append, List.length_cons, List.length_append, List.length_replicate]
  have hsource : ((before ++ b :: (after ++ List.replicate (m + 1) (0 : U8))).drop (before.length + 1)).take
      (after.length + (n + 1)) = after ++ List.replicate (n + 1) 0 := by
    rw [← List.drop_drop, List.drop_left, List.drop_one, List.tail_cons, List.take_length_add_append,
      List.take_replicate, Nat.min_eq_left (by omega)]
  have hbehind : (before ++ b :: (after ++ List.replicate (m + 1) (0 : U8))).drop
      (before.length + (after.length + (n + 1))) = List.replicate (m + 1 - n) 0 := by
    rw [← List.drop_drop, List.drop_left, ← Nat.add_assoc, List.drop_succ_cons, List.drop_length_add_append,
      List.drop_replicate]
  rw [memmove, if_neg (by omega), List.take_left, hsource, hbehind, Option.some.injEq, List.append_assoc,
    List.append_assoc, List.append_assoc, List.replicate_append_replicate]
  congr 3
  omega

theorem findToken_eq (before l : List U8) {n m : Nat} (hn : n ≤ m) {str : U8 × U8} (hstr : str.2 ≠ 0) :
    findToken (before ++ l ++ List.replicate (m + 1) 0) before.length (l.length + n) str =
      some ((find str l).map (before.length + ·)) := by
  have hlength : (before ++ l ++ List.replicate (m + 1) (0 : U8)).length = before.length + l.length + (m + 1) := by
    rw [List.length_append, List.length_append, List.length_replicate]
  have hregion : ((before ++ l ++ List.replicate (m + 1) (0 : U8)).drop before.length).take (l.length + n) =
      l ++ List.replicate n 0 := by
    rw [List.append_assoc, List.drop_left, List.take_length_add_append, List.take_replicate,
      Nat.min_eq_left (by omega)]
  rw [findToken, if_neg (by omega), hregion, find_append_replicate hstr]

/-! ### The loop over the occurrences -/

section

variable {str : U8 × U8} {idx : U8}

/-- The loop from a place where the pair stands: `before` is done, `l` is left and `n` pairs were replaced. -/
theorem run_compressPass (hstr : str.2 ≠ 0) (fuel : Nat) (before l : List U8) {k n m : Nat} (hfuel : l.length < fuel)
    (hn : n ≤ m) (hfind : find str l = some k) :
    ∃ m', Loop.run (compressPass str idx) fuel
      { sym := before ++ l ++ List.replicate (m + 1) 0, p1 := before.length, p2 := before.length + k,
        len := before.length + l.length, size := l.length + n } =
      some (some (before ++ replace str idx l ++ List.replicate (m' + 1) 0, (before ++ replace str idx l).length)) := by
  induction fuel generalizing before l k n m with
  | zero => exact absurd hfuel (Nat.not_lt_zero _)
  | succ fuel ih =>
      obtain ⟨first, after, hl, hfirst, hreplace⟩ := find_some hfind idx
      have hlength : l.length = k + (after.length + 2) := by
        rw [hl, List.length_append, hfirst]
        rfl
      have hset : (before ++ l ++ List.replicate (m + 1) 0).set (before.length + k) idx =
          (before ++ first ++ [idx]) ++ str.2 :: (after ++ List.replicate (m + 1) 0) := by
        have hplace : before.length + k = (before ++ first).length := by rw [List.length_append, hfirst]
        have hsplit : before ++ l ++ List.replicate (m + 1) 0 =
            (before ++ first) ++ str.1 :: (str.2 :: (after ++ List.replicate (m + 1) 0)) := by
          rw [hl]
          simp
        rw [hplace, hsplit, set_middle]
        simp
      have hp2 : before.length + k + 1 = (before ++ first ++ [idx]).length := by
        rw [List.length_append, List.length_append, hfirst, List.length_singleton]
      have hsize : l.length + n - (before.length + k + 1 - before.length) = after.length + (n + 1) := by omega
      have hlen : before.length + l.length - 1 = (before ++ first ++ [idx]).length + after.length := by
        rw [← hp2]
        omega
      have hbody : compressPass str idx
          { sym := before ++ l ++ List.replicate (m + 1) 0, p1 := before.length, p2 := before.length + k,
            len := before.length + l.length, size := l.length + n } =
          if after.length + (n + 1) < 2 then
            .done (some (before ++ first ++ [idx] ++ after ++ List.replicate (m + 2) 0,
              (before ++ first ++ [idx]).length + after.length))
          else
            match (find str after).map ((before ++ first ++ [idx]).length + ·) with
            | none =>
                .done (some (before ++ first ++ [idx] ++ after ++ List.replicate (m + 2) 0,
                  (before ++ first ++ [idx]).length + after.length))
            | some p2 =>
                .next
                  { sym := before ++ first ++ [idx] ++ after ++ List.replicate (m + 2) 0,
                    p1 := (before ++ first ++ [idx]).length, p2 := p2,
                    len := (before ++ first ++ [idx]).length + after.length, size := after.length + (n + 1) } := by
        unfold compressPass
        dsimp only
        rw [hset, hsize, hp2, hlen, memmove_middle _ _ _ hn]
        dsimp only
        rw [findToken_eq _ _ (Nat.succ_le_succ hn) hstr]
        cases (find str after).map ((before ++ first ++ [idx]).length + ·) with
        | none => rfl
        | some p2 => rfl
      have htext : before ++ replace str idx l = before ++ first ++ [idx] ++ replace str idx after := by
        rw [hreplace]
        simp
      rw [htext]
      have hstop (hnone : find str after = none) :
          replace str idx after = after := replace_of_find_none hnone
      by_cases hshort : after.length + (n + 1) < 2
      · rw [if_pos hshort] at hbody
        have hnil : after = [] := List.length_eq_zero_iff.mp (by omega)
        rw [Loop.run_succ_done hbody, hnil]
        exact ⟨m + 1, by simp [replace]⟩
      · rw [if_neg hshort] at hbody
        cases hnext : find str after with
        | none =>
            rw [hnext] at hbody
            rw [Loop.run_succ_done hbody, hstop hnext, ← List.length_append]
            exact ⟨m + 1, rfl⟩
        | some j =>
            rw [hnext] at hbody
            rw [Loop.run_succ_next hbody]
            exact ih (before ++ first ++ [idx]) after (by omega) (Nat.succ_le_succ hn) hnext

/-! ### Counting pairs -/

theorem tokenIndex_eq (t : U8 × U8) : tokenIndex t = t.1.toNat + 256 * t.2.toNat := by
  rw [tokenIndex, Nat.shiftLeft_eq, Nat.mul_comm]

theorem tokenIndex_injective : Function.Injective tokenIndex := by
  intro t u h
  rw [tokenIndex_eq, tokenIndex_eq] at h
  have := t.1.isLt
  have := u.1.isLt
  exact Prod.ext (BitVec.eq_of_toNat_eq (by omega)) (BitVec.eq_of_toNat_eq (by omega))

/-- Every pair of a list changes its count by `d`. -/
theorem foldl_update_count (d : Int) (ts : List (U8 × U8)) (profit : Nat → Int) (u : U8 × U8) :
    ts.foldl (fun p t => Function.update p (tokenIndex t) (p (tokenIndex t) + d)) profit (tokenIndex u) =
      profit (tokenIndex u) + d * ts.count u := by
  induction ts generalizing profit with
  | nil => simp
  | cons t ts ih =>
      rw [List.foldl_cons, ih, List.count_cons]
      by_cases htu : t = u
      · subst htu
        rw [Function.update_self, if_pos (beq_self_eq_true t)]
        push_cast
        ring
      · rw [Function.update_of_ne fun h => htu (tokenIndex_injective h).symm, if_neg (by simpa using htu), Nat.add_zero]

theorem learnSymbol_count (profit : Nat → Int) {e : SymEntry} {l : List U8} (h : Holds e l) (u : U8 × U8) :
    learnSymbol profit e.sym e.len (tokenIndex u) = profit (tokenIndex u) + (pairs l).count u := by
  rw [learnSymbol, h.take, foldl_update_count, one_mul]

theorem forgetSymbol_count (profit : Nat → Int) {e : SymEntry} {l : List U8} (h : Holds e l) (u : U8 × U8) :
    forgetSymbol profit e.sym e.len (tokenIndex u) = profit (tokenIndex u) - (pairs l).count u := by
  rw [forgetSymbol, h.take]
  simp only [sub_eq_add_neg]
  rw [foldl_update_count, neg_one_mul]

/-! ### Compressing symbols -/

/-- The counts are those of the pairs in the texts `ls`. -/
def Counts (profit : Nat → Int) (ls : List (List U8)) : Prop :=
  ∀ u, profit (tokenIndex u) = (ls.flatMap pairs).count u

/-- The pair is replaced in one symbol, and its counts are taken back and made anew. -/
theorem compressSymbol_holds (hstr : str.2 ≠ 0) {e : SymEntry} {l : List U8} (h : Holds e l) (profit : Nat → Int) :
    ∃ e' profit', compressSymbol str idx e profit = some (e', profit') ∧ Holds e' (replace str idx l) ∧
      e'.addr = e.addr ∧ ∀ u, profit' (tokenIndex u) + (pairs l).count u =
        profit (tokenIndex u) + (pairs (replace str idx l)).count u := by
  obtain ⟨m, hblock⟩ := h.block
  have hfind : findToken e.sym 0 e.len str = some ((find str l).map (0 + ·)) := by
    have hfind := findToken_eq [] l (Nat.zero_le m) hstr
    rwa [List.nil_append, ← hblock, Nat.add_zero, ← h.len] at hfind
  cases hplace : find str l with
  | none =>
      rw [hplace, Option.map_none] at hfind
      refine ⟨e, profit, ?_, ?_, rfl, fun u => ?_⟩
      · rw [compressSymbol, hfind]
      · rwa [replace_of_find_none hplace]
      · rw [replace_of_find_none hplace]
  | some k =>
      rw [hplace, Option.map_some, Nat.zero_add] at hfind
      obtain ⟨m', hrun⟩ := @run_compressPass str idx hstr (e.len + 1) [] l _ _ _
        (h.len ▸ Nat.lt_succ_self _) (Nat.zero_le m) hplace
      simp only [List.nil_append, List.length_nil, Nat.zero_add, Nat.add_zero, ← hblock, ← h.len] at hrun
      let e' : SymEntry :=
        ⟨e.addr, (replace str idx l).length, e.startPos, replace str idx l ++ List.replicate (m' + 1) 0⟩
      have hholds : Holds e' (replace str idx l) := ⟨rfl, m', rfl⟩
      refine ⟨e', learnSymbol (forgetSymbol profit e.sym e.len) e'.sym e'.len, ?_, hholds, rfl, fun u => ?_⟩
      · rw [compressSymbol, hfind]
        simp only [hrun, Option.join_some, Option.bind_eq_bind, Option.bind_some]
        rfl
      · rw [learnSymbol_count _ hholds, forgetSymbol_count _ h]
        ring

/-- The pair is replaced in all symbols. -/
theorem compressSymbols_holds (hstr : str.2 ≠ 0) {table : List SymEntry} {ls : List (List U8)}
    (h : List.Forall₂ Holds table ls) (profit : Nat → Int) :
    ∃ table' profit', compressSymbols str idx table profit = some (table', profit') ∧
      List.Forall₂ Holds table' (ls.map (replace str idx)) ∧ table'.map SymEntry.addr = table.map SymEntry.addr ∧
      ∀ u, profit' (tokenIndex u) + (ls.flatMap pairs).count u =
        profit (tokenIndex u) + ((ls.map (replace str idx)).flatMap pairs).count u := by
  induction h generalizing profit with
  | nil => exact ⟨[], profit, rfl, .nil, rfl, fun u => rfl⟩
  | cons hfirst hrest ih =>
      obtain ⟨e', profit₁, hsymbol, hholds, haddr, hcount⟩ := @compressSymbol_holds str idx hstr _ _ hfirst profit
      obtain ⟨table', profit₂, hsymbols, hholdsRest, haddrRest, hcountRest⟩ := ih profit₁
      refine ⟨e' :: table', profit₂, ?_, .cons hholds hholdsRest, ?_, fun u => ?_⟩
      · rw [compressSymbols, hsymbol]
        simp only [Option.bind_eq_bind, Option.bind_some, hsymbols]
        rfl
      · rw [List.map_cons, List.map_cons, haddr, haddrRest]
      · have hone := hcount u
        have hmore := hcountRest u
        rw [List.flatMap_cons, List.count_append, List.map_cons, List.flatMap_cons, List.count_append]
        push_cast
        omega

theorem Counts.compress {profit profit' : Nat → Int} {ls ls' : List (List U8)} (h : Counts profit ls)
    (hcount : ∀ u, profit' (tokenIndex u) + (ls.flatMap pairs).count u =
      profit (tokenIndex u) + (ls'.flatMap pairs).count u) : Counts profit' ls' := by
  intro u
  have hthis := hcount u
  rw [h u] at hthis
  omega

end

end XosKernel.Kallsyms.Script
