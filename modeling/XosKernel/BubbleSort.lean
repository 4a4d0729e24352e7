import XosKernel.LoopRules
import Mathlib.Data.List.Perm.Basic

/-! Bubble sort as C programs write it: rounds of compare-and-swap over neighbours until a round swaps
nothing. The comparison is any test `swap current last` that is the strict part of a total preorder. Every
round that swaps removes an inversion, so the sort ends after at most as many rounds as there are
inversions, and one more. -/

namespace XosKernel.BubbleSort

variable {α : Type} (swap : α → α → Bool)

/-- The rest of a round, with `last` in front of the elements that are still to be compared. The result
says whether a swap was made. -/
def roundFrom (last : α) : List α → Bool × List α
  | [] => (false, [last])
  | current :: rest =>
      if swap current last then (true, current :: (roundFrom last rest).2)
      else ((roundFrom current rest).1, last :: (roundFrom current rest).2)

def round : List α → Bool × List α
  | [] => (false, [])
  | a :: rest => roundFrom swap a rest

/-- One pass of the outer loop: a round, and another one when something was swapped. -/
def pass (l : List α) : Loop.Pass (List α) (List α) :=
  if (round swap l).1 then .next (round swap l).2 else .done (round swap l).2

/-- Rounds until nothing is swapped, at most `fuel` many. -/
def sort (fuel : Nat) (l : List α) : Option (List α) := Loop.run (pass swap) fuel l

/-- The pairs that are out of order. -/
def inversions : List α → Nat
  | [] => 0
  | a :: l => l.countP (swap · a) + inversions l

variable {swap}

theorem roundFrom_perm (a : α) (l : List α) : (roundFrom swap a l).2.Perm (a :: l) := by
  induction l generalizing a with
  | nil => exact .refl _
  | cons b l ih =>
      rw [roundFrom]
      split
      · exact ((ih a).cons b).trans (.swap a b l)
      · exact (ih b).cons a

theorem round_perm (l : List α) : (round swap l).2.Perm l := by
  cases l with
  | nil => exact .refl _
  | cons a l => exact roundFrom_perm a l

/-- A round that swaps nothing leaves the list, whose neighbours are in order. -/
theorem roundFrom_unchanged {a : α} {l : List α} (h : (roundFrom swap a l).1 = false) :
    (roundFrom swap a l).2 = a :: l ∧ (a :: l).IsChain fun a b => swap b a = false := by
  induction l generalizing a with
  | nil => exact ⟨rfl, .singleton a⟩
  | cons b l ih =>
      rw [roundFrom] at h ⊢
      split at h
      · cases h
      rename_i hswap
      obtain ⟨hlist, hchain⟩ := ih h
      rw [if_neg hswap, hlist]
      exact ⟨rfl, .cons_cons (by simpa using hswap) hchain⟩

section

variable (hasymm : ∀ a b, swap a b = true → swap b a = false)

include hasymm

/-- A round that swaps removes an inversion. -/
theorem roundFrom_inversions (a : α) (l : List α) :
    inversions swap (roundFrom swap a l).2 + (roundFrom swap a l).1.toNat ≤ inversions swap (a :: l) := by
  induction l generalizing a with
  | nil => exact Nat.le_refl _
  | cons b l ih =>
      rw [roundFrom]
      split
      · rename_i hswap
        have hback := hasymm _ _ hswap
        have hcount := (@roundFrom_perm _ swap a l).countP_eq (swap · b)
        have hrest := ih a
        simp only [inversions, List.countP_cons, hswap, hback, hcount, Bool.toNat_true] at hrest ⊢
        simp only [if_true, Bool.false_eq_true, if_false]
        omega
      · rename_i hswap
        have hcount := (@roundFrom_perm _ swap b l).countP_eq (swap · a)
        have hrest := ih b
        simp only [inversions, hcount] at hrest ⊢
        omega

theorem round_inversions (l : List α) :
    inversions swap (round swap l).2 + (round swap l).1.toNat ≤ inversions swap l := by
  cases l with
  | nil => exact Nat.le_refl _
  | cons a l => exact roundFrom_inversions hasymm a l

omit hasymm in
theorem inversions_le (l : List α) : inversions swap l ≤ l.length * l.length := by
  induction l with
  | nil => exact Nat.le_refl _
  | cons a l ih =>
      have hcount := List.countP_le_length (p := (swap · a)) (l := l)
      rw [inversions, List.length_cons, Nat.succ_mul, Nat.mul_succ]
      omega

/-- **Bubble sort** ends, and its result is the sorted list. -/
theorem sort_sorted (htrans : ∀ a b c, swap b a = false → swap c b = false → swap c a = false) {fuel : Nat}
    {l : List α} (hfuel : inversions swap l < fuel) :
    ∃ r, sort swap fuel l = some r ∧ r.Perm l ∧ r.Pairwise fun a b => swap b a = false := by
  induction fuel generalizing l with
  | zero => omega
  | succ fuel ih =>
      have hperm := @round_perm _ swap l
      have hless := round_inversions hasymm l
      cases hround : (round swap l).1 with
      | true =>
          rw [hround, Bool.toNat_true] at hless
          obtain ⟨r, hr, hrperm, hsorted⟩ := @ih (round swap l).2 (by omega)
          have hpass : pass swap l = .next (round swap l).2 := by rw [pass, if_pos hround]
          exact ⟨r, (Loop.run_succ_next hpass fuel).trans hr, hrperm.trans hperm, hsorted⟩
      | false =>
          have hpass : pass swap l = .done (round swap l).2 := by rw [pass, if_neg (by rw [hround]; decide)]
          refine ⟨_, Loop.run_succ_done hpass fuel, hperm, ?_⟩
          have : IsTrans α fun a b => swap b a = false := ⟨fun a b c => htrans a b c⟩
          cases l with
          | nil => exact .nil
          | cons a l =>
              obtain ⟨hlist, hchain⟩ := roundFrom_unchanged (show (roundFrom swap a l).1 = false from hround)
              rw [round, hlist]
              exact List.isChain_iff_pairwise.mp hchain

end

/-! ### The sort in place -/

/-- The body of `for (i = 1; i < nr; i++)`, with `k` for `i - 1`: the two neighbours are swapped where they stand. -/
def swapAt (swap : α → α → Bool) (k : Nat) (s : Bool × List α) : Bool × List α :=
  match s.2[k + 1]?, s.2[k]? with
  | some current, some last =>
      if swap current last then (true, (s.2.set (k + 1) last).set k current) else s
  | _, _ => s

/-- A round over the places of the list. -/
def roundInPlace (swap : α → α → Bool) (l : List α) : Bool × List α :=
  Loop.forUp (swapAt swap) (l.length - 1) (false, l)

def passInPlace (swap : α → α → Bool) (l : List α) : Loop.Pass (List α) (List α) :=
  if (roundInPlace swap l).1 then .next (roundInPlace swap l).2 else .done (roundInPlace swap l).2

/-- The loop that starts another round as long as something was swapped. -/
def sortInPlace (swap : α → α → Bool) (fuel : Nat) (l : List α) : Option (List α) :=
  Loop.run (passInPlace swap) fuel l

theorem swapAt_append (front : List α) (last current : α) (rest : List α) (changing : Bool) :
    swapAt swap front.length (changing, front ++ last :: current :: rest) =
      if swap current last then (true, front ++ current :: last :: rest)
      else (changing, front ++ last :: current :: rest) := by
  have hcurrent : (front ++ last :: current :: rest)[front.length + 1]? = some current := by
    rw [List.getElem?_append_right (Nat.le_add_right _ _), Nat.add_sub_cancel_left]
    rfl
  have hlast : (front ++ last :: current :: rest)[front.length]? = some last := by
    rw [List.getElem?_append_right (Nat.le_refl _), Nat.sub_self]
    rfl
  have hset : ((front ++ last :: current :: rest).set (front.length + 1) last).set front.length current =
      front ++ current :: last :: rest := by
    rw [List.set_append_right _ _ (Nat.le_add_right _ _), List.set_append_right _ _ (Nat.le_refl _),
      Nat.add_sub_cancel_left, Nat.sub_self]
    rfl
  simp only [swapAt, hcurrent, hlast, hset]

/-- What the passes of a round keep: the rest of the round, from the element that is now the last one, gives the
result of the whole round. -/
def RoundInv (swap : α → α → Bool) (l : List α) (k : Nat) (s : Bool × List α) : Prop :=
  ∃ front last rest, front.length = k ∧ front.length + rest.length + 1 = l.length ∧ s.2 = front ++ last :: rest ∧
    round swap l = (s.1 || (roundFrom swap last rest).1, front ++ (roundFrom swap last rest).2)

theorem swapAt_roundInv {l : List α} {k : Nat} {s : Bool × List α} (hk : k < l.length - 1)
    (hs : RoundInv swap l k s) : RoundInv swap l (k + 1) (swapAt swap k s) := by
  obtain ⟨front, last, rest, rfl, hlength, hlist, hround⟩ := hs
  obtain ⟨changing, t⟩ := s
  subst hlist
  cases rest with
  | nil =>
      rw [List.length_nil] at hlength
      omega
  | cons current rest =>
      rw [List.length_cons] at hlength
      rw [swapAt_append]
      by_cases hswap : swap current last = true
      · refine ⟨front ++ [current], last, rest, List.length_append, by simp; omega, by simp [hswap], ?_⟩
        rw [hround, roundFrom, if_pos hswap, if_pos hswap]
        simp
      · refine ⟨front ++ [last], current, rest, List.length_append, by simp; omega, by simp [hswap], ?_⟩
        rw [hround, roundFrom, if_neg hswap, if_neg hswap]
        simp

theorem roundInPlace_eq (l : List α) : roundInPlace swap l = round swap l := by
  cases l with
  | nil => exact Loop.forUp_zero _ _
  | cons a l =>
      have hinv : RoundInv swap (a :: l) l.length (roundInPlace swap (a :: l)) := by
        refine Loop.forUp_inv (RoundInv swap (a :: l)) ⟨[], a, l, rfl, by simp, rfl, ?_⟩ ?_
        · rw [round, Bool.false_or, List.nil_append]
        · exact fun k s hk hs => swapAt_roundInv hk hs
      obtain ⟨front, last, rest, hfront, hlength, hlist, hround⟩ := hinv
      have hrest : rest = [] := List.eq_nil_of_length_eq_zero (by rw [List.length_cons] at hlength; omega)
      subst hrest
      rw [hround, roundFrom, Bool.or_false, ← hlist]

/-- The sort in place is the sort of the list. -/
theorem sortInPlace_eq (fuel : Nat) (l : List α) : sortInPlace swap fuel l = sort swap fuel l := by
  have hpass : passInPlace swap = pass swap := by
    funext t
    rw [passInPlace, roundInPlace_eq, pass]
  rw [sortInPlace, hpass, sort]

end XosKernel.BubbleSort
