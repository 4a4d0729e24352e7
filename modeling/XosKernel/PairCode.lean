import Mathlib.Data.List.Infix
import Mathlib.Tactic.Common

/-! Lists in which a pair of neighbours is replaced by one new letter, again and again. A letter has a value, the text
that it stands for; when the value of the new letter is that of the pair, the list keeps its text. -/

namespace XosKernel.PairCode

variable {α β : Type*}

/-- The pairs of neighbours. -/
def pairs : List α → List (α × α)
  | a :: b :: l => (a, b) :: pairs (b :: l)
  | _ => []

section

variable [DecidableEq α] {t : α × α} {c : α}

/-- The place of the first occurrence of the pair `t`. -/
def find (t : α × α) : List α → Option Nat
  | a :: b :: l => if (a, b) = t then some 0 else (find t (b :: l)).map (· + 1)
  | _ => none

/-- All occurrences of the pair `t`, each behind the one before, are replaced by `c`. -/
def replace (t : α × α) (c : α) : List α → List α
  | a :: b :: l => if (a, b) = t then c :: replace t c l else a :: replace t c (b :: l)
  | l => l

example : replace (1, 1) 7 [1, 1, 1, 2, 1, 1] = [7, 1, 2, 7] := by decide

/-! ### Searching -/

/-- Nothing is replaced in a list without the pair. -/
theorem replace_of_find_none {l : List α} (h : find t l = none) : replace t c l = l := by
  induction l with
  | nil => rfl
  | cons a l ih =>
      cases l with
      | nil => rfl
      | cons b l =>
          by_cases hpair : (a, b) = t
          · simp [find, hpair] at h
          · rw [find, if_neg hpair, Option.map_eq_none_iff] at h
            rw [replace, if_neg hpair, ih h]

/-- The first occurrence, and what is replaced behind it. -/
theorem find_some {l : List α} {k : Nat} (h : find t l = some k) (c : α) :
    ∃ before after, l = before ++ t.1 :: t.2 :: after ∧ before.length = k ∧
      replace t c l = before ++ c :: replace t c after := by
  induction l generalizing k with
  | nil => simp [find] at h
  | cons a l ih =>
      cases l with
      | nil => simp [find] at h
      | cons b l =>
          by_cases hpair : (a, b) = t
          · subst hpair
            obtain rfl : 0 = k := by simpa [find] using h
            exact ⟨[], l, rfl, rfl, by rw [replace, if_pos rfl, List.nil_append]⟩
          · rw [find, if_neg hpair, Option.map_eq_some_iff] at h
            obtain ⟨j, hj, rfl⟩ := h
            obtain ⟨before, after, hl, hlength, hreplace⟩ := ih hj
            refine ⟨a :: before, after, ?_, ?_, ?_⟩
            · rw [hl, List.cons_append]
            · rw [List.length_cons, hlength]
            · rw [replace, if_neg hpair, hreplace, List.cons_append]

/-- Letters that do not end the pair hold no occurrence. -/
theorem find_append_replicate {z : α} (hz : t.2 ≠ z) (l : List α) (n : Nat) :
    find t (l ++ List.replicate n z) = find t l := by
  have hpair (a : α) : (a, z) ≠ t := fun h => hz (congrArg Prod.snd h).symm
  have hzeros (m : Nat) : find t (List.replicate m z) = none := by
    induction m with
    | zero => rfl
    | succ m ih =>
        cases m with
        | zero => rfl
        | succ m =>
            rw [List.replicate_succ, List.replicate_succ, find, if_neg (hpair z), ← List.replicate_succ, ih]
            rfl
  induction l with
  | nil => simpa [find] using hzeros n
  | cons a l ih =>
      cases l with
      | nil =>
          cases n with
          | zero => rfl
          | succ n =>
              rw [List.singleton_append, List.replicate_succ, find, if_neg (hpair a), ← List.replicate_succ, hzeros]
              rfl
      | cons b l =>
          rw [List.cons_append] at ih
          rw [List.cons_append, List.cons_append, find, find, ih]

/-! ### Replacing -/

/-- The text is kept when the value of the new letter is that of the pair. -/
theorem flatMap_replace {f : α → List β} (hf : f c = f t.1 ++ f t.2) (l : List α) :
    (replace t c l).flatMap f = l.flatMap f := by
  induction l using replace.induct t with
  | case1 a b l hpair ih =>
      subst hpair
      rw [replace, if_pos rfl, List.flatMap_cons, ih, hf, List.flatMap_cons, List.flatMap_cons, List.append_assoc]
  | case2 a b l hpair ih => rw [replace, if_neg hpair, List.flatMap_cons, ih, ← List.flatMap_cons]
  | case3 l hshort =>
      cases l with
      | nil => rfl
      | cons a l =>
          cases l with
          | nil => rfl
          | cons b l => exact absurd rfl (hshort a b l)

theorem mem_replace {x : α} {l : List α} (h : x ∈ replace t c l) : x = c ∨ x ∈ l := by
  induction l using replace.induct t with
  | case1 a b l hpair ih =>
      rw [replace, if_pos hpair] at h
      rcases List.mem_cons.mp h with rfl | hrest
      · exact .inl rfl
      · exact (ih hrest).imp_right fun hx => List.mem_cons_of_mem _ (List.mem_cons_of_mem _ hx)
  | case2 a b l hpair ih =>
      rw [replace, if_neg hpair] at h
      rcases List.mem_cons.mp h with rfl | hrest
      · exact .inr List.mem_cons_self
      · exact (ih hrest).imp_right fun hx => List.mem_cons_of_mem _ hx
  | case3 l hshort =>
      rw [replace] at h
      · exact .inr h
      · exact hshort

theorem length_replace_le (t : α × α) (c : α) (l : List α) : (replace t c l).length ≤ l.length := by
  induction l using replace.induct t with
  | case1 a b l hpair ih =>
      rw [replace, if_pos hpair]
      simp only [List.length_cons]
      omega
  | case2 a b l hpair ih =>
      rw [replace, if_neg hpair, List.length_cons, List.length_cons]
      exact Nat.succ_le_succ ih
  | case3 l hshort =>
      rw [replace]
      exact hshort

end

/-- A pair is a part of the list. -/
theorem mem_pairs {t : α × α} {l : List α} (h : t ∈ pairs l) : [t.1, t.2] <:+: l := by
  induction l with
  | nil => cases h
  | cons a l ih =>
      cases l with
      | nil => cases h
      | cons b l =>
          rw [pairs] at h
          rcases List.mem_cons.mp h with rfl | hrest
          · exact ⟨[], l, rfl⟩
          · exact (ih hrest).trans (List.infix_cons (List.infix_refl _))

theorem length_le_one_of_pairs {l : List α} (h : pairs l = []) : l.length ≤ 1 := by
  match l with
  | [] => exact Nat.zero_le _
  | [_] => exact Nat.le_refl _
  | _ :: _ :: _ => cases h

theorem mem_of_mem_pairs {t : α × α} {l : List α} (h : t ∈ pairs l) : t.1 ∈ l ∧ t.2 ∈ l :=
  ⟨(mem_pairs h).subset List.mem_cons_self, (mem_pairs h).subset (List.mem_cons_of_mem _ List.mem_cons_self)⟩

end XosKernel.PairCode
