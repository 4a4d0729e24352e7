import Mathlib.Data.List.Nodup
import Mathlib.Logic.Function.Basic

/-! Chains of nodes behind a head with one pointer. Every node points at the next one, and back at the place where the pointer
at it is stored, which is the head or the node before. So a node is taken out, or put in, without a look at where in the
chain it is. -/

namespace XosKernel.SlotChain

variable {η ν : Type*}

/-- A place where a pointer at a node is stored. -/
inductive Slot (η ν : Type*) where
  | first (h : η)
  | next (n : ν)
  deriving DecidableEq

variable {link link' : Slot η ν → Option ν} {back back' : ν → Option (Slot η ν)} {s t : Slot η ν} {v w : Option ν}
  {l l₁ l₂ : List ν} {n : ν}

/-- From slot `s` through the nodes of `l`, and to `v` in the last slot. -/
def LinkPath (link : Slot η ν → Option ν) (back : ν → Option (Slot η ν)) (s : Slot η ν) : List ν → Option ν → Prop
  | [], v => link s = v
  | n :: l, v => link s = some n ∧ back n = some s ∧ LinkPath link back (.next n) l v

/-- The last slot of a path. -/
def endSlot (s : Slot η ν) : List ν → Slot η ν
  | [] => s
  | n :: l => endSlot (.next n) l

/-- The nodes of `l` to the end of the chain, when slot `s` points at the first of them. -/
def Rest (link : Slot η ν → Option ν) (back : ν → Option (Slot η ν)) (s : Slot η ν) : List ν → Prop
  | [] => True
  | n :: l => back n = some s ∧ LinkPath link back (.next n) l none

/-! ### Parts of a path -/

theorem endSlot_mem (s : Slot η ν) (l : List ν) : endSlot s l = s ∨ ∃ n ∈ l, endSlot s l = .next n := by
  induction l generalizing s with
  | nil => exact .inl rfl
  | cons a l ih =>
      rcases ih (.next a) with heq | ⟨n, hn, heq⟩
      · exact .inr ⟨a, List.mem_cons_self, heq⟩
      · exact .inr ⟨n, List.mem_cons_of_mem a hn, heq⟩

theorem endSlot_concat (s : Slot η ν) (l : List ν) (n : ν) : endSlot s (l ++ [n]) = .next n := by
  induction l generalizing s with
  | nil => rfl
  | cons a l ih => exact ih (.next a)

/-- A chain is open in front of any of its nodes. -/
theorem path_append_iff :
    LinkPath link back s (l₁ ++ l₂) none ↔ LinkPath link back s l₁ l₂.head? ∧ Rest link back (endSlot s l₁) l₂ := by
  induction l₁ generalizing s with
  | nil =>
      cases l₂ with
      | nil => exact (and_iff_left trivial).symm
      | cons n l₂ => exact Iff.rfl
  | cons a l₁ ih =>
      rw [List.cons_append, LinkPath, ih, LinkPath, endSlot, and_assoc, and_assoc]

theorem rest_iff : Rest link back s (n :: l) ↔ back n = some s ∧ link (.next n) = l.head? ∧ Rest link back (.next n) l := by
  rw [Rest]
  refine and_congr_right fun _ => ?_
  rw [← List.nil_append l, path_append_iff]
  rfl

/-- A path depends on its own slots and nodes. -/
theorem LinkPath.congr (h : LinkPath link back s l v) (hs : link' s = link s)
    (hlink : ∀ n ∈ l, link' (.next n) = link (.next n)) (hback : ∀ n ∈ l, back' n = back n) : LinkPath link' back' s l v := by
  induction l generalizing s with
  | nil => exact hs.trans h
  | cons a l ih =>
      obtain ⟨hlink, hlinks⟩ := List.forall_mem_cons.mp hlink
      obtain ⟨hback, hbacks⟩ := List.forall_mem_cons.mp hback
      exact ⟨hs.trans h.1, hback.trans h.2.1, ih h.2.2 hlink hlinks hbacks⟩

theorem LinkPath.link_endSlot (h : LinkPath link back s l v) : link (endSlot s l) = v := by
  induction l generalizing s with
  | nil => exact h
  | cons a l ih => exact ih h.2.2

/-- A path with another pointer in its last slot. -/
theorem LinkPath.redirect (h : LinkPath link back s l v) (hnodup : l.Nodup) (hs : ∀ n ∈ l, s ≠ .next n)
    (hend : link' (endSlot s l) = w) (hlink : ∀ t, t = s ∨ (∃ n ∈ l, t = .next n) → t ≠ endSlot s l → link' t = link t)
    (hback : ∀ n ∈ l, back' n = back n) : LinkPath link' back' s l w := by
  induction l generalizing s with
  | nil => exact hend
  | cons a l ih =>
      obtain ⟨ha, hnodup⟩ := List.nodup_cons.mp hnodup
      obtain ⟨hback, hbacks⟩ := List.forall_mem_cons.mp hback
      obtain ⟨hsa, hsl⟩ := List.forall_mem_cons.mp hs
      have hal : ∀ n ∈ l, Slot.next a ≠ (Slot.next n : Slot η ν) := fun n hn heq => ha (Slot.next.inj heq ▸ hn)
      have hne : s ≠ endSlot (.next a) l := by
        rcases endSlot_mem (.next a) l with heq | ⟨n, hn, heq⟩
        · rwa [heq]
        · rw [heq]
          exact hsl n hn
      refine ⟨(hlink s (.inl rfl) hne).trans h.1, hback.trans h.2.1,
        ih h.2.2 hnodup hal hend (fun t ht => hlink t (.inr ?_)) hbacks⟩
      rcases ht with rfl | ⟨n, hn, rfl⟩
      · exact ⟨a, List.mem_cons_self, rfl⟩
      · exact ⟨n, List.mem_cons_of_mem a hn, rfl⟩

/-- The rest of a chain, with another slot that points at it. -/
theorem Rest.moved (h : Rest link back s l) (hnodup : l.Nodup) (hfirst : ∀ n ∈ l.head?, back' n = some t)
    (hlink : ∀ n ∈ l, link' (.next n) = link (.next n)) (hback : ∀ n ∈ l, n ∉ l.head? → back' n = back n) :
    Rest link' back' t l := by
  cases l with
  | nil => trivial
  | cons a l =>
      obtain ⟨hlink, hlinks⟩ := List.forall_mem_cons.mp hlink
      have ha := (List.nodup_cons.mp hnodup).1
      refine ⟨hfirst a rfl, h.2.congr hlink hlinks fun n hn => hback n (List.mem_cons_of_mem a hn) ?_⟩
      rintro ⟨rfl⟩
      exact ha hn

end XosKernel.SlotChain
