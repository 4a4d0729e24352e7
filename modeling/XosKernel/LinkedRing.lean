import Mathlib.Data.List.Chain
import Mathlib.Data.List.Nodup

/-! Rings of nodes that are linked both ways. The links are two functions `next` and `prev`; a ring goes from its head through
the nodes of a list and back to the head. Each change of a few links is described by what the new links are at the
seams and by the nodes where they stay the same. -/

namespace XosKernel.Linked

variable {α : Type*} {next prev next' prev' : α → α}

/-- Two neighbours. -/
def Links (next prev : α → α) (a b : α) : Prop := next a = b ∧ prev b = a

/-- A ring from `head` through the nodes of `l`. -/
def Ring (next prev : α → α) (head : α) (l : List α) : Prop := (head :: (l ++ [head])).IsChain (Links next prev)

/-! ### Chains -/

/-- A chain depends on the links inside of it only. -/
theorem chain_congr {l : List α} (hl : l.IsChain (Links next prev)) (hnext : ∀ a ∈ l.dropLast, next' a = next a)
    (hprev : ∀ a ∈ l.tail, prev' a = prev a) : l.IsChain (Links next' prev') := by
  induction l with
  | nil => exact .nil
  | cons a l ih =>
      cases l with
      | nil => exact .singleton a
      | cons b l =>
          obtain ⟨⟨hab, hba⟩, hrest⟩ := List.isChain_cons_cons.mp hl
          rw [List.dropLast_cons_cons, List.forall_mem_cons] at hnext
          rw [List.tail_cons, List.forall_mem_cons] at hprev
          exact List.isChain_cons_cons.mpr
            ⟨⟨hnext.1.trans hab, hprev.1.trans hba⟩, ih hrest hnext.2 fun c hc => hprev.2 c hc⟩

theorem ne_of_mem_dropLast {l : List α} (hl : l.Nodup) {a p : α} (hp : l.getLast? = some p) (ha : a ∈ l.dropLast) :
    a ≠ p := by
  rw [← List.dropLast_append_getLast? p hp] at hl
  exact (List.nodup_append.mp hl).2.2 a ha p (List.mem_singleton_self p)

theorem ne_of_mem_tail {l : List α} (hl : l.Nodup) {a n : α} (hn : l.head? = some n) (ha : a ∈ l.tail) : a ≠ n := by
  cases l with
  | nil => cases ha
  | cons b l =>
      cases hn
      rintro rfl
      exact (List.nodup_cons.mp hl).1 ha

/-! ### Rings -/

/-- A ring depends on the links of its own nodes. -/
theorem Ring.congr {head : α} {l : List α} (h : Ring next prev head l) (hnext : ∀ a ∈ head :: l, next' a = next a)
    (hprev : ∀ a ∈ head :: l, prev' a = prev a) : Ring next' prev' head l := by
  refine chain_congr h (fun a ha => hnext a ?_) fun a ha => hprev a ?_
  · rwa [← List.cons_append, List.dropLast_concat] at ha
  · rw [List.tail_cons, List.mem_append, List.mem_singleton] at ha
    exact List.mem_cons.mpr ha.symm

/-- A node that is linked to itself. -/
theorem ring_nil_iff {head : α} : Ring next prev head [] ↔ next head = head ∧ prev head = head := by
  rw [Ring, List.nil_append, List.isChain_pair, Links]

/-- A ring is open between any two of its nodes. -/
theorem ring_append_iff {head : α} {l₁ l₂ : List α} : Ring next prev head (l₁ ++ l₂) ↔
    (head :: l₁).IsChain (Links next prev) ∧ (l₂ ++ [head]).IsChain (Links next prev) ∧
      ∀ p ∈ (head :: l₁).getLast?, ∀ n ∈ (l₂ ++ [head]).head?, Links next prev p n := by
  rw [Ring, List.append_assoc, ← List.cons_append, List.isChain_append]

/-- The two neighbours between which a ring is open. -/
structure Seam (head : α) (l₁ l₂ : List α) (p n : α) : Prop where
  last : (head :: l₁).getLast? = some p
  first : (l₂ ++ [head]).head? = some n

section

variable {head p n : α} {l₁ l₂ : List α}

theorem exists_seam (head : α) (l₁ l₂ : List α) : ∃ p n, Seam head l₁ l₂ p n := by
  have hlast := List.getLast?_eq_some_getLast (List.cons_ne_nil head l₁)
  cases l₂ with
  | nil => exact ⟨_, head, hlast, rfl⟩
  | cons a l₂ => exact ⟨_, a, hlast, rfl⟩

/-- The seam behind a node. -/
theorem exists_seam_behind {l : List α} (hp : p ∈ head :: l) : ∃ l₁ l₂ n, l = l₁ ++ l₂ ∧ Seam head l₁ l₂ p n := by
  rcases List.mem_cons.mp hp with rfl | hmem
  · obtain ⟨q, n, hseam⟩ := exists_seam p [] l
    exact ⟨[], l, n, rfl, rfl, hseam.first⟩
  · obtain ⟨s, t, rfl⟩ := List.append_of_mem hmem
    obtain ⟨q, n, hseam⟩ := exists_seam head s t
    refine ⟨s ++ [p], t, n, List.append_cons s p t, ?_, hseam.first⟩
    rw [← List.cons_append, List.getLast?_concat]

/-- The seam in front of a node. -/
theorem exists_seam_before {l : List α} (hn : n ∈ head :: l) : ∃ l₁ l₂ p, l = l₁ ++ l₂ ∧ Seam head l₁ l₂ p n := by
  rcases List.mem_cons.mp hn with rfl | hmem
  · obtain ⟨p, q, hseam⟩ := exists_seam n l []
    exact ⟨l, [], p, (List.append_nil l).symm, hseam.last, rfl⟩
  · obtain ⟨s, t, rfl⟩ := List.append_of_mem hmem
    obtain ⟨p, q, hseam⟩ := exists_seam head s (n :: t)
    exact ⟨s, n :: t, p, rfl, hseam.last, rfl⟩

theorem Seam.last_mem (h : Seam head l₁ l₂ p n) : p ∈ head :: (l₁ ++ l₂) := by
  rw [← List.cons_append]
  exact List.mem_append_left l₂ (List.mem_of_getLast? h.last)

theorem Seam.first_mem (h : Seam head l₁ l₂ p n) : n ∈ head :: (l₁ ++ l₂) := by
  have hmem := List.mem_append.mp (List.mem_of_head? h.first)
  rw [List.mem_cons, List.mem_append]
  exact hmem.elim (fun hn => .inr (.inr hn)) fun hn => .inl (List.mem_singleton.mp hn)

theorem Ring.links (h : Ring next prev head (l₁ ++ l₂)) (hseam : Seam head l₁ l₂ p n) : next p = n ∧ prev n = p :=
  (ring_append_iff.mp h).2.2 p hseam.last n hseam.first

/-- The ends of a list that is not empty. -/
theorem Ring.ends {l : List α} (h : Ring next prev head l) (hne : l ≠ []) :
    l.head? = some (next head) ∧ l.getLast? = some (prev head) := by
  obtain ⟨p, n, hfront⟩ := exists_seam head [] l
  obtain rfl : head = p := Option.some.inj hfront.last
  obtain ⟨q, n', hback⟩ := exists_seam head l []
  obtain rfl : head = n' := Option.some.inj hback.first
  have hnext : next head = n := (Ring.links h hfront).1
  have hprev : prev head = q := (Ring.links ((List.append_nil l).symm ▸ h) hback).2
  rw [hnext, hprev]
  constructor
  · have hfirst := hfront.first
    rwa [List.head?_append_of_ne_nil _ hne] at hfirst
  · have hlast := hback.last
    rwa [List.getLast?_cons, List.getLast?_eq_some_getLast hne, Option.getD_some,
      ← List.getLast?_eq_some_getLast hne] at hlast

/-- The links at a node behind the head. -/
theorem Ring.links_mem {e : α} (h : Ring next prev head (l₁ ++ e :: l₂)) (hseam : Seam head l₁ l₂ p n) :
    prev e = p ∧ next e = n := by
  obtain ⟨-, hback, hlinks⟩ := ring_append_iff.mp h
  exact ⟨(hlinks p hseam.last e rfl).2, ((List.isChain_cons.mp hback).1 n hseam.first).1⟩

/-- `next` and `prev` undo each other on a ring, and do not leave it. -/
theorem Ring.inverse {l : List α} (h : Ring next prev head l) {a : α} (ha : a ∈ head :: l) :
    (prev (next a) = a ∧ next a ∈ head :: l) ∧ next (prev a) = a ∧ prev a ∈ head :: l := by
  constructor
  · obtain ⟨l₁, l₂, n, rfl, hseam⟩ := exists_seam_behind ha
    obtain ⟨hnext, hprev⟩ := h.links hseam
    rw [hnext]
    exact ⟨hprev, hseam.first_mem⟩
  · obtain ⟨l₁, l₂, p, rfl, hseam⟩ := exists_seam_before ha
    obtain ⟨hnext, hprev⟩ := h.links hseam
    rw [hprev]
    exact ⟨hnext, hseam.last_mem⟩

/-! ### Changing a ring -/

/-- The two sides of a seam stay as they are when no other links change. -/
theorem Seam.chains (h : Seam head l₁ l₂ p n) (hnodup : (head :: (l₁ ++ l₂)).Nodup)
    (hfront : (head :: l₁).IsChain (Links next prev)) (hback : (l₂ ++ [head]).IsChain (Links next prev))
    (hnext : ∀ a ∈ head :: (l₁ ++ l₂), a ≠ p → next' a = next a)
    (hprev : ∀ a ∈ head :: (l₁ ++ l₂), a ≠ n → prev' a = prev a) :
    (head :: l₁).IsChain (Links next' prev') ∧ (l₂ ++ [head]).IsChain (Links next' prev') := by
  have hlast : (head :: l₁ ++ l₂).Nodup := hnodup
  have hfirst : (l₁ ++ (l₂ ++ [head])).Nodup := by
    rw [← List.append_assoc]
    exact List.nodup_append_comm.mp hnodup
  obtain ⟨hfrontNodup, -, hpbehind⟩ := List.nodup_append.mp hlast
  obtain ⟨-, hbackNodup, hnbefore⟩ := List.nodup_append.mp hfirst
  have hp := List.mem_of_getLast? h.last
  have hn := List.mem_of_head? h.first
  constructor
  · refine chain_congr hfront (fun a ha => ?_) fun a ha => ?_
    · exact hnext a (List.mem_append_left l₂ (List.dropLast_subset _ ha)) (ne_of_mem_dropLast hfrontNodup h.last ha)
    · exact hprev a (List.mem_cons_of_mem head (List.mem_append_left l₂ ha)) (hnbefore a ha n hn)
  · refine chain_congr hback (fun a ha => ?_) fun a ha => ?_
    · rw [List.dropLast_concat] at ha
      exact hnext a (List.mem_cons_of_mem head (List.mem_append_right l₁ ha)) (hpbehind p hp a ha).symm
    · refine hprev a ?_ (ne_of_mem_tail hbackNodup h.first ha)
      rw [List.mem_cons, List.mem_append]
      exact (List.mem_append.mp (List.mem_of_mem_tail ha)).elim (fun hmem => .inr (.inr hmem))
        fun hmem => .inl (List.mem_singleton.mp hmem)

/-- A node is taken out when its neighbours are linked to each other. -/
theorem Ring.remove {e : α} (h : Ring next prev head (l₁ ++ e :: l₂)) (hnodup : (head :: (l₁ ++ l₂)).Nodup)
    (hseam : Seam head l₁ l₂ p n) (hlinks : Links next' prev' p n)
    (hnext : ∀ a ∈ head :: (l₁ ++ l₂), a ≠ p → next' a = next a)
    (hprev : ∀ a ∈ head :: (l₁ ++ l₂), a ≠ n → prev' a = prev a) : Ring next' prev' head (l₁ ++ l₂) := by
  obtain ⟨hfront, hback, -⟩ := ring_append_iff.mp h
  obtain ⟨hfront', hback'⟩ := hseam.chains hnodup hfront hback.tail hnext hprev
  refine ring_append_iff.mpr ⟨hfront', hback', fun q hq m hm => ?_⟩
  obtain rfl : p = q := Option.some.inj (hseam.last.symm.trans hq)
  obtain rfl : n = m := Option.some.inj (hseam.first.symm.trans hm)
  exact hlinks

/-- A chain is put in when its ends are linked to the neighbours there. -/
theorem Ring.insert {seg : List α} {first last : α} (h : Ring next prev head (l₁ ++ l₂))
    (hnodup : (head :: (l₁ ++ l₂)).Nodup) (hseam : Seam head l₁ l₂ p n) (hseg : seg.IsChain (Links next' prev'))
    (hfirst : seg.head? = some first) (hlast : seg.getLast? = some last) (hbefore : Links next' prev' p first)
    (hbehind : Links next' prev' last n) (hnext : ∀ a ∈ head :: (l₁ ++ l₂), a ≠ p → next' a = next a)
    (hprev : ∀ a ∈ head :: (l₁ ++ l₂), a ≠ n → prev' a = prev a) : Ring next' prev' head (l₁ ++ (seg ++ l₂)) := by
  obtain ⟨hfront, hback, -⟩ := ring_append_iff.mp h
  obtain ⟨hfront', hback'⟩ := hseam.chains hnodup hfront hback hnext hprev
  have hrest : (seg ++ (l₂ ++ [head])).IsChain (Links next' prev') := by
    refine hseg.append hback' fun q hq m hm => ?_
    obtain rfl : last = q := Option.some.inj (hlast.symm.trans hq)
    obtain rfl : n = m := Option.some.inj (hseam.first.symm.trans hm)
    exact hbehind
  rw [← List.append_assoc] at hrest
  refine ring_append_iff.mpr ⟨hfront', hrest, fun q hq m hm => ?_⟩
  obtain rfl : p = q := Option.some.inj (hseam.last.symm.trans hq)
  rw [List.append_assoc, List.head?_append, hfirst] at hm
  obtain rfl : first = m := Option.some.inj hm
  exact hbefore

end

end XosKernel.Linked
