import XosKernel.LoopRules
import XosKernel.SlotChain

/-! The lists of `include/linux/list.h` whose head is a single pointer. `pprev` of a node is the address of the pointer at it,
so it is a slot: the head or the `next` of a node. A write through a null pointer has no result. -/

namespace XosKernel.HashList

open SlotChain

variable {η ν : Type*}

/-- `struct hlist_node`. -/
structure HlistNode (η ν : Type*) where
  next : Option ν
  pprev : Option (Slot η ν)

/-- The heads, `struct hlist_head`, and the nodes. -/
@[ext] structure Heap (η ν : Type*) where
  first : η → Option ν
  node : ν → HlistNode η ν

namespace Heap

variable (m : Heap η ν)

/-- The pointer in a slot. -/
def link : Slot η ν → Option ν
  | .first h => m.first h
  | .next n => (m.node n).next

def back (n : ν) : Option (Slot η ν) := (m.node n).pprev

variable [DecidableEq η] [DecidableEq ν]

def setLink : Slot η ν → Option ν → Heap η ν
  | .first h, v => { m with first := Function.update m.first h v }
  | .next n, v => { m with node := Function.update m.node n { m.node n with next := v } }

def setPprev (n : ν) (p : Option (Slot η ν)) : Heap η ν :=
  { m with node := Function.update m.node n { m.node n with pprev := p } }

/-- `if (next) next->pprev = pprev`. -/
def setPprevOf (next : Option ν) (pprev : Slot η ν) : Heap η ν :=
  match next with
  | some next => m.setPprev next (some pprev)
  | none => m

end Heap

/-! ### The functions -/

section

variable [DecidableEq η] [DecidableEq ν] (m : Heap η ν)

/-- `INIT_HLIST_HEAD`. -/
def initHlistHead (h : η) : Heap η ν := m.setLink (.first h) none

/-- `INIT_HLIST_NODE`. -/
def initHlistNode (h : ν) : Heap η ν := (m.setLink (.next h) none).setPprev h none

omit [DecidableEq η] [DecidableEq ν] in
def hlistUnhashed (h : ν) : Bool := (m.back h).isNone

omit [DecidableEq η] [DecidableEq ν] in
def hlistEmpty (h : η) : Bool := (m.first h).isNone

/-- `__hlist_del`. -/
def hlistUnlink (n : ν) : Option (Heap η ν) := do
  let next := m.link (.next n)
  let pprev ← m.back n
  return (m.setLink pprev next).setPprevOf next pprev

section

variable (poison1 : ν) (poison2 : Slot η ν)

/-- `hlist_del`, for the two poison pointers. -/
def hlistDel (n : ν) : Option (Heap η ν) := do
  let m ← hlistUnlink m n
  return (m.setLink (.next n) (some poison1)).setPprev n (some poison2)

end

def hlistDelInit (n : ν) : Option (Heap η ν) :=
  if hlistUnhashed m n then some m
  else do
    let m ← hlistUnlink m n
    return initHlistNode m n

def hlistAddHead (n : ν) (h : η) : Heap η ν :=
  let first := m.link (.first h)
  let m := m.setLink (.next n) first
  let m := m.setPprevOf first (.next n)
  let m := m.setLink (.first h) (some n)
  m.setPprev n (some (.first h))

def hlistAddBefore (n next : ν) : Option (Heap η ν) := do
  let m := m.setPprev n (m.back next)
  let m := m.setLink (.next n) (some next)
  let m := m.setPprev next (some (.next n))
  let pprev ← m.back n
  return m.setLink pprev (some n)

def hlistAddAfter (n next : ν) : Heap η ν :=
  let m := m.setLink (.next next) (m.link (.next n))
  let m := m.setLink (.next n) (some next)
  let m := m.setPprev next (some (.next n))
  m.setPprevOf (m.link (.next next)) (.next next)

def hlistMoveList (old new : η) : Heap η ν :=
  let m := m.setLink (.first new) (m.link (.first old))
  let m := m.setPprevOf (m.link (.first new)) (.first new)
  m.setLink (.first old) none

end

/-! ### What the writes change -/

section

variable [DecidableEq η] [DecidableEq ν] (m : Heap η ν) (s t : Slot η ν) (v : Option ν) (n b : ν)
  (p : Option (Slot η ν))

@[simp] theorem link_setLink : (m.setLink s v).link t = if t = s then v else m.link t := by
  cases s <;> cases t <;> simp only [Heap.setLink, Heap.link, Function.update_apply, reduceCtorEq, if_false,
    Slot.first.injEq, Slot.next.injEq]
  split <;> simp_all

@[simp] theorem back_setLink : (m.setLink s v).back b = m.back b := by
  cases s with
  | first h => rfl
  | next n =>
      rcases eq_or_ne b n with rfl | hne
      · simp [Heap.setLink, Heap.back]
      · simp [Heap.setLink, Heap.back, hne]

omit [DecidableEq η] in
@[simp] theorem link_setPprev : (m.setPprev n p).link t = m.link t := by
  cases t with
  | first h => rfl
  | next b =>
      rcases eq_or_ne b n with rfl | hne
      · simp [Heap.setPprev, Heap.link]
      · simp [Heap.setPprev, Heap.link, hne]

omit [DecidableEq η] in
@[simp] theorem back_setPprev : (m.setPprev n p).back b = if b = n then p else m.back b := by
  rcases eq_or_ne b n with rfl | hne
  · simp [Heap.setPprev, Heap.back]
  · simp [Heap.setPprev, Heap.back, hne]

omit [DecidableEq η] in
@[simp] theorem link_setPprevOf : (m.setPprevOf v s).link t = m.link t := by
  cases v with
  | none => rfl
  | some n => exact link_setPprev m t n _

omit [DecidableEq η] in
@[simp] theorem back_setPprevOf : (m.setPprevOf v s).back b = if v = some b then some s else m.back b := by
  cases v with
  | none => rw [if_neg (by simp)]; rfl
  | some n =>
      rw [Heap.setPprevOf, back_setPprev]
      simp only [Option.some.injEq, eq_comm]

end

/-! ### The lists of a heap -/

/-- The heap has a chain for each list, and no node is in two lists or twice in one. -/
structure Denotes (m : Heap η ν) (L : η → List ν) : Prop where
  chain : ∀ h, LinkPath m.link m.back (.first h) (L h) none
  nodup : ∀ h, (L h).Nodup
  apart : ∀ {h h' n}, n ∈ L h → n ∈ L h' → h = h'

section

variable {m m' : Heap η ν} {L : η → List ν} {h : η} {n : ν} {l l₁ l₂ : List ν} {e : Slot η ν} {v : Option ν}

/-- Another chain for one list, of nodes that no other list has. -/
theorem Denotes.set [DecidableEq η] (hm : Denotes m L) (hchain : LinkPath m'.link m'.back (.first h) l none)
    (hnodup : l.Nodup) (hfree : ∀ n ∈ l, ∀ h', n ∈ L h' → h' = h)
    (hfirst : ∀ h', h' ≠ h → m'.link (.first h') = m.link (.first h'))
    (hnode : ∀ h' n, h' ≠ h → n ∈ L h' → m'.link (.next n) = m.link (.next n) ∧ m'.back n = m.back n) :
    Denotes m' (Function.update L h l) where
  chain h' := by
    rcases eq_or_ne h' h with rfl | hne
    · rwa [Function.update_self]
    · rw [Function.update_of_ne hne]
      exact (hm.chain h').congr (hfirst h' hne) (fun n hn => (hnode h' n hne hn).1) fun n hn => (hnode h' n hne hn).2
  nodup h' := by
    rcases eq_or_ne h' h with rfl | hne
    · rwa [Function.update_self]
    · rw [Function.update_of_ne hne]
      exact hm.nodup h'
  apart {h₁ h₂ n} h₁n h₂n := by
    rcases eq_or_ne h₁ h with rfl | hne₁
    · rw [Function.update_self] at h₁n
      rcases eq_or_ne h₂ h₁ with rfl | hne₂
      · rfl
      · rw [Function.update_of_ne hne₂] at h₂n
        exact (hfree n h₁n h₂ h₂n).symm
    · rw [Function.update_of_ne hne₁] at h₁n
      rcases eq_or_ne h₂ h with rfl | hne₂
      · rw [Function.update_self] at h₂n
        exact hfree n h₂n h₁ h₁n
      · rw [Function.update_of_ne hne₂] at h₂n
        exact hm.apart h₁n h₂n

/-- The slots of one list are no slots of another one. -/
theorem Denotes.endSlot_ne (hm : Denotes m L) (hl : L h = l₁ ++ l₂) {h' : η} (hne : h' ≠ h) :
    Slot.first h' ≠ endSlot (.first h) l₁ ∧ ∀ a ∈ L h', Slot.next a ≠ endSlot (.first h) l₁ := by
  rcases endSlot_mem (.first h) l₁ with heq | ⟨b, hb, heq⟩
  · rw [heq]
    exact ⟨fun h => hne (Slot.first.inj h), nofun⟩
  · rw [heq]
    refine ⟨nofun, fun a ha hcontra => hne (hm.apart ha ?_)⟩
    rw [hl, Slot.next.inj hcontra]
    exact List.mem_append_left l₂ hb

/-- A node that no list had is put in front of the node `v` behind slot `e`. -/
structure Inserted (m m' : Heap η ν) (e : Slot η ν) (n : ν) (v : Option ν) : Prop where
  link_slot : m'.link e = some n
  link_node : m'.link (.next n) = v
  link_else : ∀ t, t ≠ e → t ≠ .next n → m'.link t = m.link t
  back_node : m'.back n = some e
  back_after : ∀ b ∈ v, m'.back b = some (.next n)
  back_else : ∀ b, b ≠ n → b ∉ v → m'.back b = m.back b

theorem Inserted.denotes [DecidableEq η] (h' : Inserted m m' e n v) (hm : Denotes m L) (hl : L h = l₁ ++ l₂)
    (he : e = endSlot (.first h) l₁) (hv : v = l₂.head?) (hn : ∀ h, n ∉ L h) :
    Denotes m' (Function.update L h (l₁ ++ n :: l₂)) := by
  subst he hv
  have hchain := hm.chain h
  have hnodup := hm.nodup h
  rw [hl] at hchain hnodup
  obtain ⟨hpath, hrest⟩ := path_append_iff.mp hchain
  obtain ⟨hnodup₁, hnodup₂, hdisjoint⟩ := List.nodup_append.mp hnodup
  have hmem {a : ν} (ha : a ∈ l₁ ∨ a ∈ l₂) : a ≠ n := by
    rintro rfl
    exact hn h (hl ▸ List.mem_append.mpr ha)
  have hhead {a : ν} (ha : a ∈ l₂.head?) : a ∈ l₂ := List.mem_of_mem_head? ha
  have hslot {a : ν} (ha : a ∈ l₂) : Slot.next a ≠ endSlot (.first h) l₁ := by
    rcases endSlot_mem (.first h) l₁ with heq | ⟨b, hb, heq⟩
    · rw [heq]
      exact nofun
    · rw [heq]
      exact fun hcontra => hdisjoint b hb a ha (Slot.next.inj hcontra).symm
  have hne {a : ν} (ha : a ≠ n) : Slot.next a ≠ (Slot.next n : Slot η ν) := fun heq => ha (Slot.next.inj heq)
  refine hm.set (path_append_iff.mpr ⟨?_, rest_iff.mpr ⟨h'.back_node, h'.link_node, ?_⟩⟩) ?_ ?_ ?_ ?_
  · refine hpath.redirect hnodup₁ nofun h'.link_slot (fun t ht hte => h'.link_else t hte ?_)
      fun a ha => h'.back_else a (hmem (.inl ha)) fun hav => hdisjoint a ha a (hhead hav) rfl
    rcases ht with rfl | ⟨a, ha, rfl⟩
    · exact nofun
    · exact hne (hmem (.inl ha))
  · exact hrest.moved hnodup₂ h'.back_after (fun a ha => h'.link_else _ (hslot ha) (hne (hmem (.inr ha))))
      fun a ha hav => h'.back_else a (hmem (.inr ha)) hav
  · refine List.nodup_middle.mpr (List.nodup_cons.mpr ⟨fun hmem => hn h (hl ▸ hmem), hnodup⟩)
  · intro a ha k hk
    rw [List.mem_append, List.mem_cons] at ha
    rcases ha with ha | rfl | ha
    · exact hm.apart hk (hl ▸ List.mem_append_left _ ha)
    · exact absurd hk (hn k)
    · exact hm.apart hk (hl ▸ List.mem_append_right _ ha)
  · exact fun k hk => h'.link_else _ (hm.endSlot_ne hl hk).1 nofun
  · intro k a hk ha
    have han : a ≠ n := fun heq => hn k (heq ▸ ha)
    refine ⟨h'.link_else _ ((hm.endSlot_ne hl hk).2 a ha) (hne han), h'.back_else a han fun hav => hk ?_⟩
    exact hm.apart ha (hl ▸ List.mem_append_right _ (hhead hav))

/-- A node between slot `e` and the node `v` is left out. -/
structure Removed (m m' : Heap η ν) (e : Slot η ν) (n : ν) (v : Option ν) : Prop where
  link_slot : m'.link e = v
  link_else : ∀ t, t ≠ e → t ≠ .next n → m'.link t = m.link t
  back_after : ∀ b ∈ v, m'.back b = some e
  back_else : ∀ b, b ≠ n → b ∉ v → m'.back b = m.back b

theorem Removed.denotes [DecidableEq η] (h' : Removed m m' e n v) (hm : Denotes m L) (hl : L h = l₁ ++ n :: l₂)
    (he : e = endSlot (.first h) l₁) (hv : v = l₂.head?) : Denotes m' (Function.update L h (l₁ ++ l₂)) := by
  subst he hv
  have hchain := hm.chain h
  have hnodup := hm.nodup h
  rw [hl] at hchain hnodup
  obtain ⟨hpath, hrest⟩ := path_append_iff.mp hchain
  obtain ⟨-, -, hrest⟩ := rest_iff.mp hrest
  obtain ⟨hnodup₁, hnodup₂, hdisjoint⟩ := List.nodup_append.mp hnodup
  obtain ⟨hn₂, hnodup₂⟩ := List.nodup_cons.mp hnodup₂
  have hn₁ {a : ν} (ha : a ∈ l₁) : a ≠ n := fun heq => hdisjoint a ha n List.mem_cons_self heq
  have hne {a : ν} (ha : a ≠ n) : Slot.next a ≠ (Slot.next n : Slot η ν) := fun heq => ha (Slot.next.inj heq)
  have hin {a : ν} (ha : a ∈ l₁ ∨ a ∈ l₂) : a ∈ L h := by
    rw [hl, List.mem_append, List.mem_cons]
    exact ha.imp_right .inr
  have hhead {a : ν} (ha : a ∈ l₂.head?) : a ∈ l₂ := List.mem_of_mem_head? ha
  have hslot {a : ν} (ha : a ∈ l₂) : Slot.next a ≠ endSlot (.first h) l₁ := by
    rcases endSlot_mem (.first h) l₁ with heq | ⟨b, hb, heq⟩
    · rw [heq]
      exact nofun
    · rw [heq]
      exact fun hcontra => hdisjoint b hb a (List.mem_cons_of_mem n ha) (Slot.next.inj hcontra).symm
  have hin₂ {a : ν} (ha : a ∈ l₂) : a ≠ n := fun heq => hn₂ (heq ▸ ha)
  refine hm.set (path_append_iff.mpr ⟨?_, ?_⟩) ?_ ?_ ?_ ?_
  · refine hpath.redirect hnodup₁ nofun h'.link_slot (fun t ht hte => h'.link_else t hte ?_)
      fun a ha => h'.back_else a (hn₁ ha) fun hav => hdisjoint a ha a (List.mem_cons_of_mem n (hhead hav)) rfl
    rcases ht with rfl | ⟨a, ha, rfl⟩
    · exact nofun
    · exact hne (hn₁ ha)
  · exact hrest.moved hnodup₂ h'.back_after (fun a ha => h'.link_else _ (hslot ha) (hne (hin₂ ha)))
      fun a ha hav => h'.back_else a (hin₂ ha) hav
  · exact hnodup.sublist (List.Sublist.append_left (List.sublist_cons_self n l₂) l₁)
  · exact fun a ha k hk => hm.apart hk (hin (List.mem_append.mp ha))
  · exact fun k hk => h'.link_else _ (hm.endSlot_ne hl hk).1 nofun
  · intro k a hk ha
    have hnot {b : ν} (hb : b ∈ L h) : a ≠ b := fun heq => hk (hm.apart (heq ▸ ha) hb)
    have han : a ≠ n := hnot (hl ▸ List.mem_append_right l₁ List.mem_cons_self)
    refine ⟨h'.link_else _ ((hm.endSlot_ne hl hk).2 a ha) (hne han), h'.back_else a han fun hav => ?_⟩
    exact hnot (hin (.inr (hhead hav))) rfl

end

end XosKernel.HashList
