import XosKernel.LinkedRing
import XosKernel.NodeLists

/-! The doubly linked lists of `include/linux/list.h`. A node is an address, and the heap has a `list_head` at each; the
functions are the pointer writes of the code, in its order. A heap denotes lists of nodes when the ring behind each head
goes through the nodes of its list. -/

namespace XosKernel.LinkedList

variable {α : Type*}

/-- `struct list_head`. -/
structure ListHead (α : Type*) where
  next : α
  prev : α

abbrev Heap (α : Type*) := α → ListHead α

section

variable [DecidableEq α]

def Heap.setNext (m : Heap α) (a v : α) : Heap α := Function.update m a { m a with next := v }

def Heap.setPrev (m : Heap α) (a v : α) : Heap α := Function.update m a { m a with prev := v }

variable (m : Heap α)

/-- `INIT_LIST_HEAD`. -/
def initListHead (ptr : α) : Heap α := (m.setNext ptr ptr).setPrev ptr ptr

/-- `__list_add`. -/
def listAddBetween (new prev next : α) : Heap α :=
  let m := m.setPrev next new
  let m := m.setNext new next
  let m := m.setPrev new prev
  m.setNext prev new

def listAdd (new head : α) : Heap α := listAddBetween m new head (m head).next

def listAddTail (new head : α) : Heap α := listAddBetween m new (m head).prev head

/-- `__list_del`. -/
def listDelBetween (prev next : α) : Heap α := (m.setPrev next prev).setNext prev next

/-- `list_del`, where 0 is the null pointer. -/
def listDel [Zero α] (entry : α) : Heap α :=
  let m := listDelBetween m (m entry).prev (m entry).next
  (m.setNext entry 0).setPrev entry 0

def listDelInit (entry : α) : Heap α := initListHead (listDelBetween m (m entry).prev (m entry).next) entry

def listMove (list head : α) : Heap α := listAdd (listDelBetween m (m list).prev (m list).next) list head

def listMoveTail (list head : α) : Heap α := listAddTail (listDelBetween m (m list).prev (m list).next) list head

/-- `list_pop`: the item and the heap. -/
def listPop [Zero α] (head : α) : α × Heap α :=
  let item := (m head).prev
  let m := listDel m (m head).prev
  (item, (m.setNext item 0).setPrev item 0)

def listEmpty (head : α) : Bool := (m head).next = head

/-- `__list_splice`; `place` is `at`. -/
def listSpliceNonempty (list head : α) : Heap α :=
  let first := (m list).next
  let last := (m list).prev
  let place := (m head).next
  let m := m.setPrev first head
  let m := m.setNext head first
  let m := m.setNext last place
  m.setPrev place last

def listSplice (list head : α) : Heap α := if listEmpty m list then m else listSpliceNonempty m list head

def listSpliceInit (list head : α) : Heap α :=
  if listEmpty m list then m else initListHead (listSpliceNonempty m list head) list

end

/-! ### What the writes change -/

def Heap.nexts (m : Heap α) (a : α) : α := (m a).next

def Heap.prevs (m : Heap α) (a : α) : α := (m a).prev

section

variable [DecidableEq α] (m : Heap α) (a b v : α)

@[simp] theorem setNext_nexts : (m.setNext a v).nexts b = if b = a then v else m.nexts b := by
  unfold Heap.setNext Heap.nexts
  split_ifs with h
  · rw [h, Function.update_self]
  · rw [Function.update_of_ne h]

@[simp] theorem setNext_prevs : (m.setNext a v).prevs b = m.prevs b := by
  unfold Heap.setNext Heap.prevs
  rcases eq_or_ne b a with rfl | h
  · rw [Function.update_self]
  · rw [Function.update_of_ne h]

@[simp] theorem setPrev_nexts : (m.setPrev a v).nexts b = m.nexts b := by
  unfold Heap.setPrev Heap.nexts
  rcases eq_or_ne b a with rfl | h
  · rw [Function.update_self]
  · rw [Function.update_of_ne h]

@[simp] theorem setPrev_prevs : (m.setPrev a v).prevs b = if b = a then v else m.prevs b := by
  unfold Heap.setPrev Heap.prevs
  split_ifs with h
  · rw [h, Function.update_self]
  · rw [Function.update_of_ne h]

variable {m a b v}

theorem setNext_of_ne (h : b ≠ a) : m.setNext a v b = m b := Function.update_of_ne h ..

theorem setPrev_of_ne (h : b ≠ a) : m.setPrev a v b = m b := Function.update_of_ne h ..

end

/-! ### The lists of a heap -/

/-- The heap has a ring for each list. -/
def Denotes (m : Heap α) (L : Lists α) : Prop :=
  ∀ head l, L.of head = some l → Linked.Ring m.nexts m.prevs head l

section

variable {m m' : Heap α} {L : Lists α} {head a : α} {l : List α}

/-- `next` and `prev` undo each other, within the list of a node. -/
theorem Denotes.inverse (hm : Denotes m L) (ha : L.Owns head a) :
    (m.prevs (m.nexts a) = a ∧ L.Owns head (m.nexts a)) ∧ m.nexts (m.prevs a) = a ∧ L.Owns head (m.prevs a) := by
  obtain ⟨l, hl, hmem⟩ := ha
  obtain ⟨⟨hprev, hnext_mem⟩, hnext, hprev_mem⟩ := (hm head l hl).inverse hmem
  exact ⟨⟨hprev, l, hl, hnext_mem⟩, hnext, l, hl, hprev_mem⟩

/-- The lists that a heap has depend on their nodes only. -/
theorem Denotes.ring_congr (hm : Denotes m L) (hl : L.of head = some l) (heq : ∀ a, L.Owns head a → m' a = m a) :
    Linked.Ring m'.nexts m'.prevs head l := by
  refine (hm head l hl).congr (fun a ha => ?_) fun a ha => ?_
  · exact congrArg ListHead.next (heq a ⟨l, hl, ha⟩)
  · exact congrArg ListHead.prev (heq a ⟨l, hl, ha⟩)

theorem Denotes.congr (hm : Denotes m L) (heq : ∀ a, L.Node a → m' a = m a) : Denotes m' L :=
  fun head _ hl => hm.ring_congr hl fun a ha => heq a ⟨head, ha⟩

/-- Writes to a node of no list change no list. -/
theorem Denotes.outside {e : α} (hm : Denotes m L) (he : ¬ L.Node e) (heq : ∀ a, a ≠ e → m' a = m a) :
    Denotes m' L := by
  refine hm.congr fun a ha => heq a ?_
  rintro rfl
  exact he ha

variable [DecidableEq α]

theorem Denotes.forget (hm : Denotes m L) (head : α) : Denotes m (L.forget head) :=
  fun owner l hl => hm owner l (Lists.update_none_some hl)

/-- A ring for the list of one head, and all other lists left alone. -/
theorem Denotes.set (hm : Denotes m L) {hnodup : (head :: l).Nodup}
    {hfree : ∀ a ∈ head :: l, ∀ owner, L.Owns owner a → owner = head} (hring : Linked.Ring m'.nexts m'.prevs head l)
    (hframe : ∀ owner a, owner ≠ head → L.Owns owner a → m' a = m a) : Denotes m' (L.set head l hnodup hfree) := by
  intro owner k hk
  rcases eq_or_ne owner head with rfl | hne
  · rw [Lists.of_set_self, Option.some.injEq] at hk
    exact hk ▸ hring
  · rw [Lists.of_set_of_ne hne] at hk
    exact hm.ring_congr hk fun a ha => hframe owner a hne ha

end

end XosKernel.LinkedList
