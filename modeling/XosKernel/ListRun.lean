import XosKernel.ListStep
import Mathlib.Algebra.GroupWithZero.Nat

/-! Runs of the list operations. Each operation does to the lists of the heap what its name says, gives the heap no other
nodes, and writes to no node outside of the lists that it is about. -/

namespace XosKernel.LinkedList

variable {α : Type*}

/-- The operations with their arguments, under the names that the code has for them. -/
inductive Op (α : Type*) where
  | add (new head : α)
  | addTail (new head : α)
  | del (entry : α)
  | delInit (entry : α)
  | move (list head : α)
  | moveTail (list head : α)
  | pop (head : α)
  | splice (list head : α)
  | spliceInit (list head : α)

namespace Op

def args : Op α → List α
  | add new head => [new, head]
  | addTail new head => [new, head]
  | del entry => [entry]
  | delInit entry => [entry]
  | move list head => [list, head]
  | moveTail list head => [list, head]
  | pop head => [head]
  | splice list head => [list, head]
  | spliceInit list head => [list, head]

/-- What an operation does to the heap, and what it returns. -/
def exec [DecidableEq α] [Zero α] (m : Heap α) : Op α → Heap α × Option α
  | add new head => (listAdd m new head, none)
  | addTail new head => (listAddTail m new head, none)
  | del entry => (listDel m entry, none)
  | delInit entry => (listDelInit m entry, none)
  | move list head => (listMove m list head, none)
  | moveTail list head => (listMoveTail m list head, none)
  | pop head => ((listPop m head).2, some (listPop m head).1)
  | splice list head => (listSplice m list head, none)
  | spliceInit list head => (listSpliceInit m list head, none)

/-- What each operation requires of its arguments. -/
def Allowed (L : Lists α) : Op α → Prop
  | add new head => L.Loose new ∧ L.IsHead head ∧ head ≠ new
  | addTail new head => L.Loose new ∧ L.IsHead head ∧ head ≠ new
  | del entry => L.Member entry
  | delInit entry => L.Member entry
  | move list head => L.Member list ∧ L.IsHead head
  | moveTail list head => L.Member list ∧ L.IsHead head
  | pop head => L.IsHead head ∧ L.seq head ≠ []
  | splice list head => L.IsHead list ∧ L.IsHead head ∧ list ≠ head
  | spliceInit list head => L.IsHead list ∧ L.IsHead head ∧ list ≠ head

end Op

section

variable [DecidableEq α] {L : Lists α} {e head list : α}

theorem not_node_forget (h : L.Loose e) : ¬ (L.forget e).Node e := fun hnode =>
  ((Lists.node_forget h).mp hnode).2 rfl

theorem not_node_remove (h : L.Member e) : ¬ (L.remove e).Node e := fun hnode =>
  ((Lists.node_remove h).mp hnode).2 rfl

theorem not_node_spliceFront (hlist : L.IsHead list) (hhead : L.IsHead head) (hne : list ≠ head) :
    ¬ (L.spliceFront list head hlist hhead hne).Node list := fun hnode =>
  ((Lists.node_spliceFront hlist hhead hne).mp hnode).2 rfl

/-- What each operation does to the lists. -/
def Op.step (L : Lists α) : (op : Op α) → op.Allowed L → Lists α
  | .add new head, h =>
      (L.forget new).pushFront new head (not_node_forget h.1) (Lists.isHead_forget h.2.2 h.2.1)
  | .addTail new head, h =>
      (L.forget new).pushBack new head (not_node_forget h.1) (Lists.isHead_forget h.2.2 h.2.1)
  | .del entry, _ => L.remove entry
  | .delInit entry, h => (L.remove entry).addEmpty entry (not_node_remove h)
  | .move list head, h =>
      (L.remove list).pushFront list head (not_node_remove h.1) (Lists.isHead_remove.mpr h.2)
  | .moveTail list head, h =>
      (L.remove list).pushBack list head (not_node_remove h.1) (Lists.isHead_remove.mpr h.2)
  | .pop head, h => L.popBack head h.1
  | .splice list head, h => L.spliceFront list head h.1 h.2.1 h.2.2
  | .spliceInit list head, h =>
      (L.spliceFront list head h.1 h.2.1 h.2.2).addEmpty list (not_node_spliceFront h.1 h.2.1 h.2.2)

/-- What an operation returns. -/
def Op.result (L : Lists α) : Op α → Option α
  | .pop head => (L.seq head).getLast?
  | _ => none

/-- The nodes that an operation puts into the lists. -/
def Op.given : Op α → List α
  | .add new _ => [new]
  | .addTail new _ => [new]
  | _ => []

/-- The nodes that an operation takes out of them; for `list_splice` the head that is not used any more. -/
def Op.taken (L : Lists α) : Op α → List α
  | .del entry => [entry]
  | .pop head => (L.seq head).getLast?.toList
  | .splice list _ => [list]
  | _ => []

/-- What is promised of an operation. -/
structure StepOk [Zero α] (m : Heap α) (L : Lists α) (op : Op α) (h : op.Allowed L) : Prop where
  denotes : Denotes (op.exec m).1 (op.step L h)
  result : (op.exec m).2 = op.result L
  inverse : ∀ a, (op.step L h).Node a →
    (op.exec m).1.prevs ((op.exec m).1.nexts a) = a ∧ (op.exec m).1.nexts ((op.exec m).1.prevs a) = a
  nodes : ∀ a, (op.step L h).Node a ↔ (L.Node a ∧ a ∉ op.taken L) ∨ a ∈ op.given
  frame : ∀ a, (∀ x ∈ op.args, a ≠ x ∧ ¬ L.Together x a) → (op.exec m).1 a = m a

end

/-! ### One operation -/

section

variable {m : Heap α} {L : Lists α} {a e head : α}

/-- The frame of an operation, for one of its arguments. -/
theorem not_owns_of_away {x owner : α} (h : a ≠ x ∧ ¬ L.Together x a) (hx : L.Owns owner x) : ¬ L.Owns owner a :=
  fun ha => h.2 ⟨owner, hx, ha⟩

theorem away_pair {P : α → Prop} {x y : α} (h : ∀ z ∈ [x, y], P z) : P x ∧ P y :=
  ⟨h x List.mem_cons_self, h y (List.mem_cons_of_mem x (List.mem_singleton_self y))⟩

theorem node_put_back (he : L.Node e) : (L.Node a ∧ a ≠ e) ∨ a = e ↔ L.Node a := by
  rcases eq_or_ne a e with rfl | hne
  · simp [he]
  · simp [hne]

theorem node_put_new : (L.Node a ∧ a ≠ e) ∨ a = e ↔ L.Node a ∨ a = e := by
  rcases eq_or_ne a e with rfl | hne
  · simp
  · simp [hne]

theorem Denotes.inverse_node (hm : Denotes m L) (ha : L.Node a) :
    m.prevs (m.nexts a) = a ∧ m.nexts (m.prevs a) = a := by
  obtain ⟨owner, howns⟩ := ha
  obtain ⟨⟨hprev, -⟩, hnext, -⟩ := hm.inverse howns
  exact ⟨hprev, hnext⟩

theorem Denotes.last (hm : Denotes m L) (hhead : L.IsHead head) (hne : L.seq head ≠ []) :
    (L.seq head).getLast? = some (m head).prev :=
  ((hm head _ (Lists.of_eq_seq hhead)).ends hne).2

end

section

variable [DecidableEq α] {m : Heap α} {L : Lists α} {a e : α}

/-- Taking a node out writes to its list only. -/
theorem Denotes.unlink_away (hm : Denotes m L) (he : L.Member e) (ha : a ≠ e ∧ ¬ L.Together e a) :
    unlink m e a = m a := by
  obtain ⟨owner, howns, -⟩ := he.owns
  exact hm.unlink_frame howns (not_owns_of_away ha howns)

end

section

variable [DecidableEq α] [Zero α] {m : Heap α} {L : Lists α} {a new e head list : α}

theorem add_ok (hm : Denotes m L) (h : (Op.add new head).Allowed L) : StepOk m L (.add new head) h := by
  have hhead := Lists.isHead_forget h.2.2 h.2.1
  have hdenotes := (hm.forget new).pushFront (not_node_forget h.1) hhead
  refine ⟨hdenotes, rfl, fun a ha => hdenotes.inverse_node ha, fun a => ?_, fun a ha => ?_⟩
  · refine (Lists.node_pushFront (not_node_forget h.1) hhead).trans ?_
    rw [Lists.node_forget h.1, node_put_new]
    simp [Op.taken, Op.given]
  · obtain ⟨hnew, hlist⟩ := away_pair ha
    exact hm.listAdd_frame h.2.1 hnew.1 (not_owns_of_away hlist h.2.1.owns)

theorem addTail_ok (hm : Denotes m L) (h : (Op.addTail new head).Allowed L) : StepOk m L (.addTail new head) h := by
  have hhead := Lists.isHead_forget h.2.2 h.2.1
  have hdenotes := (hm.forget new).pushBack (not_node_forget h.1) hhead
  refine ⟨hdenotes, rfl, fun a ha => hdenotes.inverse_node ha, fun a => ?_, fun a ha => ?_⟩
  · refine (Lists.node_pushBack (not_node_forget h.1) hhead).trans ?_
    rw [Lists.node_forget h.1, node_put_new]
    simp [Op.taken, Op.given]
  · obtain ⟨hnew, hlist⟩ := away_pair ha
    exact hm.listAddTail_frame h.2.1 hnew.1 (not_owns_of_away hlist h.2.1.owns)

theorem del_ok (hm : Denotes m L) (h : (Op.del e).Allowed L) : StepOk m L (.del e) h := by
  have hdenotes : Denotes (listDel m e) (L.remove e) :=
    (hm.remove h).outside (not_node_remove h) fun _ ha => listDel_of_ne ha
  refine ⟨hdenotes, rfl, fun a ha => hdenotes.inverse_node ha, fun a => ?_, fun a ha => ?_⟩
  · refine (Lists.node_remove h).trans ?_
    simp [Op.taken, Op.given]
  · have haway := ha e (List.mem_singleton_self e)
    exact (listDel_of_ne haway.1).trans (hm.unlink_away h haway)

theorem delInit_ok (hm : Denotes m L) (h : (Op.delInit e).Allowed L) : StepOk m L (.delInit e) h := by
  have hdenotes := (hm.remove h).addEmpty (not_node_remove h)
  refine ⟨hdenotes, rfl, fun a ha => hdenotes.inverse_node ha, fun a => ?_, fun a ha => ?_⟩
  · refine (Lists.node_addEmpty (not_node_remove h)).trans ?_
    rw [Lists.node_remove h, node_put_back h.node]
    simp [Op.taken, Op.given]
  · have haway := ha e (List.mem_singleton_self e)
    exact (initListHead_of_ne haway.1).trans (hm.unlink_away h haway)

theorem move_ok (hm : Denotes m L) (h : (Op.move e head).Allowed L) : StepOk m L (.move e head) h := by
  have hremove := hm.remove h.1
  have hhead : (L.remove e).IsHead head := Lists.isHead_remove.mpr h.2
  have hdenotes := hremove.pushFront (not_node_remove h.1) hhead
  refine ⟨hdenotes, rfl, fun a ha => hdenotes.inverse_node ha, fun a => ?_, fun a ha => ?_⟩
  · refine (Lists.node_pushFront (not_node_remove h.1) hhead).trans ?_
    rw [Lists.node_remove h.1, node_put_back h.1.node]
    simp [Op.taken, Op.given]
  · obtain ⟨haway, hlist⟩ := away_pair ha
    have hnot : ¬ (L.remove e).Owns head a := fun hin =>
      not_owns_of_away hlist h.2.owns ((Lists.owns_remove h.1).mp hin).1
    exact (hremove.listAdd_frame hhead haway.1 hnot).trans (hm.unlink_away h.1 haway)

theorem moveTail_ok (hm : Denotes m L) (h : (Op.moveTail e head).Allowed L) : StepOk m L (.moveTail e head) h := by
  have hremove := hm.remove h.1
  have hhead : (L.remove e).IsHead head := Lists.isHead_remove.mpr h.2
  have hdenotes := hremove.pushBack (not_node_remove h.1) hhead
  refine ⟨hdenotes, rfl, fun a ha => hdenotes.inverse_node ha, fun a => ?_, fun a ha => ?_⟩
  · refine (Lists.node_pushBack (not_node_remove h.1) hhead).trans ?_
    rw [Lists.node_remove h.1, node_put_back h.1.node]
    simp [Op.taken, Op.given]
  · obtain ⟨haway, hlist⟩ := away_pair ha
    have hnot : ¬ (L.remove e).Owns head a := fun hin =>
      not_owns_of_away hlist h.2.owns ((Lists.owns_remove h.1).mp hin).1
    exact (hremove.listAddTail_frame hhead haway.1 hnot).trans (hm.unlink_away h.1 haway)

theorem pop_ok (hm : Denotes m L) (h : (Op.pop head).Allowed L) : StepOk m L (.pop head) h := by
  have hlast := hm.last h.1 h.2
  have hmember := Lists.member_last h.1 hlast
  have hstep : (Op.pop head).step L h = L.remove (m head).prev := Lists.popBack_eq h.1 hlast
  have hdenotes : Denotes (listPop m head).2 (L.remove (m head).prev) :=
    (hm.remove hmember).outside (not_node_remove hmember) fun _ ha => listPop_of_ne ha
  have howns : L.Owns head (m head).prev :=
    (Lists.owns_iff h.1).mpr (List.mem_cons_of_mem head (List.mem_of_getLast? hlast))
  refine ⟨hstep ▸ hdenotes, hlast.symm, fun a ha => hdenotes.inverse_node (hstep ▸ ha), fun a => ?_, fun a ha => ?_⟩
  · rw [hstep, Lists.node_remove hmember]
    simp [Op.taken, Op.given, hlast]
  · have hnot := not_owns_of_away (ha head (List.mem_singleton_self head)) h.1.owns
    have hne : a ≠ (m head).prev := fun heq => hnot (heq ▸ howns)
    exact (listPop_of_ne hne).trans (hm.unlink_frame howns hnot)

theorem splice_ok (hm : Denotes m L) (h : (Op.splice list head).Allowed L) : StepOk m L (.splice list head) h := by
  have hdenotes := hm.spliceFront h.1 h.2.1 h.2.2
  refine ⟨hdenotes, rfl, fun a ha => hdenotes.inverse_node ha, fun a => ?_, fun a ha => ?_⟩
  · refine (Lists.node_spliceFront h.1 h.2.1 h.2.2).trans ?_
    simp [Op.taken, Op.given]
  · obtain ⟨hfrom, hto⟩ := away_pair ha
    exact hm.listSplice_frame h.1 h.2.1 (not_owns_of_away hfrom h.1.owns) (not_owns_of_away hto h.2.1.owns)

theorem spliceInit_ok (hm : Denotes m L) (h : (Op.spliceInit list head).Allowed L) :
    StepOk m L (.spliceInit list head) h := by
  have hsplice := hm.spliceFront h.1 h.2.1 h.2.2
  have hnot := not_node_spliceFront h.1 h.2.1 h.2.2
  have hdenotes : Denotes (listSpliceInit m list head) ((L.spliceFront list head h.1 h.2.1 h.2.2).addEmpty list hnot) := by
    have hof := Lists.of_eq_seq h.1
    by_cases hempty : listEmpty m list = true
    · rw [listSplice, if_pos hempty] at hsplice
      rw [listSpliceInit, if_pos hempty]
      have hring := hm list _ hof
      rw [(listEmpty_iff hring (L.nodup hof)).mp hempty] at hring
      exact hsplice.set hring fun _ _ _ _ => rfl
    · rw [listSplice, if_neg hempty] at hsplice
      rw [listSpliceInit, if_neg hempty]
      exact hsplice.addEmpty hnot
  refine ⟨hdenotes, rfl, fun a ha => hdenotes.inverse_node ha, fun a => ?_, fun a ha => ?_⟩
  · refine (Lists.node_addEmpty hnot).trans ?_
    rw [Lists.node_spliceFront h.1 h.2.1 h.2.2, node_put_back ⟨list, h.1.owns⟩]
    simp [Op.taken, Op.given]
  · obtain ⟨hfrom, hto⟩ := away_pair ha
    have hframe := hm.listSplice_frame h.1 h.2.1 (not_owns_of_away hfrom h.1.owns) (not_owns_of_away hto h.2.1.owns)
    rw [listSplice] at hframe
    show listSpliceInit m list head a = m a
    rw [listSpliceInit]
    split_ifs at hframe ⊢
    · rfl
    · exact (initListHead_of_ne hfrom.1).trans hframe

theorem step_ok (hm : Denotes m L) (op : Op α) (h : op.Allowed L) : StepOk m L op h := by
  cases op with
  | add new head => exact add_ok hm h
  | addTail new head => exact addTail_ok hm h
  | del entry => exact del_ok hm h
  | delInit entry => exact delInit_ok hm h
  | move list head => exact move_ok hm h
  | moveTail list head => exact moveTail_ok hm h
  | pop head => exact pop_ok hm h
  | splice list head => exact splice_ok hm h
  | spliceInit list head => exact spliceInit_ok hm h

/-! ### Runs -/

/-- Operations of which each has the arguments that it requires. -/
def Permits : Lists α → List (Op α) → Prop
  | _, [] => True
  | L, op :: ops => ∃ h : op.Allowed L, Permits (op.step L h) ops

/-- What is promised of operations that are executed one after the other. -/
def RunOk (m : Heap α) (L : Lists α) : List (Op α) → Prop
  | [] => True
  | op :: ops => ∃ h : op.Allowed L, StepOk m L op h ∧ RunOk (op.exec m).1 (op.step L h) ops

/-- **Lists**: from every heap of disjoint lists, every operation of a run does to the lists what it is for. -/
theorem run_ok (hm : Denotes m L) {ops : List (Op α)} (hops : Permits L ops) : RunOk m L ops := by
  induction ops generalizing m L with
  | nil => trivial
  | cons op ops ih =>
      obtain ⟨h, hrest⟩ := hops
      have hstep := step_ok hm op h
      exact ⟨h, hstep, ih hstep.denotes hrest⟩

end

/-! ### Two lists -/

/-- The list `11, 12` under the head 10, and an empty one under the head 20. -/
def twoHeads (a : Nat) : Option (List Nat) := if a = 10 then some [11, 12] else if a = 20 then some [] else none

theorem twoHeads_cases {a : Nat} {l : List Nat} (h : twoHeads a = some l) :
    (a = 10 ∧ l = [11, 12]) ∨ (a = 20 ∧ l = []) := by
  unfold twoHeads at h
  split_ifs at h with h10 h20
  · exact .inl ⟨h10, (Option.some.inj h).symm⟩
  · exact .inr ⟨h20, (Option.some.inj h).symm⟩

def twoLists : Lists Nat where
  of := twoHeads
  nodup h := by
    rcases twoHeads_cases h with ⟨rfl, rfl⟩ | ⟨rfl, rfl⟩
    · decide
    · decide
  disjoint h h' ha ha' := by
    rcases twoHeads_cases h with ⟨rfl, rfl⟩ | ⟨rfl, rfl⟩ <;> rcases twoHeads_cases h' with ⟨rfl, rfl⟩ | ⟨rfl, rfl⟩
    · rfl
    · simp at ha ha'
      omega
    · simp at ha ha'
      omega
    · rfl

def twoRings (a : Nat) : ListHead Nat :=
  if a = 10 then ⟨11, 12⟩
  else if a = 11 then ⟨12, 10⟩
  else if a = 12 then ⟨10, 11⟩
  else if a = 20 then ⟨20, 20⟩
  else ⟨0, 0⟩

theorem twoRings_denotes : Denotes twoRings twoLists := by
  intro head l hl
  rcases twoHeads_cases hl with ⟨rfl, rfl⟩ | ⟨rfl, rfl⟩
  · simp [Linked.Ring, Linked.Links, Heap.nexts, Heap.prevs, twoRings]
  · simp [Linked.Ring, Linked.Links, Heap.nexts, Heap.prevs, twoRings]

theorem twoLists_permits : Permits twoLists [.move 12 10, .spliceInit 10 20, .pop 20] :=
  ⟨⟨⟨10, [11, 12], rfl, by decide⟩, Lists.isHead_of_some rfl⟩,
    ⟨Lists.isHead_of_some rfl, Lists.isHead_of_some rfl, by decide⟩, ⟨Lists.isHead_of_some rfl, by decide⟩, trivial⟩

theorem run_ok_two : RunOk twoRings twoLists [.move 12 10, .spliceInit 10 20, .pop 20] :=
  run_ok twoRings_denotes twoLists_permits

end XosKernel.LinkedList
