import XosKernel.ListRun
import XosKernel.LoopRules

/-! The loops over a list of `include/linux/list.h`. A plain loop visits the nodes of the list, forwards or backwards, and ends.
The safe loop may also take the node that it is at out of the list, and put it into another one. -/

namespace XosKernel.LinkedList

variable {α : Type}

/-! ### The loops -/

section

variable [DecidableEq α] (m : Heap α)

/-- A pass of `list_for_each`, with the nodes that were visited. -/
def forEachPass (head : α) (s : α × List α) : Loop.Pass (α × List α) (List α) :=
  if s.1 = head then .done s.2 else .next ((m s.1).next, s.2 ++ [s.1])

def listForEach (head : α) (fuel : Nat) : Option (List α) := Loop.run (forEachPass m head) fuel ((m head).next, [])

/-- A pass of `list_for_each_prev`. -/
def forEachPrevPass (head : α) (s : α × List α) : Loop.Pass (α × List α) (List α) :=
  if s.1 = head then .done s.2 else .next ((m s.1).prev, s.2 ++ [s.1])

def listForEachPrev (head : α) (fuel : Nat) : Option (List α) :=
  Loop.run (forEachPrevPass m head) fuel ((m head).prev, [])

/-- A pass of the loop of `elem_find`. -/
def elemFindPass (head elem : α) (pos : α) : Loop.Pass α Bool :=
  if pos = head then .done false else if pos = elem then .done true else .next (m pos).next

def elemFind (head elem : α) (fuel : Nat) : Option Bool := Loop.run (elemFindPass m head elem) fuel (m head).next

end

/-- What the body of a safe loop does with the node that it is at. -/
inductive Fate (α : Type) where
  | keep
  | del
  | delInit
  | move (head : α)
  | moveTail (head : α)
  deriving DecidableEq

def Fate.op (pos : α) : Fate α → Option (Op α)
  | .keep => none
  | .del => some (.del pos)
  | .delInit => some (.delInit pos)
  | .move head => some (.move pos head)
  | .moveTail head => some (.moveTail pos head)

section

variable [DecidableEq α] [Zero α]

def Fate.exec (m : Heap α) (pos : α) (f : Fate α) : Heap α :=
  match f.op pos with
  | none => m
  | some op => (op.exec m).1

/-- The variables of `list_for_each_safe`. -/
structure SafeLoop (α : Type) where
  heap : Heap α
  pos : α
  n : α
  visited : List α

/-- A pass of `list_for_each_safe`. -/
def forEachSafePass (head : α) (fate : α → Fate α) (s : SafeLoop α) : Loop.Pass (SafeLoop α) (Heap α × List α) :=
  if s.pos = head then .done (s.heap, s.visited)
  else
    let heap := (fate s.pos).exec s.heap s.pos
    let pos := s.n
    .next { heap, pos, n := (heap pos).next, visited := s.visited ++ [s.pos] }

def listForEachSafe (m : Heap α) (head : α) (fate : α → Fate α) (fuel : Nat) : Option (Heap α × List α) :=
  let pos := (m head).next
  Loop.run (forEachSafePass head fate) fuel { heap := m, pos, n := (m pos).next, visited := [] }

end

/-! ### Plain loops -/

section

variable [DecidableEq α]

omit [DecidableEq α] in
/-- There is a node to go on with: the head at the end. -/
theorem exists_head?_concat (l : List α) (head : α) : ∃ b, (l ++ [head]).head? = some b := by
  cases l with
  | nil => exact ⟨head, rfl⟩
  | cons b l => exact ⟨b, rfl⟩

/-- A walk along links through the nodes of a list to its head. -/
theorem run_walk {next : α → α} {head : α} {pass : α × List α → Loop.Pass (α × List α) (List α)}
    (hpass : ∀ s, pass s = if s.1 = head then .done s.2 else .next (next s.1, s.2 ++ [s.1])) (l : List α) {fuel : Nat}
    (hfuel : l.length < fuel) {pos : α} (visited : List α) (hfirst : (l ++ [head]).head? = some pos)
    (hlinks : (l ++ [head]).IsChain fun a b => next a = b) (hhead : head ∉ l) :
    Loop.run pass fuel (pos, visited) = some (visited ++ l) := by
  induction l generalizing fuel pos visited with
  | nil =>
      obtain ⟨fuel, rfl⟩ := Nat.exists_eq_succ_of_ne_zero (Nat.ne_zero_of_lt hfuel)
      obtain rfl : head = pos := Option.some.inj hfirst
      have hdone : pass (head, visited) = .done visited := by rw [hpass, if_pos rfl]
      rw [Loop.run_succ_done hdone, List.append_nil]
  | cons a l ih =>
      obtain ⟨fuel, rfl⟩ := Nat.exists_eq_succ_of_ne_zero (Nat.ne_zero_of_lt hfuel)
      obtain rfl : a = pos := Option.some.inj hfirst
      rw [List.mem_cons, not_or] at hhead
      rw [List.cons_append, List.isChain_cons] at hlinks
      have hnext : pass (a, visited) = .next (next a, visited ++ [a]) := by rw [hpass, if_neg (Ne.symm hhead.1)]
      obtain ⟨b, hb⟩ := exists_head?_concat l head
      rw [Loop.run_succ_next hnext, hlinks.1 b hb,
        ih (Nat.lt_of_succ_lt_succ hfuel) (visited ++ [a]) hb hlinks.2 hhead.2, List.append_assoc, List.singleton_append]

variable {m : Heap α} {L : Lists α} {head : α} {l : List α}

omit [DecidableEq α] in
/-- The links of a list forwards. -/
theorem Denotes.nexts_chain (hm : Denotes m L) (hl : L.of head = some l) :
    (l ++ [head]).head? = some (m head).next ∧ (l ++ [head]).IsChain fun a b => (m a).next = b := by
  obtain ⟨hfirst, hrest⟩ := List.isChain_cons.mp (hm head l hl)
  refine ⟨?_, hrest.imp fun a b h => h.1⟩
  cases l with
  | nil => exact congrArg some (hfirst head rfl).1.symm
  | cons a l => exact congrArg some (hfirst a rfl).1.symm

omit [DecidableEq α] in
/-- The links of a list backwards. -/
theorem Denotes.prevs_chain (hm : Denotes m L) (hl : L.of head = some l) :
    (l.reverse ++ [head]).head? = some (m head).prev ∧ (l.reverse ++ [head]).IsChain fun a b => (m a).prev = b := by
  have hback : (head :: (l.reverse ++ [head])).IsChain fun a b => (m a).prev = b := by
    have hring := List.isChain_reverse.mpr ((hm head l hl).imp fun a b h => h.2)
    rwa [List.reverse_cons, List.reverse_append, List.reverse_singleton, List.append_assoc, List.singleton_append] at hring
  obtain ⟨hfirst, hrest⟩ := List.isChain_cons.mp hback
  refine ⟨?_, hrest⟩
  cases hreverse : l.reverse with
  | nil =>
      rw [hreverse] at hfirst
      exact congrArg some (hfirst head rfl).symm
  | cons a r =>
      rw [hreverse] at hfirst
      exact congrArg some (hfirst a rfl).symm

/-- The search for a node stops at it, or at the head. -/
theorem elemFind_from (elem : α) (l : List α) {fuel : Nat} (hfuel : l.length < fuel) {pos : α}
    (hfirst : (l ++ [head]).head? = some pos) (hlinks : (l ++ [head]).IsChain fun a b => (m a).next = b)
    (hhead : head ∉ l) : Loop.run (elemFindPass m head elem) fuel pos = some (decide (elem ∈ l)) := by
  induction l generalizing fuel pos with
  | nil =>
      obtain ⟨fuel, rfl⟩ := Nat.exists_eq_succ_of_ne_zero (Nat.ne_zero_of_lt hfuel)
      obtain rfl : head = pos := Option.some.inj hfirst
      have hdone : elemFindPass m head elem head = .done false := by rw [elemFindPass, if_pos rfl]
      exact Loop.run_succ_done hdone fuel
  | cons a l ih =>
      obtain ⟨fuel, rfl⟩ := Nat.exists_eq_succ_of_ne_zero (Nat.ne_zero_of_lt hfuel)
      obtain rfl : a = pos := Option.some.inj hfirst
      rw [List.mem_cons, not_or] at hhead
      rw [List.cons_append, List.isChain_cons] at hlinks
      by_cases heq : a = elem
      · have hdone : elemFindPass m head elem a = .done true := by
          rw [elemFindPass, if_neg (Ne.symm hhead.1), if_pos heq]
        rw [Loop.run_succ_done hdone, decide_eq_true (heq ▸ List.mem_cons_self)]
      · have hnext : elemFindPass m head elem a = .next (m a).next := by
          rw [elemFindPass, if_neg (Ne.symm hhead.1), if_neg heq]
        obtain ⟨b, hb⟩ := exists_head?_concat l head
        rw [Loop.run_succ_next hnext, hlinks.1 b hb, ih (Nat.lt_of_succ_lt_succ hfuel) hb hlinks.2 hhead.2,
          Option.some.injEq, decide_eq_decide, List.mem_cons]
        exact ⟨.inr, fun h => h.resolve_left fun h' => heq h'.symm⟩

/-- **Loops over a list**: forwards, backwards and as far as a node, on every heap of disjoint lists. -/
theorem loops_visit (hm : Denotes m L) (hl : L.of head = some l) {fuel : Nat} (hfuel : l.length < fuel) :
    listForEach m head fuel = some l ∧ listForEachPrev m head fuel = some l.reverse ∧
      ∀ elem, elemFind m head elem fuel = some (decide (elem ∈ l)) := by
  have hhead := (List.nodup_cons.mp (L.nodup hl)).1
  obtain ⟨hfirst, hnexts⟩ := hm.nexts_chain hl
  obtain ⟨hlast, hprevs⟩ := hm.prevs_chain hl
  refine ⟨?_, ?_, fun elem => elemFind_from elem l hfuel hfirst hnexts hhead⟩
  · exact @run_walk _ _ (fun a => (m a).next) _ _ (fun _ => rfl) l _ hfuel _ [] hfirst hnexts hhead
  · refine @run_walk _ _ (fun a => (m a).prev) _ _ (fun _ => rfl) l.reverse _ ?_ _ [] hlast hprevs ?_
    · rwa [List.length_reverse]
    · rwa [List.mem_reverse]

end

/-! ### The safe loop -/

section

variable [DecidableEq α] {m : Heap α} {L L' : Lists α} {head a : α} {fate : α → Fate α}

/-- What the list `h` gets in front, when the nodes of `v` were visited: each before the ones that came earlier. -/
def toFront (fate : α → Fate α) (h : α) (v : List α) : List α := (v.filter fun a => fate a = .move h).reverse

/-- What it gets behind. -/
def toBack (fate : α → Fate α) (h : α) (v : List α) : List α := v.filter fun a => fate a = .moveTail h

def kept (fate : α → Fate α) (v : List α) : List α := v.filter fun a => fate a = .keep

/-- The lists when the nodes of `v` were visited and those of `r` are left. -/
structure Visited (L L' : Lists α) (head : α) (fate : α → Fate α) (v r : List α) : Prop where
  here : L'.of head = some (kept fate v ++ r)
  others : ∀ h, h ≠ head → L.IsHead h → L'.of h = some (toFront fate h v ++ L.seq h ++ toBack fate h v)

/-- A node may be put into the other lists. -/
def Fate.Fits (L : Lists α) (head : α) : Fate α → Prop
  | .move dest => L.IsHead dest ∧ dest ≠ head
  | .moveTail dest => L.IsHead dest ∧ dest ≠ head
  | _ => True

variable {v r : List α}

/-- The node that the loop is at is in its list only. -/
theorem Visited.member (h : Visited L L' head fate v (a :: r)) : L'.Member a ∧ a ≠ head ∧ ∀ k, L'.IsHead k → k ≠ a := by
  have hmem : a ∈ kept fate v ++ a :: r := List.mem_append_right _ List.mem_cons_self
  have hmember : L'.Member a := ⟨head, _, h.here, hmem⟩
  exact ⟨hmember, hmember.ne_head (Lists.isHead_of_some h.here), fun k hk => (hmember.ne_head hk).symm⟩

/-- Without the node the list is one node shorter, and the others are as before. -/
theorem Visited.remove (h : Visited L L' head fate v (a :: r)) :
    (L'.remove a).of head = some (kept fate v ++ r) ∧
      ∀ k, k ≠ head → L.IsHead k → (L'.remove a).of k = some (toFront fate k v ++ L.seq k ++ toBack fate k v) := by
  have hmem : a ∈ kept fate v ++ a :: r := List.mem_append_right _ List.mem_cons_self
  have hnodup := (List.nodup_cons.mp (L'.nodup h.here)).2
  rw [List.nodup_middle, List.nodup_cons, List.mem_append, not_or] at hnodup
  constructor
  · rw [Lists.of_remove, h.here, Option.map_some, List.erase_append_right _ hnodup.1.1, List.erase_cons_head]
  · intro k hne hk
    have hnot : a ∉ toFront fate k v ++ L.seq k ++ toBack fate k v := fun hin => hne
      (L'.disjoint (h.others k hne hk) h.here (List.mem_cons_of_mem k hin) (List.mem_cons_of_mem head hmem))
    rw [Lists.of_remove, h.others k hne hk, Option.map_some, List.erase_of_not_mem hnot]

variable [Zero α]

/-- One pass of the safe loop. -/
theorem Visited.step (hm : Denotes m L') (h : Visited L L' head fate v (a :: r)) (hfits : (fate a).Fits L head) :
    ∃ L'', Denotes ((fate a).exec m a) L'' ∧ Visited L L'' head fate (v ++ [a]) r := by
  obtain ⟨hmember, hahead, hheads⟩ := h.member
  obtain ⟨hhere, hothers⟩ := h.remove
  have hk {k : α} (hne : k ≠ head) (hk : L.IsHead k) : L'.IsHead k := Lists.isHead_of_some (h.others k hne hk)
  cases hfate : fate a with
  | keep =>
      refine ⟨L', hm, ?_, fun k hne hk => ?_⟩
      · rw [h.here, kept, kept, List.filter_append, List.filter_cons_of_pos (by simp [hfate]), List.append_assoc]
        rfl
      · rw [h.others k hne hk]
        simp [toFront, toBack, hfate]
  | del =>
      refine ⟨L'.remove a, (step_ok hm (.del a) hmember).denotes, ?_, fun k hne hk => ?_⟩
      · rw [hhere]
        simp [kept, hfate]
      · rw [hothers k hne hk]
        simp [toFront, toBack, hfate]
  | delInit =>
      refine ⟨(L'.remove a).addEmpty a (not_node_remove hmember), (step_ok hm (.delInit a) hmember).denotes, ?_,
        fun k hne hk => ?_⟩
      · rw [Lists.addEmpty, Lists.of_set_of_ne hahead.symm, hhere]
        simp [kept, hfate]
      · rw [Lists.addEmpty, Lists.of_set_of_ne (hheads k (Lists.isHead_of_some (h.others k hne hk))), hothers k hne hk]
        simp [toFront, toBack, hfate]
  | move dest =>
      rw [hfate] at hfits
      obtain ⟨hhead, hne⟩ := hfits
      have hallowed : (Op.move a dest).Allowed L' := ⟨hmember, hk hne hhead⟩
      refine ⟨_, (step_ok hm (.move a dest) hallowed).denotes, ?_, fun k hne hk => ?_⟩
      · rw [Op.step, Lists.pushFront, Lists.of_set_of_ne hne.symm, hhere]
        simp [kept, hfate]
      · by_cases hdest : k = dest
        · subst hdest
          rw [Op.step, Lists.pushFront, Lists.of_set_self, Lists.seq_eq (hothers k hne hk)]
          simp [toFront, toBack, hfate]
        · rw [Op.step, Lists.pushFront, Lists.of_set_of_ne hdest, hothers k hne hk]
          simp [toFront, toBack, hfate, Ne.symm hdest]
  | moveTail dest =>
      rw [hfate] at hfits
      obtain ⟨hhead, hne⟩ := hfits
      have hallowed : (Op.moveTail a dest).Allowed L' := ⟨hmember, hk hne hhead⟩
      refine ⟨_, (step_ok hm (.moveTail a dest) hallowed).denotes, ?_, fun k hne hk => ?_⟩
      · rw [Op.step, Lists.pushBack, Lists.of_set_of_ne hne.symm, hhere]
        simp [kept, hfate]
      · by_cases hdest : k = dest
        · subst hdest
          rw [Op.step, Lists.pushBack, Lists.of_set_self, Lists.seq_eq (hothers k hne hk)]
          simp [toFront, toBack, hfate]
        · rw [Op.step, Lists.pushBack, Lists.of_set_of_ne hdest, hothers k hne hk]
          simp [toFront, toBack, hfate, Ne.symm hdest]

/-- **The safe loop** visits every node of its list, whatever becomes of each of them, and the lists are then as they were
meant to be. -/
theorem listForEachSafe_visits {l : List α} (hm : Denotes m L) (hl : L.of head = some l)
    (hfits : ∀ a ∈ l, (fate a).Fits L head) {fuel : Nat} (hfuel : l.length < fuel) :
    ∃ m' L', listForEachSafe m head fate fuel = some (m', l) ∧ Denotes m' L' ∧ Visited L L' head fate l [] := by
  suffices hfrom : ∀ (r : List α) (fuel : Nat), r.length < fuel → ∀ (v : List α) (m : Heap α) (L' : Lists α) (pos : α),
      v ++ r = l → Denotes m L' → Visited L L' head fate v r → (r ++ [head]).head? = some pos →
      ∃ m' L', Loop.run (forEachSafePass head fate) fuel { heap := m, pos, n := (m pos).next, visited := v } =
        some (m', l) ∧ Denotes m' L' ∧ Visited L L' head fate l [] by
    refine hfrom l fuel hfuel [] m L (m head).next rfl hm ⟨hl, fun h hne hh => ?_⟩ (hm.nexts_chain hl).1
    rw [Lists.of_eq_seq hh]
    simp [toFront, toBack]
  intro r
  induction r with
  | nil =>
      intro fuel hfuel v m L' pos hv hm' hvisited hpos
      obtain ⟨fuel, rfl⟩ := Nat.exists_eq_succ_of_ne_zero (Nat.ne_zero_of_lt hfuel)
      obtain rfl : head = pos := Option.some.inj hpos
      rw [List.append_nil] at hv
      subst hv
      refine ⟨m, L', Loop.run_succ_done ?_ fuel, hm', hvisited⟩
      exact if_pos rfl
  | cons a r ih =>
      intro fuel hfuel v m L' pos hv hm' hvisited hpos
      obtain ⟨fuel, rfl⟩ := Nat.exists_eq_succ_of_ne_zero (Nat.ne_zero_of_lt hfuel)
      obtain rfl : a = pos := Option.some.inj hpos
      have hmem : a ∈ l := hv ▸ List.mem_append_right v List.mem_cons_self
      obtain ⟨L'', hm'', hvisited'⟩ := hvisited.step hm' (hfits a hmem)
      -- `n` was read before the body, and is the next node of what is left
      have hnext : (r ++ [head]).head? = some (m a).next := by
        obtain ⟨b, hb⟩ := exists_head?_concat r head
        have hchain := (hm'.nexts_chain hvisited.here).2
        rw [List.append_assoc, List.isChain_append] at hchain
        rw [(List.isChain_cons.mp hchain.2.1).1 b hb, hb]
      have hpass : forEachSafePass head fate { heap := m, pos := a, n := (m a).next, visited := v } =
          .next
            { heap := (fate a).exec m a, pos := (m a).next, n := ((fate a).exec m a (m a).next).next,
              visited := v ++ [a] } := if_neg hvisited.member.2.1
      rw [Loop.run_succ_next hpass]
      exact ih fuel (Nat.lt_of_succ_lt_succ hfuel) (v ++ [a]) _ L'' _ (by rw [← hv, List.append_assoc]; rfl) hm'' hvisited' hnext

end

theorem loops_visit_two : listForEach twoRings 10 3 = some [11, 12] ∧
    listForEachPrev twoRings 10 3 = some [11, 12].reverse ∧
    ∀ elem, elemFind twoRings 10 elem 3 = some (decide (elem ∈ [11, 12])) :=
  loops_visit twoRings_denotes rfl (by decide)

/-- The first node is moved to the other list, and the second one stays. -/
def moveFirst (a : Nat) : Fate Nat := if a = 11 then .move 20 else .keep

theorem listForEachSafe_visits_two :
    ∃ m' L', listForEachSafe twoRings 10 moveFirst 3 = some (m', [11, 12]) ∧ Denotes m' L' ∧
      Visited twoLists L' 10 moveFirst [11, 12] [] := by
  refine listForEachSafe_visits twoRings_denotes rfl (fun a ha => ?_) (by decide)
  rw [List.mem_cons, List.mem_singleton] at ha
  rcases ha with rfl | rfl
  · exact ⟨Lists.isHead_of_some rfl, by decide⟩
  · exact True.intro

end XosKernel.LinkedList
