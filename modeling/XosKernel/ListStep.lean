import XosKernel.ListHead

/-! What each change of links does to the lists of a heap: a node is taken out, a node is put at either end of a list, and
one list is put in front of another. No other node is written. -/

namespace XosKernel.LinkedList

variable {α : Type*} [DecidableEq α] {m : Heap α} {L : Lists α} {head new e a : α} {l : List α}

/-! ### Taking a node out -/

section

variable (m) (p n : α)

theorem listDelBetween_nexts (a : α) : (listDelBetween m p n).nexts a = if a = p then n else m.nexts a := by
  simp [listDelBetween]

theorem listDelBetween_prevs (a : α) : (listDelBetween m p n).prevs a = if a = n then p else m.prevs a := by
  simp [listDelBetween]

theorem listDelBetween_of_ne {p n : α} (hp : a ≠ p) (hn : a ≠ n) : listDelBetween m p n a = m a := by
  rw [listDelBetween, setNext_of_ne hp, setPrev_of_ne hn]

end

/-- What every deletion starts with. -/
abbrev unlink (m : Heap α) (e : α) : Heap α := listDelBetween m (m e).prev (m e).next

/-- Only the list of the node is written. -/
theorem Denotes.unlink_frame (hm : Denotes m L) {owner : α} (he : L.Owns owner e) (ha : ¬ L.Owns owner a) :
    unlink m e a = m a := by
  obtain ⟨⟨-, hnext⟩, -, hprev⟩ := hm.inverse he
  exact listDelBetween_of_ne m (fun heq => ha (heq ▸ hprev)) fun heq => ha (heq ▸ hnext)

theorem Denotes.remove (hm : Denotes m L) (he : L.Member e) : Denotes (unlink m e) (L.remove e) := by
  intro head k hk
  obtain ⟨l, hl, rfl⟩ := Option.map_eq_some_iff.mp hk
  by_cases hmem : e ∈ l
  · obtain ⟨l₁, l₂, -, rfl, herase⟩ := List.exists_erase_eq hmem
    obtain ⟨p, n, hseam⟩ := Linked.exists_seam head l₁ l₂
    have hring := hm head _ hl
    obtain ⟨hprev, hnext⟩ : (m e).prev = p ∧ (m e).next = n := hring.links_mem hseam
    have hnodup : (head :: (l₁ ++ l₂)).Nodup :=
      (L.nodup hl).sublist (((List.sublist_cons_self e l₂).append_left l₁).cons_cons head)
    rw [herase]
    refine hring.remove hnodup hseam ⟨?_, ?_⟩ (fun a _ ha => ?_) fun a _ ha => ?_
    · rw [listDelBetween_nexts, if_pos hprev.symm, hnext]
    · rw [listDelBetween_prevs, if_pos hnext.symm, hprev]
    · rw [listDelBetween_nexts, if_neg (hprev ▸ ha)]
    · rw [listDelBetween_prevs, if_neg (hnext ▸ ha)]
  · rw [List.erase_of_not_mem hmem]
    obtain ⟨owner, howns, hin⟩ := he.owns
    refine hm.ring_congr hl fun a ha => hm.unlink_frame howns fun hother => hmem ?_
    obtain rfl := ha.unique hother
    rwa [← Lists.seq_eq hl]

theorem listDel_of_ne [Zero α] (ha : a ≠ e) : listDel m e a = unlink m e a := by
  rw [listDel, setPrev_of_ne ha, setNext_of_ne ha]

theorem listPop_of_ne [Zero α] (ha : a ≠ (m head).prev) : (listPop m head).2 a = unlink m (m head).prev a := by
  have hitem : (listPop m head).2 a = listDel m (m head).prev a := (setPrev_of_ne ha).trans (setNext_of_ne ha)
  rw [hitem, listDel_of_ne ha]

theorem initListHead_of_ne (ha : a ≠ e) : initListHead m e a = m a := by
  rw [initListHead, setPrev_of_ne ha, setNext_of_ne ha]

/-- A node of no list is made the head of an empty one. -/
theorem Denotes.addEmpty (hm : Denotes m L) (he : ¬ L.Node e) : Denotes (initListHead m e) (L.addEmpty e he) := by
  refine hm.set (Linked.ring_nil_iff.mpr ⟨?_, ?_⟩) fun owner a _ ha => ?_
  · rw [initListHead, setPrev_nexts, setNext_nexts, if_pos rfl]
  · rw [initListHead, setPrev_prevs, if_pos rfl]
  · refine initListHead_of_ne ?_
    rintro rfl
    exact he ⟨owner, ha⟩

/-! ### Putting a node in -/

section

variable (m) (new p n : α)

theorem listAddBetween_nexts (a : α) :
    (listAddBetween m new p n).nexts a = if a = p then new else if a = new then n else m.nexts a := by
  simp [listAddBetween]

theorem listAddBetween_prevs (a : α) :
    (listAddBetween m new p n).prevs a = if a = new then p else if a = n then new else m.prevs a := by
  simp [listAddBetween]

theorem listAddBetween_of_ne {new p n : α} (hnew : a ≠ new) (hp : a ≠ p) (hn : a ≠ n) :
    listAddBetween m new p n a = m a := by
  rw [listAddBetween, setNext_of_ne hp, setPrev_of_ne hnew, setNext_of_ne hnew, setPrev_of_ne hn]

end

theorem ring_listAddBetween {p n : α} {l₁ l₂ : List α} (h : Linked.Ring m.nexts m.prevs head (l₁ ++ l₂))
    (hnodup : (head :: (l₁ ++ l₂)).Nodup) (hseam : Linked.Seam head l₁ l₂ p n) (hnew : new ∉ head :: (l₁ ++ l₂)) :
    Linked.Ring (listAddBetween m new p n).nexts (listAddBetween m new p n).prevs head (l₁ ++ new :: l₂) := by
  have hp : new ≠ p := fun heq => hnew (heq ▸ hseam.last_mem)
  have hn : n ≠ new := fun heq => hnew (heq ▸ hseam.first_mem)
  have hlast : [new].getLast? = some new := rfl
  refine h.insert hnodup hseam (.singleton new) rfl hlast ⟨?_, ?_⟩ ⟨?_, ?_⟩ (fun a ha hne => ?_) fun a ha hne => ?_
  · rw [listAddBetween_nexts, if_pos rfl]
  · rw [listAddBetween_prevs, if_pos rfl]
  · rw [listAddBetween_nexts, if_neg hp, if_pos rfl]
  · rw [listAddBetween_prevs, if_neg hn, if_pos rfl]
  · rw [listAddBetween_nexts, if_neg hne, if_neg (ne_of_mem_of_not_mem ha hnew)]
  · rw [listAddBetween_prevs, if_neg (ne_of_mem_of_not_mem ha hnew), if_neg hne]

/-- `list_add` puts a node in front. -/
theorem ring_listAdd (h : Linked.Ring m.nexts m.prevs head l) (hnodup : (head :: l).Nodup) (hnew : new ∉ head :: l) :
    Linked.Ring (listAdd m new head).nexts (listAdd m new head).prevs head (new :: l) := by
  obtain ⟨p, n, hseam⟩ := Linked.exists_seam head [] l
  obtain rfl : head = p := Option.some.inj hseam.last
  have hnext : m.nexts head = n := (Linked.Ring.links h hseam).1
  have hring := ring_listAddBetween h hnodup hseam hnew
  rwa [← hnext] at hring

/-- `list_add_tail` puts a node behind the last one. -/
theorem ring_listAddTail (h : Linked.Ring m.nexts m.prevs head l) (hnodup : (head :: l).Nodup)
    (hnew : new ∉ head :: l) :
    Linked.Ring (listAddTail m new head).nexts (listAddTail m new head).prevs head (l ++ [new]) := by
  obtain ⟨p, n, hseam⟩ := Linked.exists_seam head l []
  obtain rfl : head = n := Option.some.inj hseam.first
  rw [← List.append_nil l] at h hnodup hnew
  have hprev : m.prevs head = p := (h.links hseam).2
  have hring := ring_listAddBetween h hnodup hseam hnew
  rwa [← hprev] at hring

/-- Only the new node and the list are written. -/
theorem Denotes.listAdd_frame (hm : Denotes m L) (hhead : L.IsHead head) (hnew : a ≠ new) (ha : ¬ L.Owns head a) :
    listAdd m new head a = m a := by
  obtain ⟨⟨-, hnext⟩, -⟩ := hm.inverse hhead.owns
  exact listAddBetween_of_ne m hnew (fun heq => ha (heq ▸ hhead.owns)) fun heq => ha (heq ▸ hnext)

theorem Denotes.listAddTail_frame (hm : Denotes m L) (hhead : L.IsHead head) (hnew : a ≠ new) (ha : ¬ L.Owns head a) :
    listAddTail m new head a = m a := by
  obtain ⟨-, -, hprev⟩ := hm.inverse hhead.owns
  exact listAddBetween_of_ne m hnew (fun heq => ha (heq ▸ hprev)) fun heq => ha (heq ▸ hhead.owns)

theorem Denotes.pushFront (hm : Denotes m L) (hnew : ¬ L.Node new) (hhead : L.IsHead head) :
    Denotes (listAdd m new head) (L.pushFront new head hnew hhead) := by
  have hof := Lists.of_eq_seq hhead
  have hnot : new ∉ head :: L.seq head := fun hmem => hnew ⟨head, _, hof, hmem⟩
  refine hm.set (ring_listAdd (hm head _ hof) (L.nodup hof) hnot) fun owner a hne ha => ?_
  refine hm.listAdd_frame hhead ?_ fun hother => hne (ha.unique hother)
  rintro rfl
  exact hnew ⟨owner, ha⟩

theorem Denotes.pushBack (hm : Denotes m L) (hnew : ¬ L.Node new) (hhead : L.IsHead head) :
    Denotes (listAddTail m new head) (L.pushBack new head hnew hhead) := by
  have hof := Lists.of_eq_seq hhead
  have hnot : new ∉ head :: L.seq head := fun hmem => hnew ⟨head, _, hof, hmem⟩
  refine hm.set (ring_listAddTail (hm head _ hof) (L.nodup hof) hnot) fun owner a hne ha => ?_
  refine hm.listAddTail_frame hhead ?_ fun hother => hne (ha.unique hother)
  rintro rfl
  exact hnew ⟨owner, ha⟩

/-! ### Putting a list in front -/

theorem listEmpty_iff {list : α} (h : Linked.Ring m.nexts m.prevs list l) (hnodup : (list :: l).Nodup) :
    listEmpty m list = true ↔ l = [] := by
  rw [listEmpty, decide_eq_true_iff]
  constructor
  · intro hself
    by_contra hne
    have hmem := List.mem_of_head? (h.ends hne).1
    exact (List.nodup_cons.mp hnodup).1 (hself ▸ hmem)
  · rintro rfl
    exact (Linked.ring_nil_iff.mp h).1

section

variable (m) (list head : α)

theorem listSpliceNonempty_nexts (a : α) : (listSpliceNonempty m list head).nexts a =
    if a = m.prevs list then m.nexts head else if a = head then m.nexts list else m.nexts a := by
  simp only [listSpliceNonempty, setPrev_nexts, setNext_nexts]
  rfl

theorem listSpliceNonempty_prevs (a : α) : (listSpliceNonempty m list head).prevs a =
    if a = m.nexts head then m.prevs list else if a = m.nexts list then head else m.prevs a := by
  simp only [listSpliceNonempty, setPrev_prevs, setNext_prevs]
  rfl

theorem listSpliceNonempty_of_ne {list head : α} (hfirst : a ≠ m.nexts list) (hlast : a ≠ m.prevs list)
    (hhead : a ≠ head) (hplace : a ≠ m.nexts head) : listSpliceNonempty m list head a = m a := by
  have hset : listSpliceNonempty m list head a =
      (((m.setPrev (m.nexts list) head).setNext head (m.nexts list)).setNext (m.prevs list) (m.nexts head)) a :=
    setPrev_of_ne hplace
  rw [hset, setNext_of_ne hlast, setNext_of_ne hhead, setPrev_of_ne hfirst]

end

/-- `list_splice` puts a list in front. -/
theorem ring_listSpliceNonempty {list : α} {s : List α} (h : Linked.Ring m.nexts m.prevs head l)
    (hnodup : (head :: l).Nodup) (hlist : Linked.Ring m.nexts m.prevs list s) (hs : s.Nodup) (hne : s ≠ [])
    (hdisjoint : ∀ a ∈ s, a ∉ head :: l) :
    Linked.Ring (listSpliceNonempty m list head).nexts (listSpliceNonempty m list head).prevs head (s ++ l) := by
  obtain ⟨hfirst, hlast⟩ := hlist.ends hne
  have hfirst_mem := hdisjoint _ (List.mem_of_head? hfirst)
  have hlast_mem := hdisjoint _ (List.mem_of_getLast? hlast)
  obtain ⟨p, n, hseam⟩ := Linked.exists_seam head [] l
  obtain rfl : head = p := Option.some.inj hseam.last
  have hplace : m.nexts head = n := (Linked.Ring.links h hseam).1
  have hhead : head ∈ head :: l := List.mem_cons_self
  have hn : n ∈ head :: l := hseam.first_mem
  have hinner : s.IsChain (Linked.Links m.nexts m.prevs) :=
    (Linked.ring_append_iff.mp ((List.append_nil s).symm ▸ hlist)).1.tail
  have hseg : s.IsChain (Linked.Links (listSpliceNonempty m list head).nexts (listSpliceNonempty m list head).prevs) := by
    refine Linked.chain_congr hinner (fun a ha => ?_) fun a ha => ?_
    · have hmem := hdisjoint a (List.dropLast_subset _ ha)
      rw [listSpliceNonempty_nexts, if_neg (Linked.ne_of_mem_dropLast hs hlast ha),
        if_neg (ne_of_mem_of_not_mem hhead hmem).symm]
    · have hmem := hdisjoint a (List.mem_of_mem_tail ha)
      rw [listSpliceNonempty_prevs, hplace, if_neg (ne_of_mem_of_not_mem hn hmem).symm,
        if_neg (Linked.ne_of_mem_tail hs hfirst ha)]
  refine h.insert hnodup hseam hseg hfirst hlast ⟨?_, ?_⟩ ⟨?_, ?_⟩ (fun a ha hne => ?_) fun a ha hne => ?_
  · rw [listSpliceNonempty_nexts, if_neg (ne_of_mem_of_not_mem hhead hlast_mem), if_pos rfl]
  · rw [listSpliceNonempty_prevs, hplace, if_neg (ne_of_mem_of_not_mem hn hfirst_mem).symm, if_pos rfl]
  · rw [listSpliceNonempty_nexts, if_pos rfl, hplace]
  · rw [listSpliceNonempty_prevs, hplace, if_pos rfl]
  · rw [listSpliceNonempty_nexts, if_neg (ne_of_mem_of_not_mem ha hlast_mem), if_neg hne]
  · rw [listSpliceNonempty_prevs, hplace, if_neg hne, if_neg (ne_of_mem_of_not_mem ha hfirst_mem)]

/-- Only the two lists are written. -/
theorem Denotes.listSplice_frame {list : α} (hm : Denotes m L) (hlist : L.IsHead list) (hhead : L.IsHead head)
    (ha : ¬ L.Owns list a) (ha' : ¬ L.Owns head a) : listSplice m list head a = m a := by
  obtain ⟨⟨-, hfirst⟩, -, hlast⟩ := hm.inverse hlist.owns
  obtain ⟨⟨-, hplace⟩, -⟩ := hm.inverse hhead.owns
  rw [listSplice]
  split_ifs
  · rfl
  · exact listSpliceNonempty_of_ne m (fun heq => ha (heq ▸ hfirst)) (fun heq => ha (heq ▸ hlast))
      (fun heq => ha' (heq ▸ hhead.owns)) fun heq => ha' (heq ▸ hplace)

theorem Denotes.spliceFront {list : α} (hm : Denotes m L) (hlist : L.IsHead list) (hhead : L.IsHead head)
    (hne : list ≠ head) : Denotes (listSplice m list head) (L.spliceFront list head hlist hhead hne) := by
  have hof := Lists.of_eq_seq hhead
  have hofList := Lists.of_eq_seq hlist
  have hlistNodup := L.nodup hofList
  refine (hm.forget list).set ?_ fun owner a hother howns => ?_
  · rw [listSplice]
    split_ifs with hempty
    · rw [(listEmpty_iff (hm list _ hofList) hlistNodup).mp hempty]
      exact hm head _ hof
    · have hnonempty := mt (listEmpty_iff (hm list _ hofList) hlistNodup).mpr hempty
      refine ring_listSpliceNonempty (hm head _ hof) (L.nodup hof) (hm list _ hofList) (List.nodup_cons.mp hlistNodup).2
        hnonempty fun a ha ha' => hne ?_
      exact L.disjoint hofList hof (List.mem_cons_of_mem list ha) ha'
  · obtain ⟨hdiff, ha⟩ := Lists.owns_forget.mp howns
    exact hm.listSplice_frame hlist hhead (fun h => hdiff (ha.unique h)) fun h => hother (ha.unique h)

end XosKernel.LinkedList
