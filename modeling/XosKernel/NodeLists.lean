import Mathlib.Data.List.Nodup
import Mathlib.Logic.Function.Basic

/-! Lists of nodes, each under its head. No node is in two of the lists or twice in one; a head is a node of its own list.
The changes of lists are made of three: to put another list under a head, to forget a head with its list, and to take a
node out of the list that it is in. -/

namespace XosKernel

variable {α : Type*}

/-- Lists by their heads. -/
@[ext] structure Lists (α : Type*) where
  of : α → Option (List α)
  nodup {head : α} {l : List α} : of head = some l → (head :: l).Nodup
  disjoint {head head' a : α} {l l' : List α} :
    of head = some l → of head' = some l' → a ∈ head :: l → a ∈ head' :: l' → head = head'

namespace Lists

variable (L : Lists α)

def IsHead (a : α) : Prop := L.of a ≠ none

/-- The list under a head. -/
def seq (head : α) : List α := (L.of head).getD []

/-- A node is the head or in the list under it. -/
def Owns (head a : α) : Prop := ∃ l, L.of head = some l ∧ a ∈ head :: l

def Node (a : α) : Prop := ∃ head, L.Owns head a

/-- The nodes that are no heads. -/
def Member (a : α) : Prop := ∃ head l, L.of head = some l ∧ a ∈ l

/-- A node that is in no list, but perhaps the head of an empty one. -/
def Loose (a : α) : Prop := ∀ head, L.Owns head a → head = a ∧ L.seq a = []

/-- Two nodes of one list. -/
def Together (a b : α) : Prop := ∃ head, L.Owns head a ∧ L.Owns head b

/-! ### Changes -/

section

variable [DecidableEq α]

/-- Another list under a head, of nodes that no other head owns. -/
def set (head : α) (l : List α) (hnodup : (head :: l).Nodup)
    (hfree : ∀ a ∈ head :: l, ∀ owner, L.Owns owner a → owner = head) : Lists α where
  of := Function.update L.of head (some l)
  nodup {h k} hk := by
    rcases eq_or_ne h head with rfl | hne
    · rw [Function.update_self, Option.some.injEq] at hk
      exact hk ▸ hnodup
    · rw [Function.update_of_ne hne] at hk
      exact L.nodup hk
  disjoint {h h' a k k'} hk hk' ha ha' := by
    by_cases hhead : h = head
    · by_cases hhead' : h' = head
      · rw [hhead, hhead']
      · rw [hhead, Function.update_self, Option.some.injEq] at hk
        rw [Function.update_of_ne hhead'] at hk'
        subst hhead hk
        exact (hfree a ha h' ⟨k', hk', ha'⟩).symm
    · rw [Function.update_of_ne hhead] at hk
      by_cases hhead' : h' = head
      · rw [hhead', Function.update_self, Option.some.injEq] at hk'
        subst hhead' hk'
        exact hfree a ha' h ⟨k, hk, ha⟩
      · rw [Function.update_of_ne hhead'] at hk'
        exact L.disjoint hk hk' ha ha'

theorem update_none_some {f : α → Option (List α)} {head h : α} {k : List α}
    (hk : Function.update f head none h = some k) : f h = some k := by
  rcases eq_or_ne h head with rfl | hne
  · rw [Function.update_self] at hk
    cases hk
  · rwa [Function.update_of_ne hne] at hk

/-- A head is not one any more, and its list is no list. -/
def forget (head : α) : Lists α where
  of := Function.update L.of head none
  nodup hk := L.nodup (update_none_some hk)
  disjoint hk hk' := L.disjoint (update_none_some hk) (update_none_some hk')

/-- A node is taken out of its list. -/
def remove (e : α) : Lists α where
  of head := (L.of head).map fun l => l.erase e
  nodup {h k} hk := by
    obtain ⟨l, hl, rfl⟩ := Option.map_eq_some_iff.mp hk
    exact (L.nodup hl).sublist (List.erase_sublist.cons_cons h)
  disjoint {h h' a k k'} hk hk' ha ha' := by
    obtain ⟨l, hl, rfl⟩ := Option.map_eq_some_iff.mp hk
    obtain ⟨l', hl', rfl⟩ := Option.map_eq_some_iff.mp hk'
    exact L.disjoint hl hl' ((List.erase_sublist.cons_cons h).subset ha) ((List.erase_sublist.cons_cons h').subset ha')

end

/-! ### Owners -/

variable {L} {a b head head' : α} {l : List α}

theorem of_eq_seq (h : L.IsHead head) : L.of head = some (L.seq head) := by
  obtain ⟨l, hl⟩ := Option.ne_none_iff_exists'.mp h
  rw [seq, hl, Option.getD_some]

theorem seq_eq (h : L.of head = some l) : L.seq head = l := by
  rw [seq, h, Option.getD_some]

theorem isHead_of_some (h : L.of head = some l) : L.IsHead head := Option.ne_none_iff_exists'.mpr ⟨l, h⟩

theorem owns_iff (h : L.IsHead head) : L.Owns head a ↔ a ∈ head :: L.seq head := by
  constructor
  · rintro ⟨l, hl, ha⟩
    rwa [seq_eq hl]
  · exact fun ha => ⟨_, of_eq_seq h, ha⟩

theorem Owns.isHead (h : L.Owns head a) : L.IsHead head := isHead_of_some h.choose_spec.1

theorem IsHead.owns (h : L.IsHead head) : L.Owns head head := (owns_iff h).mpr List.mem_cons_self

/-- Each node is in one list. -/
theorem Owns.unique (h : L.Owns head a) (h' : L.Owns head' a) : head = head' := by
  obtain ⟨l, hl, ha⟩ := h
  obtain ⟨l', hl', ha'⟩ := h'
  exact L.disjoint hl hl' ha ha'

theorem Member.owns (h : L.Member a) : ∃ head, L.Owns head a ∧ a ∈ L.seq head := by
  obtain ⟨head, l, hl, ha⟩ := h
  exact ⟨head, ⟨l, hl, List.mem_cons_of_mem head ha⟩, (seq_eq hl).symm ▸ ha⟩

theorem Member.node (h : L.Member a) : L.Node a := by
  obtain ⟨head, howns, -⟩ := h.owns
  exact ⟨head, howns⟩

theorem Member.ne_head (h : L.Member a) (hhead : L.IsHead head) : a ≠ head := by
  rintro rfl
  obtain ⟨owner, howns, hmem⟩ := h.owns
  obtain rfl := howns.unique hhead.owns
  exact (List.nodup_cons.mp (L.nodup (of_eq_seq hhead))).1 hmem

theorem node_iff (hhead : L.IsHead head) :
    L.Node a ↔ a ∈ head :: L.seq head ∨ ∃ owner, owner ≠ head ∧ L.Owns owner a := by
  constructor
  · rintro ⟨owner, howns⟩
    rcases eq_or_ne owner head with rfl | hne
    · exact .inl ((owns_iff hhead).mp howns)
    · exact .inr ⟨owner, hne, howns⟩
  · rintro (hmem | ⟨owner, -, howns⟩)
    · exact ⟨head, (owns_iff hhead).mpr hmem⟩
    · exact ⟨owner, howns⟩

theorem member_last {last : α} (hhead : L.IsHead head) (hlast : (L.seq head).getLast? = some last) : L.Member last :=
  ⟨head, L.seq head, of_eq_seq hhead, List.mem_of_getLast? hlast⟩

/-! ### What may be put under a head -/

theorem nodup_put (hnew : ¬ L.Node a) (hhead : L.IsHead head) (hl : l.Perm (a :: L.seq head)) : (head :: l).Nodup := by
  have hnot : a ∉ head :: L.seq head := fun hmem => hnew ⟨head, (owns_iff hhead).mpr hmem⟩
  have hnodup : (a :: head :: L.seq head).Nodup := List.nodup_cons.mpr ⟨hnot, L.nodup (of_eq_seq hhead)⟩
  exact ((hl.cons head).trans (.swap a head _)).nodup_iff.mpr hnodup

theorem free_put (hnew : ¬ L.Node a) (hhead : L.IsHead head) (hl : l.Perm (a :: L.seq head)) :
    ∀ b ∈ head :: l, ∀ owner, L.Owns owner b → owner = head := by
  intro b hb owner howns
  rw [((hl.cons head).trans (.swap a head _)).mem_iff, List.mem_cons] at hb
  rcases hb with rfl | hmem
  · exact absurd ⟨owner, howns⟩ hnew
  · exact howns.unique ((owns_iff hhead).mpr hmem)

theorem nodup_popBack (hhead : L.IsHead head) : (head :: (L.seq head).dropLast).Nodup :=
  (L.nodup (of_eq_seq hhead)).sublist ((List.dropLast_sublist _).cons_cons head)

theorem free_popBack (hhead : L.IsHead head) :
    ∀ b ∈ head :: (L.seq head).dropLast, ∀ owner, L.Owns owner b → owner = head :=
  fun _ hb _ howns =>
    howns.unique ((owns_iff hhead).mpr (((List.dropLast_sublist (L.seq head)).cons_cons head).subset hb))

theorem nodup_splice {list : α} (hlist : L.IsHead list) (hhead : L.IsHead head) (hne : list ≠ head) :
    (head :: (L.seq list ++ L.seq head)).Nodup := by
  have hlistNodup := (List.nodup_cons.mp (L.nodup (of_eq_seq hlist))).2
  have hdisjoint : ∀ b ∈ L.seq list, ∀ c ∈ head :: L.seq head, b ≠ c := by
    rintro b hb c hc rfl
    have hlistOwns := (owns_iff hlist).mpr (List.mem_cons_of_mem list hb)
    exact hne (hlistOwns.unique ((owns_iff hhead).mpr hc))
  have happend : (L.seq list ++ head :: L.seq head).Nodup :=
    List.nodup_append.mpr ⟨hlistNodup, L.nodup (of_eq_seq hhead), hdisjoint⟩
  exact (List.perm_middle.nodup_iff).mp happend

/-! ### Owners after a change -/

variable [DecidableEq α] {e : α}

section

variable {hnodup : (head :: l).Nodup} {hfree : ∀ a ∈ head :: l, ∀ owner, L.Owns owner a → owner = head}

theorem of_set_self : (L.set head l hnodup hfree).of head = some l := Function.update_self ..

theorem of_set_of_ne (hne : head' ≠ head) : (L.set head l hnodup hfree).of head' = L.of head' :=
  Function.update_of_ne hne ..

theorem owns_set : (L.set head l hnodup hfree).Owns head' a ↔
    (head' = head ∧ a ∈ head :: l) ∨ (head' ≠ head ∧ L.Owns head' a) := by
  rcases eq_or_ne head' head with rfl | hne
  · rw [owns_iff (isHead_of_some of_set_self), seq_eq of_set_self]
    simp
  · rw [Owns, of_set_of_ne hne]
    simp [hne, Owns]

end

theorem of_forget_of_ne (hne : head' ≠ head) : (L.forget head).of head' = L.of head' := Function.update_of_ne hne ..

theorem owns_forget : (L.forget head).Owns head' a ↔ head' ≠ head ∧ L.Owns head' a := by
  rcases eq_or_ne head' head with rfl | hne
  · have hof : (L.forget head').of head' = none := Function.update_self ..
    simp [Owns, hof]
  · rw [Owns, of_forget_of_ne hne]
    simp [hne, Owns]

theorem of_remove : (L.remove e).of head = (L.of head).map fun l => l.erase e := rfl

theorem owns_remove (he : L.Member e) : (L.remove e).Owns head a ↔ L.Owns head a ∧ a ≠ e := by
  constructor
  · rintro ⟨k, hk, ha⟩
    obtain ⟨l, hl, rfl⟩ := Option.map_eq_some_iff.mp hk
    have hne := he.ne_head (isHead_of_some hl)
    rcases List.mem_cons.mp ha with rfl | hmem
    · exact ⟨⟨l, hl, List.mem_cons_self⟩, hne.symm⟩
    · have hin := ((List.nodup_cons.mp (L.nodup hl)).2.mem_erase_iff).mp hmem
      exact ⟨⟨l, hl, List.mem_cons_of_mem head hin.2⟩, hin.1⟩
  · rintro ⟨⟨l, hl, ha⟩, hne⟩
    refine ⟨l.erase e, Option.map_eq_some_iff.mpr ⟨l, hl, rfl⟩, ?_⟩
    rcases List.mem_cons.mp ha with rfl | hmem
    · exact List.mem_cons_self
    · exact List.mem_cons_of_mem head ((List.mem_erase_of_ne hne).mpr hmem)

theorem isHead_remove : (L.remove e).IsHead head ↔ L.IsHead head := by
  rw [IsHead, IsHead, ne_eq, ne_eq, remove, Option.map_eq_none_iff]

theorem isHead_forget (hne : head ≠ head') (h : L.IsHead head) : (L.forget head').IsHead head := by
  rwa [IsHead, of_forget_of_ne hne]

theorem node_set {hnodup : (head :: l).Nodup} {hfree : ∀ a ∈ head :: l, ∀ owner, L.Owns owner a → owner = head} :
    (L.set head l hnodup hfree).Node a ↔ a ∈ head :: l ∨ ∃ owner, owner ≠ head ∧ L.Owns owner a := by
  constructor
  · rintro ⟨owner, howns⟩
    exact (owns_set.mp howns).elim (fun h => .inl h.2) fun h => .inr ⟨owner, h⟩
  · rintro (hmem | ⟨owner, h⟩)
    · exact ⟨head, owns_set.mpr (.inl ⟨rfl, hmem⟩)⟩
    · exact ⟨owner, owns_set.mpr (.inr h)⟩

theorem node_remove (he : L.Member e) : (L.remove e).Node a ↔ L.Node a ∧ a ≠ e := by
  simp only [Node, owns_remove he, exists_and_right]

theorem node_forget (hloose : L.Loose e) : (L.forget e).Node a ↔ L.Node a ∧ a ≠ e := by
  constructor
  · rintro ⟨owner, howns⟩
    obtain ⟨hne, ha⟩ := owns_forget.mp howns
    refine ⟨⟨owner, ha⟩, ?_⟩
    rintro rfl
    exact hne (hloose owner ha).1
  · rintro ⟨⟨owner, ha⟩, hne⟩
    refine ⟨owner, owns_forget.mpr ⟨?_, ha⟩⟩
    rintro rfl
    have hmem := (owns_iff ha.isHead).mp ha
    rw [(hloose owner ha.isHead.owns).2, List.mem_singleton] at hmem
    exact hne hmem

/-! ### Changing the list of a head -/

variable (L)

/-- A node of no list is put in front. -/
def pushFront (new head : α) (hnew : ¬ L.Node new) (hhead : L.IsHead head) : Lists α :=
  L.set head (new :: L.seq head) (nodup_put hnew hhead (.refl _)) (free_put hnew hhead (.refl _))

/-- A node of no list is put behind the last one. -/
def pushBack (new head : α) (hnew : ¬ L.Node new) (hhead : L.IsHead head) : Lists α :=
  L.set head (L.seq head ++ [new]) (nodup_put hnew hhead (List.perm_append_singleton _ _))
    (free_put hnew hhead (List.perm_append_singleton _ _))

/-- The last node is taken out. -/
def popBack (head : α) (hhead : L.IsHead head) : Lists α :=
  L.set head (L.seq head).dropLast (nodup_popBack hhead) (free_popBack hhead)

/-- A node of no list becomes the head of an empty one. -/
def addEmpty (head : α) (hnew : ¬ L.Node head) : Lists α :=
  L.set head [] (List.nodup_singleton head) fun _ hb owner howns =>
    absurd ⟨owner, List.mem_singleton.mp hb ▸ howns⟩ hnew

variable {L} {list : α}

theorem free_splice (hlist : L.IsHead list) (hhead : L.IsHead head) :
    ∀ b ∈ head :: (L.seq list ++ L.seq head), ∀ owner, (L.forget list).Owns owner b → owner = head := by
  intro b hb owner howns
  obtain ⟨hne, hb'⟩ := owns_forget.mp howns
  have hmem : b ∈ L.seq list ++ head :: L.seq head := List.perm_middle.mem_iff.mpr hb
  rcases List.mem_append.mp hmem with hin | hin
  · exact absurd (hb'.unique ((owns_iff hlist).mpr (List.mem_cons_of_mem list hin))) hne
  · exact hb'.unique ((owns_iff hhead).mpr hin)

variable (L)

/-- One list is put in front of another, and its head is forgotten. -/
def spliceFront (list head : α) (hlist : L.IsHead list) (hhead : L.IsHead head) (hne : list ≠ head) : Lists α :=
  (L.forget list).set head (L.seq list ++ L.seq head) (nodup_splice hlist hhead hne) (free_splice hlist hhead)

variable {L}

theorem node_pushFront {new : α} (hnew : ¬ L.Node new) (hhead : L.IsHead head) :
    (L.pushFront new head hnew hhead).Node a ↔ L.Node a ∨ a = new := by
  rw [pushFront, node_set, node_iff hhead, List.mem_cons, List.mem_cons, List.mem_cons, or_left_comm, or_assoc, or_comm]

theorem node_pushBack {new : α} (hnew : ¬ L.Node new) (hhead : L.IsHead head) :
    (L.pushBack new head hnew hhead).Node a ↔ L.Node a ∨ a = new := by
  rw [pushBack, node_set, node_iff hhead, List.mem_cons, List.mem_cons, List.mem_append, List.mem_singleton,
    ← or_assoc, or_right_comm]

theorem node_addEmpty (hnew : ¬ L.Node head) : (L.addEmpty head hnew).Node a ↔ L.Node a ∨ a = head := by
  rw [addEmpty, node_set, List.mem_singleton, or_comm]
  refine or_congr_left ⟨fun ⟨owner, _, howns⟩ => ⟨owner, howns⟩, fun ⟨owner, howns⟩ => ⟨owner, ?_, howns⟩⟩
  rintro rfl
  exact hnew ⟨owner, howns.isHead.owns⟩

theorem node_spliceFront (hlist : L.IsHead list) (hhead : L.IsHead head) (hne : list ≠ head) :
    (L.spliceFront list head hlist hhead hne).Node a ↔ L.Node a ∧ a ≠ list := by
  have hother {owner b : α} (howns : L.Owns owner b) (hdiff : owner ≠ list) : b ≠ list := by
    rintro rfl
    exact hdiff (howns.unique hlist.owns)
  rw [spliceFront, node_set, List.perm_middle.symm.mem_iff, List.mem_append]
  constructor
  · rintro ((hmem | hmem) | ⟨owner, -, howns⟩)
    · refine ⟨⟨list, (owns_iff hlist).mpr (List.mem_cons_of_mem list hmem)⟩, ?_⟩
      exact ne_of_mem_of_not_mem hmem (List.nodup_cons.mp (L.nodup (of_eq_seq hlist))).1
    · have howns := (owns_iff hhead).mpr hmem
      exact ⟨⟨head, howns⟩, hother howns hne.symm⟩
    · obtain ⟨hdiff, ha⟩ := owns_forget.mp howns
      exact ⟨⟨owner, ha⟩, hother ha hdiff⟩
  · rintro ⟨⟨owner, howns⟩, hnot⟩
    rcases eq_or_ne owner list with rfl | hdiff
    · exact .inl (.inl (List.mem_of_ne_of_mem hnot ((owns_iff hlist).mp howns)))
    · rcases eq_or_ne owner head with rfl | hdiff'
      · exact .inl (.inr ((owns_iff hhead).mp howns))
      · exact .inr ⟨owner, hdiff', owns_forget.mpr ⟨hdiff, howns⟩⟩

/-- The last node is taken out as any other. -/
theorem popBack_eq (hhead : L.IsHead head) {last : α} (hlast : (L.seq head).getLast? = some last) :
    L.popBack head hhead = L.remove last := by
  refine Lists.ext (funext fun owner => ?_)
  rcases eq_or_ne owner head with rfl | hne
  · have hsplit := List.dropLast_append_getLast? last hlast
    have hnodup := (List.nodup_cons.mp (L.nodup (of_eq_seq hhead))).2
    rw [← hsplit] at hnodup
    have hnot : last ∉ (L.seq owner).dropLast := fun hmem =>
      (List.nodup_append.mp hnodup).2.2 last hmem last (List.mem_singleton_self last) rfl
    have herase : (L.seq owner).erase last = (L.seq owner).dropLast := by
      conv_lhs => rw [← hsplit]
      rw [List.erase_append_right _ hnot, List.erase_cons_head, List.append_nil]
    rw [popBack, of_set_self, of_remove, of_eq_seq hhead, Option.map_some, herase]
  · rw [popBack, of_set_of_ne hne]
    cases hof : L.of owner with
    | none => rw [of_remove, hof, Option.map_none]
    | some l =>
        have howns := (owns_iff hhead).mpr (List.mem_cons_of_mem head (List.mem_of_getLast? hlast))
        have hnot : last ∉ l := fun hmem => hne (Owns.unique ⟨l, hof, List.mem_cons_of_mem owner hmem⟩ howns)
        rw [of_remove, hof, Option.map_some, List.erase_of_not_mem hnot]

end Lists

end XosKernel
