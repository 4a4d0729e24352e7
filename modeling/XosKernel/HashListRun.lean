import XosKernel.HashList
import Mathlib.Data.List.Basic

/-! Runs of the operations on the lists with single heads, and the loops over such a list. No operation looks for the place of
a node, and none writes through a null pointer. -/

namespace XosKernel.HashList

open SlotChain

variable {η ν : Type}

/-! ### The operations -/

/-- The operations with their arguments, under the names that the code has for them. -/
inductive Op (η ν : Type) where
  | initHead (h : η)
  | addHead (n : ν) (h : η)
  | addBefore (n next : ν)
  | addAfter (n next : ν)
  | del (n : ν)
  | delInit (n : ν)
  | moveList (old new : η)

/-- The lists with `n` in front of `next`. -/
def insertBefore [DecidableEq ν] (n next : ν) (l : List ν) : List ν := l.flatMap fun a => if a = next then [n, a] else [a]

/-- The lists with `next` behind `n`. -/
def insertAfter [DecidableEq ν] (n next : ν) (l : List ν) : List ν := l.flatMap fun a => if a = n then [a, next] else [a]

section

variable [DecidableEq η] [DecidableEq ν] (poison1 : ν) (poison2 : Slot η ν)

def Op.exec (m : Heap η ν) : Op η ν → Option (Heap η ν)
  | .initHead h => some (initHlistHead m h)
  | .addHead n h => some (hlistAddHead m n h)
  | .addBefore n next => hlistAddBefore m n next
  | .addAfter n next => some (hlistAddAfter m n next)
  | .del n => hlistDel m poison1 poison2 n
  | .delInit n => hlistDelInit m n
  | .moveList old new => some (hlistMoveList m old new)

/-- What an operation does to the lists. -/
def Op.step (L : η → List ν) : Op η ν → η → List ν
  | .initHead h => Function.update L h []
  | .addHead n h => Function.update L h (n :: L h)
  | .addBefore n next => fun h => insertBefore n next (L h)
  | .addAfter n next => fun h => insertAfter n next (L h)
  | .del n => fun h => (L h).erase n
  | .delInit n => fun h => (L h).erase n
  | .moveList old new => Function.update (Function.update L new (L old)) old []

/-- What an operation requires of its arguments. -/
def Op.Allowed (m : Heap η ν) (L : η → List ν) : Op η ν → Prop
  | .initHead _ => True
  | .addHead n _ => ∀ h, n ∉ L h
  | .addBefore n next => (∀ h, n ∉ L h) ∧ ∃ h, next ∈ L h
  | .addAfter n next => (∀ h, next ∉ L h) ∧ ∃ h, n ∈ L h
  | .del n => ∃ h, n ∈ L h
  | .delInit n => (∃ h, n ∈ L h) ∨ (∀ h, n ∉ L h) ∧ hlistUnhashed m n = true
  | .moveList _ _ => True

end

/-! ### What each operation does -/

section

variable {m m' : Heap η ν} {L : η → List ν} {h : η} {n next : ν} {l l₁ l₂ : List ν}

/-- The pointers at a node of a list and from it. -/
theorem Denotes.at_node (hm : Denotes m L) (hl : L h = l₁ ++ n :: l₂) :
    m.back n = some (endSlot (.first h) l₁) ∧ m.link (.next n) = l₂.head? ∧
      m.link (endSlot (.first h) l₁) = some n := by
  have hchain := hm.chain h
  rw [hl] at hchain
  obtain ⟨hpath, hrest⟩ := path_append_iff.mp hchain
  obtain ⟨hback, hlink, -⟩ := rest_iff.mp hrest
  exact ⟨hback, hlink, hpath.link_endSlot⟩

/-- The pointers into the rest of a list and back. -/
theorem Denotes.at_slot (hm : Denotes m L) (hl : L h = l₁ ++ l₂) :
    m.link (endSlot (.first h) l₁) = l₂.head? ∧ ∀ b ∈ l₂.head?, m.back b = some (endSlot (.first h) l₁) := by
  have hchain := hm.chain h
  rw [hl] at hchain
  obtain ⟨hpath, hrest⟩ := path_append_iff.mp hchain
  refine ⟨hpath.link_endSlot, fun b hb => ?_⟩
  cases l₂ with
  | nil => cases hb
  | cons a l₂ =>
      obtain rfl : a = b := Option.some.inj hb
      exact hrest.1

theorem Denotes.at_first (hm : Denotes m L) (h : η) :
    m.first h = (L h).head? ∧ ∀ b ∈ (L h).head?, m.back b = some (.first h) :=
  hm.at_slot (List.nil_append (L h)).symm

/-- A new node is at no slot of a list. -/
theorem next_ne_endSlot (hn : n ∉ l₁) : (Slot.next n : Slot η ν) ≠ endSlot (.first h) l₁ := by
  rcases endSlot_mem (.first h) l₁ with heq | ⟨a, ha, heq⟩
  · rw [heq]
    exact nofun
  · rw [heq]
    exact fun hcontra => hn (Slot.next.inj hcontra ▸ ha)

variable [DecidableEq η] [DecidableEq ν]

omit [DecidableEq η] [DecidableEq ν] in
theorem flatMap_eq_self {f : ν → List ν} (h : ∀ a ∈ l, f a = [a]) : l.flatMap f = l :=
  (List.flatMap_congr h).trans (List.flatMap_singleton' l)

omit [DecidableEq η] in
theorem insertBefore_of_not_mem (hl : next ∉ l) : insertBefore n next l = l := by
  refine flatMap_eq_self fun a ha => if_neg ?_
  rintro rfl
  exact hl ha

omit [DecidableEq η] in
theorem insertBefore_middle (h₁ : next ∉ l₁) (h₂ : next ∉ l₂) :
    insertBefore n next (l₁ ++ next :: l₂) = l₁ ++ n :: next :: l₂ := by
  rw [insertBefore, List.flatMap_append, List.flatMap_cons, if_pos rfl, ← insertBefore, ← insertBefore,
    insertBefore_of_not_mem h₁, insertBefore_of_not_mem h₂]
  rfl

omit [DecidableEq η] in
theorem insertAfter_of_not_mem (hl : n ∉ l) : insertAfter n next l = l := by
  refine flatMap_eq_self fun a ha => if_neg ?_
  rintro rfl
  exact hl ha

omit [DecidableEq η] in
theorem insertAfter_middle (h₁ : n ∉ l₁) (h₂ : n ∉ l₂) :
    insertAfter n next (l₁ ++ n :: l₂) = l₁ ++ [n] ++ next :: l₂ := by
  rw [insertAfter, List.flatMap_append, List.flatMap_cons, if_pos rfl, ← insertAfter, ← insertAfter,
    insertAfter_of_not_mem h₁, insertAfter_of_not_mem h₂, List.append_assoc]
  rfl

omit [DecidableEq ν] in
/-- A change of the list that has a node is a change of all lists that leaves those without it alone. -/
theorem update_eq_of_mem {f : List ν → List ν} (hm : Denotes m L) (hn : n ∈ L h) (hf : ∀ l, n ∉ l → f l = l)
    {k : List ν} (hk : f (L h) = k) : Function.update L h k = fun h => f (L h) := by
  funext h'
  rcases eq_or_ne h' h with rfl | hne
  · rw [Function.update_self, hk]
  · rw [Function.update_of_ne hne, hf _ fun hn' => hne (hm.apart hn' hn)]

omit [DecidableEq η] [DecidableEq ν] in
/-- A node in its list. -/
theorem Denotes.split (hm : Denotes m L) (hn : n ∈ L h) : ∃ l₁ l₂, L h = l₁ ++ n :: l₂ ∧ n ∉ l₁ ∧ n ∉ l₂ := by
  obtain ⟨l₁, l₂, hl⟩ := List.append_of_mem hn
  have hnodup := hm.nodup h
  rw [hl, List.nodup_middle, List.nodup_cons, List.mem_append, not_or] at hnodup
  exact ⟨l₁, l₂, hl, hnodup.1⟩

omit [DecidableEq η] [DecidableEq ν] in
theorem hlistEmpty_iff (hm : Denotes m L) (h : η) : hlistEmpty m h = true ↔ L h = [] := by
  rw [hlistEmpty, (hm.at_first h).1, Option.isNone_iff_eq_none, List.head?_eq_none_iff]

/-! ### Putting a node in -/

theorem initHlistHead_denotes (hm : Denotes m L) (h : η) : Denotes (initHlistHead m h) (Function.update L h []) := by
  refine hm.set ?_ List.nodup_nil (fun n hn => by cases hn) (fun h' hne => ?_) fun h' n _ _ => ⟨?_, ?_⟩
  · simp [LinkPath, initHlistHead]
  · simp [initHlistHead, hne]
  · simp [initHlistHead]
  · simp [initHlistHead]

theorem hlistAddHead_denotes (hm : Denotes m L) (hn : ∀ h, n ∉ L h) (h : η) :
    Denotes (hlistAddHead m n h) (Function.update L h (n :: L h)) := by
  obtain ⟨hfirst, -⟩ := hm.at_first h
  have hfirst' : m.link (.first h) = (L h).head? := hfirst
  have hafter : ∀ b ∈ (L h).head?, b ≠ n := fun b hb heq => hn h (heq ▸ List.mem_of_mem_head? hb)
  have hinserted : Inserted m (hlistAddHead m n h) (.first h) n (L h).head? := by
    rw [hlistAddHead, hfirst']
    constructor
    · simp
    · simp
    · intro t ht htn
      simp [ht, htn]
    · simp
    · intro b hb
      simp [hafter b hb, Option.mem_def.mp hb]
    · intro b hb hbv
      have hbv' : (L h).head? ≠ some b := hbv
      simp [hb, hbv']
  exact hinserted.denotes hm (List.nil_append _).symm rfl rfl hn

theorem hlistAddBefore_denotes (hm : Denotes m L) (hn : ∀ h, n ∉ L h) (hnext : next ∈ L h) :
    ∃ m', hlistAddBefore m n next = some m' ∧ Denotes m' fun h => insertBefore n next (L h) := by
  obtain ⟨l₁, l₂, hl, h₁, h₂⟩ := hm.split hnext
  obtain ⟨hback, -, -⟩ := hm.at_node hl
  have hne : n ≠ next := fun heq => hn h (heq ▸ hnext)
  have hslot : Slot.next n ≠ endSlot (.first h) l₁ :=
    next_ne_endSlot fun hmem => hn h (hl ▸ List.mem_append_left _ hmem)
  let m₃ := ((m.setPprev n (m.back next)).setLink (.next n) (some next)).setPprev next (some (.next n))
  have hpprev : m₃.back n = some (endSlot (.first h) l₁) := by simp [m₃, hne, hback]
  refine ⟨m₃.setLink (endSlot (.first h) l₁) (some n), ?_, ?_⟩
  · simp only [hlistAddBefore, m₃] at hpprev ⊢
    simp only [hpprev, Option.bind_eq_bind, Option.bind_some]
    rfl
  · have hinserted : Inserted m (m₃.setLink (endSlot (.first h) l₁) (some n)) (endSlot (.first h) l₁) n (some next) := by
      constructor
      · simp
      · simp [m₃, hslot]
      · intro t ht htn
        simp [m₃, ht, htn]
      · simpa using hpprev
      · rintro b ⟨rfl⟩
        simp [m₃]
      · intro b hb hbv
        have hbnext : b ≠ next := fun heq => hbv (heq ▸ rfl)
        simp [m₃, hb, hbnext]
    have hdenotes := hinserted.denotes hm hl rfl rfl hn
    rwa [update_eq_of_mem hm hnext (fun l => insertBefore_of_not_mem) (by rw [hl, insertBefore_middle h₁ h₂])] at hdenotes

theorem hlistAddAfter_denotes (hm : Denotes m L) (hnext : ∀ h, next ∉ L h) (hn : n ∈ L h) :
    Denotes (hlistAddAfter m n next) fun h => insertAfter n next (L h) := by
  obtain ⟨l₁, l₂, hl, h₁, h₂⟩ := hm.split hn
  obtain ⟨-, hlink, -⟩ := hm.at_node hl
  have hne : next ≠ n := fun heq => hnext h (heq ▸ hn)
  have hafter : ∀ b ∈ l₂.head?, b ≠ next := by
    rintro b hb rfl
    exact hnext h (hl ▸ List.mem_append_right l₁ (List.mem_cons_of_mem n (List.mem_of_mem_head? hb)))
  have hend : Slot.next n = endSlot (.first h) (l₁ ++ [n]) := (endSlot_concat _ _ _).symm
  have hinserted : Inserted m (hlistAddAfter m n next) (.next n) next l₂.head? := by
    rw [hlistAddAfter, hlink]
    constructor
    · simp
    · simp [hne]
    · intro t ht htn
      simp [ht, htn]
    · have hnot : l₂.head? ≠ some next := fun heq => hafter next heq rfl
      simp [hne, hnot]
    · intro b hb
      simp [hne, Option.mem_def.mp hb]
    · intro b hb hbv
      have hbv' : l₂.head? ≠ some b := hbv
      simp [hb, hne, hbv']
  have hdenotes := hinserted.denotes hm (hl.trans (List.append_cons l₁ n l₂)) hend rfl hnext
  rwa [update_eq_of_mem hm hn (fun l => insertAfter_of_not_mem) (by rw [hl, insertAfter_middle h₁ h₂])] at hdenotes

/-! ### Taking a node out -/

theorem hlistUnlink_removed (hm : Denotes m L) (hl : L h = l₁ ++ n :: l₂) :
    ∃ m', hlistUnlink m n = some m' ∧ Removed m m' (endSlot (.first h) l₁) n l₂.head? := by
  obtain ⟨hback, hlink, -⟩ := hm.at_node hl
  refine ⟨(m.setLink (endSlot (.first h) l₁) l₂.head?).setPprevOf l₂.head? (endSlot (.first h) l₁), ?_, ?_⟩
  · simp only [hlistUnlink, hback, hlink, Option.bind_eq_bind, Option.bind_some]
    rfl
  · constructor
    · simp
    · intro t ht _
      simp [ht]
    · intro b hb
      simp [Option.mem_def.mp hb]
    · intro b _ hbv
      have hbv' : l₂.head? ≠ some b := hbv
      simp [hbv']

/-- What is written to the node that was taken out does not matter. -/
theorem Removed.overwrite {e : Slot η ν} {v : Option ν} (h : Removed m m' e n v) (he : Slot.next n ≠ e) (hv : n ∉ v)
    (x : Option ν) (p : Option (Slot η ν)) : Removed m ((m'.setLink (.next n) x).setPprev n p) e n v := by
  constructor
  · simp [he.symm, h.link_slot]
  · intro t ht htn
    simp [htn, h.link_else t ht htn]
  · intro b hb
    have hbn : b ≠ n := fun heq => hv (heq ▸ hb)
    simp [hbn, h.back_after b hb]
  · intro b hb hbv
    simp [hb, h.back_else b hb hbv]

/-- Both deletions, which write different things to the node. -/
theorem unlink_denotes (hm : Denotes m L) (hn : n ∈ L h) (x : Option ν) (p : Option (Slot η ν)) :
    ∃ m', hlistUnlink m n = some m' ∧ Denotes ((m'.setLink (.next n) x).setPprev n p) fun h => (L h).erase n := by
  obtain ⟨l₁, l₂, hl, h₁, h₂⟩ := hm.split hn
  obtain ⟨m', hrun, hremoved⟩ := hlistUnlink_removed hm hl
  have hover := hremoved.overwrite (next_ne_endSlot h₁) (fun hv => h₂ (List.mem_of_mem_head? hv)) x p
  have hdenotes := hover.denotes hm hl rfl rfl
  refine ⟨m', hrun, ?_⟩
  have herase : (L h).erase n = l₁ ++ l₂ := by rw [hl, List.erase_append_right _ h₁, List.erase_cons_head]
  rwa [update_eq_of_mem hm hn (fun l => List.erase_of_not_mem) herase] at hdenotes

theorem hlistDel_denotes (hm : Denotes m L) (hn : n ∈ L h) (poison1 : ν) (poison2 : Slot η ν) :
    ∃ m', hlistDel m poison1 poison2 n = some m' ∧ Denotes m' fun h => (L h).erase n := by
  obtain ⟨m', hrun, hdenotes⟩ := unlink_denotes hm hn (some poison1) (some poison2)
  refine ⟨_, ?_, hdenotes⟩
  simp only [hlistDel, hrun, Option.bind_eq_bind, Option.bind_some]
  rfl

/-- Afterwards the node is unhashed, so that it may be deleted again. -/
theorem hlistDelInit_denotes (hm : Denotes m L) (hn : n ∈ L h) :
    ∃ m', hlistDelInit m n = some m' ∧ (Denotes m' fun h => (L h).erase n) ∧ hlistUnhashed m' n = true := by
  obtain ⟨l₁, l₂, hl, -, -⟩ := hm.split hn
  obtain ⟨m', hrun, hdenotes⟩ := unlink_denotes hm hn none none
  have hhashed : hlistUnhashed m n = false := by rw [hlistUnhashed, (hm.at_node hl).1]; rfl
  refine ⟨_, ?_, hdenotes, by simp [hlistUnhashed]⟩
  simp only [hlistDelInit, hhashed, hrun, Option.bind_eq_bind, Option.bind_some]
  rfl

/-! ### Moving a list -/

/-- The old head has an empty list, and the new one has lost what it had. -/
theorem hlistMoveList_denotes (hm : Denotes m L) (old new : η) :
    Denotes (hlistMoveList m old new) (Function.update (Function.update L new (L old)) old []) := by
  obtain ⟨hfirst, -⟩ := hm.at_first old
  have hfirst' : m.link (.first old) = (L old).head? := hfirst
  have hlink (t : Slot η ν) : (hlistMoveList m old new).link t =
      if t = .first old then none else if t = .first new then (L old).head? else m.link t := by
    simp [hlistMoveList, hfirst']
  have hback (b : ν) : (hlistMoveList m old new).back b =
      if (L old).head? = some b then some (.first new) else m.back b := by
    simp [hlistMoveList, hfirst']
  have hrest : Rest m.link m.back (.first old) (L old) := by
    have hchain := hm.chain old
    rw [← List.nil_append (L old), path_append_iff] at hchain
    exact hchain.2
  constructor
  · intro h
    rcases eq_or_ne h old with rfl | hold
    · rw [Function.update_self, LinkPath, hlink, if_pos rfl]
    · rw [Function.update_of_ne hold]
      rcases eq_or_ne h new with rfl | hnew
      · rw [Function.update_self, ← List.nil_append (L old), path_append_iff]
        refine ⟨?_, hrest.moved (hm.nodup old) (fun n hn => ?_) (fun n _ => ?_) fun n _ hn => ?_⟩
        · rw [LinkPath, hlink, if_neg (by simpa using hold), if_pos rfl]
        · rw [hback, if_pos (Option.mem_def.mp hn)]
          rfl
        · rw [hlink, if_neg (by simp), if_neg (by simp)]
        · have hn' : (L old).head? ≠ some n := hn
          rw [hback, if_neg hn']
      · rw [Function.update_of_ne hnew]
        refine (hm.chain h).congr ?_ (fun n _ => ?_) fun n hn => ?_
        · rw [hlink, if_neg (by simpa using hold), if_neg (by simpa using hnew)]
        · rw [hlink, if_neg (by simp), if_neg (by simp)]
        · have hn' : (L old).head? ≠ some n := fun heq => hold (hm.apart hn (List.mem_of_mem_head? heq))
          rw [hback, if_neg hn']
  · intro h
    rcases eq_or_ne h old with rfl | hold
    · rw [Function.update_self]
      exact List.nodup_nil
    · rw [Function.update_of_ne hold]
      rcases eq_or_ne h new with rfl | hnew
      · rw [Function.update_self]
        exact hm.nodup old
      · rw [Function.update_of_ne hnew]
        exact hm.nodup h
  · intro h h' n hn hn'
    -- a node comes from the list of `old` under `new`, and from its own list under any other head
    have hfrom {k : η} (hk : n ∈ Function.update (Function.update L new (L old)) old [] k) :
        k ≠ old ∧ (k = new ∧ n ∈ L old ∨ k ≠ new ∧ n ∈ L k) := by
      rcases eq_or_ne k old with rfl | hold
      · rw [Function.update_self] at hk
        cases hk
      · rw [Function.update_of_ne hold] at hk
        rcases eq_or_ne k new with rfl | hnew
        · rw [Function.update_self] at hk
          exact ⟨hold, .inl ⟨rfl, hk⟩⟩
        · rw [Function.update_of_ne hnew] at hk
          exact ⟨hold, .inr ⟨hnew, hk⟩⟩
    obtain ⟨hold, ⟨rfl, hmem⟩ | ⟨hne, hmem⟩⟩ := hfrom hn
    · obtain ⟨hold', ⟨rfl, -⟩ | ⟨-, hmem'⟩⟩ := hfrom hn'
      · rfl
      · exact absurd (hm.apart hmem' hmem) hold'
    · obtain ⟨hold', ⟨rfl, hmem'⟩ | ⟨-, hmem'⟩⟩ := hfrom hn'
      · exact absurd (hm.apart hmem hmem') hold
      · exact hm.apart hmem hmem'

/-! ### Runs -/

/-- What is promised of an operation: it ends, and the heap has the lists that it is to have. -/
theorem exec_denotes (poison1 : ν) (poison2 : Slot η ν) (hm : Denotes m L) {op : Op η ν} (hop : op.Allowed m L) :
    ∃ m', op.exec poison1 poison2 m = some m' ∧ Denotes m' (op.step L) := by
  cases op with
  | initHead h => exact ⟨_, rfl, initHlistHead_denotes hm h⟩
  | addHead n h => exact ⟨_, rfl, hlistAddHead_denotes hm hop h⟩
  | addBefore n next =>
      obtain ⟨hn, h, hnext⟩ := hop
      exact hlistAddBefore_denotes hm hn hnext
  | addAfter n next =>
      obtain ⟨hnext, h, hn⟩ := hop
      exact ⟨_, rfl, hlistAddAfter_denotes hm hnext hn⟩
  | del n =>
      obtain ⟨h, hn⟩ := hop
      exact hlistDel_denotes hm hn poison1 poison2
  | delInit n =>
      rcases hop with ⟨h, hn⟩ | ⟨hn, hunhashed⟩
      · obtain ⟨m', hrun, hdenotes, -⟩ := hlistDelInit_denotes hm hn
        exact ⟨m', hrun, hdenotes⟩
      · have hsame : (Op.delInit n).step L = L := funext fun h => List.erase_of_not_mem (hn h)
        refine ⟨m, if_pos hunhashed, ?_⟩
        rwa [hsame]
  | moveList old new => exact ⟨_, rfl, hlistMoveList_denotes hm old new⟩

variable (poison1 : ν) (poison2 : Slot η ν)

/-- Every operation of a run finds its arguments as it requires. -/
def AllAllowed (m : Heap η ν) (L : η → List ν) : List (Op η ν) → Prop
  | [] => True
  | op :: ops => op.Allowed m L ∧ ∀ m', op.exec poison1 poison2 m = some m' → AllAllowed m' (op.step L) ops

variable {poison1 poison2}

theorem run_denotes {ops : List (Op η ν)} (hm : Denotes m L) (hops : AllAllowed poison1 poison2 m L ops) :
    ∃ m', ops.foldlM (fun m op => op.exec poison1 poison2 m) m = some m' ∧
      Denotes m' (ops.foldl (fun L op => op.step L) L) := by
  induction ops generalizing m L with
  | nil => exact ⟨m, rfl, hm⟩
  | cons op ops ih =>
      obtain ⟨hop, hrest⟩ := hops
      obtain ⟨m₁, hexec, hm₁⟩ := exec_denotes poison1 poison2 hm hop
      obtain ⟨m', hrun, hm'⟩ := ih hm₁ (hrest m₁ hexec)
      refine ⟨m', ?_, hm'⟩
      rw [List.foldlM_cons, hexec]
      exact hrun

end

/-! ### Loops over a list -/

/-- A pass of `hlist_for_each`, with the nodes that were visited. -/
def forEachPass (m : Heap η ν) (s : Option ν × List ν) : Loop.Pass (Option ν × List ν) (List ν) :=
  match s.1 with
  | none => .done s.2
  | some pos => .next (m.link (.next pos), s.2 ++ [pos])

/-- The nodes that `hlist_for_each` visits, in at most `fuel` passes. -/
def hlistForEach (m : Heap η ν) (h : η) (fuel : Nat) : Option (List ν) :=
  Loop.run (forEachPass m) fuel (m.link (.first h), [])

section

variable [DecidableEq η] [DecidableEq ν] (poison1 : ν) (poison2 : Slot η ν) (drop : ν → Bool)

/-- The variables of `hlist_for_each_safe`. -/
structure SafeLoop (η ν : Type) where
  heap : Heap η ν
  pos : Option ν
  visited : List ν

/-- A pass of `hlist_for_each_safe`, whose body deletes the nodes that `drop` tells. -/
def forEachSafePass (s : SafeLoop η ν) : Loop.Pass (SafeLoop η ν) (Option (Heap η ν × List ν)) :=
  match s.pos with
  | none => .done (some (s.heap, s.visited))
  | some pos =>
      let n := s.heap.link (.next pos)
      if drop pos then
        match hlistDel s.heap poison1 poison2 pos with
        | none => .done none
        | some heap => .next ⟨heap, n, s.visited ++ [pos]⟩
      else .next ⟨s.heap, n, s.visited ++ [pos]⟩

def hlistForEachSafe (m : Heap η ν) (h : η) (fuel : Nat) : Option (Option (Heap η ν × List ν)) :=
  Loop.run (forEachSafePass poison1 poison2 drop) fuel ⟨m, m.link (.first h), []⟩

end

section

variable {m : Heap η ν} {L : η → List ν} {h : η}

theorem hlistForEach_visits (hm : Denotes m L) (h : η) {fuel : Nat} (hfuel : (L h).length < fuel) :
    hlistForEach m h fuel = some (L h) := by
  suffices hfrom : ∀ (rest : List ν) (fuel : Nat), rest.length < fuel → ∀ (s : Slot η ν) (visited : List ν),
      LinkPath m.link m.back s rest none →
      Loop.run (forEachPass m) fuel (m.link s, visited) = some (visited ++ rest) from
    hfrom (L h) fuel hfuel _ [] (hm.chain h)
  intro rest
  induction rest with
  | nil =>
      intro fuel hfuel s visited hpath
      obtain ⟨fuel, rfl⟩ := Nat.exists_eq_succ_of_ne_zero (Nat.ne_zero_of_lt hfuel)
      rw [show m.link s = none from hpath, List.append_nil]
      exact Loop.run_succ_done rfl fuel
  | cons n rest ih =>
      intro fuel hfuel s visited hpath
      obtain ⟨fuel, rfl⟩ := Nat.exists_eq_succ_of_ne_zero (Nat.ne_zero_of_lt hfuel)
      obtain ⟨hlink, -, hrest⟩ := hpath
      have hpass : forEachPass m (some n, visited) = .next (m.link (.next n), visited ++ [n]) := rfl
      rw [hlink, Loop.run_succ_next hpass, ih fuel (Nat.lt_of_succ_lt_succ hfuel) _ _ hrest, List.append_assoc,
        List.singleton_append]

variable [DecidableEq η] [DecidableEq ν]

/-- The loop that may delete visits every node, and those that it is to keep are left. -/
theorem hlistForEachSafe_filters (hm : Denotes m L) (h : η) (poison1 : ν) (poison2 : Slot η ν) (drop : ν → Bool)
    {fuel : Nat} (hfuel : (L h).length < fuel) :
    ∃ m', hlistForEachSafe poison1 poison2 drop m h fuel = some (some (m', L h)) ∧
      Denotes m' (Function.update L h ((L h).filter fun n => !drop n)) := by
  suffices hfrom : ∀ (rest : List ν) (fuel : Nat), rest.length < fuel →
      ∀ (m : Heap η ν) (before visited : List ν), Denotes m (Function.update L h (before ++ rest)) →
      ∃ m', Loop.run (forEachSafePass poison1 poison2 drop) fuel ⟨m, rest.head?, visited⟩ =
          some (some (m', visited ++ rest)) ∧
        Denotes m' (Function.update L h (before ++ rest.filter fun n => !drop n)) by
    have hfirst : m.link (.first h) = (L h).head? := (hm.at_first h).1
    have hstart := hfrom (L h) fuel hfuel m [] [] (by rwa [List.nil_append, Function.update_eq_self])
    rw [List.nil_append, List.nil_append] at hstart
    rwa [hlistForEachSafe, hfirst]
  intro rest
  induction rest with
  | nil =>
      intro fuel hfuel m before visited hm
      obtain ⟨fuel, rfl⟩ := Nat.exists_eq_succ_of_ne_zero (Nat.ne_zero_of_lt hfuel)
      refine ⟨m, ?_, hm⟩
      rw [List.append_nil]
      exact Loop.run_succ_done rfl fuel
  | cons n rest ih =>
      intro fuel hfuel m before visited hm
      obtain ⟨fuel, rfl⟩ := Nat.exists_eq_succ_of_ne_zero (Nat.ne_zero_of_lt hfuel)
      have hself : Function.update L h (before ++ n :: rest) h = before ++ n :: rest := Function.update_self _ _ _
      have hnext : m.link (.next n) = rest.head? := (hm.at_node hself).2.1
      cases hdrop : drop n with
      | false =>
          have hpass : forEachSafePass poison1 poison2 drop ⟨m, (n :: rest).head?, visited⟩ =
              .next ⟨m, rest.head?, visited ++ [n]⟩ := by
            simp only [forEachSafePass, List.head?_cons, hdrop, hnext]
            rfl
          rw [List.append_cons before n rest] at hm
          obtain ⟨m', hrun, hm'⟩ := ih fuel (Nat.lt_of_succ_lt_succ hfuel) m _ (visited ++ [n]) hm
          refine ⟨m', ?_, ?_⟩
          · rw [Loop.run_succ_next hpass, hrun, ← List.append_cons]
          · rwa [List.filter_cons_of_pos (by simp [hdrop]), List.append_cons]
      | true =>
          have hmem : n ∈ Function.update L h (before ++ n :: rest) h := by
            rw [hself]
            exact List.mem_append_right _ List.mem_cons_self
          obtain ⟨m₁, hdel, hm₁⟩ := hlistDel_denotes hm hmem poison1 poison2
          have hpass : forEachSafePass poison1 poison2 drop ⟨m, (n :: rest).head?, visited⟩ =
              .next ⟨m₁, rest.head?, visited ++ [n]⟩ := by
            simp only [forEachSafePass, List.head?_cons, hdrop, hnext, hdel, if_true]
          have hbefore : n ∉ before := by
            have hnodup := hm.nodup h
            rw [hself, List.nodup_middle, List.nodup_cons, List.mem_append, not_or] at hnodup
            exact hnodup.1.1
          have herase : (before ++ n :: rest).erase n = before ++ rest := by
            rw [List.erase_append_right _ hbefore, List.erase_cons_head]
          rw [← update_eq_of_mem hm hmem (fun l => List.erase_of_not_mem) (by rw [hself, herase]),
            Function.update_idem] at hm₁
          obtain ⟨m', hrun, hm'⟩ := ih fuel (Nat.lt_of_succ_lt_succ hfuel) m₁ before (visited ++ [n]) hm₁
          refine ⟨m', ?_, ?_⟩
          · rw [Loop.run_succ_next hpass, hrun, ← List.append_cons]
          · rwa [List.filter_cons_of_neg (by simp [hdrop])]

/-- **The lists with single heads**: after any run every head has the list that the operations say, it is called empty when that
is empty, and a loop over it visits these nodes in their order. -/
theorem run_visits {poison1 : ν} {poison2 : Slot η ν} {ops : List (Op η ν)} (hm : Denotes m L)
    (hops : AllAllowed poison1 poison2 m L ops) :
    ∃ m', ops.foldlM (fun m op => op.exec poison1 poison2 m) m = some m' ∧
      Denotes m' (ops.foldl (fun L op => op.step L) L) ∧
      (∀ h, hlistEmpty m' h = true ↔ ops.foldl (fun L op => op.step L) L h = []) ∧
      ∀ h fuel, (ops.foldl (fun L op => op.step L) L h).length < fuel →
        hlistForEach m' h fuel = some (ops.foldl (fun L op => op.step L) L h) := by
  obtain ⟨m', hrun, hm'⟩ := run_denotes hm hops
  exact ⟨m', hrun, hm', hlistEmpty_iff hm', fun h fuel hfuel => hlistForEach_visits hm' h hfuel⟩

end

/-- Memory in which no head has a list. -/
def blankHeap : Heap Unit Nat := ⟨fun _ => none, fun _ => ⟨none, none⟩⟩

theorem blankHeap_denotes : Denotes blankHeap fun _ => [] := ⟨fun _ => rfl, fun _ => List.nodup_nil, nofun⟩

def fourOps : List (Op Unit Nat) := [.addHead 1 (), .addHead 2 (), .addAfter 2 3, .delInit 2]

theorem run_visits_four :
    ∃ m', fourOps.foldlM (fun m op => op.exec 0 (.first ()) m) blankHeap = some m' ∧
      Denotes m' (fourOps.foldl (fun L op => op.step L) fun _ => []) ∧
      (∀ h, hlistEmpty m' h = true ↔ fourOps.foldl (fun L op => op.step L) (fun _ => []) h = []) ∧
      ∀ h fuel, (fourOps.foldl (fun L op => op.step L) (fun _ => []) h).length < fuel →
        hlistForEach m' h fuel = some (fourOps.foldl (fun L op => op.step L) (fun _ => []) h) := by
  refine run_visits blankHeap_denotes ?_
  refine ⟨fun _ => List.not_mem_nil, fun _ _ => ⟨fun () => by decide, fun _ _ => ⟨⟨fun () => by decide, (), by decide⟩,
    fun _ _ => ⟨.inl ⟨(), by decide⟩, fun _ _ => trivial⟩⟩⟩⟩

theorem hlistForEachSafe_filters_four :
    ∃ m', hlistForEachSafe 0 (.first ()) (· == 2) (hlistAddHead (hlistAddHead blankHeap 1 ()) 2 ()) () 3 =
        some (some (m', [2, 1])) ∧
      Denotes m' (Function.update (Function.update (Function.update (fun _ => []) () [1]) () [2, 1]) ()
        ([2, 1].filter fun n => !(n == 2))) :=
  hlistForEachSafe_filters (hlistAddHead_denotes (hlistAddHead_denotes blankHeap_denotes (fun _ => List.not_mem_nil) ())
    (fun () => by decide) ()) () 0 (.first ()) (· == 2) (by decide)

end XosKernel.HashList
