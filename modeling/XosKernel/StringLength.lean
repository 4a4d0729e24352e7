import XosKernel.VsnprintfModel
import Mathlib.Data.List.TakeWhile

/-! `strlen` and `strnlen` on a block of memory that may hold no NUL, and the `%s` conversion that reads the octets that
`strnlen` counts. A read behind the block has no result. `strnlen` calls `strlen` before it looks at its bound, so it
stops at a NUL and nowhere else. -/

namespace XosKernel.Vsnprintf

/-- `strlen` from the `n`-th octet on: `while (*p++)`, and the pointer difference as a `uint32_t`. -/
def strlenFrom (n : Nat) : List U8 → Option U32
  | [] => none
  | c :: block => if c ≠ 0 then strlenFrom (n + 1) block else some (BitVec.ofNat 32 n)

/-- `strlen` of the block at `str`. -/
def strlenIn (block : List U8) : Option U32 := strlenFrom 0 block

/-- `strnlen` of the block at `str`. -/
def strnlenIn (block : List U8) (max : U32) : Option U32 :=
  (strlenIn block).map fun len => if len ≥ max then max else len

/-- `while (len-- > 0) PUTC(*s++)`. -/
def readOctets : Nat → List U8 → Option (List U8)
  | 0, _ => some []
  | _ + 1, [] => none
  | len + 1, c :: s => (readOctets len s).map (c :: ·)

/-- What `%.Ns` puts, for the precision `N`: `len = strnlen(s, precision)`, and `len` octets. -/
def putString (block : List U8) (precision : U32) : Option (List U8) :=
  (strnlenIn block precision).bind fun len => readOctets len.toNat block

/-- The index of the first NUL, or the number of the octets when there is none. -/
def firstNul (block : List U8) : Nat := block.findIdx (· = 0)

/-- What a bounded length does: it is the index of the first NUL or the bound, whichever is smaller, it comes from the
first `max` octets alone, and so do the octets of a conversion with this precision. -/
structure Bounded (block : List U8) (max : U32) : Prop where
  value : strnlenIn block max = some (BitVec.ofNat 32 (min (firstNul block) max.toNat))
  examines : strnlenIn (block.take max.toNat) max = strnlenIn block max
  conversion : putString (block.take max.toNat) max = some (block.take (min (firstNul block) max.toNat))

/-! ### Blocks with a NUL -/

theorem strlenFrom_append {s : List U8} (hs : ∀ c ∈ s, c ≠ 0) (n : Nat) (behind : List U8) :
    strlenFrom n (s ++ 0 :: behind) = some (BitVec.ofNat 32 (n + s.length)) := by
  induction s generalizing n with
  | nil => rfl
  | cons c s ih =>
      obtain ⟨hc, hrest⟩ := List.forall_mem_cons.mp hs
      rw [List.cons_append, strlenFrom, if_pos hc, ih hrest, List.length_cons, Nat.add_assoc, Nat.add_comm 1]

theorem strlenFrom_eq_none {block : List U8} (h : (0 : U8) ∉ block) (n : Nat) : strlenFrom n block = none := by
  induction block generalizing n with
  | nil => rfl
  | cons c block ih =>
      obtain ⟨hc, hrest⟩ := not_or.mp (mt List.mem_cons.mpr h)
      rw [strlenFrom, if_pos (Ne.symm hc), ih hrest]

theorem readOctets_append (s behind : List U8) : readOctets s.length (s ++ behind) = some s := by
  induction s with
  | nil => rfl
  | cons c s ih =>
      rw [List.length_cons, List.cons_append, readOctets, ih]
      rfl

/-- On a string the block model is the model of the conversions. -/
theorem strnlenIn_string (s : CString) (behind : List U8) (max : U32) :
    strnlenIn (s.bytes ++ 0 :: behind) max = some (strnlen s.bytes max) := by
  rw [strnlenIn, strlenIn, strlenFrom_append s.noNul, Nat.zero_add]
  rfl

theorem firstNul_append {s : List U8} (hs : ∀ c ∈ s, c ≠ 0) (behind : List U8) :
    firstNul (s ++ 0 :: behind) = s.length := by
  induction s with
  | nil => rfl
  | cons c s ih =>
      obtain ⟨hc, hrest⟩ := List.forall_mem_cons.mp hs
      have hnext := ih hrest
      rw [firstNul] at hnext ⊢
      rw [List.cons_append, List.findIdx_cons, hnext, decide_eq_false hc]
      rfl

/-- A NUL within the bound stops the scan there. -/
theorem bounded_append {s : List U8} (hs : ∀ c ∈ s, c ≠ 0) (behind : List U8) {max : U32} (hmax : s.length < max.toNat) :
    Bounded (s ++ 0 :: behind) max := by
  have hlength : (BitVec.ofNat 32 s.length).toNat = s.length := by
    rw [BitVec.toNat_ofNat, Nat.mod_eq_of_lt (hmax.trans max.isLt)]
  have hcount (behind : List U8) : strnlenIn (s ++ 0 :: behind) max = some (BitVec.ofNat 32 s.length) := by
    rw [strnlenIn, strlenIn, strlenFrom_append hs, Nat.zero_add, Option.map_some, if_neg]
    rw [ge_iff_le, BitVec.le_def, hlength]
    exact Nat.not_le.mpr hmax
  have htake : (s ++ 0 :: behind).take max.toNat = s ++ 0 :: behind.take (max.toNat - s.length - 1) := by
    obtain ⟨k, hk⟩ := Nat.exists_eq_add_of_lt hmax
    rw [hk, Nat.add_assoc, List.take_length_add_append, List.take_succ_cons]
    congr 3
    omega
  have hmin : min (firstNul (s ++ 0 :: behind)) max.toNat = s.length := by
    rw [firstNul_append hs, Nat.min_eq_left (Nat.le_of_lt hmax)]
  refine ⟨?_, ?_, ?_⟩
  · rw [hmin, hcount]
  · rw [htake, hcount, hcount]
  · rw [htake, putString, hcount, Option.bind_some, hlength, readOctets_append, hmin, List.take_left']
    rfl

/-- **`strnlen`** does what a bounded length does exactly when there is a NUL among the first `max` octets. -/
theorem bounded_iff (block : List U8) (max : U32) : Bounded block max ↔ (0 : U8) ∈ block.take max.toNat := by
  constructor
  · intro h
    by_contra hnone
    have hstuck : strnlenIn (block.take max.toNat) max = none := by
      rw [strnlenIn, strlenIn, strlenFrom_eq_none hnone]
      rfl
    have hvalue := h.value
    rw [← h.examines, hstuck] at hvalue
    cases hvalue
  · intro h
    obtain ⟨s, behind, hsplit, hfirst⟩ := List.eq_append_cons_of_mem h
    have hblock : block = s ++ 0 :: (behind ++ block.drop max.toNat) := by
      rw [← List.cons_append, ← List.append_assoc, ← hsplit, List.take_append_drop]
    have hlength : s.length < max.toNat := by
      have hle := List.length_take_le max.toNat block
      rw [hsplit, List.length_append, List.length_cons] at hle
      omega
    rw [hblock]
    exact bounded_append (fun c hc heq => hfirst (heq ▸ hc)) _ hlength

/-- One letter without a NUL. -/
theorem not_bounded_letter : ¬ Bounded [chr 'a'] 1 := by
  intro h
  have hvalue := h.value
  revert hvalue
  decide

end XosKernel.Vsnprintf
