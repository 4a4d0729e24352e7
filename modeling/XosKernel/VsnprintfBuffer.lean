import XosKernel.VsnprintfFormat
import Mathlib.Data.List.TakeWhile

/-! The buffer. A `PUTC` that fits stores its octets at `pos`; one that does not fit leaves a NUL there or has no room at
all, and what follows it finds none either. So a call leaves the longest part of its output that is made of whole
`PUTC`s and fits in front of the last byte of the buffer. -/

namespace XosKernel.Vsnprintf

open Memory

/-! ### The octets of the output -/

def trailingOctets : Nat → U32 → List U8
  | 0, _ => []
  | clen + 1, c32 => trailingOctets clen (c32 >>> 6) ++ [0x80 ||| (c32 &&& 0x3f).setWidth 8]

/-- The octets of a `PUTC`, those of a character in UTF-8. -/
def Put.octets : Put → List U8
  | octet c => [c]
  | wide c32 =>
      (leading (trailing c32) ||| (c32 >>> (6 * trailing c32)).setWidth 8) :: trailingOctets (trailing c32) c32

/-- Everything that a call puts. -/
def fullOutput (env : Strings) (fmt : CString) (ap : VaList) : List U8 := (puts env fmt ap).flatMap Put.octets

@[simp] theorem length_trailingOctets (clen : Nat) (c32 : U32) : (trailingOctets clen c32).length = clen := by
  induction clen generalizing c32 with
  | zero => rfl
  | succ clen ih => simp [trailingOctets, ih]

theorem trailing_le (c32 : U32) : trailing c32 ≤ 3 := by
  unfold trailing
  split_ifs <;> omega

theorem length_octets_wide (c32 : U32) : (Put.wide c32).octets.length = trailing c32 + 1 := by
  simp [Put.octets]

theorem length_octets_pos (p : Put) : 0 < p.octets.length := by
  cases p <;> simp [Put.octets]

theorem length_octets_le (p : Put) : p.octets.length ≤ 4 := by
  cases p with
  | octet c => simp [Put.octets]
  | wide c32 =>
      have htrailing := trailing_le c32
      rw [length_octets_wide]
      omega

/-! ### Characters of several octets -/

/-- The loop over the trailing octets, which stores the last one first. -/
theorem putTrailing_eq (s8 : U64) (m : Mem 64) : ∀ (clen : Nat) (c32 : U32), clen < 2 ^ 63 →
    putTrailing s8 clen c32 m = (storeList m (s8 + 1) (trailingOctets clen c32), c32 >>> (6 * clen)) := by
  intro clen
  induction clen generalizing m with
  | zero =>
      intro c32 _
      simp [putTrailing, trailingOctets, storeList]
  | succ clen ih =>
      intro c32 hclen
      have hoffset : (s8 + 1 + BitVec.ofNat 64 clen - (s8 + 1)).toNat = clen := by
        rw [BitVec.add_comm, BitVec.add_sub_cancel, BitVec.toNat_ofNat, Nat.mod_eq_of_lt (by omega)]
      rw [putTrailing, ih _ _ (by omega), add_ofNat_succ, storeList_store8 (by simp; omega) (by rw [hoffset]; simp),
        trailingOctets, storeList_append, length_trailingOctets, ← BitVec.shiftRight_add]
      congr 2
      omega

/-- The octets of a character are stored one after the other. -/
theorem putWide_fits {size : U64} {c32 : U32} {b : Buf}
    (hfits : b.pos.toNat + (Put.wide c32).octets.length < size.toNat) :
    b.putWide size c32 =
      ⟨storeList b.buf b.pos (Put.wide c32).octets, b.pos + BitVec.ofNat 64 (Put.wide c32).octets.length⟩ := by
  have htrailing := trailing_le c32
  have hsize := size.isLt
  rw [length_octets_wide] at hfits
  have htoNat : (b.pos + BitVec.ofNat 64 (trailing c32 + 1)).toNat = b.pos.toNat + (trailing c32 + 1) := by
    rw [BitVec.toNat_add, BitVec.toNat_ofNat, Nat.mod_eq_of_lt (by omega), Nat.mod_eq_of_lt (by omega)]
  have hroom : ¬ b.pos + BitVec.ofNat 64 (trailing c32 + 1) ≥ size := by
    rw [ge_iff_le, BitVec.le_def, htoNat]
    omega
  have hfirst : b.pos < size := by
    rw [BitVec.lt_def]
    omega
  have hbehind : (trailingOctets (trailing c32) c32).length ≤ (b.pos - (b.pos + 1)).toNat := by
    rw [toNat_sub_succ_self, length_trailingOctets]
    omega
  have hlength : (trailingOctets (trailing c32) c32).length ≤ 2 ^ 64 := by
    rw [length_trailingOctets]
    omega
  simp only [Buf.putWide, Buf.putc, if_pos hfirst, ← add_ofNat_succ, if_neg hroom, length_octets_wide,
    putTrailing_eq _ _ _ _ (show trailing c32 < 2 ^ 63 by omega)]
  -- the stores at the leading octet come down to the last one
  rw [storeList_apply_of_le hlength hbehind, store8_self, ← storeList_store8 hlength hbehind, store8_store8,
    store8_store8]
  rfl

example : (Put.wide 0x20ac).octets = [0xe2, 0x82, 0xac] := by decide

/-- A character that does not fit leaves a NUL, when there is room for that. -/
theorem putWide_drops {size : U64} {c32 : U32} {b : Buf} (hpos : b.pos.toNat + 4 < 2 ^ 64)
    (hdrops : size.toNat ≤ b.pos.toNat + (Put.wide c32).octets.length) :
    b.putWide size c32 =
      ⟨if b.pos < size then store8 b.buf b.pos 0 else b.buf,
        b.pos + BitVec.ofNat 64 (Put.wide c32).octets.length⟩ := by
  have htrailing := trailing_le c32
  rw [length_octets_wide] at hdrops
  have htoNat : (b.pos + BitVec.ofNat 64 (trailing c32 + 1)).toNat = b.pos.toNat + (trailing c32 + 1) := by
    rw [BitVec.toNat_add, BitVec.toNat_ofNat, Nat.mod_eq_of_lt (by omega), Nat.mod_eq_of_lt (by omega)]
  have hroom : b.pos + BitVec.ofNat 64 (trailing c32 + 1) ≥ size := by
    rw [ge_iff_le, BitVec.le_def, htoNat]
    omega
  simp only [Buf.putWide, Buf.putc, ← add_ofNat_succ, if_pos hroom, length_octets_wide]

/-! ### One `PUTC` -/

section

variable {size : U64} {p : Put} {b : Buf}

theorem exec_fits (hfits : b.pos.toNat + p.octets.length < size.toNat) :
    p.exec size b = ⟨storeList b.buf b.pos p.octets, b.pos + BitVec.ofNat 64 p.octets.length⟩ := by
  cases p with
  | octet c =>
      have hlt : b.pos < size := lt_of_le_of_lt (Nat.le_add_right _ _) hfits
      simp only [Put.exec, Buf.putc, if_pos hlt]
      rfl
  | wide c32 => exact putWide_fits hfits

/-- A `PUTC` that does not fit writes at most one octet, a NUL if there is room behind it. -/
theorem exec_drops (hpos : b.pos.toNat + 4 < 2 ^ 64) (hdrops : size.toNat ≤ b.pos.toNat + p.octets.length) :
    ∃ c, p.exec size b = ⟨if b.pos < size then store8 b.buf b.pos c else b.buf,
        b.pos + BitVec.ofNat 64 p.octets.length⟩ ∧ (b.pos.toNat + 1 < size.toNat → c = 0) := by
  cases p with
  | octet c => exact ⟨c, rfl, fun h => absurd hdrops (Nat.not_le.mpr h)⟩
  | wide c32 => exact ⟨0, putWide_drops hpos hdrops, fun _ => rfl⟩

end

/-! ### The whole output -/

/-- The octets of the first whole `PUTC`s, as many as `room` holds. -/
def kept (room : Nat) : List Put → List U8
  | [] => []
  | p :: l => if p.octets.length ≤ room then p.octets ++ kept (room - p.octets.length) l else []

theorem kept_zero (l : List Put) : kept 0 l = [] := by
  cases l with
  | nil => rfl
  | cons p l => exact if_neg (Nat.not_le.mpr (length_octets_pos p))

theorem kept_isPrefix (room : Nat) (l : List Put) : kept room l <+: l.flatMap Put.octets := by
  induction l generalizing room with
  | nil => exact List.prefix_rfl
  | cons p l ih =>
      rw [kept, List.flatMap_cons]
      split
      · exact (List.prefix_append_right_inj _).mpr (ih _)
      · exact List.nil_prefix

/-- The output `l` is cut at `n` when `room` octets of it are to be kept: at `room` or where it ends, if every character
of several octets that begins up to there fits as a whole, and else in front of the one that does not. -/
def CutAt (l : List Put) (room n : Nat) : Prop :=
  (n = min (l.flatMap Put.octets).length room ∧
    ∀ before c32 after, l = before ++ .wide c32 :: after → (before.flatMap Put.octets).length ≤ room →
      (before.flatMap Put.octets).length + (Put.wide c32).octets.length ≤ room) ∨
    ∃ before c32 after, l = before ++ .wide c32 :: after ∧ n = (before.flatMap Put.octets).length ∧ n ≤ room ∧
      room < n + (Put.wide c32).octets.length

theorem cutAt_kept (l : List Put) (room : Nat) : CutAt l room (kept room l).length := by
  induction l generalizing room with
  | nil => exact .inl ⟨by simp [kept], fun before c32 after hl => by simp at hl⟩
  | cons p l ih =>
      rw [kept]
      split
      next hfits =>
        rw [List.length_append]
        rcases ih (room - p.octets.length) with ⟨h, hwhole⟩ | ⟨before, c32, after, hl, hn, hle, hlt⟩
        · left
          refine ⟨by rw [h, List.flatMap_cons, List.length_append]; omega, fun before c32 after hl hle => ?_⟩
          cases before with
          | nil =>
              obtain ⟨rfl, -⟩ := List.cons.inj hl
              rwa [List.flatMap_nil, List.length_nil, Nat.zero_add]
          | cons q before =>
              obtain ⟨rfl, htail⟩ := List.cons.inj hl
              rw [List.flatMap_cons, List.length_append] at hle ⊢
              have hrest := hwhole before c32 after htail (by omega)
              omega
        · right
          refine ⟨p :: before, c32, after, by rw [hl, List.cons_append], ?_, by omega, by omega⟩
          rw [List.flatMap_cons, List.length_append, hn]
      next hfits =>
        cases p with
        | octet c =>
            left
            simp only [Put.octets, List.length_singleton] at hfits
            refine ⟨by simp only [List.length_nil]; omega, fun before c32 after hl hle => ?_⟩
            cases before with
            | nil => cases hl
            | cons q before =>
                obtain ⟨rfl, -⟩ := List.cons.inj hl
                simp only [List.flatMap_cons, Put.octets, List.length_append, List.length_singleton] at hle
                omega
        | wide c32 => exact .inr ⟨[], c32, l, rfl, rfl, Nat.zero_le _, by simpa using hfits⟩

/-- What the `PUTC`s of `l` make of `b`. -/
structure Leaves (size : U64) (l : List Put) (b b' : Buf) : Prop where
  pos : b'.pos = b.pos + BitVec.ofNat 64 (l.flatMap Put.octets).length
  above : ∀ i, size ≤ i → b'.buf i = b.buf i
  below : ∀ i : U64, i.toNat < b.pos.toNat + (kept (size.toNat - 1 - b.pos.toNat) l).length →
    b'.buf i = storeList b.buf b.pos (kept (size.toNat - 1 - b.pos.toNat) l) i
  nul : ∀ i : U64, i.toNat = b.pos.toNat + (kept (size.toNat - 1 - b.pos.toNat) l).length → i.toNat + 1 < size.toNat →
    i.toNat < b'.pos.toNat → b'.buf i = 0

section

variable {size : U64} {p : Put} {l : List Put} {b b' : Buf}

theorem kept_fits (hfits : b.pos.toNat + p.octets.length < size.toNat) (l : List Put) :
    kept (size.toNat - 1 - b.pos.toNat) (p :: l) =
      p.octets ++ kept (size.toNat - 1 - (b.pos + BitVec.ofNat 64 p.octets.length).toNat) l := by
  have hsize := size.isLt
  have hnext : (b.pos + BitVec.ofNat 64 p.octets.length).toNat = b.pos.toNat + p.octets.length := by
    rw [BitVec.toNat_add, BitVec.toNat_ofNat, Nat.mod_eq_of_lt (by omega), Nat.mod_eq_of_lt (by omega)]
  rw [kept, if_pos (by omega), hnext, Nat.sub_sub _ b.pos.toNat]

theorem Leaves.fits (hfits : b.pos.toNat + p.octets.length < size.toNat)
    (h : Leaves size l ⟨storeList b.buf b.pos p.octets, b.pos + BitVec.ofNat 64 p.octets.length⟩ b') :
    Leaves size (p :: l) b b' := by
  have hsize := size.isLt
  have hoctets := length_octets_le p
  have hkept := kept_fits hfits l
  have hnext : (b.pos + BitVec.ofNat 64 p.octets.length).toNat = b.pos.toNat + p.octets.length := by
    rw [BitVec.toNat_add, BitVec.toNat_ofNat, Nat.mod_eq_of_lt (by omega), Nat.mod_eq_of_lt (by omega)]
  have hlength : b.pos.toNat + (kept (size.toNat - 1 - b.pos.toNat) (p :: l)).length =
      (b.pos + BitVec.ofNat 64 p.octets.length).toNat +
        (kept (size.toNat - 1 - (b.pos + BitVec.ofNat 64 p.octets.length).toNat) l).length := by
    rw [hkept, List.length_append, hnext, Nat.add_assoc]
  refine ⟨?_, fun i hi => ?_, fun i hi => ?_, fun i hi hroom hlt => ?_⟩
  · rw [h.pos, List.flatMap_cons, List.length_append, BitVec.ofNat_add, BitVec.add_assoc]
  · rw [h.above i hi]
    apply storeList_apply_of_le (by omega)
    rw [BitVec.le_def] at hi
    rw [BitVec.toNat_sub_of_le (by rw [BitVec.le_def]; omega)]
    omega
  · rw [h.below i (hlength ▸ hi), hkept, storeList_append]
  · exact h.nul i (hlength ▸ hi) hroom hlt

theorem Leaves.drops {c : U8} (hpos : b.pos.toNat + 4 < 2 ^ 64)
    (hdrops : size.toNat ≤ b.pos.toNat + p.octets.length) (hc : b.pos.toNat + 1 < size.toNat → c = 0)
    (h : Leaves size l ⟨if b.pos < size then store8 b.buf b.pos c else b.buf,
      b.pos + BitVec.ofNat 64 p.octets.length⟩ b') : Leaves size (p :: l) b b' := by
  have hoctets := length_octets_le p
  have hfirst := length_octets_pos p
  have hnext : (b.pos + BitVec.ofNat 64 p.octets.length).toNat = b.pos.toNat + p.octets.length := by
    rw [BitVec.toNat_add, BitVec.toNat_ofNat, Nat.mod_eq_of_lt (by omega), Nat.mod_eq_of_lt (by omega)]
  have hkept : kept (size.toNat - 1 - b.pos.toNat) (p :: l) = [] := by
    rw [kept, if_neg (by omega)]
  have hrest : kept (size.toNat - 1 - (b.pos + BitVec.ofNat 64 p.octets.length).toNat) l = [] := by
    rw [hnext, show size.toNat - 1 - (b.pos.toNat + p.octets.length) = 0 by omega, kept_zero]
  have hbelow (i : U64) (hi : i.toNat < b.pos.toNat + p.octets.length) :
      b'.buf i = if b.pos < size then store8 b.buf b.pos c i else b.buf i := by
    rw [h.below i (by rw [hrest, hnext]; exact hi), hrest]
    split_ifs <;> rfl
  refine ⟨?_, fun i hi => ?_, fun i hi => ?_, fun i hi hroom hlt => ?_⟩
  · rw [h.pos, List.flatMap_cons, List.length_append, BitVec.ofNat_add, BitVec.add_assoc]
  · rw [h.above i hi]
    split_ifs with hin
    · have hne : i ≠ b.pos := by
        rintro rfl
        exact absurd hin (BitVec.not_lt.mpr hi)
      exact (store8_apply _ _ _ _).trans (if_neg hne)
    · rfl
  · rw [hkept, List.length_nil, Nat.add_zero] at hi
    have hne : i ≠ b.pos := by
      rintro rfl
      exact lt_irrefl _ hi
    rw [hkept, hbelow i (by omega), store8_apply, if_neg hne, ite_self]
    rfl
  · rw [hkept, List.length_nil, Nat.add_zero] at hi
    have heq : i = b.pos := BitVec.eq_of_toNat_eq hi
    subst heq
    have hin : b.pos < size := by
      rw [BitVec.lt_def]
      omega
    rw [hbelow _ (by omega), if_pos hin, store8_self, hc hroom]

end

theorem leaves (size : U64) (l : List Put) (b : Buf) (hpos : b.pos.toNat + (l.flatMap Put.octets).length < 2 ^ 63) :
    Leaves size l b (putAll (Put.exec size) l b) := by
  induction l generalizing b with
  | nil =>
      refine ⟨by simp, fun i _ => rfl, fun i _ => rfl, fun i hi _ hlt => ?_⟩
      simp only [kept, List.length_nil, putAll_nil] at hi hlt
      omega
  | cons p l ih =>
      have hoctets := length_octets_le p
      rw [List.flatMap_cons, List.length_append] at hpos
      have hrest : (b.pos + BitVec.ofNat 64 p.octets.length).toNat + (l.flatMap Put.octets).length < 2 ^ 63 := by
        rw [BitVec.toNat_add, BitVec.toNat_ofNat, Nat.mod_eq_of_lt (by omega), Nat.mod_eq_of_lt (by omega)]
        omega
      rw [putAll_cons]
      by_cases hfits : b.pos.toNat + p.octets.length < size.toNat
      · rw [exec_fits hfits]
        exact .fits hfits (ih _ hrest)
      · obtain ⟨c, hexec, hc⟩ := exec_drops (b := b) (p := p) (by omega) (Nat.not_lt.mp hfits)
        rw [hexec]
        exact .drops (by omega) (Nat.not_lt.mp hfits) hc (ih _ hrest)

/-! ### The string in the buffer -/

/-- The C string in the buffer. -/
structure HoldsString (m : Mem 64) (s : List U8) : Prop where
  bytes : ∀ i, i < s.length → s[i]? = some (m (BitVec.ofNat 64 i))
  noNul : ∀ c ∈ s, c ≠ 0
  nul : m (BitVec.ofNat 64 s.length) = 0

/-- A NUL stands behind the bytes of a list: the string ends there, or at a NUL among the bytes. -/
theorem HoldsString.of_bytes {m : Mem 64} {l : List U8}
    (hbytes : ∀ i, i < l.length → l[i]? = some (m (BitVec.ofNat 64 i))) (hnul : m (BitVec.ofNat 64 l.length) = 0) :
    HoldsString m (l.takeWhile (· ≠ 0)) := by
  have hsplit : l.takeWhile (· ≠ 0) ++ l.dropWhile (· ≠ 0) = l := List.takeWhile_append_dropWhile
  have hnoNul : ∀ c ∈ l.takeWhile (· ≠ 0), c ≠ 0 := fun c hc => by simpa using List.mem_takeWhile_imp hc
  have hhead := List.head?_dropWhile_not (· ≠ 0) l
  generalize l.takeWhile (· ≠ 0) = s, l.dropWhile (· ≠ 0) = d at hsplit hnoNul hhead
  subst hsplit
  have hs (i : Nat) (hi : i < s.length) : s[i]? = some (m (BitVec.ofNat 64 i)) := by
    rw [← hbytes i (by rw [List.length_append]; omega), List.getElem?_append_left hi]
  refine ⟨hs, hnoNul, ?_⟩
  cases d with
  | nil => rwa [List.append_nil] at hnul
  | cons c d =>
      have hat := hbytes s.length (by simp)
      have hc : c = 0 := by simpa using hhead
      rw [List.getElem?_append_right le_rfl, Nat.sub_self, List.getElem?_cons_zero, Option.some.injEq] at hat
      rw [← hat, hc]

theorem length_kept_le (room : Nat) (l : List Put) : (kept room l).length ≤ room := by
  rcases cutAt_kept l room with ⟨h, -⟩ | ⟨_, _, _, _, _, h, _⟩ <;> omega

/-- `min(pos, size-1)`. -/
theorem toNat_last (pos : U64) {size : U64} (hsize : size ≠ 0) :
    (if pos < size - 1 then pos else size - 1).toNat = min pos.toNat (size.toNat - 1) := by
  have hne : size.toNat ≠ 0 := fun h => hsize (BitVec.eq_of_toNat_eq h)
  have hlast := Word.toNat_sub_one hne
  split
  next hlt =>
    rw [BitVec.lt_def, hlast] at hlt
    omega
  next hlt =>
    rw [BitVec.lt_def, hlast] at hlt
    omega

/-- The octets in front of the cut and the NUL behind them, after `buf[min(pos, size-1)] = '\0'`. -/
theorem Leaves.string {size last : U64} {l : List Put} {buf : Mem 64} {b : Buf} {n : Nat} (hsize : size ≠ 0)
    (hlength : (l.flatMap Put.octets).length < 2 ^ 31) (h : Leaves size l ⟨buf, 0⟩ b)
    (hlast : last.toNat = min b.pos.toNat (size.toNat - 1)) (hn : (kept (size.toNat - 1) l).length = n) :
    (∀ i, i < n → (l.flatMap Put.octets)[i]? = some (store8 b.buf last 0 (BitVec.ofNat 64 i))) ∧
      store8 b.buf last 0 (BitVec.ofNat 64 n) = 0 := by
  have hne : size.toNat ≠ 0 := fun h => hsize (BitVec.eq_of_toNat_eq h)
  have hpos : b.pos.toNat = (l.flatMap Put.octets).length := by
    rw [h.pos, show (0 : U64) + BitVec.ofNat 64 (l.flatMap Put.octets).length = _ from BitVec.zero_add _,
      BitVec.toNat_ofNat, Nat.mod_eq_of_lt (by omega)]
  have hzero : (⟨buf, 0⟩ : Buf).pos.toNat = 0 := rfl
  have hbelow := h.below
  have hnul := h.nul
  rw [hzero, Nat.sub_zero, Nat.zero_add, hn] at hbelow hnul
  have hroom : n ≤ size.toNat - 1 := hn ▸ length_kept_le _ _
  have hle : n ≤ (l.flatMap Put.octets).length := hn ▸ (kept_isPrefix _ l).length_le
  have hsmall (i : Nat) (hi : i ≤ n) : (BitVec.ofNat 64 i).toNat = i := by
    rw [BitVec.toNat_ofNat, Nat.mod_eq_of_lt (by omega)]
  refine ⟨fun i hi => ?_, ?_⟩
  · have hbefore : BitVec.ofNat 64 i ≠ last := by
      rintro rfl
      rw [hsmall i hi.le] at hlast
      omega
    have hkept := hbelow (BitVec.ofNat 64 i) (by rwa [hsmall i hi.le])
    rw [storeList_apply _ _ _ (by omega), show (⟨buf, 0⟩ : Buf).pos = 0#64 from rfl, BitVec.sub_zero,
      hsmall i hi.le] at hkept
    obtain ⟨t, ht⟩ := kept_isPrefix (size.toNat - 1) l
    rw [store8_apply, if_neg hbefore, hkept, ← ht, List.getElem?_append_left (hn.symm ▸ hi),
      List.getElem?_eq_getElem (hn.symm ▸ hi), Option.getD_some]
  · rw [store8_apply]
    split
    next => rfl
    next hnlast =>
      rw [← BitVec.toNat_inj, hsmall n le_rfl, hlast] at hnlast
      apply hnul
      · exact hsmall n le_rfl
      · rw [hsmall n le_rfl]
        omega
      · rw [hsmall n le_rfl]
        omega

/-- **Truncation.** The format is read up to its NUL, the value returned is the length of the full output, nothing is
written behind the buffer, and the buffer holds the octets in front of the cut and a NUL behind them: the string in it is
these octets, or those in front of the first NUL among them. The cut is behind the last `PUTC` that fits with all those
in front of it. -/
theorem vsnprintf_truncates (env : Strings) (buf : Mem 64) (size : U64) (fmt : CString) (ap : VaList)
    (hlength : (fullOutput env fmt ap).length < 2 ^ 31) :
    ∃ buf', vsnprintf env buf size (fmt.bytes ++ [0]) ap = .ok (BitVec.ofNat 32 (fullOutput env fmt ap).length, buf') ∧
      (∀ i, size ≤ i → buf' i = buf i) ∧
      (size ≠ 0 → ∃ n, CutAt (puts env fmt ap) (size.toNat - 1) n ∧ n = (kept (size.toNat - 1) (puts env fmt ap)).length ∧
        (∀ i, i < n → (fullOutput env fmt ap)[i]? = some (buf' (BitVec.ofNat 64 i))) ∧ buf' (BitVec.ofNat 64 n) = 0 ∧
        HoldsString buf' (((fullOutput env fmt ap).take n).takeWhile (· ≠ 0))) := by
  have hleaves := leaves size (puts env fmt ap) ⟨buf, 0⟩ (by
    rw [show (0 : U64).toNat = 0 from rfl, Nat.zero_add]
    exact hlength.trans (by decide))
  have hrun := formatLoop_eq env (Put.exec size) fmt ap ⟨buf, 0⟩
  generalize putAll (Put.exec size) (puts env fmt ap) ⟨buf, 0⟩ = b at hleaves hrun
  have hret : b.pos.setWidth 32 = BitVec.ofNat 32 (fullOutput env fmt ap).length := by
    rw [hleaves.pos, show (0 : U64) + BitVec.ofNat 64 ((puts env fmt ap).flatMap Put.octets).length = _ from
      BitVec.zero_add _]
    exact BitVec.setWidth_ofNat_of_le (by decide) _
  have hlast (hsize : size ≠ 0) := toNat_last b.pos hsize
  have hcall : vsnprintf env buf size (fmt.bytes ++ [0]) ap = .ok (b.pos.setWidth 32,
      if size ≠ 0 then store8 b.buf (if b.pos < size - 1 then b.pos else size - 1) 0 else b.buf) := by
    rw [vsnprintf, hrun]
    rfl
  generalize (if b.pos < size - 1 then b.pos else size - 1) = last at hlast hcall
  refine ⟨_, hret ▸ hcall, fun i hi => ?_, fun hsize => ?_⟩
  · split
    next hsize =>
      have hne : i ≠ last := by
        rintro rfl
        have hpos : size.toNat ≠ 0 := fun h => hsize (BitVec.eq_of_toNat_eq h)
        rw [BitVec.le_def, hlast hsize] at hi
        omega
      rw [store8_apply, if_neg hne, hleaves.above i hi]
    next => exact hleaves.above i hi
  · rw [if_pos hsize]
    obtain ⟨hbytes, hnul⟩ := hleaves.string hsize hlength (hlast hsize) rfl
    refine ⟨_, cutAt_kept _ _, rfl, hbytes, hnul, .of_bytes (fun i hi => ?_) ?_⟩
    · rw [List.length_take] at hi
      rw [List.getElem?_take_of_lt (by omega)]
      exact hbytes i (by omega)
    · have hn := (kept_isPrefix (size.toNat - 1) (puts env fmt ap)).length_le
      rw [List.length_take, fullOutput, Nat.min_eq_left hn]
      exact hnul

theorem nil_noNul : ∀ c ∈ ([] : List U8), c ≠ 0 := by
  simp

theorem nil_noZero : ∀ u ∈ ([] : List U16), u ≠ 0 := by
  simp

/-- Every pointer points to an empty string. -/
def emptyStrings : Strings := ⟨fun _ => ⟨[], nil_noNul⟩, fun _ => ⟨[], nil_noZero⟩⟩

theorem wideFormat_noNul : ∀ c ∈ [chr 'a', chr '%', chr 'l', chr 'c'], c ≠ 0 := by
  decide

/-- `"a%lc"`. -/
def wideFormat : CString := ⟨[chr 'a', chr '%', chr 'l', chr 'c'], wideFormat_noNul⟩

/-- A character of three octets does not fit behind another one in a buffer of four bytes, and is dropped. -/
theorem vsnprintf_truncates_wide :
    ∃ buf', vsnprintf emptyStrings (fun _ => 0xff) 4 (wideFormat.bytes ++ [0]) (fun _ => 0x20ac) = .ok (4, buf') ∧
      (∀ i, 4 ≤ i → buf' i = 0xff) ∧ buf' 0 = chr 'a' ∧ buf' 1 = 0 := by
  have hlength : (fullOutput emptyStrings wideFormat fun _ => 0x20ac).length = 4 := by decide +kernel
  obtain ⟨buf', hret, habove, hcut⟩ :=
    vsnprintf_truncates emptyStrings (fun _ => 0xff) 4 wideFormat (fun _ => 0x20ac) (by decide +kernel)
  obtain ⟨n, -, hn, hbytes, hnul, -⟩ := hcut (by decide)
  have hone : (kept ((4 : U64).toNat - 1) (puts emptyStrings wideFormat fun _ => 0x20ac)).length = 1 := by decide +kernel
  rw [hone] at hn
  subst hn
  rw [hlength] at hret
  have hfirst : (fullOutput emptyStrings wideFormat fun _ => 0x20ac)[0]? = some (chr 'a') := by decide +kernel
  exact ⟨buf', hret, habove, Option.some.inj ((hbytes 0 Nat.one_pos).symm.trans hfirst), hnul⟩

theorem nulFormat_noNul : ∀ c ∈ [chr '%', chr 'c'], c ≠ 0 := by
  decide

/-- `"%c"`. -/
def nulFormat : CString := ⟨[chr '%', chr 'c'], nulFormat_noNul⟩

/-- A `%c` of 0 puts a NUL, at which the string in the buffer ends. -/
theorem vsnprintf_nul_char :
    puts emptyStrings nulFormat (fun _ => 0) = [.octet 0] ∧
      ∃ buf', vsnprintf emptyStrings (fun _ => 0xff) 2 (nulFormat.bytes ++ [0]) (fun _ => 0) = .ok (1, buf') ∧
        HoldsString buf' [] ∧ ¬ HoldsString buf' ((fullOutput emptyStrings nulFormat fun _ => 0).take (min 1 (2 - 1))) := by
  refine ⟨by decide +kernel, _, rfl, ⟨by simp, by simp, by decide +kernel⟩, fun h => ?_⟩
  have houtput : (fullOutput emptyStrings nulFormat fun _ => 0).take (min 1 (2 - 1)) = [0] := by decide +kernel
  exact h.noNul 0 (by rw [houtput]; exact List.mem_singleton_self 0) rfl

end XosKernel.Vsnprintf
