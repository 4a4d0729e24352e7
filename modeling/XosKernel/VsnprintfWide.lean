import XosKernel.VsnprintfModel
import XosKernel.WordAlign
import Mathlib.Data.Nat.Bitwise

/-! Wide strings. `utf16s_utf8nlen` counts whole characters, so the loop that writes a wide string comes to the end of
them with `len` 0: its subtractions never wrap. -/

namespace XosKernel.Vsnprintf

/-- The number of octets that a character is written as. -/
def width (c32 : U32) : Nat := if c32 < 0x80 then 1 else 1 + trailing c32

theorem width_pos (c32 : U32) : 0 < width c32 := by
  unfold width
  split <;> omega

theorem width_eq (c32 : U32) :
    width c32 = 1 + (if c32.toNat < 0x80 then 0 else 1) + (if c32.toNat < 0x800 then 0 else 1) +
      (if c32.toNat < 0x10000 then 0 else 1) := by
  simp only [width, trailing, ge_iff_le, BitVec.le_def, BitVec.lt_def, show (0x80 : U32).toNat = 0x80 from rfl,
    show (0x800 : U32).toNat = 0x800 from rfl, show (0x10000 : U32).toNat = 0x10000 from rfl]
  split_ifs <;> omega

theorem toNat_unitLen (c0 : U16) :
    (unitLen c0).toNat = 1 + (if c0.toNat < 0x80 then 0 else 1) + (if c0.toNat < 0x800 then 0 else 1) := by
  simp only [unitLen, ge_iff_le, BitVec.le_def, show (0x80 : U16).toNat = 0x80 from rfl,
    show (0x800 : U16).toNat = 0x800 from rfl]
  split_ifs <;> first | rfl | omega

theorem width_setWidth (c0 : U16) : width (c0.setWidth 32) = (unitLen c0).toNat := by
  have hc0 := c0.isLt
  rw [width_eq, toNat_unitLen, BitVec.toNat_setWidth, Nat.mod_eq_of_lt (by omega),
    if_pos (show c0.toNat < 0x10000 by omega), Nat.add_zero]

/-! ### Surrogates -/

theorem toNat_and_fc00 (c : U16) : (c &&& 0xfc00).toNat = c.toNat / 0x400 * 0x400 :=
  Word.toNat_and_not_sub_one (a := 0x400) ⟨10, rfl⟩ c

theorem toNat_and_f800 (c : U16) : (c &&& 0xf800).toNat = c.toNat / 0x800 * 0x800 :=
  Word.toNat_and_not_sub_one (a := 0x800) ⟨11, rfl⟩ c

theorem high_iff (c : U16) : c &&& 0xfc00 = 0xd800 ↔ 0xd800 ≤ c.toNat ∧ c.toNat < 0xdc00 := by
  rw [← BitVec.toNat_inj, toNat_and_fc00, show (0xd800 : U16).toNat = 0xd800 from rfl]
  omega

theorem low_iff (c : U16) : c &&& 0xfc00 = 0xdc00 ↔ 0xdc00 ≤ c.toNat ∧ c.toNat < 0xe000 := by
  rw [← BitVec.toNat_inj, toNat_and_fc00, show (0xdc00 : U16).toNat = 0xdc00 from rfl]
  omega

theorem surrogate_iff (c : U16) : c &&& 0xf800 = 0xd800 ↔ 0xd800 ≤ c.toNat ∧ c.toNat < 0xe000 := by
  rw [← BitVec.toNat_inj, toNat_and_f800, show (0xd800 : U16).toNat = 0xd800 from rfl]
  omega

theorem and_0400_iff (c : U16) : c &&& 0x0400 = 0 ↔ c.toNat / 0x400 % 2 = 0 := by
  rw [← BitVec.toNat_inj, BitVec.toNat_and, show (0x0400 : U16).toNat = 2 ^ 10 from rfl, Nat.and_two_pow,
    Nat.testBit_eq_decide_div_mod_eq]
  simp

/-! ### Characters -/

theorem utf16ToUtf32_unit {c0 : U16} (h : c0 &&& 0xf800 ≠ 0xd800) (s : List U16) :
    utf16ToUtf32 (c0 :: s) = (c0.setWidth 32, s) := by
  rw [utf16ToUtf32.eq_def]
  exact if_pos h

/-- A low surrogate, or a high one without a low one behind it. -/
theorem utf16ToUtf32_lone {c0 : U16} {s : List U16} (h : c0 &&& 0xf800 = 0xd800)
    (hpair : c0 &&& 0xfc00 = 0xd800 → ∀ c1 ∈ s.head?, c1 &&& 0xfc00 ≠ 0xdc00) :
    utf16ToUtf32 (c0 :: s) = (0xfffd, s) := by
  rw [utf16ToUtf32.eq_def]
  dsimp only
  rw [if_neg (not_not_intro h)]
  split_ifs with hlow
  · rfl
  · have hhigh : c0 &&& 0xfc00 = 0xd800 := by
      rw [surrogate_iff] at h
      rw [not_not, and_0400_iff] at hlow
      rw [high_iff]
      omega
    cases s with
    | nil => rfl
    | cons c1 s' => exact if_pos (hpair hhigh c1 rfl)

theorem utf16ToUtf32_pair {c0 c1 : U16} (h0 : c0 &&& 0xfc00 = 0xd800) (h1 : c1 &&& 0xfc00 = 0xdc00)
    (s : List U16) :
    utf16ToUtf32 (c0 :: c1 :: s) = (surrogatePair c0 c1, s) := by
  rw [high_iff] at h0
  have hsurrogate : c0 &&& 0xf800 = 0xd800 := by
    rw [surrogate_iff]
    omega
  have hhigh : c0 &&& 0x0400 = 0 := by
    rw [and_0400_iff]
    omega
  rw [utf16ToUtf32, if_neg (not_not_intro hsurrogate), if_neg (not_not_intro hhigh)]
  exact if_neg (not_not_intro h1)

theorem toNat_surrogatePair {c0 c1 : U16} (h0 : c0 &&& 0xfc00 = 0xd800) (h1 : c1 &&& 0xfc00 = 0xdc00) :
    (surrogatePair c0 c1).toNat = 0x10000 + (c0.toNat - 0xd800) * 0x400 + (c1.toNat - 0xdc00) := by
  rw [high_iff] at h0
  rw [low_iff] at h1
  have hoffset : 0x10000#32 - 0xd800#32 <<< 10 - 0xdc00#32 = 0xfca02400#32 := by decide
  rw [surrogatePair, hoffset]
  simp only [BitVec.toNat_add, BitVec.toNat_shiftLeft, BitVec.toNat_setWidth, BitVec.toNat_ofNat,
    Nat.shiftLeft_eq]
  omega

theorem width_pair {c0 c1 : U16} (h0 : c0 &&& 0xfc00 = 0xd800) (h1 : c1 &&& 0xfc00 = 0xdc00) :
    width (surrogatePair c0 c1) = 4 := by
  have hchar := toNat_surrogatePair h0 h1
  rw [high_iff] at h0
  rw [low_iff] at h1
  rw [width_eq, hchar]
  split_ifs <;> omega

/-- The first characters of a string of units are written as `n` octets. -/
inductive Chars : List U16 → Nat → Prop where
  | nil (ws : List U16) : Chars ws 0
  | char {ws ws' : List U16} {c32 : U32} {n : Nat} (hchar : utf16ToUtf32 ws = (c32, ws')) (hrest : Chars ws' n) :
      Chars ws (width c32 + n)

theorem unitLen_surrogate {c0 : U16} (h : c0 &&& 0xf800 = 0xd800) : (unitLen c0).toNat = 3 := by
  rw [surrogate_iff] at h
  rw [toNat_unitLen]
  split_ifs <;> omega

/-- A unit that is no pair's first is counted as it is written. -/
theorem Chars.unit {c0 : U16} {s : List U16} {n : Nat}
    (hpair : c0 &&& 0xfc00 = 0xd800 → ∀ c1 ∈ s.head?, c1 &&& 0xfc00 ≠ 0xdc00) (hrest : Chars s n) :
    Chars (c0 :: s) ((unitLen c0).toNat + n) := by
  by_cases h : c0 &&& 0xf800 = 0xd800
  · have hwidth : (unitLen c0).toNat = width 0xfffd := unitLen_surrogate h
    rw [hwidth]
    exact .char (utf16ToUtf32_lone h hpair) hrest
  · rw [← width_setWidth]
    exact .char (utf16ToUtf32_unit h s) hrest

/-- A pair is counted as it is written. -/
theorem Chars.pair {c0 c1 : U16} {s : List U16} {n : Nat} (h0 : c0 &&& 0xfc00 = 0xd800)
    (h1 : c1 &&& 0xfc00 = 0xdc00) (hrest : Chars s n) :
    Chars (c0 :: c1 :: s) ((unitLen c0).toNat + 1 + n) := by
  have hsurrogate : c0 &&& 0xf800 = 0xd800 := by
    rw [high_iff] at h0
    rw [surrogate_iff]
    omega
  have hlen : (unitLen c0).toNat + 1 = width (surrogatePair c0 c1) := by
    rw [unitLen_surrogate hsurrogate, width_pair h0 h1]
  rw [hlen]
  exact .char (utf16ToUtf32_pair h0 h1 s) hrest

/-! ### The count -/

theorem unitLen_le (c0 : U16) : (unitLen c0).toNat ≤ 3 := by
  rw [toNat_unitLen]
  split_ifs <;> omega

section

variable {maxlen len : U64} {ws : List U16}

/-- The count with a unit. -/
theorem toNat_add_unitLen (hmax : maxlen.toNat < 2 ^ 32) (hlen : len ≤ maxlen) (c0 : U16) :
    (len + unitLen c0).toNat = len.toNat + (unitLen c0).toNat := by
  have hunit := unitLen_le c0
  rw [BitVec.le_def] at hlen
  rw [BitVec.toNat_add, Nat.mod_eq_of_lt (by omega)]

/-- The count with a pair. -/
theorem toNat_add_pair (hmax : maxlen.toNat < 2 ^ 32) (hlen : len ≤ maxlen) (c0 : U16) :
    (len + (unitLen c0 + 1)).toNat = len.toNat + (unitLen c0).toNat + 1 := by
  have hunit := unitLen_le c0
  rw [BitVec.le_def] at hlen
  rw [← BitVec.add_assoc, BitVec.toNat_add, toNat_add_unitLen hmax hlen, show (1 : U64).toNat = 1 from rfl]
  exact Nat.mod_eq_of_lt (by omega)

/-- The octets that are counted from `len` on up to `total` are those of some of the first characters. -/
def Counts (maxlen len : U64) (ws : List U16) (total : U64) : Prop :=
  ∃ n, Chars ws n ∧ total.toNat = len.toNat + n ∧ total ≤ maxlen

theorem Counts.refl (hlen : len ≤ maxlen) (ws : List U16) : Counts maxlen len ws len :=
  ⟨0, .nil ws, rfl, hlen⟩

theorem Counts.unit {c0 : U16} {total : U64} (hmax : maxlen.toNat < 2 ^ 32) (hlen : len ≤ maxlen)
    (hpair : c0 &&& 0xfc00 = 0xd800 → ∀ c1 ∈ ws.head?, c1 &&& 0xfc00 ≠ 0xdc00)
    (h : Counts maxlen (len + unitLen c0) ws total) : Counts maxlen len (c0 :: ws) total := by
  obtain ⟨n, hchars, htotal, hle⟩ := h
  refine ⟨(unitLen c0).toNat + n, hchars.unit hpair, ?_, hle⟩
  rw [htotal, toNat_add_unitLen hmax hlen, Nat.add_assoc]

theorem Counts.pair {c0 c1 : U16} {total : U64} (hmax : maxlen.toNat < 2 ^ 32) (hlen : len ≤ maxlen)
    (h0 : c0 &&& 0xfc00 = 0xd800) (h1 : c1 &&& 0xfc00 = 0xdc00)
    (h : Counts maxlen (len + (unitLen c0 + 1)) ws total) : Counts maxlen len (c0 :: c1 :: ws) total := by
  obtain ⟨n, hchars, htotal, hle⟩ := h
  refine ⟨(unitLen c0).toNat + 1 + n, hchars.pair h0 h1, ?_, hle⟩
  rw [htotal, toNat_add_pair hmax hlen]
  omega

/-- `utf16s_utf8nlen` counts whole characters. -/
theorem utf16sUtf8nlen_counts (hmax : maxlen.toNat < 2 ^ 32) (hlen : len ≤ maxlen) (ws : List U16) :
    Counts maxlen len ws (utf16sUtf8nlen maxlen len ws) := by
  fun_induction utf16sUtf8nlen maxlen len ws with
  | case1 len => exact .refl hlen _
  | case2 len c0 hstop => exact .refl hlen _
  | case3 len c0 hgo hroom => exact .refl hlen _
  | case4 len c0 hgo hroom hhigh => exact .refl hlen _
  | case5 len c0 hgo hroom hhigh =>
      exact .unit hmax hlen (by simp) (.refl (BitVec.not_lt.mp hroom) _)
  | case6 len c0 c1 s hstop => exact .refl hlen _
  | case7 len c0 c1 s hgo hroom => exact .refl hlen _
  | case8 len c0 c1 s hgo hroom hhigh hfull => exact .refl hlen _
  | case9 len c0 c1 s hgo hroom hhigh hfull hlow ih =>
      -- there is room for one octet more than those of the first unit
      refine .pair hmax hlen hhigh hlow (ih ?_)
      have hunit := toNat_add_unitLen hmax hlen c0
      rw [gt_iff_lt, BitVec.not_lt, BitVec.le_def] at hroom
      rw [← BitVec.toNat_inj] at hfull
      rw [BitVec.le_def, toNat_add_pair hmax hlen]
      omega
  | case10 len c0 c1 s hgo hroom hhigh hfull hlow ih =>
      refine .unit hmax hlen ?_ (ih (BitVec.not_lt.mp hroom))
      intro _ c hc
      rw [List.head?_cons, Option.mem_some_iff] at hc
      rwa [← hc]
  | case11 len c0 c1 s hgo hroom hhigh ih =>
      exact .unit hmax hlen (fun h => absurd h hhigh) (ih (BitVec.not_lt.mp hroom))

end

/-! ### The loop -/

/-- `len` without the octets of a character, when it has them. -/
theorem toNat_sub_width {len : U64} {c32 : U32} {n : Nat} (h : len.toNat = width c32 + n) :
    (if c32 < 0x80 then len - 1 else len - 1 - BitVec.ofNat 64 (trailing c32)).toNat = n := by
  have hlen := len.isLt
  unfold width at h
  have hone : (1 : U64).toNat = 1 := rfl
  have hsub : (len - 1).toNat = len.toNat - 1 := by
    apply BitVec.toNat_sub_of_le
    rw [BitVec.le_def, hone]
    split_ifs at h <;> omega
  split_ifs at h ⊢
  · omega
  · have htrailing : (BitVec.ofNat 64 (trailing c32)).toNat = trailing c32 := by
      rw [BitVec.toNat_ofNat, Nat.mod_eq_of_lt (by omega)]
    rw [BitVec.toNat_sub_of_le (by rw [BitVec.le_def, htrailing, hsub]; omega), htrailing, hsub]
    omega

theorem widePass_next {ws ws' : List U16} {len : U64} {c32 : U32} (puts : List Put) (hne : len ≠ 0)
    (hchar : utf16ToUtf32 ws = (c32, ws')) :
    ∃ puts', widePass (ws, len, puts) =
      .next (ws', if c32 < 0x80 then len - 1 else len - 1 - BitVec.ofNat 64 (trailing c32), puts') := by
  simp only [widePass, if_neg hne, hchar]
  split_ifs
  · exact ⟨_, rfl⟩
  · exact ⟨_, rfl⟩

/-- **The loop that writes a wide string ends**, for it takes the octets of whole characters off `len`. -/
theorem widePass_ends {ws : List U16} {len : U64} (hchars : Chars ws len.toNat) :
    ∃ puts, Loop.run widePass (2 ^ 64) (ws, len, []) = some puts := by
  refine Loop.run_terminates (fun s => Chars s.1 s.2.1.toNat) (fun s => s.2.1.toNat) ?_ _ hchars len.isLt
  rintro ⟨ws, len, puts⟩ s' hs hpass
  generalize hn : len.toNat = n at hs
  cases hs with
  | nil =>
      have hzero : len = 0 := BitVec.eq_of_toNat_eq (by simpa using hn)
      subst hzero
      cases hpass
  | @char _ ws' c32 n hchar hrest =>
      have hwidth := toNat_sub_width hn
      have hne : len ≠ 0 := by
        rintro rfl
        have hpos := width_pos c32
        rw [show (0 : U64).toNat = 0 from rfl] at hn
        omega
      obtain ⟨puts', hnext⟩ := widePass_next puts hne hchar
      rw [hnext, Loop.Pass.next.injEq] at hpass
      subst hpass
      refine ⟨?_, ?_⟩
      · rwa [hwidth]
      · rw [hwidth]
        exact Nat.lt_add_of_pos_left (width_pos c32)

end XosKernel.Vsnprintf
