import XosKernel.PrintkUtf8
import XosKernel.VsnprintfWide
import XosKernel.Utf16

/-! A wide string from the count of its octets to the octets that are written. Both loops are given a block of units here and
have no result when they read behind it; the loop that writes has none either when its counter would wrap. The count
ends between two characters, and the loop comes to the same place with its counter at 0. It looks at one unit that was
not counted when the last character is a high surrogate by itself. -/

namespace XosKernel.Vsnprintf

open Utf16

/-- `utf16s_utf8nlen` on a block of units, with `len` octets counted so far. -/
def utf16sUtf8nlenIn (maxlen len : U64) : List U16 → Option U64
  | [] => if ¬ len < maxlen then some len else none
  | [c0] =>
      if ¬ len < maxlen ∨ c0 = 0 then some len
      else if len + unitLen c0 > maxlen then some len
      else if c0 &&& 0xfc00 = 0xd800 then
        if len + unitLen c0 = maxlen then some len else none
      else if ¬ len + unitLen c0 < maxlen then some (len + unitLen c0)
      else none
  | c0 :: c1 :: s =>
      if ¬ len < maxlen ∨ c0 = 0 then some len
      else if len + unitLen c0 > maxlen then some len
      else if c0 &&& 0xfc00 = 0xd800 then
        if len + unitLen c0 = maxlen then some len
        else if c1 &&& 0xfc00 = 0xdc00 then utf16sUtf8nlenIn maxlen (len + (unitLen c0 + 1)) s
        else utf16sUtf8nlenIn maxlen (len + unitLen c0) (c1 :: s)
      else utf16sUtf8nlenIn maxlen (len + unitLen c0) (c1 :: s)

/-- `utf16_to_utf32` on a block of units. -/
def utf16ToUtf32In : List U16 → Option (U32 × List U16)
  | [] => none
  | c0 :: s =>
      if c0 &&& 0xf800 ≠ 0xd800 then some (c0.setWidth 32, s)
      else if c0 &&& 0x0400 ≠ 0 then some (0xfffd, s)
      else
        match s with
        | [] => none
        | c1 :: s' =>
            if c1 &&& 0xfc00 ≠ 0xdc00 then some (0xfffd, s)
            else some (surrogatePair c0 c1, s')

/-- A pass of the loop that writes, which also stops when `len` would wrap. -/
def widePassIn (s : List U16 × U64 × List Put) : Loop.Pass (List U16 × U64 × List Put) (Option (List Put)) :=
  let (ws, len, puts) := s
  if len = 0 then .done (some puts)
  else
    match utf16ToUtf32In ws with
    | none => .done none
    | some (c32, ws) =>
        if c32 < 0x80 then .next (ws, len - 1, puts ++ [.octet (c32.setWidth 8)])
        else if len - 1 < BitVec.ofNat 64 (trailing c32) then .done none
        else .next (ws, len - 1 - BitVec.ofNat 64 (trailing c32), puts ++ [.wide c32])

/-- The loop that writes `len` octets of a block. -/
def wideOutputIn (len : U64) (block : List U16) : Option (List Put) :=
  (Loop.run widePassIn (len.toNat + 1) (block, len, [])).join

/-- The octets of characters. -/
def textOf (cs : List (List U16)) : List U8 := cs.flatMap fun c => Utf8.encode (codePoint c)

/-- The unit behind the last character that is looked at to tell whether this is a pair. -/
def lookAhead (cs : List (List U16)) (behind : List U16) : List U16 :=
  if ∃ c ∈ cs.getLast?, LoneHigh c then behind.take 1 else []

/-! ### The count -/

theorem utf16sUtf8nlenIn_nul (maxlen len : U64) (behind : List U16) :
    utf16sUtf8nlenIn maxlen len (0 :: behind) = some len := by
  cases behind with
  | nil => rw [utf16sUtf8nlenIn, if_pos (.inr rfl)]
  | cons c1 s => rw [utf16sUtf8nlenIn, if_pos (.inr rfl)]

/-- On a string the count on a block is the count of the conversions, and nothing behind the zero is read. -/
theorem utf16sUtf8nlenIn_string {maxlen len : U64} (units behind : List U16) :
    utf16sUtf8nlenIn maxlen len (units ++ 0 :: behind) = some (utf16sUtf8nlen maxlen len units) := by
  fun_induction utf16sUtf8nlen maxlen len units with
  | case1 len => exact utf16sUtf8nlenIn_nul maxlen len behind
  | case2 len c0 hstop => rw [List.singleton_append, utf16sUtf8nlenIn, if_pos hstop]
  | case3 len c0 hgo hroom => rw [List.singleton_append, utf16sUtf8nlenIn, if_neg hgo, if_pos hroom]
  | case4 len c0 hgo hroom hhigh =>
      rw [List.singleton_append, utf16sUtf8nlenIn, if_neg hgo, if_neg hroom, if_pos hhigh.1, if_pos hhigh.2]
  | case5 len c0 hgo hroom hhigh =>
      rw [List.singleton_append, utf16sUtf8nlenIn, if_neg hgo, if_neg hroom, utf16sUtf8nlenIn_nul]
      by_cases hc0 : c0 &&& 0xfc00 = 0xd800
      · rw [if_pos hc0, if_neg fun hfull => hhigh ⟨hc0, hfull⟩]
        rfl
      · rw [if_neg hc0]
  | case6 len c0 c1 s hstop => rw [List.cons_append, List.cons_append, utf16sUtf8nlenIn, if_pos hstop]
  | case7 len c0 c1 s hgo hroom =>
      rw [List.cons_append, List.cons_append, utf16sUtf8nlenIn, if_neg hgo, if_pos hroom]
  | case8 len c0 c1 s hgo hroom hhigh hfull =>
      rw [List.cons_append, List.cons_append, utf16sUtf8nlenIn, if_neg hgo, if_neg hroom, if_pos hhigh, if_pos hfull]
  | case9 len c0 c1 s hgo hroom hhigh hfull hlow ih =>
      rw [List.cons_append, List.cons_append, utf16sUtf8nlenIn, if_neg hgo, if_neg hroom, if_pos hhigh, if_neg hfull,
        if_pos hlow, ih]
  | case10 len c0 c1 s hgo hroom hhigh hfull hlow ih =>
      rw [List.cons_append, List.cons_append, utf16sUtf8nlenIn, if_neg hgo, if_neg hroom, if_pos hhigh, if_neg hfull,
        if_neg hlow, ← List.cons_append, ih]
  | case11 len c0 c1 s hgo hroom hhigh ih =>
      rw [List.cons_append, List.cons_append, utf16sUtf8nlenIn, if_neg hgo, if_neg hroom, if_neg hhigh,
        ← List.cons_append, ih]

/-! ### Characters and their octets -/

theorem isHigh_iff (c : U16) : c &&& 0xfc00 = 0xd800 ↔ IsHigh c := high_iff c

theorem isLow_iff (c : U16) : c &&& 0xfc00 = 0xdc00 ↔ IsLow c := low_iff c

theorem width_eq_length {c32 : U32} : width c32 = (Utf8.encode c32.toNat).length := by
  rw [width_eq, Utf8.length_encode, Utf8.extra]
  split_ifs <;> omega

/-- The length of the octets of a unit by itself. -/
theorem length_unit (c0 : U16) : (Utf8.encode (codePoint [c0])).length = (unitLen c0).toNat := by
  by_cases hsurrogate : IsHigh c0 ∨ IsLow c0
  · have hand : c0 &&& 0xf800 = 0xd800 := by
      rw [surrogate_iff]
      simp only [IsHigh, IsLow] at hsurrogate
      omega
    rw [codePoint_surrogate hsurrogate, unitLen_surrogate hand]
    rfl
  · rw [codePoint_unit hsurrogate, ← width_setWidth, width_eq_length, BitVec.toNat_setWidth, Nat.mod_eq_of_lt]
    exact c0.isLt.trans (by decide)

theorem length_pair {c0 c1 : U16} (hhigh : IsHigh c0) (hlow : IsLow c1) :
    (Utf8.encode (codePoint [c0, c1])).length = (unitLen c0).toNat + 1 := by
  have hsurrogate : c0 &&& 0xf800 = 0xd800 := by
    rw [surrogate_iff]
    simp only [IsHigh] at hhigh
    omega
  rw [unitLen_surrogate hsurrogate]
  have hvalue := toNat_surrogatePair ((isHigh_iff c0).mpr hhigh) ((isLow_iff c1).mpr hlow)
  have hwidth := width_pair ((isHigh_iff c0).mpr hhigh) ((isLow_iff c1).mpr hlow)
  rw [width_eq_length, hvalue] at hwidth
  exact hwidth

theorem textOf_cons (c : List U16) (cs : List (List U16)) :
    textOf (c :: cs) = Utf8.encode (codePoint c) ++ textOf cs := List.flatMap_cons

/-- `total` counts from `len` on the octets of the characters `cs` at the start of `ws`. -/
structure Counted (maxlen len : U64) (ws : List U16) (total : U64) (cs : List (List U16)) (rest : List U16) : Prop where
  splits : Splits ws cs rest
  count : total.toNat = len.toNat + (textOf cs).length
  le : total ≤ maxlen

section

variable {maxlen len total : U64} {ws rest : List U16} {cs : List (List U16)}

theorem Counted.refl (hlen : len ≤ maxlen) (ws : List U16) : Counted maxlen len ws len [] ws :=
  ⟨.nil ws, rfl, hlen⟩

theorem Counted.unit {c0 : U16} (hmax : maxlen.toNat < 2 ^ 32) (hlen : len ≤ maxlen)
    (hpair : c0 &&& 0xfc00 = 0xd800 → ∀ c1 ∈ ws.head?, c1 &&& 0xfc00 ≠ 0xdc00)
    (h : Counted maxlen (len + unitLen c0) ws total cs rest) :
    Counted maxlen len (c0 :: ws) total ([c0] :: cs) rest := by
  refine ⟨.unit (fun hhigh c1 hc1 hlow => ?_) h.splits, ?_, h.le⟩
  · exact hpair ((isHigh_iff c0).mpr hhigh) c1 hc1 ((isLow_iff c1).mpr hlow)
  · rw [h.count, toNat_add_unitLen hmax hlen, textOf_cons, List.length_append, length_unit, Nat.add_assoc]

theorem Counted.pair {c0 c1 : U16} (hmax : maxlen.toNat < 2 ^ 32) (hlen : len ≤ maxlen)
    (h0 : c0 &&& 0xfc00 = 0xd800) (h1 : c1 &&& 0xfc00 = 0xdc00)
    (h : Counted maxlen (len + (unitLen c0 + 1)) ws total cs rest) :
    Counted maxlen len (c0 :: c1 :: ws) total ([c0, c1] :: cs) rest := by
  rw [isHigh_iff] at h0
  rw [isLow_iff] at h1
  refine ⟨.pair h0 h1 h.splits, ?_, h.le⟩
  rw [h.count, toNat_add_pair hmax hlen, textOf_cons, List.length_append, length_pair h0 h1]
  omega

/-- `utf16s_utf8nlen` stops between two characters. -/
theorem utf16sUtf8nlen_counted (hmax : maxlen.toNat < 2 ^ 32) (hlen : len ≤ maxlen) (ws : List U16) :
    ∃ cs rest, Counted maxlen len ws (utf16sUtf8nlen maxlen len ws) cs rest := by
  fun_induction utf16sUtf8nlen maxlen len ws with
  | case1 len => exact ⟨_, _, .refl hlen _⟩
  | case2 len c0 hstop => exact ⟨_, _, .refl hlen _⟩
  | case3 len c0 hgo hroom => exact ⟨_, _, .refl hlen _⟩
  | case4 len c0 hgo hroom hhigh => exact ⟨_, _, .refl hlen _⟩
  | case5 len c0 hgo hroom hhigh =>
      exact ⟨_, _, .unit hmax hlen (by simp) (.refl (BitVec.not_lt.mp hroom) _)⟩
  | case6 len c0 c1 s hstop => exact ⟨_, _, .refl hlen _⟩
  | case7 len c0 c1 s hgo hroom => exact ⟨_, _, .refl hlen _⟩
  | case8 len c0 c1 s hgo hroom hhigh hfull => exact ⟨_, _, .refl hlen _⟩
  | case9 len c0 c1 s hgo hroom hhigh hfull hlow ih =>
      -- there is room for one octet more than those of the first unit
      have hroomPair : len + (unitLen c0 + 1) ≤ maxlen := by
        have hunit := toNat_add_unitLen hmax hlen c0
        rw [gt_iff_lt, BitVec.not_lt, BitVec.le_def] at hroom
        rw [← BitVec.toNat_inj] at hfull
        rw [BitVec.le_def, toNat_add_pair hmax hlen]
        omega
      obtain ⟨cs, rest, hcs⟩ := ih hroomPair
      exact ⟨_, _, hcs.pair hmax hlen hhigh hlow⟩
  | case10 len c0 c1 s hgo hroom hhigh hfull hlow ih =>
      obtain ⟨cs, rest, hcs⟩ := ih (BitVec.not_lt.mp hroom)
      refine ⟨_, _, hcs.unit hmax hlen fun _ c hc => ?_⟩
      rw [List.head?_cons, Option.mem_some_iff] at hc
      rwa [← hc]
  | case11 len c0 c1 s hgo hroom hhigh ih =>
      obtain ⟨cs, rest, hcs⟩ := ih (BitVec.not_lt.mp hroom)
      exact ⟨_, _, hcs.unit hmax hlen fun h => absurd h hhigh⟩

end

/-! ### The loop that writes -/

theorem utf16ToUtf32In_eq {c0 : U16} {s : List U16} (h : c0 &&& 0xfc00 = 0xd800 → s ≠ []) :
    utf16ToUtf32In (c0 :: s) = some (utf16ToUtf32 (c0 :: s)) := by
  cases s with
  | cons c1 s' =>
      simp only [utf16ToUtf32In, utf16ToUtf32]
      split_ifs <;> rfl
  | nil =>
      have hhigh : ¬ c0 &&& 0xfc00 = 0xd800 := fun hc => h hc rfl
      rw [high_iff] at hhigh
      simp only [utf16ToUtf32In, utf16ToUtf32]
      split_ifs with hsurrogate hlow
      · rfl
      · rfl
      · rw [not_not, surrogate_iff] at hsurrogate
        rw [not_not, and_0400_iff] at hlow
        omega

/-- A unit that is a character by itself is read with the unit behind it at most. -/
theorem utf16ToUtf32In_unit {c0 : U16} {s : List U16} (hlone : IsHigh c0 → ∀ c1 ∈ s.head?, ¬ IsLow c1)
    (hbehind : IsHigh c0 → s ≠ []) :
    ∃ c32, utf16ToUtf32In (c0 :: s) = some (c32, s) ∧ c32.toNat = codePoint [c0] := by
  rw [utf16ToUtf32In_eq fun h => hbehind ((isHigh_iff c0).mp h)]
  by_cases hsurrogate : IsHigh c0 ∨ IsLow c0
  · have hand : c0 &&& 0xf800 = 0xd800 := by
      rw [surrogate_iff]
      simp only [IsHigh, IsLow] at hsurrogate
      omega
    refine ⟨0xfffd, ?_, (codePoint_surrogate hsurrogate).symm⟩
    rw [utf16ToUtf32_lone hand]
    intro hhigh c1 hc1 hlow
    exact hlone ((isHigh_iff c0).mp hhigh) c1 hc1 ((isLow_iff c1).mp hlow)
  · have hand : c0 &&& 0xf800 ≠ 0xd800 := by
      rw [Ne, surrogate_iff]
      simp only [IsHigh, IsLow] at hsurrogate
      omega
    refine ⟨c0.setWidth 32, by rw [utf16ToUtf32_unit hand], ?_⟩
    rw [codePoint_unit hsurrogate, BitVec.toNat_setWidth, Nat.mod_eq_of_lt (c0.isLt.trans (by decide))]

theorem utf16ToUtf32In_pair {c0 c1 : U16} (hhigh : IsHigh c0) (hlow : IsLow c1) (s : List U16) :
    ∃ c32, utf16ToUtf32In (c0 :: c1 :: s) = some (c32, s) ∧ c32.toNat = codePoint [c0, c1] := by
  rw [← isHigh_iff] at hhigh
  rw [← isLow_iff] at hlow
  refine ⟨surrogatePair c0 c1, ?_, toNat_surrogatePair hhigh hlow⟩
  rw [utf16ToUtf32In_eq fun _ => List.cons_ne_nil _ _, utf16ToUtf32_pair hhigh hlow]

/-- A pass takes the octets of its character off the counter, which holds them. -/
theorem widePassIn_next {ws ws' : List U16} {len : U64} {c32 : U32} {n : Nat} (puts : List Put)
    (hchar : utf16ToUtf32In ws = some (c32, ws')) (hlen : len.toNat = (Utf8.encode c32.toNat).length + n) :
    ∃ len', widePassIn (ws, len, puts) = .next (ws', len', puts ++ [putChar c32]) ∧ len'.toNat = n := by
  rw [← width_eq_length] at hlen
  have hsub := toNat_sub_width hlen
  have hne : len ≠ 0 := by
    rintro rfl
    have hpos := width_pos c32
    rw [show (0 : U64).toNat = 0 from rfl] at hlen
    omega
  refine ⟨_, ?_, hsub⟩
  simp only [widePassIn, if_neg hne, hchar, putChar]
  by_cases hascii : c32 < 0x80
  · simp only [if_pos hascii]
  · have htrailing := trailing_le c32
    have hlt := len.isLt
    have hroom : ¬ len - 1 < BitVec.ofNat 64 (trailing c32) := by
      have hone : (len - 1).toNat = len.toNat - 1 := by
        apply BitVec.toNat_sub_of_le
        rw [BitVec.le_def, show (1 : U64).toNat = 1 from rfl]
        have hpos := width_pos c32
        omega
      rw [width, if_neg hascii] at hlen
      rw [BitVec.lt_def, hone, BitVec.toNat_ofNat, Nat.mod_eq_of_lt (by omega)]
      omega
    simp only [if_neg hascii, if_neg hroom]

/-- The loop on a block writes the octets of `cs` when its counter is their number, and comes to 0. -/
def Writes (block : List U16) (cs : List (List U16)) : Prop :=
  ∀ (len : U64) (puts : List Put) (fuel : Nat), len.toNat = (textOf cs).length → len.toNat < fuel →
    ∃ more, Loop.run widePassIn fuel (block, len, puts) = some (some (puts ++ more)) ∧
      more.flatMap Put.octets = textOf cs

theorem Writes.nil (block : List U16) : Writes block [] := by
  intro len puts fuel hlen hfuel
  have hzero : len = 0 := BitVec.eq_of_toNat_eq hlen
  subst hzero
  obtain ⟨fuel, rfl⟩ := Nat.exists_eq_succ_of_ne_zero (Nat.ne_zero_of_lt hfuel)
  refine ⟨[], ?_, rfl⟩
  rw [List.append_nil]
  exact Loop.run_succ_done rfl fuel

theorem Writes.cons {block block' : List U16} {c : List U16} {cs : List (List U16)}
    (hchar : ∃ c32, utf16ToUtf32In block = some (c32, block') ∧ c32.toNat = codePoint c)
    (hscalar : Utf8.IsScalar (codePoint c)) (h : Writes block' cs) : Writes block (c :: cs) := by
  intro len puts fuel hlen hfuel
  obtain ⟨c32, hread, hcode⟩ := hchar
  have hlength : len.toNat = (Utf8.encode c32.toNat).length + (textOf cs).length := by
    rw [hlen, textOf_cons, List.length_append, hcode]
  obtain ⟨len', hpass, hlen'⟩ := widePassIn_next puts hread hlength
  have hless : len'.toNat < len.toNat := by
    rw [hlen', hlength, Utf8.length_encode]
    omega
  obtain ⟨fuel, rfl⟩ := Nat.exists_eq_succ_of_ne_zero (Nat.ne_zero_of_lt hfuel)
  obtain ⟨more, hrun, hoctets⟩ := h len' (puts ++ [putChar c32]) fuel hlen' (by omega)
  refine ⟨putChar c32 :: more, ?_, ?_⟩
  · rw [Loop.run_succ_next hpass, hrun, List.append_assoc, List.singleton_append]
  · have hchar : (putChar c32).octets = Utf8.encode (codePoint c) := by
      rw [octets_putChar (by rw [hcode]; exact hscalar.1), hcode]
    rw [List.flatMap_cons, hoctets, hchar, textOf_cons]

/-- The loop writes the characters at the start of a block. It needs the unit behind them when the last one is a high
surrogate by itself. -/
theorem writes_of_splits {block behind : List U16} {cs : List (List U16)} (h : Splits block cs behind)
    (hbehind : ∀ c ∈ cs.getLast?, LoneHigh c → behind ≠ []) : Writes block cs := by
  induction h with
  | nil us => exact .nil us
  | @unit u us rest cs hlone hrest ih =>
      refine .cons (utf16ToUtf32In_unit hlone fun hhigh => ?_) (isScalar_unit u) (ih (last_of_cons hbehind))
      cases hrest with
      | nil => exact hbehind [u] rfl hhigh
      | unit => exact List.cons_ne_nil _ _
      | pair => exact List.cons_ne_nil _ _
  | @pair u v us rest cs hhigh hlow hrest ih =>
      exact .cons (utf16ToUtf32In_pair hhigh hlow us) (isScalar_pair hhigh hlow) (ih (last_of_cons hbehind))

/-! ### The loop on a string -/

/-- The units of a string and its zero, as far as a block goes. -/
def Visible (block units : List U16) : Prop := block <+: units ++ [0]

/-- What is read from a block is read from the string. -/
theorem Visible.read {block block' units : List U16} {c32 : U32} (h : Visible block units)
    (hread : utf16ToUtf32In block = some (c32, block')) :
    ∃ units', utf16ToUtf32 units = (c32, units') ∧ Visible block' units' := by
  cases block with
  | nil => cases hread
  | cons c0 b =>
      cases units with
      | nil =>
          have hstart : c0 = 0 ∧ b <+: [] := List.cons_prefix_cons.mp h
          obtain ⟨rfl, hnil⟩ := hstart
          obtain rfl := List.prefix_nil.mp hnil
          rw [show utf16ToUtf32In [0] = some (0, []) from rfl, Option.some.injEq, Prod.mk.injEq] at hread
          obtain ⟨rfl, rfl⟩ := hread
          exact ⟨[], rfl, List.nil_prefix⟩
      | cons u us =>
          obtain ⟨rfl, hb⟩ := List.cons_prefix_cons.mp h
          simp only [utf16ToUtf32In, utf16ToUtf32] at hread ⊢
          split_ifs at hread ⊢
          · rw [Option.some.injEq, Prod.mk.injEq] at hread
            obtain ⟨rfl, rfl⟩ := hread
            exact ⟨us, rfl, hb⟩
          · rw [Option.some.injEq, Prod.mk.injEq] at hread
            obtain ⟨rfl, rfl⟩ := hread
            exact ⟨us, rfl, hb⟩
          · cases b with
            | nil => cases hread
            | cons c1 b =>
                cases us with
                | nil =>
                    have hstart : c1 = 0 ∧ b <+: [] := List.cons_prefix_cons.mp hb
                    obtain ⟨rfl, hnil⟩ := hstart
                    obtain rfl := List.prefix_nil.mp hnil
                    have hzero : (0 : U16) &&& 0xfc00 ≠ 0xdc00 := by decide
                    simp only [if_pos hzero, Option.some.injEq, Prod.mk.injEq] at hread
                    obtain ⟨rfl, rfl⟩ := hread
                    exact ⟨[], rfl, List.prefix_rfl⟩
                | cons u' us =>
                    obtain ⟨rfl, hb'⟩ := List.cons_prefix_cons.mp hb
                    dsimp only at hread ⊢
                    split_ifs at hread ⊢
                    · rw [Option.some.injEq, Prod.mk.injEq] at hread
                      obtain ⟨rfl, rfl⟩ := hread
                      exact ⟨_, rfl, hb⟩
                    · rw [Option.some.injEq, Prod.mk.injEq] at hread
                      obtain ⟨rfl, rfl⟩ := hread
                      exact ⟨_, rfl, hb'⟩

/-- The loop on a string does what the loop on a block does. -/
theorem run_widePass_of_block {block units : List U16} {len : U64} {puts result : List Put} {fuel : Nat}
    (h : Visible block units) (hrun : Loop.run widePassIn fuel (block, len, puts) = some (some result)) :
    Loop.run widePass fuel (units, len, puts) = some result := by
  induction fuel generalizing block units len puts with
  | zero => cases hrun
  | succ fuel ih =>
      by_cases hzero : len = 0
      · rw [Loop.run_succ_done (r := some puts) (by simp only [widePassIn, if_pos hzero]), Option.some.injEq,
          Option.some.injEq] at hrun
        rw [Loop.run_succ_done (r := puts) (by simp only [widePass, if_pos hzero]), hrun]
      cases hread : utf16ToUtf32In block with
      | none =>
          rw [Loop.run_succ_done (r := none) (by simp only [widePassIn, if_neg hzero, hread])] at hrun
          cases hrun
      | some read =>
          obtain ⟨c32, block'⟩ := read
          obtain ⟨units', hchar, h'⟩ := h.read hread
          have hstrict : widePassIn (block, len, puts) =
              if c32 < 0x80 then .next (block', len - 1, puts ++ [.octet (c32.setWidth 8)])
              else if len - 1 < BitVec.ofNat 64 (trailing c32) then .done none
              else .next (block', len - 1 - BitVec.ofNat 64 (trailing c32), puts ++ [.wide c32]) := by
            simp only [widePassIn, if_neg hzero, hread]
          have hplain : widePass (units, len, puts) =
              if c32 < 0x80 then .next (units', len - 1, puts ++ [.octet (c32.setWidth 8)])
              else .next (units', len - 1 - BitVec.ofNat 64 (trailing c32), puts ++ [.wide c32]) := by
            simp only [widePass, if_neg hzero, hchar]
          by_cases hascii : c32 < 0x80
          · rw [if_pos hascii] at hstrict hplain
            rw [Loop.run_succ_next hstrict] at hrun
            rw [Loop.run_succ_next hplain]
            exact ih h' hrun
          · rw [if_neg hascii] at hstrict hplain
            by_cases hwraps : len - 1 < BitVec.ofNat 64 (trailing c32)
            · rw [if_pos hwraps] at hstrict
              rw [Loop.run_succ_done hstrict] at hrun
              cases hrun
            · rw [if_neg hwraps] at hstrict
              rw [Loop.run_succ_next hstrict] at hrun
              rw [Loop.run_succ_next hplain]
              exact ih h' hrun

/-! ### Both passes -/

/-- The precision of a string conversion: `if (precision < 0) precision = INT_MAX`. -/
def stringPrecision (precision : CInt) : CInt := if precision.slt 0 then intMax else precision

/-- What the two passes of a `%ls` conversion do with a string: the count is at most `maxlen` and reads up to the zero; it
is the number of the octets of the characters `cs`, with which the string starts; and the loop that writes puts these
octets, reads nothing but their units and one look ahead, and ends with its counter at 0. -/
structure WideAgrees (ws : WString) (maxlen total : U64) (cs : List (List U16)) (rest : List U16) (puts : List Put) :
    Prop where
  count : utf16sUtf8nlenIn maxlen 0 (ws.units ++ [0]) = some total
  le : total ≤ maxlen
  characters : (characters ws.units).take cs.length = cs
  units : cs.flatten ++ rest = ws.units
  output : wideOutputIn total (cs.flatten ++ lookAhead cs (rest ++ [0])) = some puts
  octets : puts.flatMap Put.octets = textOf cs
  length : (textOf cs).length = total.toNat
  conversion : putText total (.units ws.units) = .ok puts

theorem stringPrecision_nonneg (precision : CInt) : (stringPrecision precision).slt 0 = false := by
  rw [stringPrecision]
  split
  · decide
  · simpa using ‹¬ precision.slt 0 = true›

theorem lookAhead_low {cs : List (List U16)} {ws rest : List U16} (h : Splits ws cs rest) :
    ∀ c ∈ cs.getLast?, LoneHigh c → ∀ v ∈ (lookAhead cs (rest ++ [0])).head?, ¬ IsLow v := by
  intro c hlast hc v hv
  rw [lookAhead, if_pos ⟨c, hlast, hc⟩] at hv
  have hbehind := h.lone hlast hc
  cases rest with
  | nil =>
      rw [List.nil_append, List.take_succ_cons, List.head?_cons, Option.mem_some_iff] at hv
      rw [← hv]
      decide
  | cons w rest =>
      rw [List.cons_append, List.take_succ_cons, List.head?_cons, Option.mem_some_iff] at hv
      rw [← hv]
      exact hbehind w rfl

theorem lookAhead_ne_nil {cs : List (List U16)} {rest : List U16} :
    ∀ c ∈ cs.getLast?, LoneHigh c → lookAhead cs (rest ++ [0]) ≠ [] := by
  intro c hlast hc
  rw [lookAhead, if_pos ⟨c, hlast, hc⟩]
  cases rest with
  | nil => exact List.cons_ne_nil _ _
  | cons w rest => exact List.cons_ne_nil _ _

theorem lookAhead_begins (cs : List (List U16)) (behind : List U16) : lookAhead cs behind <+: behind := by
  rw [lookAhead]
  split
  · exact List.take_prefix 1 behind
  · exact List.nil_prefix

/-- **Wide strings.** For every string and every precision the two passes agree. -/
theorem wide_agrees (ws : WString) (precision : CInt) :
    ∃ total cs rest puts, WideAgrees ws ((stringPrecision precision).signExtend 64) total cs rest puts := by
  have hmax : ((stringPrecision precision).signExtend 64).toNat < 2 ^ 32 := by
    rw [toNat_signExtend (stringPrecision_nonneg precision)]
    exact (stringPrecision precision).isLt
  have hzero : (0 : U64) ≤ (stringPrecision precision).signExtend 64 := Nat.zero_le _
  obtain ⟨cs, rest, hsplits, hcount, hle⟩ := utf16sUtf8nlen_counted hmax hzero ws.units
  obtain ⟨n, hchars, htotal, -⟩ := utf16sUtf8nlen_counts hmax hzero ws.units
  generalize htot : utf16sUtf8nlen ((stringPrecision precision).signExtend 64) 0 ws.units = total at *
  rw [show (0 : U64).toNat = 0 from rfl, Nat.zero_add] at hcount htotal
  have hwrites : Writes (cs.flatten ++ lookAhead cs (rest ++ [0])) cs :=
    writes_of_splits (hsplits.behind (lookAhead_low hsplits)) lookAhead_ne_nil
  obtain ⟨puts, hrun, hoctets⟩ := hwrites total [] (total.toNat + 1) hcount (Nat.lt_succ_self _)
  rw [List.nil_append] at hrun
  have hvisible : Visible (cs.flatten ++ lookAhead cs (rest ++ [0])) ws.units := by
    rw [Visible, ← hsplits.append, List.append_assoc]
    exact (List.prefix_append_right_inj _).mpr (lookAhead_begins cs (rest ++ [0]))
  have hplain := run_widePass_of_block hvisible hrun
  rw [← htotal] at hchars
  obtain ⟨puts', hends⟩ := widePass_ends hchars
  refine ⟨total, cs, rest, puts, ?_, hle, hsplits.take, hsplits.append, ?_, hoctets, hcount.symm, ?_⟩
  · rw [utf16sUtf8nlenIn_string, htot]
  · rw [wideOutputIn, hrun]
    rfl
  · rw [Loop.run_unique hplain hends, putText, hends]

theorem loneHigh_noNul : ∀ u ∈ [0xd800, 0x00e9], u ≠ (0 : U16) := by
  simp

/-- A high surrogate and a character of two octets, of which a precision of 4 has room for the first one only. -/
def loneHighText : WString := ⟨[0xd800, 0x00e9], loneHigh_noNul⟩

/-- The loop that writes does not do with the units that were counted. -/
theorem wide_reads_uncounted :
    ¬ ∃ total cs rest puts,
      utf16sUtf8nlenIn ((stringPrecision 4).signExtend 64) 0 (loneHighText.units ++ [0]) = some total ∧
      (characters loneHighText.units).take cs.length = cs ∧ cs.flatten ++ rest = loneHighText.units ∧
      (textOf cs).length = total.toNat ∧ wideOutputIn total cs.flatten = some puts := by
  rintro ⟨total, cs, rest, puts, hcount, hcs, -, hlength, houtput⟩
  have htotal : total = 3 := by
    rw [show utf16sUtf8nlenIn ((stringPrecision 4).signExtend 64) 0 (loneHighText.units ++ [0]) = some 3 by decide]
      at hcount
    exact (Option.some.inj hcount).symm
  subst htotal
  rw [show characters loneHighText.units = [[0xd800], [0x00e9]] by decide] at hcs
  generalize cs.length = n at hcs
  match n with
  | 0 =>
      subst hcs
      exact absurd hlength (by decide)
  | 1 =>
      subst hcs
      rw [show wideOutputIn 3 _ = none by decide] at houtput
      cases houtput
  | n + 2 =>
      rw [List.take_of_length_le (by simp)] at hcs
      subst hcs
      exact absurd hlength (by decide)

end XosKernel.Vsnprintf
