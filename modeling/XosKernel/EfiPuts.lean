import XosKernel.PrintkUtf8
import XosKernel.Utf16

/-! `efi_puts`, which reads a string with `utf8_to_utf32` and writes it to the console as UTF-16, in the chunks that its
buffer has room for. A pass of its loop stores at most two units, and the test at the end of it leaves room for
two more and a NUL. -/

namespace XosKernel.Vsnprintf

open Utf8

/-! ### The function -/

/-- `ARRAY_SIZE(buf)`. -/
abbrev putsLim : Nat := 128

/-- The variables of `efi_puts`: the block at `s8`, `buf` and `pos`, and the buffers that `efi_char16_puts` was called
with. -/
structure EfiPuts where
  s8 : List U8
  buf : Nat → U16
  pos : Nat
  calls : List (Nat → U16)

namespace EfiPuts

/-- The high surrogate of a character. -/
def highUnit (c32 : U32) : U16 := ((0xd800 : U32) - ((0x10000 : U32) >>> 10) + (c32 >>> 10)).setWidth 16

def lowUnit (c32 : U32) : U16 := (0xdc00 + (c32 &&& 0x3ff)).setWidth 16

/-- `buf[pos++] = u`. There is no result outside of the buffer. -/
def store (s : EfiPuts) (u : U16) : Option EfiPuts :=
  if s.pos < putsLim then some { s with buf := Function.update s.buf s.pos u, pos := s.pos + 1 } else none

def storeReturn (s : EfiPuts) : Option EfiPuts := if s.s8.head? = some 0x0a then s.store 0x0d else some s

def storeChar (s : EfiPuts) (c32 : U32) : Option EfiPuts :=
  if c32 < 0x10000 then s.store (c32.setWidth 16)
  else (s.store (highUnit c32)).bind fun s => s.store (lowUnit c32)

/-- The call of `efi_char16_puts`. -/
def flush (s : EfiPuts) : Option EfiPuts :=
  if s.pos < putsLim then
    some { s with
      buf := Function.update s.buf s.pos 0, pos := 0, calls := s.calls ++ [Function.update s.buf s.pos 0] }
  else none

def flushAtLimit (s : EfiPuts) : Option EfiPuts :=
  match s.s8 with
  | [] => none
  | c :: _ => if c = 0 ∨ s.pos ≥ putsLim - 2 then s.flush else some s

def body (s : EfiPuts) : Option EfiPuts := do
  let s ← s.storeReturn
  let (c32, s8) ← utf8ToUtf32 s.s8
  let s ← { s with s8 }.storeChar c32
  s.flushAtLimit

end EfiPuts

/-- A pass of the loop. -/
def putsPass (s : EfiPuts) : Loop.Pass EfiPuts (Option (List (Nat → U16))) :=
  match s.s8 with
  | [] => .done none
  | c :: _ =>
      if c = 0 then .done (some s.calls)
      else
        match s.body with
        | none => .done none
        | some s => .next s

/-- `efi_puts` on the block at `str`, with anything in the buffer at first: the buffers that `efi_char16_puts` is called
with. -/
def efiPuts (str : List U8) (buf : Nat → U16) : Option (List (Nat → U16)) :=
  (Loop.run putsPass (str.length + 1) ⟨str, buf, 0, []⟩).join

/-! ### The characters of a string -/

theorem tails_noNul (n c : Nat) : ∀ b ∈ tails n c, b ≠ 0 := by
  induction n with
  | zero => simp [tails]
  | succ n ih =>
      rw [tails, List.forall_mem_cons]
      refine ⟨fun hzero => ?_, ih⟩
      have hvalue := congrArg BitVec.toNat hzero
      rw [BitVec.toNat_ofNat] at hvalue
      have hlt : c / 64 ^ n % 64 < 64 := Nat.mod_lt _ (by decide)
      have hmod : (0x80 + c / 64 ^ n % 64) % 2 ^ 8 = 0 := hvalue
      omega

/-- The octets of a character are no NUL but for that of 0. -/
theorem encode_noNul {c : Nat} (hc : c ≤ 0x10ffff) (hne : c ≠ 0) : ∀ b ∈ encode c, b ≠ 0 := by
  rw [encode, List.forall_mem_cons]
  refine ⟨fun hzero => ?_, tails_noNul _ c⟩
  have hvalue := congrArg BitVec.toNat hzero
  rw [BitVec.toNat_ofNat] at hvalue
  have hmod : (marker (extra c) + c / 64 ^ extra c) % 2 ^ 8 = 0 := hvalue
  rcases Nat.eq_zero_or_pos (extra c) with hextra | hpos
  · rw [hextra, marker, if_pos rfl, Nat.pow_zero, Nat.div_one, Nat.zero_add] at hmod
    have hlt : c < 0x80 := by
      rcases extra_cases hc with ⟨-, h⟩ | ⟨h, -⟩ | ⟨h, -⟩ | ⟨h, -⟩ <;> omega
    omega
  · obtain ⟨hle, hfirst⟩ := first_lt hc hpos
    have hmarker : ∀ k ≤ 3, 1 ≤ k → 0 < marker k ∧ marker k + 2 ^ (6 - k) ≤ 2 ^ 8 := by decide
    obtain ⟨hpositive, hroom⟩ := hmarker (extra c) hle hpos
    rw [Nat.mod_eq_of_lt (Nat.lt_of_lt_of_le (Nat.add_lt_add_left hfirst _) hroom)] at hmod
    exact absurd hpositive (Nat.not_lt.mpr (Nat.le_of_eq (Nat.add_eq_zero_iff.mp hmod).1))

/-- What is read of a string in front of its NUL is read from the string. -/
theorem split_at_nul {l t s behind : List U8} (hl : ∀ b ∈ l, b ≠ 0) (h : l ++ t = s ++ 0 :: behind) :
    ∃ s', s = l ++ s' ∧ t = s' ++ 0 :: behind := by
  rcases List.append_eq_append_iff.mp h with ⟨s', rfl, ht⟩ | ⟨l', rfl, hbehind⟩
  · exact ⟨s', rfl, ht⟩
  · cases l' with
    | nil => exact ⟨[], by simp, by simpa using hbehind.symm⟩
    | cons b l' =>
        rw [List.cons_append, List.cons.injEq] at hbehind
        exact absurd hbehind.1.symm (hl b (List.mem_append_right s List.mem_cons_self))

/-- The characters that `efi_puts` writes: scalar values but 0. -/
def Writable (c : U32) : Prop := IsScalar c.toNat ∧ c.toNat ≠ 0

theorem writable_octet {c0 : U8} (hc0 : c0 ≠ 0) : Writable (c0.setWidth 32) := by
  have hlt := c0.isLt
  have hvalue : (c0.setWidth 32).toNat = c0.toNat := by
    rw [BitVec.toNat_setWidth, Nat.mod_eq_of_lt (by omega)]
  rw [Writable, hvalue]
  exact ⟨⟨by omega, by omega⟩, fun hzero => hc0 (BitVec.eq_of_toNat_eq hzero)⟩

/-- `utf8_to_utf32` on a string that starts with a character. -/
theorem utf8ToUtf32_decoded {c0 : U8} (hc0 : c0 ≠ 0) {s8 : List U8} {c : Nat} (hc : IsScalar c)
    (hlooks : ¬ LooksSurrogate c) (hbegins : encode c <+: c0 :: s8) :
    ∃ rest, c0 :: s8 = encode c ++ rest ∧ Writable (BitVec.ofNat 32 c) ∧
      ∀ behind, utf8ToUtf32 (c0 :: (s8 ++ 0 :: behind)) = some (BitVec.ofNat 32 c, rest ++ 0 :: behind) := by
  obtain ⟨rest, hrest⟩ := hbegins
  have hmax := hc.1
  have hvalue : (BitVec.ofNat 32 c).toNat = c := by rw [BitVec.toNat_ofNat, Nat.mod_eq_of_lt (by omega)]
  have hne : c ≠ 0 := by
    rintro rfl
    rw [encode_single (by decide), List.singleton_append, List.cons.injEq] at hrest
    exact hc0 hrest.1.symm
  refine ⟨rest, hrest.symm, ?_, fun behind => ?_⟩
  · rw [Writable, hvalue]
    exact ⟨hc, hne⟩
  · rw [← List.cons_append, ← hrest, List.append_assoc]
    exact utf8ToUtf32_encode hc hlooks _

/-- `utf8_to_utf32` on a string that does not. -/
theorem utf8ToUtf32_octet {c0 : U8} (hc0 : c0 ≠ 0) {s8 : List U8}
    (hnone : ¬ ∃ c, IsScalar c ∧ ¬ LooksSurrogate c ∧ encode c <+: c0 :: s8) (behind : List U8) :
    utf8ToUtf32 (c0 :: (s8 ++ 0 :: behind)) = some (c0.setWidth 32, s8 ++ 0 :: behind) := by
  obtain ⟨c32, n, hread⟩ := utf8ToUtf32_nul c0 s8
  rcases utf8ToUtf32_sound (hread behind) with heq | ⟨c, hc, rest, hrest⟩
  · rw [hread behind, heq]
  · have hblock : encode c ++ rest = (c0 :: s8) ++ 0 :: behind := hrest
    by_cases hlooks : LooksSurrogate c
    · obtain ⟨d0, d8, hsplit, hd⟩ := utf8ToUtf32_looksSurrogate hlooks rest
      rw [hsplit, List.cons_append, List.cons.injEq] at hblock
      rw [hsplit, hblock.1, hblock.2] at hd
      exact hd
    · have hne : c ≠ 0 := by
        rintro rfl
        rw [encode_single (by decide), List.singleton_append, List.cons_append, List.cons.injEq] at hblock
        exact hc0 hblock.1.symm
      obtain ⟨rest', hbegins, -⟩ := split_at_nul (encode_noNul hc.1 hne) hblock
      exact absurd ⟨c, hc, hlooks, rest', hbegins.symm⟩ hnone

/-- `utf8_to_utf32` on any string with its NUL. -/
theorem utf8ToUtf32_string {c0 : U8} (hc0 : c0 ≠ 0) (s8 : List U8) :
    ∃ seg rest c, c0 :: s8 = seg ++ rest ∧ seg ≠ [] ∧ Writable c ∧ (c0 = 0x0a ↔ c = 0x0a) ∧
      ∀ behind, utf8ToUtf32 (c0 :: (s8 ++ 0 :: behind)) = some (c, rest ++ 0 :: behind) := by
  by_cases hdecoded : ∃ c, IsScalar c ∧ ¬ LooksSurrogate c ∧ encode c <+: c0 :: s8
  · obtain ⟨c, hc, hlooks, hbegins⟩ := hdecoded
    obtain ⟨rest, hsplit, hwritable, hread⟩ := utf8ToUtf32_decoded hc0 hc hlooks hbegins
    refine ⟨encode c, rest, _, hsplit, List.cons_ne_nil _ _, hwritable, ?_, hread⟩
    constructor
    · rintro rfl
      have hsingle := @utf8ToUtf32_single 0x0a (.inl (by decide)) (s8 ++ 0 :: [])
      rw [hread [], Option.some.injEq, Prod.mk.injEq] at hsingle
      exact hsingle.1
    · intro hnewline
      have hvalue := congrArg BitVec.toNat hnewline
      rw [BitVec.toNat_ofNat, Nat.mod_eq_of_lt (Nat.lt_of_le_of_lt hc.1 (by decide))] at hvalue
      have hc' : c = 0x0a := hvalue
      rw [hc', encode_single (by decide), List.singleton_append, List.cons.injEq] at hsplit
      exact hsplit.1
  · refine ⟨[c0], s8, c0.setWidth 32, rfl, List.cons_ne_nil _ _, writable_octet hc0, ?_, utf8ToUtf32_octet hc0 hdecoded⟩
    rw [← BitVec.toNat_inj, ← BitVec.toNat_inj, BitVec.toNat_setWidth,
      Nat.mod_eq_of_lt (Nat.lt_trans c0.isLt (by decide))]
    rfl

/-- The characters that `utf8_to_utf32` yields of a string, from one call after the other. Each of them reads octets that
none of the others reads, and together they read the string. -/
inductive Reads : List U8 → List U32 → Prop
  | nil : Reads [] []
  | cons {seg rest : List U8} {c : U32} {cs : List U32} (hseg : seg ≠ [])
      (hread : ∀ behind, utf8ToUtf32 (seg ++ (rest ++ 0 :: behind)) = some (c, rest ++ 0 :: behind))
      (hrest : Reads rest cs) : Reads (seg ++ rest) (c :: cs)

/-! ### The units of a character -/

/-- A newline is written with a carriage return in front of it. -/
def withReturn (c : U32) : List U32 := if c = 0x0a then [0x0d, 0x0a] else [c]

/-- The text of characters on the console. -/
def consoleText (cs : List U32) : List U16 := (cs.flatMap withReturn).flatMap fun c => Utf16.encode c.toNat

theorem consoleText_append (cs ds : List U32) : consoleText (cs ++ ds) = consoleText cs ++ consoleText ds := by
  rw [consoleText, List.flatMap_append, List.flatMap_append]
  rfl

theorem consoleText_singleton (c : U32) :
    consoleText [c] = (if c = 0x0a then [0x0d] else []) ++ Utf16.encode c.toNat := by
  rw [consoleText, List.flatMap_singleton, withReturn]
  split_ifs with h
  · subst h
    decide
  · rw [List.flatMap_singleton, List.nil_append]

theorem toNat_unit {n : Nat} (hn : n < 0x10000) : (BitVec.ofNat 16 n).toNat = n := by
  rw [BitVec.toNat_ofNat]
  exact Nat.mod_eq_of_lt hn

theorem unit_ne_zero {n : Nat} (hn : n < 0x10000) (hne : n ≠ 0) : BitVec.ofNat 16 n ≠ 0 := by
  intro hzero
  have hvalue := congrArg BitVec.toNat hzero
  rw [toNat_unit hn] at hvalue
  exact hne hvalue

/-- The first unit of a scalar value is the second half of nothing. -/
theorem encode_units {c : Nat} (hc : IsScalar c) (hne : c ≠ 0) :
    ∃ u us, Utf16.encode c = u :: us ∧ us.length ≤ 1 ∧ (∀ v ∈ u :: us, v ≠ 0) ∧ ¬ Utf16.IsLow u ∧
      (u = 0x0a → c = 0x0a) := by
  obtain ⟨hmax, hsurrogate⟩ := hc
  by_cases hplane : c < 0x10000
  · refine ⟨_, [], if_pos hplane, Nat.zero_le 1, List.forall_mem_singleton.mpr (unit_ne_zero hplane hne), ?_, fun hu => ?_⟩
    · rw [Utf16.IsLow, toNat_unit hplane]
      omega
    · have hvalue := congrArg BitVec.toNat hu
      rwa [toNat_unit hplane] at hvalue
  · have hhigh : 0xd800 + (c - 0x10000) / 0x400 < 0xdc00 := by omega
    have hlow : 0xdc00 + (c - 0x10000) % 0x400 < 0x10000 := by omega
    have hhigh' := Nat.lt_trans hhigh (by decide : 0xdc00 < 0x10000)
    refine ⟨_, [_], if_neg hplane, Nat.le_refl 1, ?_, ?_, fun hu => ?_⟩
    · exact List.forall_mem_cons.mpr ⟨unit_ne_zero hhigh' (by omega),
        List.forall_mem_singleton.mpr (unit_ne_zero hlow (by omega))⟩
    · rw [Utf16.IsLow, toNat_unit hhigh']
      omega
    · have hvalue := congrArg BitVec.toNat hu
      rw [toNat_unit hhigh'] at hvalue
      have hten : 0xd800 + (c - 0x10000) / 0x400 = 0x0a := hvalue
      omega

/-- What is written for a character begins no second half and has one or two units, none of them 0. -/
theorem consoleText_char {c : U32} (hc : Writable c) :
    ∃ u us, consoleText [c] = u :: us ∧ us.length ≤ 1 ∧ (∀ v ∈ u :: us, v ≠ 0) ∧ ¬ Utf16.IsLow u ∧ u ≠ 0x0a := by
  rw [consoleText_singleton]
  by_cases hnewline : c = 0x0a
  · subst hnewline
    exact ⟨0x0d, [0x0a], rfl, Nat.le_refl 1, by simp, by decide, by decide⟩
  · obtain ⟨u, us, hunits, hlength, hne, hlow, hten⟩ := encode_units hc.1 hc.2
    rw [if_neg hnewline, List.nil_append]
    exact ⟨u, us, hunits, hlength, hne, hlow, fun hu => hnewline (BitVec.eq_of_toNat_eq (hten hu))⟩

/-! ### Stores -/

/-- The units in the buffer that were not written to the console yet. -/
structure Pending (s : EfiPuts) (units : List U16) : Prop where
  pos : s.pos = units.length
  units : ∀ i < units.length, units[i]? = some (s.buf i)

/-- A string of units in a buffer, with its NUL. -/
structure HoldsUnits (buf : Nat → U16) (l : List U16) : Prop where
  units : ∀ i < l.length, l[i]? = some (buf i)
  nul : buf l.length = 0

/-- The same position in the string, and the same calls. -/
def SameInput (s s' : EfiPuts) : Prop := s'.s8 = s.s8 ∧ s'.calls = s.calls

theorem Pending.put {s : EfiPuts} {units : List U16} (h : Pending s units) (u : U16) :
    ∀ i < (units ++ [u]).length, (units ++ [u])[i]? = some (Function.update s.buf s.pos u i) := by
  intro i hi
  rw [List.length_append, List.length_singleton] at hi
  rw [h.pos]
  rcases Nat.lt_succ_iff_lt_or_eq.mp hi with hlt | rfl
  · rw [List.getElem?_append_left hlt, Function.update_of_ne (Nat.ne_of_lt hlt)]
    exact h.units i hlt
  · rw [List.getElem?_concat_length, Function.update_self]

theorem Pending.store {s : EfiPuts} {units : List U16} (h : Pending s units) (hroom : units.length < 128) (u : U16) :
    ∃ s', s.store u = some s' ∧ Pending s' (units ++ [u]) ∧ SameInput s s' := by
  refine ⟨_, if_pos (h.pos ▸ hroom), ⟨?_, h.put u⟩, rfl, rfl⟩
  rw [List.length_append, List.length_singleton, ← h.pos]

theorem Pending.storeReturn {s : EfiPuts} {units : List U16} (h : Pending s units) (hroom : units.length < 128) :
    ∃ s', s.storeReturn = some s' ∧ Pending s' (units ++ if s.s8.head? = some 0x0a then [0x0d] else []) ∧
      SameInput s s' := by
  rw [EfiPuts.storeReturn]
  split_ifs
  · exact h.store hroom _
  · exact ⟨s, rfl, by rwa [List.append_nil], rfl, rfl⟩

theorem highUnit_eq {c : U32} (hplane : ¬ c.toNat < 0x10000) (hmax : c.toNat ≤ 0x10ffff) :
    EfiPuts.highUnit c = BitVec.ofNat 16 (0xd800 + (c.toNat - 0x10000) / 0x400) := by
  have hoffset : (0xd800 : U32) - ((0x10000 : U32) >>> 10) = 0xd7c0#32 := by decide
  have hshift : c.toNat >>> 10 = c.toNat / 0x400 := Nat.shiftRight_eq_div_pow c.toNat 10
  apply BitVec.eq_of_toNat_eq
  rw [EfiPuts.highUnit, hoffset, BitVec.toNat_setWidth, BitVec.toNat_add, BitVec.toNat_ushiftRight, hshift,
    toNat_unit (by omega)]
  have hvalue : (0xd7c0 + c.toNat / 0x400) % 2 ^ 32 % 2 ^ 16 = 0xd800 + (c.toNat - 0x10000) / 0x400 := by omega
  exact hvalue

theorem lowUnit_eq {c : U32} (hplane : ¬ c.toNat < 0x10000) :
    EfiPuts.lowUnit c = BitVec.ofNat 16 (0xdc00 + (c.toNat - 0x10000) % 0x400) := by
  have hmask : (c &&& 0x3ff).toNat = c.toNat % 0x400 := Word.toNat_and_sub_one (a := (0x400 : U32)) ⟨10, rfl⟩ c
  apply BitVec.eq_of_toNat_eq
  rw [EfiPuts.lowUnit, BitVec.toNat_setWidth, BitVec.toNat_add, hmask, toNat_unit (by omega)]
  have hvalue : (0xdc00 + c.toNat % 0x400) % 2 ^ 32 % 2 ^ 16 = 0xdc00 + (c.toNat - 0x10000) % 0x400 := by omega
  exact hvalue

/-- The units of a character are stored, one or a pair. -/
theorem Pending.storeChar {s : EfiPuts} {units : List U16} (h : Pending s units) {c : U32} (hc : c.toNat ≤ 0x10ffff)
    (hroom : units.length + (Utf16.encode c.toNat).length ≤ 128) :
    ∃ s', s.storeChar c = some s' ∧ Pending s' (units ++ Utf16.encode c.toNat) ∧ SameInput s s' := by
  rw [EfiPuts.storeChar]
  by_cases hplane : c < 0x10000
  · have hencode : Utf16.encode c.toNat = [BitVec.ofNat 16 c.toNat] := if_pos hplane
    rw [hencode] at hroom ⊢
    rw [if_pos hplane]
    exact h.store hroom _
  · have hencode : Utf16.encode c.toNat = [EfiPuts.highUnit c, EfiPuts.lowUnit c] := by
      rw [highUnit_eq hplane hc, lowUnit_eq hplane]
      exact if_neg hplane
    rw [hencode] at hroom ⊢
    obtain ⟨s₁, hs₁, hpending₁, hs8₁, hcalls₁⟩ := h.store (Nat.lt_of_succ_lt hroom) (EfiPuts.highUnit c)
    obtain ⟨s₂, hs₂, hpending₂, hs8₂, hcalls₂⟩ := hpending₁.store
      (by rw [List.length_append, List.length_singleton]; exact hroom) (EfiPuts.lowUnit c)
    rw [List.append_assoc] at hpending₂
    refine ⟨s₂, ?_, hpending₂, hs8₂.trans hs8₁, hcalls₂.trans hcalls₁⟩
    rw [if_neg hplane, hs₁, Option.bind_some, hs₂]

/-- What waits is written with a NUL behind it. -/
theorem Pending.flush {s : EfiPuts} {units : List U16} (h : Pending s units) (hroom : units.length < 128) :
    ∃ s' call, s.flush = some s' ∧ Pending s' [] ∧ s'.s8 = s.s8 ∧ s'.calls = s.calls ++ [call] ∧
      HoldsUnits call units := by
  refine ⟨_, Function.update s.buf s.pos 0, if_pos (h.pos ▸ hroom), ⟨rfl, fun i hi => absurd hi (Nat.not_lt_zero i)⟩, rfl,
    rfl, fun i hi => ?_, ?_⟩
  · rw [Function.update_of_ne (h.pos ▸ Nat.ne_of_lt hi)]
    exact h.units i hi
  · rw [← h.pos, Function.update_self]

/-! ### A pass -/

theorem flushAtLimit_cons {s : EfiPuts} {c : U8} {s8 : List U8} (h : s.s8 = c :: s8) :
    s.flushAtLimit = if c = 0 ∨ s.pos ≥ 126 then s.flush else some s := by
  rw [EfiPuts.flushAtLimit, h]
  rfl

theorem putsPass_end {s : EfiPuts} {s8 : List U8} (h : s.s8 = 0 :: s8) : putsPass s = .done (some s.calls) := by
  rw [putsPass, h]
  rfl

theorem putsPass_body {s s' : EfiPuts} {c : U8} {s8 : List U8} (h : s.s8 = c :: s8) (hc : c ≠ 0)
    (hbody : s.body = some s') : putsPass s = .next s' := by
  simp only [putsPass, h, if_neg hc, hbody]

/-- The characters wait in the buffer, or all of them were written after the earlier calls. -/
inductive Stored (calls : List (Nat → U16)) (cs : List U32) (s' : EfiPuts) : Prop
  | waits (hpending : Pending s' (consoleText cs)) (hroom : (consoleText cs).length ≤ 125) (hcalls : s'.calls = calls)
  | written {call : Nat → U16} (hpending : Pending s' []) (hcalls : s'.calls = calls ++ [call])
      (hholds : HoldsUnits call (consoleText cs)) (hroom : (consoleText cs).length < 128)

/-- The test at the end of a pass. -/
theorem Pending.flushAtLimit {s : EfiPuts} {cs : List U32} (h : Pending s (consoleText cs))
    (hroom : (consoleText cs).length < 128) {c : U8} {s8 : List U8} (hs8 : s.s8 = c :: s8) :
    ∃ s', s.flushAtLimit = some s' ∧ s'.s8 = s.s8 ∧ Stored s.calls cs s' ∧ (c = 0 → s'.calls ≠ s.calls) := by
  rw [flushAtLimit_cons hs8]
  split_ifs with hflush
  · obtain ⟨s', call, hs', hpending, hs8', hcalls, hholds⟩ := h.flush hroom
    exact ⟨s', hs', hs8', .written hpending hcalls hholds hroom, fun _ heq => by simp [hcalls] at heq⟩
  · obtain ⟨hc, hpos⟩ := not_or.mp hflush
    rw [h.pos] at hpos
    exact ⟨s, rfl, rfl, .waits h (by omega) rfl, fun hzero => absurd hzero hc⟩

/-- A pass of the loop reads a character and stores it; nothing waits at the end of the string. -/
theorem body_stored {s : EfiPuts} {cs : List U32} (h : Pending s (consoleText cs))
    (hroom : (consoleText cs).length ≤ 125) {c0 : U8} {s8 rest behind : List U8} {c : U32}
    (hs8 : s.s8 = c0 :: (s8 ++ 0 :: behind)) (hc : Writable c) (hnewline : c0 = 0x0a ↔ c = 0x0a)
    (hread : utf8ToUtf32 (c0 :: (s8 ++ 0 :: behind)) = some (c, rest ++ 0 :: behind)) :
    ∃ s', s.body = some s' ∧ s'.s8 = rest ++ 0 :: behind ∧ Stored s.calls (cs ++ [c]) s' ∧
      (rest = [] → s'.calls ≠ s.calls) := by
  obtain ⟨u, us, htext, hlength, -⟩ := consoleText_char hc
  have hlength' : (consoleText (cs ++ [c])).length ≤ 127 := by
    rw [consoleText_append, htext, List.length_append, List.length_cons]
    omega
  obtain ⟨s₁, hs₁, hpending₁, hs8₁, hcalls₁⟩ := h.storeReturn (by omega)
  have hhead : s.s8.head? = some 0x0a ↔ c = 0x0a := by
    rw [hs8, List.head?_cons, Option.some.injEq, hnewline]
  have hunits : (consoleText cs ++ if s.s8.head? = some 0x0a then [0x0d] else []) ++ Utf16.encode c.toNat =
      consoleText (cs ++ [c]) := by
    rw [if_congr hhead rfl rfl, List.append_assoc, consoleText_append, consoleText_singleton]
  have hread₁ : Pending { s₁ with s8 := rest ++ 0 :: behind } _ := ⟨hpending₁.pos, hpending₁.units⟩
  obtain ⟨s₂, hs₂, hpending₂, hs8₂, hcalls₂⟩ := hread₁.storeChar hc.1.1
    (by rw [← List.length_append, hunits]; omega)
  rw [hunits] at hpending₂
  obtain ⟨b, t, hfirst⟩ : ∃ b t, rest ++ 0 :: behind = b :: t := List.exists_cons_of_ne_nil (by simp)
  obtain ⟨s', hs', hs8', hstored, hend⟩ := hpending₂.flushAtLimit (by omega) (hs8₂.trans hfirst)
  rw [hcalls₂] at hstored hend
  rw [show ({ s₁ with s8 := rest ++ 0 :: behind } : EfiPuts).calls = s.calls from hcalls₁] at hstored hend
  refine ⟨s', ?_, hs8'.trans hs8₂, hstored, fun hnil => hend ?_⟩
  · simp only [EfiPuts.body, hs₁, Option.bind_eq_bind, Option.bind_some, hs8₁.trans hs8, hread, hs₂]
    exact hs'
  · rw [hnil, List.nil_append, List.cons.injEq] at hfirst
    exact hfirst.1.symm

/-! ### The loop -/

/-- What the loop does with the string that is left, when the characters `waiting` are in the buffer. -/
theorem run_putsPass {bytes behind : List U8} (hbytes : ∀ b ∈ bytes, b ≠ 0) (n : Nat) (hn : bytes.length < n)
    {s : EfiPuts} {waiting : List U32} (h : Pending s (consoleText waiting)) (hroom : (consoleText waiting).length ≤ 125)
    (hs8 : s.s8 = bytes ++ 0 :: behind) (hend : bytes = [] → waiting = []) :
    ∃ (calls : List (Nat → U16)) (cs : List U32) (groups : List (List U32)),
      Loop.run putsPass n s = some (some (s.calls ++ calls)) ∧ Reads bytes cs ∧
      (∀ c ∈ cs, Writable c) ∧ groups.flatten = waiting ++ cs ∧
      (∀ g ∈ groups, g ≠ [] ∧ (consoleText g).length < 128) ∧
      List.Forall₂ HoldsUnits calls (groups.map consoleText) := by
  induction n generalizing bytes s waiting with
  | zero => exact absurd hn (Nat.not_lt_zero _)
  | succ n ih =>
      cases bytes with
      | nil =>
          refine ⟨[], [], [], ?_, .nil, by simp, by simp [hend rfl], by simp, .nil⟩
          rw [Loop.run_succ_done (putsPass_end hs8), List.append_nil]
      | cons c0 s8 =>
          obtain ⟨hc0, hrest⟩ := List.forall_mem_cons.mp hbytes
          obtain ⟨seg, rest, c, hsplit, hseg, hc, hnewline, hread⟩ := utf8ToUtf32_string hc0 s8
          obtain ⟨s', hbody, hs8', hstored, hflushed⟩ := body_stored h hroom hs8 hc hnewline (hread behind)
          have hread' : ∀ behind, utf8ToUtf32 (seg ++ (rest ++ 0 :: behind)) = some (c, rest ++ 0 :: behind) := by
            intro behind
            rw [← List.append_assoc, ← hsplit]
            exact hread behind
          have hbytes' : ∀ b ∈ rest, b ≠ 0 := fun b hb => hbytes b (hsplit ▸ List.mem_append_right seg hb)
          have hlength : rest.length < n := by
            have hsum := congrArg List.length hsplit
            have hpos := List.length_pos_iff.mpr hseg
            rw [List.length_append] at hsum
            omega
          rw [Loop.run_succ_next (putsPass_body hs8 hc0 hbody), hsplit]
          cases hstored with
          | waits hpending hroom' hcalls =>
              have hne : rest = [] → waiting ++ [c] = [] := fun hnil => absurd hcalls (hflushed hnil)
              obtain ⟨calls, cs, groups, hrun, hreads, hall, hflat, hgroups, hholds⟩ :=
                ih hbytes' hlength hpending hroom' hs8' hne
              refine ⟨calls, c :: cs, groups, ?_, .cons hseg hread' hreads, List.forall_mem_cons.mpr ⟨hc, hall⟩, ?_,
                hgroups, hholds⟩
              · rw [hrun, hcalls]
              · rw [hflat, List.append_assoc, List.singleton_append]
          | @written call hpending hcalls hcall hroom' =>
              obtain ⟨calls, cs, groups, hrun, hreads, hall, hflat, hgroups, hholds⟩ :=
                @ih rest hbytes' hlength s' [] hpending (Nat.zero_le _) hs8' fun _ => rfl
              refine ⟨call :: calls, c :: cs, (waiting ++ [c]) :: groups, ?_, .cons hseg hread' hreads,
                List.forall_mem_cons.mpr ⟨hc, hall⟩, ?_, List.forall_mem_cons.mpr ⟨⟨by simp, hroom'⟩, hgroups⟩,
                .cons hcall hholds⟩
              · rw [hrun, hcalls, List.append_assoc, List.singleton_append]
              · rw [List.flatten_cons, hflat, List.nil_append, List.append_assoc, List.singleton_append]

/-- What `efi_puts` does with a string: the buffers that it writes to the console, the characters that it reads and the
chunks of text. A chunk is a string that is not empty, and it is the text of whole characters: it starts with neither
the second half of a pair nor the newline behind a carriage return. -/
structure PutsText (bytes : List U8) (calls : List (Nat → U16)) (cs : List U32) (chunks : List (List U16)) : Prop where
  reads : Reads bytes cs
  holds : List.Forall₂ HoldsUnits calls chunks
  text : chunks.flatten = (cs.flatMap withReturn).flatMap fun c => Utf16.encode c.toNat
  chunk : ∀ l ∈ chunks, l ≠ [] ∧ l.length < putsLim ∧ ∀ u ∈ l, u ≠ 0
  whole : ∃ groups : List (List U32), groups.flatten = cs ∧ chunks = groups.map consoleText
  start : ∀ l ∈ chunks, ∀ u ∈ l.head?, ¬ Utf16.IsLow u ∧ u ≠ 0x0a

theorem consoleText_noNul {g : List U32} (hg : ∀ c ∈ g, Writable c) : ∀ u ∈ consoleText g, u ≠ 0 := by
  induction g with
  | nil => simp [consoleText]
  | cons c g ih =>
      obtain ⟨hc, hrest⟩ := List.forall_mem_cons.mp hg
      obtain ⟨u, us, htext, -, hne, -⟩ := consoleText_char hc
      intro v hv
      rw [← List.singleton_append, consoleText_append, List.mem_append, htext] at hv
      exact hv.elim (hne v) (ih hrest v)

theorem consoleText_start {g : List U32} (hg : ∀ c ∈ g, Writable c) (hne : g ≠ []) :
    consoleText g ≠ [] ∧ ∀ u ∈ (consoleText g).head?, ¬ Utf16.IsLow u ∧ u ≠ 0x0a := by
  obtain ⟨c, g, rfl⟩ := List.exists_cons_of_ne_nil hne
  obtain ⟨u, us, htext, -, -, hlow, hten⟩ := consoleText_char (hg c List.mem_cons_self)
  rw [← List.singleton_append, consoleText_append, htext, List.cons_append]
  refine ⟨List.cons_ne_nil _ _, ?_⟩
  rintro v ⟨rfl⟩
  exact ⟨hlow, hten⟩

theorem flatten_map_consoleText (groups : List (List U32)) :
    (groups.map consoleText).flatten = consoleText groups.flatten := by
  induction groups with
  | nil => rfl
  | cons g groups ih => rw [List.map_cons, List.flatten_cons, List.flatten_cons, consoleText_append, ih]

/-- **The console text**: on every string `efi_puts` ends, with no store outside of its buffer, and has written the text
of the characters that it read. -/
theorem efiPuts_text (str : CString) (behind : List U8) (buf : Nat → U16) :
    ∃ calls cs chunks, efiPuts (str.bytes ++ 0 :: behind) buf = some calls ∧ PutsText str.bytes calls cs chunks := by
  have hfuel : str.bytes.length < (str.bytes ++ 0 :: behind).length + 1 := by
    rw [List.length_append]
    omega
  obtain ⟨calls, cs, groups, hrun, hreads, hall, hflat, hgroups, hholds⟩ :=
    @run_putsPass str.bytes behind str.noNul _ hfuel ⟨str.bytes ++ 0 :: behind, buf, 0, []⟩ []
      ⟨rfl, fun i hi => absurd hi (Nat.not_lt_zero i)⟩ (Nat.zero_le _) rfl fun _ => rfl
  rw [List.nil_append] at hflat
  have hwritable : ∀ g ∈ groups, ∀ c ∈ g, Writable c := fun g hg c hc => hall c (hflat ▸ List.mem_flatten_of_mem hg hc)
  refine ⟨calls, cs, groups.map consoleText, ?_, hreads, hholds, ?_, ?_, ⟨groups, hflat, rfl⟩, ?_⟩
  · rw [efiPuts, hrun]
    rfl
  · rw [flatten_map_consoleText, hflat]
    rfl
  · intro l hl
    obtain ⟨g, hg, rfl⟩ := List.mem_map.mp hl
    obtain ⟨hne, hroom⟩ := hgroups g hg
    exact ⟨(consoleText_start (hwritable g hg) hne).1, hroom, consoleText_noNul (hwritable g hg)⟩
  · intro l hl
    obtain ⟨g, hg, rfl⟩ := List.mem_map.mp hl
    exact (consoleText_start (hwritable g hg) (hgroups g hg).1).2

end XosKernel.Vsnprintf
