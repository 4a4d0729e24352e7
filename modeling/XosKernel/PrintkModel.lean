import XosKernel.SerialCalls
import XosKernel.VsnprintfBuffer
import XosKernel.EfiPuts

/-! `printk` and `efi_printk`. Both skip a level in front of the format, have `vsnprintf` write to a buffer of 256 bytes
on the stack and print what the buffer holds, with a note behind it if the text was longer. `efi_printk` keeps
quiet about what is not important enough. -/

namespace XosKernel.Vsnprintf

open Memory Device Serial

/-! ### Levels -/

def kernSohAscii : U8 := 1

/-- `printk_get_level`, 0 when there is none. The second byte is read only behind the first one. -/
def printkGetLevel : List U8 → U8
  | c :: d :: _ => if c = kernSohAscii ∧ d ≠ 0 ∧ (chr '0' ≤ d ∧ d ≤ chr '7' ∨ d = chr 'c') then d else 0
  | _ => 0

def printkSkipLevel (buffer : List U8) : List U8 := if printkGetLevel buffer ≠ 0 then buffer.drop 2 else buffer

/-- `loglevel` of the two functions, -1 for none and for a continued line. `printk` does not use it. -/
def loglevelOf (fmt : List U8) : CInt :=
  let level := printkGetLevel fmt
  if chr '0' ≤ level ∧ level ≤ chr '9' then level.setWidth 32 - 48 else -1

/-- The format behind its level. -/
def CString.skipLevel (fmt : CString) : CString where
  bytes := printkSkipLevel fmt.bytes
  noNul := by
    intro b hb
    unfold printkSkipLevel at hb
    split_ifs at hb
    · exact fmt.noNul b (List.mem_of_mem_drop hb)
    · exact fmt.noNul b hb

theorem printkGetLevel_nul (fmt : CString) (behind : List U8) :
    printkGetLevel (fmt.bytes ++ 0 :: behind) = printkGetLevel fmt.bytes := by
  rcases fmt.bytes with _ | ⟨c, _ | ⟨d, rest⟩⟩
  · cases behind with
    | nil => rfl
    | cons d rest => simp [printkGetLevel, kernSohAscii]
  · simp [printkGetLevel]
  · rfl

theorem printkSkipLevel_nul (fmt : CString) (behind : List U8) :
    printkSkipLevel (fmt.bytes ++ 0 :: behind) = fmt.skipLevel.bytes ++ 0 :: behind := by
  have hskip : fmt.skipLevel.bytes = if printkGetLevel fmt.bytes ≠ 0 then fmt.bytes.drop 2 else fmt.bytes := rfl
  rw [hskip, printkSkipLevel, printkGetLevel_nul]
  split_ifs with hlevel
  · rw [List.drop_append_of_le_length]
    rcases hbytes : fmt.bytes with _ | ⟨c, _ | ⟨d, rest⟩⟩
    · exact absurd (by rw [hbytes]; rfl) hlevel
    · exact absurd (by rw [hbytes]; rfl) hlevel
    · simp
  · rfl

/-! ### The functions -/

def textBytes (s : String) : List U8 := s.toList.map chr

theorem truncated_noNul : ∀ c ∈ textBytes "[Message truncated]\n", c ≠ 0 := by decide

/-- The note behind a text that was cut. -/
def truncatedNote : CString := ⟨textBytes "[Message truncated]\n", truncated_noNul⟩

theorem stub_noNul : ∀ c ∈ textBytes "EFI stub: ", c ≠ 0 := by decide

def stubPrefix : CString := ⟨textBytes "EFI stub: ", stub_noNul⟩

/-- `sizeof(printf_buf)`. -/
def printfBufSize : U64 := 256

/-- `printf_buf` as a block. -/
def printfBuf (buf : Mem 64) : List U8 := (List.range 256).map fun i => buf (BitVec.ofNat 64 i)

/-- `print_str`. -/
def printStr (str : List U8) : Program Unit := serialNs16550aPuts str

/-- `printk`, with anything in `printf_buf` at first. -/
def printk (env : Strings) (buf : Mem 64) (fmt : List U8) (ap : VaList) : Program CInt :=
  match vsnprintf env buf printfBufSize (printkSkipLevel fmt) ap with
  | .error _ => Driver.fail
  | .ok (printed, buf) => do
      printStr (printfBuf buf)
      if printed.signExtend 64 ≥ printfBufSize then do
        printStr (truncatedNote.bytes ++ [0])
        return -1
      else return printed

/-- The prefix of a message with a level. -/
def putsPrefix (loglevel : CInt) (buf : Nat → U16) : Option (List (Nat → U16)) :=
  if (0 : CInt).sle loglevel then efiPuts (stubPrefix.bytes ++ [0]) buf else some []

/-- `efi_printk`: its value and the buffers that `efi_char16_puts` is called with. The calls of `efi_puts` find anything
in their buffers. -/
def efiPrintk (env : Strings) (efiLoglevel : CInt) (buf : Mem 64) (bufs : Nat → Nat → U16) (fmt : List U8)
    (ap : VaList) : Option (CInt × List (Nat → U16)) :=
  let loglevel := loglevelOf fmt
  if efiLoglevel.sle loglevel then some (0, [])
  else do
    let calls ← putsPrefix loglevel (bufs 0)
    match vsnprintf env buf printfBufSize (printkSkipLevel fmt) ap with
    | .error _ => none
    | .ok (printed, buf) => do
        let shown ← efiPuts (printfBuf buf) (bufs 1)
        if printed.signExtend 64 ≥ printfBufSize then do
          let note ← efiPuts (truncatedNote.bytes ++ [0]) (bufs 2)
          return (-1, calls ++ shown ++ note)
        else return (printed, calls ++ shown)

/-! ### What the buffer holds -/

section

variable (env : Strings) (fmt : CString) (ap : VaList)

/-- The text that fits in the buffer: whole characters up to its last byte but one, and no NUL among them. -/
def bufferText : List U8 := (kept 255 (puts env fmt ap)).takeWhile (· ≠ 0)

/-- The text is longer than the buffer. -/
def Overlong : Prop := 256 ≤ (fullOutput env fmt ap).length

instance : Decidable (Overlong env fmt ap) := inferInstanceAs (Decidable (_ ≤ _))

/-- What a message shows. -/
def shownText : List U8 := bufferText env fmt ap ++ if Overlong env fmt ap then truncatedNote.bytes else []

/-- What is returned for it. -/
def shownResult : CInt := if Overlong env fmt ap then -1 else BitVec.ofNat 32 (fullOutput env fmt ap).length

end

theorem bufferText_noNul (env : Strings) (fmt : CString) (ap : VaList) : ∀ c ∈ bufferText env fmt ap, c ≠ 0 :=
  fun c hc => by simpa using List.mem_takeWhile_imp hc

theorem length_bufferText_le (env : Strings) (fmt : CString) (ap : VaList) :
    (bufferText env fmt ap).length ≤ 255 :=
  (List.takeWhile_prefix _).length_le.trans (length_kept_le 255 _)

theorem printfBuf_holds {buf : Mem 64} {s : List U8} (h : HoldsString buf s) (hlength : s.length ≤ 255) :
    ∃ behind, printfBuf buf = s ++ 0 :: behind := by
  have hsize : (printfBuf buf).length = 256 := by rw [printfBuf, List.length_map, List.length_range]
  have hat (i : Nat) (hi : i < 256) : (printfBuf buf)[i]? = some (buf (BitVec.ofNat 64 i)) := by
    rw [printfBuf, List.getElem?_map, List.getElem?_range hi, Option.map_some]
  have htake : (printfBuf buf).take s.length = s := by
    apply List.ext_getElem?
    intro i
    rcases Nat.lt_or_ge i s.length with hi | hi
    · rw [List.getElem?_take_of_lt hi, hat i (by omega), h.bytes i hi]
    · rw [List.getElem?_eq_none (by rw [List.length_take]; omega), List.getElem?_eq_none hi]
  have hnul : (printfBuf buf)[s.length]? = some 0 := by rw [hat _ (by omega), h.nul]
  obtain ⟨hlt, hzero⟩ := List.getElem?_eq_some_iff.mp hnul
  refine ⟨(printfBuf buf).drop (s.length + 1), ?_⟩
  conv_lhs => rw [← List.take_append_drop s.length (printfBuf buf), htake, List.drop_eq_getElem_cons hlt, hzero]

/-- The buffer after `vsnprintf`. -/
theorem vsnprintf_printfBuf (env : Strings) (buf : Mem 64) (fmt : CString) (ap : VaList)
    (hlength : (fullOutput env fmt ap).length < 2 ^ 31) :
    ∃ buf' behind, vsnprintf env buf printfBufSize (fmt.bytes ++ [0]) ap =
        .ok (BitVec.ofNat 32 (fullOutput env fmt ap).length, buf') ∧
      printfBuf buf' = bufferText env fmt ap ++ 0 :: behind := by
  have hleaves := leaves printfBufSize (puts env fmt ap) ⟨buf, 0⟩ (by
    rw [show (0 : U64).toNat = 0 from rfl, Nat.zero_add]
    exact hlength.trans (by decide))
  have hloop := formatLoop_eq env (Put.exec printfBufSize) fmt ap ⟨buf, 0⟩
  generalize putAll (Put.exec printfBufSize) (puts env fmt ap) ⟨buf, 0⟩ = b at hleaves hloop
  have hret : b.pos.setWidth 32 = BitVec.ofNat 32 (fullOutput env fmt ap).length := by
    rw [hleaves.pos, show (0 : U64) + BitVec.ofNat 64 ((puts env fmt ap).flatMap Put.octets).length = _ from
      BitVec.zero_add _]
    exact BitVec.setWidth_ofNat_of_le (by decide) _
  have hlast := toNat_last b.pos (show printfBufSize ≠ 0 by decide)
  generalize hdef : (if b.pos < printfBufSize - 1 then b.pos else printfBufSize - 1) = last at hlast
  obtain ⟨hbytes, hnul⟩ := hleaves.string (by decide) hlength hlast rfl
  have hprefix := kept_isPrefix (printfBufSize.toNat - 1) (puts env fmt ap)
  have hholds : HoldsString (store8 b.buf last 0) (bufferText env fmt ap) := by
    refine .of_bytes (fun i hi => ?_) hnul
    obtain ⟨t, ht⟩ := hprefix
    rw [← hbytes i hi, ← ht]
    exact (List.getElem?_append_left hi).symm
  obtain ⟨behind, hbehind⟩ := printfBuf_holds hholds (length_bufferText_le env fmt ap)
  refine ⟨_, behind, ?_, hbehind⟩
  rw [vsnprintf, hloop, ← hret]
  simp only [bind, Except.bind, pure, Except.pure]
  rw [hdef, if_pos (show printfBufSize ≠ 0 by decide)]

theorem printed_ge {n : Nat} (hn : n < 2 ^ 31) :
    (BitVec.ofNat 32 n).signExtend 64 ≥ printfBufSize ↔ 256 ≤ n := by
  have hslt : (BitVec.ofNat 32 n).slt 0 = false := by
    rw [show (0 : CInt) = 0#32 from rfl, BitVec.slt_zero_eq_msb, BitVec.msb_eq_false_iff_two_mul_lt, BitVec.toNat_ofNat]
    omega
  rw [ge_iff_le, BitVec.le_def, toNat_signExtend hslt, BitVec.toNat_ofNat, Nat.mod_eq_of_lt (by omega)]
  rfl

end XosKernel.Vsnprintf
