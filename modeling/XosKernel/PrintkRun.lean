import XosKernel.PrintkModel
import Mathlib.Data.List.Forall2

/-! What the kernel log shows. A message is sent to the serial port byte for byte, and the messages one after the other:
`printk` keeps the port waiting for nothing but the bytes of its text. On the console of the firmware a message is the
text that its characters stand for. -/

namespace XosKernel.Vsnprintf

open Memory Device Serial

/-! ### The serial port -/

section

variable {set : Settings} {out taken : List U8}

theorem printk_sends (hdlab : set.dlab = false) (env : Strings) (buf : Mem 64) (fmt : CString) (ap : VaList)
    (hlength : (fullOutput env fmt.skipLevel ap).length < 2 ^ 31) :
    Triple (Uart.Step uartBaseAddr) (Uart.HasPart set out taken (shownText env fmt.skipLevel ap))
      (Uart.Has set out taken) (printk env buf (fmt.bytes ++ [0]) ap) fun printed u =>
        printed = shownResult env fmt.skipLevel ap ∧ u.Has set (out ++ shownText env fmt.skipLevel ap) taken := by
  obtain ⟨buf', behind, hcall, hbuf⟩ := vsnprintf_printfBuf env buf fmt.skipLevel ap hlength
  have hbuffer := @puts_sends set out taken hdlab _ (bufferText_noNul env fmt.skipLevel ap) behind
  rw [printk, printkSkipLevel_nul, hcall, shownText, shownResult]
  dsimp only
  rw [hbuf]
  by_cases hover : Overlong env fmt.skipLevel ap
  · rw [if_pos hover, if_pos hover, if_pos ((printed_ge hlength).mpr hover), ← List.append_assoc]
    refine Triple.bind (hbuffer.conseq (fun _ h => h) (fun _ _ h => h) fun u hu => hu.append) fun _ => ?_
    refine Triple.bind ((puts_sends hdlab truncatedNote.noNul []).conseq (fun _ h => h) (fun _ _ h => h)
      fun u hu => hu.behind) fun _ => ?_
    exact .pure fun u hu => ⟨rfl, hu⟩
  · rw [if_neg hover, if_neg hover, if_neg (mt (printed_ge hlength).mp hover), List.append_nil]
    exact Triple.bind hbuffer fun _ => .pure fun u hu => ⟨rfl, hu⟩

end

/-- A call of `printk` and what it finds on the stack. -/
structure LogCall where
  fmt : CString
  ap : VaList
  buf : Mem 64

def LogCall.text (env : Strings) (c : LogCall) : List U8 := shownText env c.fmt.skipLevel c.ap

def LogCall.result (env : Strings) (c : LogCall) : CInt := shownResult env c.fmt.skipLevel c.ap

/-- The length of the whole text is an `int`. -/
def LogCall.Short (env : Strings) (c : LogCall) : Prop := (fullOutput env c.fmt.skipLevel c.ap).length < 2 ^ 31

/-- The values of calls of `printk` one after the other. -/
def printkAll (env : Strings) : List LogCall → Program (List CInt)
  | [] => pure []
  | c :: calls => do
      let printed ← printk env c.buf (c.fmt.bytes ++ [0]) c.ap
      let rest ← printkAll env calls
      return printed :: rest

def logText (env : Strings) (calls : List LogCall) : List U8 := calls.flatMap (LogCall.text env)

/-- `start_kernel`: the port is set up, and messages are printed. -/
def bootLog (baudRate : U32) (env : Strings) (calls : List LogCall) : Program (List CInt) := do
  let _ ← serialNs16550aInit baudRate
  printkAll env calls

theorem printkAll_sends {set : Settings} {out taken : List U8} (hdlab : set.dlab = false) (env : Strings)
    {calls : List LogCall} (hshort : ∀ c ∈ calls, c.Short env) :
    Triple (Uart.Step uartBaseAddr) (Uart.HasPart set out taken (logText env calls)) (Uart.Has set out taken)
      (printkAll env calls) fun results u =>
        results = calls.map (LogCall.result env) ∧ u.Has set (out ++ logText env calls) taken := by
  induction calls generalizing out with
  | nil => exact .pure fun u hu => ⟨rfl, by rwa [logText, List.flatMap_nil, List.append_nil]⟩
  | cons c calls ih =>
      obtain ⟨hc, hcalls⟩ := List.forall_mem_cons.mp hshort
      have htext : logText env (c :: calls) = c.text env ++ logText env calls := List.flatMap_cons
      rw [htext, ← List.append_assoc]
      refine Triple.bind ((printk_sends hdlab env c.buf c.fmt c.ap hc).conseq (fun _ h => h) (fun _ _ h => h)
        fun u hu => hu.append) fun printed => .assume ?_
      rintro rfl
      refine Triple.bind ((ih hcalls).conseq (fun _ h => h) (fun _ _ h => h) fun u hu => hu.behind)
        fun results => .assume ?_
      rintro rfl
      exact .pure fun u hu => ⟨rfl, hu⟩

/-- The holding register is empty, as `serial_ns16550a_putc` waits for. -/
def thrEmpty (lsr : U8) : Bool := lsr &&& uartLsrThre ≠ 0

theorem puts_returns {text : List U8} (htext : ∀ c ∈ text, c ≠ 0) (behind : List U8) :
    Returns thrEmpty (serialNs16550aPuts (text ++ 0 :: behind)) text.length () := by
  induction text with
  | nil => exact .pure ()
  | cons c text ih =>
      obtain ⟨hc, hrest⟩ := List.forall_mem_cons.mp htext
      have hputc : Returns thrEmpty (serialNs16550aPutc c) 1 () := .poll _ fun _ => .write _
      rw [List.cons_append, serialNs16550aPuts, if_pos hc, List.length_cons, Nat.add_comm]
      exact hputc.bind (ih hrest)

theorem printk_returns (env : Strings) (buf : Mem 64) (fmt : CString) (ap : VaList)
    (hlength : (fullOutput env fmt.skipLevel ap).length < 2 ^ 31) :
    Returns thrEmpty (printk env buf (fmt.bytes ++ [0]) ap) (shownText env fmt.skipLevel ap).length
      (shownResult env fmt.skipLevel ap) := by
  obtain ⟨buf', behind, hcall, hbuf⟩ := vsnprintf_printfBuf env buf fmt.skipLevel ap hlength
  have hbuffer := puts_returns (bufferText_noNul env fmt.skipLevel ap) behind
  rw [printk, printkSkipLevel_nul, hcall, shownText, shownResult]
  dsimp only
  rw [hbuf, List.length_append]
  by_cases hover : Overlong env fmt.skipLevel ap
  · rw [if_pos hover, if_pos hover, if_pos ((printed_ge hlength).mpr hover)]
    exact hbuffer.bind ((puts_returns truncatedNote.noNul []).bind_pure fun _ => -1)
  · rw [if_neg hover, if_neg hover, if_neg (mt (printed_ge hlength).mp hover)]
    exact hbuffer.bind_pure fun _ => _

theorem printkAll_returns (env : Strings) {calls : List LogCall} (hshort : ∀ c ∈ calls, c.Short env) :
    Returns thrEmpty (printkAll env calls) (logText env calls).length (calls.map (LogCall.result env)) := by
  induction calls with
  | nil => exact .pure []
  | cons c calls ih =>
      obtain ⟨hc, hcalls⟩ := List.forall_mem_cons.mp hshort
      have htext : logText env (c :: calls) = c.text env ++ logText env calls := List.flatMap_cons
      rw [htext, List.length_append]
      exact (printk_returns env c.buf c.fmt c.ap hc).bind ((ih hcalls).bind_pure _)

/-- **The boot log.** After `serial_ns16550a_init`, on a port that works at any pace, calls of `printk` send their texts
to the serial port, one after the other and nothing else, and no byte is lost. A text is cut at 255 bytes, in front of a
whole character, and then a note follows and -1 is returned. The calls return as soon as the port was ready for each
byte. -/
theorem bootLog_shows {baudRate : U32} (hrate : baudRate ≠ 0) (env : Strings) {calls : List LogCall}
    (hshort : ∀ c ∈ calls, c.Short env) :
    (∀ u replies t, u.lost = false →
      Steps (Uart.Step uartBaseAddr) u (bootLog baudRate env calls replies).events t →
      t.lost = false ∧ match (bootLog baudRate env calls replies).outcome with
        | .returned results _ => t.sent = u.sent ++ logText env calls ∧ results = calls.map (LogCall.result env)
        | .waiting => ∃ k, t.sent = u.sent ++ (logText env calls).take k
        | .stuck => False) ∧
    ∀ replies, (logText env calls).length ≤ replies.countP thrEmpty →
      ∃ left, (printkAll env calls replies).outcome = .returned (calls.map (LogCall.result env)) left := by
  refine ⟨fun u replies t hkept hrun => ?_, fun replies hcount => ?_⟩
  · have hlog : Triple (Uart.Step uartBaseAddr) (fun t => ∃ set taken, t.HasPart set u.sent taken (logText env calls))
        (Uart.Has u.settings u.sent u.taken) (bootLog baudRate env calls) fun results t =>
          results = calls.map (LogCall.result env) ∧ ∃ set taken, t.Has set (u.sent ++ logText env calls) taken := by
      refine Triple.bind ((realInit_sets_up hrate).conseq (fun _ h => h) (fun _ _ h => h) ?_) fun divisor => .assume ?_
      · rintro v ⟨set, skipped, hv⟩
        exact ⟨set, _, hv.part _⟩
      · rintro - rs v w ⟨skipped, hv⟩ hsteps
        exact (printkAll_sends (dlab_setUp _ _) env hshort).conseq (fun _ h => h)
          (fun results _ h => ⟨h.1, _, _, h.2⟩) (fun x hx => ⟨_, _, hx⟩) rs v w hv hsteps
    have hmeets := hlog replies u t ⟨rfl, hkept, rfl, rfl⟩ hrun
    cases hout : (bootLog baudRate env calls replies).outcome with
    | returned results left =>
        rw [hout] at hmeets
        obtain ⟨hresults, set, taken, h⟩ := hmeets
        exact ⟨h.kept, h.out, hresults⟩
    | waiting =>
        rw [hout] at hmeets
        obtain ⟨set, taken, k, h⟩ := hmeets
        exact ⟨h.kept, k, h.out⟩
    | stuck =>
        rw [hout] at hmeets
        exact hmeets.elim
  · obtain ⟨left, hout, -⟩ := printkAll_returns env hshort replies hcount
    exact ⟨left, hout⟩

theorem hello_noNul : ∀ c ∈ textBytes "hello", c ≠ 0 := by decide

theorem xos_noNul : ∀ c ∈ textBytes "xos", c ≠ 0 := by decide

theorem banner_noNul : ∀ c ∈ textBytes "%s %s-%d.%d.%d\n", c ≠ 0 := by decide

/-- The strings that `start_kernel` prints. -/
def bannerStrings : Strings where
  str p := if p = 1 then ⟨textBytes "hello", hello_noNul⟩ else ⟨textBytes "xos", xos_noNul⟩
  wstr _ := ⟨[], nil_noZero⟩

/-- The first message of `start_kernel`. -/
def banner : LogCall where
  fmt := ⟨textBytes "%s %s-%d.%d.%d\n", banner_noNul⟩
  ap n := if n = 0 then 1 else if n = 1 then 2 else if n = 4 then 1 else 0
  buf _ := 0xff

theorem banner_text : logText bannerStrings [banner] = textBytes "hello xos-0.0.1\n" := by rfl

theorem banner_short : ∀ c ∈ [banner], c.Short bannerStrings := by
  intro c hc
  obtain rfl := List.mem_singleton.mp hc
  have hlength : (fullOutput bannerStrings banner.fmt.skipLevel banner.ap).length = 16 := by rfl
  rw [LogCall.Short, hlength]
  decide

/-- `start_kernel` up to `setup_arch`: the first lines of the log, and the port once it was ready 16 times. -/
theorem bootLog_shows_banner :
    (∀ u replies t, u.lost = false →
      Steps (Uart.Step uartBaseAddr) u (bootLog 9600 bannerStrings [banner] replies).events t →
      t.lost = false ∧ match (bootLog 9600 bannerStrings [banner] replies).outcome with
        | .returned results _ => t.sent = u.sent ++ textBytes "hello xos-0.0.1\n" ∧ results = [16]
        | .waiting => ∃ k, t.sent = u.sent ++ (textBytes "hello xos-0.0.1\n").take k
        | .stuck => False) ∧
    ∃ left, (printkAll bannerStrings [banner] (List.replicate 16 0x60)).outcome = .returned [16] left := by
  have hresult : [banner].map (LogCall.result bannerStrings) = [16] := by rfl
  obtain ⟨hsafe, hreturns⟩ := bootLog_shows (by decide : (9600 : U32) ≠ 0) bannerStrings banner_short
  rw [hresult, banner_text] at hsafe hreturns
  exact ⟨hsafe, hreturns _ (by decide)⟩

/-! ### The console of the firmware -/

/-- The buffers that were written to the console hold the text of the characters `cs`. -/
def ConsoleShows (calls : List (Nat → U16)) (cs : List U32) : Prop :=
  ∃ chunks, List.Forall₂ HoldsUnits calls chunks ∧ chunks.flatten = consoleText cs

theorem ConsoleShows.append {calls calls' : List (Nat → U16)} {cs cs' : List U32} (h : ConsoleShows calls cs)
    (h' : ConsoleShows calls' cs') : ConsoleShows (calls ++ calls') (cs ++ cs') := by
  obtain ⟨chunks, hholds, hflat⟩ := h
  obtain ⟨chunks', hholds', hflat'⟩ := h'
  refine ⟨chunks ++ chunks', List.rel_append hholds hholds', ?_⟩
  rw [List.flatten_append, hflat, hflat', consoleText_append]

theorem efiPuts_shows (str : CString) (behind : List U8) (buf : Nat → U16) :
    ∃ calls cs, efiPuts (str.bytes ++ 0 :: behind) buf = some calls ∧ Reads str.bytes cs ∧ ConsoleShows calls cs := by
  have hfuel : str.bytes.length < (str.bytes ++ 0 :: behind).length + 1 := by
    rw [List.length_append]
    omega
  obtain ⟨calls, cs, groups, hrun, hreads, -, hflat, -, hholds⟩ :=
    @run_putsPass str.bytes behind str.noNul _ hfuel ⟨str.bytes ++ 0 :: behind, buf, 0, []⟩ []
      ⟨rfl, fun i hi => absurd hi (Nat.not_lt_zero i)⟩ (Nat.zero_le _) rfl fun _ => rfl
  refine ⟨calls, cs, ?_, hreads, groups.map consoleText, hholds, ?_⟩
  · rw [efiPuts, hrun]
    rfl
  · rw [flatten_map_consoleText, hflat, List.nil_append]

def octetChars (l : List U8) : List U32 := l.map (BitVec.setWidth 32)

/-- ASCII is read octet for octet. -/
theorem Reads.ascii {bytes : List U8} {cs : List U32} (h : Reads bytes cs) (hascii : ∀ b ∈ bytes, b < 0x80) :
    cs = octetChars bytes := by
  induction h with
  | nil => rfl
  | @cons seg rest c cs hseg hread hrest ih =>
      obtain ⟨b, seg, rfl⟩ := List.exists_cons_of_ne_nil hseg
      have hones : ones b = 0 := if_pos (hascii b (by simp))
      have hsingle := hread []
      rw [List.cons_append, utf8ToUtf32_single (.inl (by omega)), Option.some.injEq, Prod.mk.injEq] at hsingle
      obtain ⟨rfl, hbehind⟩ := hsingle
      have hseg : seg = [] := by simpa using hbehind
      rw [hseg, octetChars, List.cons_append, List.map_cons, List.nil_append]
      rw [ih fun b hb => hascii b (List.mem_append_right _ hb), octetChars]

/-- A string of ASCII on the console. -/
theorem efiPuts_ascii {str : CString} (hascii : ∀ b ∈ str.bytes, b < 0x80) (buf : Nat → U16) :
    ∃ calls, efiPuts (str.bytes ++ [0]) buf = some calls ∧ ConsoleShows calls (octetChars str.bytes) := by
  obtain ⟨calls, cs, hcalls, hreads, hshows⟩ := efiPuts_shows str [] buf
  obtain rfl := hreads.ascii hascii
  exact ⟨calls, hcalls, hshows⟩

/-- What stands in front of a message with a level. -/
def levelPrefix (fmt : List U8) : List U8 := if (0 : CInt).sle (loglevelOf fmt) then stubPrefix.bytes else []

/-- **The log of the EFI stub.** A message whose level is not below `efi_loglevel` is not shown, and the result is 0. Of
any other one the console shows the prefix if it has a level, the characters of its text up to the cut, and the note if
it was cut. -/
theorem efiPrintk_shows (env : Strings) (efiLoglevel : CInt) (buf : Mem 64) (bufs : Nat → Nat → U16) (fmt : CString)
    (ap : VaList) (hlength : (fullOutput env fmt.skipLevel ap).length < 2 ^ 31) :
    if efiLoglevel.sle (loglevelOf fmt.bytes) then
      efiPrintk env efiLoglevel buf bufs (fmt.bytes ++ [0]) ap = some (0, [])
    else ∃ calls cs,
      efiPrintk env efiLoglevel buf bufs (fmt.bytes ++ [0]) ap = some (shownResult env fmt.skipLevel ap, calls) ∧
      Reads (bufferText env fmt.skipLevel ap) cs ∧
      ConsoleShows calls (octetChars (levelPrefix fmt.bytes) ++ cs ++
        if Overlong env fmt.skipLevel ap then octetChars truncatedNote.bytes else []) := by
  have hlevel : loglevelOf (fmt.bytes ++ [0]) = loglevelOf fmt.bytes := by
    rw [loglevelOf, printkGetLevel_nul, loglevelOf]
  obtain ⟨buf', behind, hcall, hbuf⟩ := vsnprintf_printfBuf env buf fmt.skipLevel ap hlength
  obtain ⟨shown, cs, hshown, hreads, hconsole⟩ :=
    efiPuts_shows ⟨bufferText env fmt.skipLevel ap, bufferText_noNul env fmt.skipLevel ap⟩ behind (bufs 1)
  obtain ⟨note, hnote, hnoteShows⟩ := @efiPuts_ascii truncatedNote (by decide) (bufs 2)
  obtain ⟨front, hfront, hfrontShows⟩ : ∃ front, putsPrefix (loglevelOf fmt.bytes) (bufs 0) = some front ∧
      ConsoleShows front (octetChars (levelPrefix fmt.bytes)) := by
    rw [putsPrefix, levelPrefix]
    split_ifs
    · exact efiPuts_ascii (by decide) (bufs 0)
    · exact ⟨[], rfl, [], .nil, rfl⟩
  by_cases hquiet : efiLoglevel.sle (loglevelOf fmt.bytes)
  · rw [if_pos hquiet, efiPrintk, hlevel, if_pos hquiet]
  · rw [if_neg hquiet, efiPrintk, hlevel, if_neg hquiet, hfront, printkSkipLevel_nul, hcall]
    simp only [Option.bind_eq_bind, Option.bind_some, hbuf, hshown, hnote, shownResult]
    by_cases hover : Overlong env fmt.skipLevel ap
    · rw [if_pos ((printed_ge hlength).mpr hover), if_pos hover, if_pos hover]
      exact ⟨_, cs, rfl, hreads, (hfrontShows.append hconsole).append hnoteShows⟩
    · rw [if_neg (mt (printed_ge hlength).mp hover), if_neg hover, if_neg hover]
      exact ⟨_, cs, rfl, hreads, by rw [List.append_nil]; exact hfrontShows.append hconsole⟩

theorem greeting_noNul : ∀ c ∈ 1 :: chr '6' :: textBytes "hi\n", c ≠ 0 := by decide

/-- A message of level 6. -/
def greeting : CString := ⟨1 :: chr '6' :: textBytes "hi\n", greeting_noNul⟩

/-- The greeting is shown to the level 7, with a carriage return in front of the newline. -/
theorem efiPrintk_shows_greeting : ∃ calls, efiPrintk bannerStrings 7 (fun _ => 0xff) (fun _ _ => 0) (greeting.bytes ++ [0])
      (fun _ => 0) = some (3, calls) ∧
    ∃ chunks, List.Forall₂ HoldsUnits calls chunks ∧
      chunks.flatten = (textBytes "EFI stub: hi\x0d\n").map (BitVec.setWidth 16) := by
  have hshows := efiPrintk_shows bannerStrings 7 (fun _ => 0xff) (fun _ _ => 0) greeting (fun _ => 0) (by decide)
  rw [if_neg (by decide)] at hshows
  obtain ⟨calls, cs, hcalls, hreads, chunks, hholds, hflat⟩ := hshows
  have htext : bufferText bannerStrings greeting.skipLevel (fun _ => 0) = textBytes "hi\n" := by rfl
  obtain rfl := hreads.ascii (by rw [htext]; decide)
  refine ⟨calls, hcalls, chunks, hholds, hflat.trans ?_⟩
  rw [htext, if_neg (by decide)]
  decide

end XosKernel.Vsnprintf
