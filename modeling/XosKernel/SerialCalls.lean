import XosKernel.SerialModel

/-! What the driver makes the port do. While it sets the port up the divisor latch stands in the place of the data
register, so nothing is sent; after that the latch is out of the way for good, a byte is written only when the
holding register is empty, and the data register is read only when a byte is there. The port can only lose a byte that
arrives before the one in front of it was read. -/

namespace XosKernel.Serial

open Vsnprintf Device

/-! ### What the port keeps by itself -/

/-- The port has the settings `set`, has not lost a byte, was given `out` to send, and of its bytes `taken` were
read. -/
structure Uart.Has (set : Settings) (out taken : List U8) (u : Uart) : Prop where
  settings : u.settings = set
  kept : u.lost = false
  out : u.sent = out
  taken : u.taken = taken

section

variable {set : Settings} {out taken : List U8} {base : U64} {u v t : Uart}

theorem Uart.Moves.has (h : Uart.Moves u v) (hu : u.Has set out taken) : v.Has set out taken := by
  cases h with
  | @sends c h =>
      refine ⟨hu.settings, hu.kept, ?_, hu.taken⟩
      rw [← hu.out, Uart.sent, Uart.sent, h]
      simp
  | receives c => exact ⟨hu.settings, hu.kept, hu.out, hu.taken⟩

theorem Uart.Works.has (h : Uart.Works u v) (hu : u.Has set out taken) : v.Has set out taken := by
  induction h with
  | refl => exact hu
  | tail _ hmove ih => exact hmove.has ih

theorem Uart.Works.holding (h : Uart.Works u v) (hu : u.holding = none) : v.holding = none := by
  induction h with
  | refl => exact hu
  | tail _ hmove ih =>
      cases hmove with
      | sends h => rfl
      | receives c => exact ih

theorem Uart.Works.buffer (h : Uart.Works u v) (hu : u.buffer ≠ none) : v.buffer ≠ none := by
  induction h with
  | refl => exact hu
  | tail _ hmove ih =>
      cases hmove with
      | sends h => exact ih
      | receives c => simp

/-! ### Accesses -/

theorem port_ne {i j : U64} (h : i ≠ j) : base + i ≠ base + j := fun heq => h ((BitVec.add_right_inj base).mp heq)

theorem port_ne_base {i : U64} (h : i ≠ 0) : base + i ≠ base := by
  simpa using h

variable {port : U64} {value : U8}

theorem Uart.Reads.data_eq (h : Uart.Reads base u port value t) (hport : port = base)
    (hdlab : u.settings.dlab = false) : t = u.take ∧ ∀ c ∈ u.buffer, value = c := by
  cases h with
  | data _ h => exact ⟨rfl, h⟩
  | latch hdlab' => exact absurd (hdlab'.symm.trans hdlab) (by decide)
  | control => exact absurd hport (port_ne_base (by decide))
  | status _ _ => exact absurd hport (port_ne_base (by decide))
  | other h => exact absurd hport (by simp_all)

theorem Uart.Reads.control_eq (h : Uart.Reads base u port value t) (hport : port = base + 3) :
    t = u ∧ value = u.settings.lcr := by
  cases h with
  | data _ h => exact absurd hport.symm (port_ne_base (by decide))
  | latch _ => exact absurd hport.symm (port_ne_base (by decide))
  | control => exact ⟨rfl, rfl⟩
  | status _ _ => exact absurd hport (port_ne (by decide))
  | other h => exact absurd hport (by simp_all)

theorem Uart.Reads.status_eq (h : Uart.Reads base u port value t) (hport : port = base + 5) :
    t = u ∧ (value &&& uartLsrThre ≠ 0 ↔ u.holding = none) ∧ (value &&& uartLsrDr ≠ 0 ↔ u.buffer ≠ none) := by
  cases h with
  | data _ h => exact absurd hport.symm (port_ne_base (by decide))
  | latch _ => exact absurd hport.symm (port_ne_base (by decide))
  | control => exact absurd hport (port_ne (by decide))
  | status hthre hdr => exact ⟨rfl, hthre, hdr⟩
  | other h => exact absurd hport (by simp_all)

end

/-! ### Setting the port up -/

section

variable {set : Settings} {out taken : List U8} {base : U64} {Wait : Uart → Prop}

/-- A write to a register other than the data register. -/
theorem outb_setting {value : U8} {port : U64} (h : port = base → set.dlab = true) :
    Triple (Uart.Step base) Wait (Uart.Has set out taken) (outb value port)
      fun _ => Uart.Has (set.write base value port) out taken := by
  refine .write fun u t hu hstep => ?_
  cases hstep with
  | @outb v _ _ hworks =>
      have hv := hworks.has hu
      have hdata : ¬ (port = base ∧ v.settings.dlab = false) := by
        rintro ⟨hport, hdlab⟩
        rw [hv.settings, h hport] at hdlab
        cases hdlab
      rw [Uart.write, if_neg hdata]
      exact ⟨by rw [hv.settings], hv.kept, hv.out, hv.taken⟩

theorem inb_control (hwait : ∀ u, Uart.Has set out taken u → Wait u) :
    Triple (Uart.Step base) Wait (Uart.Has set out taken) (inb (base + uartLcr))
      fun lcr u => lcr = set.lcr ∧ u.Has set out taken := by
  refine .read hwait fun value u t hu hstep => ?_
  obtain ⟨hworks, h⟩ := hstep
  have hv := hworks.has hu
  obtain ⟨rfl, rfl⟩ := h.control_eq rfl
  exact ⟨by rw [hv.settings], hv⟩

theorem inb_data (hdlab : set.dlab = false) (hwait : ∀ u, Uart.Has set out taken u → Wait u) :
    Triple (Uart.Step base) Wait (fun u => u.Has set out taken ∧ u.buffer ≠ none) (inb (base + uartRx))
      fun c => Uart.Has set out (taken ++ [c]) := by
  refine .read (fun u hu => hwait u hu.1) fun value u t hu hstep => ?_
  obtain ⟨hworks, h⟩ := hstep
  have hv := hworks.has hu.1
  obtain ⟨rfl, hvalue⟩ := h.data_eq (BitVec.add_zero base) (by rw [hv.settings, hdlab])
  obtain ⟨c, hbuffer⟩ := Option.ne_none_iff_exists'.mp (hworks.buffer hu.2)
  obtain rfl := hvalue c hbuffer
  exact ⟨hv.settings, hv.kept, hv.out, by rw [Uart.take, hv.taken, hbuffer, Option.toList_some]⟩

/-- The status register says what it says, and the port stays as it is. -/
theorem status_has {value : U8} {u t : Uart} (hu : u.Has set out taken)
    (hstep : Uart.Step base u (.inb (base + uartLsr) value) t) :
    t.Has set out taken ∧ (value &&& uartLsrThre ≠ 0 → t.holding = none) ∧
      (value &&& uartLsrDr ≠ 0 → t.buffer ≠ none) := by
  obtain ⟨hworks, h⟩ := hstep
  obtain ⟨rfl, hthre, hdr⟩ := h.status_eq rfl
  exact ⟨hworks.has hu, hthre.mp, hdr.mp⟩

/-- More bytes were read after `taken`. -/
def Uart.HasSkipped (set : Settings) (out taken : List U8) (u : Uart) : Prop :=
  ∃ skipped, u.Has set out (taken ++ skipped)

/-- The loop that empties the receive buffer. -/
theorem drain (hdlab : set.dlab = false) (hwait : ∀ u, Uart.HasSkipped set out taken u → Wait u) :
    Triple (Uart.Step base) Wait (Uart.HasSkipped set out taken) (Driver.loop (drainPass base) ())
      fun _ => Uart.HasSkipped set out taken := by
  refine .loop (fun _ => Uart.HasSkipped set out taken) (fun _ => hwait) (fun _ => ?_) ()
  rintro rs u t ⟨skipped, hu⟩
  have hskipped (u : Uart) (h : u.Has set out (taken ++ skipped)) : Wait u := hwait u ⟨skipped, h⟩
  have hstatus : Triple (Uart.Step base) Wait (Uart.Has set out (taken ++ skipped)) (inb (base + uartLsr))
      fun lsr u => Uart.Has set out (taken ++ skipped) u ∧ (lsr &&& uartLsrDr ≠ 0 → u.buffer ≠ none) :=
    .read hskipped fun value u t hu hstep => ⟨(status_has hu hstep).1, (status_has hu hstep).2.2⟩
  refine hstatus.bind (fun lsr => .ite (fun hdr => ?_) fun _ => ?_) rs u t hu
  · refine Triple.bind ((inb_data hdlab hskipped).conseq (fun u hu => ⟨hu.1, hu.2 hdr⟩)
      (fun _ _ h => h) fun _ h => h) fun c => .pure fun u hu => ?_
    exact ⟨skipped ++ [c], by rw [← List.append_assoc]; exact hu⟩
  · exact .pure fun u hu => ⟨skipped, hu.1⟩

/-- The settings after `real_serial_ns16550a_init`: eight data bits, no parity and one stop bit, and the divisor latch
out of the way. The interrupts are off unless the latch stood in the way of that at first. -/
def Settings.setUp (set : Settings) (baudRate : U32) : Settings where
  ier := if set.dlab then set.ier else 0
  lcr := 0x03
  mcr := 0xc7
  divisorLow := (divisorValue baudRate &&& 0xff).setWidth 8
  divisorHigh := ((divisorValue baudRate >>> 8) &&& 0xff).setWidth 8

theorem dlab_setUp (set : Settings) (baudRate : U32) : (set.setUp baudRate).dlab = false := by
  have hlcr : ((0x03 : U8) &&& uartLcrDlab ≠ 0 : Bool) = false := by decide
  exact hlcr

section

variable {ier lcr mcr low high value : U8}

theorem write_ier : set.write base value (base + uartIer) =
    if set.dlab then { set with divisorHigh := value } else { set with ier := value } := by
  rw [Settings.write, if_neg (port_ne_base (by decide)), if_pos (show base + uartIer = base + 1 from rfl)]

theorem write_lcr :
    (⟨ier, lcr, mcr, low, high⟩ : Settings).write base value (base + uartLcr) = ⟨ier, value, mcr, low, high⟩ := by
  rw [Settings.write, if_neg (port_ne_base (by decide)), if_neg (port_ne (by decide)),
    if_pos (show base + uartLcr = base + 3 from rfl)]

theorem write_mcr :
    (⟨ier, lcr, mcr, low, high⟩ : Settings).write base value (base + uartMcr) = ⟨ier, lcr, value, low, high⟩ := by
  rw [Settings.write, if_neg (port_ne_base (by decide)), if_neg (port_ne (by decide)), if_neg (port_ne (by decide)),
    if_pos (show base + uartMcr = base + 4 from rfl)]

/-- The latch is in the place of the data register once its bit is set. -/
theorem dlab_or : (⟨ier, lcr ||| uartLcrDlab, mcr, low, high⟩ : Settings).dlab = true := by
  refine decide_eq_true fun hzero => ?_
  have hbit : ((lcr ||| uartLcrDlab) &&& uartLcrDlab).getLsbD 7 = (0 : U8).getLsbD 7 :=
    congrArg (fun x : U8 => x.getLsbD 7) hzero
  simp [uartLcrDlab] at hbit

theorem write_latch_low : (⟨ier, lcr ||| uartLcrDlab, mcr, low, high⟩ : Settings).write base value
    (base + uartDivLatchLow) = ⟨ier, lcr ||| uartLcrDlab, mcr, value, high⟩ := by
  rw [Settings.write, if_pos (show base + uartDivLatchLow = base from BitVec.add_zero base), if_pos dlab_or]

theorem write_latch_high : (⟨ier, lcr ||| uartLcrDlab, mcr, low, high⟩ : Settings).write base value
    (base + uartDivLatchHigh) = ⟨ier, lcr ||| uartLcrDlab, mcr, low, value⟩ := by
  rw [Settings.write, if_neg (port_ne_base (by decide)), if_pos (show base + uartDivLatchHigh = base + 1 from rfl),
    if_pos dlab_or]

end

/-- While the port is set up. -/
def Uart.HasSome (out taken : List U8) (u : Uart) : Prop := ∃ set, u.HasSkipped set out taken

theorem Uart.Has.some {u : Uart} (h : u.Has set out taken) : u.HasSome out taken := ⟨set, [], by rwa [List.append_nil]⟩

theorem realInit_sets_up {baudRate : U32} (hrate : baudRate ≠ 0) :
    Triple (Uart.Step base) (Uart.HasSome out taken) (Uart.Has set out taken) (realSerialNs16550aInit base baudRate)
      fun divisor u => divisor = divisorValue baudRate ∧ Uart.HasSkipped (set.setUp baudRate) out taken u := by
  have hother {i : U64} (hi : i ≠ 0) (set' : Settings) (h : base + i = base) : set'.dlab = true :=
    absurd h (port_ne_base hi)
  obtain ⟨ier, lcr, mcr, low, high, hier, hset⟩ : ∃ ier lcr mcr low high, ier = (set.setUp baudRate).ier ∧
      set.write base 0x00 (base + uartIer) = ⟨ier, lcr, mcr, low, high⟩ := by
    rw [write_ier, Settings.setUp]
    split_ifs
    · exact ⟨_, _, _, _, _, rfl, rfl⟩
    · exact ⟨_, _, _, _, _, rfl, rfl⟩
  rw [realSerialNs16550aInit, if_neg hrate]
  refine Triple.bind (outb_setting (hother (by decide) _)) fun _ => ?_
  rw [hset]
  refine Triple.bind (inb_control fun u hu => hu.some) fun value => .assume ?_
  rintro rfl
  refine Triple.bind (outb_setting (hother (by decide) _)) fun _ => ?_
  rw [write_lcr]
  refine Triple.bind (outb_setting fun _ => dlab_or) fun _ => ?_
  rw [write_latch_low]
  refine Triple.bind (outb_setting (hother (by decide) _)) fun _ => ?_
  rw [write_latch_high]
  refine Triple.bind (outb_setting (hother (by decide) _)) fun _ => ?_
  rw [write_lcr]
  refine Triple.bind (outb_setting (hother (by decide) _)) fun _ => ?_
  rw [write_lcr]
  refine Triple.bind (outb_setting (hother (by decide) _)) fun _ => ?_
  rw [write_mcr, hier]
  refine Triple.bind ((drain (dlab_setUp set baudRate) fun u hu => ⟨_, hu⟩).conseq (fun u hu => ⟨[], by rwa [List.append_nil]⟩)
    (fun _ _ h => h) fun _ h => h) fun _ => ?_
  exact .pure fun u hu => ⟨rfl, hu⟩

end

/-! ### Sending and receiving -/

section

variable {set : Settings} {out taken : List U8} {base : U64}

theorem realPutc_sends (hdlab : set.dlab = false) (c : U8) :
    Triple (Uart.Step base) (Uart.Has set out taken) (Uart.Has set out taken) (realSerialNs16550aPutc base c)
      fun _ => Uart.Has set (out ++ [c]) taken := by
  have hready : Triple (Uart.Step base) (Uart.Has set out taken) (Uart.Has set out taken)
      (Driver.poll (Access.inb (base + uartLsr)) fun lsr => lsr &&& uartLsrThre ≠ 0)
      fun _ u => Uart.Has set out taken u ∧ u.holding = none := by
    refine .poll (fun _ h => h) (fun lsr u t hu hstep _ => (status_has hu hstep).1) fun lsr u t hu hstep hlsr => ?_
    exact ⟨(status_has hu hstep).1, (status_has hu hstep).2.1 (of_decide_eq_true hlsr)⟩
  refine hready.bind fun _ => .write fun u t hu hstep => ?_
  cases hstep with
  | @outb v _ _ hworks =>
      have hv := hworks.has hu.1
      have hempty := hworks.holding hu.2
      have hport : base + uartTx = base ∧ v.settings.dlab = false := ⟨BitVec.add_zero base, by rw [hv.settings, hdlab]⟩
      rw [Uart.write, if_pos hport]
      refine ⟨hv.settings, ?_, ?_, hv.taken⟩
      · rw [hv.kept, hempty]
        rfl
      · have hline : v.line = out := by rw [← hv.out, Uart.sent, hempty, Option.toList_none, List.append_nil]
        rw [Uart.sent, hline, Option.toList_some]

theorem realGetc_takes (hdlab : set.dlab = false) :
    Triple (Uart.Step base) (Uart.Has set out taken) (Uart.Has set out taken) (realSerialNs16550aGetc base)
      fun c => Uart.Has set out (taken ++ [c]) := by
  have hready : Triple (Uart.Step base) (Uart.Has set out taken) (Uart.Has set out taken)
      (Driver.poll (Access.inb (base + uartLsr)) fun lsr => lsr &&& uartLsrDr ≠ 0)
      fun _ u => Uart.Has set out taken u ∧ u.buffer ≠ none := by
    refine .poll (fun _ h => h) (fun lsr u t hu hstep _ => (status_has hu hstep).1) fun lsr u t hu hstep hlsr => ?_
    exact ⟨(status_has hu hstep).1, (status_has hu hstep).2.2 (of_decide_eq_true hlsr)⟩
  exact hready.bind fun _ => inb_data hdlab fun _ h => h

end

/-- The port was given the first bytes of `text` to send behind `out`. -/
def Uart.HasPart (set : Settings) (out taken text : List U8) (u : Uart) : Prop :=
  ∃ k, u.Has set (out ++ text.take k) taken

section

variable {set : Settings} {out taken : List U8}

theorem Uart.Has.part {u : Uart} (h : u.Has set out taken) (text : List U8) : u.HasPart set out taken text :=
  ⟨0, by rwa [List.take_zero, List.append_nil]⟩

theorem Uart.HasPart.append {u : Uart} {text more : List U8} (h : u.HasPart set out taken text) :
    u.HasPart set out taken (text ++ more) := by
  obtain ⟨k, hu⟩ := h
  refine ⟨min k text.length, ?_⟩
  rwa [List.take_append_of_le_length (Nat.min_le_right _ _), List.take_eq_take_min.symm]

theorem Uart.HasPart.behind {u : Uart} {text more : List U8} (h : u.HasPart set (out ++ text) taken more) :
    u.HasPart set out taken (text ++ more) := by
  obtain ⟨k, hu⟩ := h
  refine ⟨text.length + k, ?_⟩
  rwa [List.take_length_add_append, ← List.append_assoc]

/-- The string up to its NUL is sent, and nothing behind it is read. -/
theorem puts_sends (hdlab : set.dlab = false) {text : List U8} (htext : ∀ c ∈ text, c ≠ 0) (behind : List U8) :
    Triple (Uart.Step uartBaseAddr) (Uart.HasPart set out taken text) (Uart.Has set out taken)
      (serialNs16550aPuts (text ++ 0 :: behind)) fun _ => Uart.Has set (out ++ text) taken := by
  induction text generalizing out with
  | nil => exact .pure fun u hu => by rwa [List.append_nil]
  | cons c text ih =>
      obtain ⟨hc, hrest⟩ := List.forall_mem_cons.mp htext
      rw [List.cons_append, serialNs16550aPuts, if_pos hc, ← List.singleton_append, ← List.append_assoc]
      refine Triple.bind ((realPutc_sends hdlab c).conseq (fun _ h => h) (fun _ _ h => h) fun u hu => hu.part _)
        fun _ => ?_
      exact (ih hrest).conseq (fun _ h => h) (fun _ _ h => h) fun u hu => hu.behind

end

/-! ### What arrives -/

/-- The bytes that were read and the one that can be read. -/
def Uart.got (u : Uart) : List U8 := u.taken ++ u.buffer.toList

/-- The bytes `new` have arrived. Those that the port still has or has handed over are in the order of their arrival, and
each of the other ones was overrun. -/
structure Uart.Hears (u t : Uart) (new : List U8) : Prop where
  arrived : t.arrived = u.arrived ++ new
  order : t.got.Sublist (u.got ++ new)
  count : t.got.length + t.overruns = (u.got ++ new).length + u.overruns

section

variable {base : U64} {u v t : Uart} {new new' : List U8}

theorem Uart.Hears.of_eq (harrived : t.arrived = u.arrived) (hgot : t.got = u.got) (hoverruns : t.overruns = u.overruns) :
    u.Hears t [] := by
  have hsame : t.got = u.got ++ [] := hgot.trans (List.append_nil _).symm
  exact ⟨harrived.trans (List.append_nil _).symm, hsame ▸ List.Sublist.refl _, by rw [hsame, hoverruns]⟩

theorem Uart.Hears.refl (u : Uart) : u.Hears u [] := .of_eq rfl rfl rfl

theorem Uart.Hears.trans (h : u.Hears v new) (h' : v.Hears t new') : u.Hears t (new ++ new') := by
  have horder := h'.order
  have hcount := h'.count
  have hfirst := h.count
  simp only [List.length_append] at hcount hfirst
  refine ⟨by rw [h'.arrived, h.arrived, List.append_assoc], ?_, by simp only [List.length_append]; omega⟩
  rw [← List.append_assoc]
  exact horder.trans (h.order.append_right new')

/-- Without an overrun nothing is missing. -/
theorem Uart.Hears.eq (h : u.Hears t new) (hnone : t.overruns = u.overruns) : t.got = u.got ++ new := by
  have hcount := h.count
  exact h.order.eq_of_length (by omega)

theorem Uart.Moves.hears (h : Uart.Moves u v) : ∃ new, u.Hears v new := by
  cases h with
  | sends h => exact ⟨[], .of_eq rfl rfl rfl⟩
  | receives c =>
      refine ⟨[c], rfl, ?_, ?_⟩
      · rw [Uart.got, Uart.got, Option.toList_some]
        exact (List.sublist_append_left u.taken u.buffer.toList).append_right [c]
      · simp only [Uart.got, Option.toList_some, List.length_append, List.length_singleton]
        omega

theorem Uart.Works.hears (h : Uart.Works u v) : ∃ new, u.Hears v new := by
  induction h with
  | refl => exact ⟨[], .refl u⟩
  | tail _ hmove ih =>
      obtain ⟨new, hnew⟩ := ih
      obtain ⟨new', hnew'⟩ := hmove.hears
      exact ⟨new ++ new', hnew.trans hnew'⟩

/-- Reading the buffer takes its byte from there. -/
theorem Uart.take_got (u : Uart) : u.take.got = u.got := List.append_nil _

theorem Uart.Reads.hears {port : U64} {value : U8} (h : Uart.Reads base u port value t) : u.Hears t [] := by
  cases h with
  | data => exact .of_eq rfl u.take_got rfl
  | latch => exact .refl u
  | control => exact .refl u
  | status => exact .refl u
  | other => exact .refl u

theorem Uart.write_hears (u : Uart) (value : U8) (port : U64) : u.Hears (u.write base value port) [] := by
  unfold Uart.write
  split_ifs
  · exact .of_eq rfl rfl rfl
  · exact .of_eq rfl rfl rfl

theorem Uart.Step.hears {e : Access} (h : Uart.Step base u e t) : ∃ new, u.Hears t new := by
  cases h with
  | inb hworks h =>
      obtain ⟨new, hnew⟩ := hworks.hears
      exact ⟨_, hnew.trans h.hears⟩
  | @outb v _ _ hworks =>
      obtain ⟨new, hnew⟩ := hworks.hears
      exact ⟨_, hnew.trans (v.write_hears _ _)⟩

/-- Over any accesses. -/
theorem steps_hears {es : List Access} (h : Steps (Uart.Step base) u es t) : ∃ new, u.Hears t new := by
  induction h with
  | nil u => exact ⟨[], .refl u⟩
  | cons hstep _ ih =>
      obtain ⟨new, hnew⟩ := hstep.hears
      obtain ⟨new', hnew'⟩ := ih
      exact ⟨new ++ new', hnew.trans hnew'⟩

end

/-! ### Any calls -/

inductive Request where
  | putc (c : U8)
  | puts (str : CString)
  | getc

def Request.text : Request → List U8
  | putc c => [c]
  | puts str => str.bytes
  | getc => []

/-- Calls of the driver, one after the other, with the bytes that `serial_ns16550a_getc` returns. -/
def serve : List Request → Program (List U8)
  | [] => pure []
  | .putc c :: rest => do
      serialNs16550aPutc c
      serve rest
  | .puts str :: rest => do
      serialNs16550aPuts (str.bytes ++ [0])
      serve rest
  | .getc :: rest => do
      let c ← serialNs16550aGetc
      let cs ← serve rest
      return c :: cs

def texts (requests : List Request) : List U8 := requests.flatMap Request.text

/-- The calls after the port is set up. -/
def session (baudRate : U32) (requests : List Request) : Program (List U8) := do
  let _ ← serialNs16550aInit baudRate
  serve requests

section

variable {set : Settings} {out taken : List U8}

/-- Whatever the calls wait for, the first bytes of their text were sent. -/
def Uart.Serves (out taken text : List U8) (u : Uart) : Prop :=
  ∃ set got, u.HasPart set out (taken ++ got) text

theorem serve_delivers (hdlab : set.dlab = false) (requests : List Request) :
    Triple (Uart.Step uartBaseAddr) (Uart.Serves out taken (texts requests)) (Uart.Has set out taken) (serve requests)
      fun got => Uart.Has set (out ++ texts requests) (taken ++ got) := by
  induction requests generalizing out taken with
  | nil => exact .pure fun u hu => by rwa [texts, List.flatMap_nil, List.append_nil, List.append_nil]
  | cons request requests ih =>
      have htexts : texts (request :: requests) = request.text ++ texts requests := List.flatMap_cons
      rw [htexts, ← List.append_assoc]
      have hbehind {out' : List U8} (hout : out' = out ++ request.text) (u : Uart)
          (hu : u.Serves out' taken (texts requests)) : u.Serves out taken (request.text ++ texts requests) := by
        obtain ⟨set', got, hpart⟩ := hu
        subst hout
        exact ⟨set', got, hpart.behind⟩
      have hwaits (u : Uart) (hu : u.HasPart set out taken request.text) :
          u.Serves out taken (request.text ++ texts requests) := ⟨set, [], by rw [List.append_nil]; exact hu.append⟩
      cases request with
      | putc c =>
          refine Triple.bind ((realPutc_sends hdlab c).conseq (fun _ h => h) (fun _ _ h => h)
            fun u hu => hwaits u (hu.part _)) fun _ => ?_
          exact ih.conseq (fun _ h => h) (fun _ _ h => h) (hbehind rfl)
      | puts str =>
          refine Triple.bind ((puts_sends hdlab str.noNul []).conseq (fun _ h => h) (fun _ _ h => h) hwaits) fun _ => ?_
          exact ih.conseq (fun _ h => h) (fun _ _ h => h) (hbehind rfl)
      | getc =>
          refine Triple.bind ((realGetc_takes hdlab).conseq (fun _ h => h) (fun _ _ h => h)
            fun u hu => hwaits u (hu.part _)) fun c => ?_
          have hrest := (@ih (out ++ []) (taken ++ [c])).conseq (fun u hu => by rwa [List.append_nil])
            (fun _ _ h => h) fun u ⟨set', got, hu⟩ => hbehind rfl u ⟨set', c :: got, by rwa [List.append_cons]⟩
          refine hrest.bind fun cs => .pure fun u hu => ?_
          rwa [← List.append_cons] at hu

end

/-- **The port at work.** A call of `serial_ns16550a_init` and any calls after it, with a port that works at any pace:
the port never loses a byte to send, it is given the bytes of the calls to send, in order and without any other one, and
the bytes that `serial_ns16550a_getc` returns are read behind the ones thrown away by `serial_ns16550a_init`. The bytes
read and the one in the buffer are bytes that arrived, in order, and all of them if none was overrun. While the calls wait
this holds of the first bytes. -/
theorem session_delivers {baudRate : U32} (hrate : baudRate ≠ 0) (requests : List Request) {u t : Uart}
    (hkept : u.lost = false) (replies : List U8)
    (hrun : Steps (Uart.Step uartBaseAddr) u (session baudRate requests replies).events t) :
    t.lost = false ∧ ∃ new read, t.arrived = u.arrived ++ new ∧ t.taken = u.taken ++ read ∧
      (read ++ t.buffer.toList).Sublist (u.buffer.toList ++ new) ∧
      (t.overruns = u.overruns → read ++ t.buffer.toList = u.buffer.toList ++ new) ∧
      match (session baudRate requests replies).outcome with
      | .returned got _ => t.settings = u.settings.setUp baudRate ∧ t.sent = u.sent ++ texts requests ∧
          ∃ skipped, read = skipped ++ got
      | .waiting => ∃ k, t.sent = u.sent ++ (texts requests).take k
      | .stuck => False := by
  have hsession : Triple (Uart.Step uartBaseAddr) (Uart.Serves u.sent u.taken (texts requests))
      (Uart.Has u.settings u.sent u.taken) (session baudRate requests) fun got t =>
        ∃ skipped, t.Has (u.settings.setUp baudRate) (u.sent ++ texts requests) (u.taken ++ skipped ++ got) := by
    refine Triple.bind ((realInit_sets_up hrate).conseq (fun _ h => h) (fun _ _ h => h) ?_) fun divisor => .assume ?_
    · rintro v ⟨set, skipped, hv⟩
      exact ⟨set, skipped, hv.part _⟩
    · rintro - rs v w ⟨skipped, hv⟩ hsteps
      refine (serve_delivers (dlab_setUp _ _) requests).conseq (fun _ h => h) (fun got _ h => ⟨skipped, h⟩) ?_ rs v w hv
        hsteps
      rintro x ⟨set, got, hx⟩
      exact ⟨set, skipped ++ got, by rwa [← List.append_assoc]⟩
  have hmeets := hsession replies u t ⟨rfl, hkept, rfl, rfl⟩ hrun
  obtain ⟨new, hnew⟩ := steps_hears hrun
  have hread {read : List U8} (htaken : t.taken = u.taken ++ read) :
      (read ++ t.buffer.toList).Sublist (u.buffer.toList ++ new) ∧
        (t.overruns = u.overruns → read ++ t.buffer.toList = u.buffer.toList ++ new) := by
    have horder := hnew.order
    have heq := hnew.eq
    rw [Uart.got, Uart.got, htaken, List.append_assoc, List.append_assoc] at horder heq
    exact ⟨(List.append_sublist_append_left u.taken).mp horder, fun hnone => List.append_cancel_left (heq hnone)⟩
  cases hout : (session baudRate requests replies).outcome with
  | returned got left =>
      rw [hout] at hmeets
      obtain ⟨skipped, h⟩ := hmeets
      have htaken := h.taken
      rw [List.append_assoc] at htaken
      obtain ⟨horder, hall⟩ := hread htaken
      exact ⟨h.kept, new, _, hnew.arrived, htaken, horder, hall, h.settings, h.out, skipped, rfl⟩
  | waiting =>
      rw [hout] at hmeets
      obtain ⟨set, got, k, h⟩ := hmeets
      obtain ⟨horder, hall⟩ := hread h.taken
      exact ⟨h.kept, new, got, hnew.arrived, h.taken, horder, hall, k, h.out⟩
  | stuck =>
      rw [hout] at hmeets
      exact hmeets.elim

theorem letter_noNul : ∀ c ∈ [chr 'x'], c ≠ 0 := by decide

/-- A port with the divisor latch in the way and a byte that nobody has read. -/
def staleUart : Uart := ⟨⟨0x0f, 0x83, 0x00, 0x01, 0x00⟩, none, [], false, some (chr 'a'), [], [], 0⟩

def letterReplies : List U8 := [0x83, 0x61, chr 'a', 0x60, 0x60, 0x61, chr 'b']

/-- An `x` is sent and a `b` received, and the `a` is thrown away. -/
theorem session_delivers_letter : ∃ t, Steps (Uart.Step uartBaseAddr) staleUart
      (session 9600 [.puts ⟨[chr 'x'], letter_noNul⟩, .getc] letterReplies).events t ∧
    t.lost = false ∧ t.settings = ⟨0x0f, 0x03, 0xc7, 0x0c, 0x00⟩ ∧ t.sent = [chr 'x'] ∧
      ∃ skipped, t.taken = skipped ++ [chr 'b'] ∧ skipped ++ [chr 'b'] = [chr 'a'] ++ t.arrived := by
  have hrun : ∃ t, Steps (Uart.Step uartBaseAddr) staleUart
      (session 9600 [.puts ⟨[chr 'x'], letter_noNul⟩, .getc] letterReplies).events t ∧ t.overruns = 0 ∧
        t.buffer = none := by
    refine ⟨_, .cons (.outb .refl) (.cons (.inb .refl .control) (.cons (.outb .refl) (.cons (.outb .refl)
      (.cons (.outb .refl) (.cons (.outb .refl) (.cons (.outb .refl) (.cons (.outb .refl) (.cons (.inb .refl (.status ?_ ?_))
      (.cons (.inb .refl (.data ?_ ?_)) (.cons (.inb .refl (.status ?_ ?_)) (.cons (.inb .refl (.status ?_ ?_))
      (.cons (.outb .refl) (.cons (.inb (.tail (.single (.sends rfl)) (.receives (chr 'b'))) (.status ?_ ?_))
      (.cons (.inb .refl (.data ?_ ?_)) (.nil _))))))))))))))), rfl, rfl⟩
    all_goals decide
  obtain ⟨t, hrun, hnone, hempty⟩ := hrun
  obtain ⟨hkept, new, read, harrived, htaken, -, hall, hset, hsent, skipped, rfl⟩ :=
    session_delivers (by decide) _ rfl _ hrun
  have hall := hall hnone
  rw [hempty, Option.toList_none, List.append_nil] at hall
  exact ⟨t, hrun, hkept, hset, hsent, skipped, htaken, hall.trans (congrArg _ harrived.symm)⟩

end XosKernel.Serial
