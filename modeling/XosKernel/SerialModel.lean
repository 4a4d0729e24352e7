import XosKernel.DeviceDriver
import XosKernel.VsnprintfModel
import Mathlib.Logic.Relation

/-! The serial port: the driver of the NS16550A, and the device itself. The driver reads and writes the registers of the
port one by one. The device sends the byte in its holding register and receives bytes in between, whenever it
likes, and a byte written to the holding register before the last one is sent takes the place of that one. The driver
never turns the FIFOs on, so the port holds one byte that it has received, and the next one takes its place. -/

namespace XosKernel.Serial

open Vsnprintf Device

/-! ### The driver -/

def uartBaseAddr : U64 := 0x1fe001e0

def uartRx : U64 := 0
def uartTx : U64 := 0
def uartIer : U64 := 1
def uartLcr : U64 := 3
def uartMcr : U64 := 4
def uartLsr : U64 := 5

def uartDivLatchLow : U64 := 0
def uartDivLatchHigh : U64 := 1

def uartLcrDlab : U8 := 0x80
def uartLsrDr : U8 := 0x01
def uartLsrThre : U8 := 0x20

/-- An access to a register, a read with the value read. -/
inductive Access where
  | inb (port : U64) (value : U8)
  | outb (value : U8) (port : U64)
  deriving DecidableEq

abbrev Program (α : Type) := Driver Access U8 α

def inb (port : U64) : Program U8 := Driver.read (Access.inb port)

def outb (value : U8) (port : U64) : Program Unit := Driver.write (.outb value port)

/-- `115200 / baud_rate`, cut to the 16 bits of `divisor_value`. -/
def divisorValue (baudRate : U32) : U16 := (115200 / baudRate).setWidth 16

/-- The test and the body of the loop that empties the receive buffer. -/
def drainPass (baseAddr : U64) (_ : Unit) : Program (Unit ⊕ Unit) := do
  let lsr ← inb (baseAddr + uartLsr)
  if lsr &&& uartLsrDr ≠ 0 then do
    let _ ← inb (baseAddr + uartRx)
    return .inl ()
  else return .inr ()

/-- `real_serial_ns16550a_init`, with the new value of `divisor`. A rate of 0 is a division by zero. -/
def realSerialNs16550aInit (baseAddr : U64) (baudRate : U32) : Program U16 :=
  if baudRate = 0 then Driver.fail
  else do
    outb 0x00 (baseAddr + uartIer)
    let lcrValue ← inb (baseAddr + uartLcr)
    outb (lcrValue ||| uartLcrDlab) (baseAddr + uartLcr)
    outb ((divisorValue baudRate &&& 0xff).setWidth 8) (baseAddr + uartDivLatchLow)
    outb (((divisorValue baudRate >>> 8) &&& 0xff).setWidth 8) (baseAddr + uartDivLatchHigh)
    outb lcrValue (baseAddr + uartLcr)
    outb 0x03 (baseAddr + uartLcr)
    outb 0xc7 (baseAddr + uartMcr)
    Driver.loop (drainPass baseAddr) ()
    return divisorValue baudRate

def realSerialNs16550aPutc (baseAddr : U64) (c : U8) : Program Unit := do
  let _ ← Driver.poll (Access.inb (baseAddr + uartLsr)) fun lsr => lsr &&& uartLsrThre ≠ 0
  outb c (baseAddr + uartTx)

def realSerialNs16550aGetc (baseAddr : U64) : Program U8 := do
  let _ ← Driver.poll (Access.inb (baseAddr + uartLsr)) fun lsr => lsr &&& uartLsrDr ≠ 0
  inb (baseAddr + uartRx)

def serialNs16550aInit (baudRate : U32) : Program U16 := realSerialNs16550aInit uartBaseAddr baudRate

def serialNs16550aPutc (c : U8) : Program Unit := realSerialNs16550aPutc uartBaseAddr c

def serialNs16550aGetc : Program U8 := realSerialNs16550aGetc uartBaseAddr

/-- `serial_ns16550a_puts` on the block at `str`. Reading behind the block goes wrong. -/
def serialNs16550aPuts : List U8 → Program Unit
  | [] => Driver.fail
  | ch :: str =>
      if ch ≠ 0 then do
        serialNs16550aPutc ch
        serialNs16550aPuts str
      else return ()

/-! ### The device -/

/-- The registers that are written to set the port up. -/
structure Settings where
  ier : U8
  lcr : U8
  mcr : U8
  divisorLow : U8
  divisorHigh : U8
  deriving DecidableEq

namespace Settings

/-- The bit that puts the divisor latch in the place of the first two registers. -/
def dlab (set : Settings) : Bool := set.lcr &&& uartLcrDlab ≠ 0

def write (base : U64) (set : Settings) (value : U8) (port : U64) : Settings :=
  if port = base then if set.dlab then { set with divisorLow := value } else set
  else if port = base + 1 then if set.dlab then { set with divisorHigh := value } else { set with ier := value }
  else if port = base + 3 then { set with lcr := value }
  else if port = base + 4 then { set with mcr := value }
  else set

end Settings

/-- The port: its settings, the byte in the holding register, the bytes that it has sent and whether it lost one, the byte
in the receive buffer, the bytes that have arrived, those of them that were read and the number of the others that were
overrun. -/
structure Uart where
  settings : Settings
  holding : Option U8
  line : List U8
  lost : Bool
  buffer : Option U8
  arrived : List U8
  taken : List U8
  overruns : Nat
  deriving DecidableEq

namespace Uart

/-- What the port was given to send, in order. -/
def sent (u : Uart) : List U8 := u.line ++ u.holding.toList

/-- What the port does by itself. A byte that arrives while another one is in the buffer overruns that one. -/
inductive Moves : Uart → Uart → Prop
  | sends {u : Uart} {c : U8} (h : u.holding = some c) : Moves u { u with holding := none, line := u.line ++ [c] }
  | receives {u : Uart} (c : U8) : Moves u { u with
      buffer := some c, arrived := u.arrived ++ [c], overruns := u.overruns + u.buffer.toList.length }

abbrev Works : Uart → Uart → Prop := Relation.ReflTransGen Moves

def write (base : U64) (u : Uart) (value : U8) (port : U64) : Uart :=
  if port = base ∧ u.settings.dlab = false then
    { u with holding := some value, lost := u.lost || u.holding.isSome }
  else { u with settings := u.settings.write base value port }

/-- The port after a read of its data register. -/
def take (u : Uart) : Uart := { u with buffer := none, taken := u.taken ++ u.buffer.toList }

/-- A read with its value: that of the line control register, of the line status register with its bits for the two
data registers, and of the byte in the receive buffer. The other registers hold anything. -/
inductive Reads (base : U64) (u : Uart) : U64 → U8 → Uart → Prop
  | data {value : U8} (hdlab : u.settings.dlab = false) (h : ∀ c ∈ u.buffer, value = c) :
      Reads base u base value u.take
  | latch (hdlab : u.settings.dlab = true) : Reads base u base u.settings.divisorLow u
  | control : Reads base u (base + 3) u.settings.lcr u
  | status {value : U8} (hthre : value &&& uartLsrThre ≠ 0 ↔ u.holding = none)
      (hdr : value &&& uartLsrDr ≠ 0 ↔ u.buffer ≠ none) : Reads base u (base + 5) value u
  | other {port : U64} {value : U8} (h : port ∉ [base, base + 3, base + 5]) : Reads base u port value u

/-- An access, with what the port does by itself in front of it. -/
inductive Step (base : U64) : Uart → Access → Uart → Prop
  | inb {u v t : Uart} {port : U64} {value : U8} (hworks : Works u v) (h : Reads base v port value t) :
      Step base u (.inb port value) t
  | outb {u v : Uart} {value : U8} {port : U64} (hworks : Works u v) :
      Step base u (.outb value port) (v.write base value port)

end Uart

end XosKernel.Serial
