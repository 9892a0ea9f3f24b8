import Mathlib.Algebra.Order.Floor.Div
import ZStage.Serial.Uart8250

/-!
The Cadence console of `firmware/serial/cadence-uart.c` and `fdt_serial_cadence.c`. The
divisor is computed in 64 bits and rounded up, so the register holds the least value
with which the line is not faster than requested.
-/

namespace ZStage.Serial.Cadence

open ZStage.Lib.Trace ZStage.Fdt
open ZStage.Serial.Uart8250 (Access Sized)

variable {w : Nat} {Dev : Type}

/-! ## The driver -/

/-- The registers that the driver uses. -/
inductive Reg
  | ctrl
  | mode
  | idr
  | brgr
  | csr
  | rfifoTfifo
  | bdivr
  deriving DecidableEq, Repr

/-- The `UART_REG_` constants. -/
def Reg.offset : Reg → UInt32
  | .ctrl => 0x00
  | .mode => 0x04
  | .idr => 0x0C
  | .brgr => 0x18
  | .csr => 0x2C
  | .rfifoTfifo => 0x30
  | .bdivr => 0x34

def UART_CTRL_RXRES : UInt32 := 0x00000001
def UART_CTRL_TXRES : UInt32 := 0x00000002
def UART_CTRL_RXEN : UInt32 := 0x00000004
def UART_CTRL_RXDIS : UInt32 := 0x00000008
def UART_CTRL_TXEN : UInt32 := 0x00000010
def UART_CTRL_TXDIS : UInt32 := 0x00000020

def UART_MODE_PAR_NONE : UInt32 := 0x00000020

def UART_BRGR_CD_CLKDIVISOR : UInt32 := 0x00000001

def UART_CSR_TFUL : UInt32 := 0x00000010

/-- The statics of cadence-uart.c. -/
structure Statics (w : Nat) where
  base : BitVec w
  inFreq : UInt32
  baudrate : UInt32

def regAddr (base : BitVec w) (reg : Reg) : BitVec w := base + BitVec.ofNat w reg.offset.toNat

def getReg (st : Statics w) (reg : Reg) : Access w := .read (regAddr st.base reg) 4

def setReg (st : Statics w) (reg : Reg) (val : UInt32) : Access w :=
  .write (regAddr st.base reg) (.l val)

/-- `uart_min_clk_divisor`; `none` for a division by zero. -/
def uartMinClkDivisor (inFreq maxTargetHz : UInt64) : Option UInt32 :=
  if maxTargetHz = 0 then none
  else
    let quotient := (inFreq + maxTargetHz - 1) / maxTargetHz
    -- avoid underflow
    if quotient = 0 then some 0 else some (quotient - 1).toUInt32

/-- `cadence_uart_putc` with what its reads of CSR give; `none` while it waits. -/
def cadenceUartPutc (st : Statics w) (ch : UInt8) : List UInt32 → Option (List (Access w))
  | [] => none
  | csr :: replies =>
    if csr &&& UART_CSR_TFUL ≠ 0 then
      (cadenceUartPutc st ch replies).map (getReg st .csr :: ·)
    else some [getReg st .csr, setReg st .rfifoTfifo ch.toUInt32]

def baudAccesses (st : Statics w) : Option (List (Access w)) :=
  if st.inFreq ≠ 0 ∧ st.baudrate ≠ 0 then
    (uartMinClkDivisor st.inFreq.toUInt64 st.baudrate.toUInt64).map fun divisor =>
      [setReg st .brgr UART_BRGR_CD_CLKDIVISOR, setReg st .bdivr divisor]
  else some []

/-- The accesses of `cadence_uart_init`, with those for the baud rate. -/
def initAccesses (st : Statics w) (baud : List (Access w)) : List (Access w) :=
  [setReg st .idr 0xFFFFFFFF, setReg st .ctrl (UART_CTRL_TXDIS ||| UART_CTRL_RXDIS)] ++
    baud ++
    [setReg st .ctrl (UART_CTRL_TXRES ||| UART_CTRL_RXRES ||| UART_CTRL_TXEN ||| UART_CTRL_RXEN),
      setReg st .mode UART_MODE_PAR_NONE]

structure Initialised (w : Nat) (Dev : Type) where
  rc : Int
  statics : Statics w
  accesses : List (Access w)
  console : Console Dev

/-- `cadence_uart_init`, `dev` being `&cadence_console`; `none` for a division by zero. -/
def cadenceUartInit (dev : Dev) (con : Console Dev) (base : BitVec w)
    (inFreq baudrate : UInt32) : Option (Initialised w Dev) :=
  let st : Statics w := ⟨base, inFreq, baudrate⟩
  (baudAccesses st).map fun baud =>
    ⟨0, st, initAccesses st baud, zstageConsoleSetDevice con (some dev)⟩

/-- `serial_cadence_init`: an error of the devicetree, or what `cadence_uart_init` does. The
frequency and the baud rate are passed as 32-bit numbers. -/
def serialCadenceInit (dev : Dev) (con : Console Dev) (fdt : Tree) (nodeoff : Int)
    (regAddr regSize : UInt64) (uart : PlatformUartData) :
    Decode (Int ⊕ Option (Initialised 64 Dev)) := do
  let (rc, uart) ← fdtParseUartNode fdt nodeoff regAddr regSize uart
  if rc ≠ 0 then pure (.inl rc)
  else
    pure (.inr (cadenceUartInit dev con uart.addr.toBitVec uart.freq.toUInt32
      uart.baud.toUInt32))

/-! ## The device -/

/-- The register that an address selects: each of them at its place. -/
structure Port (base : BitVec w) where
  decode : BitVec w → Option Reg
  decode_reg : ∀ reg, decode (regAddr base reg) = some reg

def Port.value? {base : BitVec w} (port : Port base) (reg : Reg) : Access w → Option UInt32
  | .write addr (.l val) => if port.decode addr = some reg then some val else none
  | _ => none

def Port.written {base : BitVec w} (port : Port base) (reg : Reg) (accesses : List (Access w)) :
    List UInt32 :=
  accesses.filterMap (port.value? reg)

section Writes

variable {st : Statics w} (port : Port st.base)

@[simp] theorem written_nil (reg : Reg) : port.written reg [] = [] := rfl

@[simp] theorem written_getReg (reg reg' : Reg) (rest : List (Access w)) :
    port.written reg (getReg st reg' :: rest) = port.written reg rest := rfl

/-- A register write is one to its register. -/
@[simp] theorem written_setReg (reg reg' : Reg) (val : UInt32) (rest : List (Access w)) :
    port.written reg (setReg st reg' val :: rest) =
      if reg' = reg then val :: port.written reg rest else port.written reg rest := by
  have hvalue : port.value? reg (setReg st reg' val) = if reg' = reg then some val else none := by
    simp only [setReg, Port.value?, port.decode_reg, Option.some.injEq]
  by_cases hreg : reg' = reg
  · rw [if_pos hreg] at hvalue ⊢
    exact List.filterMap_cons_some hvalue
  · rw [if_neg hreg] at hvalue ⊢
    exact List.filterMap_cons_none hvalue

theorem written_append (reg : Reg) (first rest : List (Access w)) :
    port.written reg (first ++ rest) = port.written reg first ++ port.written reg rest :=
  List.filterMap_append

theorem written_initAccesses (baud : List (Access w)) {reg : Reg} (hidr : reg ≠ .idr)
    (hctrl : reg ≠ .ctrl) (hmode : reg ≠ .mode) :
    port.written reg (initAccesses st baud) = port.written reg baud := by
  simp [initAccesses, written_append, hidr.symm, hctrl.symm, hmode.symm]

theorem written_putc {ch : UInt8} {replies : List UInt32} {accesses : List (Access w)}
    (h : cadenceUartPutc st ch replies = some accesses) :
    port.written .rfifoTfifo accesses = [ch.toUInt32] := by
  induction replies generalizing accesses with
  | nil => cases h
  | cons csr replies ih =>
    rw [cadenceUartPutc] at h
    split at h
    · obtain ⟨rest, hrest, rfl⟩ := Option.map_eq_some_iff.1 h
      rw [written_getReg]
      exact ih hrest
    · cases h
      rw [written_getReg, written_setReg, written_nil, if_pos rfl]

end Writes

/-! ## The divisor -/

section Quotient

variable {f b : Nat}

theorem ceilDiv_ne_zero (hf : f ≠ 0) (hb : b ≠ 0) : f ⌈/⌉ b ≠ 0 := by
  intro hzero
  have := (ceilDiv_le_iff_le_mul (Nat.pos_of_ne_zero hb)).1 (Nat.le_of_eq hzero)
  omega

theorem ceilDiv_le_self (hb : b ≠ 0) : f ⌈/⌉ b ≤ f := by
  rw [ceilDiv_le_iff_le_mul (Nat.pos_of_ne_zero hb)]
  exact Nat.le_mul_of_pos_left f (Nat.pos_of_ne_zero hb)

/-- The rounded-up quotient, less one, is the least divisor that suffices. -/
theorem least_divisor (hf : f ≠ 0) (hb : b ≠ 0) :
    f ≤ b * ((f ⌈/⌉ b - 1) + 1) ∧ ∀ d, f ≤ b * (d + 1) → f ⌈/⌉ b - 1 ≤ d := by
  have hcovers (c : Nat) : f ⌈/⌉ b ≤ c ↔ f ≤ b * c :=
    ceilDiv_le_iff_le_mul (Nat.pos_of_ne_zero hb)
  refine ⟨?_, ?_⟩
  · rw [Nat.sub_add_cancel (Nat.one_le_iff_ne_zero.2 (ceilDiv_ne_zero hf hb))]
    exact (hcovers _).1 le_rfl
  · intro d hd
    have := (hcovers (d + 1)).2 hd
    omega

end Quotient

/-- Nothing wraps around in 64 bits. -/
theorem quotient_toNat (f : UInt32) {b : UInt32} (hb : b.toNat ≠ 0) :
    ((f.toUInt64 + b.toUInt64 - 1) / b.toUInt64).toNat = f.toNat ⌈/⌉ b.toNat := by
  have hadd : (f.toUInt64 + b.toUInt64).toNat = f.toNat + b.toNat := by
    have hf := f.toNat_lt
    have hb := b.toNat_lt
    rw [UInt64.toNat_add, UInt32.toNat_toUInt64, UInt32.toNat_toUInt64]
    omega
  have hone : 1 ≤ f.toUInt64 + b.toUInt64 := by
    rw [UInt64.le_iff_toNat_le, hadd]
    show 1 ≤ _
    omega
  rw [UInt64.toNat_div, UInt64.toNat_sub_of_le _ _ hone, hadd, UInt32.toNat_toUInt64,
    Nat.ceilDiv_eq_add_pred_div]
  rfl

/-- The divisor fits into 32 bits. -/
theorem uartMinClkDivisor_eq {f b : UInt32} (hf : f.toNat ≠ 0) (hb : b.toNat ≠ 0) :
    ∃ d, uartMinClkDivisor f.toUInt64 b.toUInt64 = some d ∧
      d.toNat = f.toNat ⌈/⌉ b.toNat - 1 := by
  have hquotient := quotient_toNat f hb
  have hne := ceilDiv_ne_zero hf hb
  have hnonzero (x : UInt64) (hx : x.toNat ≠ 0) : x ≠ 0 := by
    rintro rfl
    exact hx rfl
  refine ⟨((f.toUInt64 + b.toUInt64 - 1) / b.toUInt64 - 1).toUInt32, ?_, ?_⟩
  · rw [uartMinClkDivisor, if_neg (hnonzero _ (by rwa [UInt32.toNat_toUInt64]))]
    exact if_neg (hnonzero _ (by rwa [hquotient]))
  · have hone : 1 ≤ (f.toUInt64 + b.toUInt64 - 1) / b.toUInt64 := by
      rw [UInt64.le_iff_toNat_le, hquotient]
      exact Nat.one_le_iff_ne_zero.2 hne
    have hle := ceilDiv_le_self (f := f.toNat) hb
    have hlt := f.toNat_lt
    rw [UInt64.toNat_toUInt32, UInt64.toNat_sub_of_le _ _ hone, hquotient]
    exact Nat.mod_eq_of_lt (by omega)

/-! ## The driver on the device -/

variable (dev : Dev) (con : Console Dev)

/-- What is written to BRGR and BDIVR for the baud rate: the least divisor, or nothing. -/
structure BaudWritten {base : BitVec w} (port : Port base) (f b : UInt32)
    (accesses : List (Access w)) : Prop where
  left_alone : f = 0 ∨ b = 0 → port.written .brgr accesses = [] ∧ port.written .bdivr accesses = []
  programmed : f ≠ 0 → b ≠ 0 → ∃ d : UInt32,
    port.written .brgr accesses = [UART_BRGR_CD_CLKDIVISOR] ∧
      port.written .bdivr accesses = [d] ∧ f.toNat ≤ b.toNat * (d.toNat + 1) ∧
      ∀ d' : Nat, f.toNat ≤ b.toNat * (d' + 1) → d.toNat ≤ d'

theorem baudAccesses_written {st : Statics w} (port : Port st.base) :
    ∃ baud, baudAccesses st = some baud ∧
      BaudWritten port st.inFreq st.baudrate (initAccesses st baud) := by
  have hbrgr (baud : List (Access w)) :
      port.written .brgr (initAccesses st baud) = port.written .brgr baud :=
    written_initAccesses port baud (by decide) (by decide) (by decide)
  have hbdivr (baud : List (Access w)) :
      port.written .bdivr (initAccesses st baud) = port.written .bdivr baud :=
    written_initAccesses port baud (by decide) (by decide) (by decide)
  by_cases hgiven : st.inFreq ≠ 0 ∧ st.baudrate ≠ 0
  · have hf : st.inFreq.toNat ≠ 0 := fun h => hgiven.1 (UInt32.toNat_inj.1 h)
    have hb : st.baudrate.toNat ≠ 0 := fun h => hgiven.2 (UInt32.toNat_inj.1 h)
    obtain ⟨d, hd, hvalue⟩ := uartMinClkDivisor_eq hf hb
    obtain ⟨hcovers, hleast⟩ := least_divisor hf hb
    rw [← hvalue] at hcovers hleast
    refine ⟨[setReg st .brgr UART_BRGR_CD_CLKDIVISOR, setReg st .bdivr d], ?_, ?_, ?_⟩
    · rw [baudAccesses, if_pos hgiven, hd, Option.map_some]
    · rintro (hzero | hzero)
      · exact absurd hzero hgiven.1
      · exact absurd hzero hgiven.2
    · intro _ _
      refine ⟨d, ?_, ?_, hcovers, hleast⟩
      · rw [hbrgr]
        simp
      · rw [hbdivr]
        simp
  · refine ⟨[], if_neg hgiven, ?_, fun hf hb => absurd ⟨hf, hb⟩ hgiven⟩
    intro _
    rw [hbrgr, hbdivr]
    exact ⟨rfl, rfl⟩

/-- The driver programs the least divisor with which the line is not faster than requested, or
none if the frequency or the baud rate is missing, and a node that is parsed hands both on
without loss. -/
theorem cadenceUartInit_least (base : BitVec w) (port : Port base) :
    (∀ f b : UInt32, ∃ out, cadenceUartInit dev con base f b = some out ∧
      BaudWritten port f b out.accesses) ∧
    ∀ (fdt : Tree) (node : Int) (addr size : UInt64) (uart uart' : PlatformUartData),
      (fdtParseUartNode fdt node addr size uart).value = (0, uart') →
      (serialCadenceInit dev con fdt node addr size uart).value =
          .inr (cadenceUartInit dev con uart'.addr.toBitVec uart'.freq.toUInt32
            uart'.baud.toUInt32) ∧
        uart'.freq.toUInt32.toNat = uart'.freq.toNat ∧
        uart'.baud.toUInt32.toNat = uart'.baud.toNat := by
  refine ⟨?_, ?_⟩
  · intro f b
    let st : Statics w := ⟨base, f, b⟩
    let stPort : Port st.base := port
    obtain ⟨baud, hbaud, hwritten⟩ := baudAccesses_written stPort
    exact ⟨⟨0, st, initAccesses st baud, zstageConsoleSetDevice con (some dev)⟩,
      congrArg (Option.map _) hbaud, hwritten⟩
  · intro fdt node addr size uart uart' h
    obtain ⟨hfreq, hrate⟩ := Uart8250.fdtParseUartNode_lt h
    refine ⟨?_, ?_, ?_⟩
    · rw [serialCadenceInit, value_bind, h]
      rfl
    · rw [UInt64.toNat_toUInt32, Nat.mod_eq_of_lt hfreq]
    · rw [UInt64.toNat_toUInt32, Nat.mod_eq_of_lt hrate]

/-! ## A port -/

def Reg.all : List Reg := [.ctrl, .mode, .idr, .brgr, .csr, .rfifoTfifo, .bdivr]

/-- The port that has the registers at their offsets and nothing else. -/
def Port.ofOffsets (base : BitVec w) (hw : 6 ≤ w) : Port base where
  decode addr := Reg.all.find? fun reg => reg.offset.toNat = (addr - base).toNat
  decode_reg reg := by
    have hpow : 2 ^ 6 ≤ 2 ^ w := Nat.pow_le_pow_right (by decide) hw
    have hoffset : reg.offset.toNat < 2 ^ 6 := by
      cases reg <;> decide
    have haddr : (regAddr base reg - base).toNat = reg.offset.toNat := by
      rw [regAddr, BitVec.add_comm, BitVec.add_sub_cancel, BitVec.toNat_ofNat,
        Nat.mod_eq_of_lt (by omega)]
    simp only [haddr]
    cases reg <;> decide

/-- The register comes to 15 for 115200 baud from 1843200 Hz, which is 16 times as much. -/
example : ((cadenceUartInit () ⟨none⟩ (0x10000000 : BitVec 64) 1843200 115200).map fun out =>
    (Port.ofOffsets 0x10000000 (by decide)).written .bdivr out.accesses) = some [15] := by
  decide

end ZStage.Serial.Cadence
