import ZStage.Fdt.Helper
import ZStage.Serial.FdtSerial

/-!
The 8250 console of `firmware/serial/uart8250.c` and `fdt_serial_uart8250.c`. The driver
makes accesses to addresses, and a port says which register of the device an address
selects. Registers 0 and 1 are the divisor latch as long as DLAB, the top bit of LCR, is
set, and the divisor of the driver is computed in 32 bits and kept in 16.
-/

namespace ZStage.Serial.Uart8250

open ZStage.Lib.Trace ZStage.Fdt

variable {w : Nat} {Dev : Type}

/-! ## The driver -/

def UART_RBR_OFFSET : Fin 8 := 0
def UART_THR_OFFSET : Fin 8 := 0
def UART_DLL_OFFSET : Fin 8 := 0
def UART_IER_OFFSET : Fin 8 := 1
def UART_DLM_OFFSET : Fin 8 := 1
def UART_FCR_OFFSET : Fin 8 := 2
def UART_LCR_OFFSET : Fin 8 := 3
def UART_MCR_OFFSET : Fin 8 := 4
def UART_LSR_OFFSET : Fin 8 := 5
def UART_SCR_OFFSET : Fin 8 := 7

def UART_LSR_THRE : UInt32 := 0x20

/-- A value of `writeb`, `writew` or `writel`. -/
inductive Sized
  | b (val : UInt8)
  | w (val : UInt16)
  | l (val : UInt32)
  deriving DecidableEq, Repr

/-- A read has the number of bytes that it takes. -/
inductive Access (w : Nat)
  | read (addr : BitVec w) (bytes : Nat)
  | write (addr : BitVec w) (val : Sized)
  deriving DecidableEq, Repr

/-- The statics of uart8250.c. -/
structure Statics (w : Nat) where
  base : BitVec w
  inFreq : UInt32
  baudrate : UInt32
  regWidth : UInt32
  regShift : UInt32

/-- The address of a register; `sllw` takes the shift modulo 32. -/
def regAddr (base : BitVec w) (regShift : UInt32) (num : Fin 8) : BitVec w :=
  base + BitVec.ofNat w (UInt32.ofNat num <<< regShift).toNat

def getReg (st : Statics w) (num : Fin 8) : Access w :=
  .read (regAddr st.base st.regShift num)
    (if st.regWidth = 1 then 1 else if st.regWidth = 2 then 2 else 4)

def setReg (st : Statics w) (num : Fin 8) (val : UInt32) : Access w :=
  .write (regAddr st.base st.regShift num)
    (if st.regWidth = 1 then .b val.toUInt8
      else if st.regWidth = 2 then .w val.toUInt16 else .l val)

/-- `uart8250_putc` with what its reads of LSR give; `none` while it waits. -/
def uart8250Putc (st : Statics w) (ch : UInt8) : List UInt32 → Option (List (Access w))
  | [] => none
  | lsr :: replies =>
    if lsr &&& UART_LSR_THRE = 0 then
      (uart8250Putc st ch replies).map (getReg st UART_LSR_OFFSET :: ·)
    else some [getReg st UART_LSR_OFFSET, setReg st UART_THR_OFFSET ch.toUInt32]

/-- `bdiv`; `none` for a division by zero. -/
def bdiv (inFreq baudrate : UInt32) : Option UInt16 :=
  if 16 * baudrate = 0 then none else some (inFreq / (16 * baudrate)).toUInt16

/-- The accesses of `uart8250_init`. -/
def initAccesses (st : Statics w) (bdiv : UInt16) : List (Access w) :=
  [setReg st UART_IER_OFFSET 0x00, setReg st UART_LCR_OFFSET 0x80] ++
    (if bdiv ≠ 0 then
      [setReg st UART_DLL_OFFSET (bdiv &&& 0xff).toUInt32,
        setReg st UART_DLM_OFFSET ((bdiv >>> 8) &&& 0xff).toUInt32]
    else []) ++
    [setReg st UART_LCR_OFFSET 0x03, setReg st UART_FCR_OFFSET 0x01,
      setReg st UART_MCR_OFFSET 0x00, getReg st UART_LSR_OFFSET, getReg st UART_RBR_OFFSET,
      setReg st UART_SCR_OFFSET 0x00]

structure Initialised (w : Nat) (Dev : Type) where
  rc : Int
  statics : Statics w
  accesses : List (Access w)
  console : Console Dev

/-- `uart8250_init`, `dev` being `&uart8250_console`; `none` for a division by zero. -/
def uart8250Init (dev : Dev) (con : Console Dev) (base : BitVec w)
    (inFreq baudrate regShift regWidth : UInt32) : Option (Initialised w Dev) :=
  let st : Statics w := ⟨base, inFreq, baudrate, regWidth, regShift⟩
  (bdiv inFreq baudrate).map fun bdiv =>
    ⟨0, st, initAccesses st bdiv, zstageConsoleSetDevice con (some dev)⟩

/-- `serial_uart8250_init`: an error of the devicetree, or what `uart8250_init` does. The
members of `platform_uart_data` are passed as 32-bit numbers. -/
def serialUart8250Init (dev : Dev) (con : Console Dev) (fdt : Tree) (nodeoff : Int)
    (regAddr regSize : UInt64) (uart : PlatformUartData) :
    Decode (Int ⊕ Option (Initialised 64 Dev)) := do
  let (rc, uart) ← fdtParseUartNode fdt nodeoff regAddr regSize uart
  if rc ≠ 0 then pure (.inl rc)
  else
    pure (.inr (uart8250Init dev con uart.addr.toBitVec uart.freq.toUInt32 uart.baud.toUInt32
      uart.regShift.toUInt32 uart.regIoWidth.toUInt32))

/-! ## The device -/

/-- LCR, the divisor latch and the characters written to THR. -/
structure Uart where
  lcr : UInt8
  dll : UInt8
  dlm : UInt8
  sent : List UInt8
  deriving DecidableEq, Repr

def Uart.dlab (u : Uart) : Bool := u.lcr &&& 0x80 ≠ 0

def Uart.latch (u : Uart) : Nat := u.dlm.toNat * 2 ^ 8 + u.dll.toNat

def Uart.write (u : Uart) (num : Fin 8) (val : UInt8) : Uart :=
  if num = UART_LCR_OFFSET then { u with lcr := val }
  else if num = UART_DLL_OFFSET then
    if u.dlab then { u with dll := val } else { u with sent := u.sent ++ [val] }
  else if num = UART_DLM_OFFSET then
    if u.dlab then { u with dlm := val } else u
  else u

/-- The byte of a write that reaches an 8-bit register. -/
def Sized.lowByte : Sized → UInt8
  | .b val => val
  | .w val => val.toUInt8
  | .l val => val.toUInt8

/-- The register that an address selects: each of the eight at its place. -/
structure Port (base : BitVec w) (regShift : UInt32) where
  decode : BitVec w → Option (Fin 8)
  decode_reg : ∀ num, decode (regAddr base regShift num) = some num

variable {base : BitVec w} {regShift : UInt32}

/-- Reads change neither the latch nor what was sent. -/
def Port.access (port : Port base regShift) (u : Uart) : Access w → Uart
  | .read _ _ => u
  | .write addr val => ((port.decode addr).map fun num => u.write num val.lowByte).getD u

def Port.run (port : Port base regShift) (accesses : List (Access w)) (u : Uart) : Uart :=
  accesses.foldl port.access u

section Writes

variable {st : Statics w} (port : Port st.base st.regShift)

@[simp] theorem run_nil (u : Uart) : port.run [] u = u := rfl

/-- A register write reaches its register with the low byte of the value. -/
@[simp] theorem run_setReg (num : Fin 8) (val : UInt32) (rest : List (Access w)) (u : Uart) :
    port.run (setReg st num val :: rest) u = port.run rest (u.write num val.toUInt8) := by
  have hbyte : (if st.regWidth = 1 then Sized.b val.toUInt8
      else if st.regWidth = 2 then .w val.toUInt16 else .l val).lowByte = val.toUInt8 := by
    split
    · rfl
    · split
      · exact UInt32.toUInt8_toUInt16 val
      · rfl
  show port.run rest (port.access u (setReg st num val)) = _
  rw [setReg, Port.access, port.decode_reg, hbyte]
  rfl

@[simp] theorem run_getReg (num : Fin 8) (rest : List (Access w)) (u : Uart) :
    port.run (getReg st num :: rest) u = port.run rest u := rfl

theorem run_append (first rest : List (Access w)) (u : Uart) :
    port.run (first ++ rest) u = port.run rest (port.run first u) := List.foldl_append

/-- The two bytes that are written are those of the divisor. -/
theorem latch_bytes (bdiv : UInt16) :
    (((bdiv >>> 8) &&& 0xff).toUInt32.toUInt8).toNat * 2 ^ 8 +
      ((bdiv &&& 0xff).toUInt32.toUInt8).toNat = bdiv.toNat := by
  have hlt := bdiv.toNat_lt
  have hand (x : Nat) : x &&& 255 = x % 256 := Nat.and_two_pow_sub_one_eq_mod x 8
  simp [hand, Nat.shiftRight_eq_div_pow]
  omega

theorem write_lcr (u : Uart) (val : UInt8) : u.write UART_LCR_OFFSET val = { u with lcr := val } :=
  rfl

/-- A write to register 1 reaches the latch if DLAB is set, whichever register is meant. -/
theorem write_dlm (u : Uart) (val : UInt8) :
    u.write UART_DLM_OFFSET val = { u with dlm := if u.dlab then val else u.dlm } := by
  show (if u.dlab then { u with dlm := val } else u) = _
  split <;> rfl

theorem dlab_of_lcr {u : Uart} (hlcr : u.lcr = 0x80) : u.dlab = true := by
  simp [Uart.dlab, hlcr]

theorem write_divisor {u : Uart} (hlcr : u.lcr = 0x80) (low high : UInt8) :
    (u.write UART_DLL_OFFSET low).write UART_DLM_OFFSET high =
      { u with dll := low, dlm := high } := by
  have hlow : u.write UART_DLL_OFFSET low = { u with dll := low } := if_pos (dlab_of_lcr hlcr)
  have hopen : Uart.dlab { u with dll := low } = true := dlab_of_lcr hlcr
  rw [hlow, write_dlm, if_pos hopen]

/-- What `uart8250_init` leaves of the device. With DLAB set on entry the write to IER goes
to the latch. -/
theorem run_initAccesses (bdiv : UInt16) (u : Uart) :
    port.run (initAccesses st bdiv) u =
      { u with
        lcr := 0x03
        dll := if bdiv = 0 then u.dll else (bdiv &&& 0xff).toUInt32.toUInt8
        dlm := if bdiv = 0 then if u.dlab then 0 else u.dlm
          else ((bdiv >>> 8) &&& 0xff).toUInt32.toUInt8 } := by
  have hier : u.write UART_IER_OFFSET 0 = { u with dlm := if u.dlab then 0 else u.dlm } :=
    write_dlm u 0
  have hrest (u : Uart) : port.run [setReg st UART_LCR_OFFSET 0x03, setReg st UART_FCR_OFFSET 0x01,
      setReg st UART_MCR_OFFSET 0x00, getReg st UART_LSR_OFFSET, getReg st UART_RBR_OFFSET,
      setReg st UART_SCR_OFFSET 0x00] u = { u with lcr := 0x03 } := by
    simp only [run_setReg, run_getReg, run_nil]
    rfl
  rw [initAccesses, run_append, run_append, hrest, run_setReg, run_setReg, run_nil]
  show { port.run _ ((u.write UART_IER_OFFSET 0).write UART_LCR_OFFSET 0x80) with lcr := 0x03 } = _
  rw [hier, write_lcr]
  by_cases hzero : bdiv = 0
  · rw [if_neg (not_not.2 hzero), if_pos hzero, if_pos hzero]
    rfl
  · rw [if_pos hzero, if_neg hzero, if_neg hzero, run_setReg, run_setReg, run_nil,
      write_divisor rfl]

/-- `uart8250_putc` that returns has sent its character, unless DLAB is set. -/
theorem run_putc {u : Uart} (hdlab : u.dlab = false) {ch : UInt8} {replies : List UInt32}
    {accesses : List (Access w)} (h : uart8250Putc st ch replies = some accesses) :
    port.run accesses u = { u with sent := u.sent ++ [ch] } := by
  induction replies generalizing accesses with
  | nil => cases h
  | cons lsr replies ih =>
    rw [uart8250Putc] at h
    split at h
    · obtain ⟨rest, hrest, rfl⟩ := Option.map_eq_some_iff.1 h
      exact (run_getReg port _ rest u).trans (ih hrest)
    · cases h
      have hclear : ¬u.dlab = true := by simp [hdlab]
      rw [run_getReg, run_setReg, run_nil, UInt8.toUInt8_toUInt32]
      exact if_neg hclear

theorem run_putcs {u : Uart} (hdlab : u.dlab = false) {calls : List (UInt8 × List UInt32)}
    {accesses : List (List (Access w))}
    (h : List.Forall₂ (fun call acc => uart8250Putc st call.1 call.2 = some acc) calls accesses) :
    port.run accesses.flatten u = { u with sent := u.sent ++ calls.map Prod.fst } := by
  induction h generalizing u with
  | nil => simp
  | @cons call acc calls accesses hcall _ ih =>
    rw [List.flatten_cons, run_append, run_putc port hdlab hcall,
      ih (u := { u with sent := u.sent ++ [call.1] }) hdlab]
    simp

theorem initAccesses_latch (bdiv : UInt16) (u : Uart) :
    (port.run (initAccesses st bdiv) u).latch =
      if bdiv = 0 then if u.dlab then u.dll.toNat else u.latch else bdiv.toNat := by
  rw [run_initAccesses]
  by_cases hzero : bdiv = 0
  · rw [if_pos hzero, if_pos hzero, if_pos hzero]
    split <;> simp [Uart.latch]
  · rw [if_neg hzero, if_neg hzero, if_neg hzero]
    exact latch_bytes bdiv

theorem initAccesses_dlab (bdiv : UInt16) (u : Uart) :
    (port.run (initAccesses st bdiv) u).dlab = false := by
  rw [run_initAccesses]
  exact (by decide : decide ((0x03 : UInt8) &&& 0x80 ≠ 0) = false)

end Writes

/-! ## The divisor -/

/-- The divisor that the latch is to hold: `f / 16b` where this is a number of 16 bits other
than 0. -/
def exactDivisor (f b : Nat) : Option Nat :=
  if b ≠ 0 ∧ f / (16 * b) ≠ 0 ∧ f / (16 * b) ≤ 65535 then some (f / (16 * b)) else none

/-- The latch holds the exact divisor, or what it held if there is none, and is closed. -/
structure Exact (f b : Nat) (u u' : Uart) : Prop where
  latch : u'.latch = (exactDivisor f b).getD u.latch
  dlab : u'.dlab = false

theorem exactDivisor_ne_zero {f b q : Nat} (h : exactDivisor f b = some q) : q ≠ 0 := by
  rw [exactDivisor, Option.ite_none_right_eq_some] at h
  obtain ⟨⟨-, hq, -⟩, heq⟩ := h
  cases heq
  exact hq

/-- The divisor written is the exact one, or none is written and none is exact; then the write
to IER may not go to the latch either. -/
theorem exact_iff {st : Statics w} (port : Port st.base st.regShift) (bdiv : UInt16) (dlab : Bool)
    (f b : Nat) :
    (∀ u : Uart, u.dlab = dlab → Exact f b u (port.run (initAccesses st bdiv) u)) ↔
      exactDivisor f b = some bdiv.toNat ∨
        exactDivisor f b = none ∧ bdiv = 0 ∧ dlab = false := by
  constructor
  · intro h
    -- a device whose latch is 0 shows what is written
    have hempty : bdiv.toNat = (exactDivisor f b).getD 0 := by
      have hclear (lcr : UInt8) : Uart.latch ⟨lcr, 0, 0, []⟩ = 0 := by simp [Uart.latch]
      have hlatch := (h ⟨if dlab then 0x80 else 0, 0, 0, []⟩ (by cases dlab <;> decide)).latch
      rw [initAccesses_latch, hclear] at hlatch
      rw [← hlatch]
      split
      · next hzero =>
        rw [hzero]
        split <;> simp
      · rfl
    cases hexact : exactDivisor f b with
    | some q =>
      rw [hexact] at hempty
      exact .inl (congrArg some hempty.symm)
    | none =>
      rw [hexact] at hempty
      have hzero : bdiv = 0 := UInt16.toNat_inj.1 hempty
      refine .inr ⟨rfl, hzero, ?_⟩
      cases dlab with
      | false => rfl
      | true =>
        have hlatch := (h ⟨0x80, 0, 1, []⟩ (by decide)).latch
        rw [initAccesses_latch, if_pos hzero, hexact] at hlatch
        exact absurd hlatch (by decide)
  · rintro (hexact | ⟨hexact, rfl, rfl⟩) u hdlab
    · have hne : bdiv ≠ 0 := by
        rintro rfl
        exact exactDivisor_ne_zero hexact rfl
      refine ⟨?_, initAccesses_dlab port bdiv u⟩
      rw [initAccesses_latch, if_neg hne, hexact, Option.getD_some]
    · refine ⟨?_, initAccesses_dlab port 0 u⟩
      rw [initAccesses_latch, if_pos rfl, hdlab, hexact]
      rfl

theorem mul16_toNat (b : UInt32) : (16 * b).toNat = 16 * (b.toNat % 2 ^ 28) := by
  have hlt := b.toNat_lt
  rw [UInt32.toNat_mul]
  show 16 * b.toNat % 2 ^ 32 = _
  omega

/-- The division is by zero for every multiple of `2^28`. -/
theorem bdiv_eq (f b : UInt32) :
    bdiv f b = if b.toNat % 2 ^ 28 = 0 then none
      else some (UInt16.ofNat (f.toNat / (16 * (b.toNat % 2 ^ 28)))) := by
  have hmul := mul16_toNat b
  have hzero : 16 * b = 0 ↔ b.toNat % 2 ^ 28 = 0 := by
    rw [← UInt32.toNat_inj, hmul]
    show 16 * (b.toNat % 2 ^ 28) = 0 ↔ _
    omega
  simp only [bdiv, hzero]
  congr 2
  apply UInt16.toNat_inj.1
  rw [UInt32.toNat_toUInt16, UInt32.toNat_div, hmul, UInt16.toNat_ofNat']

/-- The frequencies and baud rates that the driver gets right: the product does not wrap to
zero, and the divisor is exact, or it is left out by having none of the low 16 bits. -/
def DivisorFits (f b : Nat) (dlab : Bool) : Prop :=
  b % 2 ^ 28 ≠ 0 ∧
    (dlab = false ∧ 2 ^ 16 ∣ f / (16 * (b % 2 ^ 28)) ∨
      b < 2 ^ 28 ∧ 1 ≤ f / (16 * b) ∧ f / (16 * b) ≤ 65535)

theorem divisorFits_iff {f b : Nat} (hf : f < 2 ^ 32) (hb : b % 2 ^ 28 ≠ 0) (dlab : Bool) :
    DivisorFits f b dlab ↔
      exactDivisor f b = some (UInt16.ofNat (f / (16 * (b % 2 ^ 28)))).toNat ∨
        exactDivisor f b = none ∧ UInt16.ofNat (f / (16 * (b % 2 ^ 28))) = 0 ∧ dlab = false := by
  have hzero : UInt16.ofNat (f / (16 * (b % 2 ^ 28))) = 0 ↔
      2 ^ 16 ∣ f / (16 * (b % 2 ^ 28)) := by
    rw [← UInt16.toNat_inj, UInt16.toNat_ofNat', Nat.dvd_iff_mod_eq_zero]
    rfl
  rw [DivisorFits, and_iff_right hb, hzero]
  by_cases hvalid : b ≠ 0 ∧ f / (16 * b) ≠ 0 ∧ f / (16 * b) ≤ 65535
  · obtain ⟨-, hpos, hle⟩ := hvalid
    have hlow : b < 2 ^ 28 := by
      by_contra hhigh
      exact hpos (Nat.div_eq_of_lt (by omega))
    have hexact : exactDivisor f b = some (f / (16 * b)) :=
      if_pos ⟨by rintro rfl; exact hb rfl, hpos, hle⟩
    rw [hexact, Nat.mod_eq_of_lt hlow, UInt16.toNat_ofNat', Nat.mod_eq_of_lt (by omega)]
    exact iff_of_true (.inr ⟨hlow, Nat.pos_of_ne_zero hpos, hle⟩) (.inl rfl)
  · have hnone : exactDivisor f b = none := if_neg hvalid
    rw [hnone]
    constructor
    · rintro (⟨hdlab, hdvd⟩ | ⟨-, hpos, hle⟩)
      · exact .inr ⟨rfl, hdvd, hdlab⟩
      · exact absurd ⟨by rintro rfl; exact hb rfl, Nat.ne_of_gt hpos, hle⟩ hvalid
    · rintro (hsome | ⟨-, hdvd, hdlab⟩)
      · cases hsome
      · exact .inl ⟨hdlab, hdvd⟩

/-! ## The driver on the device -/

variable (dev : Dev) (con : Console Dev) (port : Port base regShift)

/-- The call returns, and what it does to a device that has DLAB set or not is exact. -/
def InitExact (f b regWidth : UInt32) (dlab : Bool) : Prop :=
  ∃ out, uart8250Init dev con base f b regShift regWidth = some out ∧
    ∀ u : Uart, u.dlab = dlab → Exact f.toNat b.toNat u (port.run out.accesses u)

theorem initExact_iff (f b regWidth : UInt32) (dlab : Bool) :
    InitExact dev con port f b regWidth dlab ↔ DivisorFits f.toNat b.toNat dlab := by
  rw [InitExact, uart8250Init, bdiv_eq]
  by_cases hb : b.toNat % 2 ^ 28 = 0
  · rw [if_pos hb]
    refine iff_of_false ?_ fun hfits => hfits.1 hb
    rintro ⟨out, hout, -⟩
    cases hout
  · rw [if_neg hb, divisorFits_iff f.toNat_lt hb]
    let st : Statics w := ⟨base, f, b, regWidth, regShift⟩
    rw [← exact_iff (show Port st.base st.regShift from port)]
    constructor
    · rintro ⟨out, hout, hexact⟩
      cases hout
      exact hexact
    · exact fun hexact => ⟨_, rfl, hexact⟩

/-- The call divides by zero, or programs another divisor, exactly on the frequencies and baud
rates that do not fit. Whenever it returns DLAB is clear, and the characters of later calls of
`uart8250_putc` reach the transmit register. -/
theorem uart8250Init_exact_iff (f b regWidth : UInt32) (dlab : Bool) :
    (InitExact dev con port f b regWidth dlab ↔ DivisorFits f.toNat b.toNat dlab) ∧
      ∀ out, uart8250Init dev con base f b regShift regWidth = some out → ∀ u : Uart,
        (port.run out.accesses u).dlab = false ∧
          ∀ (calls : List (UInt8 × List UInt32)) (accesses : List (List (Access w))),
            List.Forall₂ (fun call acc => uart8250Putc out.statics call.1 call.2 = some acc)
              calls accesses →
            (port.run accesses.flatten (port.run out.accesses u)).sent =
              u.sent ++ calls.map Prod.fst := by
  refine ⟨initExact_iff dev con port f b regWidth dlab, ?_⟩
  intro out hout u
  obtain ⟨divisor, -, rfl⟩ := Option.map_eq_some_iff.1 hout
  let st : Statics w := ⟨base, f, b, regWidth, regShift⟩
  let stPort : Port st.base st.regShift := port
  have hdlab : (stPort.run (initAccesses st divisor) u).dlab = false :=
    initAccesses_dlab stPort divisor u
  refine ⟨hdlab, ?_⟩
  intro calls accesses hcalls
  show (stPort.run accesses.flatten (stPort.run (initAccesses st divisor) u)).sent = _
  rw [run_putcs stPort hdlab hcalls, run_initAccesses]

/-! ## A port -/

theorem regOffset_toNat {regShift : UInt32} (hshift : regShift.toNat ≤ 29) (num : Fin 8) :
    (UInt32.ofNat num <<< regShift).toNat = num.val * 2 ^ regShift.toNat := by
  have hnum : num.val < 2 ^ 32 := by omega
  have hpow : 2 ^ regShift.toNat ≤ 2 ^ 29 := Nat.pow_le_pow_right (by decide) hshift
  have hoffset : num.val * 2 ^ regShift.toNat ≤ 7 * 2 ^ 29 := Nat.mul_le_mul (by omega) hpow
  rw [UInt32.toNat_shiftLeft, UInt32.toNat_ofNat', Nat.mod_eq_of_lt hnum, Nat.shiftLeft_eq,
    Nat.mod_eq_of_lt (show regShift.toNat < 32 by omega), Nat.mod_eq_of_lt (by omega)]

theorem regAddr_injective (base : BitVec w) {regShift : UInt32} (hw : 32 ≤ w)
    (hshift : regShift.toNat ≤ 29) : Function.Injective (regAddr base regShift) := by
  intro num num' h
  have hpow : 2 ^ 32 ≤ 2 ^ w := Nat.pow_le_pow_right (by decide) hw
  have hoffset := congrArg BitVec.toNat ((BitVec.add_right_inj base).1 h)
  rw [BitVec.toNat_ofNat, BitVec.toNat_ofNat,
    Nat.mod_eq_of_lt ((UInt32.toNat_lt _).trans_le hpow),
    Nat.mod_eq_of_lt ((UInt32.toNat_lt _).trans_le hpow), regOffset_toNat hshift,
    regOffset_toNat hshift] at hoffset
  exact Fin.ext (Nat.eq_of_mul_eq_mul_right (Nat.two_pow_pos _) hoffset)

/-- The port that has register `num` at `base + (num << regShift)` and nothing else. -/
def Port.ofShift (base : BitVec w) {regShift : UInt32} (hw : 32 ≤ w)
    (hshift : regShift.toNat ≤ 29) : Port base regShift where
  decode addr := (List.finRange 8).find? fun num => regAddr base regShift num = addr
  decode_reg num := by
    cases hfind : (List.finRange 8).find? fun n => regAddr base regShift n =
        regAddr base regShift num with
    | none => exact absurd (List.find?_eq_none.1 hfind num (List.mem_finRange num)) (by simp)
    | some found =>
      have haddr := List.find?_some hfind
      rw [regAddr_injective base hw hshift (of_decide_eq_true haddr)]

def unitStride : Port (0x10000000 : BitVec 64) 0 :=
  .ofShift 0x10000000 (by decide) (by decide)

/-- A zero baud rate is divided by, and 65537 is programmed as 1. -/
theorem divisor_truncated :
    uart8250Init () ⟨none⟩ (0x10000000 : BitVec 64) 1843200 0 0 1 = none ∧
      ¬InitExact () ⟨none⟩ unitStride 1048592 1 1 false := by
  refine ⟨rfl, ?_⟩
  rintro ⟨out, hout, hexact⟩
  cases hout
  have hlatch := (hexact ⟨0, 0, 0, []⟩ (by decide)).latch
  exact absurd hlatch (by decide)

/-! ## The devicetree -/

theorem uartCell_lt (fdt : Tree) (node : Int) (name : String) {default : UInt64}
    (hdefault : default.toNat < 2 ^ 32) :
    (uartCell fdt node name default).value.toNat < 2 ^ 32 := by
  rw [uartCell]
  split
  · exact hdefault
  · split
    · rw [value_bind, value_pure, UInt32.toNat_toUInt64]
      exact UInt32.toNat_lt _
    · exact hdefault

theorem fdtParseUartNode_lt {fdt : Tree} {node : Int} {regAddr regSize : UInt64}
    {uart uart' : PlatformUartData}
    (h : (fdtParseUartNode fdt node regAddr regSize uart).value = (0, uart')) :
    uart'.freq.toNat < 2 ^ 32 ∧ uart'.baud.toNat < 2 ^ 32 := by
  have hdev : -ENODEV ≠ 0 := by decide
  rw [fdtParseUartNode] at h
  split at h
  · exact absurd (congrArg Prod.fst h) hdev
  · rw [value_bind] at h
    split at h
    · exact absurd (congrArg Prod.fst h) hdev
    · simp only [value_bind, value_pure, Prod.mk.injEq, true_and] at h
      subst h
      exact ⟨uartCell_lt fdt node _ (by decide), uartCell_lt fdt node _ (by decide)⟩

/-- A node that is parsed is passed on without loss. -/
theorem serialUart8250Init_exact_iff {fdt : Tree} {node : Int} {addr size : UInt64}
    {uart uart' : PlatformUartData}
    (h : (fdtParseUartNode fdt node addr size uart).value = (0, uart'))
    (port : Port uart'.addr.toBitVec uart'.regShift.toUInt32) (dlab : Bool) :
    (∃ out, (serialUart8250Init dev con fdt node addr size uart).value = .inr (some out) ∧
      ∀ u : Uart, u.dlab = dlab →
        Exact uart'.freq.toNat uart'.baud.toNat u (port.run out.accesses u)) ↔
      DivisorFits uart'.freq.toNat uart'.baud.toNat dlab := by
  obtain ⟨hfreq, hbaud⟩ := fdtParseUartNode_lt h
  have hcall : (serialUart8250Init dev con fdt node addr size uart).value =
      .inr (uart8250Init dev con uart'.addr.toBitVec uart'.freq.toUInt32 uart'.baud.toUInt32
        uart'.regShift.toUInt32 uart'.regIoWidth.toUInt32) := by
    rw [serialUart8250Init, value_bind, h]
    rfl
  have hiff := initExact_iff dev con port uart'.freq.toUInt32 uart'.baud.toUInt32
    uart'.regIoWidth.toUInt32 dlab
  rw [InitExact, UInt64.toNat_toUInt32, UInt64.toNat_toUInt32, Nat.mod_eq_of_lt hfreq,
    Nat.mod_eq_of_lt hbaud] at hiff
  rw [hcall, ← hiff]
  simp only [Sum.inr.injEq]

/-- A UART node with the default baud rate. -/
def uartNode : Tree :=
  Tree.ofNodes
    [⟨none, []⟩,
      ⟨some 0, [.ofBytes "reg" (cellBytes [0, 0x10000000, 0x100]) (by decide),
        .ofBytes "clock-frequency" (cellBytes [3686400]) (by decide)]⟩]
    (by decide) (by decide)

theorem serialUart8250Init_exact_iff_sample :
    ∃ out, (serialUart8250Init () ⟨none⟩ uartNode 1 7 7 ⟨7, 7, 7, 7, 7⟩).value = .inr (some out) ∧
      ∀ u : Uart, u.dlab = false → Exact 3686400 115200 u (unitStride.run out.accesses u) := by
  have hparsed : (fdtParseUartNode uartNode 1 7 7 ⟨7, 7, 7, 7, 7⟩).value =
      (0, ⟨0x10000000, 3686400, 115200, 0, 1⟩) := by
    decide +kernel
  have hfits : DivisorFits 3686400 115200 false :=
    ⟨by decide, .inr ⟨by decide, by decide, by decide⟩⟩
  exact (serialUart8250Init_exact_iff () ⟨none⟩ hparsed unitStride false).2 hfits

end ZStage.Serial.Uart8250
