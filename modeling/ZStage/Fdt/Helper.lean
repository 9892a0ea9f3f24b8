import ZStage.Lib.Trace
import ZStage.Fdt.Tree

/-!
The value decoders of `firmware/fdt/fdt_helper.c`. Every read of a property value is
an event of the trace, so that a function's result and the bytes that it touches are
two views of one definition.

A pointer argument that may be null is an option: `none` is the null pointer and
`some v` points at `v`. The blob itself is there, so the tests for a null blob are
left out. The `int` product of `index` and the cells of an entry wraps.
-/

namespace ZStage.Fdt

open ZStage.Lib.Trace ZStage.Lib.BigEndian

/-! The error codes of `zstage/error.h` that the helpers return, negated. -/

def EINVAL : Int := 3
def ENODEV : Int := 9
def ENOENT : Int := 18

/-- A read of `size` bytes from byte `first` of a property value. -/
structure Access where
  value : Property
  first : Nat
  size : Nat

def Access.Inside (a : Access) : Prop := a.first + a.size ≤ a.value.len

instance : DecidablePred Access.Inside :=
  fun a => inferInstanceAs (Decidable (a.first + a.size ≤ a.value.len))

abbrev Decode := Traced Access

/-- `fdt32_to_cpu(list[i])`. -/
def readCell (list : Property) (i : Nat) : Decode UInt32 := emit ⟨list, 4 * i, 4⟩ (list.cell i)

/-- `for (i = 0; i < n; i++) temp = (temp << 32) | fdt32_to_cpu(*list++)`. -/
def readCells (list : Property) (first : Nat) : Nat → UInt64 → Decode UInt64
  | 0, temp => pure temp
  | n + 1, temp => do
    let c ← readCell list first
    readCells list (first + 1) n (temp <<< 32 ||| c.toUInt64)

/-- The loop reads the number that the cells spell, modulo the width of `temp`. -/
theorem readCells_toNat (list : Property) (first n : Nat) (temp : UInt64) :
    (readCells list first n temp).value.toNat =
      (temp.toNat * 2 ^ (32 * n) + list.number first n) % 2 ^ 64 := by
  induction n generalizing first temp with
  | zero =>
    have := temp.toNat_lt
    simp [readCells, Nat.mod_eq_of_lt this]
  | succ n ih =>
    have hnumber : list.number first (n + 1) =
        (list.cell first).toNat * 2 ^ (32 * n) + list.number (first + 1) n := by
      rw [Nat.add_comm n 1, list.number_add, list.number_one]
    have hmod (x k m : Nat) : (x % 2 ^ 64 * k + m) % 2 ^ 64 = (x * k + m) % 2 ^ 64 := by
      rw [Nat.add_mod, Nat.mul_mod, Nat.mod_mod, ← Nat.mul_mod, ← Nat.add_mod]
    rw [readCells, value_bind, ih, readCell, value_emit, shift_or_toNat, hnumber, hmod,
      Nat.mul_succ, Nat.pow_add]
    ring_nf

theorem readCells_value (list : Property) (first n : Nat) :
    (readCells list first n 0).value = UInt64.ofNat (list.number first n) := by
  rw [← UInt64.toNat_inj, readCells_toNat, UInt64.toNat_zero, Nat.zero_mul, Nat.zero_add,
    UInt64.toNat_ofNat']

/-- The loop stays inside the value when its last cell does. -/
theorem readCells_safe (list : Property) (first n : Nat) (temp : UInt64) :
    (readCells list first n temp).Safe Access.Inside ↔ n = 0 ∨ 4 * (first + n) ≤ list.len := by
  induction n generalizing first temp with
  | zero => simp [readCells]
  | succ n ih =>
    simp only [readCells, readCell, safe_bind, safe_emit, ih, Access.Inside]
    omega

def fdtTranslateAddress (fdt : Tree) (reg : UInt64) (parent : Int) (addr : UInt64) :
    Decode (Int × UInt64) :=
  let cellAddr := fdtAddressCells fdt parent
  if cellAddr < 1 then pure (-ENODEV, addr) else
  let cellSize := fdtSizeCells fdt parent
  if cellSize < 0 then pure (-ENODEV, addr) else
  match fdtGetprop fdt parent "ranges" with
  | .error _ => pure (0, reg)
  | .ok ranges =>
    if 0 < ranges.len then do
      let caddr ← readCells ranges 0 cellAddr.toNat 0
      let paddr ← readCells ranges cellAddr.toNat cellAddr.toNat 0
      let rsize ← readCells ranges (2 * cellAddr.toNat) cellSize.toNat 0
      if reg < caddr ∨ reg + rsize ≤ caddr then pure (-ENODEV, addr)
      else pure (0, paddr + (reg - caddr))
    else pure (0, reg)

/-- The `do` loop of `fdt_get_node_addr_size`. -/
def translateLoop (fdt : Tree) (temp : UInt64) (parent : Int) (addr : UInt64) : Decode UInt64 :=
  if _ : parent < 0 then pure addr
  else do
    let result ← fdtTranslateAddress fdt temp parent addr
    if result.1 ≠ 0 then pure result.2
    else translateLoop fdt result.2 (fdtParentOffset fdt parent) result.2
termination_by (parent + 1).toNat
decreasing_by
  have := fdtParentOffset_lt fdt parent (by omega)
  omega

/-- The code returned and what the two pointers point at. -/
structure AddrSize where
  rc : Int
  addr : Option UInt64
  size : Option UInt64
  deriving DecidableEq, Repr

/-- The cell at which entry `index` of `reg` starts, an `int`. -/
def entryStart (index cellAddr cellSize : Int) : Int :=
  Int.bmod (index * (cellAddr + cellSize)) (2 ^ 32)

/-- The product does not wrap on an entry that lies inside the value. -/
theorem entryStart_eq (index addrCells sizeCells : Nat) {len : Nat}
    (h : 4 * (index * (addrCells + sizeCells)) ≤ len) (hlen : len < 2 ^ 31) :
    entryStart index addrCells sizeCells = ((index * (addrCells + sizeCells) : Nat) : Int) := by
  have hcast : (index : Int) * (addrCells + sizeCells) =
      ((index * (addrCells + sizeCells) : Nat) : Int) := by
    push_cast
    ring
  rw [entryStart, hcast, Int.bmod_eq_of_le (by omega) (by omega)]

def fdtGetNodeAddrSize (fdt : Tree) (node index : Int) (addr size : Option UInt64) :
    Decode AddrSize :=
  if node < 0 ∨ index < 0 then pure ⟨-EINVAL, addr, size⟩ else
  let parent := fdtParentOffset fdt node
  if parent < 0 then pure ⟨parent, addr, size⟩ else
  let cellAddr := fdtAddressCells fdt parent
  if cellAddr < 1 then pure ⟨-ENODEV, addr, size⟩ else
  let cellSize := fdtSizeCells fdt parent
  if cellSize < 0 then pure ⟨-ENODEV, addr, size⟩ else
  match fdtGetprop fdt node "reg" with
  | .error _ => pure ⟨-ENODEV, addr, size⟩
  | .ok reg =>
    let start := entryStart index cellAddr cellSize
    -- the product is compared as an `unsigned long`
    if ((reg.len / 4 : Nat) : Int) ≤ start % 2 ^ 64 then pure ⟨-EINVAL, addr, size⟩
    else do
      let addr' ← match addr with
        | none => pure none
        | some a => do
          let temp ← readCells reg start.toNat cellAddr.toNat 0
          some <$> translateLoop fdt temp parent a
      let size' ← match size with
        | none => pure none
        | some _ => some <$> readCells reg (start.toNat + cellAddr.toNat) cellSize.toNat 0
      pure ⟨0, addr', size'⟩

def FDT_MAX_PHANDLE_ARGS : Nat := 16

structure FdtPhandleArgs where
  nodeOffset : Int
  argsCount : Int
  args : Fin FDT_MAX_PHANDLE_ARGS → UInt32

/-- `for (i = 0; i < pcells; i++) args[i] = fdt32_to_cpu(list[i])`, from argument `i` on. -/
def readArgs (list : Property) (pos pcells i : Nat) (args : Fin FDT_MAX_PHANDLE_ARGS → UInt32) :
    Decode (Fin FDT_MAX_PHANDLE_ARGS → UInt32) :=
  if i < pcells then do
    let c ← readCell list (pos + i)
    readArgs list pos pcells (i + 1) fun k => if k.val = i then c else args k
  else pure args
termination_by pcells - i

/-- The `while` loop of `fdt_parse_phandle_with_args`, `list` being at cell `pos`. -/
def phandleLoop (fdt : Tree) (list : Property) (cellsProp : String) (outArgs : FdtPhandleArgs)
    (pos : Nat) (index : Int) : Decode (Int × FdtPhandleArgs) :=
  if pos < list.len / 4 then do
    let phandle ← readCell list pos
    let pnodeoff := fdtNodeOffsetByPhandle fdt phandle
    if pnodeoff < 0 then pure (pnodeoff, outArgs) else
    match fdtGetprop fdt pnodeoff cellsProp with
    | .error _ => pure (-ENOENT, outArgs)
    | .ok val => do
      let pcells ← readCell val 0
      if FDT_MAX_PHANDLE_ARGS < pcells.toNat then pure (-EINVAL, outArgs) else
      if list.len / 4 < pos + 1 + pcells.toNat then pure (-ENOENT, outArgs) else
      if 0 < index then
        phandleLoop fdt list cellsProp outArgs (pos + 1 + pcells.toNat) (index - 1)
      else do
        let args ← readArgs list (pos + 1) pcells.toNat 0 outArgs.args
        pure (0, ⟨pnodeoff, pcells.toNat, args⟩)
  else pure (-ENOENT, outArgs)
termination_by list.len / 4 - pos

def fdtParsePhandleWithArgs (fdt : Tree) (nodeoff : Int) (prop cellsProp : String) (index : Int)
    (outArgs : FdtPhandleArgs) : Decode (Int × FdtPhandleArgs) :=
  if nodeoff < 0 then pure (-EINVAL, outArgs) else
  match fdtGetprop fdt nodeoff prop with
  | .error _ => pure (-ENOENT, outArgs)
  | .ok list => phandleLoop fdt list cellsProp outArgs 0 index

def DEFAULT_UART_FREQ : UInt64 := 0
def DEFAULT_UART_BAUD : UInt64 := 115200
def DEFAULT_UART_REG_SHIFT : UInt64 := 0
def DEFAULT_UART_REG_IO_WIDTH : UInt64 := 1

structure PlatformUartData where
  addr : UInt64
  freq : UInt64
  baud : UInt64
  regShift : UInt64
  regIoWidth : UInt64
  deriving DecidableEq, Repr

/-- An optional one-cell property of a UART node. -/
def uartCell (fdt : Tree) (nodeoffset : Int) (name : String) (default : UInt64) : Decode UInt64 :=
  match fdtGetprop fdt nodeoffset name with
  | .error _ => pure default
  | .ok val =>
    if 0 < val.len then do
      let c ← readCell val 0
      pure c.toUInt64
    else pure default

/-- `regAddr` and `regSize` are what the uninitialised locals hold on entry. -/
def fdtParseUartNode (fdt : Tree) (nodeoffset : Int) (regAddr regSize : UInt64)
    (uart : PlatformUartData) : Decode (Int × PlatformUartData) :=
  if nodeoffset < 0 then pure (-ENODEV, uart) else do
    let reg ← fdtGetNodeAddrSize fdt nodeoffset 0 (some regAddr) (some regSize)
    if reg.rc < 0 ∨ reg.addr = some 0 ∨ reg.size = some 0 then pure (-ENODEV, uart) else
      let freq ← uartCell fdt nodeoffset "clock-frequency" DEFAULT_UART_FREQ
      let baud ← uartCell fdt nodeoffset "current-speed" DEFAULT_UART_BAUD
      let regShift ← uartCell fdt nodeoffset "reg-shift" DEFAULT_UART_REG_SHIFT
      let regIoWidth ← uartCell fdt nodeoffset "reg-io-width" DEFAULT_UART_REG_IO_WIDTH
      pure (0, ⟨reg.addr.getD regAddr, freq, baud, regShift, regIoWidth⟩)

end ZStage.Fdt
