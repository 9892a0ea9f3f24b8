import ZStage.Fdt.Match
import ZStage.Libc.Search

/-!
`fdt_serial_init` of `firmware/serial/fdt_serial.c` over any list of drivers, with the
registration of a console device (`zstage_console_set_device`). A driver's `init` is
a function of the node that may register a device; the state keeps the calls made.

The two probe loops differ in the node that a driver is tried on, which is the
parameter `candidate`. The path lookup of libfdt is the parameter `pathOffset`.
-/

namespace ZStage.Serial

open ZStage.Lib.Trace ZStage.Fdt

variable {Dev : Type}

/-- The device pointer of console.c. -/
structure Console (Dev : Type) where
  consoleDev : Option Dev
  deriving DecidableEq, Repr

/-- `zstage_console_set_device`: the first device stays. -/
def zstageConsoleSetDevice (con : Console Dev) (dev : Option Dev) : Console Dev :=
  if dev.isNone ∨ con.consoleDev.isSome then con else { con with consoleDev := dev }

/-- `struct fdt_serial`. -/
structure FdtSerial (Dev : Type) where
  matchTable : MatchTable
  init : Option (Tree → Int → FdtMatch → Console Dev → Int × Console Dev)

/-- A call of the `init` of the driver at `pos`. -/
structure InitCall where
  pos : Nat
  node : Int
  rc : Int
  deriving DecidableEq, Repr

/-- `currentDriver` is a position in `serial_drivers`, `none` being `&dummy`. -/
structure SerialState (Dev : Type) where
  console : Console Dev
  currentDriver : Option Nat
  calls : List InitCall
  deriving DecidableEq, Repr

/-- A probe loop, from position `pos` on: the code that it returns early, if it does. -/
def probeLoop (fdt : Tree) (candidate : FdtSerial Dev → Option (Int × FdtMatch)) :
    List (FdtSerial Dev) → Nat → SerialState Dev → Option Int × SerialState Dev
  | [], _, st => (none, st)
  | drv :: rest, pos, st =>
    match candidate drv with
    | none => probeLoop fdt candidate rest (pos + 1) st
    | some (noff, m) =>
      match drv.init with
      | none => (none, { st with currentDriver := some pos })
      | some init =>
        let result := init fdt noff m st.console
        let st := { st with console := result.2, calls := st.calls ++ [⟨pos, noff, result.1⟩] }
        if result.1 = -ENODEV then probeLoop fdt candidate rest (pos + 1) st
        else if result.1 ≠ 0 then (some result.1, st)
        else (none, { st with currentDriver := some pos })

/-- The scan of a string loop from byte `i` to the first byte at which it stops. The byte
`fuel` further on is the zero of the next token. -/
def scan (p : Property) (stop : UInt8 → Bool) (i : Nat) : Nat → Decode Nat
  | 0 => do
    let _ ← emit ⟨p, i, 1⟩ (p.mem i)
    pure i
  | fuel + 1 => do
    let c ← emit ⟨p, i, 1⟩ (p.mem i)
    if stop c then pure i else scan p stop (i + 1) fuel

def strchr (p : Property) (c : UInt8) : Decode (Option Nat) := do
  let s ← scan p (fun b => b = 0 ∨ b = c) 0 p.tokenOffset
  pure (if p.mem s = 0 then none else some s)

def strlen (p : Property) : Decode Nat := scan p (fun b => b = 0) 0 p.tokenOffset

/-- `strchr` on a value is that of string.c on the bytes from its start on. -/
theorem strchr_libc (p : Property) (c : Int32) :
    (Libc.strchr p.mem c (p.tokenOffset + 1)).value = some (strchr p (Libc.toChar c)).value := by
  have hloop (fuel i : Nat) (hend : i + fuel = p.tokenOffset) :
      (Libc.strchrLoop p.mem (Libc.toChar c) (fuel + 1) i).value =
        some (scan p (fun b => b = 0 ∨ b = Libc.toChar c) i fuel).value := by
    induction fuel generalizing i with
    | zero =>
      obtain rfl : i = p.tokenOffset := hend
      simp [Libc.strchrLoop, Libc.load, scan, p.mem_tokenOffset]
    | succ fuel ih =>
      rw [Libc.strchrLoop, Libc.load, value_emit_bind, scan, value_emit_bind]
      by_cases hstop : p.mem i = 0 ∨ p.mem i = Libc.toChar c
      · rw [if_neg (not_and_or.2 (hstop.imp not_not.2 not_not.2)), if_pos (decide_eq_true hstop)]
        rfl
      · rw [if_pos (not_or.1 hstop), if_neg (by simpa using hstop)]
        exact ih (i + 1) (by omega)
  rw [Libc.strchr_value, hloop p.tokenOffset 0 (Nat.zero_add _), Option.map_some, strchr,
    value_bind, value_pure]

theorem strlen_libc (p : Property) :
    (Libc.strlen p.mem (p.tokenOffset + 1)).value = some (strlen p).value := by
  have hloop (fuel i : Nat) (hend : i + fuel = p.tokenOffset) :
      (Libc.strlenLoop p.mem (fuel + 1) i i).value =
        some (scan p (fun b => b = 0) i fuel).value := by
    induction fuel generalizing i with
    | zero =>
      obtain rfl : i = p.tokenOffset := hend
      simp [Libc.strlenLoop, Libc.load, scan, p.mem_tokenOffset]
    | succ fuel ih =>
      rw [Libc.strlenLoop, Libc.load, value_emit_bind, scan, value_emit_bind]
      by_cases hnul : p.mem i = 0
      · rw [if_neg (not_not.2 hnul), if_pos (decide_eq_true hnul)]
        rfl
      · rw [if_pos hnul, if_neg (by simpa using hnul)]
        exact ih (i + 1) (by omega)
  exact hloop p.tokenOffset 0 (Nat.zero_add _)

/-- The characters of a C string constant. -/
def cstr (s : String) : List UInt8 := s.toList.map fun c => c.toNat.toUInt8

/-- The first `n` bytes of a value. -/
def bytes (p : Property) (n : Nat) : List UInt8 := (List.range n).map p.mem

/-- The node that stdout-path points to, -1 when there is none. -/
def stdoutNode (pathOffset : List UInt8 → Int) (fdt : Tree) : Decode Int :=
  let coff := pathOffset (cstr "/chosen")
  if -1 < coff then
    match fdtGetprop fdt coff "stdout-path" with
    | .error _ => pure (-1)
    | .ok prop =>
      if prop.len ≠ 0 then do
        -- the device path may be followed by ':'
        let sep ← strchr prop 58
        match sep with
        | some n => pure (pathOffset (bytes prop n))
        | none => do
          let n ← strlen prop
          pure (pathOffset (bytes prop n))
      else pure (-1)
  else pure (-1)

/-- The first loop: the drivers on the node of stdout-path. -/
def stdoutProbe (fdt : Tree) (drivers : List (FdtSerial Dev)) (noff : Int) (st : SerialState Dev) :
    Option Int × SerialState Dev :=
  if -1 < noff then
    probeLoop fdt (fun drv => (fdtMatchNode fdt noff drv.matchTable).map fun m => (noff, m))
      drivers 0 st
  else (none, st)

/-- The second loop: each driver on the node that `fdt_find_match` returns. -/
def fallbackProbe (fdt : Tree) (drivers : List (FdtSerial Dev)) (st : SerialState Dev) :
    Option Int × SerialState Dev :=
  probeLoop fdt (fun drv =>
    let found := fdtFindMatch fdt (-1) none drv.matchTable
    if found.1 < 0 then none else found.2.map fun m => (found.1, m)) drivers 0 st

def fdtSerialInit (pathOffset : List UInt8 → Int) (fdt : Tree) (drivers : List (FdtSerial Dev))
    (st : SerialState Dev) : Decode (Int × SerialState Dev) := do
  let noff ← stdoutNode pathOffset fdt
  let first := stdoutProbe fdt drivers noff st
  match first.1 with
  | some rc => pure (rc, first.2)
  | none =>
    if first.2.currentDriver.isSome then pure (0, first.2)
    else
      let last := fallbackProbe fdt drivers first.2
      pure (last.1.getD 0, last.2)

def serialCadenceMatch : MatchTable := [⟨cstr "cdns,uart-r1p12"⟩, ⟨cstr "starfive,jh8100-uart"⟩]

def serialUart8250Match : MatchTable :=
  [⟨cstr "ns16550"⟩, ⟨cstr "ns16550a"⟩, ⟨cstr "snps,dw-apb-uart"⟩]

def serialHtifMatch : MatchTable := [⟨cstr "ucb,htif0"⟩]

end ZStage.Serial
