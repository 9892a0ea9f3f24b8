import Mathlib.Data.Nat.Bitwise

/-!
The HTIF console of `firmware/serial/htif.c`. The memory is one of mailbox words, and a
function is a sequence of accesses to it, so that the host may act between any two of
them: `Access` is the next access with what follows it, and a `...Pc` says before which
access a function stands.

`char` is unsigned, and its value is passed on as a `uint64_t`.
-/

namespace ZStage.Serial.Htif

variable {w : Nat} {σ τ : Type}

/-! ## Words of the protocol -/

def HTIF_DATA_BITS : UInt64 := 48
def HTIF_DATA_MASK : UInt64 := (1 <<< HTIF_DATA_BITS) - 1
def HTIF_DATA_SHIFT : UInt64 := 0
def HTIF_CMD_BITS : UInt64 := 8
def HTIF_CMD_MASK : UInt64 := (1 <<< HTIF_CMD_BITS) - 1
def HTIF_CMD_SHIFT : UInt64 := 48
def HTIF_DEV_BITS : UInt64 := 8
def HTIF_DEV_MASK : UInt64 := (1 <<< HTIF_DEV_BITS) - 1
def HTIF_DEV_SHIFT : UInt64 := 56

def HTIF_DEV_CONSOLE : UInt64 := 1
def HTIF_CONSOLE_CMD_GETC : UInt64 := 0
def HTIF_CONSOLE_CMD_PUTC : UInt64 := 1

/-- `TOHOST_CMD` on RV64. -/
def tohostCmd (dev cmd payload : UInt64) : UInt64 :=
  (dev <<< HTIF_DEV_SHIFT) ||| (cmd <<< HTIF_CMD_SHIFT) ||| payload

def fromhostDev (fh : UInt64) : UInt64 := (fh >>> HTIF_DEV_SHIFT) &&& HTIF_DEV_MASK

def fromhostCmd (fh : UInt64) : UInt64 := (fh >>> HTIF_CMD_SHIFT) &&& HTIF_CMD_MASK

def fromhostData (fh : UInt64) : UInt64 := (fh >>> HTIF_DATA_SHIFT) &&& HTIF_DATA_MASK

/-! ## Accesses -/

/-- The mailbox words by address. -/
abbrev Mailboxes (w : Nat) := BitVec w → UInt64

/-- One access to a word and what follows it. -/
inductive Access (w : Nat) (σ : Type)
  | load (addr : BitVec w) (next : UInt64 → σ)
  | store (addr : BitVec w) (val : UInt64) (next : σ)

/-- The word that is accessed. -/
def Access.addr : Access w σ → BitVec w
  | .load addr _ => addr
  | .store addr _ _ => addr

def Access.map (f : σ → τ) : Access w σ → Access w τ
  | .load addr next => .load addr fun v => f (next v)
  | .store addr val next => .store addr val (f next)

/-- What follows the access, and the words after it. -/
def Access.run (mem : Mailboxes w) : Access w σ → σ × Mailboxes w
  | .load addr next => (next (mem addr), mem)
  | .store addr val next => (next, Function.update mem addr val)

@[simp] theorem Access.run_map (mem : Mailboxes w) (f : σ → τ) (a : Access w σ) :
    (a.map f).run mem = (f (a.run mem).1, (a.run mem).2) := by
  cases a <;> rfl

@[simp] theorem Access.addr_map (f : σ → τ) (a : Access w σ) : (a.map f).addr = a.addr := by
  cases a <;> rfl

/-! ## The driver -/

/-- The addresses of the words `tohost` and `fromhost` of the image. -/
structure Symbols (w : Nat) where
  tohost : BitVec w
  fromhost : BitVec w

/-- The statics of htif.c. -/
structure Statics (w : Nat) where
  htifFromhost : BitVec w
  htifTohost : BitVec w
  htifCustom : Bool
  htifConsoleBuf : Nat

/-- The word that `__read_tohost` and `__write_tohost` use. -/
def tohostAddr (sym : Symbols w) (st : Statics w) : BitVec w :=
  if st.htifCustom then st.htifTohost else sym.tohost

/-- The word that `__read_fromhost` and `__write_fromhost` use. -/
def fromhostAddr (sym : Symbols w) (st : Statics w) : BitVec w :=
  if st.htifCustom then st.htifFromhost else sym.fromhost

def readTohost (sym : Symbols w) (st : Statics w) (next : UInt64 → σ) : Access w σ :=
  .load (tohostAddr sym st) next

def writeTohost (sym : Symbols w) (st : Statics w) (val : UInt64) (next : σ) : Access w σ :=
  .store (tohostAddr sym st) val next

def readFromhost (sym : Symbols w) (st : Statics w) (next : UInt64 → σ) : Access w σ :=
  .load (fromhostAddr sym st) next

def writeFromhost (sym : Symbols w) (st : Statics w) (val : UInt64) (next : σ) : Access w σ :=
  .store (fromhostAddr sym st) val next

/-- Before which access `__check_fromhost` stands. -/
inductive CheckPc
  | read
  | clear (fh : UInt64)
  deriving DecidableEq, Repr

/-- What a function does after an access: go on, return, or trap. -/
inductive Next (w : Nat) (Pc : Type)
  | goto (pc : Pc)
  | ret (st : Statics w)
  | trap

/-- `__check_fromhost`. -/
def checkFromhost (sym : Symbols w) (st : Statics w) : CheckPc → Access w (Next w CheckPc)
  | .read => readFromhost sym st fun fh => if fh = 0 then .ret st else .goto (.clear fh)
  | .clear fh => writeFromhost sym st 0 <|
      -- this should be from the console
      if fromhostDev fh ≠ HTIF_DEV_CONSOLE then .trap
      else if fromhostCmd fh = HTIF_CONSOLE_CMD_GETC then
        .ret { st with htifConsoleBuf := 1 + (fromhostData fh).toUInt8.toNat }
      else if fromhostCmd fh = HTIF_CONSOLE_CMD_PUTC then .ret st
      else .trap

/-- Before which access `__set_tohost` stands. -/
inductive SetPc
  | test
  | check (pc : CheckPc)
  | write
  deriving DecidableEq, Repr

/-- `__set_tohost(dev, cmd, data)`, `val` being the word `TOHOST_CMD(dev, cmd, data)`. The
statics are those after the step. -/
def setTohost (sym : Symbols w) (st : Statics w) (val : UInt64) :
    SetPc → Access w (Next w (Statics w × SetPc))
  | .test => readTohost sym st fun v => .goto (st, if v = 0 then .write else .check .read)
  | .check pc => (checkFromhost sym st pc).map fun next =>
      match next with
      | .goto pc => .goto (st, .check pc)
      | .ret st => .goto (st, .test)
      | .trap => .trap
  | .write => writeTohost sym st val (.ret st)

/-- `htif_putc` on RV64. -/
def htifPutc (sym : Symbols w) (st : Statics w) (ch : UInt8) :
    SetPc → Access w (Next w (Statics w × SetPc)) :=
  setTohost sym st (tohostCmd HTIF_DEV_CONSOLE HTIF_CONSOLE_CMD_PUTC ch.toUInt64)

end ZStage.Serial.Htif
