import ZStage.Fdt.Tree

/-!
A flattened device tree as the bytes that it is, and `firmware/libfdt/fdt.c` over
them: the header, the bounds of the structure block, and the walk from one token to
the next. The build makes no assumption about a blob (`FDT_ASSUME_MASK` is 0), so
every check of the source is made.

An offset is an `int` and is an `Int` here; arithmetic that the source does in
`unsigned int`, or converts to `int`, is reduced to 32 bits where the source does so.
A loop over tokens runs for at most `fuel` rounds; `none` stands for one that has not
ended then.
-/

namespace ZStage.Libfdt

open ZStage.Lib.BigEndian ZStage.Fdt

def FDT_ERR_BADPATH : Int := 5
def FDT_ERR_BADSTATE : Int := 7
def FDT_ERR_TRUNCATED : Int := 8
def FDT_ERR_BADMAGIC : Int := 9
def FDT_ERR_BADVERSION : Int := 10
def FDT_ERR_BADSTRUCTURE : Int := 11
def FDT_ERR_INTERNAL : Int := 13
def FDT_ERR_ALIGNMENT : Int := 19

def FDT_MAGIC : Nat := 0xd00dfeed

/-- `~FDT_MAGIC`. -/
def FDT_SW_MAGIC : Nat := 0x2ff20112

def FDT_FIRST_SUPPORTED_VERSION : Nat := 2
def FDT_LAST_SUPPORTED_VERSION : Nat := 0x11
def INT32_MAX : Nat := 0x7fffffff

def FDT_BEGIN_NODE : Nat := 1
def FDT_END_NODE : Nat := 2
def FDT_PROP : Nat := 3
def FDT_NOP : Nat := 4
def FDT_END : Nat := 9

def FDT_TAGSIZE : Nat := 4

/-- Conversion to `int`. -/
def toInt (x : Int) : Int := x.bmod (2 ^ 32)

/-- Conversion to `unsigned int`. -/
def toUnsigned (x : Int) : Nat := (x % 2 ^ 32).toNat

/-- `FDT_TAGALIGN`, in `size_t` and stored in an `int`. -/
def tagAlign (x : Int) : Int := toInt ((x + 3) / 4 * 4)

/-- A blob at `addr`, with the memory from there on. -/
structure Dtb where
  addr : UInt64
  mem : Nat → UInt8

namespace Dtb

variable (fdt : Dtb)

/-- `fdt32_to_cpu` of the word at byte `p` of the blob. -/
def fdt32 (p : Nat) : Nat := bigEndian fdt.mem p 4

/-- What a pointer to byte `p` of the blob points at. -/
def bytesAt (p : Nat) : Nat → UInt8 := fun i => fdt.mem (p + i)

/-! The header, `struct fdt_header`. -/

def magic : Nat := fdt.fdt32 0
def totalsize : Nat := fdt.fdt32 4
def offDtStruct : Nat := fdt.fdt32 8
def offDtStrings : Nat := fdt.fdt32 12
def version : Nat := fdt.fdt32 20
def lastCompVersion : Nat := fdt.fdt32 24
def sizeDtStrings : Nat := fdt.fdt32 32
def sizeDtStruct : Nat := fdt.fdt32 36

/-- `fdt_ro_probe_`. -/
def fdtRoProbe : Int :=
  let size : Int := if fdt.totalsize < INT32_MAX then fdt.totalsize else -FDT_ERR_TRUNCATED
  if fdt.addr &&& 7 ≠ 0 then -FDT_ERR_ALIGNMENT
  else if fdt.magic = FDT_MAGIC then
    if fdt.version < FDT_FIRST_SUPPORTED_VERSION then -FDT_ERR_BADVERSION
    else if FDT_LAST_SUPPORTED_VERSION < fdt.lastCompVersion then -FDT_ERR_BADVERSION
    else size
  else if fdt.magic = FDT_SW_MAGIC then
    -- an unfinished sequential-write blob
    if fdt.sizeDtStruct = 0 then -FDT_ERR_BADSTATE else size
  else -FDT_ERR_BADMAGIC

/-- `fdt_offset_ptr`: the byte of the blob that is pointed to; NULL is `none`. -/
def fdtOffsetPtr (offset : Int) (len : Nat) : Option Nat :=
  let uoffset := toUnsigned offset
  let absoffset := toUnsigned (offset + fdt.offDtStruct)
  if offset < 0 then none
  else if absoffset < uoffset ∨ toUnsigned (absoffset + len) < absoffset ∨
      fdt.totalsize < toUnsigned (absoffset + len) then none
  else if 0x11 ≤ fdt.version ∧
      (toUnsigned (uoffset + len) < uoffset ∨ fdt.sizeDtStruct < toUnsigned (offset + len)) then
    none
  else some (fdt.offDtStruct + offset.toNat)

/-- `do p = fdt_offset_ptr(fdt, offset++, 1); while (p && *p != '\0');`: the offset behind the
name, none without a zero in the block. A pointer past `totalsize` is NULL, so that `left`
rounds are enough when there are no more bytes in the blob. -/
def skipName : Nat → Int → Option Int
  | 0, _ => none
  | left + 1, offset =>
    match fdt.fdtOffsetPtr offset 1 with
    | none => none
    | some p => if fdt.mem p ≠ 0 then skipName left (offset + 1) else some (offset + 1)

/-- The `switch` of `fdt_next_tag`, `offset` being behind the tag: the offset behind the token,
none where the function returns. -/
def skipToken (tag : Nat) (offset : Int) : Option Int :=
  if tag = FDT_BEGIN_NODE then fdt.skipName fdt.totalsize offset
  else if tag = FDT_PROP then
    match fdt.fdtOffsetPtr offset 4 with
    | none => none
    | some lenp =>
      let len := fdt.fdt32 lenp
      -- name offset, length and value: a sum of `size_t` stored in an `int`
      let offset := toInt (offset + (12 - FDT_TAGSIZE) + len)
      some (if fdt.version < 0x10 ∧ 8 ≤ len ∧ toUnsigned (offset - len) % 8 ≠ 0 then offset + 4
        else offset)
  else if tag = FDT_END ∨ tag = FDT_END_NODE ∨ tag = FDT_NOP then some offset
  else none

/-- `fdt_next_tag`: the tag and `*nextoffset`. -/
def fdtNextTag (startoffset : Int) : Nat × Int :=
  match fdt.fdtOffsetPtr startoffset FDT_TAGSIZE with
  | none => (FDT_END, -FDT_ERR_TRUNCATED)
  | some tagp =>
    let tag := fdt.fdt32 tagp
    match fdt.skipToken tag (startoffset + FDT_TAGSIZE) with
    | none => (FDT_END, -FDT_ERR_BADSTRUCTURE)
    | some offset =>
      match fdt.fdtOffsetPtr startoffset (toUnsigned (offset - startoffset)) with
      | none => (FDT_END, -FDT_ERR_BADSTRUCTURE)
      | some _ => (tag, tagAlign offset)

/-- `fdt_check_node_offset_` and `fdt_check_prop_offset_`. -/
def checkOffset (tag : Nat) (offset : Int) : Int :=
  if offset < 0 ∨ offset % FDT_TAGSIZE ≠ 0 then -FDT_ERR_BADOFFSET
  else if (fdt.fdtNextTag offset).1 ≠ tag then -FDT_ERR_BADOFFSET
  else (fdt.fdtNextTag offset).2

def fdtCheckNodeOffset (offset : Int) : Int := fdt.checkOffset FDT_BEGIN_NODE offset

def fdtCheckPropOffset (offset : Int) : Int := fdt.checkOffset FDT_PROP offset

/-- The loop of `fdt_next_node`; `depth` is `*depth`, none for a null pointer. -/
def nextNodeLoop : Nat → Int → Option Int → Option (Int × Option Int)
  | 0, _, _ => none
  | fuel + 1, offset, depth =>
    let tag := (fdt.fdtNextTag offset).1
    let nextoffset := (fdt.fdtNextTag offset).2
    if tag = FDT_BEGIN_NODE then some (offset, depth.map (· + 1))
    else if tag = FDT_END_NODE then
      let depth := depth.map (· - 1)
      if ∃ d ∈ depth, d < 0 then some (nextoffset, depth) else nextNodeLoop fuel nextoffset depth
    else if tag = FDT_END then
      if 0 ≤ nextoffset ∨ nextoffset = -FDT_ERR_TRUNCATED ∧ depth = none then
        some (-FDT_ERR_NOTFOUND, depth)
      else some (nextoffset, depth)
    else nextNodeLoop fuel nextoffset depth

/-- `fdt_next_node`: the offset returned and `*depth`. -/
def fdtNextNode (fuel : Nat) (offset : Int) (depth : Option Int) : Option (Int × Option Int) :=
  if 0 ≤ offset then
    let nextoffset := fdt.fdtCheckNodeOffset offset
    if nextoffset < 0 then some (nextoffset, depth)
    else fdt.nextNodeLoop fuel nextoffset depth
  else fdt.nextNodeLoop fuel 0 depth

end Dtb

end ZStage.Libfdt
