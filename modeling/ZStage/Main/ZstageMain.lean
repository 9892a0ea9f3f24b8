import ZStage.Lib.CopySequence

/-!
`zstage_main` of `firmware/main.c` with the hooks of the generic platform and the
byte loop of `memcpy`, over the memory that it copies through. The fields of the
image header and of the blob table are 64 bits wide on both register sizes; a
pointer or a count made from one keeps the low `8 * b` bits.

What the calls do to zStage's own data and stack and to the console device is a
parameter (`Env`): console probing, printing and stack frames change bytes of
that memory and no other.
-/

namespace ZStage.Main

open ZStage.Lib.ByteMemory ZStage.Lib.CopySequence

variable {b : Nat}

/-- `memcpy` of string.c. -/
def memcpy {w : Nat} (dest src : BitVec w) : Nat → Memory w → Memory w
  | 0, m => m
  | count + 1, m => memcpy (dest + 1) (src + 1) count (fun x => if x = dest then m src else m x)

/-- The fields of `struct zstage_image_header` that the C code reads. -/
inductive HeaderField
  | magic
  | version
  | nextLoadAddr
  | nextRunAddr
  | nextFdtAddr
  | nextSize

def HeaderField.offset : HeaderField → Nat
  | .magic => 4
  | .version => 8
  | .nextLoadAddr => 72
  | .nextRunAddr => 80
  | .nextFdtAddr => 88
  | .nextSize => 96

def HeaderField.width : HeaderField → Nat
  | .magic | .version => 4
  | _ => 8

def headerSize : Nat := 256

def hdrField {w : Nat} (m : Memory w) (hdr : BitVec w) (f : HeaderField) : Nat :=
  loadLE m (hdr + BitVec.ofNat w f.offset) f.width

/-- `struct zstage_payload_blob`. -/
structure Blob where
  srcAddr : Nat
  dstAddr : Nat
  size : Nat
  deriving DecidableEq, Repr

def blobSize : Nat := 32

def readBlob {w : Nat} (m : Memory w) (blobs : BitVec w) : Blob where
  srcAddr := loadLE m (blobs + BitVec.ofNat w 0) 8
  dstAddr := loadLE m (blobs + BitVec.ofNat w 8) 8
  size := loadLE m (blobs + BitVec.ofNat w 16) 8

/-- A 64-bit field as a pointer. -/
def ptr (b v : Nat) : BitVec (8 * b) := BitVec.ofNat (8 * b) v

/-- A 64-bit field as a `size_t`. -/
def sizeT (b v : Nat) : Nat := v % 2 ^ (8 * b)

def imageMagic : Nat := 0x6774737a
def imageVersion : Nat := 0x10000
def fdtMagic : Nat := 0xd00dfeed

/-- `fdt32_ld`: the header of an FDT is big-endian. -/
def fdt32 {w : Nat} (m : Memory w) (a : BitVec w) : Nat :=
  let byte (i : Nat) : Nat := (m (a + BitVec.ofNat w i)).toNat
  ((byte 0 * 256 + byte 1) * 256 + byte 2) * 256 + byte 3

def fdtTotalsize {w : Nat} (m : Memory w) (fdt : BitVec w) : Nat :=
  fdt32 m (fdt + BitVec.ofNat w 4)

/-- An argument of `printf`. -/
inductive PrintArg
  | str (s : String)
  | num (v : Int)
  | deviceName

/-- The calls of `zstage_main`. -/
inductive Call (b : Nat)
  | consoleInit (bootArg1 : BitVec (8 * b))
  | printf (format : String) (args : List PrintArg)
  | platformEarlyInit (bootArg1 : BitVec (8 * b))
  | memcpy
  | platformPrepareFdt (bootArg1 hdr : BitVec (8 * b))
  | platformFinalInit (bootArg1 : BitVec (8 * b))

/-- Everything around the copies: where zStage's code, its data with its stack and the
console device lie, what a call changes there (`touch`), what `zstage_console_init`
returns and the lines that this build prints first. -/
structure Env (b : Nat) where
  code : BitVec (8 * b) → Prop
  data : BitVec (8 * b) → Prop
  device : BitVec (8 * b) → Prop
  touch : Call b → Memory (8 * b) → Memory (8 * b)
  consoleInit : BitVec (8 * b) → Memory (8 * b) → Int
  banner : List (Call b)
  touch_within : ∀ c m, Within (fun x => data x ∨ device x) m (touch c m)

def Env.own (env : Env b) (x : BitVec (8 * b)) : Prop := env.data x ∨ env.device x

/-- How a call of `zstage_main` ends. `running` stands for a blob table without an
end within the given number of entries. -/
inductive Outcome (b : Nat)
  | returned (m : Memory (8 * b))
  | hang
  | running

def Outcome.memory : Outcome b → Option (Memory (8 * b))
  | .returned m => some m
  | _ => none

section Code

variable (env : Env b)

def callMemcpy (dest src : BitVec (8 * b)) (count : Nat) (m : Memory (8 * b)) : Memory (8 * b) :=
  memcpy dest src count (env.touch .memcpy m)

def printf (format : String) (args : List PrintArg) (m : Memory (8 * b)) : Memory (8 * b) :=
  env.touch (.printf format args) m

/-- `platform_early_init` and `platform_final_init` of the generic platform. -/
def platformEarlyInit (bootArg1 : BitVec (8 * b)) (m : Memory (8 * b)) : Int × Memory (8 * b) :=
  (0, env.touch (.platformEarlyInit bootArg1) m)

def platformFinalInit (bootArg1 : BitVec (8 * b)) (m : Memory (8 * b)) : Int × Memory (8 * b) :=
  (0, env.touch (.platformFinalInit bootArg1) m)

/-- `platform_prepare_fdt` of the generic platform; `-ENOSYS` without the magic. -/
def platformPrepareFdt (bootArg1 hdr : BitVec (8 * b)) (m : Memory (8 * b)) :
    Int × Memory (8 * b) :=
  let m := env.touch (.platformPrepareFdt bootArg1 hdr) m
  if fdt32 m bootArg1 ≠ fdtMagic then (-10, m)
  else
    (0, callMemcpy env (ptr b (hdrField m hdr .nextFdtAddr)) bootArg1
      (sizeT b (fdtTotalsize m bootArg1)) m)

/-- The loop over the blob table, for at most `fuel` entries. -/
def copyBlobs (blobs : BitVec (8 * b)) : Nat → Memory (8 * b) → Option (Memory (8 * b))
  | 0, _ => none
  | fuel + 1, m =>
    let blob := readBlob m blobs
    if blob.size ≠ 0 then
      let m := printf env "zstage: copying %s (%lu bytes) to 0x%lx from 0x%lx\n"
        [.str "blob", .num blob.size, .num blob.dstAddr, .num blob.srcAddr] m
      let blob := readBlob m blobs
      let m := callMemcpy env (ptr b blob.dstAddr) (ptr b blob.srcAddr) (sizeT b blob.size) m
      copyBlobs (blobs + BitVec.ofNat (8 * b) blobSize) fuel m
    else some m

/-- The copy of the next booting stage to its run location. -/
def copyNextStage (hdr : BitVec (8 * b)) (m : Memory (8 * b)) : Memory (8 * b) :=
  if hdrField m hdr .nextLoadAddr ≠ hdrField m hdr .nextRunAddr then
    let m := printf env "zstage: copying %s (%lu bytes) to 0x%lx from 0x%lx\n"
      [.str "next stage", .num (hdrField m hdr .nextSize), .num (hdrField m hdr .nextRunAddr),
        .num (hdrField m hdr .nextLoadAddr)] m
    callMemcpy env (ptr b (hdrField m hdr .nextRunAddr)) (ptr b (hdrField m hdr .nextLoadAddr))
      (sizeT b (hdrField m hdr .nextSize)) m
  else m

/-- The end of `zstage_main`, from the preparation of the FDT on. -/
def finish (bootArg1 hdr : BitVec (8 * b)) (m : Memory (8 * b)) : Outcome b :=
  let m := printf env "zstage: setup platform FDT at 0x%lx\n"
    [.num (hdrField m hdr .nextFdtAddr)] m
  let (rc, m) := platformPrepareFdt env bootArg1 hdr m
  if rc ≠ 0 then .hang
  else
    let m := copyNextStage env hdr m
    let m := printf env "zstage: next booting stage at 0x%lx (%lu bytes)\n"
      [.num (hdrField m hdr .nextRunAddr), .num (hdrField m hdr .nextSize)] m
    let (rc, m) := platformFinalInit env bootArg1 m
    if rc ≠ 0 then .hang
    else .returned (printf env "zstage: jumping to next booting stage\n" [] m)

/-- `zstage_main`. The messages in front of `zstage_hang` change nothing that is
seen afterwards, since the hart stays there. -/
def zstageMain (fuel : Nat) (bootArg1 hdr blobs : BitVec (8 * b)) (m : Memory (8 * b)) :
    Outcome b :=
  if hdrField m hdr .magic ≠ imageMagic ∨ hdrField m hdr .version ≠ imageVersion then .hang
  else
    let rc := env.consoleInit bootArg1 m
    let m := env.touch (.consoleInit bootArg1) m
    if rc ≠ 0 then .hang
    else
      let m := env.banner.foldl (fun m line => env.touch line m) m
      let (rc, m) := platformEarlyInit env bootArg1 m
      if rc ≠ 0 then .hang
      else
        let m := printf env "zstage: console device %s\n" [.deviceName] m
        match copyBlobs env blobs fuel m with
        | none => .running
        | some m => finish env bootArg1 hdr m

end Code

end ZStage.Main
