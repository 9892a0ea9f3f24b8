import ZStage.Libfdt.Fdt
import ZStage.Libc.Comparison
import ZStage.Libc.Search
import ZStage.Serial.FdtSerial

/-!
`firmware/libfdt/fdt_ro.c` over the bytes of a blob: strings and names, the properties
of a node, phandles, parents, paths with aliases, and the searches by phandle and by
`compatible`. The string functions are those of zStage's `string.c`.

A function that stores an error in `*lenp` returns it with `.error`.
-/

namespace ZStage.Libfdt

open ZStage.Fdt ZStage.Serial

/-- The bytes of a C string, and zeros behind it. -/
def ofChars (s : List UInt8) : Nat → UInt8 := fun i => s.getD i 0

/-- What a `const struct fdt_property *` points at: its offset in the structure block, the byte
of the blob, and `*lenp`. -/
structure PropPtr where
  offset : Int
  prop : Nat
  len : Int

/-- The value of a property: the byte of the blob that is pointed to, and `*lenp`. -/
structure Value where
  data : Nat
  len : Int
  deriving DecidableEq, Repr

namespace Dtb

variable (fdt : Dtb)

/-! ## Strings and names -/

/-- The bytes of the strings block from `stroffset` on, `len` of them being left in the blob. -/
def stringRoom (stroffset : Int) (len : Nat) : Except Int Nat :=
  if fdt.magic = FDT_MAGIC then
    if stroffset < 0 then .error (-FDT_ERR_BADOFFSET)
    else if 17 ≤ fdt.version then
      if fdt.sizeDtStrings ≤ toUnsigned stroffset then .error (-FDT_ERR_BADOFFSET)
      else .ok (min len (toUnsigned (fdt.sizeDtStrings - stroffset)))
    else .ok len
  else if fdt.magic = FDT_SW_MAGIC then
    let swStroffset := toUnsigned (-stroffset)
    if 0 ≤ stroffset ∨ fdt.sizeDtStrings < swStroffset then .error (-FDT_ERR_BADOFFSET)
    else .ok (min len swStroffset)
  else .error (-FDT_ERR_INTERNAL)

/-- `fdt_get_string`: the byte of the blob and `*lenp`. -/
def fdtGetString (stroffset : Int) : Except Int (Nat × Nat) :=
  let totalsize := fdt.fdtRoProbe
  if totalsize < 0 then .error totalsize
  else
    let absoffset := toUnsigned (stroffset + fdt.offDtStrings)
    if totalsize.toNat ≤ absoffset then .error (-FDT_ERR_BADOFFSET)
    else
      match fdt.stringRoom stroffset (totalsize.toNat - absoffset) with
      | .error err => .error err
      | .ok len =>
        match (Libc.memchr (fdt.bytesAt absoffset) 0 len).value with
        | none => .error (-FDT_ERR_TRUNCATED)
        | some n => .ok (absoffset, n)

def fdtStringEq (stroffset : Int) (s : List UInt8) : Bool :=
  match fdt.fdtGetString stroffset with
  | .error _ => false
  | .ok (p, slen) =>
    slen = s.length ∧ (Libc.memcmp (fdt.bytesAt p) (ofChars s) s.length).value = 0

/-- `fdt_get_name`: the byte of the blob and `*len`. Before version 16 a name is a path, of
which the part behind the last `/` counts. -/
def fdtGetName (fuel : Nat) (nodeoffset : Int) : Option (Except Int (Nat × Nat)) :=
  let nameptr := fdt.offDtStruct + nodeoffset.toNat + 4
  if fdt.fdtRoProbe < 0 then some (.error fdt.fdtRoProbe)
  else if fdt.fdtCheckNodeOffset nodeoffset < 0 then
    some (.error (fdt.fdtCheckNodeOffset nodeoffset))
  else if fdt.version < 0x10 then do
    let leaf ← (Libc.strrchr (fdt.bytesAt nameptr) 47 fuel).value
    match leaf with
    | none => some (.error (-FDT_ERR_BADSTRUCTURE))
    | some leaf => do
      let len ← (Libc.strlen (fdt.bytesAt (nameptr + leaf + 1)) fuel).value
      some (.ok (nameptr + leaf + 1, len))
  else do
    let len ← (Libc.strlen (fdt.bytesAt nameptr) fuel).value
    some (.ok (nameptr, len))

/-- `fdt_nodename_eq_`: a name without a unit address also stands for one with it. -/
def fdtNodenameEq (fuel : Nat) (offset : Int) (s : List UInt8) : Option Bool := do
  let name ← fdt.fdtGetName fuel offset
  match name with
  | .error _ => some false
  | .ok (p, olen) =>
    if olen < s.length then some false
    else if (Libc.memcmp (fdt.bytesAt p) (ofChars s) s.length).value ≠ 0 then some false
    else if fdt.mem (p + s.length) = 0 then some true
    else some ((Libc.memchr (ofChars s) 64 s.length).value = none ∧ fdt.mem (p + s.length) = 64)

/-! ## Properties -/

def nextprop : Nat → Int → Option Int
  | 0, _ => none
  | fuel + 1, offset =>
    let tag := (fdt.fdtNextTag offset).1
    let nextoffset := (fdt.fdtNextTag offset).2
    if tag = FDT_END then some (if 0 ≤ nextoffset then -FDT_ERR_BADSTRUCTURE else nextoffset)
    else if tag = FDT_PROP then some offset
    else if tag = FDT_NOP then nextprop fuel nextoffset
    else some (-FDT_ERR_NOTFOUND)

def fdtFirstPropertyOffset (fuel : Nat) (nodeoffset : Int) : Option Int :=
  let offset := fdt.fdtCheckNodeOffset nodeoffset
  if offset < 0 then some offset else fdt.nextprop fuel offset

def fdtNextPropertyOffset (fuel : Nat) (offset : Int) : Option Int :=
  let offset := fdt.fdtCheckPropOffset offset
  if offset < 0 then some offset else fdt.nextprop fuel offset

def fdtGetPropertyByOffset (offset : Int) : Except Int PropPtr :=
  if fdt.fdtCheckPropOffset offset < 0 then .error (fdt.fdtCheckPropOffset offset)
  else
    let prop := fdt.offDtStruct + offset.toNat
    .ok ⟨offset, prop, toInt (fdt.fdt32 (prop + 4))⟩

/-- The loop of `fdt_get_property_namelen_`. -/
def propertyLoop (name : List UInt8) : Nat → Int → Option (Except Int PropPtr)
  | 0, _ => none
  | fuel + 1, offset =>
    if offset < 0 then some (.error offset)
    else
      match fdt.fdtGetPropertyByOffset offset with
      | .error _ => some (.error (-FDT_ERR_INTERNAL))
      | .ok prop =>
        if fdt.fdtStringEq (toInt (fdt.fdt32 (prop.prop + 8))) name then some (.ok prop)
        else do
          let next ← fdt.fdtNextPropertyOffset fuel offset
          propertyLoop name fuel next

def fdtGetPropertyNamelen (fuel : Nat) (nodeoffset : Int) (name : List UInt8) :
    Option (Except Int PropPtr) := do
  let offset ← fdt.fdtFirstPropertyOffset fuel nodeoffset
  fdt.propertyLoop name fuel offset

/-- `fdt_getprop_namelen`; before version 16 the value may be realigned. -/
def fdtGetprop (fuel : Nat) (nodeoffset : Int) (name : List UInt8) :
    Option (Except Int Value) := do
  let prop ← fdt.fdtGetPropertyNamelen fuel nodeoffset name
  match prop with
  | .error err => some (.error err)
  | .ok prop =>
    let data := prop.prop + 12
    if fdt.version < 0x10 ∧ (prop.offset + 12) % 8 ≠ 0 ∧ 8 ≤ fdt.fdt32 (prop.prop + 4) then
      some (.ok ⟨data + 4, prop.len⟩)
    else some (.ok ⟨data, prop.len⟩)

def oneCell : Except Int Value → Option Nat
  | .ok php => if php.len = 4 then some (fdt.fdt32 php.data) else none
  | .error _ => none

def fdtGetPhandle (fuel : Nat) (nodeoffset : Int) : Option Nat := do
  let php ← fdt.fdtGetprop fuel nodeoffset (cstr "phandle")
  match fdt.oneCell php with
  | some phandle => some phandle
  | none => do
    let php ← fdt.fdtGetprop fuel nodeoffset (cstr "linux,phandle")
    some ((fdt.oneCell php).getD 0)

/-! ## Parents -/

/-- The loop of `fdt_supernode_atdepth_offset`: the offset returned and `*nodedepth`, which only
a node that is found sets. -/
def supernodeLoop (nodeoffset supernodedepth : Int) :
    Nat → Int → Int → Int → Option (Int × Option Int)
  | 0, _, _, _ => none
  | fuel + 1, offset, depth, supernodeoffset =>
    if 0 ≤ offset ∧ offset ≤ nodeoffset then
      let supernodeoffset := if depth = supernodedepth then offset else supernodeoffset
      if offset = nodeoffset then
        some (if depth < supernodedepth then -FDT_ERR_NOTFOUND else supernodeoffset, some depth)
      else do
        let next ← fdt.fdtNextNode fuel offset (some depth)
        supernodeLoop nodeoffset supernodedepth fuel next.1 (next.2.getD depth) supernodeoffset
    else if offset = -FDT_ERR_NOTFOUND ∨ 0 ≤ offset then some (-FDT_ERR_BADOFFSET, none)
    else if offset = -FDT_ERR_BADOFFSET then some (-FDT_ERR_BADSTRUCTURE, none)
    else some (offset, none)

def fdtSupernodeAtdepthOffset (fuel : Nat) (nodeoffset supernodedepth : Int) :
    Option (Int × Option Int) :=
  if fdt.fdtRoProbe < 0 then some (fdt.fdtRoProbe, none)
  else if supernodedepth < 0 then some (-FDT_ERR_NOTFOUND, none)
  else fdt.supernodeLoop nodeoffset supernodedepth fuel 0 0 (-FDT_ERR_INTERNAL)

def fdtNodeDepth (fuel : Nat) (nodeoffset : Int) : Option Int := do
  let found ← fdt.fdtSupernodeAtdepthOffset fuel nodeoffset 0
  if found.1 ≠ 0 then some (if found.1 < 0 then found.1 else -FDT_ERR_INTERNAL)
  else found.2

def fdtParentOffset (fuel : Nat) (nodeoffset : Int) : Option Int := do
  let nodedepth ← fdt.fdtNodeDepth fuel nodeoffset
  if nodedepth < 0 then some nodedepth
  else do
    let found ← fdt.fdtSupernodeAtdepthOffset fuel nodeoffset (nodedepth - 1)
    some found.1

/-! ## Paths -/

/-- The loop of `fdt_subnode_offset_namelen`. -/
def subnodeLoop (name : List UInt8) : Nat → Int → Int → Option Int
  | 0, _, _ => none
  | fuel + 1, offset, depth =>
    if 0 ≤ offset ∧ 0 ≤ depth then do
      let found ← if depth = 1 then fdt.fdtNodenameEq fuel offset name else some false
      if found then some offset
      else do
        let next ← fdt.fdtNextNode fuel offset (some depth)
        subnodeLoop name fuel next.1 (next.2.getD depth)
    else some (if depth < 0 then -FDT_ERR_NOTFOUND else offset)

def fdtSubnodeOffset (fuel : Nat) (offset : Int) (name : List UInt8) : Option Int :=
  if fdt.fdtRoProbe < 0 then some fdt.fdtRoProbe else fdt.subnodeLoop name fuel offset 0

/-- `while (p < end)` of `fdt_path_offset_namelen`, `path` being what is between `p` and
`end`. -/
def pathLoop (fuel : Nat) (offset : Int) : List UInt8 → Option Int
  | [] => some offset
  | c :: rest =>
    if c = 47 then pathLoop fuel offset rest
    else do
      let offset ← fdt.fdtSubnodeOffset fuel offset (c :: rest.takeWhile (· ≠ 47))
      if offset < 0 then some offset else pathLoop fuel offset (rest.dropWhile (· ≠ 47))
termination_by path => path.length
decreasing_by
  · exact Nat.lt_succ_self _
  · exact Nat.lt_succ_of_le (List.dropWhile_suffix (l := rest) (· ≠ 47)).length_le

/-- `fdt_getprop_namelen` of `fdt_get_alias_namelen`, without a node when the path of the
aliases has none. -/
def aliasValue (fuel : Nat) (aliasoffset : Int) (name : List UInt8) : Option (Option Nat) :=
  if aliasoffset < 0 then some none
  else do
    let value ← fdt.fdtGetprop fuel aliasoffset name
    match value with
    | .error _ => some none
    | .ok value => some (some value.data)

/-- `fdt_path_offset_namelen`. A path that does not begin with `/` begins with an alias, whose
value is a path in turn; `calls` bounds these calls. -/
def fdtPathOffsetNamelen (fuel : Nat) : Nat → List UInt8 → Nat → Option Int
  | 0, _, _ => none
  | calls + 1, path, namelen =>
    if fdt.fdtRoProbe < 0 then some fdt.fdtRoProbe
    else if path.head? = some 47 then fdt.pathLoop fuel 0 (path.take namelen)
    else do
      let aliasoffset ← fdtPathOffsetNamelen fuel calls (cstr "/aliases") 8
      let p ← fdt.aliasValue fuel aliasoffset ((path.take namelen).takeWhile (· ≠ 47))
      match p with
      | none => some (-FDT_ERR_BADPATH)
      | some p => do
        let len ← (Libc.strlen (fdt.bytesAt p) fuel).value
        let offset ← fdtPathOffsetNamelen fuel calls ((List.range len).map (fdt.bytesAt p)) len
        fdt.pathLoop fuel offset ((path.take namelen).dropWhile (· ≠ 47))

def fdtPathOffset (fuel calls : Nat) (path : List UInt8) : Option Int :=
  fdt.fdtPathOffsetNamelen fuel calls path path.length

/-! ## Searches -/

/-- `for (offset = fdt_next_node(fdt, offset, NULL); offset >= 0; ...)`. The body returns an
offset or an error, or goes on. -/
def nodeSearch (body : Int → Option (Option Int)) : Nat → Int → Option Int
  | 0, _ => none
  | fuel + 1, offset => do
    let next ← fdt.fdtNextNode fuel offset none
    if next.1 < 0 then some next.1
    else do
      let result ← body next.1
      match result with
      | some result => some result
      | none => nodeSearch body fuel next.1

def fdtNodeOffsetByPhandle (fuel phandle : Nat) : Option Int :=
  if phandle = 0 ∨ phandle = 0xffffffff then some (-FDT_ERR_BADPHANDLE)
  else if fdt.fdtRoProbe < 0 then some fdt.fdtRoProbe
  else
    fdt.nodeSearch (fun offset => do
      let value ← fdt.fdtGetPhandle fuel offset
      some (if value = phandle then some offset else none)) fuel (-1)

/-- `fdt_stringlist_contains`, `strlist` being a byte of the blob. -/
def fdtStringlistContains (strlist : Nat) (listlen : Int) (str : List UInt8) : Nat → Bool
  | 0 => false
  | left + 1 =>
    if str.length ≤ listlen then
      if (Libc.memcmp (ofChars str) (fdt.bytesAt strlist) (str.length + 1)).value = 0 then true
      else
        match (Libc.memchr (fdt.bytesAt strlist) 0 listlen.toNat).value with
        | none => false
        | some p => fdtStringlistContains (strlist + p + 1) (listlen - (p + 1)) str left
    else false

def fdtNodeCheckCompatible (fuel : Nat) (nodeoffset : Int) (compatible : List UInt8) :
    Option Int := do
  let prop ← fdt.fdtGetprop fuel nodeoffset (cstr "compatible")
  match prop with
  | .error len => some len
  | .ok prop =>
    some (if fdt.fdtStringlistContains prop.data prop.len compatible (prop.len.toNat + 1) then 0
      else 1)

def fdtNodeOffsetByCompatible (fuel : Nat) (startoffset : Int) (compatible : List UInt8) :
    Option Int :=
  if fdt.fdtRoProbe < 0 then some fdt.fdtRoProbe
  else
    fdt.nodeSearch (fun offset => do
      let err ← fdt.fdtNodeCheckCompatible fuel offset compatible
      some (if err < 0 ∧ err ≠ -FDT_ERR_NOTFOUND then some err
        else if err = 0 then some offset
        else none)) fuel startoffset

end Dtb

end ZStage.Libfdt
