import ZStage.Lib.BigEndian

/-!
A flattened device tree as `firmware/libfdt` presents it, and the libfdt lookups
that zStage makes. The lookups by name, parent and position in `Tree` are assumed
correct; `fdt_cells` and what is built on the lookups follow `fdt_addresses.c` and
`fdt_ro.c`.

A property value is a pointer and a length: the bytes behind the length are those of
the rest of the structure block. The padded value is followed by the next token,
whose first byte is zero in every token that libfdt accepts there.

A node offset is an `int`; here it is the position of the node in the order of the
structure block, so that a parent comes before its children and the root is node 0.
-/

namespace ZStage.Fdt

open ZStage.Lib.BigEndian

/-- A property and the memory from the start of its value on. -/
structure Property where
  name : String
  len : Nat
  mem : Nat → UInt8
  len_lt : len < 2 ^ 31
  next_token : mem ((len + 3) / 4 * 4) = 0

/-- The byte at which the next token begins. -/
def Property.tokenOffset (p : Property) : Nat := (p.len + 3) / 4 * 4

theorem Property.mem_tokenOffset (p : Property) : p.mem p.tokenOffset = 0 := p.next_token

/-- A property with the given bytes, followed by zeros. -/
def Property.ofBytes (name : String) (bytes : List UInt8) (h : bytes.length < 2 ^ 31) :
    Property where
  name := name
  len := bytes.length
  mem i := bytes.getD i 0
  len_lt := h
  next_token := by
    rw [List.getD_eq_getElem?_getD, List.getElem?_eq_none (by omega)]
    rfl

/-- The bytes of big-endian cells. -/
def cellBytes (cells : List UInt32) : List UInt8 :=
  cells.flatMap fun (c : UInt32) =>
    [(c >>> 24).toUInt8, (c >>> 16).toUInt8, (c >>> 8).toUInt8, c.toUInt8]

/-- `fdt32_to_cpu` of the cell at `list[i]`. -/
def Property.cell (p : Property) (i : Nat) : UInt32 := word32 p.mem (4 * i)

/-- The number that `n` cells from cell `first` spell. -/
def Property.number (p : Property) (first n : Nat) : Nat := bigEndian p.mem (4 * first) (4 * n)

@[simp] theorem Property.number_zero (p : Property) (first : Nat) : p.number first 0 = 0 := rfl

/-- A cell is four bytes. -/
theorem pow_cells (n : Nat) : 256 ^ (4 * n) = 2 ^ (32 * n) := by
  rw [show 256 = 2 ^ 8 by decide, ← Nat.pow_mul]
  congr 1
  omega

theorem Property.number_add (p : Property) (first m n : Nat) :
    p.number first (m + n) = p.number first m * 2 ^ (32 * n) + p.number (first + m) n := by
  rw [Property.number, Property.number, Property.number, Nat.mul_add, bigEndian_add, pow_cells,
    Nat.mul_add]

theorem Property.number_one (p : Property) (first : Nat) :
    p.number first 1 = (p.cell first).toNat := by
  rw [Property.number, Property.cell, word32_toNat]

theorem Property.number_lt (p : Property) (first n : Nat) : p.number first n < 2 ^ (32 * n) := by
  exact pow_cells n ▸ bigEndian_lt p.mem (4 * first) (4 * n)

structure Node where
  parent : Option Nat
  props : List Property

/-- A tree, its nodes in the order of the structure block. -/
structure Tree where
  nodes : List Node
  parent_lt : ∀ i (node : Node), nodes[i]? = some node → ∀ p, node.parent = some p → p < i
  root_only : ∀ i (node : Node), nodes[i]? = some node → node.parent = none → i = 0

/-- A tree from its nodes, each after its parent. -/
def Tree.ofNodes (nodes : List Node)
    (h : ∀ i : Fin nodes.length, ∀ p ∈ nodes[i].parent, p < i.val)
    (hroot : ∀ i : Fin nodes.length, nodes[i].parent = none → i.val = 0) : Tree where
  nodes := nodes
  parent_lt i node hnode p hp := by
    obtain ⟨hi, rfl⟩ := List.getElem?_eq_some_iff.1 hnode
    exact h ⟨i, hi⟩ p hp
  root_only i node hnode hnone := by
    obtain ⟨hi, rfl⟩ := List.getElem?_eq_some_iff.1 hnode
    exact hroot ⟨i, hi⟩ hnone

/-! The libfdt error codes that the lookups return, negated. -/

def FDT_ERR_NOTFOUND : Int := 1
def FDT_ERR_BADOFFSET : Int := 4
def FDT_ERR_BADPHANDLE : Int := 6
def FDT_ERR_BADNCELLS : Int := 14

def FDT_MAX_NCELLS : Nat := 4

/-- The node at an offset. -/
def Tree.node? (fdt : Tree) (nodeoffset : Int) : Option Node :=
  if nodeoffset < 0 then none else fdt.nodes[nodeoffset.toNat]?

/-- `fdt_getprop`: the property, or the code that it stores in `*lenp`. -/
def fdtGetprop (fdt : Tree) (nodeoffset : Int) (name : String) : Except Int Property :=
  match fdt.node? nodeoffset with
  | none => .error (-FDT_ERR_BADOFFSET)
  | some node =>
    match node.props.find? fun p => p.name = name with
    | none => .error (-FDT_ERR_NOTFOUND)
    | some p => .ok p

def fdtParentOffset (fdt : Tree) (nodeoffset : Int) : Int :=
  match fdt.node? nodeoffset with
  | none => -FDT_ERR_BADOFFSET
  | some node =>
    match node.parent with
    | none => -FDT_ERR_NOTFOUND
    | some p => p

/-- The walk to the root ends: a parent comes before its children. -/
theorem fdtParentOffset_lt (fdt : Tree) (nodeoffset : Int) (h : 0 ≤ nodeoffset) :
    fdtParentOffset fdt nodeoffset < nodeoffset := by
  simp only [fdtParentOffset]
  split
  · simp only [FDT_ERR_BADOFFSET]
    omega
  · next node hnode =>
    simp only [Tree.node?, show ¬nodeoffset < 0 by omega, if_false] at hnode
    split
    · simp only [FDT_ERR_NOTFOUND]
      omega
    · next p hp =>
      have := fdt.parent_lt _ _ hnode _ hp
      omega

/-- `fdt_cells`. -/
def fdtCells (fdt : Tree) (nodeoffset : Int) (name : String) : Int :=
  match fdtGetprop fdt nodeoffset name with
  | .error len => len
  | .ok c =>
    if c.len ≠ 4 then -FDT_ERR_BADNCELLS
    else if FDT_MAX_NCELLS < (c.cell 0).toNat then -FDT_ERR_BADNCELLS
    else (c.cell 0).toNat

def fdtAddressCells (fdt : Tree) (nodeoffset : Int) : Int :=
  let val := fdtCells fdt nodeoffset "#address-cells"
  if val = 0 then -FDT_ERR_BADNCELLS
  else if val = -FDT_ERR_NOTFOUND then 2
  else val

def fdtSizeCells (fdt : Tree) (nodeoffset : Int) : Int :=
  let val := fdtCells fdt nodeoffset "#size-cells"
  if val = -FDT_ERR_NOTFOUND then 1 else val

/-- `fdt_get_phandle`: a `phandle` or `linux,phandle` of exactly one cell, else 0. -/
def fdtGetPhandle (fdt : Tree) (nodeoffset : Int) : UInt32 :=
  let cell (name : String) : Option UInt32 :=
    match fdtGetprop fdt nodeoffset name with
    | .ok php => if php.len = 4 then some (php.cell 0) else none
    | .error _ => none
  ((cell "phandle").or (cell "linux,phandle")).getD 0

/-- `fdt_node_offset_by_phandle`: the first node with the phandle. -/
def fdtNodeOffsetByPhandle (fdt : Tree) (phandle : UInt32) : Int :=
  if phandle = 0 ∨ phandle = 0xffffffff then -FDT_ERR_BADPHANDLE
  else
    match (List.range fdt.nodes.length).find? fun (i : Nat) => fdtGetPhandle fdt i = phandle with
    | some offset => offset
    | none => -FDT_ERR_NOTFOUND

end ZStage.Fdt
