import ZStage.Libfdt.Layout

/-!
`fdt_addresses.c` and the helpers of `firmware/fdt/fdt_helper.c` that the serial drivers
use, over the bytes of a blob. On a blob that presents a tree each of them is the
function of the same name over the tree.

The walk of `fdt_get_node_addr_size` to the root is one more loop for `fuel`.
-/

namespace ZStage.Fdt

/-- `fdt_parse_compat_addr`: the code returned and `*addr`, `none` being a null pointer. -/
def fdtParseCompatAddr (fdt : Tree) (addr : Option UInt64) (compatible : List UInt8) :
    Decode (Int × Option UInt64) :=
  let nodeoffset := fdtNodeOffsetByCompatible fdt (-1) compatible
  if nodeoffset < 0 then pure (nodeoffset, addr)
  else do
    let reg ← fdtGetNodeAddrSize fdt nodeoffset 0 addr none
    pure (if reg.rc < 0 ∨ addr = none then (-ENODEV, reg.addr) else (0, reg.addr))

end ZStage.Fdt

namespace ZStage.Libfdt

open ZStage.Lib.Trace ZStage.Lib.BigEndian ZStage.Fdt ZStage.Serial

namespace Dtb

section Definitions

variable (fdt : Dtb)

/-- `fdt_cells`. -/
def fdtCells (fuel : Nat) (nodeoffset : Int) (name : List UInt8) : Option Int := do
  let c ← fdt.fdtGetprop fuel nodeoffset name
  match c with
  | .error len => some len
  | .ok c =>
    if c.len ≠ 4 then some (-FDT_ERR_BADNCELLS)
    else if FDT_MAX_NCELLS < fdt.fdt32 c.data then some (-FDT_ERR_BADNCELLS)
    else some (fdt.fdt32 c.data)

def fdtAddressCells (fuel : Nat) (nodeoffset : Int) : Option Int := do
  let val ← fdt.fdtCells fuel nodeoffset (cstr "#address-cells")
  if val = 0 then some (-FDT_ERR_BADNCELLS)
  else if val = -FDT_ERR_NOTFOUND then some 2
  else some val

def fdtSizeCells (fuel : Nat) (nodeoffset : Int) : Option Int := do
  let val ← fdt.fdtCells fuel nodeoffset (cstr "#size-cells")
  if val = -FDT_ERR_NOTFOUND then some 1 else some val

/-- `for (i = 0; i < n; i++) temp = (temp << 32) | fdt32_to_cpu(*list++)`, `list` being a byte of
the blob. -/
def readCells (list : Nat) : Nat → UInt64 → UInt64
  | 0, temp => temp
  | n + 1, temp => readCells (list + 4) n (temp <<< 32 ||| UInt64.ofNat (fdt.fdt32 list))

/-- The code returned and `*addr`. -/
def fdtTranslateAddress (fuel : Nat) (reg : UInt64) (parent : Int) (addr : UInt64) :
    Option (Int × UInt64) := do
  let cellAddr ← fdt.fdtAddressCells fuel parent
  if cellAddr < 1 then some (-ENODEV, addr)
  else do
    let cellSize ← fdt.fdtSizeCells fuel parent
    if cellSize < 0 then some (-ENODEV, addr)
    else do
      let ranges ← fdt.fdtGetprop fuel parent (cstr "ranges")
      match ranges with
      | .error _ => some (0, reg)
      | .ok ranges =>
        if 0 < ranges.len then
          let caddr := fdt.readCells ranges.data cellAddr.toNat 0
          let paddr := fdt.readCells (ranges.data + 4 * cellAddr.toNat) cellAddr.toNat 0
          let rsize := fdt.readCells (ranges.data + 4 * (2 * cellAddr.toNat)) cellSize.toNat 0
          if reg < caddr ∨ reg + rsize ≤ caddr then some (-ENODEV, addr)
          else some (0, paddr + (reg - caddr))
        else some (0, reg)

/-- The `do` loop of `fdt_get_node_addr_size`. -/
def translateLoop (fuel : Nat) : Nat → UInt64 → Int → UInt64 → Option UInt64
  | 0, _, _, _ => none
  | left + 1, temp, parent, addr =>
    if parent < 0 then some addr
    else do
      let result ← fdt.fdtTranslateAddress fuel temp parent addr
      if result.1 ≠ 0 then some result.2
      else do
        let parent ← fdt.fdtParentOffset fuel parent
        translateLoop fuel left result.2 parent result.2

def fdtGetNodeAddrSize (fuel : Nat) (node index : Int) (addr size : Option UInt64) :
    Option AddrSize :=
  if node < 0 ∨ index < 0 then some ⟨-EINVAL, addr, size⟩
  else do
    let parent ← fdt.fdtParentOffset fuel node
    if parent < 0 then some ⟨parent, addr, size⟩
    else do
      let cellAddr ← fdt.fdtAddressCells fuel parent
      if cellAddr < 1 then some ⟨-ENODEV, addr, size⟩
      else do
        let cellSize ← fdt.fdtSizeCells fuel parent
        if cellSize < 0 then some ⟨-ENODEV, addr, size⟩
        else do
          let reg ← fdt.fdtGetprop fuel node (cstr "reg")
          match reg with
          | .error _ => some ⟨-ENODEV, addr, size⟩
          | .ok reg =>
            let start := entryStart index cellAddr cellSize
            -- both sides are an `unsigned long`
            if reg.len % 2 ^ 64 / 4 ≤ start % 2 ^ 64 then some ⟨-EINVAL, addr, size⟩
            else do
              let list := reg.data + 4 * start.toNat
              let addr ← match addr with
                | none => some none
                | some a => do
                  let temp := fdt.readCells list cellAddr.toNat 0
                  let a ← fdt.translateLoop fuel fuel temp parent a
                  some (some a)
              let size := size.map fun _ =>
                fdt.readCells (list + 4 * cellAddr.toNat) cellSize.toNat 0
              some ⟨0, addr, size⟩

/-- An optional one-cell property of a UART node. -/
def uartCell (fuel : Nat) (nodeoffset : Int) (name : List UInt8) (default : UInt64) :
    Option UInt64 := do
  let val ← fdt.fdtGetprop fuel nodeoffset name
  match val with
  | .error _ => some default
  | .ok val => some (if 0 < val.len then UInt64.ofNat (fdt.fdt32 val.data) else default)

def fdtParseUartNode (fuel : Nat) (nodeoffset : Int) (regAddr regSize : UInt64)
    (uart : PlatformUartData) : Option (Int × PlatformUartData) :=
  if nodeoffset < 0 then some (-ENODEV, uart)
  else do
    let reg ← fdt.fdtGetNodeAddrSize fuel nodeoffset 0 (some regAddr) (some regSize)
    if reg.rc < 0 ∨ reg.addr = some 0 ∨ reg.size = some 0 then some (-ENODEV, uart)
    else do
      let freq ← fdt.uartCell fuel nodeoffset (cstr "clock-frequency") DEFAULT_UART_FREQ
      let baud ← fdt.uartCell fuel nodeoffset (cstr "current-speed") DEFAULT_UART_BAUD
      let regShift ← fdt.uartCell fuel nodeoffset (cstr "reg-shift") DEFAULT_UART_REG_SHIFT
      let regIoWidth ← fdt.uartCell fuel nodeoffset (cstr "reg-io-width") DEFAULT_UART_REG_IO_WIDTH
      some (0, ⟨reg.addr.getD regAddr, freq, baud, regShift, regIoWidth⟩)

def fdtMatchNode (fuel : Nat) (nodeoff : Int) : MatchTable → Option (Option FdtMatch)
  | [] => some none
  | m :: rest =>
    if nodeoff < 0 then some none
    else do
      let ret ← fdt.fdtNodeCheckCompatible fuel nodeoff m.compatible
      if ret = 0 then some (some m) else fdtMatchNode fuel nodeoff rest

def fdtFindMatch (fuel : Nat) (startoff : Int) (outMatch : Option FdtMatch) :
    MatchTable → Option (Int × Option FdtMatch)
  | [] => some (-ENODEV, outMatch)
  | m :: rest => do
    let nodeoff ← fdt.fdtNodeOffsetByCompatible fuel startoff m.compatible
    if 0 ≤ nodeoff then some (nodeoff, some m) else fdtFindMatch fuel startoff outMatch rest

/-- `for (i = 0; i < pcells; i++) args[i] = fdt32_to_cpu(list[i])`, from argument `i` on. -/
def readArgs (list : Nat) :
    Nat → Nat → (Fin FDT_MAX_PHANDLE_ARGS → UInt32) → Fin FDT_MAX_PHANDLE_ARGS → UInt32
  | 0, _, args => args
  | n + 1, i, args =>
    readArgs list n (i + 1)
      fun k => if k.val = i then UInt32.ofNat (fdt.fdt32 (list + 4 * i)) else args k

/-- The `while` loop of `fdt_parse_phandle_with_args`. -/
def phandleLoop (fuel : Nat) (cellsProp : List UInt8) (listEnd : Nat) :
    Nat → Nat → Int → FdtPhandleArgs → Option (Int × FdtPhandleArgs)
  | 0, _, _, _ => none
  | left + 1, list, index, outArgs =>
    if list < listEnd then do
      let pnodeoff ← fdt.fdtNodeOffsetByPhandle fuel (fdt.fdt32 list)
      if pnodeoff < 0 then some (pnodeoff, outArgs)
      else do
        let list := list + 4
        let val ← fdt.fdtGetprop fuel pnodeoff cellsProp
        match val with
        | .error _ => some (-ENOENT, outArgs)
        | .ok val =>
          let pcells := fdt.fdt32 val.data
          if FDT_MAX_PHANDLE_ARGS < pcells then some (-EINVAL, outArgs)
          else if listEnd < list + 4 * pcells then some (-ENOENT, outArgs)
          else if 0 < index then
            phandleLoop fuel cellsProp listEnd left (list + 4 * pcells) (index - 1) outArgs
          else some (0, ⟨pnodeoff, pcells, fdt.readArgs list pcells 0 outArgs.args⟩)
    else some (-ENOENT, outArgs)

def fdtParsePhandleWithArgs (fuel : Nat) (nodeoff : Int) (prop cellsProp : List UInt8)
    (index : Int) (outArgs : FdtPhandleArgs) : Option (Int × FdtPhandleArgs) :=
  if nodeoff < 0 then some (-EINVAL, outArgs)
  else do
    let list ← fdt.fdtGetprop fuel nodeoff prop
    match list with
    | .error _ => some (-ENOENT, outArgs)
    | .ok list =>
      fdt.phandleLoop fuel cellsProp (list.data + 4 * (list.len % 2 ^ 64 / 4).toNat) fuel list.data
        index outArgs

def fdtParseCompatAddr (fuel : Nat) (addr : Option UInt64) (compatible : List UInt8) :
    Option (Int × Option UInt64) := do
  let nodeoffset ← fdt.fdtNodeOffsetByCompatible fuel (-1) compatible
  if nodeoffset < 0 then some (nodeoffset, addr)
  else do
    let reg ← fdt.fdtGetNodeAddrSize fuel nodeoffset 0 addr none
    some (if reg.rc < 0 ∨ addr = none then (-ENODEV, reg.addr) else (0, reg.addr))

end Definitions

variable {fdt : Dtb} {tokens : List Token}

/-! ## Cells -/

theorem Same.cases {r : Except Int Value} {r' : Except Int Property} (h : fdt.Same r r') :
    (∃ err, r = .error err ∧ r' = .error err) ∨
      ∃ v p, r = .ok v ∧ r' = .ok p ∧ v.len = p.len ∧ fdt.bytesAt v.data = p.mem := by
  cases r with
  | error err =>
    cases r' with
    | error err' => exact Or.inl ⟨err, rfl, congrArg Except.error (Eq.symm h)⟩
    | ok p => exact h.elim
  | ok v =>
    cases r' with
    | error err' => exact h.elim
    | ok p => exact Or.inr ⟨v, p, rfl, rfl, h⟩

/-- A cell of a value is a word of the blob. -/
theorem cell_toNat {p : Property} {data : Nat} (hmem : fdt.bytesAt data = p.mem) (i : Nat) :
    (p.cell i).toNat = fdt.fdt32 (data + 4 * i) := by
  rw [Property.cell, word32_toNat, ← hmem, bigEndian_bytesAt, fdt32]

theorem cell_toUInt64 {p : Property} {data : Nat} (hmem : fdt.bytesAt data = p.mem) (i : Nat) :
    (p.cell i).toUInt64 = UInt64.ofNat (fdt.fdt32 (data + 4 * i)) := by
  rw [← cell_toNat hmem, ← UInt32.toNat_toUInt64, UInt64.ofNat_toNat]

theorem readCells_value {p : Property} {data : Nat} (hmem : fdt.bytesAt data = p.mem)
    (first n : Nat) (temp : UInt64) :
    (Fdt.readCells p first n temp).value = fdt.readCells (data + 4 * first) n temp := by
  induction n generalizing first temp with
  | zero => rfl
  | succ n ih =>
    rw [Fdt.readCells, value_bind, ih, readCell, value_emit, readCells, cell_toUInt64 hmem,
      Nat.mul_succ, Nat.add_assoc]

section Presents

variable (h : fdt.Presents tokens) {i : Nat} {e : Entry} {fuel : Nat}
  (hi : (nodes tokens)[i]? = some e) (hfuel : fdt.totalsize < fuel)

include hi hfuel

theorem Presents.cells (name : List UInt8) :
    fdt.fdtCells fuel e.offset name = some (Fdt.fdtCells h.tree i (nameString name)) := by
  obtain ⟨r, hr, hsame⟩ := h.getprop hi hfuel name
  rw [fdtCells, hr, Fdt.fdtCells, Option.bind_eq_bind, Option.bind_some]
  rcases hsame.cases with ⟨err, rfl, herr⟩ | ⟨v, p, rfl, hp, hlen, hmem⟩
  · rw [herr]
  · have hcell := cell_toNat hmem 0
    rw [Nat.mul_zero, Nat.add_zero] at hcell
    have hfour : v.len = 4 ↔ p.len = 4 := by omega
    simp only [hp, ← hcell, ne_eq, hfour]
    split_ifs <;> rfl

theorem Presents.addressCells :
    fdt.fdtAddressCells fuel e.offset = some (Fdt.fdtAddressCells h.tree i) := by
  have hname : nameString (cstr "#address-cells") = "#address-cells" := by decide
  rw [fdtAddressCells, h.cells hi hfuel, hname, Fdt.fdtAddressCells, Option.bind_eq_bind,
    Option.bind_some]
  split_ifs <;> rfl

theorem Presents.sizeCells :
    fdt.fdtSizeCells fuel e.offset = some (Fdt.fdtSizeCells h.tree i) := by
  have hname : nameString (cstr "#size-cells") = "#size-cells" := by decide
  rw [fdtSizeCells, h.cells hi hfuel, hname, Fdt.fdtSizeCells, Option.bind_eq_bind,
    Option.bind_some]
  split_ifs <;> rfl

/-! ## Addresses -/

theorem Presents.translateAddress (reg addr : UInt64) :
    fdt.fdtTranslateAddress fuel reg e.offset addr =
      some (Fdt.fdtTranslateAddress h.tree reg i addr).value := by
  have hname : nameString (cstr "ranges") = "ranges" := by decide
  obtain ⟨r, hr, hsame⟩ := h.getprop hi hfuel (cstr "ranges")
  rw [hname] at hsame
  simp only [fdtTranslateAddress, Fdt.fdtTranslateAddress, h.addressCells hi hfuel,
    h.sizeCells hi hfuel, hr, Option.bind_eq_bind, Option.bind_some]
  split_ifs
  · rfl
  · rfl
  · rcases hsame.cases with ⟨err, rfl, herr⟩ | ⟨v, p, rfl, hp, hlen, hmem⟩
    · rw [herr]
      rfl
    · have hpos : 0 < v.len ↔ 0 < p.len := by omega
      simp only [hp, hpos, apply_ite Traced.value, value_bind, value_pure, readCells_value hmem,
        Nat.mul_zero, Nat.add_zero]
      split_ifs <;> rfl

omit hi hfuel in
include h in
/-- There are no more nodes in front of a node than words. -/
theorem Presents.position_le {i : Nat} {e : Entry} (hi : (nodes tokens)[i]? = some e) :
    i ≤ e.offset := by
  induction i generalizing e with
  | zero => exact Nat.zero_le _
  | succ i ih =>
    obtain ⟨hlt, rfl⟩ := List.getElem?_eq_some_iff.1 hi
    have hfront : (nodes tokens)[i]? = some (nodes tokens)[i] := List.getElem?_eq_getElem (by omega)
    obtain ⟨rest, hnode, hlater⟩ := h.nodeAt_position hfront
    rw [List.drop_eq_getElem_cons hlt] at hlater
    obtain ⟨-, -, -, hahead, -⟩ := hnode.next hlater.symm
    have hle := ih hfront
    omega

theorem Presents.parentOffset_cases :
    (Fdt.fdtParentOffset h.tree i < 0 ∧
      fdt.fdtParentOffset fuel e.offset = some (Fdt.fdtParentOffset h.tree i)) ∨
    ∃ j e', j < i ∧ Fdt.fdtParentOffset h.tree i = (j : Nat) ∧ (nodes tokens)[j]? = some e' ∧
      fdt.fdtParentOffset fuel e.offset = some (e'.offset : Int) := by
  have hparent := h.parentOffset hi hfuel
  by_cases hneg : Fdt.fdtParentOffset h.tree i < 0
  · rw [place_neg hneg] at hparent
    exact Or.inl ⟨hneg, hparent⟩
  · have hlt := fdtParentOffset_lt h.tree i (Int.natCast_nonneg i)
    obtain ⟨j, hj⟩ := Int.eq_ofNat_of_zero_le (Int.not_lt.1 hneg)
    obtain ⟨hlen, -⟩ := List.getElem?_eq_some_iff.1 hi
    have hji : j < i := by omega
    have hnode : (nodes tokens)[j]? = some (nodes tokens)[j] := List.getElem?_eq_getElem (by omega)
    rw [hj, place_natCast hnode] at hparent
    exact Or.inr ⟨j, _, hji, hj, hnode, hparent⟩

theorem Presents.translateLoop {left : Nat} (hleft : i + 1 < left) (temp addr : UInt64) :
    fdt.translateLoop fuel left temp e.offset addr =
      some (Fdt.translateLoop h.tree temp i addr).value := by
  induction i using Nat.strongRecOn generalizing e left temp addr with
  | ind i ih =>
    obtain ⟨left, rfl⟩ : ∃ n, left = n + 1 := ⟨left - 1, by omega⟩
    rw [Dtb.translateLoop, if_neg (Int.not_lt.2 (Int.natCast_nonneg _)),
      h.translateAddress hi hfuel, Fdt.translateLoop,
      dif_neg (Int.not_lt.2 (Int.natCast_nonneg _)), Option.bind_eq_bind, Option.bind_some]
    generalize hresult : (Fdt.fdtTranslateAddress h.tree temp i addr).value = result
    simp only [value_bind, hresult]
    by_cases hcode : result.1 = 0
    · rw [if_neg (not_not.2 hcode), if_neg (not_not.2 hcode)]
      rcases h.parentOffset_cases hi hfuel with ⟨hneg, hparent⟩ | ⟨j, e', hji, htree, hj, hparent⟩
      · obtain ⟨left, rfl⟩ : ∃ n, left = n + 1 := ⟨left - 1, by omega⟩
        rw [hparent, Option.bind_eq_bind, Option.bind_some, Dtb.translateLoop, if_pos hneg,
          Fdt.translateLoop, dif_pos hneg, value_pure]
      · rw [hparent, Option.bind_eq_bind, Option.bind_some, htree]
        exact ih j hji hj (by omega) _ _
    · rw [if_pos hcode, if_pos hcode, value_pure]

/-- `fdt_get_node_addr_size` on the bytes is the one over the tree. -/
theorem Presents.getNodeAddrSize (index : Int) (addr size : Option UInt64) :
    fdt.fdtGetNodeAddrSize fuel e.offset index addr size =
      some (Fdt.fdtGetNodeAddrSize h.tree i index addr size).value := by
  have hname : nameString (cstr "reg") = "reg" := by decide
  obtain ⟨r, hr, hsame⟩ := h.getprop hi hfuel (cstr "reg")
  rw [hname] at hsame
  have hnode (n : Nat) : (n : Int) < 0 ↔ False :=
    iff_false_intro (Int.not_lt.2 (Int.natCast_nonneg n))
  simp only [fdtGetNodeAddrSize, Fdt.fdtGetNodeAddrSize, hnode, false_or]
  by_cases hindex : index < 0
  · rw [if_pos hindex, if_pos hindex, value_pure]
  rw [if_neg hindex, if_neg hindex]
  rcases h.parentOffset_cases hi hfuel with ⟨hneg, hparent⟩ | ⟨j, e', hji, htree, hj, hparent⟩
  · rw [hparent, Option.bind_eq_bind, Option.bind_some, if_pos hneg, if_pos hneg, value_pure]
  have hleft : j + 1 < fuel := by
    have hle := h.position_le hi
    obtain ⟨rest, hat, -⟩ := h.nodeAt_position hi
    have hroom := hat.token.fits.1
    omega
  simp only [hparent, htree, h.addressCells hj hfuel, h.sizeCells hj hfuel, hr,
    Option.bind_eq_bind, Option.bind_some, hnode, if_false]
  by_cases haddress : Fdt.fdtAddressCells h.tree j < 1
  · rw [if_pos haddress, if_pos haddress, value_pure]
  rw [if_neg haddress, if_neg haddress]
  by_cases hcells : Fdt.fdtSizeCells h.tree j < 0
  · rw [if_pos hcells, if_pos hcells, value_pure]
  rw [if_neg hcells, if_neg hcells]
  rcases hsame.cases with ⟨err, rfl, herr⟩ | ⟨v, p, rfl, hp, hlen, hmem⟩
  · rw [herr, value_pure]
  · have hlong : v.len % 2 ^ 64 / 4 = ((p.len / 4 : Nat) : Int) := by
      have hlt := p.len_lt
      omega
    simp only [hp, hlong]
    split_ifs
    · rw [value_pure]
    · rw [Nat.add_assoc, ← Nat.mul_add]
      cases addr <;> cases size <;>
        simp only [value_bind, value_map, value_pure, readCells_value hmem, Option.map_none,
          Option.map_some, Option.bind_some, h.translateLoop hj hfuel hleft]

theorem Presents.uartCell (name : List UInt8) (default : UInt64) :
    fdt.uartCell fuel e.offset name default =
      some (Fdt.uartCell h.tree i (nameString name) default).value := by
  obtain ⟨r, hr, hsame⟩ := h.getprop hi hfuel name
  rw [Dtb.uartCell, hr, Fdt.uartCell, Option.bind_eq_bind, Option.bind_some]
  rcases hsame.cases with ⟨err, rfl, herr⟩ | ⟨v, p, rfl, hp, hlen, hmem⟩
  · rw [herr, value_pure]
  · have hpos : 0 < v.len ↔ 0 < p.len := by omega
    have hcell := cell_toUInt64 hmem 0
    rw [Nat.mul_zero, Nat.add_zero] at hcell
    simp only [hp, hpos, ← hcell]
    split_ifs
    · rw [value_bind, readCell, value_emit, value_pure]
    · rw [value_pure]

/-- `fdt_parse_uart_node` on the bytes is the one over the tree. -/
theorem Presents.parseUartNode (regAddr regSize : UInt64) (uart : PlatformUartData) :
    fdt.fdtParseUartNode fuel e.offset regAddr regSize uart =
      some (Fdt.fdtParseUartNode h.tree i regAddr regSize uart).value := by
  have hfreq : nameString (cstr "clock-frequency") = "clock-frequency" := by decide
  have hbaud : nameString (cstr "current-speed") = "current-speed" := by decide
  have hshift : nameString (cstr "reg-shift") = "reg-shift" := by decide
  have hwidth : nameString (cstr "reg-io-width") = "reg-io-width" := by decide
  rw [fdtParseUartNode, if_neg (Int.not_lt.2 (Int.natCast_nonneg _)), Fdt.fdtParseUartNode,
    if_neg (Int.not_lt.2 (Int.natCast_nonneg _)), h.getNodeAddrSize hi hfuel]
  simp only [Option.bind_eq_bind, Option.bind_some, value_bind]
  split_ifs
  · rw [value_pure]
  · simp only [h.uartCell hi hfuel, hfreq, hbaud, hshift, hwidth, Option.bind_some, value_bind,
      value_pure]

/-! ## References -/

omit h hi hfuel in
theorem readArgs_value {p : Property} {data : Nat} (hmem : fdt.bytesAt data = p.mem)
    (pos n i : Nat) (args : Fin FDT_MAX_PHANDLE_ARGS → UInt32) :
    (Fdt.readArgs p pos (i + n) i args).value = fdt.readArgs (data + 4 * pos) n i args := by
  induction n generalizing i args with
  | zero => rw [Fdt.readArgs, if_neg (by omega), value_pure, Dtb.readArgs]
  | succ n ih =>
    have hcell : UInt32.ofNat (fdt.fdt32 (data + 4 * pos + 4 * i)) = p.cell (pos + i) := by
      rw [Nat.add_assoc, ← Nat.mul_add, ← cell_toNat hmem, UInt32.ofNat_toNat]
    rw [Fdt.readArgs, if_pos (by omega), value_bind, readCell, value_emit, Dtb.readArgs, hcell,
      show i + (n + 1) = i + 1 + n by omega]
    exact ih (i + 1) _

/-- The arguments with the offset of the node in the blob. -/
def atOffset (tokens : List Token) (args : FdtPhandleArgs) : FdtPhandleArgs :=
  { args with nodeOffset := place tokens args.nodeOffset }

omit hi hfuel in
theorem Presents.isPosition_phandle (phandle : UInt32) :
    IsPosition tokens (Fdt.fdtNodeOffsetByPhandle h.tree phandle) := by
  rw [Fdt.fdtNodeOffsetByPhandle]
  split_ifs
  · exact Or.inl (by decide)
  · split
    · next j hfind =>
      have hlt := List.mem_range.1 (List.mem_of_find?_eq_some hfind)
      rw [h.length_tree] at hlt
      exact Or.inr ⟨j, _, rfl, List.getElem?_eq_getElem hlt⟩
    · exact Or.inl (by decide)

omit hi in
theorem Presents.phandleLoop {list : Property} {data : Nat} (hmem : fdt.bytesAt data = list.mem)
    (cellsProp : List UInt8) {left pos : Nat} (hpos : pos ≤ list.len / 4)
    (hleft : list.len / 4 < pos + left) (index : Int) (outArgs : FdtPhandleArgs) :
    fdt.phandleLoop fuel cellsProp (data + 4 * (list.len / 4)) left (data + 4 * pos) index
        (atOffset tokens outArgs) =
      some ((Fdt.phandleLoop h.tree list (nameString cellsProp) outArgs pos index).value.1,
        atOffset tokens
          (Fdt.phandleLoop h.tree list (nameString cellsProp) outArgs pos index).value.2) := by
  have hcell (p : Property) (data pos : Nat) (hmem : fdt.bytesAt data = p.mem) :
      fdt.fdt32 (data + 4 * pos) = (p.cell pos).toNat := (cell_toNat hmem pos).symm
  induction left generalizing pos index with
  | zero => omega
  | succ left ih =>
    rw [Dtb.phandleLoop, Fdt.phandleLoop]
    by_cases hend : pos < list.len / 4
    · rw [if_pos (by omega), if_pos hend, hcell list data pos hmem,
        h.nodeOffsetByPhandle hfuel, Option.bind_eq_bind, Option.bind_some, value_bind, readCell,
        value_emit]
      rcases h.isPosition_phandle (list.cell pos) with hneg | ⟨j, e', hj, hnode⟩
      · rw [place_neg hneg, if_pos hneg, if_pos hneg, value_pure]
      · rw [hj, place_natCast hnode, if_neg (Int.not_lt.2 (Int.natCast_nonneg _)),
          if_neg (Int.not_lt.2 (Int.natCast_nonneg _))]
        obtain ⟨r, hr, hsame⟩ := h.getprop hnode hfuel cellsProp
        rw [hr, Option.bind_eq_bind, Option.bind_some]
        rcases hsame.cases with ⟨err, rfl, herr⟩ | ⟨v, p, rfl, hp, hlen, hmem'⟩
        · rw [herr, value_pure]
        · have hcount := hcell p v.data 0 hmem'
          rw [Nat.mul_zero, Nat.add_zero] at hcount
          have hroom : data + 4 * (list.len / 4) < data + 4 * pos + 4 + 4 * (p.cell 0).toNat ↔
              list.len / 4 < pos + 1 + (p.cell 0).toNat := by omega
          simp only [hp, hcount, hroom, value_bind, value_emit, readCell]
          by_cases hmany : FDT_MAX_PHANDLE_ARGS < (p.cell 0).toNat
          · simp only [hmany, if_true, value_pure]
          by_cases hpast : list.len / 4 < pos + 1 + (p.cell 0).toNat
          · simp only [hmany, hpast, if_true, if_false, value_pure]
          simp only [hmany, hpast, if_false]
          by_cases hindex : 0 < index
          · simp only [hindex, if_true]
            have hrest := ih (show pos + 1 + (p.cell 0).toNat ≤ list.len / 4 by omega) (by omega)
              (index - 1)
            rwa [show data + 4 * (pos + 1 + (p.cell 0).toNat) =
              data + 4 * pos + 4 + 4 * (p.cell 0).toNat by omega] at hrest
          · have hargs := readArgs_value hmem (pos + 1) (p.cell 0).toNat 0 outArgs.args
            rw [Nat.zero_add, Nat.mul_succ, ← Nat.add_assoc] at hargs
            simp only [hindex, if_false, value_bind, value_pure, hargs, atOffset,
              place_natCast hnode]
    · rw [if_neg (by omega), if_neg hend, value_pure]

/-- `fdt_parse_phandle_with_args` on the bytes is the one over the tree. -/
theorem Presents.parsePhandleWithArgs (prop cellsProp : List UInt8) (index : Int)
    (outArgs : FdtPhandleArgs) :
    fdt.fdtParsePhandleWithArgs fuel e.offset prop cellsProp index (atOffset tokens outArgs) =
      some ((Fdt.fdtParsePhandleWithArgs h.tree i (nameString prop) (nameString cellsProp) index
          outArgs).value.1,
        atOffset tokens (Fdt.fdtParsePhandleWithArgs h.tree i (nameString prop)
          (nameString cellsProp) index outArgs).value.2) := by
  obtain ⟨r, hr, hsame⟩ := h.getprop hi hfuel prop
  rw [fdtParsePhandleWithArgs, if_neg (Int.not_lt.2 (Int.natCast_nonneg _)), hr,
    Option.bind_eq_bind, Option.bind_some, Fdt.fdtParsePhandleWithArgs,
    if_neg (Int.not_lt.2 (Int.natCast_nonneg _))]
  rcases hsame.cases with ⟨err, rfl, herr⟩ | ⟨v, p, rfl, hp, hlen, hmem⟩
  · rw [herr, value_pure]
  · have hcells : (v.len % 2 ^ 64 / 4).toNat = p.len / 4 := by
      have hlt := p.len_lt
      omega
    have hroom := h.tokenOffset_le hi hp
    rw [Property.tokenOffset] at hroom
    have hloop := h.phandleLoop hfuel hmem cellsProp (Nat.zero_le _)
      (show p.len / 4 < 0 + fuel by omega) index outArgs
    rw [Nat.mul_zero, Nat.add_zero] at hloop
    simp only [hp, hcells, hloop]

/-! ## Matches -/

theorem Presents.matchNode (table : MatchTable) :
    fdt.fdtMatchNode fuel e.offset table = some (Fdt.fdtMatchNode h.tree i table) := by
  rw [Fdt.fdtMatchNode, if_neg (Int.not_lt.2 (Int.natCast_nonneg _))]
  induction table with
  | nil => rfl
  | cons m rest ih =>
    rw [fdtMatchNode, if_neg (Int.not_lt.2 (Int.natCast_nonneg _)), h.checkCompatible hi hfuel,
      Option.bind_eq_bind, Option.bind_some, List.find?_cons, ih]
    by_cases hmatch : Fdt.fdtNodeCheckCompatible h.tree i m.compatible = 0
    · simp [hmatch]
    · simp [hmatch]

omit hi hfuel in
theorem Presents.isPosition_compatible (m : FdtMatch) :
    IsPosition tokens (Fdt.fdtNodeOffsetByCompatible h.tree (-1) m.compatible) := by
  have hall : ∀ i ∈ (List.range h.tree.nodes.length).drop 0, i < h.tree.nodes.length :=
    fun i hi => List.mem_range.1 (List.mem_of_mem_drop hi)
  have hloop := compatibleLoop_eq h.tree m _ hall
  rw [Fdt.fdtNodeOffsetByCompatible, show ((-1 : Int) + 1).toNat = 0 from rfl, hloop]
  cases hfind : ((List.range h.tree.nodes.length).drop 0).find? fun (i : Nat) =>
      Fdt.fdtNodeCheckCompatible h.tree i m.compatible = 0 with
  | none => exact Or.inl (by decide)
  | some i =>
    have hlt := hall i (List.mem_of_find?_eq_some hfind)
    rw [h.length_tree] at hlt
    exact Or.inr ⟨i, _, rfl, List.getElem?_eq_getElem hlt⟩

omit hi in
/-- `fdt_find_match` finds the same node and entry in the blob and in the tree. -/
theorem Presents.findMatch (outMatch : Option FdtMatch) (table : MatchTable) :
    fdt.fdtFindMatch fuel (-1) outMatch table =
      some (place tokens (Fdt.fdtFindMatch h.tree (-1) outMatch table).1,
        (Fdt.fdtFindMatch h.tree (-1) outMatch table).2) := by
  induction table with
  | nil =>
    have hneg : -ENODEV < 0 := by decide
    rw [fdtFindMatch, Fdt.fdtFindMatch, place_neg hneg]
  | cons m rest ih =>
    have hminus : (-1 : Int) < 0 := by decide
    have hfound := h.nodeOffsetByCompatible hfuel m.compatible (Int.le_refl (-1)) (by omega)
    rw [place_neg hminus] at hfound
    have hposition := h.isPosition_compatible m
    simp only [fdtFindMatch, hfound, Fdt.fdtFindMatch, ih, Option.bind_eq_bind, Option.bind_some,
      place_nonneg_iff hposition]
    split_ifs <;> rfl

omit hi in
theorem Presents.parseCompatAddr (addr : Option UInt64) (compatible : List UInt8) :
    fdt.fdtParseCompatAddr fuel addr compatible =
      some (Fdt.fdtParseCompatAddr h.tree addr compatible).value := by
  have hminus : (-1 : Int) < 0 := by decide
  have hfound := h.nodeOffsetByCompatible hfuel compatible (Int.le_refl (-1)) (by omega)
  rw [place_neg hminus] at hfound
  rw [fdtParseCompatAddr, hfound, Option.bind_eq_bind, Option.bind_some, Fdt.fdtParseCompatAddr]
  rcases h.isPosition_compatible ⟨compatible⟩ with hneg | ⟨j, e, hj, hnode⟩
  · rw [place_neg hneg]
    simp only [hneg, if_true, value_pure]
  · simp only at hj
    simp only [hj, place_natCast hnode, Int.not_lt.2 (Int.natCast_nonneg _), if_false,
      h.getNodeAddrSize hnode hfuel, Option.bind_eq_bind, Option.bind_some, value_bind, value_pure]

end Presents

/-- The decoders of `fdt_helper.c` on the bytes of a blob are those over the tree that it
presents: they return the same codes and decode the same addresses, numbers and references. -/
theorem decoders_on_blob (h : fdt.Presents tokens) {fuel : Nat} (hfuel : fdt.totalsize < fuel)
    {i : Nat} {e : Entry} (hi : (nodes tokens)[i]? = some e) :
    (∀ index addr size, fdt.fdtGetNodeAddrSize fuel e.offset index addr size =
      some (Fdt.fdtGetNodeAddrSize h.tree i index addr size).value) ∧
    (∀ regAddr regSize uart, fdt.fdtParseUartNode fuel e.offset regAddr regSize uart =
      some (Fdt.fdtParseUartNode h.tree i regAddr regSize uart).value) ∧
    (∀ prop cellsProp index outArgs,
      let parsed := (Fdt.fdtParsePhandleWithArgs h.tree i (nameString prop) (nameString cellsProp)
        index outArgs).value
      fdt.fdtParsePhandleWithArgs fuel e.offset prop cellsProp index (atOffset tokens outArgs) =
        some (parsed.1, atOffset tokens parsed.2)) ∧
    ∀ addr compatible, fdt.fdtParseCompatAddr fuel addr compatible =
      some (Fdt.fdtParseCompatAddr h.tree addr compatible).value :=
  ⟨h.getNodeAddrSize hi hfuel, h.parseUartNode hi hfuel, h.parsePhandleWithArgs hi hfuel,
    h.parseCompatAddr hfuel⟩

/-- The UART of the board, with the defaults for what its node does not say. -/
theorem decoders_on_blob_board :
    (Source.board.blob 0x82200000).fdtParseUartNode 1000 (place Source.board.tokens 4) 7 7
      ⟨7, 7, 7, 7, 7⟩ = some (0, ⟨0x10000000, 3686400, 115200, 0, 1⟩) := by
  have hfuel : (Source.board.blob 0x82200000).totalsize < 1000 := by decide +kernel
  have hlt : 4 < (nodes Source.board.tokens).length := by decide +kernel
  have hnode := List.getElem?_eq_getElem hlt
  obtain ⟨-, hparse, -⟩ := decoders_on_blob Source.board_presents hfuel hnode
  rw [← place_natCast hnode] at hparse
  exact (hparse 7 7 ⟨7, 7, 7, 7, 7⟩).trans (by decide +kernel)

end Dtb

end ZStage.Libfdt
