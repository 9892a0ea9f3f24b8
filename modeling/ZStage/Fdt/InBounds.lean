import ZStage.Fdt.Translate

/-!
Which property values the decoders of `fdt_helper.c` read inside their bounds. Each
function has a predicate on the tree and its arguments (`RegFits`, `ListFits`,
`UartFits`), equivalent to the safety of its trace. The two loops are described by the
states that they reach: the buses of the walk, left upward where the first `ranges`
entry maps the address, and the positions of the phandle list, left for the next entry
while `index` is positive.
-/

namespace ZStage.Fdt

open Relation ZStage.Lib.Trace ZStage.Lib.BigEndian ZStage.Lib.AddressWindow

/-! ## Addresses -/

/-- A non-empty `ranges` holds an entry with the cell counts that the code uses. -/
def RangesFit (fdt : Tree) (bus : Int) : Prop :=
  1 ≤ fdtAddressCells fdt bus → 0 ≤ fdtSizeCells fdt bus →
    ∀ ranges, fdtGetprop fdt bus "ranges" = .ok ranges → ranges.len ≠ 0 →
      4 * (2 * (fdtAddressCells fdt bus).toNat + (fdtSizeCells fdt bus).toNat) ≤ ranges.len

theorem translate_safe (fdt : Tree) (reg : UInt64) (bus : Int) (addr : UInt64) :
    (fdtTranslateAddress fdt reg bus addr).Safe Access.Inside ↔ RangesFit fdt bus := by
  simp only [fdtTranslateAddress, RangesFit]
  by_cases hca : fdtAddressCells fdt bus < 1
  · simp [hca]
  by_cases hcs : fdtSizeCells fdt bus < 0
  · simp [hca, hcs]
  cases hranges : fdtGetprop fdt bus "ranges" with
  | error len => simp [hca, hcs]
  | ok ranges =>
    by_cases hlen : ranges.len = 0
    · simp [hca, hcs, hlen]
    have hfinal (x y z : UInt64) : (if reg < x ∨ reg + z ≤ x then pure (-ENODEV, addr)
        else pure (0, y + (reg - x)) : Decode (Int × UInt64)).Safe Access.Inside := by
      split <;> exact safe_pure _
    simp only [hca, hcs, if_false, if_pos (Nat.pos_of_ne_zero hlen), safe_bind, readCells_safe,
      hfinal, and_true, Except.ok.injEq, forall_eq', hlen, ne_eq, not_false_eq_true,
      forall_const]
    omega

/-- One round of the walk: the first `ranges` entry, if there is one, maps the address. -/
def WalkStep (fdt : Tree) (x y : Int × UInt64) : Prop :=
  ¬x.1 < 0 ∧ firstEntryMaps fdt x.1 x.2 = some y.2 ∧ y.1 = fdtParentOffset fdt x.1

/-- Every bus that the walk reaches has a `ranges` that fits. -/
def WalkFits (fdt : Tree) (bus : Int) (reg : UInt64) : Prop :=
  ∀ y, ReflTransGen (WalkStep fdt) (bus, reg) y → ¬y.1 < 0 → RangesFit fdt y.1

theorem walkFits_iff {fdt : Tree} {bus : Int} {reg : UInt64} (h : ¬bus < 0) :
    WalkFits fdt bus reg ↔ RangesFit fdt bus ∧
      ∀ b, firstEntryMaps fdt bus reg = some b → WalkFits fdt (fdtParentOffset fdt bus) b := by
  rw [WalkFits, forall_reached_iff]
  refine and_congr (by simp [h]) ?_
  constructor
  · exact fun hnext b hb => hnext (fdtParentOffset fdt bus, b) ⟨h, hb, rfl⟩
  · rintro hnext ⟨bus', b⟩ ⟨-, hb, rfl⟩
    exact hnext b hb

theorem walkFits_of_neg {fdt : Tree} {bus : Int} {reg : UInt64} (h : bus < 0) :
    WalkFits fdt bus reg := by
  rw [WalkFits, forall_reached_iff]
  exact ⟨fun hpos => absurd h hpos, fun y hy => absurd h hy.1⟩

theorem translateLoop_safe (fdt : Tree) (temp : UInt64) (bus : Int) (addr : UInt64) :
    (translateLoop fdt temp bus addr).Safe Access.Inside ↔ WalkFits fdt bus temp := by
  induction temp, bus, addr using translateLoop.induct fdt with
  | case1 temp bus addr h =>
    rw [translateLoop, dif_pos h]
    exact iff_of_true (safe_pure _) (walkFits_of_neg h)
  | case2 temp bus addr h ih =>
    rw [translateLoop, dif_neg h, safe_bind, translate_safe, walkFits_iff h, translate_value]
    refine and_congr_right fun _ => ?_
    cases hmaps : firstEntryMaps fdt bus temp with
    | none => simp [ENODEV]
    | some b => simpa using ih (0, b)

/-- The entry of `reg` that passes the test on its first cell lies inside the value, as far
as it is read, and so does every `ranges` entry of the walk from there. -/
def RegFits (fdt : Tree) (node index : Int) (addr size : Option UInt64) : Prop :=
  let parent := fdtParentOffset fdt node
  let start := entryStart index (fdtAddressCells fdt parent) (fdtSizeCells fdt parent)
  let addrCells := (fdtAddressCells fdt parent).toNat
  let sizeCells := (fdtSizeCells fdt parent).toNat
  0 ≤ node → 0 ≤ index → 0 ≤ parent → 1 ≤ fdtAddressCells fdt parent →
    0 ≤ fdtSizeCells fdt parent → ∀ reg, fdtGetprop fdt node "reg" = .ok reg →
      start % 2 ^ 64 < (reg.len / 4 : Nat) →
        (addr.isSome → 4 * (start.toNat + addrCells) ≤ reg.len ∧
          WalkFits fdt parent (UInt64.ofNat (reg.number start.toNat addrCells))) ∧
        (size.isSome → sizeCells = 0 ∨ 4 * (start.toNat + addrCells + sizeCells) ≤ reg.len)

theorem getNodeAddrSize_safe (fdt : Tree) (node index : Int) (addr size : Option UInt64) :
    (fdtGetNodeAddrSize fdt node index addr size).Safe Access.Inside ↔
      RegFits fdt node index addr size := by
  simp only [fdtGetNodeAddrSize, RegFits]
  by_cases hargs : node < 0 ∨ index < 0
  · rw [if_pos hargs]
    exact iff_of_true (safe_pure _) (by omega)
  by_cases hparent : fdtParentOffset fdt node < 0
  · simp [hargs, hparent]
  by_cases hca : fdtAddressCells fdt (fdtParentOffset fdt node) < 1
  · simp [hargs, hparent, hca]
  by_cases hcs : fdtSizeCells fdt (fdtParentOffset fdt node) < 0
  · simp [hargs, hparent, hca, hcs]
  cases hreg : fdtGetprop fdt node "reg" with
  | error len => simp [hargs, hparent, hca, hcs]
  | ok reg =>
    have hnode : 0 ≤ node := by omega
    have hindex : 0 ≤ index := by omega
    simp only [hargs, hparent, hca, hcs, if_false, Except.ok.injEq, forall_eq', hnode, hindex,
      Int.not_lt.1 hparent, Int.not_lt.1 hca, Int.not_lt.1 hcs, forall_const]
    generalize entryStart index (fdtAddressCells fdt (fdtParentOffset fdt node))
      (fdtSizeCells fdt (fdtParentOffset fdt node)) = start
    by_cases hstart : ((reg.len / 4 : Nat) : Int) ≤ start % 2 ^ 64
    · rw [if_pos hstart]
      exact iff_of_true (safe_pure _) fun hin => absurd hstart (Int.not_le.2 hin)
    have haddrCells : (fdtAddressCells fdt (fdtParentOffset fdt node)).toNat ≠ 0 := by omega
    simp only [if_neg hstart, Int.not_le.1 hstart, forall_const]
    cases addr with
    | none =>
      cases size with
      | none => simp
      | some s => simp [readCells_safe]
    | some a =>
      cases size with
      | none => simp [readCells_safe, readCells_value, translateLoop_safe, haddrCells]
      | some s => simp [readCells_safe, readCells_value, translateLoop_safe, haddrCells, and_assoc]

/-! ## Phandle lists -/

/-- One round of the list loop: the entry at cell `x.1` is skipped. -/
def EntryStep (fdt : Tree) (list : Property) (cellsProp : String) (x y : Nat × Int) : Prop :=
  x.1 < list.len / 4 ∧ 0 < x.2 ∧
    ∃ val, fdtGetprop fdt (fdtNodeOffsetByPhandle fdt (list.cell x.1)) cellsProp = .ok val ∧
      (val.cell 0).toNat ≤ FDT_MAX_PHANDLE_ARGS ∧
      x.1 + 1 + (val.cell 0).toNat ≤ list.len / 4 ∧
      y = (x.1 + 1 + (val.cell 0).toNat, x.2 - 1)

/-- The cells property of the node that the entry names holds a cell. -/
def CellsFit (fdt : Tree) (list : Property) (cellsProp : String) (pos : Nat) : Prop :=
  pos < list.len / 4 → ∀ val,
    fdtGetprop fdt (fdtNodeOffsetByPhandle fdt (list.cell pos)) cellsProp = .ok val → 4 ≤ val.len

theorem readArgs_safe (list : Property) (pos pcells i : Nat)
    (args : Fin FDT_MAX_PHANDLE_ARGS → UInt32) (h : pos + pcells ≤ list.len / 4) :
    (readArgs list pos pcells i args).Safe Access.Inside := by
  induction i, args using readArgs.induct pcells with
  | case1 i args hlt ih =>
    rw [readArgs, if_pos hlt]
    simp only [readCell, safe_emit_bind, Access.Inside]
    exact ⟨by omega, ih (list.cell (pos + i))⟩
  | case2 i args hge =>
    rw [readArgs, if_neg hge]
    exact safe_pure _

theorem getprop_nonneg {fdt : Tree} {nodeoffset : Int} {name : String} {p : Property}
    (h : fdtGetprop fdt nodeoffset name = .ok p) : ¬nodeoffset < 0 := by
  intro hneg
  simp [fdtGetprop, Tree.node?, hneg] at h

/-- Every entry that the list loop reaches names a node whose cells property fits. -/
def EntriesFit (fdt : Tree) (list : Property) (cellsProp : String) (pos : Nat) (index : Int) :
    Prop :=
  ∀ y, ReflTransGen (EntryStep fdt list cellsProp) (pos, index) y →
    CellsFit fdt list cellsProp y.1

theorem entriesFit_iff (fdt : Tree) (list : Property) (cellsProp : String) (pos : Nat)
    (index : Int) :
    EntriesFit fdt list cellsProp pos index ↔ CellsFit fdt list cellsProp pos ∧
      (pos < list.len / 4 → 0 < index → ∀ val,
        fdtGetprop fdt (fdtNodeOffsetByPhandle fdt (list.cell pos)) cellsProp = .ok val →
        (val.cell 0).toNat ≤ FDT_MAX_PHANDLE_ARGS →
        pos + 1 + (val.cell 0).toNat ≤ list.len / 4 →
        EntriesFit fdt list cellsProp (pos + 1 + (val.cell 0).toNat) (index - 1)) := by
  rw [EntriesFit, forall_reached_iff]
  refine and_congr_right fun _ => ?_
  constructor
  · exact fun h hpos hindex val hval hmax hend =>
      h (pos + 1 + (val.cell 0).toNat, index - 1) ⟨hpos, hindex, val, hval, hmax, hend, rfl⟩
  · rintro h y ⟨hpos, hindex, val, hval, hmax, hend, rfl⟩
    exact h hpos hindex val hval hmax hend

theorem phandleLoop_safe (fdt : Tree) (list : Property) (cellsProp : String)
    (outArgs : FdtPhandleArgs) (pos : Nat) (index : Int) :
    (phandleLoop fdt list cellsProp outArgs pos index).Safe Access.Inside ↔
      EntriesFit fdt list cellsProp pos index := by
  induction pos, index using phandleLoop.induct list with
  | case2 pos index hend =>
    rw [phandleLoop, if_neg hend, entriesFit_iff]
    exact iff_of_true (safe_pure _) ⟨fun h => absurd h hend, fun h => absurd h hend⟩
  | case1 pos index hpos ih =>
    have hphandle : 4 * pos + 4 ≤ list.len := by omega
    rw [phandleLoop, if_pos hpos, entriesFit_iff]
    simp only [readCell, safe_emit_bind, Access.Inside, hphandle, true_and, CellsFit, hpos,
      forall_const]
    cases hval : fdtGetprop fdt (fdtNodeOffsetByPhandle fdt (list.cell pos)) cellsProp with
    | error len =>
      have hsafe : (if fdtNodeOffsetByPhandle fdt (list.cell pos) < 0
          then pure (fdtNodeOffsetByPhandle fdt (list.cell pos), outArgs)
          else pure (-ENOENT, outArgs) : Decode (Int × FdtPhandleArgs)).Safe Access.Inside := by
        split <;> exact safe_pure _
      simpa using hsafe
    | ok val =>
      simp only [if_neg (getprop_nonneg hval), safe_emit_bind, Except.ok.injEq, forall_eq',
        Nat.mul_zero]
      refine and_congr_right fun _ => ?_
      by_cases hmax : FDT_MAX_PHANDLE_ARGS < (val.cell 0).toNat
      · rw [if_pos hmax]
        exact iff_of_true (safe_pure _) fun _ h => absurd hmax (Nat.not_lt.2 h)
      by_cases hend : list.len / 4 < pos + 1 + (val.cell 0).toNat
      · rw [if_neg hmax, if_pos hend]
        exact iff_of_true (safe_pure _) fun _ _ h => absurd hend (Nat.not_lt.2 h)
      by_cases hindex : 0 < index
      · rw [if_neg hmax, if_neg hend, if_pos hindex, ih (val.cell 0) hend]
        simp [hindex, Nat.not_lt.1 hmax, Nat.not_lt.1 hend]
      · rw [if_neg hmax, if_neg hend, if_neg hindex, safe_bind]
        exact iff_of_true ⟨readArgs_safe _ _ _ _ _ (by omega), safe_pure _⟩
          fun h => absurd h hindex

def ListFits (fdt : Tree) (nodeoff : Int) (prop cellsProp : String) (index : Int) : Prop :=
  ∀ list, fdtGetprop fdt nodeoff prop = .ok list → EntriesFit fdt list cellsProp 0 index

theorem parsePhandleWithArgs_safe (fdt : Tree) (nodeoff : Int) (prop cellsProp : String)
    (index : Int) (outArgs : FdtPhandleArgs) :
    (fdtParsePhandleWithArgs fdt nodeoff prop cellsProp index outArgs).Safe Access.Inside ↔
      ListFits fdt nodeoff prop cellsProp index := by
  rw [fdtParsePhandleWithArgs, ListFits]
  by_cases hneg : nodeoff < 0
  · rw [if_pos hneg]
    exact iff_of_true (safe_pure _) fun list hlist => absurd hneg (getprop_nonneg hlist)
  · rw [if_neg hneg]
    cases fdtGetprop fdt nodeoff prop with
    | error len => simp
    | ok list => simp [phandleLoop_safe]

/-! ## UART nodes -/

/-- An optional cell is absent, empty or there. -/
def CellFits (fdt : Tree) (nodeoffset : Int) (name : String) : Prop :=
  ∀ val, fdtGetprop fdt nodeoffset name = .ok val → val.len ≠ 0 → 4 ≤ val.len

theorem uartCell_safe (fdt : Tree) (nodeoffset : Int) (name : String) (default : UInt64) :
    (uartCell fdt nodeoffset name default).Safe Access.Inside ↔ CellFits fdt nodeoffset name := by
  rw [uartCell, CellFits]
  cases fdtGetprop fdt nodeoffset name with
  | error len => simp
  | ok val =>
    by_cases hlen : val.len = 0
    · simp [hlen]
    · simp [hlen, Nat.pos_of_ne_zero hlen, readCell, Access.Inside]

/-- The address and size that a UART node is accepted with are both there and not zero. -/
def HasAddrSize (fdt : Tree) (nodeoffset : Int) (regAddr regSize : UInt64) : Prop :=
  let reg := (fdtGetNodeAddrSize fdt nodeoffset 0 (some regAddr) (some regSize)).value
  ¬(reg.rc < 0 ∨ reg.addr = some 0 ∨ reg.size = some 0)

/-- The first entry of `reg` fits, and if the node is accepted so do its optional cells. -/
def UartFits (fdt : Tree) (nodeoffset : Int) (regAddr regSize : UInt64) : Prop :=
  RegFits fdt nodeoffset 0 (some regAddr) (some regSize) ∧
    (HasAddrSize fdt nodeoffset regAddr regSize →
      ∀ name ∈ ["clock-frequency", "current-speed", "reg-shift", "reg-io-width"],
        CellFits fdt nodeoffset name)

theorem parseUartNode_safe (fdt : Tree) (nodeoffset : Int) (regAddr regSize : UInt64)
    (uart : PlatformUartData) :
    (fdtParseUartNode fdt nodeoffset regAddr regSize uart).Safe Access.Inside ↔
      UartFits fdt nodeoffset regAddr regSize := by
  rw [fdtParseUartNode]
  by_cases hneg : nodeoffset < 0
  · rw [if_pos hneg]
    refine iff_of_true (safe_pure _) ⟨fun h => absurd h (by omega), ?_⟩
    exact fun _ name _ val hval => absurd hneg (getprop_nonneg hval)
  · rw [if_neg hneg, safe_bind, getNodeAddrSize_safe, UartFits, HasAddrSize]
    refine and_congr_right fun _ => ?_
    split
    · next h => simp [h]
    · next h => simp [h, uartCell_safe]

end ZStage.Fdt
