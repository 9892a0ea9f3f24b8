import ZStage.Lib.AddressWindow
import ZStage.Fdt.Helper

/-!
Address translation against the devicetree rule. The rule reads every number of a
`ranges` entry as it is written, the parent address with the cell count of the bus
above, and maps an address through any entry that contains it
(`windows`, `RuleMaps`). `fdt_translate_address` takes the first entry only, reads its
parent address with the cell count of the bus itself, and tests the window with sums
that wrap. `FirstWindowMaps` says what the numbers of one bus must satisfy for the
code to follow the rule there, and no less (`codeMaps_iff`); where it holds at every
bus of a translation, `fdt_get_node_addr_size` returns the result of the rule.
-/

namespace ZStage.Fdt

open ZStage.Lib.Trace ZStage.Lib.BigEndian ZStage.Lib.AddressWindow

/-- The buses from `bus` up to the root. -/
def pathFrom (fdt : Tree) (bus : Int) : List Int :=
  if _ : bus < 0 then [] else bus :: pathFrom fdt (fdtParentOffset fdt bus)
termination_by (bus + 1).toNat
decreasing_by
  have := fdtParentOffset_lt fdt bus (by omega)
  omega

/-- A child address, a parent address and a size, the child address from cell `first` on. -/
def windowAt (ranges : Property) (first childCells parentCells sizeCells : Nat) : Window where
  child := ranges.number first childCells
  parent := ranges.number (first + childCells) parentCells
  size := ranges.number (first + childCells + parentCells) sizeCells

/-- The complete entries of the `ranges` list of a bus, `none` when it is absent or empty. -/
def windows (fdt : Tree) (bus : Int) : Option (List Window) :=
  match fdtGetprop fdt bus "ranges" with
  | .error _ => none
  | .ok ranges =>
    if ranges.len = 0 then none else
    let childCells := (fdtAddressCells fdt bus).toNat
    let parentCells := (fdtAddressCells fdt (fdtParentOffset fdt bus)).toNat
    let sizeCells := (fdtSizeCells fdt bus).toNat
    let entry := childCells + parentCells + sizeCells
    some ((List.range (ranges.len / 4 / entry)).map fun k =>
      windowAt ranges (k * entry) childCells parentCells sizeCells)

/-- The rule at one bus. -/
def RuleMaps (fdt : Tree) (bus : Int) : Nat → Nat → Prop := BusMaps (windows fdt bus)

structure PlainCells (fdt : Tree) (bus : Int) : Prop where
  addr : fdtAddressCells fdt bus = 1 ∨ fdtAddressCells fdt bus = 2
  size : fdtSizeCells fdt bus = 1 ∨ fdtSizeCells fdt bus = 2

/-- The first entry of `ranges` as the code reads it, with the parent address in the
`#address-cells` of the bus itself. -/
def firstWindow (fdt : Tree) (bus : Int) (ranges : Property) : Window :=
  windowAt ranges 0 (fdtAddressCells fdt bus).toNat (fdtAddressCells fdt bus).toNat
    (fdtSizeCells fdt bus).toNat

/-- What the numbers of a bus must satisfy at `a` for the code to reach `b` from there:
the first window starts at or below `a`, `a` and its size do not wrap round to its start
or below, and it displaces `a` as far as `b`. -/
def FirstWindowMaps (fdt : Tree) (bus : Int) (a b : Nat) : Prop :=
  ∀ ranges, fdtGetprop fdt bus "ranges" = .ok ranges → ranges.len ≠ 0 →
    let w := firstWindow fdt bus ranges
    w.child ≤ a ∧ w.child < (a + w.size) % 2 ^ 64 ∧ b = (w.parent + (a - w.child)) % 2 ^ 64

/-- `fdt_translate_address` at one bus takes `a` to `b`, whatever `*addr` held. -/
def CodeMaps (fdt : Tree) (bus : Int) (a b : Nat) : Prop :=
  b < 2 ^ 64 ∧ ∀ addr, (fdtTranslateAddress fdt (UInt64.ofNat a) bus addr).value =
    (0, UInt64.ofNat b)

/-! ## One bus -/

theorem PlainCells.addr_le {fdt : Tree} {bus : Int} (h : PlainCells fdt bus) :
    (fdtAddressCells fdt bus).toNat ≤ 2 := by
  rcases h.addr with h | h <;> simp [h]

theorem PlainCells.size_le {fdt : Tree} {bus : Int} (h : PlainCells fdt bus) :
    (fdtSizeCells fdt bus).toNat ≤ 2 := by
  rcases h.size with h | h <;> simp [h]

theorem PlainCells.not_addr_lt {fdt : Tree} {bus : Int} (h : PlainCells fdt bus) :
    ¬fdtAddressCells fdt bus < 1 := by
  rcases h.addr with h | h <;> simp [h]

theorem PlainCells.not_size_lt {fdt : Tree} {bus : Int} (h : PlainCells fdt bus) :
    ¬fdtSizeCells fdt bus < 0 := by
  rcases h.size with h | h <;> simp [h]

theorem number_lt_word (p : Property) (first : Nat) {n : Nat} (h : n ≤ 2) :
    p.number first n < 2 ^ 64 :=
  Nat.lt_of_lt_of_le (p.number_lt first n)
    (Nat.pow_le_pow_right (by decide) (Nat.mul_le_mul_left 32 h))

theorem window_test (caddr paddr rsize reg : UInt64) {b : Nat} (hb : b < 2 ^ 64) :
    (¬(reg < caddr ∨ reg + rsize ≤ caddr) ∧ paddr + (reg - caddr) = UInt64.ofNat b) ↔
      caddr.toNat ≤ reg.toNat ∧ caddr.toNat < (reg.toNat + rsize.toNat) % 2 ^ 64 ∧
        b = (paddr.toNat + (reg.toNat - caddr.toNat)) % 2 ^ 64 := by
  have hc := caddr.toNat_lt
  have hr := reg.toNat_lt
  rw [← UInt64.toNat_inj, UInt64.toNat_add, UInt64.toNat_sub, UInt64.toNat_ofNat_of_lt' hb,
    UInt64.lt_iff_toNat_lt, UInt64.le_iff_toNat_le, UInt64.toNat_add]
  omega

/-- Where the first entry of `ranges` sends an address, if the code takes the step. -/
def firstEntryMaps (fdt : Tree) (bus : Int) (reg : UInt64) : Option UInt64 :=
  if fdtAddressCells fdt bus < 1 ∨ fdtSizeCells fdt bus < 0 then none else
  match fdtGetprop fdt bus "ranges" with
  | .error _ => some reg
  | .ok ranges =>
    if ranges.len = 0 then some reg else
    let w := firstWindow fdt bus ranges
    let caddr := UInt64.ofNat w.child
    if reg < caddr ∨ reg + UInt64.ofNat w.size ≤ caddr then none
    else some (UInt64.ofNat w.parent + (reg - caddr))

/-- One step either assigns `*addr` and returns 0 or leaves it and returns `-ENODEV`. -/
theorem translate_value (fdt : Tree) (bus : Int) (reg addr : UInt64) :
    (fdtTranslateAddress fdt reg bus addr).value =
      ((firstEntryMaps fdt bus reg).map fun b => ((0 : Int), b)).getD (-ENODEV, addr) := by
  simp only [fdtTranslateAddress, firstEntryMaps, firstWindow, windowAt]
  by_cases hca : fdtAddressCells fdt bus < 1
  · simp [hca]
  by_cases hcs : fdtSizeCells fdt bus < 0
  · simp [hca, hcs]
  cases hranges : fdtGetprop fdt bus "ranges" with
  | error len => simp [hca, hcs]
  | ok ranges =>
    by_cases hlen : ranges.len = 0
    · simp [hca, hcs, hlen]
    simp only [hca, hcs, hlen, or_self, if_false, if_pos (Nat.pos_of_ne_zero hlen), value_bind,
      readCells_value, Nat.zero_add, ← Nat.two_mul]
    split <;> rfl

theorem translate_identity {fdt : Tree} {bus : Int} (hcells : PlainCells fdt bus)
    (hnone : windows fdt bus = none) (reg addr : UInt64) :
    (fdtTranslateAddress fdt reg bus addr).value = (0, reg) := by
  rw [translate_value, firstEntryMaps, if_neg (not_or.2 ⟨hcells.not_addr_lt, hcells.not_size_lt⟩)]
  cases hranges : fdtGetprop fdt bus "ranges" with
  | error len => rfl
  | ok ranges =>
    have hlen : ranges.len = 0 := by
      simpa [windows, hranges] using hnone
    simp [hlen]

theorem translate_window {fdt : Tree} {bus : Int} (hcells : PlainCells fdt bus)
    {ranges : Property} (hranges : fdtGetprop fdt bus "ranges" = .ok ranges)
    (hlen : ranges.len ≠ 0) {a b : Nat} (ha : a < 2 ^ 64) (hb : b < 2 ^ 64) (addr : UInt64) :
    (fdtTranslateAddress fdt (UInt64.ofNat a) bus addr).value = (0, UInt64.ofNat b) ↔
      let w := firstWindow fdt bus ranges
      w.child ≤ a ∧ w.child < (a + w.size) % 2 ^ 64 ∧
        b = (w.parent + (a - w.child)) % 2 ^ 64 := by
  have hnumber (first : Nat) {n : Nat} (hn : n ≤ 2) :
      (UInt64.ofNat (ranges.number first n)).toNat = ranges.number first n :=
    UInt64.toNat_ofNat_of_lt' (number_lt_word ranges first hn)
  have htest := window_test (UInt64.ofNat (firstWindow fdt bus ranges).child)
    (UInt64.ofNat (firstWindow fdt bus ranges).parent)
    (UInt64.ofNat (firstWindow fdt bus ranges).size) (UInt64.ofNat a) hb
  simp only [firstWindow, windowAt, Nat.zero_add, hnumber _ hcells.addr_le,
    hnumber _ hcells.size_le, UInt64.toNat_ofNat_of_lt' ha] at htest ⊢
  rw [translate_value, firstEntryMaps, if_neg (not_or.2 ⟨hcells.not_addr_lt, hcells.not_size_lt⟩),
    hranges, ← htest]
  simp only [if_neg hlen, firstWindow, windowAt, Nat.zero_add]
  split_ifs with h
  · simp [h, ENODEV]
  · simp [h]

theorem windows_eq_none {fdt : Tree} {bus : Int} :
    windows fdt bus = none ↔
      ∀ ranges, fdtGetprop fdt bus "ranges" = .ok ranges → ranges.len = 0 := by
  cases hranges : fdtGetprop fdt bus "ranges" with
  | error len => simp [windows, hranges]
  | ok ranges => simp [windows, hranges]

/-- At a bus where the rule takes `a` to `b`, the code does so exactly when the numbers of
the first window satisfy `FirstWindowMaps`. -/
theorem codeMaps_iff {fdt : Tree} {bus : Int} (hcells : PlainCells fdt bus) {a b : Nat}
    (ha : a < 2 ^ 64) (hrule : RuleMaps fdt bus a b) :
    CodeMaps fdt bus a b ↔ FirstWindowMaps fdt bus a b := by
  by_cases hnone : windows fdt bus = none
  · have hba : b = a := by
      simpa [RuleMaps, hnone] using hrule
    subst hba
    constructor
    · intro _ ranges hranges hlen
      exact absurd (windows_eq_none.1 hnone ranges hranges) hlen
    · intro _
      exact ⟨ha, fun addr => translate_identity hcells hnone _ addr⟩
  · obtain ⟨ranges, hranges, hlen⟩ : ∃ ranges, fdtGetprop fdt bus "ranges" = .ok ranges ∧
        ranges.len ≠ 0 := by
      simpa [windows_eq_none] using hnone
    constructor
    · rintro ⟨hb, hcode⟩ ranges' hranges' _
      obtain rfl : ranges' = ranges := Except.ok.inj (hranges'.symm.trans hranges)
      exact (translate_window hcells hranges hlen ha hb 0).1 (hcode 0)
    · intro hfirst
      have hw := hfirst ranges hranges hlen
      have hb : b < 2 ^ 64 := hw.2.2 ▸ Nat.mod_lt _ (by decide)
      exact ⟨hb, fun addr => (translate_window hcells hranges hlen ha hb addr).2 hw⟩

/-- With the same cell count above the bus and below, the first entry is read as it is. -/
theorem firstWindow_eq {fdt : Tree} {bus : Int}
    (hcells : fdtAddressCells fdt (fdtParentOffset fdt bus) = fdtAddressCells fdt bus)
    {w : Window} {ws : List Window} (hws : windows fdt bus = some (w :: ws)) {ranges : Property}
    (hranges : fdtGetprop fdt bus "ranges" = .ok ranges) (hlen : ranges.len ≠ 0) :
    firstWindow fdt bus ranges = w := by
  simp only [windows, hranges, if_neg hlen, hcells, Option.some.injEq] at hws
  cases hcount : ranges.len / 4 / ((fdtAddressCells fdt bus).toNat +
      (fdtAddressCells fdt bus).toNat + (fdtSizeCells fdt bus).toNat) with
  | zero => simp [hcount] at hws
  | succ n =>
    rw [hcount, List.range_succ_eq_map, List.map_cons] at hws
    have := (List.cons.inj hws).1
    rwa [Nat.zero_mul] at this

/-- An entry that is the first, with the same cell count above the bus and below, and sums
that fit into 64 bits satisfies `FirstWindowMaps`. -/
theorem firstWindowMaps_of_first {fdt : Tree} {bus : Int} {a b : Nat}
    (hcells : fdtAddressCells fdt (fdtParentOffset fdt bus) = fdtAddressCells fdt bus)
    {w : Window} (hfirst : ∃ ws, windows fdt bus = some (w :: ws)) (hmaps : w.Maps a b)
    (hsum : a + w.size < 2 ^ 64) (hb : b < 2 ^ 64) : FirstWindowMaps fdt bus a b := by
  intro ranges hranges hlen
  obtain ⟨ws, hws⟩ := hfirst
  obtain ⟨hchild, hend, rfl⟩ := hmaps
  simp only [firstWindow_eq hcells hws hranges hlen]
  refine ⟨hchild, ?_, ?_⟩
  · rw [Nat.mod_eq_of_lt hsum]
    omega
  · rw [Nat.mod_eq_of_lt hb]

/-! ## The walk to the root -/

theorem translateLoop_path {fdt : Tree} {a c : Nat} {bus : Int}
    (hpath : Chain (CodeMaps fdt) (pathFrom fdt bus) a c) (addr : UInt64)
    (haddr : bus < 0 → addr = UInt64.ofNat a) :
    (translateLoop fdt (UInt64.ofNat a) bus addr).value = UInt64.ofNat c := by
  generalize hbuses : pathFrom fdt bus = buses at hpath
  induction hpath generalizing bus addr with
  | nil a =>
    have hneg : bus < 0 := by
      by_contra h
      rw [pathFrom, dif_neg h] at hbuses
      exact List.cons_ne_nil _ _ hbuses
    rw [translateLoop, dif_pos hneg]
    exact haddr hneg
  | @cons i is a b c head tail ih =>
    have hpos : ¬bus < 0 := by
      intro h
      rw [pathFrom, dif_pos h] at hbuses
      exact List.cons_ne_nil _ _ hbuses.symm
    rw [pathFrom, dif_neg hpos] at hbuses
    obtain ⟨rfl, rfl⟩ := List.cons.inj hbuses
    rw [translateLoop, dif_neg hpos, value_bind, head.2 addr]
    simp only [ne_eq, not_true_eq_false, if_false]
    exact ih (UInt64.ofNat b) (fun _ => rfl) rfl

/-- Address and size of a complete entry of `reg`. -/
def regEntry (fdt : Tree) (node : Int) (index : Nat) : Option (Nat × Nat) :=
  match fdtGetprop fdt node "reg" with
  | .error _ => none
  | .ok reg =>
    let addrCells := (fdtAddressCells fdt (fdtParentOffset fdt node)).toNat
    let sizeCells := (fdtSizeCells fdt (fdtParentOffset fdt node)).toNat
    let first := index * (addrCells + sizeCells)
    if 4 * (first + addrCells + sizeCells) ≤ reg.len then
      some (reg.number first addrCells, reg.number (first + addrCells) sizeCells)
    else none

theorem regEntry_eq_some {fdt : Tree} {node : Int} {index a s : Nat}
    (hentry : regEntry fdt node index = some (a, s)) :
    ∃ (reg : Property) (ca cs : Nat), fdtGetprop fdt node "reg" = .ok reg ∧
      (fdtAddressCells fdt (fdtParentOffset fdt node)).toNat = ca ∧
      (fdtSizeCells fdt (fdtParentOffset fdt node)).toNat = cs ∧
      4 * (index * (ca + cs) + ca + cs) ≤ reg.len ∧
      reg.number (index * (ca + cs)) ca = a ∧ reg.number (index * (ca + cs) + ca) cs = s := by
  cases hreg : fdtGetprop fdt node "reg" with
  | error len => simp [regEntry, hreg] at hentry
  | ok reg =>
    simp only [regEntry, hreg, Option.ite_none_right_eq_some, Option.some.injEq,
      Prod.mk.injEq] at hentry
    obtain ⟨hlen, ha, hs⟩ := hentry
    exact ⟨reg, _, _, rfl, rfl, rfl, hlen, ha, hs⟩

theorem entryStart_inside {index ca cs len : Nat} (hca : 1 ≤ ca)
    (hfit : 4 * (index * (ca + cs) + ca + cs) ≤ len) (hlen : len < 2 ^ 31) :
    entryStart index ca cs = ((index * (ca + cs) : Nat) : Int) ∧
      ¬((len / 4 : Nat) : Int) ≤ ((index * (ca + cs) : Nat) : Int) % 2 ^ 64 := by
  refine ⟨entryStart_eq index ca cs (by omega) hlen, ?_⟩
  omega

theorem regEntry_lt {fdt : Tree} {node : Int} (hcells : PlainCells fdt (fdtParentOffset fdt node))
    {index a s : Nat} (hentry : regEntry fdt node index = some (a, s)) : a < 2 ^ 64 := by
  obtain ⟨reg, ca, cs, -, rfl, -, -, rfl, -⟩ := regEntry_eq_some hentry
  exact number_lt_word reg _ hcells.addr_le

/-- On a complete entry the function reads address and size and walks up from the parent. -/
theorem getNodeAddrSize_value {fdt : Tree} {node : Int} (hparent : ¬fdtParentOffset fdt node < 0)
    (hcells : PlainCells fdt (fdtParentOffset fdt node)) {index a s : Nat}
    (hentry : regEntry fdt node index = some (a, s)) (addr size : UInt64) :
    (fdtGetNodeAddrSize fdt node index (some addr) (some size)).value =
      ⟨0, some (translateLoop fdt (UInt64.ofNat a) (fdtParentOffset fdt node) addr).value,
        some (UInt64.ofNat s)⟩ := by
  have hnode : ¬(node < 0 ∨ (index : Int) < 0) := by
    rintro (h | h)
    · simp [fdtParentOffset, Tree.node?, h, FDT_ERR_BADOFFSET] at hparent
    · omega
  obtain ⟨ca, hca, hcaLe⟩ : ∃ ca : Nat, fdtAddressCells fdt (fdtParentOffset fdt node) = ca ∧
      1 ≤ ca ∧ ca ≤ 2 := by
    rcases hcells.addr with h | h
    · exact ⟨1, h, by decide⟩
    · exact ⟨2, h, by decide⟩
  obtain ⟨cs, hcs, hcsLe⟩ : ∃ cs : Nat, fdtSizeCells fdt (fdtParentOffset fdt node) = cs ∧
      cs ≤ 2 := by
    rcases hcells.size with h | h
    · exact ⟨1, h, by decide⟩
    · exact ⟨2, h, by decide⟩
  obtain ⟨reg, ca', cs', hreg, hca', hcs', hlen, rfl, rfl⟩ := regEntry_eq_some hentry
  rw [hca, Int.toNat_natCast] at hca'
  rw [hcs, Int.toNat_natCast] at hcs'
  subst hca' hcs'
  obtain ⟨hstart, hfits⟩ := entryStart_inside hcaLe.1 hlen reg.len_lt
  simp only [fdtGetNodeAddrSize, if_neg hnode, if_neg hparent, hca, hcs, hreg, hstart,
    if_neg hfits, show ¬(ca : Int) < 1 by omega, show ¬(cs : Int) < 0 by omega, if_false,
    value_bind, value_pure, value_map, Int.toNat_natCast]
  rw [readCells_value, readCells_value]

/-- `fdt_get_node_addr_size` follows the devicetree rule at every bus up to the root, and
returns its result, exactly when each bus of the translation satisfies
`FirstWindowMaps`. -/
theorem translation_follows_rule (fdt : Tree) (node : Int)
    (hparent : ¬fdtParentOffset fdt node < 0)
    (hcells : ∀ bus ∈ pathFrom fdt (fdtParentOffset fdt node), PlainCells fdt bus)
    (index a s : Nat) (hentry : regEntry fdt node index = some (a, s)) (c : Nat)
    (addr size : UInt64) :
    (Chain (fun bus x y => RuleMaps fdt bus x y ∧ CodeMaps fdt bus x y)
        (pathFrom fdt (fdtParentOffset fdt node)) a c ∧ c < 2 ^ 64 ∧
      (fdtGetNodeAddrSize fdt node index (some addr) (some size)).value =
        ⟨0, some (UInt64.ofNat c), some (UInt64.ofNat s)⟩) ↔
    Chain (fun bus x y => RuleMaps fdt bus x y ∧ FirstWindowMaps fdt bus x y)
      (pathFrom fdt (fdtParentOffset fdt node)) a c := by
  have hself : fdtParentOffset fdt node ∈ pathFrom fdt (fdtParentOffset fdt node) := by
    rw [pathFrom, dif_neg hparent]
    exact List.mem_cons_self
  have ha : a < 2 ^ 64 := regEntry_lt (hcells _ hself) hentry
  have hiff (bus : Int) (hbus : bus ∈ pathFrom fdt (fdtParentOffset fdt node)) {x y : Nat}
      (hx : x < 2 ^ 64) (hrule : RuleMaps fdt bus x y) :
      CodeMaps fdt bus x y ↔ FirstWindowMaps fdt bus x y := codeMaps_iff (hcells bus hbus) hx hrule
  constructor
  · rintro ⟨hchain, -, -⟩
    refine (hchain.mono (p := fun x => x < 2 ^ 64) ?_ ha).1
    intro bus hbus x y hx h
    exact ⟨⟨h.1, (hiff bus hbus hx h.1).1 h.2⟩, h.2.1⟩
  · intro hchain
    have hcode := hchain.mono (p := fun x => x < 2 ^ 64)
      (S := fun bus x y => RuleMaps fdt bus x y ∧ CodeMaps fdt bus x y) (by
        intro bus hbus x y hx h
        have hmaps := (hiff bus hbus hx h.1).2 h.2
        exact ⟨⟨h.1, hmaps⟩, hmaps.1⟩) ha
    refine ⟨hcode.1, hcode.2, ?_⟩
    have hwalk := (hcode.1.mono (p := fun _ => True) (S := CodeMaps fdt)
      (fun bus _ x y _ h => ⟨h.2, trivial⟩) trivial).1
    rw [getNodeAddrSize_value hparent (hcells _ hself) hentry,
      translateLoop_path hwalk addr (fun h => absurd h hparent)]

def oneCellEach : List Property :=
  [.ofBytes "#address-cells" (cellBytes [1]) (by decide),
    .ofBytes "#size-cells" (cellBytes [1]) (by decide)]

def twoRanges : Property :=
  .ofBytes "ranges" (cellBytes [0, 0x10000000, 0x1000, 0x4000, 0x20000000, 0x1000]) (by decide)

/-- A root, a bus with two windows and two devices below it, one in each window. -/
def twoWindows : Tree :=
  Tree.ofNodes
    [⟨none, oneCellEach⟩, ⟨some 0, oneCellEach ++ [twoRanges]⟩,
      ⟨some 1, [.ofBytes "reg" (cellBytes [0x100, 0x10]) (by decide)]⟩,
      ⟨some 1, [.ofBytes "reg" (cellBytes [0x4100, 0x10]) (by decide)]⟩]
    (by decide) (by decide)

theorem twoWindows_path : pathFrom twoWindows 1 = [1, 0] := by decide +kernel

theorem twoWindows_plain : ∀ bus ∈ pathFrom twoWindows 1, PlainCells twoWindows bus := by
  have hcells : ∀ bus ∈ [1, 0], (fdtAddressCells twoWindows bus = 1) ∧
      fdtSizeCells twoWindows bus = 1 := by
    decide +kernel
  rw [twoWindows_path]
  exact fun bus hbus => ⟨.inl (hcells bus hbus).1, .inl (hcells bus hbus).2⟩

theorem twoWindows_windows : windows twoWindows 1 =
    some [⟨0, 0x10000000, 0x1000⟩, ⟨0x4000, 0x20000000, 0x1000⟩] := by decide +kernel

theorem twoWindows_root : windows twoWindows 0 = none := by decide +kernel

theorem translation_follows_rule_sample :
    (fdtGetNodeAddrSize twoWindows 2 0 (some 0) (some 0)).value =
      ⟨0, some 0x10000100, some 0x10⟩ := by
  refine ((translation_follows_rule twoWindows 2 (by decide +kernel) twoWindows_plain 0 0x100 0x10
    (by decide +kernel) 0x10000100 0 0).2 ?_).2.2
  show Chain _ (pathFrom twoWindows 1) _ _
  rw [twoWindows_path]
  have hmaps : Window.Maps ⟨0, 0x10000000, 0x1000⟩ 0x100 0x10000100 := by
    simp [Window.Maps]
  refine .cons (b := 0x10000100) ⟨?_, ?_⟩ (.cons (b := 0x10000100) ⟨?_, ?_⟩ (.nil _))
  · rw [RuleMaps, twoWindows_windows]
    exact .window List.mem_cons_self hmaps
  · exact firstWindowMaps_of_first (by decide +kernel) ⟨_, twoWindows_windows⟩ hmaps (by decide)
      (by decide)
  · rw [RuleMaps, twoWindows_root]
    exact .identity _
  · intro ranges hranges hlen
    exact absurd (windows_eq_none.1 twoWindows_root ranges hranges) hlen

/-- The device in the second window is translated by the first one. -/
theorem second_window_ignored :
    (∀ bus ∈ pathFrom twoWindows 1, PlainCells twoWindows bus) ∧
      windows twoWindows 0 = none ∧ regEntry twoWindows 3 0 = some (0x4100, 0x10) ∧
      Chain (RuleMaps twoWindows) (pathFrom twoWindows (fdtParentOffset twoWindows 3))
        0x4100 0x20000100 ∧
      (fdtGetNodeAddrSize twoWindows 3 0 (some 0) (some 0)).value =
        ⟨0, some 0x10004100, some 0x10⟩ := by
  refine ⟨twoWindows_plain, twoWindows_root, by decide +kernel, ?_, by decide +kernel⟩
  show Chain _ (pathFrom twoWindows 1) _ _
  rw [twoWindows_path]
  refine .cons (b := 0x20000100) ?_ (.cons (b := 0x20000100) ?_ (.nil _))
  · rw [RuleMaps, twoWindows_windows]
    exact .window (List.mem_cons_of_mem _ List.mem_cons_self) (by simp [Window.Maps])
  · rw [RuleMaps, twoWindows_root]
    exact .identity _

end ZStage.Fdt
