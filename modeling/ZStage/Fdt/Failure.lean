import ZStage.Fdt.Translate

/-!
What becomes of a failed translation. The loop of `fdt_get_node_addr_size` leaves on a
failed step as it does behind the root, so the function returns 0 with `*addr` as the last
successful step left it (`FailsFrom`). It reports a failure where there is none
to report, that is where every step up to the root succeeds (`Translates`).
-/

namespace ZStage.Fdt

open ZStage.Lib.Trace

/-- `fdt_translate_address` at a bus takes `a` to `b` and returns 0. -/
def StepTo (fdt : Tree) (bus : Int) (a b : UInt64) : Prop :=
  ∀ addr, (fdtTranslateAddress fdt a bus addr).value = (0, b)

def StepFails (fdt : Tree) (bus : Int) (a : UInt64) : Prop :=
  ∀ addr, (fdtTranslateAddress fdt a bus addr).value.1 ≠ 0

/-- Every step from `bus` up to the root succeeds; together they take `a` to `c`. -/
inductive Translates (fdt : Tree) : Int → UInt64 → UInt64 → Prop
  | root {bus : Int} {a : UInt64} (h : bus < 0) : Translates fdt bus a a
  | step {bus : Int} {a b c : UInt64} (h : ¬bus < 0) (head : StepTo fdt bus a b)
      (tail : Translates fdt (fdtParentOffset fdt bus) b c) : Translates fdt bus a c

/-- A step on the way from `bus` up to the root fails, and leaves `left` behind the pointer
that held `addr`. -/
inductive FailsFrom (fdt : Tree) : Int → UInt64 → UInt64 → UInt64 → Prop
  | here {bus : Int} {a addr : UInt64} (h : ¬bus < 0) (head : StepFails fdt bus a) :
      FailsFrom fdt bus a addr addr
  | later {bus : Int} {a addr b left : UInt64} (h : ¬bus < 0) (head : StepTo fdt bus a b)
      (tail : FailsFrom fdt (fdtParentOffset fdt bus) b b left) : FailsFrom fdt bus a addr left

/-- The steps from `bus` on succeed up to a bus above it, where the step fails; the last
address that they led to is `b`. -/
inductive FailsAbove (fdt : Tree) : Int → UInt64 → UInt64 → Prop
  | next {bus : Int} {a b : UInt64} (h : ¬bus < 0) (head : StepTo fdt bus a b)
      (above : ¬fdtParentOffset fdt bus < 0)
      (fails : StepFails fdt (fdtParentOffset fdt bus) b) : FailsAbove fdt bus a b
  | later {bus : Int} {a b c : UInt64} (h : ¬bus < 0) (head : StepTo fdt bus a b)
      (tail : FailsAbove fdt (fdtParentOffset fdt bus) b c) : FailsAbove fdt bus a c

/-- A failed walk leaves what the pointer held, or the last translated address. -/
theorem failsFrom_iff {fdt : Tree} {bus : Int} {a addr left : UInt64} :
    FailsFrom fdt bus a addr left ↔
      ¬bus < 0 ∧ StepFails fdt bus a ∧ left = addr ∨ FailsAbove fdt bus a left := by
  constructor
  · intro hfails
    induction hfails with
    | here h head => exact Or.inl ⟨h, head, rfl⟩
    | later h head tail ih =>
      rcases ih with ⟨habove, hstep, rfl⟩ | htail
      · exact Or.inr (.next h head habove hstep)
      · exact Or.inr (.later h head htail)
  · rintro (⟨h, head, rfl⟩ | habove)
    · exact .here h head
    · induction habove generalizing addr with
      | next h head above fails => exact .later h head (.here above fails)
      | later h head tail ih => exact .later h head ih

theorem step_cases (fdt : Tree) (bus : Int) (a : UInt64) :
    (∃ b, StepTo fdt bus a b) ∨
      (StepFails fdt bus a ∧
        ∀ addr, (fdtTranslateAddress fdt a bus addr).value = (-ENODEV, addr)) := by
  cases hmaps : firstEntryMaps fdt bus a with
  | some b =>
    refine Or.inl ⟨b, fun addr => ?_⟩
    rw [translate_value, hmaps]
    rfl
  | none =>
    have hfail (addr : UInt64) :
        (fdtTranslateAddress fdt a bus addr).value = (-ENODEV, addr) := by
      rw [translate_value, hmaps]
      rfl
    refine Or.inr ⟨fun addr => ?_, hfail⟩
    rw [hfail addr]
    exact (by decide : -ENODEV ≠ 0)

theorem translateLoop_cases (fdt : Tree) (a : UInt64) (bus : Int) (addr : UInt64)
    (haddr : bus < 0 → addr = a) :
    Translates fdt bus a (translateLoop fdt a bus addr).value ∨
      FailsFrom fdt bus a addr (translateLoop fdt a bus addr).value := by
  induction a, bus, addr using translateLoop.induct fdt with
  | case1 a bus addr hneg =>
    rw [translateLoop, dif_pos hneg, value_pure, haddr hneg]
    exact Or.inl (.root hneg)
  | case2 a bus addr hpos ih =>
    rw [translateLoop, dif_neg hpos, value_bind]
    rcases step_cases fdt bus a with ⟨b, hstep⟩ | ⟨hfails, hstep⟩
    · simp only [hstep addr, ne_eq, not_true_eq_false, if_false]
      rcases ih (0, b) fun _ => rfl with htrans | hfail
      · exact Or.inl (.step hpos hstep htrans)
      · exact Or.inr (.later hpos hstep hfail)
    · have hne := hfails addr
      rw [hstep addr] at hne ⊢
      rw [if_pos hne]
      exact Or.inr (.here hpos hfails)

theorem StepTo.unique {fdt : Tree} {bus : Int} {a b b' : UInt64} (h : StepTo fdt bus a b)
    (h' : StepTo fdt bus a b') : b = b' :=
  congrArg Prod.snd ((h 0).symm.trans (h' 0))

theorem StepTo.not_fails {fdt : Tree} {bus : Int} {a b : UInt64} (h : StepTo fdt bus a b) :
    ¬StepFails fdt bus a := fun hfails => hfails 0 (congrArg Prod.fst (h 0))

theorem FailsFrom.not_translates {fdt : Tree} {bus : Int} {a addr left : UInt64}
    (h : FailsFrom fdt bus a addr left) : ¬∃ c, Translates fdt bus a c := by
  induction h with
  | here hpos hfails =>
    rintro ⟨c, hroot | ⟨-, hstep, -⟩⟩
    · exact hpos ‹_›
    · exact hstep.not_fails hfails
  | later hpos hstep tail ih =>
    rintro ⟨c, hroot | ⟨-, hstep', htail⟩⟩
    · exact hpos ‹_›
    · exact ih ⟨c, hstep.unique hstep' ▸ htail⟩

theorem FailsFrom.unique {fdt : Tree} {bus : Int} {a addr left left' : UInt64}
    (h : FailsFrom fdt bus a addr left) (h' : FailsFrom fdt bus a addr left') : left = left' := by
  induction h with
  | here hpos hfails =>
    cases h' with
    | here => rfl
    | later hpos' hstep => exact absurd hfails hstep.not_fails
  | later hpos hstep tail ih =>
    cases h' with
    | here hpos' hfails => exact absurd hfails hstep.not_fails
    | later hpos' hstep' tail' =>
      obtain rfl := hstep.unique hstep'
      exact ih tail'

theorem Translates.unique {fdt : Tree} {bus : Int} {a c c' : UInt64} (h : Translates fdt bus a c)
    (h' : Translates fdt bus a c') : c = c' := by
  induction h with
  | root hneg =>
    cases h' with
    | root => rfl
    | step hpos => exact absurd hneg hpos
  | step hpos hstep tail ih =>
    cases h' with
    | root hneg => exact absurd hneg hpos
    | step hpos' hstep' tail' =>
      obtain rfl := hstep.unique hstep'
      exact ih tail'

/-! ## The functions over the walk -/

/-- The address and size that `fdt_get_node_addr_size` reads from `reg`, where all of its
checks pass. -/
def readEntry (fdt : Tree) (node index : Int) : Option (UInt64 × UInt64) :=
  let parent := fdtParentOffset fdt node
  let cellAddr := fdtAddressCells fdt parent
  let cellSize := fdtSizeCells fdt parent
  if node < 0 ∨ index < 0 ∨ parent < 0 ∨ cellAddr < 1 ∨ cellSize < 0 then none else
  match fdtGetprop fdt node "reg" with
  | .error _ => none
  | .ok reg =>
    let start := entryStart index cellAddr cellSize
    if ((reg.len / 4 : Nat) : Int) ≤ start % 2 ^ 64 then none
    else some ((readCells reg start.toNat cellAddr.toNat 0).value,
      (readCells reg (start.toNat + cellAddr.toNat) cellSize.toNat 0).value)

theorem getNodeAddrSize_cases (fdt : Tree) (node index : Int) (addr : UInt64)
    (size : Option UInt64) :
    (readEntry fdt node index = none ∧
      ∃ rc < 0, (fdtGetNodeAddrSize fdt node index (some addr) size).value =
        ⟨rc, some addr, size⟩) ∨
    (∃ a s, readEntry fdt node index = some (a, s) ∧ 0 ≤ fdtParentOffset fdt node ∧
      (fdtGetNodeAddrSize fdt node index (some addr) size).value =
        ⟨0, some (translateLoop fdt a (fdtParentOffset fdt node) addr).value,
          size.map fun _ => s⟩) := by
  simp only [fdtGetNodeAddrSize, readEntry]
  by_cases hargs : node < 0 ∨ index < 0
  · refine Or.inl ⟨if_pos (by omega), -EINVAL, by decide, ?_⟩
    rw [if_pos hargs, value_pure]
  by_cases hparent : fdtParentOffset fdt node < 0
  · refine Or.inl ⟨if_pos (by omega), fdtParentOffset fdt node, hparent, ?_⟩
    rw [if_neg hargs, if_pos hparent, value_pure]
  by_cases hca : fdtAddressCells fdt (fdtParentOffset fdt node) < 1
  · refine Or.inl ⟨if_pos (by omega), -ENODEV, by decide, ?_⟩
    rw [if_neg hargs, if_neg hparent, if_pos hca, value_pure]
  by_cases hcs : fdtSizeCells fdt (fdtParentOffset fdt node) < 0
  · refine Or.inl ⟨if_pos (by omega), -ENODEV, by decide, ?_⟩
    rw [if_neg hargs, if_neg hparent, if_neg hca, if_pos hcs, value_pure]
  rw [if_neg hargs, if_neg hparent, if_neg hca, if_neg hcs,
    if_neg (show ¬(node < 0 ∨ index < 0 ∨ fdtParentOffset fdt node < 0 ∨
      fdtAddressCells fdt (fdtParentOffset fdt node) < 1 ∨
      fdtSizeCells fdt (fdtParentOffset fdt node) < 0) by omega)]
  cases hreg : fdtGetprop fdt node "reg" with
  | error len => exact Or.inl ⟨rfl, -ENODEV, by decide, rfl⟩
  | ok reg =>
    generalize entryStart index (fdtAddressCells fdt (fdtParentOffset fdt node))
      (fdtSizeCells fdt (fdtParentOffset fdt node)) = start
    by_cases hstart : ((reg.len / 4 : Nat) : Int) ≤ start % 2 ^ 64
    · refine Or.inl ⟨if_pos hstart, -EINVAL, by decide, ?_⟩
      simp only [if_pos hstart, value_pure]
    · refine Or.inr ⟨_, _, if_neg hstart, Int.not_lt.1 hparent, ?_⟩
      simp only [if_neg hstart]
      cases size with
      | none => rfl
      | some s => rfl

/-- A failed step is reported and changes nothing; 0 comes with the address that the steps
up to the root lead to. -/
structure ReportsFailure (fdt : Tree) (node index : Int) (addr : UInt64) (size : Option UInt64)
    (out : AddrSize) : Prop where
  failed : ∀ a s left, readEntry fdt node index = some (a, s) →
    FailsFrom fdt (fdtParentOffset fdt node) a addr left →
      out.rc ≠ 0 ∧ out.addr = some addr ∧ out.size = size
  ok : out.rc = 0 → ∃ a s c, readEntry fdt node index = some (a, s) ∧
    Translates fdt (fdtParentOffset fdt node) a c ∧ out.addr = some c

/-- A filled `platform_uart_data` has the fully translated address; else it is as it was. -/
def UartTranslated (fdt : Tree) (node : Int) (uart : PlatformUartData)
    (out : Int × PlatformUartData) : Prop :=
  out = (-ENODEV, uart) ∨ (out.1 = 0 ∧ ∃ a s, readEntry fdt node 0 = some (a, s) ∧
    Translates fdt (fdtParentOffset fdt node) a out.2.addr)

theorem reportsFailure_iff (fdt : Tree) (node index : Int) (addr : UInt64)
    (size : Option UInt64) :
    ReportsFailure fdt node index addr size
        (fdtGetNodeAddrSize fdt node index (some addr) size).value ↔
      ∀ a s, readEntry fdt node index = some (a, s) →
        ∃ c, Translates fdt (fdtParentOffset fdt node) a c := by
  rcases getNodeAddrSize_cases fdt node index addr size with
    ⟨hnone, rc, hrc, hvalue⟩ | ⟨a, s, hsome, hparent, hvalue⟩
  · rw [hvalue]
    refine iff_of_true ⟨?_, fun hzero => ?_⟩ ?_
    · intro a s left hread
      rw [hnone] at hread
      cases hread
    · exact absurd hzero (Int.ne_of_lt hrc)
    · intro a s hread
      rw [hnone] at hread
      cases hread
  · rw [hvalue]
    rcases translateLoop_cases fdt a (fdtParentOffset fdt node) addr
      (fun hneg => absurd hneg (Int.not_lt.2 hparent)) with htrans | hfail
    · refine iff_of_true ⟨?_, fun _ => ⟨a, s, _, hsome, htrans, rfl⟩⟩ ?_
      · intro a' s' left hread hfail
        cases hsome.symm.trans hread
        exact absurd ⟨_, htrans⟩ hfail.not_translates
      · intro a' s' hread
        cases hsome.symm.trans hread
        exact ⟨_, htrans⟩
    · refine iff_of_false ?_ ?_
      · intro hreports
        exact absurd rfl (hreports.failed a s _ hsome hfail).1
      · intro hall
        exact hfail.not_translates (hall a s hsome)

theorem uartTranslated_left (fdt : Tree) (node : Int) (regAddr regSize : UInt64)
    (uart : PlatformUartData) :
    UartTranslated fdt node uart (fdtParseUartNode fdt node regAddr regSize uart).value ↔
      ∀ a s left, readEntry fdt node 0 = some (a, s) →
        FailsFrom fdt (fdtParentOffset fdt node) a regAddr left → left = 0 ∨ s = 0 := by
  by_cases hnode : node < 0
  · rw [fdtParseUartNode, if_pos hnode]
    refine iff_of_true (Or.inl rfl) fun a s left hread => ?_
    rw [readEntry, if_pos (by omega)] at hread
    cases hread
  simp only [fdtParseUartNode, if_neg hnode, value_bind]
  rcases getNodeAddrSize_cases fdt node 0 regAddr (some regSize) with
    ⟨hnone, rc, hrc, hvalue⟩ | ⟨a, s, hsome, hparent, hvalue⟩
  · rw [hvalue, if_pos (Or.inl hrc)]
    refine iff_of_true (Or.inl rfl) fun a s left hread => ?_
    rw [hnone] at hread
    cases hread
  · have hloop := translateLoop_cases fdt a (fdtParentOffset fdt node) regAddr
      (fun hneg => absurd hneg (Int.not_lt.2 hparent))
    rw [hvalue]
    generalize (translateLoop fdt a (fdtParentOffset fdt node) regAddr).value = left at hloop
    simp only [Option.map_some, Option.some.injEq, Int.lt_irrefl, false_or, Option.getD_some]
    by_cases hzero : left = 0 ∨ s = 0
    · rw [if_pos hzero]
      refine iff_of_true (Or.inl rfl) fun a' s' left' hread hfail => ?_
      cases hsome.symm.trans hread
      rcases hloop with htrans | hfail'
      · exact absurd ⟨_, htrans⟩ hfail.not_translates
      · exact hfail.unique hfail' ▸ hzero
    · rw [if_neg hzero]
      rcases hloop with htrans | hfail
      · refine iff_of_true (Or.inr ⟨rfl, a, s, hsome, htrans⟩) ?_
        intro a' s' left' hread hfail
        cases hsome.symm.trans hread
        exact absurd ⟨_, htrans⟩ hfail.not_translates
      · refine iff_of_false ?_ fun hall => hzero (hall a s left hsome hfail)
        rintro (heq | ⟨-, a', s', hread, htrans⟩)
        · exact absurd (congrArg Prod.fst heq) (by decide : (0 : Int) ≠ -ENODEV)
        · cases hsome.symm.trans hread
          exact hfail.not_translates ⟨_, htrans⟩

theorem readEntry_parent {fdt : Tree} {node index : Int} {a s : UInt64}
    (h : readEntry fdt node index = some (a, s)) : ¬fdtParentOffset fdt node < 0 := by
  intro hparent
  rw [readEntry, if_pos (Or.inr (Or.inr (Or.inl hparent)))] at h
  cases h

/-- By where the walk fails: the local then holds what it held before the call if that is at
the first bus, else the last translated address. -/
theorem uartTranslated_iff (fdt : Tree) (node : Int) (regAddr regSize : UInt64)
    (uart : PlatformUartData) :
    UartTranslated fdt node uart (fdtParseUartNode fdt node regAddr regSize uart).value ↔
      ∀ a s, readEntry fdt node 0 = some (a, s) →
        (StepFails fdt (fdtParentOffset fdt node) a → regAddr = 0 ∨ s = 0) ∧
          ∀ b, FailsAbove fdt (fdtParentOffset fdt node) a b → b = 0 ∨ s = 0 := by
  rw [uartTranslated_left]
  constructor
  · intro hall a s hread
    refine ⟨fun hfails => ?_, fun b habove => ?_⟩
    · exact hall a s regAddr hread (.here (readEntry_parent hread) hfails)
    · exact hall a s b hread (failsFrom_iff.2 (Or.inr habove))
  · intro hall a s left hread hfails
    rcases failsFrom_iff.1 hfails with ⟨-, hstep, rfl⟩ | habove
    · exact (hall a s hread).1 hstep
    · exact (hall a s hread).2 left habove

/-- A failed translation is reported exactly where there is none to report: every step up to
the root succeeds. A UART is filled with a fully translated address only, exactly where
in addition a failed walk leaves a zero behind, or the size is zero. -/
theorem failure_reported_iff (fdt : Tree) (node : Int) :
    (∀ index addr size, ReportsFailure fdt node index addr size
        (fdtGetNodeAddrSize fdt node index (some addr) size).value ↔
      ∀ a s, readEntry fdt node index = some (a, s) →
        ∃ c, Translates fdt (fdtParentOffset fdt node) a c) ∧
    (∀ regAddr regSize uart, UartTranslated fdt node uart
        (fdtParseUartNode fdt node regAddr regSize uart).value ↔
      ∀ a s, readEntry fdt node 0 = some (a, s) →
        (StepFails fdt (fdtParentOffset fdt node) a → regAddr = 0 ∨ s = 0) ∧
          ∀ b, FailsAbove fdt (fdtParentOffset fdt node) a b → b = 0 ∨ s = 0) :=
  ⟨fun index addr size => reportsFailure_iff fdt node index addr size,
    fun regAddr regSize uart => uartTranslated_iff fdt node regAddr regSize uart⟩

def rangesFrom1000 : Property :=
  .ofBytes "ranges" (cellBytes [0x1000, 0x10000000, 0x1000]) (by decide)

def regAt50 : Property := .ofBytes "reg" (cellBytes [0x50, 0x10]) (by decide)

/-- A device at 0x50 on a bus whose window starts at 0x1000. -/
def outsideWindow : Tree :=
  Tree.ofNodes
    [⟨none, oneCellEach⟩, ⟨some 0, oneCellEach ++ [rangesFrom1000]⟩, ⟨some 1, [regAt50]⟩]
    (by decide) (by decide)

theorem outsideWindow_read : readEntry outsideWindow 2 0 = some (0x50, 0x10) := by
  decide +kernel

theorem outsideWindow_fails (addr : UInt64) :
    FailsFrom outsideWindow (fdtParentOffset outsideWindow 2) 0x50 addr addr := by
  have hparent : fdtParentOffset outsideWindow 2 = 1 := by decide +kernel
  have hmaps : firstEntryMaps outsideWindow 1 0x50 = none := by decide +kernel
  rw [hparent]
  refine .here (by decide) fun left => ?_
  rw [translate_value, hmaps]
  exact (by decide : -ENODEV ≠ 0)

/-- The failed translation is returned as 0 with what `*addr` held, and the UART gets that
address. -/
theorem failure_not_reported :
    (fdtGetNodeAddrSize outsideWindow 2 0 (some 0xdead) (some 0)).value =
        ⟨0, some 0xdead, some 0x10⟩ ∧
      ¬ReportsFailure outsideWindow 2 0 0xdead (some 0)
        (fdtGetNodeAddrSize outsideWindow 2 0 (some 0xdead) (some 0)).value ∧
      ¬UartTranslated outsideWindow 2 ⟨0, 0, 0, 0, 0⟩
        (fdtParseUartNode outsideWindow 2 0xdead 0 ⟨0, 0, 0, 0, 0⟩).value := by
  refine ⟨by decide +kernel, ?_, ?_⟩
  · rw [reportsFailure_iff]
    exact fun hall => (outsideWindow_fails 0).not_translates (hall _ _ outsideWindow_read)
  · rw [uartTranslated_left]
    intro hall
    rcases hall _ _ _ outsideWindow_read (outsideWindow_fails 0xdead) with h | h
    · exact absurd h (by decide)
    · exact absurd h (by decide)

end ZStage.Fdt
