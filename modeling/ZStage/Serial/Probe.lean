import ZStage.Serial.FdtSerial

/-!
The console probe under an assignment of init results: each driver answers 0 or
`-ENODEV` on a node, and registers its device when it answers 0. One lemma says what a
probe loop does (`probeLoop_outcome`): it selects the first driver whose candidate
accepts, and changes nothing of the console otherwise. The fallback loop has one
candidate for each driver, the node that `fdt_find_match` returns, so it is complete
exactly when one of these candidates is usable.
-/

namespace ZStage.Serial

open ZStage.Lib.Trace ZStage.Fdt

variable {Dev : Type}

/-- A driver with its answer on each node, and the device that it registers there. -/
structure RegisteringDriver (Dev : Type) where
  matchTable : MatchTable
  result : Int → Int
  dev : Int → Dev

def RegisteringDriver.toFdtSerial (d : RegisteringDriver Dev) : FdtSerial Dev where
  matchTable := d.matchTable
  init := some fun _ node _ con =>
    (d.result node,
      if d.result node = 0 then zstageConsoleSetDevice con (some (d.dev node)) else con)

@[simp] theorem RegisteringDriver.toFdtSerial_matchTable (d : RegisteringDriver Dev) :
    d.toFdtSerial.matchTable = d.matchTable := rfl

@[simp] theorem RegisteringDriver.toFdtSerial_init (d : RegisteringDriver Dev) :
    d.toFdtSerial.init = some fun _ node _ con =>
      (d.result node,
        if d.result node = 0 then zstageConsoleSetDevice con (some (d.dev node)) else con) := rfl

/-- One that answers 0 or `-ENODEV`. -/
structure AssignedDriver (Dev : Type) extends RegisteringDriver Dev where
  result_mem : ∀ node, result node = 0 ∨ result node = -ENODEV

theorem setDevice_isSome (con : Console Dev) (dev : Dev) :
    (zstageConsoleSetDevice con (some dev)).consoleDev.isSome := by
  simp only [zstageConsoleSetDevice, Option.isNone_some, Bool.false_eq_true, false_or]
  split
  · assumption
  · rfl

/-- The driver accepts its candidate. -/
def Accepts (candidate : FdtSerial Dev → Option (Int × FdtMatch)) (d : AssignedDriver Dev) : Prop :=
  ∃ noff m, candidate d.toFdtSerial = some (noff, m) ∧ d.result noff = 0

/-- A probe loop returns nothing early. It selects a driver and leaves a console device
registered if a driver accepts its candidate, and keeps selection and console if none does. -/
theorem probeLoop_outcome (fdt : Tree) (candidate : FdtSerial Dev → Option (Int × FdtMatch))
    (ds : List (AssignedDriver Dev)) (pos : Nat) (st : SerialState Dev) :
    let out := probeLoop fdt candidate (ds.map fun d => d.toFdtSerial) pos st
    out.1 = none ∧
      ((∃ d ∈ ds, Accepts candidate d) ∧ out.2.currentDriver.isSome ∧
          out.2.console.consoleDev.isSome ∨
        (∀ d ∈ ds, ¬Accepts candidate d) ∧ out.2.currentDriver = st.currentDriver ∧
          out.2.console = st.console) := by
  induction ds generalizing pos st with
  | nil => exact ⟨rfl, Or.inr ⟨fun d hd => absurd hd List.not_mem_nil, rfl, rfl⟩⟩
  | cons d rest ih =>
    -- the rest of the loop runs on a state with the same selection and console
    have hskip (st' : SerialState Dev) (hcur : st'.currentDriver = st.currentDriver)
        (hcon : st'.console = st.console) (hno : ¬Accepts candidate d) :
        let out := probeLoop fdt candidate (rest.map fun d => d.toFdtSerial) (pos + 1) st'
        out.1 = none ∧
          ((∃ d' ∈ d :: rest, Accepts candidate d') ∧ out.2.currentDriver.isSome ∧
              out.2.console.consoleDev.isSome ∨
            (∀ d' ∈ d :: rest, ¬Accepts candidate d') ∧
              out.2.currentDriver = st.currentDriver ∧ out.2.console = st.console) := by
      obtain ⟨hret, hout⟩ := ih (pos + 1) st'
      refine ⟨hret, ?_⟩
      rcases hout with ⟨⟨d', hd', hacc⟩, hsel⟩ | ⟨hnone, hcur', hcon'⟩
      · exact Or.inl ⟨⟨d', List.mem_cons_of_mem _ hd', hacc⟩, hsel⟩
      · exact Or.inr ⟨List.forall_mem_cons.2 ⟨hno, hnone⟩, hcur'.trans hcur, hcon'.trans hcon⟩
    cases hcand : candidate d.toFdtSerial with
    | none =>
      simp only [List.map_cons, probeLoop, hcand]
      exact hskip st rfl rfl fun ⟨noff, m, h, _⟩ => by simp [hcand] at h
    | some found =>
      obtain ⟨noff, m⟩ := found
      rcases d.result_mem noff with hres | hres
      · have haccepts : Accepts candidate d := ⟨noff, m, hcand, hres⟩
        simp only [List.map_cons, probeLoop, hcand, d.toFdtSerial_init, hres, ENODEV]
        exact ⟨rfl, Or.inl ⟨⟨d, List.mem_cons_self, haccepts⟩, rfl, setDevice_isSome _ _⟩⟩
      · have hne : d.result noff ≠ 0 := by rw [hres]; decide
        simp only [List.map_cons, probeLoop, hcand, d.toFdtSerial_init, hres, if_true]
        refine hskip _ rfl (by simp [ENODEV]) ?_
        rintro ⟨noff', m', h, hzero⟩
        rw [hcand] at h
        cases h
        exact hne hzero

/-- Some driver is compatible with a node of the tree and accepts it. -/
def SomeUsable (fdt : Tree) (ds : List (AssignedDriver Dev)) : Prop :=
  ∃ d ∈ ds, ∃ node < fdt.nodes.length, ∃ m ∈ d.matchTable, Compatible fdt node m ∧
    d.result node = 0

/-- Some driver accepts the first node compatible with the earliest entry of its table that
any node is compatible with. -/
def FirstUsable (fdt : Tree) (ds : List (AssignedDriver Dev)) : Prop :=
  ∃ d ∈ ds, ∃ node m, FirstCandidate fdt d.matchTable node m ∧ d.result node = 0

/-- No driver is compatible with the node of stdout-path and accepts it. -/
def StdoutUnusable (fdt : Tree) (ds : List (AssignedDriver Dev)) (noff : Int) : Prop :=
  ∀ d ∈ ds, ∀ m, fdtMatchNode fdt noff d.matchTable = some m → d.result noff ≠ 0

def Probed (out : Int × SerialState Dev) : Prop :=
  out.1 = 0 ∧ out.2.currentDriver.isSome ∧ out.2.console.consoleDev.isSome

theorem accepts_fallback_iff (fdt : Tree) (d : AssignedDriver Dev) :
    Accepts (fun drv : FdtSerial Dev =>
        let found := fdtFindMatch fdt (-1) none drv.matchTable
        if found.1 < 0 then none else found.2.map fun m => (found.1, m)) d ↔
      ∃ node m, FirstCandidate fdt d.matchTable node m ∧ d.result node = 0 := by
  simp only [Accepts, d.toFdtSerial_matchTable]
  rcases findMatch_root fdt none d.matchTable with ⟨node, m, hcand, hfind⟩ | ⟨hnone, hfind⟩
  · have hpos : ¬(node : Int) < 0 := by omega
    simp only [hfind, if_neg hpos, Option.map_some]
    constructor
    · rintro ⟨noff, m', h, hres⟩
      cases h
      exact ⟨node, m, hcand, hres⟩
    · rintro ⟨node', m', hcand', hres⟩
      obtain ⟨rfl, rfl⟩ := hcand.unique hcand'
      exact ⟨node, m, rfl, hres⟩
  · simp only [hfind, ENODEV]
    constructor
    · rintro ⟨noff, m', h, -⟩
      cases h
    · rintro ⟨node, m, hcand, -⟩
      exact absurd hcand.compatible.2 (hnone m hcand.compatible.1 node hcand.lt)

theorem stdoutProbe_unusable {fdt : Tree} {ds : List (AssignedDriver Dev)} {noff : Int}
    (hstdout : StdoutUnusable fdt ds noff) (st : SerialState Dev) :
    let out := stdoutProbe fdt (ds.map fun d => d.toFdtSerial) noff st
    out.1 = none ∧ out.2.currentDriver = st.currentDriver ∧ out.2.console = st.console := by
  by_cases hnoff : -1 < noff
  · simp only [stdoutProbe, if_pos hnoff]
    obtain ⟨hret, ⟨⟨d, hd, noff', m, hcand, hres⟩, -⟩ | ⟨-, hcur, hcon⟩⟩ :=
      probeLoop_outcome fdt (fun drv => (fdtMatchNode fdt noff drv.matchTable).map
        fun m => (noff, m)) ds 0 st
    · obtain ⟨m', hmatch, heq⟩ := Option.map_eq_some_iff.1 hcand
      cases heq
      exact absurd hres (hstdout d hd m hmatch)
    · exact ⟨hret, hcur, hcon⟩
  · simp [stdoutProbe, if_neg hnoff]

theorem serialInit_fallback (pathOffset : List UInt8 → Int) (fdt : Tree)
    (ds : List (AssignedDriver Dev)) (st : SerialState Dev)
    (hcur : st.currentDriver = none)
    (hstdout : StdoutUnusable fdt ds (stdoutNode pathOffset fdt).value) :
    Probed (fdtSerialInit pathOffset fdt (ds.map fun d => d.toFdtSerial) st).value ↔
      FirstUsable fdt ds := by
  obtain ⟨hret, hcur', hcon'⟩ := stdoutProbe_unusable hstdout st
  have hdummy : ¬(stdoutProbe fdt (ds.map fun d => d.toFdtSerial)
      (stdoutNode pathOffset fdt).value st).2.currentDriver.isSome := by
    simp [hcur', hcur]
  simp only [fdtSerialInit, value_bind, hret, if_neg hdummy, value_pure]
  generalize stdoutProbe fdt (ds.map fun d => d.toFdtSerial)
    (stdoutNode pathOffset fdt).value st = first at *
  obtain ⟨hlast, ⟨⟨d, hd, hacc⟩, hsel, hdev⟩ | ⟨hnone, hsel, hdev⟩⟩ :=
    probeLoop_outcome fdt (fun drv : FdtSerial Dev =>
      let found := fdtFindMatch fdt (-1) none drv.matchTable
      if found.1 < 0 then none else found.2.map fun m => (found.1, m)) ds 0 first.2
  · exact iff_of_true ⟨by simp [fallbackProbe, hlast], hsel, hdev⟩
      ⟨d, hd, (accepts_fallback_iff fdt d).1 hacc⟩
  · refine iff_of_false ?_ ?_
    · rintro ⟨-, hsome, -⟩
      rw [fallbackProbe, hsel, hcur', hcur] at hsome
      cases hsome
    · rintro ⟨d, hd, hcand⟩
      exact hnone d hd ((accepts_fallback_iff fdt d).2 hcand)

/-- The fallback probe is complete, exactly when a usable node is only ever there together
with a usable first candidate. -/
theorem fallback_probe_iff (pathOffset : List UInt8 → Int) (fdt : Tree)
    (ds : List (AssignedDriver Dev)) (st : SerialState Dev)
    (hcur : st.currentDriver = none)
    (hstdout : StdoutUnusable fdt ds (stdoutNode pathOffset fdt).value) :
    (SomeUsable fdt ds →
        Probed (fdtSerialInit pathOffset fdt (ds.map fun d => d.toFdtSerial) st).value) ↔
      (SomeUsable fdt ds → FirstUsable fdt ds) := by
  rw [serialInit_fallback pathOffset fdt ds st hcur hstdout]

def ns16550 : Property := .ofBytes "compatible" (cstr "ns16550" ++ [0]) (by decide)

/-- Two `ns16550` nodes below the root, and no `/chosen`. -/
def twoUarts : Tree :=
  Tree.ofNodes [⟨none, []⟩, ⟨some 0, [ns16550]⟩, ⟨some 0, [ns16550]⟩] (by decide) (by decide)

/-- The three drivers of the firmware, of which the 8250 driver accepts one node. -/
def driversAccepting (node : Int) : List (AssignedDriver Unit) :=
  [⟨⟨serialCadenceMatch, fun _ => -ENODEV, fun _ => ()⟩, fun _ => .inr rfl⟩,
    ⟨⟨serialUart8250Match, fun n => if n = node then 0 else -ENODEV, fun _ => ()⟩,
      fun n => by by_cases h : n = node <;> simp [h]⟩,
    ⟨⟨serialHtifMatch, fun _ => -ENODEV, fun _ => ()⟩, fun _ => .inr rfl⟩]

theorem twoUarts_compatible : Compatible twoUarts 1 ⟨cstr "ns16550"⟩ ∧
    Compatible twoUarts 2 ⟨cstr "ns16550"⟩ ∧ ¬Compatible twoUarts 0 ⟨cstr "ns16550"⟩ := by
  simp only [Compatible]
  decide +kernel

theorem twoUarts_stdout (drivers : List (AssignedDriver Unit)) :
    StdoutUnusable twoUarts drivers (stdoutNode (fun _ => -FDT_ERR_NOTFOUND) twoUarts).value := by
  intro d _ m hmatch
  simp [stdoutNode, FDT_ERR_NOTFOUND, fdtMatchNode] at hmatch

theorem fallback_probe_iff_sample :
    Probed (fdtSerialInit (fun _ => -FDT_ERR_NOTFOUND) twoUarts
      ((driversAccepting 1).map fun d => d.toFdtSerial) ⟨⟨none⟩, none, []⟩).value := by
  obtain ⟨hfirst, -, hroot⟩ := twoUarts_compatible
  have hmem : (driversAccepting 1)[1] ∈ driversAccepting 1 := List.getElem_mem _
  have hcand : FirstCandidate twoUarts (driversAccepting 1)[1].matchTable 1 ⟨cstr "ns16550"⟩ :=
    .here (by decide) hfirst fun i hi => Nat.lt_one_iff.1 hi ▸ hroot
  refine (fallback_probe_iff _ twoUarts (driversAccepting 1) ⟨⟨none⟩, none, []⟩ rfl
    (twoUarts_stdout _)).2 (fun _ => ⟨_, hmem, 1, _, hcand, rfl⟩) ?_
  exact ⟨_, hmem, 1, hcand.lt, _, hcand.compatible.1, hfirst, rfl⟩

/-- The 8250 driver would accept the second node, but is only tried on the first. -/
theorem second_node_not_tried :
    StdoutUnusable twoUarts (driversAccepting 2)
        (stdoutNode (fun _ => -FDT_ERR_NOTFOUND) twoUarts).value ∧
      SomeUsable twoUarts (driversAccepting 2) ∧
      (fdtSerialInit (fun _ => -FDT_ERR_NOTFOUND) twoUarts
        ((driversAccepting 2).map fun d => d.toFdtSerial) ⟨⟨none⟩, none, []⟩).value =
          (0, ⟨⟨none⟩, none, [⟨1, 1, -ENODEV⟩]⟩) := by
  obtain ⟨-, hsecond, -⟩ := twoUarts_compatible
  have hmem : (driversAccepting 2)[1] ∈ driversAccepting 2 := List.getElem_mem _
  exact ⟨twoUarts_stdout _, ⟨_, hmem, 2, by decide, _, List.mem_cons_self, hsecond, rfl⟩,
    by decide +kernel⟩

end ZStage.Serial
