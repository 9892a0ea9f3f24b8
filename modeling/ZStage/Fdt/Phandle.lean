import ZStage.Fdt.InBounds

/-!
Phandle lists. An entry is a phandle and as many argument cells as the node that it
names asks for; a list is the concatenation of its entries. What
`fdt_parse_phandle_with_args` returns is compared with the entries from both sides: it
decodes every concatenation, and what it decodes is the start of one.
-/

namespace ZStage.Fdt

open ZStage.Lib.Trace

/-- An entry of a phandle list, with the node that its phandle resolves to and the
arguments that this node asks for. -/
structure PhandleEntry (fdt : Tree) (cellsProp : String) where
  phandle : UInt32
  nodeOffset : Int
  args : List UInt32
  resolves : fdtNodeOffsetByPhandle fdt phandle = nodeOffset
  found : 0 ≤ nodeOffset
  counted : ∃ val, fdtGetprop fdt nodeOffset cellsProp = .ok val ∧
    (val.cell 0).toNat = args.length
  fits : args.length ≤ FDT_MAX_PHANDLE_ARGS

section Entries

variable {fdt : Tree} {cellsProp : String}

def PhandleEntry.cells (e : PhandleEntry fdt cellsProp) : List UInt32 := e.phandle :: e.args

/-- The cells of a list of entries. -/
def encodeEntries (es : List (PhandleEntry fdt cellsProp)) : List UInt32 :=
  es.flatMap PhandleEntry.cells

/-- The entry as `*out_args` presents it; arguments that it does not have keep their place. -/
def PhandleEntry.into (e : PhandleEntry fdt cellsProp) (outArgs : FdtPhandleArgs) :
    FdtPhandleArgs where
  nodeOffset := e.nodeOffset
  argsCount := e.args.length
  args k := e.args[k.val]?.getD (outArgs.args k)

end Entries

/-- The cells stand in the value from cell `pos` on. -/
def Spells (list : Property) (pos : Nat) (cells : List UInt32) : Prop :=
  ∀ i c, cells[i]? = some c → list.cell (pos + i) = c

theorem spells_append (list : Property) (pos : Nat) (xs ys : List UInt32) :
    Spells list pos (xs ++ ys) ↔ Spells list pos xs ∧ Spells list (pos + xs.length) ys := by
  constructor
  · intro h
    constructor
    · intro i c hc
      apply h i c
      rw [List.getElem?_append_left (List.getElem?_eq_some_iff.1 hc).1, hc]
    · intro i c hc
      rw [Nat.add_assoc]
      apply h (xs.length + i) c
      rw [List.getElem?_append_right (Nat.le_add_right _ _), Nat.add_sub_cancel_left, hc]
  · rintro ⟨hxs, hys⟩ i c hc
    rcases Nat.lt_or_ge i xs.length with hlt | hge
    · rw [List.getElem?_append_left hlt] at hc
      exact hxs i c hc
    · rw [List.getElem?_append_right hge] at hc
      have hcell := hys (i - xs.length) c hc
      rwa [show pos + xs.length + (i - xs.length) = pos + i by omega] at hcell

theorem spells_cons (list : Property) (pos : Nat) (x : UInt32) (xs : List UInt32) :
    Spells list pos (x :: xs) ↔ list.cell pos = x ∧ Spells list (pos + 1) xs := by
  have happ := spells_append list pos [x] xs
  rw [List.singleton_append, List.length_singleton] at happ
  rw [happ]
  refine and_congr_left fun _ => ?_
  constructor
  · intro h
    exact h 0 x rfl
  · rintro h i c hc
    obtain ⟨hi, rfl⟩ := List.getElem?_eq_some_iff.1 hc
    rw [List.length_singleton] at hi
    obtain rfl : i = 0 := by omega
    exact h

/-! ## One round of the loop -/

section Loop

variable (fdt : Tree) (cellsProp : String) (list : Property) (outArgs : FdtPhandleArgs)

theorem readArgs_value (pos pcells i : Nat) (args : Fin FDT_MAX_PHANDLE_ARGS → UInt32)
    (k : Fin FDT_MAX_PHANDLE_ARGS) :
    (readArgs list pos pcells i args).value k =
      if i ≤ k.val ∧ k.val < pcells then list.cell (pos + k.val) else args k := by
  by_cases hlt : i < pcells
  · have hrest := readArgs_value pos pcells (i + 1)
      (fun k => if k.val = i then list.cell (pos + i) else args k) k
    rw [readArgs, if_pos hlt, readCell, value_emit_bind, hrest]
    by_cases hk : k.val = i
    · rw [if_neg (by omega), if_pos hk, if_pos (by omega), hk]
    · by_cases hin : i ≤ k.val ∧ k.val < pcells
      · rw [if_pos (by omega), if_pos hin]
      · rw [if_neg (by omega), if_neg hk, if_neg hin]
  · rw [readArgs, if_neg hlt, value_pure, if_neg (by omega)]
termination_by pcells - i

theorem phandleLoop_end {pos : Nat} (index : Int) (h : list.len / 4 ≤ pos) :
    (phandleLoop fdt list cellsProp outArgs pos index).value = (-ENOENT, outArgs) := by
  rw [phandleLoop, if_neg (Nat.not_lt.2 h)]
  rfl

theorem phandleLoop_entry (e : PhandleEntry fdt cellsProp) {pos : Nat} (index : Int)
    (hcells : Spells list pos e.cells) (hfit : pos + e.cells.length ≤ list.len / 4) :
    (phandleLoop fdt list cellsProp outArgs pos index).value =
      if 0 < index then
        (phandleLoop fdt list cellsProp outArgs (pos + e.cells.length) (index - 1)).value
      else (0, e.into outArgs) := by
  obtain ⟨val, hval, hcount⟩ := e.counted
  obtain ⟨hphandle, hargs⟩ := (spells_cons list pos e.phandle e.args).1 hcells
  have hlen : e.cells.length = e.args.length + 1 := rfl
  have hmax := e.fits
  have hpos : pos < list.len / 4 := by omega
  rw [phandleLoop, if_pos hpos]
  simp only [readCell, value_emit_bind, hphandle, e.resolves, if_neg (Int.not_lt.2 e.found), hval,
    hcount, if_neg (Nat.not_lt.2 hmax),
    if_neg (show ¬ list.len / 4 < pos + 1 + e.args.length by omega)]
  split
  · rw [show pos + e.cells.length = pos + 1 + e.args.length by omega]
  · rw [value_bind, value_pure, PhandleEntry.into]
    congr 2
    funext k
    rw [readArgs_value]
    by_cases hk : k.val < e.args.length
    · have harg := List.getElem?_eq_getElem hk
      rw [if_pos ⟨Nat.zero_le _, hk⟩, harg, hargs k.val _ harg, Option.getD_some]
    · rw [if_neg (fun h => hk h.2), List.getElem?_eq_none (Nat.not_lt.1 hk), Option.getD_none]

/-- Where the loop does not find an entry, it fails and leaves `*out_args` alone. -/
theorem phandleLoop_cases (pos : Nat) (index : Int) :
    (∃ e : PhandleEntry fdt cellsProp,
        Spells list pos e.cells ∧ pos + e.cells.length ≤ list.len / 4) ∨
      ∃ rc, rc ≠ 0 ∧
        (phandleLoop fdt list cellsProp outArgs pos index).value = (rc, outArgs) := by
  by_cases hpos : pos < list.len / 4
  · rw [phandleLoop, if_pos hpos]
    simp only [readCell, value_emit_bind]
    by_cases hfound : fdtNodeOffsetByPhandle fdt (list.cell pos) < 0
    · refine Or.inr ⟨fdtNodeOffsetByPhandle fdt (list.cell pos), by omega, ?_⟩
      rw [if_pos hfound, value_pure]
    rw [if_neg hfound]
    cases hval : fdtGetprop fdt (fdtNodeOffsetByPhandle fdt (list.cell pos)) cellsProp with
    | error len => exact Or.inr ⟨-ENOENT, by decide, rfl⟩
    | ok val =>
      simp only [value_emit_bind]
      by_cases hmax : FDT_MAX_PHANDLE_ARGS < (val.cell 0).toNat
      · refine Or.inr ⟨-EINVAL, by decide, ?_⟩
        rw [if_pos hmax, value_pure]
      by_cases hend : list.len / 4 < pos + 1 + (val.cell 0).toNat
      · refine Or.inr ⟨-ENOENT, by decide, ?_⟩
        rw [if_neg hmax, if_pos hend, value_pure]
      -- the cells that follow are the arguments
      let args := List.ofFn fun k : Fin (val.cell 0).toNat => list.cell (pos + 1 + k.val)
      have hlen : args.length = (val.cell 0).toNat := List.length_ofFn
      let e : PhandleEntry fdt cellsProp :=
        { phandle := list.cell pos
          nodeOffset := fdtNodeOffsetByPhandle fdt (list.cell pos)
          args := args
          resolves := rfl
          found := Int.not_lt.1 hfound
          counted := ⟨val, hval, hlen.symm⟩
          fits := by
            rw [hlen]
            exact Nat.not_lt.1 hmax }
      refine Or.inl ⟨e, ?_, ?_⟩
      · refine (spells_cons list pos _ _).2 ⟨rfl, ?_⟩
        intro i c hc
        rw [List.getElem?_ofFn] at hc
        split at hc
        · exact Option.some.inj hc
        · cases hc
      · have hcells : e.cells.length = args.length + 1 := rfl
        omega
  · exact Or.inr ⟨-ENOENT, by decide,
      phandleLoop_end fdt cellsProp list outArgs index (Nat.not_lt.1 hpos)⟩

theorem phandleLoop_decodes (es : List (PhandleEntry fdt cellsProp)) (pos i : Nat)
    (hcells : Spells list pos (encodeEntries es))
    (hend : pos + (encodeEntries es).length = list.len / 4) :
    (phandleLoop fdt list cellsProp outArgs pos i).value =
      match es[i]? with
      | some e => (0, e.into outArgs)
      | none => (-ENOENT, outArgs) := by
  induction es generalizing pos i with
  | nil => exact phandleLoop_end fdt cellsProp list outArgs i (Nat.le_of_eq hend.symm)
  | cons e rest ih =>
    rw [encodeEntries, List.flatMap_cons, ← encodeEntries] at hcells hend
    rw [List.length_append] at hend
    obtain ⟨hhead, htail⟩ := (spells_append list pos _ _).1 hcells
    rw [phandleLoop_entry fdt cellsProp list outArgs e i hhead (by omega)]
    cases i with
    | zero => rfl
    | succ i =>
      have hprev : ((i + 1 : Nat) : Int) - 1 = (i : Int) := by omega
      rw [if_pos (by omega), hprev, ih (pos + e.cells.length) i htail (by omega)]
      rfl

/-- What the loop returns with code 0 is the last of a row of entries that stand in the
value; every other code leaves `*out_args` alone. -/
theorem phandleLoop_sound (pos : Nat) (index : Int) :
    let r := (phandleLoop fdt list cellsProp outArgs pos index).value
    (r.1 = 0 → ∃ (es : List (PhandleEntry fdt cellsProp)) (e : PhandleEntry fdt cellsProp),
      es.length = index.toNat ∧ Spells list pos (encodeEntries (es ++ [e])) ∧
      pos + (encodeEntries (es ++ [e])).length ≤ list.len / 4 ∧ r.2 = e.into outArgs) ∧
    (r.1 ≠ 0 → r.2 = outArgs) := by
  intro r
  rcases phandleLoop_cases fdt cellsProp list outArgs pos index with
    ⟨e, hcells, hfit⟩ | ⟨rc, hrc, hvalue⟩
  · have hentry := phandleLoop_entry fdt cellsProp list outArgs e index hcells hfit
    have hlen : e.cells.length = e.args.length + 1 := rfl
    by_cases hindex : 0 < index
    · rw [if_pos hindex] at hentry
      obtain ⟨hzero, hother⟩ := phandleLoop_sound (pos + e.cells.length) (index - 1)
      refine ⟨?_, ?_⟩
      · intro hr
        rw [show r = _ from hentry] at hr ⊢
        obtain ⟨es, last, hcount, hspells, hfits, hout⟩ := hzero hr
        refine ⟨e :: es, last, ?_, ?_, ?_, hout⟩
        · rw [List.length_cons, hcount]
          omega
        · rw [List.cons_append, encodeEntries, List.flatMap_cons, spells_append]
          exact ⟨hcells, hspells⟩
        · rw [List.cons_append, encodeEntries, List.flatMap_cons, List.length_append,
            ← encodeEntries]
          omega
      · intro hr
        rw [show r = _ from hentry] at hr ⊢
        exact hother hr
    · rw [if_neg hindex] at hentry
      refine ⟨?_, ?_⟩
      · intro _
        refine ⟨[], e, ?_, ?_, ?_, ?_⟩
        · rw [List.length_nil]
          omega
        · simpa [encodeEntries] using hcells
        · simpa [encodeEntries] using hfit
        · rw [show r = _ from hentry]
      · intro hr
        rw [show r = _ from hentry] at hr
        exact absurd rfl hr
  · refine ⟨?_, ?_⟩
    · intro hr
      rw [show r = _ from hvalue] at hr
      exact absurd hr hrc
    · intro _
      rw [show r = _ from hvalue]
termination_by list.len / 4 - pos

theorem readArgs_reads (pos pcells i : Nat) (args : Fin FDT_MAX_PHANDLE_ARGS → UInt32) :
    (readArgs list pos pcells i args).trace.length = pcells - i := by
  by_cases hlt : i < pcells
  · have hrest := readArgs_reads pos pcells (i + 1)
      (fun k => if k.val = i then list.cell (pos + i) else args k)
    rw [readArgs, if_pos hlt, readCell, trace_emit_bind, List.length_cons, hrest]
    omega
  · rw [readArgs, if_neg hlt, trace_pure, List.length_nil]
    omega
termination_by pcells - i

/-- The loop ends: it reads each cell of the value at most once, and for each phandle one cell
of another node. -/
theorem phandleLoop_reads (pos : Nat) (index : Int) :
    (phandleLoop fdt list cellsProp outArgs pos index).trace.length ≤
      2 * (list.len / 4 - pos) := by
  by_cases hpos : pos < list.len / 4
  · rw [phandleLoop, if_pos hpos]
    simp only [readCell, trace_emit_bind, List.length_cons]
    by_cases hfound : fdtNodeOffsetByPhandle fdt (list.cell pos) < 0
    · rw [if_pos hfound, trace_pure, List.length_nil]
      omega
    rw [if_neg hfound]
    cases fdtGetprop fdt (fdtNodeOffsetByPhandle fdt (list.cell pos)) cellsProp with
    | error len =>
      rw [trace_pure, List.length_nil]
      omega
    | ok val =>
      simp only [trace_emit_bind, List.length_cons]
      by_cases hmax : FDT_MAX_PHANDLE_ARGS < (val.cell 0).toNat
      · rw [if_pos hmax, trace_pure, List.length_nil]
        omega
      by_cases hend : list.len / 4 < pos + 1 + (val.cell 0).toNat
      · rw [if_neg hmax, if_pos hend, trace_pure, List.length_nil]
        omega
      by_cases hindex : 0 < index
      · have hrest := phandleLoop_reads (pos + 1 + (val.cell 0).toNat) (index - 1)
        rw [if_neg hmax, if_neg hend, if_pos hindex]
        omega
      · rw [if_neg hmax, if_neg hend, if_neg hindex, trace_bind, List.length_append, trace_pure,
          List.length_nil, readArgs_reads]
        omega
  · rw [phandleLoop, if_neg hpos, trace_pure, List.length_nil]
    exact Nat.zero_le _
termination_by list.len / 4 - pos

end Loop

/-! ## The law of phandle lists -/

theorem parsePhandle_cases (fdt : Tree) (nodeoff : Int) (prop cellsProp : String) (index : Int)
    (outArgs : FdtPhandleArgs) :
    (∃ e, e ≠ 0 ∧ fdtParsePhandleWithArgs fdt nodeoff prop cellsProp index outArgs =
        pure (e, outArgs)) ∨
      ∃ list, fdtGetprop fdt nodeoff prop = .ok list ∧
        fdtParsePhandleWithArgs fdt nodeoff prop cellsProp index outArgs =
          phandleLoop fdt list cellsProp outArgs 0 index := by
  by_cases hnode : nodeoff < 0
  · refine Or.inl ⟨-EINVAL, by decide, ?_⟩
    rw [fdtParsePhandleWithArgs, if_pos hnode]
  cases hlist : fdtGetprop fdt nodeoff prop with
  | error len =>
    refine Or.inl ⟨-ENOENT, by decide, ?_⟩
    simp only [fdtParsePhandleWithArgs, if_neg hnode, hlist]
  | ok list =>
    refine Or.inr ⟨list, rfl, ?_⟩
    simp only [fdtParsePhandleWithArgs, if_neg hnode, hlist]

/-- `fdt_parse_phandle_with_args` decodes every concatenation of entries, an index behind the
last one giving `-ENOENT`; a list of any other form it decodes up to the entry returned or
rejects with `*out_args` unchanged, and the loop ends within the cells of the value. -/
theorem parsePhandle_decodes (fdt : Tree) (nodeoff : Int) (prop cellsProp : String)
    (outArgs : FdtPhandleArgs) :
    (∀ (list : Property) (es : List (PhandleEntry fdt cellsProp)) (i : Nat),
      fdtGetprop fdt nodeoff prop = .ok list → list.len = 4 * (encodeEntries es).length →
      Spells list 0 (encodeEntries es) →
      (fdtParsePhandleWithArgs fdt nodeoff prop cellsProp i outArgs).value =
        match es[i]? with
        | some e => (0, e.into outArgs)
        | none => (-ENOENT, outArgs)) ∧
    ∀ index,
      let r := fdtParsePhandleWithArgs fdt nodeoff prop cellsProp index outArgs
      (∀ list, fdtGetprop fdt nodeoff prop = .ok list →
        r.trace.length ≤ 2 * (list.len / 4)) ∧
      (r.value.1 = 0 → ∃ (list : Property) (es : List (PhandleEntry fdt cellsProp))
          (e : PhandleEntry fdt cellsProp),
        fdtGetprop fdt nodeoff prop = .ok list ∧ es.length = index.toNat ∧
        Spells list 0 (encodeEntries (es ++ [e])) ∧
        4 * (encodeEntries (es ++ [e])).length ≤ list.len ∧ r.value.2 = e.into outArgs) ∧
      (r.value.1 ≠ 0 → r.value.2 = outArgs) := by
  constructor
  · intro list es i hlist hlen hcells
    have hnode := getprop_nonneg hlist
    simp only [fdtParsePhandleWithArgs, if_neg hnode, hlist]
    exact phandleLoop_decodes fdt cellsProp list outArgs es 0 i hcells (by omega)
  · intro index r
    rcases parsePhandle_cases fdt nodeoff prop cellsProp index outArgs with
      ⟨e, hne, hr⟩ | ⟨list, hlist, hr⟩
    · have hreturn : r = pure (e, outArgs) := hr
      rw [hreturn]
      refine ⟨fun list _ => Nat.zero_le _, ?_, fun _ => rfl⟩
      intro hzero
      exact absurd hzero hne
    · have hloop : r = phandleLoop fdt list cellsProp outArgs 0 index := hr
      rw [hloop]
      obtain ⟨hzero, hother⟩ := phandleLoop_sound fdt cellsProp list outArgs 0 index
      refine ⟨?_, ?_, hother⟩
      · intro list' hlist'
        cases hlist.symm.trans hlist'
        exact phandleLoop_reads fdt cellsProp list outArgs 0 index
      · intro hr0
        obtain ⟨es, e, hcount, hcells, hfit, hout⟩ := hzero hr0
        refine ⟨list, es, e, hlist, hcount, hcells, ?_, hout⟩
        omega

def cellsProperty (name : String) (cells : List UInt32) (h : (cellBytes cells).length < 2 ^ 31) :
    Property := .ofBytes name (cellBytes cells) h

/-- A clock list that names a node with two arguments and a node with three. -/
def clockList : Property := cellsProperty "clocks" [2, 10, 11, 3, 20, 21, 22] (by decide)

def twoClocks : Tree :=
  Tree.ofNodes
    [⟨none, []⟩,
      ⟨some 0, [cellsProperty "phandle" [2] (by decide),
        cellsProperty "#clock-cells" [2] (by decide)]⟩,
      ⟨some 0, [cellsProperty "phandle" [3] (by decide),
        cellsProperty "#clock-cells" [3] (by decide)]⟩,
      ⟨some 0, [clockList]⟩]
    (by decide) (by decide)

def twoArguments : PhandleEntry twoClocks "#clock-cells" where
  phandle := 2
  nodeOffset := 1
  args := [10, 11]
  resolves := by decide +kernel
  found := by decide
  counted := ⟨cellsProperty "#clock-cells" [2] (by decide), rfl, by decide +kernel⟩
  fits := by decide

def threeArguments : PhandleEntry twoClocks "#clock-cells" where
  phandle := 3
  nodeOffset := 2
  args := [20, 21, 22]
  resolves := by decide +kernel
  found := by decide
  counted := ⟨cellsProperty "#clock-cells" [3] (by decide), rfl, by decide +kernel⟩
  fits := by decide

def noArguments : FdtPhandleArgs := ⟨0, 0, fun _ => 0⟩

theorem parsePhandle_decodes_sample :
    (fdtParsePhandleWithArgs twoClocks 3 "clocks" "#clock-cells" 1 noArguments).value =
        (0, threeArguments.into noArguments) ∧
      (fdtParsePhandleWithArgs twoClocks 3 "clocks" "#clock-cells" 2 noArguments).value =
        (-ENOENT, noArguments) := by
  have hspells : Spells clockList 0 (encodeEntries [twoArguments, threeArguments]) := by
    have hcells : encodeEntries [twoArguments, threeArguments] = [2, 10, 11, 3, 20, 21, 22] := rfl
    have hat : ∀ i : Fin 7, clockList.cell i = [2, 10, 11, 3, 20, 21, 22][i] := by decide +kernel
    rw [hcells]
    intro i c hc
    obtain ⟨hi, rfl⟩ := List.getElem?_eq_some_iff.1 hc
    rw [Nat.zero_add]
    exact hat ⟨i, hi⟩
  have hdecodes := (parsePhandle_decodes twoClocks 3 "clocks" "#clock-cells" noArguments).1
    clockList [twoArguments, threeArguments]
  exact ⟨hdecodes 1 rfl rfl hspells, hdecodes 2 rfl rfl hspells⟩

end ZStage.Fdt
