import ZStage.Fdt.Match

/-!
The two table searches over a blob that may be broken. `fdt_find_match` goes through
the table and searches the blob for each entry; `fdt_match_node` goes through the table
for one node. What they rely on is that an error of libfdt depends on the node alone:
two searches that find nothing end at the same node.

A `Blob` is what libfdt gives to the searches: the offset of the next node, which grows
and stays inside the blob, and the `compatible` property at an offset or an error.
-/

namespace ZStage.Fdt

/-- A blob as `fdt_ro_probe_`, `fdt_next_node` and `fdt_getprop` present it. -/
structure Blob where
  roProbe : Int
  size : Nat
  nextNode : Int → Int
  compatible : Int → Except Int Property
  nextNode_gt : ∀ offset, 0 ≤ nextNode offset → offset < nextNode offset
  nextNode_lt : ∀ offset, nextNode offset < size
  error_neg : ∀ offset len, compatible offset = .error len → len < 0

namespace Blob

def fdtNodeCheckCompatible (fdt : Blob) (nodeoffset : Int) (compatible : List UInt8) : Int :=
  match fdt.compatible nodeoffset with
  | .error len => len
  | .ok prop => if fdtStringlistContains prop 0 prop.len compatible then 0 else 1

/-- The loop of `fdt_node_offset_by_compatible`, from the node behind `prev` on. -/
def searchLoop (fdt : Blob) (compatible : List UInt8) (prev : Int) : Int :=
  let offset := fdt.nextNode prev
  if offset < 0 then offset
  else
    let err := fdt.fdtNodeCheckCompatible offset compatible
    if err < 0 ∧ err ≠ -FDT_ERR_NOTFOUND then err
    else if err = 0 then offset
    else fdt.searchLoop compatible offset
termination_by (fdt.size - prev).toNat
decreasing_by
  have hgt := fdt.nextNode_gt prev (by omega)
  have hlt := fdt.nextNode_lt prev
  omega

def fdtNodeOffsetByCompatible (fdt : Blob) (startoffset : Int) (compatible : List UInt8) : Int :=
  if fdt.roProbe < 0 then fdt.roProbe else fdt.searchLoop compatible startoffset

def fdtMatchNode (fdt : Blob) (nodeoff : Int) (matchTable : MatchTable) : Option FdtMatch :=
  if nodeoff < 0 then none
  else matchTable.find? fun m => fdt.fdtNodeCheckCompatible nodeoff m.compatible = 0

/-- The offset returned and what `*out_match` holds. -/
def fdtFindMatch (fdt : Blob) (startoff : Int) (outMatch : Option FdtMatch) :
    MatchTable → Int × Option FdtMatch
  | [] => (-ENODEV, outMatch)
  | m :: rest =>
    let nodeoff := fdt.fdtNodeOffsetByCompatible startoff m.compatible
    if 0 ≤ nodeoff then (nodeoff, some m) else fdt.fdtFindMatch startoff outMatch rest

/-! ## The nodes that a search comes to -/

/-- libfdt fails on the properties of the node. -/
def failsAt (fdt : Blob) (node : Int) : Bool :=
  match fdt.compatible node with
  | .error len => len ≠ -FDT_ERR_NOTFOUND
  | .ok _ => false

/-- The nodes behind `prev`, up to the first at which libfdt fails. -/
def visited (fdt : Blob) (prev : Int) : List Int :=
  let offset := fdt.nextNode prev
  if offset < 0 then []
  else if fdt.failsAt offset then [offset]
  else offset :: fdt.visited offset
termination_by (fdt.size - prev).toNat
decreasing_by
  have hgt := fdt.nextNode_gt prev (by omega)
  have hlt := fdt.nextNode_lt prev
  omega

/-- The nodes after `startoff` that are reached before an error. -/
def reached (fdt : Blob) (startoff : Int) : List Int :=
  if fdt.roProbe < 0 then [] else fdt.visited startoff

def Compatible (fdt : Blob) (node : Int) (m : FdtMatch) : Prop :=
  fdt.fdtNodeCheckCompatible node m.compatible = 0

section Search

variable (fdt : Blob)

theorem mem_visited (prev node : Int) :
    node ∈ fdt.visited prev ↔ 0 ≤ fdt.nextNode prev ∧
      (node = fdt.nextNode prev ∨
        fdt.failsAt (fdt.nextNode prev) = false ∧ node ∈ fdt.visited (fdt.nextNode prev)) := by
  rw [visited]
  by_cases hend : fdt.nextNode prev < 0
  · rw [if_pos hend]
    simp [Int.not_le.2 hend]
  · rw [if_neg hend]
    cases hfail : fdt.failsAt (fdt.nextNode prev) <;> simp [Int.not_lt.1 hend]

theorem lt_of_mem_visited (prev : Int) {node : Int} (h : node ∈ fdt.visited prev) :
    prev < node ∧ 0 ≤ node := by
  obtain ⟨hnext, hcases⟩ := (fdt.mem_visited prev node).1 h
  have hgt := fdt.nextNode_gt prev hnext
  have hlt := fdt.nextNode_lt prev
  rcases hcases with rfl | ⟨-, hlater⟩
  · exact ⟨hgt, hnext⟩
  · have hlater' := lt_of_mem_visited (fdt.nextNode prev) hlater
    exact ⟨by omega, hlater'.2⟩
termination_by (fdt.size - prev).toNat

/-- The error at a node does not depend on the entry that is searched for. -/
theorem check_fails_iff (node : Int) (compatible : List UInt8) :
    (fdt.fdtNodeCheckCompatible node compatible < 0 ∧
        fdt.fdtNodeCheckCompatible node compatible ≠ -FDT_ERR_NOTFOUND) ↔
      fdt.failsAt node = true := by
  unfold fdtNodeCheckCompatible failsAt
  cases hprop : fdt.compatible node with
  | error len =>
    have hneg := fdt.error_neg node len hprop
    simp [hneg]
  | ok prop =>
    simp only [Bool.false_eq_true, iff_false, not_and]
    intro hneg
    split at hneg <;> omega

theorem searchLoop_cases (m : FdtMatch) (prev : Int) :
    (∃ node ∈ fdt.visited prev, fdt.Compatible node m ∧
        (∀ other ∈ fdt.visited prev, other < node → ¬ fdt.Compatible other m) ∧
        fdt.searchLoop m.compatible prev = node) ∨
      ((∀ node ∈ fdt.visited prev, ¬ fdt.Compatible node m) ∧
        fdt.searchLoop m.compatible prev < 0) := by
  rw [searchLoop]
  by_cases hend : fdt.nextNode prev < 0
  · rw [if_pos hend]
    refine Or.inr ⟨?_, hend⟩
    intro node hnode
    exact absurd ((fdt.mem_visited prev node).1 hnode).1 (Int.not_le.2 hend)
  have hgt := fdt.nextNode_gt prev (Int.not_lt.1 hend)
  have hlt := fdt.nextNode_lt prev
  have hhead : fdt.nextNode prev ∈ fdt.visited prev :=
    (fdt.mem_visited prev _).2 ⟨Int.not_lt.1 hend, Or.inl rfl⟩
  rw [if_neg hend]
  cases hfail : fdt.failsAt (fdt.nextNode prev) with
  | true =>
    have herr := (fdt.check_fails_iff (fdt.nextNode prev) m.compatible).2 hfail
    rw [if_pos herr]
    refine Or.inr ⟨?_, herr.1⟩
    intro node hnode hcomp
    rcases ((fdt.mem_visited prev node).1 hnode).2 with rfl | ⟨hok, -⟩
    · rw [Compatible] at hcomp
      omega
    · rw [hfail] at hok
      cases hok
  | false =>
    have herr := mt (fdt.check_fails_iff (fdt.nextNode prev) m.compatible).1
      (by rw [hfail]; exact Bool.false_ne_true)
    rw [if_neg herr]
    by_cases hcomp : fdt.fdtNodeCheckCompatible (fdt.nextNode prev) m.compatible = 0
    · rw [if_pos hcomp]
      refine Or.inl ⟨fdt.nextNode prev, hhead, hcomp, ?_, rfl⟩
      intro other hother hless
      rcases ((fdt.mem_visited prev other).1 hother).2 with rfl | ⟨-, hlater⟩
      · omega
      · have hbehind := fdt.lt_of_mem_visited _ hlater
        omega
    · rw [if_neg hcomp]
      rcases searchLoop_cases m (fdt.nextNode prev) with
        ⟨node, hnode, hfound, hfirst, hvalue⟩ | ⟨hnone, hvalue⟩
      · refine Or.inl ⟨node, (fdt.mem_visited prev node).2
          ⟨Int.not_lt.1 hend, Or.inr ⟨hfail, hnode⟩⟩, hfound, ?_, hvalue⟩
        intro other hother hless
        rcases ((fdt.mem_visited prev other).1 hother).2 with rfl | ⟨-, hlater⟩
        · exact hcomp
        · exact hfirst other hlater hless
      · refine Or.inr ⟨?_, hvalue⟩
        intro node hnode
        rcases ((fdt.mem_visited prev node).1 hnode).2 with rfl | ⟨-, hlater⟩
        · exact hcomp
        · exact hnone node hlater
termination_by (fdt.size - prev).toNat

theorem nodeOffsetByCompatible_cases (m : FdtMatch) (startoff : Int) :
    (∃ node ∈ fdt.reached startoff, fdt.Compatible node m ∧
        (∀ other ∈ fdt.reached startoff, other < node → ¬ fdt.Compatible other m) ∧
        fdt.fdtNodeOffsetByCompatible startoff m.compatible = node) ∨
      ((∀ node ∈ fdt.reached startoff, ¬ fdt.Compatible node m) ∧
        fdt.fdtNodeOffsetByCompatible startoff m.compatible < 0) := by
  rw [fdtNodeOffsetByCompatible, reached]
  by_cases hprobe : fdt.roProbe < 0
  · rw [if_pos hprobe, if_pos hprobe]
    refine Or.inr ⟨?_, hprobe⟩
    intro node hnode
    cases hnode
  · rw [if_neg hprobe, if_neg hprobe]
    exact fdt.searchLoop_cases m startoff

theorem reached_nonneg {startoff node : Int} (h : node ∈ fdt.reached startoff) : 0 ≤ node := by
  rw [reached] at h
  split at h
  · cases h
  · exact (fdt.lt_of_mem_visited startoff h).2

/-- `fdt_find_match` returns the first node for the first entry that has one. -/
theorem findMatch_cases (startoff : Int) (outMatch : Option FdtMatch) (table : MatchTable) :
    (∃ (before : MatchTable) (m : FdtMatch) (after : MatchTable) (node : Int),
        table = before ++ m :: after ∧ node ∈ fdt.reached startoff ∧ fdt.Compatible node m ∧
        (∀ other ∈ fdt.reached startoff, other < node → ¬ fdt.Compatible other m) ∧
        (∀ other ∈ fdt.reached startoff, ∀ m' ∈ before, ¬ fdt.Compatible other m') ∧
        fdt.fdtFindMatch startoff outMatch table = (node, some m)) ∨
      ((∀ node ∈ fdt.reached startoff, ∀ m ∈ table, ¬ fdt.Compatible node m) ∧
        fdt.fdtFindMatch startoff outMatch table = (-ENODEV, outMatch)) := by
  induction table with
  | nil =>
    refine Or.inr ⟨?_, rfl⟩
    intro node _ m hm
    cases hm
  | cons m rest ih =>
    rw [fdtFindMatch]
    rcases fdt.nodeOffsetByCompatible_cases m startoff with
      ⟨node, hnode, hcomp, hfirst, hvalue⟩ | ⟨hnone, hvalue⟩
    · refine Or.inl ⟨[], m, rest, node, rfl, hnode, hcomp, hfirst, ?_, ?_⟩
      · intro other _ m' hm'
        cases hm'
      · simp only [hvalue, fdt.reached_nonneg hnode, if_true]
    · simp only [Int.not_le.2 hvalue, if_false]
      rcases ih with
        ⟨before, m', after, node, rfl, hnode, hcomp, hfirst, hbefore, hfind⟩ | ⟨hnone', hfind⟩
      · refine Or.inl ⟨m :: before, m', after, node, rfl, hnode, hcomp, hfirst, ?_, hfind⟩
        intro other hother m'' hm''
        rcases List.mem_cons.1 hm'' with rfl | hm''
        · exact hnone other hother
        · exact hbefore other hother m'' hm''
      · refine Or.inr ⟨?_, hfind⟩
        intro node hnode m' hm'
        rcases List.mem_cons.1 hm' with rfl | hm'
        · exact hnone node hnode
        · exact hnone' node hnode m' hm'

/-- `fdt_match_node` returns the first entry that the node is compatible with. -/
theorem matchNode_eq_some {node : Int} (hnode : 0 ≤ node) {before after : MatchTable}
    {m : FdtMatch} (hcomp : fdt.Compatible node m)
    (hbefore : ∀ m' ∈ before, ¬ fdt.Compatible node m') :
    fdt.fdtMatchNode node (before ++ m :: after) = some m := by
  rw [fdtMatchNode, if_neg (Int.not_lt.2 hnode), List.find?_eq_some_iff_append]
  refine ⟨decide_eq_true hcomp, before, after, rfl, ?_⟩
  intro m' hm'
  simpa [Compatible] using hbefore m' hm'

theorem matchNode_eq_none {node : Int} {table : MatchTable}
    (h : ∀ m ∈ table, ¬ fdt.Compatible node m) : fdt.fdtMatchNode node table = none := by
  rw [fdtMatchNode]
  split
  · rfl
  · rw [List.find?_eq_none]
    intro m hm
    simpa [Compatible] using h m hm

/-- The tree search and the node match agree, on every blob and for every table. The search
returns a node, or `-ENODEV` if no node that it reaches is compatible with an entry. -/
theorem findMatch_agrees (startoff : Int) (outMatch : Option FdtMatch) (table : MatchTable) :
    let r := fdt.fdtFindMatch startoff outMatch table
    (0 ≤ r.1 ∨ r.1 = -ENODEV) ∧
    (r.1 = -ENODEV ↔ ∀ node ∈ fdt.reached startoff, ∀ m ∈ table, ¬ fdt.Compatible node m) ∧
    (0 ≤ r.1 → ∃ (before : MatchTable) (m : FdtMatch) (after : MatchTable),
      table = before ++ m :: after ∧ r.2 = some m ∧ fdt.fdtMatchNode r.1 table = some m ∧
      r.1 ∈ fdt.reached startoff ∧ fdt.Compatible r.1 m ∧
      (∀ other ∈ fdt.reached startoff, other < r.1 → ¬ fdt.Compatible other m) ∧
      ∀ other ∈ fdt.reached startoff, ∀ m' ∈ before, ¬ fdt.Compatible other m') ∧
    (r.1 = -ENODEV →
      (∀ node ∈ fdt.reached startoff, fdt.fdtMatchNode node table = none) ∧ r.2 = outMatch) := by
  intro r
  rcases fdt.findMatch_cases startoff outMatch table with
    ⟨before, m, after, node, rfl, hnode, hcomp, hfirst, hbefore, hfind⟩ | ⟨hnone, hfind⟩
  · have hpos := fdt.reached_nonneg hnode
    have hdev : node ≠ -ENODEV := by
      simp only [ENODEV]
      omega
    rw [show r = _ from hfind]
    refine ⟨Or.inl hpos, iff_of_false hdev ?_, ?_, fun hnodev => absurd hnodev hdev⟩
    · exact fun hall => hall node hnode m (List.mem_append_right _ List.mem_cons_self) hcomp
    · intro _
      exact ⟨before, m, after, rfl, rfl, fdt.matchNode_eq_some hpos hcomp (hbefore node hnode),
        hnode, hcomp, hfirst, hbefore⟩
  · rw [show r = _ from hfind]
    refine ⟨Or.inr rfl, iff_of_true rfl hnone, ?_, ?_⟩
    · intro hpos
      cases hpos
    · intro _
      exact ⟨fun node hnode => fdt.matchNode_eq_none (hnone node hnode), rfl⟩

end Search

end Blob

/-! ## Trees as blobs -/

/-- `fdt_next_node` in a tree: the next offset in use. -/
def Tree.nextNode (fdt : Tree) (offset : Int) : Int :=
  if (offset + 1).toNat < fdt.nodes.length then ((offset + 1).toNat : Int) else -FDT_ERR_NOTFOUND

theorem Tree.nextNode_gt (fdt : Tree) (offset : Int) (hnext : 0 ≤ fdt.nextNode offset) :
    offset < fdt.nextNode offset := by
  rw [Tree.nextNode] at hnext ⊢
  split at hnext
  · rename_i hlt
    rw [if_pos hlt]
    omega
  · exact absurd hnext (by decide)

theorem Tree.nextNode_lt (fdt : Tree) (offset : Int) :
    fdt.nextNode offset < fdt.nodes.length := by
  rw [Tree.nextNode]
  split
  · omega
  · simp only [FDT_ERR_NOTFOUND]
    omega

theorem fdtGetprop_error_neg (fdt : Tree) (name : String) (nodeoffset len : Int)
    (herror : fdtGetprop fdt nodeoffset name = .error len) : len < 0 := by
  simp only [fdtGetprop, FDT_ERR_BADOFFSET, FDT_ERR_NOTFOUND] at herror
  split at herror
  · cases herror
    decide
  · split at herror
    · cases herror
      decide
    · cases herror

/-- A tree is a blob on which libfdt finds every node and fails at none. -/
def Tree.blob (fdt : Tree) : Blob where
  roProbe := 0
  size := fdt.nodes.length
  nextNode := fdt.nextNode
  compatible nodeoffset := fdtGetprop fdt nodeoffset "compatible"
  nextNode_gt := fdt.nextNode_gt
  nextNode_lt := fdt.nextNode_lt
  error_neg := fdtGetprop_error_neg fdt "compatible"

section Trees

variable (fdt : Tree)

theorem blob_check (node : Int) (compatible : List UInt8) :
    fdt.blob.fdtNodeCheckCompatible node compatible =
      fdtNodeCheckCompatible fdt node compatible := rfl

theorem blob_searchLoop (compatible : List UInt8) (prev : Int) :
    fdt.blob.searchLoop compatible prev =
      compatibleLoop fdt compatible ((List.range fdt.nodes.length).drop (prev + 1).toNat) := by
  rw [Blob.searchLoop]
  by_cases hlt : (prev + 1).toNat < fdt.nodes.length
  · have hnext : fdt.blob.nextNode prev = ((prev + 1).toNat : Int) := if_pos hlt
    have hdrop : (List.range fdt.nodes.length).drop (prev + 1).toNat =
        (prev + 1).toNat :: (List.range fdt.nodes.length).drop ((prev + 1).toNat + 1) := by
      rw [List.drop_eq_getElem_cons (by simpa using hlt), List.getElem_range]
    have hrest := blob_searchLoop compatible ((prev + 1).toNat : Int)
    rw [show (((prev + 1).toNat : Int) + 1).toNat = (prev + 1).toNat + 1 by omega] at hrest
    rw [hdrop, compatibleLoop]
    simp only [hnext, blob_check, hrest, Int.natCast_nonneg, not_lt_of_ge, if_false]
  · have hnext : fdt.blob.nextNode prev = -FDT_ERR_NOTFOUND := if_neg hlt
    have hdrop : (List.range fdt.nodes.length).drop (prev + 1).toNat = [] := by
      rw [List.drop_eq_nil_iff, List.length_range]
      omega
    rw [hdrop, hnext, compatibleLoop, if_pos (by decide)]
termination_by (fdt.nodes.length - (prev + 1).toNat)

theorem blob_findMatch (startoff : Int) (outMatch : Option FdtMatch) (table : MatchTable) :
    fdt.blob.fdtFindMatch startoff outMatch table = fdtFindMatch fdt startoff outMatch table := by
  induction table with
  | nil => rfl
  | cons m rest ih =>
    have hsearch : fdt.blob.fdtNodeOffsetByCompatible startoff m.compatible =
        fdtNodeOffsetByCompatible fdt startoff m.compatible := by
      rw [Blob.fdtNodeOffsetByCompatible, if_neg (show ¬ fdt.blob.roProbe < 0 from Int.lt_irrefl 0),
        blob_searchLoop, fdtNodeOffsetByCompatible]
    simp only [Blob.fdtFindMatch, fdtFindMatch, hsearch, ih]

end Trees

/-- A node that is compatible with "b", and behind it one compatible with "a". -/
def tableOrder : Tree :=
  Tree.ofNodes
    [⟨none, []⟩, ⟨some 0, [.ofBytes "compatible" [0x62, 0] (by decide)]⟩,
      ⟨some 0, [.ofBytes "compatible" [0x63, 0, 0x61, 0] (by decide)]⟩]
    (by decide) (by decide)

/-- "a" comes before "b" in the table, and is not in the tree as "d". -/
theorem findMatch_agrees_sample :
    (tableOrder.blob.fdtFindMatch (-1) none [⟨[0x61]⟩, ⟨[0x62]⟩] = (2, some ⟨[0x61]⟩) ∧
      tableOrder.blob.fdtMatchNode 2 [⟨[0x61]⟩, ⟨[0x62]⟩] = some ⟨[0x61]⟩) ∧
    (tableOrder.blob.fdtFindMatch (-1) none [⟨[0x64]⟩] = (-ENODEV, none) ∧
      ∀ node ∈ tableOrder.blob.reached (-1),
        tableOrder.blob.fdtMatchNode node [⟨[0x64]⟩] = none) := by
  have hfound : tableOrder.blob.fdtFindMatch (-1) none [⟨[0x61]⟩, ⟨[0x62]⟩] =
      (2, some ⟨[0x61]⟩) := by
    rw [blob_findMatch]
    decide +kernel
  have hnone : tableOrder.blob.fdtFindMatch (-1) none [⟨[0x64]⟩] = (-ENODEV, none) := by
    rw [blob_findMatch]
    decide +kernel
  obtain ⟨-, -, hagrees, -⟩ :=
    Blob.findMatch_agrees tableOrder.blob (-1) none [⟨[0x61]⟩, ⟨[0x62]⟩]
  obtain ⟨-, -, -, hnodev⟩ := Blob.findMatch_agrees tableOrder.blob (-1) none [⟨[0x64]⟩]
  simp only [hfound] at hagrees
  obtain ⟨before, m, after, -, hout, hmatch, -⟩ := hagrees (by decide)
  obtain rfl := Option.some.inj hout
  exact ⟨⟨hfound, hmatch⟩, hnone, (hnodev (congrArg Prod.fst hnone)).1⟩

end ZStage.Fdt
