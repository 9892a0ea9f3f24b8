import ZStage.Fdt.Helper

/-!
`compatible` lookups: the walk of `fdt_stringlist_contains` over a string list, the
search of `fdt_node_offset_by_compatible`, and the two table searches of
`fdt_helper.c` over them. `fdt_find_match` tries the entries of the table in order
and each entry on every node, so an entry decides before the order of the nodes does
(`FirstCandidate`).
-/

namespace ZStage.Fdt

/-- `memcmp(str, strlist, strlen(str) + 1) == 0`. -/
def startsWith (strlist : Property) (pos : Nat) (str : List UInt8) : Bool :=
  (str ++ [0]).zipIdx.all fun (c, i) => strlist.mem (pos + i) = c

/-- `fdt_stringlist_contains`, `strlist` being at byte `pos`. -/
def fdtStringlistContains (strlist : Property) (pos listlen : Nat) (str : List UInt8) : Bool :=
  if str.length ≤ listlen then
    if startsWith strlist pos str then true
    else
      match h : (List.range listlen).find? fun i => strlist.mem (pos + i) = 0 with
      | none => false
      | some p => fdtStringlistContains strlist (pos + p + 1) (listlen - (p + 1)) str
  else false
termination_by listlen
decreasing_by
  have := List.mem_range.1 (List.mem_of_find?_eq_some h)
  omega

def fdtNodeCheckCompatible (fdt : Tree) (nodeoffset : Int) (compatible : List UInt8) : Int :=
  match fdtGetprop fdt nodeoffset "compatible" with
  | .error len => len
  | .ok prop => if fdtStringlistContains prop 0 prop.len compatible then 0 else 1

/-- The loop of `fdt_node_offset_by_compatible` over the offsets still to come. -/
def compatibleLoop (fdt : Tree) (compatible : List UInt8) : List Nat → Int
  | [] => -FDT_ERR_NOTFOUND
  | offset :: rest =>
    let err := fdtNodeCheckCompatible fdt offset compatible
    if err < 0 ∧ err ≠ -FDT_ERR_NOTFOUND then err
    else if err = 0 then offset
    else compatibleLoop fdt compatible rest

def fdtNodeOffsetByCompatible (fdt : Tree) (startoffset : Int) (compatible : List UInt8) : Int :=
  compatibleLoop fdt compatible ((List.range fdt.nodes.length).drop (startoffset + 1).toNat)

/-- `struct fdt_match`; its `data` is null in every table. -/
structure FdtMatch where
  compatible : List UInt8
  deriving DecidableEq, Repr

/-- A table without its terminating entry. -/
abbrev MatchTable := List FdtMatch

def fdtMatchNode (fdt : Tree) (nodeoff : Int) (matchTable : MatchTable) : Option FdtMatch :=
  if nodeoff < 0 then none
  else matchTable.find? fun m => fdtNodeCheckCompatible fdt nodeoff m.compatible = 0

/-- The offset returned and what `*out_match` holds. -/
def fdtFindMatch (fdt : Tree) (startoff : Int) (outMatch : Option FdtMatch) :
    MatchTable → Int × Option FdtMatch
  | [] => (-ENODEV, outMatch)
  | m :: rest =>
    let nodeoff := fdtNodeOffsetByCompatible fdt startoff m.compatible
    if 0 ≤ nodeoff then (nodeoff, some m) else fdtFindMatch fdt startoff outMatch rest

/-! ## What the searches find -/

def Compatible (fdt : Tree) (node : Nat) (m : FdtMatch) : Prop :=
  fdtNodeCheckCompatible fdt node m.compatible = 0

theorem node?_natCast {fdt : Tree} {i : Nat} (h : i < fdt.nodes.length) :
    fdt.node? i = some fdt.nodes[i] := by
  simp [Tree.node?, show ¬(i : Int) < 0 by omega, h]

/-- On a node of the tree the only error is a missing `compatible`. -/
theorem checkCompatible_error {fdt : Tree} {i : Nat} (h : i < fdt.nodes.length)
    (compatible : List UInt8) :
    ¬(fdtNodeCheckCompatible fdt i compatible < 0 ∧
      fdtNodeCheckCompatible fdt i compatible ≠ -FDT_ERR_NOTFOUND) := by
  simp only [fdtNodeCheckCompatible, fdtGetprop, node?_natCast h, FDT_ERR_NOTFOUND]
  grind

/-- The loop stops at the first compatible node. -/
theorem compatibleLoop_eq (fdt : Tree) (m : FdtMatch) (offsets : List Nat)
    (h : ∀ i ∈ offsets, i < fdt.nodes.length) :
    compatibleLoop fdt m.compatible offsets =
      ((offsets.find? fun (i : Nat) => fdtNodeCheckCompatible fdt i m.compatible = 0).map
        fun (i : Nat) => (i : Int)).getD (-FDT_ERR_NOTFOUND) := by
  induction offsets with
  | nil => rfl
  | cons offset rest ih =>
    rw [compatibleLoop, if_neg (checkCompatible_error (h _ List.mem_cons_self) _),
      List.find?_cons]
    by_cases hfound : fdtNodeCheckCompatible fdt offset m.compatible = 0
    · simp [hfound]
    · simp [hfound, ih fun i hi => h i (List.mem_cons_of_mem _ hi)]

/-- The node that an entry of the table selects: the earliest entry with a compatible node
decides, and takes the first such node. -/
inductive FirstCandidate (fdt : Tree) : MatchTable → Nat → FdtMatch → Prop
  | here {m : FdtMatch} {rest : MatchTable} {node : Nat} (mem : node < fdt.nodes.length)
      (compatible : Compatible fdt node m) (first : ∀ i < node, ¬Compatible fdt i m) :
      FirstCandidate fdt (m :: rest) node m
  | later {m m' : FdtMatch} {rest : MatchTable} {node : Nat}
      (none : ∀ i < fdt.nodes.length, ¬Compatible fdt i m)
      (tail : FirstCandidate fdt rest node m') : FirstCandidate fdt (m :: rest) node m'

theorem FirstCandidate.lt {fdt : Tree} {table : MatchTable} {node : Nat} {m : FdtMatch}
    (h : FirstCandidate fdt table node m) : node < fdt.nodes.length := by
  induction h with
  | here mem => exact mem
  | later none tail ih => exact ih

theorem FirstCandidate.compatible {fdt : Tree} {table : MatchTable} {node : Nat} {m : FdtMatch}
    (h : FirstCandidate fdt table node m) : m ∈ table ∧ Compatible fdt node m := by
  induction h with
  | here mem compatible => exact ⟨List.mem_cons_self, compatible⟩
  | later none tail ih => exact ⟨List.mem_cons_of_mem _ ih.1, ih.2⟩

theorem FirstCandidate.unique {fdt : Tree} {table : MatchTable} {node node' : Nat}
    {m m' : FdtMatch} (h : FirstCandidate fdt table node m)
    (h' : FirstCandidate fdt table node' m') : node = node' ∧ m = m' := by
  induction h with
  | here mem compatible first =>
    cases h' with
    | here mem' compatible' first' =>
      refine ⟨Nat.le_antisymm ?_ ?_, rfl⟩
      · exact Nat.le_of_not_lt fun hlt => first _ hlt compatible'
      · exact Nat.le_of_not_lt fun hlt => first' _ hlt compatible
    | later none tail => exact absurd compatible (none _ mem)
  | later none tail ih =>
    cases h' with
    | here mem' compatible' first' => exact absurd compatible' (none _ mem')
    | later none' tail' => exact ih tail'

/-- From the root on, the search for one entry finds its first compatible node, or none. -/
theorem nodeOffsetByCompatible_root (fdt : Tree) (m : FdtMatch) :
    (∃ node < fdt.nodes.length, Compatible fdt node m ∧ (∀ i < node, ¬Compatible fdt i m) ∧
      fdtNodeOffsetByCompatible fdt (-1) m.compatible = node) ∨
    ((∀ i < fdt.nodes.length, ¬Compatible fdt i m) ∧
      fdtNodeOffsetByCompatible fdt (-1) m.compatible = -FDT_ERR_NOTFOUND) := by
  have heq := compatibleLoop_eq fdt m (List.range fdt.nodes.length)
    fun i hi => List.mem_range.1 hi
  have hroot : ((-1 : Int) + 1).toNat = 0 := rfl
  rw [fdtNodeOffsetByCompatible, hroot, List.drop_zero, heq]
  cases hfind : (List.range fdt.nodes.length).find? fun (i : Nat) =>
      fdtNodeCheckCompatible fdt i m.compatible = 0 with
  | some node =>
    rw [List.find?_range_eq_some] at hfind
    refine Or.inl ⟨node, List.mem_range.1 hfind.2.1, by simpa [Compatible] using hfind.1, ?_, rfl⟩
    exact fun i hi => by simpa [Compatible] using hfind.2.2 i hi
  | none =>
    rw [List.find?_eq_none] at hfind
    exact Or.inr ⟨fun i hi => by simpa [Compatible] using hfind i (List.mem_range.2 hi), rfl⟩

/-- `fdt_find_match` from the root on returns the first candidate, or `-ENODEV` when no node
is compatible with any entry. -/
theorem findMatch_root (fdt : Tree) (outMatch : Option FdtMatch) (table : MatchTable) :
    (∃ node m, FirstCandidate fdt table node m ∧
      fdtFindMatch fdt (-1) outMatch table = ((node : Int), some m)) ∨
    ((∀ m ∈ table, ∀ i < fdt.nodes.length, ¬Compatible fdt i m) ∧
      fdtFindMatch fdt (-1) outMatch table = (-ENODEV, outMatch)) := by
  induction table with
  | nil => exact Or.inr ⟨fun m hm => absurd hm List.not_mem_nil, rfl⟩
  | cons m rest ih =>
    rcases nodeOffsetByCompatible_root fdt m with ⟨node, hlt, hcomp, hfirst, heq⟩ | ⟨hnone, heq⟩
    · refine Or.inl ⟨node, m, .here hlt hcomp hfirst, ?_⟩
      simp [fdtFindMatch, heq]
    · have hskip : fdtFindMatch fdt (-1) outMatch (m :: rest) =
          fdtFindMatch fdt (-1) outMatch rest := by
        simp [fdtFindMatch, heq, FDT_ERR_NOTFOUND]
      rw [hskip]
      rcases ih with ⟨node, m', hcand, hfind⟩ | ⟨hnone', hfind⟩
      · exact Or.inl ⟨node, m', .later hnone hcand, hfind⟩
      · refine Or.inr ⟨?_, hfind⟩
        rintro m' hm'
        rcases List.mem_cons.1 hm' with rfl | hm'
        · exact hnone
        · exact hnone' m' hm'

end ZStage.Fdt
