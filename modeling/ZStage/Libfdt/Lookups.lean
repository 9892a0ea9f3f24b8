import ZStage.Libfdt.Helper
import ZStage.Libfdt.Layout

/-!
The lookups of libfdt, which scan the tokens of the structure block, and the tree that
the tokens spell. What they find at the offset of a node is what the tree has at its
position: properties, the parent, the ancestors, the children by name. The searches
through all nodes find the first node of the tree.
-/

namespace ZStage.Libfdt

open ZStage.Lib.Preorder ZStage.Fdt ZStage.Serial

namespace Dtb

variable {fdt : Dtb} {tokens : List Token} {fuel : Nat}

/-- The lookups at a node. -/
theorem lookups_on_blob (h : fdt.Presents tokens) (hfuel : fdt.totalsize < fuel) {i : Nat}
    {e : Entry} (hi : (nodes tokens)[i]? = some e) :
    (∀ name, ∃ r, fdt.fdtGetprop fuel e.offset name = some r ∧
      fdt.Same r (Fdt.fdtGetprop h.tree i (nameString name))) ∧
    fdt.fdtParentOffset fuel e.offset = some (place tokens (Fdt.fdtParentOffset h.tree i)) ∧
    fdt.fdtNodeDepth fuel e.offset = some (e.depth : Int) ∧
    (Fdt.fdtParentOffset h.tree)^[e.depth] i = 0 ∧
    (∀ k : Nat, fdt.fdtSupernodeAtdepthOffset fuel e.offset k =
      some (if e.depth < k then -FDT_ERR_NOTFOUND
        else place tokens ((Fdt.fdtParentOffset h.tree)^[e.depth - k] i), some (e.depth : Int))) ∧
    ∀ name, fdt.fdtSubnodeOffset fuel e.offset name =
      some (match (List.range (nodes tokens).length).find? fun j =>
          parent (depths tokens) j = some i ∧
            (nodes tokens)[j]?.any fun e => nameMatches e.name name with
        | some j => place tokens j
        | none => -FDT_ERR_NOTFOUND) := by
  refine ⟨h.getprop hi hfuel, h.parentOffset hi hfuel, h.nodeDepth hi hfuel, h.iterate_depth hi,
    ?_, ?_⟩
  · intro k
    by_cases hk : e.depth < k
    · rw [if_pos hk, h.supernode hi hfuel, if_pos (by omega)]
    · rw [if_neg hk, h.supernode_ancestor hi hfuel (by omega)]
  · intro name
    rw [h.subnodeOffset hi hfuel, childNamed, firstChild, depths, List.length_map]
    rfl

theorem lookups_on_blob_board :
    (Source.board.blob 0x82200000).fdtParentOffset 1000 (place Source.board.tokens 4) =
      some (place Source.board.tokens 3) ∧
    (Source.board.blob 0x82200000).fdtSubnodeOffset 1000 (place Source.board.tokens 3)
      (cstr "serial") = some (place Source.board.tokens 4) := by
  have hfuel : (Source.board.blob 0x82200000).totalsize < 1000 := by decide +kernel
  have hlen : (nodes Source.board.tokens).length = 5 := by decide +kernel
  have huart := List.getElem?_eq_getElem (show 4 < (nodes Source.board.tokens).length by omega)
  have hbus := List.getElem?_eq_getElem (show 3 < (nodes Source.board.tokens).length by omega)
  obtain ⟨-, hparent, -⟩ := lookups_on_blob Source.board_presents hfuel huart
  obtain ⟨-, -, -, -, -, hchild⟩ := lookups_on_blob Source.board_presents hfuel hbus
  rw [← place_natCast huart] at hparent
  rw [← place_natCast hbus] at hchild
  have hup : Fdt.fdtParentOffset Source.board_presents.tree (4 : Nat) = 3 := by decide +kernel
  rw [hup] at hparent
  refine ⟨hparent, (hchild (cstr "serial")).trans ?_⟩
  decide +kernel

/-- The searches through all nodes, from a node on or from the beginning. -/
theorem searches_on_blob (h : fdt.Presents tokens) (hfuel : fdt.totalsize < fuel) :
    Walks fdt fuel (-1) ((nodes tokens).map Entry.offset) ∧
    (∀ phandle : UInt32, fdt.fdtNodeOffsetByPhandle fuel phandle.toNat =
      some (place tokens (Fdt.fdtNodeOffsetByPhandle h.tree phandle))) ∧
    (∀ compatible (start : Int), -1 ≤ start → start < (nodes tokens).length →
      fdt.fdtNodeOffsetByCompatible fuel (place tokens start) compatible =
        some (place tokens (Fdt.fdtNodeOffsetByCompatible h.tree start compatible))) ∧
    ∀ outMatch table, fdt.fdtFindMatch fuel (-1) outMatch table =
      some (place tokens (Fdt.fdtFindMatch h.tree (-1) outMatch table).1,
        (Fdt.fdtFindMatch h.tree (-1) outMatch table).2) :=
  ⟨h.walks hfuel, h.nodeOffsetByPhandle hfuel,
    fun compatible _ hstart hlt => h.nodeOffsetByCompatible hfuel compatible hstart hlt,
    h.findMatch hfuel⟩

theorem searches_on_blob_board :
    (Source.board.blob 0x82200000).fdtNodeOffsetByPhandle 1000 1 =
      some (place Source.board.tokens 4) ∧
    (Source.board.blob 0x82200000).fdtFindMatch 1000 (-1) none serialUart8250Match =
      some (place Source.board.tokens 4, some ⟨cstr "ns16550"⟩) := by
  obtain ⟨-, hphandle, -, hmatch⟩ := searches_on_blob Source.board_presents
    (show (Source.board.blob 0x82200000).totalsize < 1000 by decide +kernel)
  refine ⟨(hphandle 1).trans ?_, (hmatch none serialUart8250Match).trans ?_⟩
  · decide +kernel
  · decide +kernel

end Dtb

end ZStage.Libfdt
