import ZStage.Libfdt.Presented

/-!
Parents. `fdt_supernode_atdepth_offset` walks from the root to a node and remembers the
last node that it saw at the depth asked for, which is the ancestor of the node there.
-/

namespace ZStage.Libfdt

open ZStage.Lib.Preorder ZStage.Fdt

namespace Dtb

variable {fdt : Dtb} {tokens : List Token}

theorem le_offset_of_entries {tokens : List Token} {o m : Nat} {e : Entry}
    (h : e ∈ entries o m tokens) : o ≤ e.offset := by
  induction tokens generalizing o m with
  | nil => cases h
  | cons t rest ih =>
    have hnext := t.lt_next o
    cases t with
    | beginNode name =>
      rw [entries] at h
      rcases List.mem_cons.1 h with rfl | h
      · exact Nat.le_refl o
      · have := ih h
        omega
    | endNode =>
      have := ih h
      omega
    | prop len nameoff =>
      have := ih h
      omega
    | nop =>
      have := ih h
      omega
    | finish => cases h

section NodeAt

variable {e e' : Entry} {rest : List Token} {post : List Entry}

/-- The node behind a node. -/
theorem NodeAt.next (h : fdt.NodeAt e rest) (hpost : later e rest = e' :: post) :
    ∃ rest', fdt.NodeAt e' rest' ∧ post = later e' rest' ∧ e.offset < e'.offset ∧
      0 < e'.depth := by
  obtain ⟨rest', hnode, htail⟩ := nodeAt_of_entries (Token.four_dvd_next _ _) h.spells h.closes
    (hpost.trans (List.nil_append _).symm)
  have hmem : e' ∈ entries (inside e) (e.depth + 1) rest := by
    rw [show entries (inside e) (e.depth + 1) rest = e' :: post from hpost]
    exact List.mem_cons_self
  have hinside := NodeAt.lt_inside e
  have hoffset := le_offset_of_entries hmem
  exact ⟨rest', hnode, htail, by omega, (isChain_depth h.closes (Nat.le_refl _)).2 e' hmem⟩

end NodeAt

/-- The offset of the last of some nodes at a depth; `acc` when there is none. -/
def lastOffset (depth : Int) (acc : Int) (es : List Entry) : Int :=
  es.foldl (fun acc e => if e.depth = depth then (e.offset : Int) else acc) acc

theorem lastOffset_cons (depth acc : Int) (e : Entry) (es : List Entry) :
    lastOffset depth acc (e :: es) =
      lastOffset depth (if e.depth = depth then (e.offset : Int) else acc) es := rfl

theorem lastOffset_of_none {k : Nat} {es : List Entry}
    (hnone : lastAt k (es.map Entry.depth) = none) (acc : Int) : lastOffset k acc es = acc := by
  induction es generalizing acc with
  | nil => rfl
  | cons x es ih =>
    rw [lastAt_eq_none_iff, List.map_cons, List.mem_cons, not_or] at hnone
    rw [lastOffset_cons, if_neg (by omega)]
    exact ih (lastAt_eq_none_iff.2 hnone.2) acc

theorem lastOffset_of_lastAt {k j : Nat} {es : List Entry} {e : Entry}
    (hlast : lastAt k (es.map Entry.depth) = some j) (he : es[j]? = some e) (acc : Int) :
    lastOffset k acc es = e.offset := by
  induction es generalizing acc j with
  | nil => cases he
  | cons x es ih =>
    rw [List.map_cons, lastAt] at hlast
    rw [lastOffset_cons]
    cases hrest : lastAt k (es.map Entry.depth) with
    | some i =>
      rw [hrest] at hlast
      obtain rfl := Option.some.inj hlast
      exact ih hrest he _
    | none =>
      rw [hrest] at hlast
      by_cases hk : x.depth = k
      · simp only [if_pos hk, Option.some.injEq] at hlast
        subst hlast
        obtain rfl := Option.some.inj he
        rw [lastOffset_of_none hrest, hk, if_pos rfl]
      · simp [hk] at hlast

/-- The walk of `fdt_supernode_atdepth_offset` from a node to one behind it. -/
theorem supernodeLoop_eq (hheader : fdt.Header) (supernodedepth : Int) {target : Entry}
    {after mid : List Entry} {e : Entry} {rest : List Token} {fuel : Nat} (acc : Int)
    (hnode : fdt.NodeAt e rest) (hsplit : e :: later e rest = mid ++ target :: after)
    (hfuel : fdt.totalsize < e.offset + fuel) :
    fdt.supernodeLoop target.offset supernodedepth fuel e.offset e.depth acc =
      some (if target.depth < supernodedepth then -FDT_ERR_NOTFOUND
        else lastOffset supernodedepth acc (mid ++ [target]), some (target.depth : Int)) := by
  induction mid generalizing e rest fuel acc with
  | nil =>
    obtain ⟨rfl, -⟩ := List.cons.inj hsplit
    have hroom := hnode.token.fits.1
    obtain ⟨fuel, rfl⟩ : ∃ n, fuel = n + 1 := ⟨fuel - 1, by omega⟩
    rw [supernodeLoop, if_pos ⟨Int.natCast_nonneg _, Int.le_refl _⟩, if_pos rfl]
    rfl
  | cons first mid ih =>
    obtain ⟨rfl, hlater⟩ := List.cons.inj hsplit
    have hroom := hnode.token.fits.1
    obtain ⟨fuel, rfl⟩ : ∃ n, fuel = n + 1 := ⟨fuel - 1, by omega⟩
    obtain ⟨next, post, hpost⟩ : ∃ next post, later e rest = next :: post := by
      rw [hlater]
      cases mid with
      | nil => exact ⟨_, _, rfl⟩
      | cons next mid => exact ⟨_, _, rfl⟩
    obtain ⟨rest', hnode', rfl, hlt, hpos⟩ := hnode.next hpost
    have hahead : e.offset < target.offset := by
      have hmem : target ∈ later e rest := hlater ▸ by simp
      have hle := le_offset_of_entries hmem
      have hinside := NodeAt.lt_inside e
      omega
    obtain ⟨r, hnext, hreach⟩ := hnode.nextNode_reaches hheader
      (show fdt.totalsize < inside e + fuel by have := NodeAt.lt_inside e; omega)
      (show (0 : Int) ≤ e.depth + 0 by omega)
    rw [Int.add_zero] at hnext
    rw [hpost, Reaches, if_pos (by omega), Int.add_zero] at hreach
    subst hreach
    rw [supernodeLoop, if_pos (by omega), if_neg (by omega), hnext]
    have hrest := ih (if (e.depth : Int) = supernodedepth then e.offset else acc) hnode'
      (hpost ▸ hlater) (show fdt.totalsize < _ + fuel by omega)
    simp only [List.cons_append, lastOffset_cons]
    exact hrest

section Presents

variable (h : fdt.Presents tokens) {i : Nat} {e : Entry} {fuel : Nat}

include h in
theorem Presents.supernode (hi : (nodes tokens)[i]? = some e) (hfuel : fdt.totalsize < fuel)
    (k : Nat) :
    fdt.fdtSupernodeAtdepthOffset fuel e.offset k =
      some (if (e.depth : Int) < k then -FDT_ERR_NOTFOUND
        else lastOffset k (-FDT_ERR_INTERNAL) ((nodes tokens).take (i + 1)),
          some (e.depth : Int)) := by
  obtain ⟨root, rest, hnode, hnodes, hoffset, hdepth⟩ := h.root
  obtain ⟨hlt, rfl⟩ := List.getElem?_eq_some_iff.1 hi
  have hsplit : root :: later root rest =
      (nodes tokens).take i ++ (nodes tokens)[i] :: (nodes tokens).drop (i + 1) := by
    rw [← hnodes, List.getElem_cons_drop, List.take_append_drop]
  have hloop := supernodeLoop_eq h.header k (-FDT_ERR_INTERNAL) hnode hsplit
    (show fdt.totalsize < _ + fuel by omega)
  rw [hoffset, hdepth] at hloop
  rw [fdtSupernodeAtdepthOffset, if_neg (Int.not_lt.2 h.header.roProbe),
    if_neg (Int.not_lt.2 (Int.natCast_nonneg k)), List.take_succ_eq_append_getElem hlt]
  exact hloop

/-- A step up in the tree. -/
theorem Presents.parentOffset_tree (hi : (nodes tokens)[i]? = some e) :
    Fdt.fdtParentOffset h.tree i =
      match parent (depths tokens) i with
      | none => -FDT_ERR_NOTFOUND
      | some p => (p : Int) := by
  cases hparent : parent (depths tokens) i <;>
    simp only [Fdt.fdtParentOffset, h.node?_eq hi, hparent]

/-- The ancestor of a node, by steps up in the tree. -/
theorem Presents.iterate_parentOffset {n a : Nat} (hi : (nodes tokens)[i]? = some e)
    (ha : ancestor (depths tokens) n i = some a) :
    (Fdt.fdtParentOffset h.tree)^[n] i = a ∧ a < (nodes tokens).length := by
  induction n generalizing i e with
  | zero =>
    obtain rfl := Option.some.inj ha
    exact ⟨rfl, (List.getElem?_eq_some_iff.1 hi).1⟩
  | succ n ih =>
    rw [ancestor] at ha
    obtain ⟨p, hp, hrest⟩ := Option.bind_eq_some_iff.1 ha
    have hlt : p < (nodes tokens).length := by
      have := parent_lt hp
      have := (List.getElem?_eq_some_iff.1 hi).1
      omega
    have hstep := h.parentOffset_tree hi
    rw [hp] at hstep
    rw [Function.iterate_succ_apply, hstep]
    exact ih (List.getElem?_eq_getElem hlt) hrest

/-- The node found at a depth is the ancestor of the node that many levels up. -/
theorem Presents.supernode_ancestor (hi : (nodes tokens)[i]? = some e)
    (hfuel : fdt.totalsize < fuel) {k : Nat} (hk : k ≤ e.depth) :
    fdt.fdtSupernodeAtdepthOffset fuel e.offset k =
      some (place tokens ((Fdt.fdtParentOffset h.tree)^[e.depth - k] i), some (e.depth : Int)) := by
  have hpreorder := isPreorder_depths h.nested
  have hdepth : (depths tokens)[i]? = some (k + (e.depth - k)) := by
    rw [depths_getElem? hi, Nat.add_sub_of_le hk]
  obtain ⟨a, ha, -⟩ := hpreorder.ancestor_isSome hdepth
  obtain ⟨hiterate, hlt⟩ := h.iterate_parentOffset hi ha
  have hlast := hpreorder.lastAt_eq_ancestor hdepth
  rw [ha, depths, ← List.map_take] at hlast
  have hle : a < i + 1 := by
    rw [List.map_take] at hlast
    exact (lastAt_take_eq_some_iff.1 hlast).1
  have hnode : (nodes tokens)[a]? = some (nodes tokens)[a] := List.getElem?_eq_getElem hlt
  rw [h.supernode hi hfuel, if_neg (by omega),
    lastOffset_of_lastAt hlast (by rw [List.getElem?_take, if_pos hle, hnode]), hiterate,
    place_natCast hnode]

/-- As many steps up as there are nodes around a node lead to the root. -/
theorem Presents.iterate_depth (hi : (nodes tokens)[i]? = some e) :
    (Fdt.fdtParentOffset h.tree)^[e.depth] i = 0 := by
  have hpreorder := isPreorder_depths h.nested
  obtain ⟨a, ha, hzero⟩ := hpreorder.ancestor_isSome (k := 0) (n := e.depth)
    (by rw [depths_getElem? hi, Nat.zero_add])
  have hroot : a = 0 := by
    by_contra hne
    exact Nat.lt_irrefl 0 (hpreorder.inner a 0 (Nat.pos_of_ne_zero hne) hzero)
  rw [(h.iterate_parentOffset hi ha).1, hroot]
  rfl

include h in
theorem Presents.nodeDepth (hi : (nodes tokens)[i]? = some e) (hfuel : fdt.totalsize < fuel) :
    fdt.fdtNodeDepth fuel e.offset = some (e.depth : Int) := by
  have hfound := h.supernode_ancestor hi hfuel (Nat.zero_le _)
  obtain ⟨root, rest, -, hnodes, hoffset, -⟩ := h.root
  have hplace : place tokens (0 : Nat) = root.offset := place_natCast (by rw [hnodes]; rfl)
  rw [Nat.sub_zero, h.iterate_depth hi, ← Int.natCast_zero, hplace, hoffset] at hfound
  rw [fdtNodeDepth, ← Int.natCast_zero, hfound]
  rfl

/-- `fdt_parent_offset` on the bytes is a step up in the tree. -/
theorem Presents.parentOffset (hi : (nodes tokens)[i]? = some e) (hfuel : fdt.totalsize < fuel) :
    fdt.fdtParentOffset fuel e.offset = some (place tokens (Fdt.fdtParentOffset h.tree i)) := by
  simp only [fdtParentOffset, h.nodeDepth hi hfuel, Option.bind_eq_bind, Option.bind_some,
    Int.not_lt.2 (Int.natCast_nonneg e.depth), if_false]
  cases hdepth : e.depth with
  | zero =>
    have hnone : parent (depths tokens) i = none := by
      rw [parent, depths_getElem? hi, hdepth]
    have hroot : ((0 : Nat) : Int) - 1 < 0 := by decide
    have hcode : -FDT_ERR_NOTFOUND < 0 := by decide
    simp only [fdtSupernodeAtdepthOffset, Int.not_lt.2 h.header.roProbe, hroot, if_false, if_true,
      Option.bind_some, h.parentOffset_tree hi, hnone, place_neg hcode]
  | succ d =>
    have hfound := h.supernode_ancestor hi hfuel (k := d) (by omega)
    rw [show e.depth - d = 1 by omega, Function.iterate_one] at hfound
    rw [show ((d + 1 : Nat) : Int) - 1 = (d : Nat) by omega, hfound]
    rfl

end Presents

end Dtb

end ZStage.Libfdt
