import ZStage.Libfdt.Parents
import ZStage.Fdt.Match

/-!
The searches over all nodes, by phandle and by `compatible`. The search goes through the
nodes of the tree in order; the test at a node reads properties, which are those of the
tree.
-/

namespace ZStage.Libfdt

open ZStage.Lib.BigEndian ZStage.Lib.Lexicographic ZStage.Lib.Preorder ZStage.Fdt ZStage.Serial

/-- The first result at one of some positions. -/
def search (g : Nat → Option Int) : List Nat → Int
  | [] => -FDT_ERR_NOTFOUND
  | j :: rest => (g j).getD (search g rest)

theorem search_eq_find (test : Nat → Bool) (result : Nat → Int) (positions : List Nat) :
    search (fun j => if test j then some (result j) else none) positions =
      match positions.find? test with
      | some j => result j
      | none => -FDT_ERR_NOTFOUND := by
  induction positions with
  | nil => rfl
  | cons j rest ih =>
    rw [search, List.find?_cons, ih]
    cases test j <;> rfl

namespace Dtb

variable {fdt : Dtb} {tokens : List Token}

/-! ## The search -/

/-- Without a node in front, `fdt_next_node` begins at the root. -/
theorem Presents.nextNode_start (h : fdt.Presents tokens) {fuel : Nat} (hfuel : 0 < fuel) :
    fdt.fdtNextNode fuel (-1) none = some (0, none) := by
  obtain ⟨root, rest, hnode, -, hoffset, -⟩ := h.root
  obtain ⟨fuel, rfl⟩ : ∃ n, fuel = n + 1 := ⟨fuel - 1, by omega⟩
  have hstep := fdt.fdtNextTag_of_tokenAt h.header hnode.token
  have hminus : ¬ (0 : Int) ≤ -1 := by decide
  rw [hoffset] at hstep
  rw [fdtNextNode, if_neg hminus]
  exact nextNodeLoop_beginNode hstep

/-- `fdt_next_node` goes from an offset to the first of some offsets, from there to the next
one, and finds nothing behind the last. -/
def Walks (fdt : Dtb) (fuel : Nat) : Int → List Nat → Prop
  | offset, [] => fdt.fdtNextNode fuel offset none = some (-FDT_ERR_NOTFOUND, none)
  | offset, next :: rest =>
    fdt.fdtNextNode fuel offset none = some ((next : Int), none) ∧ Walks fdt fuel next rest

theorem NodeAt.walks (hheader : fdt.Header) {fuel : Nat} (hfuel : fdt.totalsize < fuel) {e : Entry}
    {rest : List Token} (hnode : fdt.NodeAt e rest) :
    Walks fdt fuel e.offset ((later e rest).map Entry.offset) := by
  induction hlater : later e rest generalizing e rest with
  | nil =>
    have hnext := hnode.nextNode_none hheader (show fdt.totalsize < _ + fuel by omega)
    rwa [hlater] at hnext
  | cons e' post ih =>
    have hnext := hnode.nextNode_none hheader (show fdt.totalsize < _ + fuel by omega)
    obtain ⟨rest', hnode', hpost, -, -⟩ := hnode.next hlater
    rw [hlater] at hnext
    exact ⟨hnext, ih hnode' hpost.symm⟩

/-- The walk over all nodes. -/
theorem Presents.walks (h : fdt.Presents tokens) {fuel : Nat} (hfuel : fdt.totalsize < fuel) :
    Walks fdt fuel (-1) ((nodes tokens).map Entry.offset) := by
  obtain ⟨root, rest, hnode, hnodes, hoffset, -⟩ := h.root
  have hnext := h.nextNode_start (show 0 < fuel by omega)
  rw [← Int.natCast_zero, ← hoffset] at hnext
  rw [hnodes]
  exact ⟨hnext, hnode.walks h.header hfuel⟩

section Search

variable {body : Int → Option (Option Int)} {g : Nat → Option Int} {fuel : Nat}

/-- A round of the search that finds a next node. -/
theorem nodeSearch_found {offset : Int} {e : Entry} {result : Option Int}
    (hnext : fdt.fdtNextNode fuel offset none = some ((e.offset : Int), none))
    (hbody : body e.offset = some result) :
    fdt.nodeSearch body (fuel + 1) offset =
      result.elim (fdt.nodeSearch body fuel e.offset) some := by
  simp only [nodeSearch, hnext, hbody, Option.bind_eq_bind, Option.bind_some,
    Int.not_lt.2 (Int.natCast_nonneg e.offset), if_false]
  cases result <;> rfl

/-- The nodes behind a node are searched in their order. -/
theorem Presents.nodeSearch_from (h : fdt.Presents tokens)
    (hbody : ∀ j e, (nodes tokens)[j]? = some e → body e.offset = some (g j)) {i : Nat} {e : Entry}
    (hi : (nodes tokens)[i]? = some e) (hfuel : fdt.totalsize ≤ e.offset + fuel) :
    fdt.nodeSearch body fuel e.offset =
      some (search g ((List.range (nodes tokens).length).drop (i + 1))) := by
  induction hleft : (nodes tokens).length - i generalizing i e fuel with
  | zero =>
    have := (List.getElem?_eq_some_iff.1 hi).1
    omega
  | succ left ih =>
    obtain ⟨rest, hnode, hlater⟩ := h.nodeAt_position hi
    have hroom := hnode.token.fits.1
    have hsize := (Token.beginNode e.name).four_le_size
    have hinside : e.offset + _ ≤ inside e := Token.le_next _ _
    obtain ⟨fuel, rfl⟩ : ∃ n, fuel = n + 1 := ⟨fuel - 1, by omega⟩
    have hnext := hnode.nextNode_none h.header (show fdt.totalsize < _ + fuel by omega)
    rw [← hlater] at hnext
    by_cases hend : i + 1 < (nodes tokens).length
    · have hi' : (nodes tokens)[i + 1]? = some (nodes tokens)[i + 1] :=
        List.getElem?_eq_getElem hend
      rw [List.drop_eq_getElem_cons hend] at hnext hlater
      obtain ⟨-, -, -, hahead, -⟩ := hnode.next hlater.symm
      rw [nodeSearch_found hnext (hbody _ _ hi'), drop_range hend, search]
      cases g (i + 1) with
      | some r => rfl
      | none => exact ih hi' (by omega) (by omega)
    · have hneg : -FDT_ERR_NOTFOUND < 0 := by decide
      rw [List.drop_eq_nil_of_le (by omega)] at hnext
      rw [List.drop_eq_nil_of_le (by rw [List.length_range]; omega)]
      simp only [nodeSearch, hnext, firstOffset, Option.bind_eq_bind, Option.bind_some, hneg,
        if_true]
      rfl

/-- The search behind `start`, a node or -1 for one of all nodes. -/
theorem Presents.nodeSearch_eq (h : fdt.Presents tokens)
    (hbody : ∀ j e, (nodes tokens)[j]? = some e → body e.offset = some (g j)) {start : Int}
    (hstart : -1 ≤ start) (hlt : start < (nodes tokens).length) (hfuel : fdt.totalsize < fuel) :
    fdt.nodeSearch body fuel (place tokens start) =
      some (search g ((List.range (nodes tokens).length).drop (start + 1).toNat)) := by
  by_cases hneg : start < 0
  · obtain rfl : start = -1 := by omega
    obtain ⟨root, rest, hnode, hnodes, hoffset, -⟩ := h.root
    have hi : (nodes tokens)[0]? = some root := by
      rw [hnodes]
      rfl
    have hroom := hnode.token.fits.1
    have hsize := (Token.beginNode root.name).four_le_size
    obtain ⟨fuel, rfl⟩ : ∃ n, fuel = n + 1 + 1 := ⟨fuel - 2, by omega⟩
    have hnext := h.nextNode_start (Nat.succ_pos fuel)
    rw [← Int.natCast_zero, ← hoffset] at hnext
    have hall : (List.range (nodes tokens).length).drop ((-1 : Int) + 1).toNat =
        0 :: (List.range (nodes tokens).length).drop 1 := by
      rw [show ((-1 : Int) + 1).toNat = 0 from rfl]
      exact drop_range (List.getElem?_eq_some_iff.1 hi).1
    rw [place_neg hneg, nodeSearch_found hnext (hbody _ _ hi), hall, search]
    cases g 0 with
    | some r => rfl
    | none => exact h.nodeSearch_from hbody hi (by omega)
  · obtain ⟨i, rfl⟩ := Int.eq_ofNat_of_zero_le (Int.not_lt.1 hneg)
    have hi : (nodes tokens)[i]? = some (nodes tokens)[i] := List.getElem?_eq_getElem (by omega)
    rw [place_natCast hi]
    exact h.nodeSearch_from hbody hi (by omega)

end Search

/-! ## By phandle -/

theorem bigEndian_bytesAt (p start n : Nat) :
    bigEndian (fdt.bytesAt p) start n = bigEndian fdt.mem (p + start) n := by
  induction n with
  | zero => rfl
  | succ n ih => rw [bigEndian, bigEndian, ih, bytesAt, Nat.add_assoc]

section Lookups

variable (h : fdt.Presents tokens) {i : Nat} {e : Entry} {fuel : Nat}

/-- The value of a property of one cell, in the tree. -/
def oneCellOf : Except Int Property → Option UInt32
  | .ok php => if php.len = 4 then some (php.cell 0) else none
  | .error _ => none

theorem fdtGetPhandle_tree (tree : Tree) (nodeoffset : Int) :
    Fdt.fdtGetPhandle tree nodeoffset =
      ((oneCellOf (Fdt.fdtGetprop tree nodeoffset "phandle")).or
        (oneCellOf (Fdt.fdtGetprop tree nodeoffset "linux,phandle"))).getD 0 := by
  simp only [Fdt.fdtGetPhandle]
  cases Fdt.fdtGetprop tree nodeoffset "phandle" <;>
    cases Fdt.fdtGetprop tree nodeoffset "linux,phandle" <;> rfl

theorem Same.oneCell {r : Except Int Value} {r' : Except Int Property} (hsame : fdt.Same r r') :
    fdt.oneCell r = (oneCellOf r').map UInt32.toNat := by
  cases r with
  | error err =>
    cases r' with
    | error err' => rfl
    | ok p => exact hsame.elim
  | ok v =>
    cases r' with
    | error err' => exact hsame.elim
    | ok p =>
      obtain ⟨hlen, hmem⟩ := hsame
      have hcell : (p.cell 0).toNat = fdt.fdt32 v.data := by
        rw [Property.cell, word32_toNat, ← hmem, bigEndian_bytesAt, fdt32]
        rfl
      by_cases hfour : p.len = 4
      · simp [Dtb.oneCell, oneCellOf, hlen, hfour, hcell]
      · have hfour' : ¬ v.len = 4 := by omega
        simp [Dtb.oneCell, oneCellOf, hfour, hfour']

theorem Presents.getPhandle (hi : (nodes tokens)[i]? = some e) (hfuel : fdt.totalsize < fuel) :
    fdt.fdtGetPhandle fuel e.offset = some (Fdt.fdtGetPhandle h.tree i).toNat := by
  have hphandle : nameString (cstr "phandle") = "phandle" := by decide
  have hlinux : nameString (cstr "linux,phandle") = "linux,phandle" := by decide
  obtain ⟨r, hr, hsame⟩ := h.getprop hi hfuel (cstr "phandle")
  obtain ⟨r', hr', hsame'⟩ := h.getprop hi hfuel (cstr "linux,phandle")
  rw [hphandle] at hsame
  rw [hlinux] at hsame'
  simp only [fdtGetPhandle, fdtGetPhandle_tree, hr, hr', Option.bind_eq_bind, Option.bind_some,
    hsame.oneCell, hsame'.oneCell]
  cases oneCellOf (Fdt.fdtGetprop h.tree i "phandle") with
  | some phandle => rfl
  | none => cases oneCellOf (Fdt.fdtGetprop h.tree i "linux,phandle") <;> rfl

/-- `fdt_node_offset_by_phandle` finds the same node in the blob and in the tree. -/
theorem Presents.nodeOffsetByPhandle (hfuel : fdt.totalsize < fuel) (phandle : UInt32) :
    fdt.fdtNodeOffsetByPhandle fuel phandle.toNat =
      some (place tokens (Fdt.fdtNodeOffsetByPhandle h.tree phandle)) := by
  have hreserved : (phandle.toNat = 0 ∨ phandle.toNat = 0xffffffff) ↔
      (phandle = 0 ∨ phandle = 0xffffffff) :=
    or_congr (UInt32.toNat_inj (b := 0)) (UInt32.toNat_inj (b := 0xffffffff))
  rw [fdtNodeOffsetByPhandle, Fdt.fdtNodeOffsetByPhandle]
  by_cases hbad : phandle = 0 ∨ phandle = 0xffffffff
  · have hneg : -FDT_ERR_BADPHANDLE < 0 := by decide
    rw [if_pos (hreserved.2 hbad), if_pos hbad, place_neg hneg]
  · have hsearch : fdt.nodeSearch (fun offset => do
          let value ← fdt.fdtGetPhandle fuel offset
          some (if value = phandle.toNat then some offset else none)) fuel (place tokens (-1)) =
        some (search
          (fun j => if Fdt.fdtGetPhandle h.tree j = phandle then some (place tokens j) else none)
          ((List.range (nodes tokens).length).drop ((-1 : Int) + 1).toNat)) := by
      refine h.nodeSearch_eq ?_ (Int.le_refl (-1)) (by omega) hfuel
      intro j e hj
      simp only [h.getPhandle hj hfuel, Option.bind_eq_bind, Option.bind_some,
        UInt32.toNat_inj, place_natCast hj]
    have hminus : (-1 : Int) < 0 := by decide
    rw [place_neg hminus] at hsearch
    rw [if_neg (mt hreserved.1 hbad), if_neg hbad, if_neg (Int.not_lt.2 h.header.roProbe), hsearch,
      h.length_tree]
    have hfind := search_eq_find (fun j => Fdt.fdtGetPhandle h.tree j = phandle)
      (fun j => place tokens j) (List.range (nodes tokens).length)
    simp only [decide_eq_true_eq] at hfind
    rw [show ((-1 : Int) + 1).toNat = 0 from rfl, List.drop_zero, hfind]
    generalize (List.range (nodes tokens).length).find?
      (fun (j : Nat) => Fdt.fdtGetPhandle h.tree j = phandle) = found
    cases found <;> rfl

end Lookups

/-! ## By `compatible` -/

theorem memchr_eq_find (s : Nat → UInt8) (c : Int32) (n : Nat) :
    (Libc.memchr s c n).value = (List.range n).find? fun i => s i = Libc.toChar c := by
  cases n with
  | zero => rfl
  | succ n =>
    refine (Libc.memchr_isFirst s c n).unique ?_
    cases hfind : (List.range (n + 1)).find? fun i => s i = Libc.toChar c with
    | none =>
      intro j hj
      have hno := List.find?_eq_none.1 hfind j (List.mem_range.2 (by omega))
      exact fun hchar => hno (decide_eq_true hchar)
    | some k =>
      obtain ⟨hk, hmem, hbefore⟩ := List.find?_range_eq_some.1 hfind
      refine ⟨by have := List.mem_range.1 hmem; omega, of_decide_eq_true hk, ?_⟩
      intro j hj
      simpa using hbefore j hj

theorem initial_ofChars_succ (s : List UInt8) :
    initial (ofChars s) (s.length + 1) = s ++ [0] := by
  rw [initial, List.range_succ, List.map_append, ← initial, initial_ofChars]
  simp [ofChars]

/-- `memcmp(str, strlist, len + 1) == 0`, in the blob and in the tree. -/
theorem memcmp_startsWith (p : Property) (pos : Nat) (str : List UInt8) :
    (Libc.memcmp (ofChars str) (fun i => p.mem (pos + i)) (str.length + 1)).value = 0 ↔
      startsWith p pos str = true := by
  rw [memcmp_eq_zero_iff, initial_ofChars_succ, startsWith, List.all_eq_true]
  have hget (i : Nat) (hi : i < str.length + 1) :
      (initial (fun i => p.mem (pos + i)) (str.length + 1))[i]? = some (p.mem (pos + i)) := by
    rw [initial, List.getElem?_map, List.getElem?_range hi, Option.map_some]
  constructor
  · rintro h ⟨c, i⟩ hmem
    have hbyte := List.mk_mem_zipIdx_iff_getElem?.1 hmem
    have hi := (List.getElem?_eq_some_iff.1 hbyte).1
    rw [h, hget i (by simpa using hi), Option.some.injEq] at hbyte
    exact decide_eq_true hbyte
  · intro h
    apply List.ext_getElem
    · rw [List.length_append, initial_length, List.length_singleton]
    · intro i hi hi'
      rw [initial_length] at hi'
      have hmem := h _ (List.mk_mem_zipIdx_iff_getElem?.2 (List.getElem?_eq_getElem hi))
      have hsame := hget i hi'
      rw [List.getElem?_eq_getElem (by rwa [initial_length]), Option.some.injEq] at hsame
      rw [hsame]
      exact (of_decide_eq_true hmem).symm

/-- `fdt_stringlist_contains` on a value in the blob and on the same value in the tree. -/
theorem stringlistContains_eq {p : Property} {data : Nat} (hmem : fdt.bytesAt data = p.mem)
    (str : List UInt8) {pos listlen left : Nat} (hleft : listlen < left) :
    fdt.fdtStringlistContains (data + pos) listlen str left =
      Fdt.fdtStringlistContains p pos listlen str := by
  have hbytes (pos : Nat) : fdt.bytesAt (data + pos) = fun i => p.mem (pos + i) := by
    funext i
    rw [bytesAt_add, hmem, Nat.add_comm]
  induction left generalizing pos listlen with
  | zero => omega
  | succ left ih =>
    have hzero : Libc.toChar 0 = 0 := rfl
    rw [fdtStringlistContains, Fdt.fdtStringlistContains, hbytes, memchr_eq_find, hzero]
    by_cases hlen : str.length ≤ listlen
    · rw [if_pos (by omega), if_pos hlen]
      by_cases hstart : startsWith p pos str = true
      · rw [if_pos ((memcmp_startsWith p pos str).2 hstart), if_pos hstart]
      · rw [if_neg (mt (memcmp_startsWith p pos str).1 hstart), if_neg hstart,
          Int.toNat_natCast]
        split
        · next hnone =>
          split
          · rfl
          · next p' hsome => rw [hnone] at hsome; cases hsome
        · next q hsome =>
          have hq := List.mem_range.1 (List.mem_of_find?_eq_some hsome)
          split
          · next hnone => rw [hsome] at hnone; cases hnone
          · next q' hsome' =>
            obtain rfl := Option.some.inj (hsome.symm.trans hsome')
            rw [show ((listlen : Nat) : Int) - (q + 1) = (listlen - (q + 1) : Nat) by omega,
              Nat.add_assoc data, Nat.add_assoc data]
            exact ih (by omega)
    · rw [if_neg (by omega), if_neg hlen]

section Compatible

variable (h : fdt.Presents tokens) {i : Nat} {e : Entry} {fuel : Nat}

theorem Presents.checkCompatible (hi : (nodes tokens)[i]? = some e)
    (hfuel : fdt.totalsize < fuel) (compatible : List UInt8) :
    fdt.fdtNodeCheckCompatible fuel e.offset compatible =
      some (Fdt.fdtNodeCheckCompatible h.tree i compatible) := by
  have hname : nameString (cstr "compatible") = "compatible" := by decide
  obtain ⟨r, hr, hsame⟩ := h.getprop hi hfuel (cstr "compatible")
  rw [hname] at hsame
  simp only [fdtNodeCheckCompatible, Fdt.fdtNodeCheckCompatible, hr, Option.bind_eq_bind,
    Option.bind_some]
  generalize Fdt.fdtGetprop h.tree i "compatible" = r' at hsame
  cases r with
  | error err =>
    cases r' with
    | error err' => exact congrArg some hsame
    | ok p => exact hsame.elim
  | ok v =>
    cases r' with
    | error err' => exact hsame.elim
    | ok p =>
      obtain ⟨hlen, hmem⟩ := hsame
      have hcontains : fdt.fdtStringlistContains (v.data + 0) p.len compatible (p.len + 1) = _ :=
        stringlistContains_eq hmem compatible (Nat.lt_succ_self p.len)
      rw [Nat.add_zero] at hcontains
      simp only [hlen, Int.toNat_natCast, hcontains]

/-- What the body of the search returns at a node of the tree. -/
def compatibleResult (tree : Tree) (tokens : List Token) (compatible : List UInt8) (j : Nat) :
    Option Int :=
  let err := Fdt.fdtNodeCheckCompatible tree j compatible
  if err < 0 ∧ err ≠ -FDT_ERR_NOTFOUND then some err
  else if err = 0 then some (place tokens j)
  else none

theorem search_compatible (tree : Tree) (compatible : List UInt8) (positions : List Nat) :
    search (compatibleResult tree tokens compatible) positions =
      place tokens (compatibleLoop tree compatible positions) := by
  induction positions with
  | nil => rfl
  | cons j rest ih =>
    rw [search, compatibleLoop, ih, compatibleResult]
    split_ifs with herr hfound
    · rw [place_neg herr.1]
      rfl
    · rfl
    · rfl

/-- `fdt_node_offset_by_compatible` finds the same node in the blob and in the tree. -/
theorem Presents.nodeOffsetByCompatible (hfuel : fdt.totalsize < fuel) (compatible : List UInt8)
    {start : Int} (hstart : -1 ≤ start) (hlt : start < (nodes tokens).length) :
    fdt.fdtNodeOffsetByCompatible fuel (place tokens start) compatible =
      some (place tokens (Fdt.fdtNodeOffsetByCompatible h.tree start compatible)) := by
  rw [fdtNodeOffsetByCompatible, if_neg (Int.not_lt.2 h.header.roProbe),
    Fdt.fdtNodeOffsetByCompatible, h.length_tree, ← search_compatible]
  refine h.nodeSearch_eq ?_ hstart hlt hfuel
  intro j e hj
  simp only [h.checkCompatible hj hfuel, Option.bind_eq_bind, Option.bind_some, compatibleResult,
    place_natCast hj]

end Compatible

end Dtb

end ZStage.Libfdt
