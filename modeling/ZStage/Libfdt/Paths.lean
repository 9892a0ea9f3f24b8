import ZStage.Libfdt.NodeSearch

/-!
Paths. A component of a path is the name of a child, which may leave out the unit
address; `fdt_path_offset_namelen` goes from child to child, in an order that the
components give. A path that does not begin at the root begins with an alias.
-/

namespace ZStage.Libfdt

open ZStage.Lib.CString ZStage.Lib.Lexicographic ZStage.Lib.Preorder ZStage.Fdt ZStage.Serial

/-- A name is given by itself, and without an `@` in what is given, by what is in front of its
unit address. -/
def nameMatches (name s : List UInt8) : Bool := name = s ∨ 64 ∉ s ∧ s ++ [64] <+: name

/-- The first child of a node with a name. -/
def childNamed (tokens : List Token) (i : Nat) (s : List UInt8) : Option Nat :=
  firstChild (depths tokens) i fun j => (nodes tokens)[j]?.any fun e => nameMatches e.name s

/-- The node that names lead to, from a node down. -/
def resolve (tokens : List Token) (i : Nat) : List (List UInt8) → Option Nat
  | [] => some i
  | s :: rest => (childNamed tokens i s).bind fun j => resolve tokens j rest

/-- What is between the slashes of a path. -/
def components (path : List UInt8) : List (List UInt8) := (path.splitOn 47).filter (· ≠ [])

namespace Dtb

variable {fdt : Dtb} {tokens : List Token}

/-! ## Names -/

section Names

variable {e : Entry} {rest : List Token} {fuel : Nat}

theorem NodeAt.getName (hheader : fdt.Header) (h : fdt.NodeAt e rest)
    (hfuel : fdt.totalsize ≤ e.offset + fuel) :
    fdt.fdtGetName fuel e.offset =
      some (.ok (fdt.offDtStruct + e.offset + 4, e.name.length)) := by
  have hversion := hheader.version
  have hroom := h.token.fits.1
  have hstring := terminated_of_initial h.token.body.1 h.token.body.2
  have hlen := Libc.strlen_value hstring
    (show e.name.length < fuel by simp only [Token.size] at hroom; omega)
  rw [fdtGetName]
  simp only [h.checkOffset hheader, Int.not_lt.2 hheader.roProbe,
    Int.not_lt.2 (Int.natCast_nonneg _), if_false, Int.toNat_natCast,
    show ¬ fdt.version < 0x10 by omega, hlen]
  rfl

theorem memchr_unit (s : List UInt8) :
    (Libc.memchr (ofChars s) 64 s.length).value = none ↔ 64 ∉ s := by
  have hchar : Libc.toChar 64 = 64 := rfl
  conv => rhs; rw [← initial_ofChars s, initial]
  rw [memchr_eq_find, hchar, List.find?_range_eq_none]
  simp

theorem not_nameMatches {name s : List UInt8} (htake : name.take s.length ≠ s) :
    nameMatches name s = false := by
  have hne : name ≠ s := by
    rintro rfl
    exact htake (List.take_length)
  have hfront : ¬ s ++ [64] <+: name := by
    intro hpre
    have hself := List.prefix_iff_eq_take.1 ((List.prefix_append s [64]).trans hpre)
    exact htake hself.symm
  simp [nameMatches, hne, hfront]

/-- A name with more behind a part of it that is given. -/
theorem nameMatches_of_take {name s : List UInt8} (hlt : s.length < name.length)
    (htake : name.take s.length = s) :
    nameMatches name s = decide (64 ∉ s ∧ name[s.length] = 64) := by
  have hne : name ≠ s := fun heq => absurd (congrArg List.length heq) (by omega)
  have hfront : s ++ [64] <+: name ↔ name[s.length] = 64 := by
    rw [List.prefix_iff_eq_take, List.length_append, List.length_singleton,
      List.take_succ_eq_append_getElem hlt, htake, List.append_cancel_left_eq, List.cons.injEq]
    simp [eq_comm]
  simp [nameMatches, hne, hfront]

theorem NodeAt.nodenameEq (hheader : fdt.Header) (h : fdt.NodeAt e rest)
    (hfuel : fdt.totalsize ≤ e.offset + fuel) (s : List UInt8) :
    fdt.fdtNodenameEq fuel e.offset s = some (nameMatches e.name s) := by
  have hbytes := h.token.body.1
  have hbody := h.token.body.2
  rw [fdtNodenameEq, h.getName hheader hfuel]
  simp only [Option.bind_eq_bind, Option.bind_some]
  generalize fdt.offDtStruct + e.offset + 4 = p at hbytes
  have htake (k : Nat) (hk : k ≤ e.name.length) : initial (fdt.bytesAt p) k = e.name.take k := by
    rw [← List.take_append_of_le_length hk, ← hbytes, take_initial,
      Nat.min_eq_left (by omega)]
  have hget (k : Nat) (hk : k < e.name.length + 1) :
      (e.name ++ [0])[k]? = some (fdt.mem (p + k)) := by
    rw [← hbytes, initial, List.getElem?_map, List.getElem?_range hk, Option.map_some, bytesAt]
  by_cases hshort : e.name.length < s.length
  · rw [if_pos hshort, not_nameMatches]
    intro htake'
    have hlen := congrArg List.length htake'
    rw [List.length_take] at hlen
    omega
  · have hcmp : (Libc.memcmp (fdt.bytesAt p) (ofChars s) s.length).value = 0 ↔
        e.name.take s.length = s := by
      rw [memcmp_eq_zero_iff, initial_ofChars, htake _ (Nat.not_lt.1 hshort)]
    rw [if_neg hshort]
    by_cases hsame : e.name.take s.length = s
    · rw [if_neg (not_not.2 (hcmp.2 hsame))]
      rcases Nat.lt_or_eq_of_le (Nat.not_lt.1 hshort) with hlt | heq
      · -- a byte of the name is behind what is given
        have hbyte := hget s.length (by omega)
        rw [List.getElem?_append_left hlt, List.getElem?_eq_getElem hlt,
          Option.some.injEq] at hbyte
        have hbehind : fdt.mem (p + s.length) ≠ 0 := by
          rw [← hbyte]
          exact fun hnul => hbody (hnul ▸ List.getElem_mem hlt)
        rw [if_neg hbehind, nameMatches_of_take hlt hsame, hbyte]
        simp only [memchr_unit]
      · have hnul := hget s.length (by omega)
        rw [heq, List.getElem?_append_right (Nat.le_refl _), Nat.sub_self] at hnul
        have hall : e.name = s := by rw [← hsame, heq, List.take_length]
        rw [heq, if_pos (Option.some.inj hnul).symm]
        simp [nameMatches, hall]
    · rw [if_pos (mt hcmp.1 hsame), not_nameMatches hsame]

end Names

/-! ## Children -/

/-- The search of `fdt_subnode_offset_namelen` among the nodes behind some point, as a search
for an entry. -/
def scanEntries (d : Nat) (s : List UInt8) : List Entry → Option Entry
  | [] => none
  | e :: rest =>
    if e.depth ≤ d then none
    else if e.depth = d + 1 ∧ nameMatches e.name s then some e
    else scanEntries d s rest

def found : Option Entry → Int
  | some e => e.offset
  | none => -FDT_ERR_NOTFOUND

/-- Where the loop ends: outside the node that it began at. -/
theorem subnodeLoop_outside {s : List UInt8} {fuel : Nat} {offset depth : Int} (hfuel : 0 < fuel) :
    fdt.subnodeLoop s fuel offset ((some (-1)).getD depth) = some (-FDT_ERR_NOTFOUND) := by
  obtain ⟨fuel, rfl⟩ : ∃ n, fuel = n + 1 := ⟨fuel - 1, by omega⟩
  simp [subnodeLoop]

theorem NodeAt.fuel_pos {e : Entry} {rest : List Token} {fuel : Nat} (h : fdt.NodeAt e rest)
    (hfuel : fdt.totalsize < e.offset + fuel) : ∃ n, fuel = n + 1 ∧ 0 < n := by
  have hroom := h.token.fits.1
  have hsize := (Token.beginNode e.name).four_le_size
  exact ⟨fuel - 1, by omega, by omega⟩

theorem subnodeLoop_round (hheader : fdt.Header) (s : List UInt8) {d : Nat} {e : Entry}
    {rest : List Token} {fuel : Nat} (hnode : fdt.NodeAt e rest) (hd : d ≤ e.depth)
    (hfuel : fdt.totalsize ≤ e.offset + fuel) {next : Int × Option Int}
    (hnext : fdt.fdtNextNode fuel e.offset (some (e.depth - d : Int)) = some next) :
    fdt.subnodeLoop s (fuel + 1) e.offset (e.depth - d : Int) =
      if e.depth = d + 1 ∧ nameMatches e.name s then some (e.offset : Int)
      else fdt.subnodeLoop s fuel next.1 (next.2.getD (e.depth - d)) := by
  rw [subnodeLoop, if_pos (by omega)]
  by_cases hchild : e.depth = d + 1
  · simp only [hchild, show ((d + 1 : Nat) : Int) - d = 1 by omega, if_true,
      hnode.nodenameEq hheader hfuel, Option.bind_eq_bind, Option.bind_some, true_and]
    rw [hchild, show ((d + 1 : Nat) : Int) - d = 1 by omega] at hnext
    rw [hnext]
    rfl
  · have hne : ¬ (e.depth : Int) - d = 1 := by omega
    simp [hne, hchild, hnext]

/-- The loop at a node in the one, of depth `d`, that it began at. -/
theorem subnodeLoop_eq (hheader : fdt.Header) (s : List UInt8) (d : Nat) {e : Entry}
    {rest : List Token} {fuel : Nat} (hnode : fdt.NodeAt e rest) (hd : d ≤ e.depth)
    (hfuel : fdt.totalsize < e.offset + fuel) :
    fdt.subnodeLoop s fuel e.offset (e.depth - d : Int) =
      some (if e.depth = d + 1 ∧ nameMatches e.name s then (e.offset : Int)
        else found (scanEntries d s (later e rest))) := by
  induction hlater : later e rest generalizing e rest fuel with
  | nil =>
    obtain ⟨fuel, rfl, hfuel'⟩ := hnode.fuel_pos hfuel
    obtain ⟨r, hnext, hreach⟩ := hnode.nextNode_reaches hheader
      (show fdt.totalsize < inside e + fuel by have := NodeAt.lt_inside e; omega)
      (show (0 : Int) ≤ e.depth + -d by omega)
    rw [hlater, Reaches, if_neg (by omega)] at hreach
    rw [subnodeLoop_round hheader s hnode hd (by omega) hnext, hreach.2, scanEntries,
      subnodeLoop_outside hfuel']
    split_ifs <;> rfl
  | cons e' post ih =>
    obtain ⟨fuel, rfl, hfuel'⟩ := hnode.fuel_pos hfuel
    obtain ⟨r, hnext, hreach⟩ := hnode.nextNode_reaches hheader
      (show fdt.totalsize < inside e + fuel by have := NodeAt.lt_inside e; omega)
      (show (0 : Int) ≤ e.depth + -d by omega)
    rw [hlater, Reaches] at hreach
    rw [subnodeLoop_round hheader s hnode hd (by omega) hnext, scanEntries]
    by_cases hinside : (0 : Int) < e'.depth + -d
    · obtain ⟨rest', hnode', rfl, hahead, -⟩ := hnode.next hlater
      rw [if_pos hinside] at hreach
      subst hreach
      have hrest := ih hnode' (by omega) (show fdt.totalsize < e'.offset + fuel by omega) rfl
      rw [if_neg (show ¬ e'.depth ≤ d by omega)]
      simp only [Option.getD_some, ← Int.sub_eq_add_neg, hrest]
      split_ifs <;> rfl
    · rw [if_neg hinside] at hreach
      rw [if_pos (show e'.depth ≤ d by omega), hreach.2, subnodeLoop_outside hfuel']
      split_ifs <;> rfl

def placeFound (tokens : List Token) : Option Nat → Int
  | some j => place tokens j
  | none => -FDT_ERR_NOTFOUND

theorem found_scanEntries (d : Nat) (s : List UInt8) {es : List Entry} {j : Nat}
    (hes : (nodes tokens).drop j = es) :
    found (scanEntries d s es) =
      placeFound tokens
        (scanChildren d (fun k => (nodes tokens)[k]?.any fun e => nameMatches e.name s) j
          (es.map Entry.depth)) := by
  induction es generalizing j with
  | nil => rfl
  | cons e es ih =>
    have hj : (nodes tokens)[j]? = some e := by
      rw [← Nat.add_zero j, ← List.getElem?_drop, hes]
      rfl
    have hnext : (nodes tokens).drop (j + 1) = es := by
      rw [← List.drop_drop, hes]
      rfl
    rw [scanEntries, List.map_cons, scanChildren, hj, Option.any_some]
    split_ifs
    · rfl
    · exact (place_natCast hj).symm
    · exact ih hnext

theorem components_slash (path : List UInt8) : components (47 :: path) = components path := by
  rw [components, List.splitOn_cons_eq_if_modifyHead, if_pos (by decide), List.filter_cons,
    if_neg (by decide), components]

theorem components_cons {c : UInt8} (hc : c ≠ 47) (path : List UInt8) :
    components (c :: path) =
      (c :: path.takeWhile (· ≠ 47)) :: components (path.dropWhile (· ≠ 47)) := by
  have hhead : ∀ x ∈ c :: path.takeWhile (· ≠ 47), (x == 47) = false := by
    intro x hx
    rcases List.mem_cons.1 hx with rfl | hx
    · simp [hc]
    · simpa using List.all_eq_true.1 List.all_takeWhile x hx
  have hsplit : c :: path = (c :: path.takeWhile (· ≠ 47)) ++ path.dropWhile (· ≠ 47) := by
    rw [List.cons_append, List.takeWhile_append_dropWhile]
  cases hrest : path.dropWhile (· ≠ 47) with
  | nil =>
    rw [hrest, List.append_nil] at hsplit
    rw [components, List.splitOn, hsplit, List.splitOnP_eq_singleton hhead]
    rfl
  | cons x rest =>
    have hslash : x = 47 := by
      have hne : path.dropWhile (· ≠ 47) ≠ [] := hrest ▸ List.cons_ne_nil x rest
      have hhead := List.head_dropWhile_not (fun c : UInt8 => decide (c ≠ 47)) hne
      simpa only [hrest, List.head_cons, decide_eq_false_iff_not, not_not] using hhead
    subst hslash
    rw [hrest] at hsplit
    rw [components_slash, components, List.splitOn, hsplit,
      List.splitOnP_append_cons_of_forall_mem hhead 47 (by decide), List.filter_cons,
      if_pos (by simp), components, List.splitOn]

theorem childNamed_node {i j : Nat} {s : List UInt8} (h : childNamed tokens i s = some j) :
    ∃ e, (nodes tokens)[j]? = some e := by
  have htest := List.find?_some h
  rw [Bool.decide_and, Bool.and_eq_true, decide_eq_true_eq, decide_eq_true_eq] at htest
  obtain ⟨e, he, -⟩ := (Option.any_eq_true _ _).1 htest.2
  exact ⟨e, he⟩

section Presents

variable (h : fdt.Presents tokens) {i : Nat} {e : Entry} {fuel : Nat}

include h

/-- `fdt_subnode_offset_namelen` finds the first child with the name. -/
theorem Presents.subnodeOffset (hi : (nodes tokens)[i]? = some e) (hfuel : fdt.totalsize < fuel)
    (s : List UInt8) :
    fdt.fdtSubnodeOffset fuel e.offset s = some (placeFound tokens (childNamed tokens i s)) := by
  obtain ⟨rest, hnode, hlater⟩ := h.nodeAt_position hi
  have hloop := subnodeLoop_eq h.header s e.depth hnode (Nat.le_refl _)
    (show fdt.totalsize < e.offset + fuel by omega)
  have hchildren := (isPreorder_depths h.nested).scanChildren_eq_firstChild
    (fun k => (nodes tokens)[k]?.any fun e => nameMatches e.name s) (depths_getElem? hi)
  rw [Int.sub_self, if_neg (by omega), ← hlater, found_scanEntries e.depth s rfl, List.map_drop,
    ← depths, hchildren, ← childNamed] at hloop
  rw [fdtSubnodeOffset, if_neg (Int.not_lt.2 h.header.roProbe), hloop]

theorem Presents.pathLoop_resolve (hi : (nodes tokens)[i]? = some e) (hfuel : fdt.totalsize < fuel)
    (path : List UInt8) :
    fdt.pathLoop fuel e.offset path =
      some (placeFound tokens (resolve tokens i (components path))) := by
  induction hlen : path.length using Nat.strongRecOn generalizing path i e with
  | ind n ih =>
    cases path with
    | nil =>
      rw [pathLoop]
      exact congrArg some (place_natCast hi).symm
    | cons c path =>
      rw [pathLoop]
      by_cases hslash : c = 47
      · rw [if_pos hslash, hslash, components_slash]
        exact ih path.length (by rw [← hlen]; exact Nat.lt_succ_self _) hi path rfl
      · have hshort := (List.dropWhile_suffix (l := path) (· ≠ 47)).length_le
        rw [if_neg hslash, h.subnodeOffset hi hfuel, components_cons hslash, resolve]
        simp only [Option.bind_eq_bind, Option.bind_some]
        cases hchild : childNamed tokens i (c :: path.takeWhile (· ≠ 47)) with
        | none => rfl
        | some j =>
          obtain ⟨e', hj⟩ := childNamed_node hchild
          have hplace : placeFound tokens (some j) = e'.offset := place_natCast hj
          rw [hplace, if_neg (Int.not_lt.2 (Int.natCast_nonneg _)), Option.bind_some]
          exact ih (path.dropWhile (· ≠ 47)).length
            (by rw [← hlen]; exact Nat.lt_succ_of_le hshort) hj _ rfl

end Presents

end Dtb

end ZStage.Libfdt
