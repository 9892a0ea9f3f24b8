import ZStage.Libfdt.Properties
import ZStage.Lib.Preorder

/-!
The tree that a blob presents. A blob whose header passes the checks, and whose structure
block spells well nested tokens, is a tree: its nodes are those of the tokens, and the
parent of a node is the last node in front of it that is one level up. `fdt_getprop` on
the bytes is `fdt_getprop` of that tree.
-/

namespace ZStage.Libfdt

open ZStage.Lib.BigEndian ZStage.Lib.Preorder ZStage.Fdt

/-- A node that is closed, and the end of the block. -/
def wellNested : List Token → Bool
  | .beginNode _ :: rest => closes 1 rest
  | _ => false

/-- The nodes of the tokens of a structure block. -/
def nodes (tokens : List Token) : List Entry := entries 0 0 tokens

/-- How many nodes are around each node. -/
def depths (tokens : List Token) : List Nat := (nodes tokens).map Entry.depth

def nameString (name : List UInt8) : String := String.ofList (name.map fun c => Char.ofNat c.toNat)

theorem charOfByte (c : UInt8) : (Char.ofNat c.toNat).toNat = c.toNat := by
  have hlt := c.toNat_lt
  have hvalid : Nat.isValidChar c.toNat := Or.inl (by omega)
  rw [Char.ofNat, dif_pos hvalid]
  rfl

theorem nameString_inj {a b : List UInt8} : nameString a = nameString b ↔ a = b := by
  refine ⟨?_, congrArg nameString⟩
  intro h
  have hchars := congrArg String.toList h
  rw [nameString, nameString, String.toList_ofList, String.toList_ofList] at hchars
  refine List.map_injective_iff.2 ?_ hchars
  intro c d hcd
  have hnat := congrArg Char.toNat hcd
  rw [charOfByte, charOfByte] at hnat
  exact UInt8.toNat.inj hnat

/-- An error, or the position of a node. -/
def IsPosition (tokens : List Token) (position : Int) : Prop :=
  position < 0 ∨ ∃ i e, position = (i : Nat) ∧ (nodes tokens)[i]? = some e

namespace Dtb

variable (fdt : Dtb)

structure Presents (tokens : List Token) : Prop where
  header : fdt.Header
  spells : fdt.Spells 0 tokens
  nested : wellNested tokens

/-- The byte of the blob at which the value of a property begins. -/
def valueOf (p : PropEntry) : Nat := fdt.offDtStruct + p.offset + 12

/-- A property whose name is in the strings block, with its value and what is behind it. -/
def property (p : PropEntry) : Option Property :=
  match fdt.nameAt p.nameoff with
  | none => none
  | some name =>
    if h : p.len < 2 ^ 31 ∧ fdt.bytesAt (fdt.valueOf p) ((p.len + 3) / 4 * 4) = 0 then
      some ⟨nameString name, p.len, fdt.bytesAt (fdt.valueOf p), h.1, h.2⟩
    else none

variable {fdt} {tokens : List Token}

theorem tokenAt_of_propsFrom {tokens : List Token} {o : Nat} (hspells : fdt.Spells o tokens)
    {p : PropEntry} (hp : p ∈ propsFrom o tokens) :
    fdt.TokenAt p.offset (.prop p.len p.nameoff) := by
  induction tokens generalizing o with
  | nil => cases hp
  | cons t rest ih =>
    obtain ⟨htoken, hrest⟩ := hspells
    cases t with
    | beginNode name => cases hp
    | endNode => cases hp
    | finish => cases hp
    | nop => exact ih hrest hp
    | prop len nameoff =>
      rcases List.mem_cons.1 hp with rfl | hp
      · exact htoken
      · exact ih hrest hp

/-! ## The nodes -/

theorem isChain_depth {tokens : List Token} {o m d : Nat} (hcloses : closes m tokens)
    (hd : m ≤ d + 1) :
    (d :: (entries o m tokens).map Entry.depth).IsChain (fun a b => b ≤ a + 1) ∧
      ∀ e ∈ entries o m tokens, 0 < e.depth := by
  induction tokens generalizing o m d with
  | nil => cases m <;> cases hcloses
  | cons t rest ih =>
    cases t with
    | beginNode name =>
      cases m with
      | zero => cases hcloses
      | succ m =>
        obtain ⟨hchain, hpos⟩ := ih (d := m + 1) hcloses (Nat.le_refl _)
        rw [entries, List.map_cons, List.isChain_cons_cons]
        refine ⟨⟨hd, hchain⟩, ?_⟩
        intro e he
        rcases List.mem_cons.1 he with rfl | he
        · exact Nat.succ_pos m
        · exact hpos e he
    | endNode =>
      cases m with
      | zero => cases hcloses
      | succ m => exact ih hcloses (by omega)
    | prop len nameoff =>
      cases m with
      | zero => cases hcloses
      | succ m => exact ih hcloses hd
    | nop => exact ih (by cases m <;> exact hcloses) hd
    | finish =>
      rw [entries]
      refine ⟨.singleton d, ?_⟩
      intro e he
      cases he

theorem isPreorder_depths (h : wellNested tokens) : IsPreorder (depths tokens) := by
  match tokens, h with
  | .beginNode name :: rest, h =>
    obtain ⟨hchain, hpos⟩ := isChain_depth (o := (Token.beginNode name).next 0) (d := 0) h
      (Nat.le_refl 1)
    refine ⟨rfl, ?_, hchain⟩
    intro i d hi hd
    obtain ⟨i, rfl⟩ : ∃ n, i = n + 1 := ⟨i - 1, by omega⟩
    rw [depths, nodes, entries, List.map_cons, List.getElem?_cons_succ] at hd
    obtain ⟨e, he, rfl⟩ := List.mem_map.1 (List.mem_of_getElem? hd)
    exact hpos e he

theorem Presents.nodeAt (h : fdt.Presents tokens) {before post : List Entry} {e : Entry}
    (hsplit : nodes tokens = before ++ e :: post) :
    ∃ rest, fdt.NodeAt e rest ∧ post = later e rest := by
  have hnested := h.nested
  have hspells := h.spells
  match tokens, hnested with
  | .beginNode name :: rest, hnested =>
    obtain ⟨htoken, hrest⟩ := hspells
    cases before with
    | nil =>
      obtain ⟨rfl, rfl⟩ := List.cons.inj hsplit
      exact ⟨rest, ⟨Nat.dvd_zero 4, htoken, hrest, hnested, rfl⟩, rfl⟩
    | cons first before =>
      exact nodeAt_of_entries (Token.four_dvd_next _ _) hrest hnested (List.cons.inj hsplit).2

theorem Presents.nodeAt_position (h : fdt.Presents tokens) {i : Nat} {e : Entry}
    (hi : (nodes tokens)[i]? = some e) :
    ∃ rest, fdt.NodeAt e rest ∧ (nodes tokens).drop (i + 1) = later e rest := by
  obtain ⟨hlt, rfl⟩ := List.getElem?_eq_some_iff.1 hi
  have hsplit : nodes tokens =
      (nodes tokens).take i ++ (nodes tokens)[i] :: (nodes tokens).drop (i + 1) := by
    rw [List.getElem_cons_drop, List.take_append_drop]
  exact h.nodeAt hsplit

/-! ## The properties of a node -/

/-- The first byte of a token is zero. -/
theorem mem_of_tokenAt {o : Nat} {t : Token} (h : fdt.TokenAt o t) :
    fdt.mem (fdt.offDtStruct + o) = 0 := by
  have hword := h.tag
  have htag : t.tag < 256 := by
    cases t <;> simp only [Token.tag] <;> decide
  have hsplit := bigEndian_add fdt.mem (fdt.offDtStruct + o) 1 3
  rw [fdt32, hsplit, bigEndian, bigEndian, Nat.add_zero] at hword
  apply UInt8.toNat.inj
  show (fdt.mem (fdt.offDtStruct + o)).toNat = 0
  omega

/-- Every property of a node has room for its value, and a token behind it. -/
theorem property_sound (hheader : fdt.Header) {tokens : List Token} {o m : Nat} (haligned : 4 ∣ o)
    (hspells : fdt.Spells o tokens) (hcloses : closes (m + 1) tokens) {p : PropEntry}
    (hp : p ∈ propsFrom o tokens) :
    p.len < 2 ^ 31 ∧ fdt.bytesAt (fdt.valueOf p) ((p.len + 3) / 4 * 4) = 0 := by
  induction tokens generalizing o with
  | nil => cases hcloses
  | cons t rest ih =>
    obtain ⟨htoken, hrest⟩ := hspells
    cases t with
    | beginNode name => cases hp
    | endNode => cases hp
    | finish => cases hp
    | nop => exact ih (Token.four_dvd_next _ _) hrest hcloses hp
    | prop len nameoff =>
      rw [propsFrom] at hp
      rcases List.mem_cons.1 hp with rfl | hp
      · have hsize := htoken.size_lt fdt hheader
        simp only [Token.size] at hsize
        refine ⟨by simp only; omega, ?_⟩
        obtain ⟨next, rest, rfl⟩ : ∃ next tail, rest = next :: tail := by
          cases rest with
          | nil => cases hcloses
          | cons next tail => exact ⟨next, tail, rfl⟩
        have hbyte := mem_of_tokenAt hrest.1
        rw [bytesAt, valueOf]
        simp only [Token.next, Token.size] at hbyte ⊢
        rw [show fdt.offDtStruct + o + 12 + (len + 3) / 4 * 4 =
          fdt.offDtStruct + (o + (12 + len) + 3) / 4 * 4 by omega, hbyte]
      · exact ih (Token.four_dvd_next _ _) hrest hcloses hp

theorem property_eq_some {p : PropEntry} {name : List UInt8}
    (hname : fdt.nameAt p.nameoff = some name)
    (hsound : p.len < 2 ^ 31 ∧ fdt.bytesAt (fdt.valueOf p) ((p.len + 3) / 4 * 4) = 0) :
    fdt.property p =
      some ⟨nameString name, p.len, fdt.bytesAt (fdt.valueOf p), hsound.1, hsound.2⟩ := by
  simp only [property, hname]
  rw [dif_pos hsound]

/-- The first property with a name, in the tree and in the blob. -/
theorem find_property {props : List PropEntry} (name : List UInt8)
    (hsound : ∀ p ∈ props,
      p.len < 2 ^ 31 ∧ fdt.bytesAt (fdt.valueOf p) ((p.len + 3) / 4 * 4) = 0) :
    (props.filterMap fdt.property).find? (fun p => p.name = nameString name) =
      (fdt.findProp props name).bind fdt.property := by
  rw [List.find?_filterMap, findProp]
  congr 1
  apply List.find?_congr
  intro p hp
  cases hname : fdt.nameAt p.nameoff with
  | none => simp [property, hname]
  | some other =>
    rw [property_eq_some hname (hsound p hp), Option.any_some]
    simp [nameString_inj]

variable (fdt) in
/-- A value in the blob and the property of the tree that it is, or one error. -/
def Same : Except Int Value → Except Int Property → Prop
  | .ok v, .ok p => v.len = p.len ∧ fdt.bytesAt v.data = p.mem
  | .error err, .error err' => err = err'
  | _, _ => False

theorem depths_getElem? {i : Nat} {e : Entry} (hi : (nodes tokens)[i]? = some e) :
    (depths tokens)[i]? = some e.depth := by
  rw [depths, List.getElem?_map, hi, Option.map_some]

def Presents.tree (h : fdt.Presents tokens) : Tree where
  nodes := (nodes tokens).mapIdx fun i e =>
    ⟨parent (depths tokens) i, e.props.filterMap fdt.property⟩
  parent_lt := by
    intro i node hnode p hp
    rw [List.getElem?_mapIdx] at hnode
    obtain ⟨e, -, rfl⟩ := Option.map_eq_some_iff.1 hnode
    exact parent_lt hp
  root_only := by
    intro i node hnode hnone
    rw [List.getElem?_mapIdx] at hnode
    obtain ⟨e, he, rfl⟩ := Option.map_eq_some_iff.1 hnode
    have hpreorder := isPreorder_depths h.nested
    by_contra hi
    have hpos := hpreorder.inner i e.depth (Nat.pos_of_ne_zero hi) (depths_getElem? he)
    obtain ⟨d, hd⟩ : ∃ d, e.depth = d + 1 := ⟨e.depth - 1, by omega⟩
    obtain ⟨j, hj⟩ := hpreorder.parent_isSome (hd ▸ depths_getElem? he)
    rw [show parent (depths tokens) i = none from hnone] at hj
    cases hj

section Tree

variable (h : fdt.Presents tokens) {i : Nat} {e : Entry}

theorem Presents.length_tree : h.tree.nodes.length = (nodes tokens).length :=
  List.length_mapIdx

/-- The root is the node at offset 0, and all others are behind it. -/
theorem Presents.root (h : fdt.Presents tokens) :
    ∃ e rest, fdt.NodeAt e rest ∧ nodes tokens = e :: later e rest ∧ e.offset = 0 ∧
      e.depth = 0 := by
  have hnested := h.nested
  match tokens, hnested with
  | .beginNode name :: tail, _ =>
    obtain ⟨rest, hnode, hlater⟩ := h.nodeAt
      (List.nil_append (nodes (.beginNode name :: tail))).symm
    exact ⟨_, rest, hnode, by rw [← hlater]; rfl, rfl, rfl⟩

theorem Header.roProbe_eq (h : fdt.Header) : fdt.fdtRoProbe = fdt.totalsize := by
  have hold : ¬ fdt.version < FDT_FIRST_SUPPORTED_VERSION := by
    have := h.version
    rw [FDT_FIRST_SUPPORTED_VERSION]
    omega
  rw [fdtRoProbe, if_neg (not_not.2 h.aligned), if_pos h.magic, if_neg hold,
    if_neg (Nat.not_lt.2 h.lastComp), if_pos h.totalsize]

theorem Header.roProbe (h : fdt.Header) : 0 ≤ fdt.fdtRoProbe := by
  rw [h.roProbe_eq]
  exact Int.natCast_nonneg _

/-- The offset in the blob for a position in the tree; an error stays one. -/
def place (tokens : List Token) (position : Int) : Int :=
  if position < 0 then position
  else ((nodes tokens)[position.toNat]?.map fun e => (e.offset : Int)).getD (-FDT_ERR_BADOFFSET)

theorem place_neg {position : Int} (hneg : position < 0) : place tokens position = position :=
  if_pos hneg

theorem place_natCast (hi : (nodes tokens)[i]? = some e) : place tokens i = e.offset := by
  have hneg : ¬ (i : Int) < 0 := Int.not_lt.2 (Int.natCast_nonneg i)
  rw [place, if_neg hneg, Int.toNat_natCast, hi]
  rfl

theorem place_nonneg_iff {position : Int} (h : IsPosition tokens position) :
    0 ≤ place tokens position ↔ 0 ≤ position := by
  rcases h with hneg | ⟨i, e, rfl, hi⟩
  · rw [place_neg hneg]
  · rw [place_natCast hi]
    exact iff_of_true (Int.natCast_nonneg _) (Int.natCast_nonneg _)

theorem Presents.node?_eq (hi : (nodes tokens)[i]? = some e) :
    h.tree.node? i = some ⟨parent (depths tokens) i, e.props.filterMap fdt.property⟩ := by
  have hneg : ¬ (i : Int) < 0 := Int.not_lt.2 (Int.natCast_nonneg i)
  rw [Tree.node?, if_neg hneg, Presents.tree, Int.toNat_natCast, List.getElem?_mapIdx, hi,
    Option.map_some]

theorem Presents.tokenOffset_le (hi : (nodes tokens)[i]? = some e) {name : String} {p : Property}
    (hp : Fdt.fdtGetprop h.tree i name = .ok p) : p.tokenOffset ≤ fdt.totalsize := by
  obtain ⟨rest, hnode, -⟩ := h.nodeAt_position hi
  simp only [Fdt.fdtGetprop, h.node?_eq hi] at hp
  split at hp
  · cases hp
  · next q hfind =>
    cases hp
    obtain ⟨entry, hentry, hprop⟩ := List.mem_filterMap.1 (List.mem_of_find?_eq_some hfind)
    have htoken := tokenAt_of_propsFrom hnode.spells (hnode.props ▸ hentry)
    have hroom := htoken.fits.1
    have hlen : p.len = entry.len := by
      rw [property] at hprop
      split at hprop
      · cases hprop
      · split at hprop <;> cases hprop
        rfl
    simp only [Token.size] at hroom
    rw [Property.tokenOffset, hlen]
    omega

/-- `fdt_getprop` on the bytes is `fdt_getprop` of the tree. -/
theorem Presents.getprop (hi : (nodes tokens)[i]? = some e) {fuel : Nat}
    (hfuel : fdt.totalsize < fuel) (name : List UInt8) :
    ∃ r, fdt.fdtGetprop fuel e.offset name = some r ∧
      fdt.Same r (Fdt.fdtGetprop h.tree i (nameString name)) := by
  obtain ⟨rest, hnode, -⟩ := h.nodeAt_position hi
  have hsound (p : PropEntry) (hp : p ∈ e.props) :=
    property_sound h.header (Token.four_dvd_next _ _) hnode.spells hnode.closes (hnode.props ▸ hp)
  refine ⟨_, hnode.getprop h.header (by omega) name, ?_⟩
  simp only [Fdt.fdtGetprop, h.node?_eq hi, find_property name hsound]
  cases hfind : fdt.findProp e.props name with
  | none => rfl
  | some p =>
    have hname := List.find?_some hfind
    have hp := hsound p (List.mem_of_find?_eq_some hfind)
    rw [Option.bind_some, property_eq_some (of_decide_eq_true hname) hp]
    exact ⟨rfl, rfl⟩

end Tree

end Dtb

end ZStage.Libfdt
