import ZStage.Lib.ByteLayout
import ZStage.Libfdt.Paths

/-!
How a tree is laid out as a blob: a header of version 17, an empty reservation map, the
structure block and the strings block. The names of the properties may share bytes of the
strings block, each of them standing there with its zero. Reading the blob back gives the
nodes of the tree in their order, with their names, depths and property values.
-/

namespace ZStage.Libfdt

open ZStage.Lib.ByteLayout ZStage.Lib.BigEndian ZStage.Lib.Lexicographic ZStage.Fdt ZStage.Serial

/-! ## Trees -/

/-- A row of trees: the first of them with its name, properties and children, and the rest. -/
inductive Forest
  | nil
  | node (name : List UInt8) (props : List (List UInt8 × List UInt8)) (children rest : Forest)
  deriving DecidableEq, Repr

/-- A node of a tree: how many nodes are around it, its name and its properties. -/
structure SourceNode where
  depth : Nat
  name : List UInt8
  props : List (List UInt8 × List UInt8)

/-- The nodes in the order in which they open. -/
def Forest.nodes (depth : Nat) : Forest → List SourceNode
  | nil => []
  | node name props children rest =>
    ⟨depth, name, props⟩ :: (children.nodes (depth + 1) ++ rest.nodes depth)

/-- A token with the value of a property. -/
inductive Item
  | beginNode (name : List UInt8)
  | endNode
  | prop (nameoff : Nat) (value : List UInt8)
  | finish

def Item.token : Item → Token
  | beginNode name => .beginNode name
  | endNode => .endNode
  | prop nameoff value => .prop value.length nameoff
  | finish => .finish

def Item.bytes : Item → List UInt8
  | beginNode name => wordBytes FDT_BEGIN_NODE.toUInt32 ++ padded (name ++ [0])
  | endNode => wordBytes FDT_END_NODE.toUInt32
  | prop nameoff value =>
    wordBytes FDT_PROP.toUInt32 ++ (wordBytes value.length.toUInt32 ++
      (wordBytes nameoff.toUInt32 ++ padded value))
  | finish => wordBytes FDT_END.toUInt32

/-- The tokens of a row of trees, `nameoff` saying where the name of a property is. -/
def Forest.items (nameoff : List UInt8 → Nat) : Forest → List Item
  | nil => []
  | node name props children rest =>
    .beginNode name :: ((props.map fun p => .prop (nameoff p.1) p.2) ++
      (children.items nameoff ++ .endNode :: rest.items nameoff))

/-! ## Blobs -/

/-- A tree with its strings block. -/
structure Source where
  name : List UInt8
  props : List (List UInt8 × List UInt8)
  children : Forest
  strings : List UInt8
  nameoff : List UInt8 → Nat

namespace Source

variable (src : Source)

def forest : Forest := .node src.name src.props src.children .nil

def items : List Item := src.forest.items src.nameoff ++ [.finish]

def tokens : List Token := src.items.map Item.token

def structBlock : List UInt8 := src.items.flatMap Item.bytes

/-- The bytes in front of the structure block: `struct fdt_header` and the end of the
reservation map. -/
def structOffset : Nat := 56

def blobSize : Nat := structOffset + src.structBlock.length + src.strings.length

/-- `struct fdt_header`. -/
def header : List UInt8 :=
  wordBytes FDT_MAGIC.toUInt32 ++ (wordBytes src.blobSize.toUInt32 ++
    (wordBytes structOffset.toUInt32 ++
      (wordBytes (structOffset + src.structBlock.length).toUInt32 ++ (wordBytes 40 ++
        (wordBytes FDT_LAST_SUPPORTED_VERSION.toUInt32 ++ (wordBytes 16 ++ (wordBytes 0 ++
          (wordBytes src.strings.length.toUInt32 ++
            wordBytes src.structBlock.length.toUInt32))))))))

def bytes : List UInt8 :=
  src.header ++ (List.replicate 16 0 ++ (src.structBlock ++ src.strings))

/-- The blob at an address. -/
def blob (addr : UInt64) : Dtb := ⟨addr, layOut src.bytes⟩

/-- The name of a property is where it is said to be. -/
def Named (name : List UInt8) : Prop :=
  0 ∉ name ∧ name ++ [0] <+: src.strings.drop (src.nameoff name)

instance (name : List UInt8) : Decidable (src.Named name) :=
  inferInstanceAs (Decidable (_ ∧ _))

/-- What the layout asks of a tree: names without zeros, and the size of an `int`. -/
structure Valid : Prop where
  size : src.blobSize < INT32_MAX
  names : ∀ node ∈ src.forest.nodes 0, 0 ∉ node.name ∧ ∀ p ∈ node.props, src.Named p.1

end Source

/-! ## Tokens where they are laid out -/

namespace Dtb

variable {fdt : Dtb}

theorem fdt32_of_standsAt {p : Nat} {c : UInt32} (h : StandsAt fdt.mem p (wordBytes c)) :
    fdt.fdt32 p = c.toNat := bigEndian_of_standsAt h

/-- A token is as long as its bytes, with the padding. -/
theorem next_of_item (item : Item) {o : Nat} (haligned : 4 ∣ o) :
    item.token.next o = o + item.bytes.length := by
  cases item <;>
    simp only [Item.token, Item.bytes, Token.next, Token.size, List.length_append,
      length_wordBytes, length_padded, List.length_singleton] <;>
    omega

/-- What a token asks of its item. -/
def Item.Sound : Item → Prop
  | .beginNode name => 0 ∉ name
  | .prop nameoff value => nameoff < 2 ^ 32 ∧ value.length < 2 ^ 32
  | _ => True

theorem tokenAt_of_item {item : Item} {o : Nat} (hsound : Item.Sound item)
    (hstands : StandsAt fdt.mem (fdt.offDtStruct + o) item.bytes)
    (hfits : fdt.Fits o item.bytes.length) : fdt.TokenAt o item.token := by
  cases item with
  | beginNode name =>
    obtain ⟨htag, hname⟩ := standsAt_append.1 hstands
    rw [length_wordBytes] at hname
    have hbody := hname.of_front (List.prefix_append _ _)
    refine ⟨hfits.mono ?_, fdt32_of_standsAt htag, ?_, hsound⟩
    · simp only [Item.bytes, Item.token, Token.size, List.length_append, length_wordBytes,
        length_padded, List.length_singleton]
      omega
    · rw [StandsAt, List.length_append, List.length_singleton] at hbody
      exact hbody
  | endNode => exact ⟨hfits.mono (Nat.le_refl _), fdt32_of_standsAt hstands, trivial⟩
  | finish => exact ⟨hfits.mono (Nat.le_refl _), fdt32_of_standsAt hstands, trivial⟩
  | prop nameoff value =>
    obtain ⟨htag, hrest⟩ := standsAt_append.1 hstands
    obtain ⟨hlen, hrest⟩ := standsAt_append.1 hrest
    obtain ⟨hname, -⟩ := standsAt_append.1 hrest
    rw [length_wordBytes] at hlen hname
    rw [length_wordBytes, Nat.add_assoc] at hname
    refine ⟨hfits.mono ?_, fdt32_of_standsAt htag, ?_, ?_⟩
    · simp only [Item.bytes, Item.token, Token.size, List.length_append, length_wordBytes,
        length_padded]
      omega
    · rw [fdt32_of_standsAt hlen, Nat.toUInt32, UInt32.toNat_ofNat_of_lt' hsound.2]
    · rw [fdt32_of_standsAt hname, Nat.toUInt32, UInt32.toNat_ofNat_of_lt' hsound.1]

/-- Items that are laid out one after the other spell their tokens. -/
theorem spells_of_items {items : List Item} {o : Nat} (haligned : 4 ∣ o)
    (hsound : ∀ item ∈ items, Item.Sound item)
    (hstands : StandsAt fdt.mem (fdt.offDtStruct + o) (items.flatMap Item.bytes))
    (hfits : fdt.Fits o (items.flatMap Item.bytes).length) :
    fdt.Spells o (items.map Item.token) := by
  induction items generalizing o with
  | nil => trivial
  | cons item items ih =>
    rw [List.flatMap_cons] at hstands hfits
    rw [List.length_append] at hfits
    obtain ⟨hitem, hrest⟩ := standsAt_append.1 hstands
    rw [Nat.add_assoc] at hrest
    refine ⟨tokenAt_of_item (hsound item List.mem_cons_self) hitem (hfits.mono (by omega)), ?_⟩
    rw [next_of_item item haligned]
    have hnext := item.token.four_dvd_next o
    rw [next_of_item item haligned] at hnext
    exact ih hnext (fun item hitem => hsound item (List.mem_cons_of_mem _ hitem)) hrest
      (hfits.mono (by omega))

/-! ## The nodes that are read -/

/-- A property as it has been laid out. -/
structure PropHolds (fdt : Dtb) (p : PropEntry) (source : List UInt8 × List UInt8) : Prop where
  name : fdt.nameAt p.nameoff = some source.1
  len : p.len = source.2.length
  value : StandsAt fdt.mem (fdt.valueOf p) source.2

structure NodeHolds (fdt : Dtb) (e : Entry) (source : SourceNode) : Prop where
  depth : e.depth = source.depth
  name : e.name = source.name
  props : List.Forall₂ (PropHolds fdt) e.props source.props

section Items

variable {nameoff : List UInt8 → Nat}

/-- The items of the properties of a node. -/
def propItems (nameoff : List UInt8 → Nat) (props : List (List UInt8 × List UInt8)) : List Item :=
  props.map fun p => .prop (nameoff p.1) p.2

theorem propItems_cons (p : List UInt8 × List UInt8) (props : List (List UInt8 × List UInt8)) :
    propItems nameoff (p :: props) = .prop (nameoff p.1) p.2 :: propItems nameoff props := rfl

theorem items_node (name : List UInt8) (props : List (List UInt8 × List UInt8))
    (children others : Forest) :
    Forest.items nameoff (.node name props children others) =
      .beginNode name :: (propItems nameoff props ++
        (children.items nameoff ++ .endNode :: others.items nameoff)) := rfl

theorem propsFrom_items (f : Forest) (o : Nat) (rest : List Item) :
    propsFrom o ((f.items nameoff ++ .endNode :: rest).map Item.token) = [] := by
  cases f <;> rfl

theorem propsFrom_propItems {props : List (List UInt8 × List UInt8)} {o : Nat} {rest : List Item}
    (haligned : 4 ∣ o)
    (hstands : StandsAt fdt.mem (fdt.offDtStruct + o)
      ((propItems nameoff props).flatMap Item.bytes))
    (hnames : ∀ p ∈ props, fdt.nameAt (nameoff p.1) = some p.1)
    (hrest : ∀ o, propsFrom o (rest.map Item.token) = []) :
    List.Forall₂ (PropHolds fdt) (propsFrom o ((propItems nameoff props ++ rest).map Item.token))
      props := by
  induction props generalizing o with
  | nil =>
    rw [propItems, List.map_nil, List.nil_append, hrest]
    exact .nil
  | cons p props ih =>
    obtain ⟨name, value⟩ := p
    have hnext := next_of_item (.prop (nameoff name) value) haligned
    have hdvd := (Item.prop (nameoff name) value).token.four_dvd_next o
    rw [propItems_cons, List.flatMap_cons, standsAt_append] at hstands
    obtain ⟨hprop, hprops⟩ := hstands
    obtain ⟨-, hprop⟩ := standsAt_append.1 hprop
    obtain ⟨-, hprop⟩ := standsAt_append.1 hprop
    obtain ⟨-, hvalue⟩ := standsAt_append.1 hprop
    simp only [length_wordBytes] at hvalue
    rw [propItems_cons, List.cons_append, List.map_cons, Item.token, propsFrom]
    refine .cons ⟨hnames _ List.mem_cons_self, rfl, ?_⟩ ?_
    · rw [valueOf]
      have hbytes := hvalue.of_front (List.prefix_append _ _)
      rwa [Nat.add_assoc, Nat.add_assoc] at hbytes
    · rw [Item.token] at hnext hdvd
      rw [hnext] at hdvd ⊢
      rw [Nat.add_assoc] at hprops
      exact ih hdvd hprops fun p hp => hnames p (List.mem_cons_of_mem _ hp)

theorem entries_propItems {props : List (List UInt8 × List UInt8)} {o d : Nat} {rest : List Item}
    (haligned : 4 ∣ o) :
    entries o d ((propItems nameoff props ++ rest).map Item.token) =
      entries (o + ((propItems nameoff props).flatMap Item.bytes).length) d
        (rest.map Item.token) := by
  induction props generalizing o with
  | nil => rfl
  | cons p props ih =>
    have hnext := next_of_item (.prop (nameoff p.1) p.2) haligned
    have hdvd := (Item.prop (nameoff p.1) p.2).token.four_dvd_next o
    have hentries : entries o d ((propItems nameoff (p :: props) ++ rest).map Item.token) =
        entries ((Item.prop (nameoff p.1) p.2).token.next o) d
          ((propItems nameoff props ++ rest).map Item.token) := rfl
    rw [hentries, ih hdvd, hnext, propItems_cons, List.flatMap_cons, List.length_append,
      Nat.add_assoc]

theorem aligned_flatMap {items : List Item} {o : Nat} (haligned : 4 ∣ o) :
    4 ∣ o + (items.flatMap Item.bytes).length := by
  induction items generalizing o with
  | nil => exact haligned
  | cons item items ih =>
    have hdvd := item.token.four_dvd_next o
    rw [next_of_item item haligned] at hdvd
    rw [List.flatMap_cons, List.length_append, ← Nat.add_assoc]
    exact ih hdvd

/-- The nodes of a row of trees that is laid out, and what is behind it. -/
theorem entries_items (f : Forest) {o d : Nat} (rest : List Item) (haligned : 4 ∣ o)
    (hstands : StandsAt fdt.mem (fdt.offDtStruct + o) ((f.items nameoff).flatMap Item.bytes))
    (hnames : ∀ node ∈ f.nodes d, ∀ p ∈ node.props, fdt.nameAt (nameoff p.1) = some p.1) :
    ∃ es, entries o d ((f.items nameoff ++ rest).map Item.token) =
        es ++ entries (o + ((f.items nameoff).flatMap Item.bytes).length) d (rest.map Item.token) ∧
      List.Forall₂ (NodeHolds fdt) es (f.nodes d) := by
  induction f generalizing o d rest with
  | nil => exact ⟨[], rfl, .nil⟩
  | node name props children others ihchildren ihothers =>
    rw [items_node, List.flatMap_cons, List.flatMap_append, List.flatMap_append,
      List.flatMap_cons] at hstands ⊢
    obtain ⟨-, hstands⟩ := standsAt_append.1 hstands
    obtain ⟨hprops, hstands⟩ := standsAt_append.1 hstands
    obtain ⟨hchildren, hstands⟩ := standsAt_append.1 hstands
    obtain ⟨-, hothers⟩ := standsAt_append.1 hstands
    simp only [List.length_append, Nat.add_assoc fdt.offDtStruct] at hprops hchildren hothers ⊢
    -- where the properties, the children, the end and the next tree begin
    have hinside := next_of_item (.beginNode name) haligned
    generalize ha : o + (Item.beginNode name).bytes.length = a at hprops hchildren hothers hinside
    have hdvda : 4 ∣ a := hinside ▸ Token.four_dvd_next _ _
    have hdvdb : 4 ∣ a + ((propItems nameoff props).flatMap Item.bytes).length :=
      aligned_flatMap hdvda
    generalize hb : a + ((propItems nameoff props).flatMap Item.bytes).length = b
      at hchildren hothers hdvdb
    have hdvdc : 4 ∣ b + ((children.items nameoff).flatMap Item.bytes).length :=
      aligned_flatMap hdvdb
    generalize hc : b + ((children.items nameoff).flatMap Item.bytes).length = c
      at hothers hdvdc
    have hend := next_of_item .endNode hdvdc
    generalize he : c + Item.endNode.bytes.length = e at hothers hend
    have hdvde : 4 ∣ e := hend ▸ Token.four_dvd_next _ _
    obtain ⟨es, hes, hholds⟩ := ihchildren (.endNode :: (others.items nameoff ++ rest)) hdvdb
      hchildren fun node hnode => hnames node
        (List.mem_cons_of_mem _ (List.mem_append_left _ hnode))
    obtain ⟨es', hes', hholds'⟩ := ihothers rest hdvde hothers fun node hnode => hnames node
      (List.mem_cons_of_mem _ (List.mem_append_right _ hnode))
    -- everything behind the first tag
    generalize htail : children.items nameoff ++ .endNode :: (others.items nameoff ++ rest) = tail
      at hes
    have hproperties : List.Forall₂ (PropHolds fdt)
        (propsFrom a ((propItems nameoff props ++ tail).map Item.token)) props :=
      propsFrom_propItems hdvda hprops (hnames _ List.mem_cons_self)
        fun o => htail ▸ propsFrom_items children o _
    have hclose : entries c (d + 1) ((Item.endNode :: (others.items nameoff ++ rest)).map
        Item.token) = entries e d ((others.items nameoff ++ rest).map Item.token) := by
      rw [← hend]
      rfl
    have hfirst : entries o d ((Item.beginNode name :: (propItems nameoff props ++ tail)).map
        Item.token) =
        ⟨o, d, name, propsFrom a ((propItems nameoff props ++ tail).map Item.token)⟩ ::
          entries a (d + 1) ((propItems nameoff props ++ tail).map Item.token) := by
      rw [← hinside]
      rfl
    refine ⟨⟨o, d, name, propsFrom a ((propItems nameoff props ++ tail).map Item.token)⟩ ::
      (es ++ es'), ?_, .cons ⟨rfl, rfl, hproperties⟩ (List.rel_append hholds hholds')⟩
    have hlength : o + ((Item.beginNode name).bytes.length +
        (((propItems nameoff props).flatMap Item.bytes).length +
          (((children.items nameoff).flatMap Item.bytes).length +
            (Item.endNode.bytes.length + ((others.items nameoff).flatMap Item.bytes).length)))) =
        e + ((others.items nameoff).flatMap Item.bytes).length := by
      omega
    rw [List.cons_append, List.append_assoc, List.append_assoc, List.cons_append, htail, hfirst,
      entries_propItems hdvda, hb, hes, hc, hclose, hes', hlength, List.cons_append,
      List.append_assoc]

theorem closes_propItems (props : List (List UInt8 × List UInt8)) (m : Nat) (rest : List Item) :
    closes (m + 1) ((propItems nameoff props ++ rest).map Item.token) =
      closes (m + 1) (rest.map Item.token) := by
  induction props with
  | nil => rfl
  | cons p props ih => exact ih

/-- A row of trees closes what it opens. -/
theorem closes_items (f : Forest) (m : Nat) (rest : List Item) :
    closes (m + 1) ((f.items nameoff ++ rest).map Item.token) =
      closes (m + 1) (rest.map Item.token) := by
  induction f generalizing m rest with
  | nil => rfl
  | node name props children others ihchildren ihothers =>
    rw [items_node, List.cons_append, List.append_assoc, List.append_assoc, List.cons_append]
    calc closes (m + 1) ((Item.beginNode name :: (propItems nameoff props ++ (children.items nameoff
            ++ .endNode :: (others.items nameoff ++ rest)))).map Item.token)
        = closes (m + 2) ((propItems nameoff props ++ (children.items nameoff ++ .endNode ::
            (others.items nameoff ++ rest))).map Item.token) := rfl
      _ = closes (m + 2) ((Item.endNode :: (others.items nameoff ++ rest)).map Item.token) := by
          rw [closes_propItems, ihchildren]
      _ = closes (m + 1) (rest.map Item.token) := ihothers m rest

end Items

end Dtb

/-! ## Reading a blob back -/

namespace Source

open Dtb

variable (src : Source) {addr : UInt64}

theorem length_header : src.header.length = 40 := rfl

/-- What stands where in a blob. -/
structure Placed (fdt : Dtb) : Prop where
  header : StandsAt fdt.mem 0 src.header
  structBlock : StandsAt fdt.mem structOffset src.structBlock
  strings : StandsAt fdt.mem (structOffset + src.structBlock.length) src.strings

theorem placed_blob (addr : UInt64) : src.Placed (src.blob addr) := by
  have hall : StandsAt (src.blob addr).mem 0 src.bytes := standsAt_layOut
  obtain ⟨hheader, hrest⟩ := standsAt_append.1 hall
  obtain ⟨-, hrest⟩ := standsAt_append.1 hrest
  obtain ⟨hstruct, hstrings⟩ := standsAt_append.1 hrest
  rw [length_header, List.length_replicate] at hstruct hstrings
  exact ⟨hheader, hstruct, hstrings⟩

/-- The words of the header. -/
structure Fields (fdt : Dtb) : Prop where
  magic : fdt.magic = FDT_MAGIC
  totalsize : fdt.totalsize = src.blobSize
  offDtStruct : fdt.offDtStruct = structOffset
  offDtStrings : fdt.offDtStrings = structOffset + src.structBlock.length
  version : fdt.version = FDT_LAST_SUPPORTED_VERSION
  lastCompVersion : fdt.lastCompVersion = 16
  sizeDtStrings : fdt.sizeDtStrings = src.strings.length
  sizeDtStruct : fdt.sizeDtStruct = src.structBlock.length

theorem fields_of_placed {fdt : Dtb} (h : src.Placed fdt) (hsize : src.blobSize < INT32_MAX) :
    src.Fields fdt := by
  have hexact (n : Nat) (hn : n ≤ src.blobSize) : n.toUInt32.toNat = n := by
    rw [INT32_MAX] at hsize
    rw [Nat.toUInt32, UInt32.toNat_ofNat_of_lt' (by rw [UInt32.size]; omega)]
  have hparts : src.blobSize = structOffset + src.structBlock.length + src.strings.length := rfl
  obtain ⟨hmagic, hrest⟩ := standsAt_append.1 h.header
  obtain ⟨htotal, hrest⟩ := standsAt_append.1 hrest
  obtain ⟨hstruct, hrest⟩ := standsAt_append.1 hrest
  obtain ⟨hstrings, hrest⟩ := standsAt_append.1 hrest
  obtain ⟨-, hrest⟩ := standsAt_append.1 hrest
  obtain ⟨hversion, hrest⟩ := standsAt_append.1 hrest
  obtain ⟨hlast, hrest⟩ := standsAt_append.1 hrest
  obtain ⟨-, hrest⟩ := standsAt_append.1 hrest
  obtain ⟨hstringsSize, hstructSize⟩ := standsAt_append.1 hrest
  refine ⟨fdt32_of_standsAt hmagic, ?_, fdt32_of_standsAt hstruct, ?_,
    fdt32_of_standsAt hversion, fdt32_of_standsAt hlast, ?_, ?_⟩
  · rw [← hexact src.blobSize (Nat.le_refl _)]
    exact fdt32_of_standsAt htotal
  · rw [← hexact (structOffset + src.structBlock.length) (by omega)]
    exact fdt32_of_standsAt hstrings
  · rw [← hexact src.strings.length (by omega)]
    exact fdt32_of_standsAt hstringsSize
  · rw [← hexact src.structBlock.length (by omega)]
    exact fdt32_of_standsAt hstructSize

theorem header_of_fields {fdt : Dtb} (h : src.Fields fdt) (hsize : src.blobSize < INT32_MAX)
    (haligned : fdt.addr &&& 7 = 0) : fdt.Header := by
  refine ⟨haligned, h.magic, ?_, ?_, ?_, ?_⟩
  · rw [h.version]
    decide
  · rw [h.lastCompVersion]
    decide
  · rw [h.totalsize]
    exact hsize
  · rw [h.offDtStruct]
    decide

/-- `memchr` finds the end of a name. -/
theorem memchr_of_standsAt {fdt : Dtb} {p n : Nat} {name : List UInt8}
    (hstands : StandsAt fdt.mem p (name ++ [0])) (hbody : 0 ∉ name) (hn : name.length < n) :
    (Libc.memchr (fdt.bytesAt p) 0 n).value = some name.length := by
  have hchar : Libc.toChar 0 = 0 := rfl
  have hlen : (name ++ [0]).length = name.length + 1 := by simp
  rw [standsAt_iff] at hstands
  have hnul : fdt.bytesAt p name.length = 0 := by
    have hbyte := hstands name.length (by omega)
    rwa [List.getElem_append_right (Nat.le_refl _), List.getElem_singleton] at hbyte
  have hbefore (j : Nat) (hj : j < name.length) : fdt.bytesAt p j ≠ 0 := by
    have hbyte := hstands j (by omega)
    rw [List.getElem_append_left hj] at hbyte
    intro hzero
    rw [bytesAt, hbyte] at hzero
    exact hbody (hzero ▸ List.getElem_mem hj)
  rw [memchr_eq_find, hchar, List.find?_range_eq_some]
  refine ⟨decide_eq_true hnul, List.mem_range.2 hn, ?_⟩
  intro j hj
  simp [hbefore j hj]

/-- The name of a property is found where it has been laid out. -/
theorem nameAt_of_placed {fdt : Dtb} (h : src.Placed fdt) (hfields : src.Fields fdt)
    (hsize : src.blobSize < INT32_MAX) (haligned : fdt.addr &&& 7 = 0) {name : List UInt8}
    (hname : src.Named name) : fdt.nameAt (src.nameoff name) = some name := by
  obtain ⟨hbody, hfront⟩ := hname
  have hprobe := (src.header_of_fields hfields hsize haligned).roProbe_eq
  have hparts : src.blobSize = structOffset + src.structBlock.length + src.strings.length := rfl
  have hroom : src.nameoff name + name.length < src.strings.length := by
    have hlen := hfront.length_le
    rw [List.length_append, List.length_singleton, List.length_drop] at hlen
    omega
  rw [INT32_MAX] at hsize
  -- the name where it stands
  have hstands : StandsAt fdt.mem
      (src.nameoff name + (structOffset + src.structBlock.length)) (name ++ [0]) := by
    have hstrings := h.strings
    rw [← List.take_append_drop (src.nameoff name) src.strings, standsAt_append,
      List.length_take, Nat.min_eq_left (by omega)] at hstrings
    rw [Nat.add_comm]
    exact hstrings.2.of_front hfront
  have hfound := memchr_of_standsAt hstands hbody
    (show name.length < src.strings.length - src.nameoff name by omega)
  have hoffset : toInt (src.nameoff name : Nat) = (src.nameoff name : Nat) :=
    toInt_natCast (by omega)
  have habsolute : toUnsigned ((src.nameoff name : Nat) +
      ((structOffset + src.structBlock.length : Nat) : Int)) =
      src.nameoff name + (structOffset + src.structBlock.length) := by
    rw [← Int.natCast_add, toUnsigned_natCast, Nat.mod_eq_of_lt (by omega)]
  have hleft : toUnsigned ((src.strings.length : Int) - (src.nameoff name : Nat)) =
      src.strings.length - src.nameoff name := by
    rw [← Int.natCast_sub (by omega), toUnsigned_natCast, Nat.mod_eq_of_lt (by omega)]
  have hstringRoom : fdt.stringRoom (src.nameoff name : Nat)
      (src.blobSize - (src.nameoff name + (structOffset + src.structBlock.length))) =
      .ok (src.strings.length - src.nameoff name) := by
    have hnew : 17 ≤ FDT_LAST_SUPPORTED_VERSION := by decide
    rw [stringRoom, if_pos hfields.magic, if_neg (Int.not_lt.2 (Int.natCast_nonneg _)),
      hfields.version, if_pos hnew, hfields.sizeDtStrings, toUnsigned_natCast,
      Nat.mod_eq_of_lt (by omega), if_neg (by omega), hleft, Nat.min_eq_right (by omega)]
  have hget : fdt.fdtGetString (toInt (src.nameoff name : Nat)) =
      .ok (src.nameoff name + (structOffset + src.structBlock.length), name.length) := by
    simp only [fdtGetString, hprobe, hfields.totalsize, hfields.offDtStrings, hoffset, habsolute,
      Int.toNat_natCast, hstringRoom, hfound]
    rw [if_neg (Int.not_lt.2 (Int.natCast_nonneg _)), if_neg (by omega)]
  rw [nameAt, hget]
  have hname := hstands.of_front (List.prefix_append _ _)
  exact congrArg some hname

/-- What the layout asks of a tree holds of its items. -/
theorem sound_items {f : Forest} {d : Nat}
    (hnames : ∀ node ∈ f.nodes d, 0 ∉ node.name ∧ ∀ p ∈ node.props, src.Named p.1)
    (hstrings : src.strings.length < 2 ^ 32)
    (hsize : ((f.items src.nameoff).flatMap Item.bytes).length < 2 ^ 32) :
    ∀ item ∈ f.items src.nameoff, Item.Sound item := by
  induction f generalizing d with
  | nil => nofun
  | node name props children others ihchildren ihothers =>
    rw [items_node, List.flatMap_cons, List.flatMap_append, List.flatMap_append,
      List.flatMap_cons] at hsize
    simp only [List.length_append] at hsize
    obtain ⟨hname, hprops⟩ := hnames _ List.mem_cons_self
    intro item hitem
    rw [items_node] at hitem
    rcases List.mem_cons.1 hitem with rfl | hitem
    · exact hname
    rcases List.mem_append.1 hitem with hprop | hitem
    · obtain ⟨p, hp, rfl⟩ := List.mem_map.1 hprop
      have hroom := (hprops p hp).2.length_le
      have hbytes := ((List.singleton_sublist.2 hprop).flatMap Item.bytes).length_le
      rw [List.flatMap_singleton] at hbytes
      simp only [Item.bytes, List.length_append, length_wordBytes, length_padded] at hbytes
      rw [List.length_append, List.length_singleton, List.length_drop] at hroom
      exact ⟨by omega, by omega⟩
    rcases List.mem_append.1 hitem with hchild | hitem
    · exact ihchildren (fun node hnode => hnames node
        (List.mem_cons_of_mem _ (List.mem_append_left _ hnode))) (by omega) item hchild
    rcases List.mem_cons.1 hitem with rfl | hother
    · trivial
    · exact ihothers (fun node hnode => hnames node
        (List.mem_cons_of_mem _ (List.mem_append_right _ hnode))) (by omega) item hother

/-- A tree that is laid out at an address that libfdt accepts is read back: the blob presents
its tokens, and its nodes are those of the tree. -/
theorem presents_blob (haligned : addr &&& 7 = 0) (hvalid : src.Valid) :
    (src.blob addr).Presents src.tokens ∧
      List.Forall₂ (NodeHolds (src.blob addr)) (nodes src.tokens) (src.forest.nodes 0) := by
  have hplaced := src.placed_blob addr
  have hfields := src.fields_of_placed hplaced hvalid.size
  have hheader := src.header_of_fields hfields hvalid.size haligned
  have hsize := hvalid.size
  have hparts : src.blobSize = structOffset + src.structBlock.length + src.strings.length := rfl
  have hblock : src.structBlock = (src.forest.items src.nameoff).flatMap Item.bytes ++
      Item.finish.bytes := by
    rw [structBlock, items, List.flatMap_append, List.flatMap_singleton]
  have hlength := congrArg List.length hblock
  rw [List.length_append] at hlength
  rw [INT32_MAX] at hsize
  have hstands :
      StandsAt (src.blob addr).mem ((src.blob addr).offDtStruct + 0) src.structBlock := by
    rw [hfields.offDtStruct]
    exact hplaced.structBlock
  have hsound : ∀ item ∈ src.items, Item.Sound item := by
    intro item hitem
    rcases List.mem_append.1 hitem with hitem | hitem
    · exact src.sound_items hvalid.names (by omega) (by omega) item hitem
    · obtain rfl := List.mem_singleton.1 hitem
      trivial
  have hspells : (src.blob addr).Spells 0 src.tokens := by
    refine spells_of_items (Nat.dvd_zero 4) hsound hstands ⟨?_, fun _ => ?_⟩
    · rw [hfields.offDtStruct, hfields.totalsize, hparts]
      exact Nat.le_add_right _ _
    · rw [hfields.sizeDtStruct, Nat.zero_add]
      exact Nat.le_refl _
  have hnested : wellNested src.tokens := by
    have hcloses : closes 1 ((propItems src.nameoff src.props ++ (src.children.items src.nameoff ++
        [Item.endNode, Item.finish])).map Item.token) = true := by
      rw [closes_propItems, closes_items]
      rfl
    have htokens : src.tokens = .beginNode src.name :: ((propItems src.nameoff src.props ++
        (src.children.items src.nameoff ++ [Item.endNode, Item.finish])).map Item.token) := by
      rw [tokens, items, forest, items_node, List.cons_append, List.append_assoc,
        List.append_assoc]
      rfl
    rw [htokens]
    exact hcloses
  refine ⟨⟨hheader, hspells, hnested⟩, ?_⟩
  have hread : ∀ node ∈ src.forest.nodes 0, ∀ p ∈ node.props,
      (src.blob addr).nameAt (src.nameoff p.1) = some p.1 := by
    intro node hnode p hp
    exact src.nameAt_of_placed hplaced hfields hvalid.size haligned
      ((hvalid.names node hnode).2 p hp)
  obtain ⟨es, hes, hholds⟩ := entries_items src.forest [.finish] (Nat.dvd_zero 4)
    (standsAt_append.1 (hblock ▸ hstands)).1 hread
  have hnodes : nodes src.tokens = es := by
    rw [nodes, tokens, items, hes]
    exact List.append_nil es
  rwa [hnodes]

/-- What `fdt_getprop` says about a value, or that there is none. -/
def Reads (fdt : Dtb) (r : Option (Except Int Value)) : Option (List UInt8) → Prop
  | none => r = some (.error (-FDT_ERR_NOTFOUND))
  | some value => ∃ v, r = some (.ok v) ∧ v.len = value.length ∧ StandsAt fdt.mem v.data value

/-- What libfdt says about the node at an offset. -/
structure ReadBack (fdt : Dtb) (fuel : Nat) (node : SourceNode) (offset : Nat) : Prop where
  name : ∃ p, fdt.fdtGetName fuel offset = some (.ok (p, node.name.length)) ∧
    StandsAt fdt.mem p (node.name ++ [0])
  depth : fdt.fdtNodeDepth fuel offset = some (node.depth : Int)
  props : ∀ name, Reads fdt (fdt.fdtGetprop fuel offset name)
    ((node.props.find? fun p => p.1 = name).map Prod.snd)

/-- The first property with a name, in the blob and in the tree. -/
theorem reads_of_holds {fdt : Dtb} {entries : List PropEntry}
    {props : List (List UInt8 × List UInt8)} (h : List.Forall₂ (PropHolds fdt) entries props)
    (name : List UInt8) :
    Reads fdt (some (match fdt.findProp entries name with
        | none => .error (-FDT_ERR_NOTFOUND)
        | some p => .ok ⟨fdt.offDtStruct + p.offset + 12, p.len⟩))
      ((props.find? fun p => p.1 = name).map Prod.snd) := by
  induction h with
  | nil => rfl
  | @cons entry p entries props hprop _ ih =>
    rw [findProp, List.find?_cons, List.find?_cons, hprop.name]
    by_cases hname : p.1 = name
    · simp only [hname, decide_true]
      exact ⟨_, rfl, congrArg Nat.cast hprop.len, hprop.value⟩
    · simp only [Option.some.injEq, hname, decide_false]
      exact ih

/-- What has been laid out at an address that libfdt accepts is read back: the walk over the
nodes goes through those of the tree in their order, and finds for each of them its name, its
depth and its properties. -/
theorem reads_back (src : Source) {addr : UInt64} (haligned : addr &&& 7 = 0) (hvalid : src.Valid)
    {fuel : Nat} (hfuel : src.blobSize < fuel) :
    ∃ offsets, Walks (src.blob addr) fuel (-1) offsets ∧
      List.Forall₂ (ReadBack (src.blob addr) fuel) (src.forest.nodes 0) offsets := by
  obtain ⟨hpresents, hholds⟩ := src.presents_blob haligned hvalid
  have htotal := (src.fields_of_placed (src.placed_blob addr) hvalid.size).totalsize
  refine ⟨_, hpresents.walks (by omega), ?_⟩
  rw [List.forall₂_map_right_iff, List.forall₂_iff_get]
  refine ⟨hholds.length_eq.symm, ?_⟩
  intro i hi hi'
  have hnode := (List.forall₂_iff_get.1 hholds).2 i hi' hi
  have hget : (nodes src.tokens)[i]? = some ((nodes src.tokens).get ⟨i, hi'⟩) :=
    List.getElem?_eq_getElem hi'
  obtain ⟨rest, hat, -⟩ := hpresents.nodeAt_position hget
  refine ⟨?_, ?_, ?_⟩
  · refine ⟨_, hnode.name ▸ hat.getName hpresents.header (by omega), ?_⟩
    have hbody := hat.token.body.1
    rw [StandsAt, List.length_append, List.length_singleton, ← hnode.name]
    exact hbody
  · rw [← hnode.depth]
    exact hpresents.nodeDepth hget (by omega)
  · intro name
    rw [hat.getprop hpresents.header (by omega)]
    exact reads_of_holds hnode.props name

/-! ### A tree that can be evaluated -/

/-- A string of a devicetree. -/
def text (s : String) : List UInt8 := cstr s ++ [0]

def boardStrings : List (List UInt8) :=
  ["#address-cells", "#size-cells", "serial0", "console", "loop", "stdout-path", "compatible",
    "ranges", "phandle", "reg", "clock-frequency"].map text

/-- A board with a UART below a bus. Two aliases lead from the console to it, and a third one
leads back to itself. -/
def board : Source where
  name := []
  props := [(cstr "#address-cells", wordBytes 1), (cstr "#size-cells", wordBytes 1)]
  children :=
    .node (cstr "aliases")
      [(cstr "serial0", text "/soc/serial"), (cstr "console", text "serial0"),
        (cstr "loop", text "loop/more")] .nil <|
    .node (cstr "chosen") [(cstr "stdout-path", text "console:115200n8")] .nil <|
    .node (cstr "soc")
      [(cstr "compatible", text "simple-bus"), (cstr "#address-cells", wordBytes 1),
        (cstr "#size-cells", wordBytes 1), (cstr "ranges", [])]
      (.node (cstr "serial@10000000")
        [(cstr "compatible", text "ns16550a" ++ text "ns16550"), (cstr "phandle", wordBytes 1),
          (cstr "reg", wordBytes 0x10000000 ++ wordBytes 0x100),
          (cstr "clock-frequency", wordBytes 3686400)] .nil .nil) .nil
  strings := boardStrings.flatten
  nameoff name := (boardStrings.takeWhile (· ≠ name ++ [0])).flatten.length

theorem board_valid : board.Valid := ⟨by decide +kernel, by decide +kernel⟩

theorem board_presents : (board.blob 0x82200000).Presents board.tokens :=
  (board.presents_blob (by decide) board_valid).1

theorem reads_back_board :
    ∃ offsets, Walks (board.blob 0x82200000) 1000 (-1) offsets ∧
      List.Forall₂ (ReadBack (board.blob 0x82200000) 1000) (board.forest.nodes 0) offsets :=
  board.reads_back (by decide) board_valid (by decide +kernel)

end Source

end ZStage.Libfdt
