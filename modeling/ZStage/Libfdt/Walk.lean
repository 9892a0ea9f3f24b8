import ZStage.Libfdt.FdtRo
import ZStage.Libfdt.Token

/-!
The walk of `fdt_next_node` over a structure block whose tokens are well nested. The
tokens say which nodes there are, in the order of the block and each with its depth, and
the walk goes from one to the next.
-/

namespace ZStage.Libfdt

open ZStage.Fdt

/-- A property: where its token is, and what the token says. -/
structure PropEntry where
  offset : Nat
  len : Nat
  nameoff : Nat
  deriving DecidableEq, Repr

/-- A node: where its token is, how many nodes are around it, its name and the properties in
front of its first child. -/
structure Entry where
  offset : Nat
  depth : Nat
  name : List UInt8
  props : List PropEntry
  deriving DecidableEq, Repr

/-- The properties at the head of the tokens from offset `o` on. -/
def propsFrom (o : Nat) : List Token → List PropEntry
  | .prop len nameoff :: rest =>
    ⟨o, len, nameoff⟩ :: propsFrom ((Token.prop len nameoff).next o) rest
  | .nop :: rest => propsFrom (Token.nop.next o) rest
  | _ => []

/-- The nodes of the tokens from offset `o` on, inside `depth` nodes. -/
def entries (o depth : Nat) : List Token → List Entry
  | [] => []
  | .beginNode name :: rest =>
    let inside := (Token.beginNode name).next o
    ⟨o, depth, name, propsFrom inside rest⟩ :: entries inside (depth + 1) rest
  | .endNode :: rest => entries (Token.endNode.next o) (depth - 1) rest
  | .finish :: _ => []
  | t :: rest => entries (t.next o) depth rest

/-- The tokens close as many nodes as they open and `depth` more, and then end the block. -/
def closes : Nat → List Token → Bool
  | 0, .finish :: _ => true
  | depth + 1, .beginNode _ :: rest => closes (depth + 2) rest
  | depth + 1, .endNode :: rest => closes depth rest
  | depth + 1, .prop _ _ :: rest => closes (depth + 1) rest
  | depth, .nop :: rest => closes depth rest
  | _, _ => false

namespace Dtb

variable (fdt : Dtb)

/-- The structure block from an offset on spells the tokens. -/
def Spells : Nat → List Token → Prop
  | _, [] => True
  | o, t :: rest => fdt.TokenAt o t ∧ Spells (t.next o) rest

/-- What `fdt_next_node` finds behind some point of the walk, `entries` being the nodes there. A
depth that is counted is `base` more than that of the node. It ends the walk where it gets
negative, at the end of a node. -/
def Reaches (base : Int) (entries : List Entry) (r : Int × Option Int) : Prop :=
  match entries with
  | e :: _ =>
    if 0 < e.depth + base then r = ((e.offset : Int), some (e.depth + base))
    else 0 ≤ r.1 ∧ r.2 = some (-1)
  | [] =>
    if 0 < base then r = (-FDT_ERR_NOTFOUND, some (base - 1)) else 0 ≤ r.1 ∧ r.2 = some (-1)

variable {fdt}

theorem depth_le_of_entries {tokens : List Token} {o m : Nat} {e : Entry}
    (h : (entries o m tokens).head? = some e) : e.depth ≤ m := by
  induction tokens generalizing o m with
  | nil => cases h
  | cons t rest ih =>
    cases t with
    | beginNode name =>
      cases h
      exact Nat.le_refl m
    | endNode => exact Nat.le_trans (ih h) (Nat.sub_le m 1)
    | prop len nameoff => exact ih h
    | nop => exact ih h
    | finish => cases h

theorem reaches_left {base : Int} {tokens : List Token} {o m : Nat} {r : Int × Option Int}
    (hbase : m + base = 0) (hr : 0 ≤ r.1 ∧ r.2 = some (-1)) :
    Reaches base (entries o m tokens) r := by
  cases hentries : entries o m tokens with
  | nil =>
    rw [Reaches, if_neg (by omega)]
    exact hr
  | cons e es =>
    have hle := depth_le_of_entries (e := e) (by rw [hentries]; rfl)
    rw [Reaches, if_neg (by omega)]
    exact hr

/-! One round of the loop, by the tag that it comes to. -/

section Rounds

variable {o next : Int} {fuel : Nat} {depth : Option Int}

theorem nextNodeLoop_beginNode (h : fdt.fdtNextTag o = (FDT_BEGIN_NODE, next)) :
    fdt.nextNodeLoop (fuel + 1) o depth = some (o, depth.map (· + 1)) := by
  simp [nextNodeLoop, h]

theorem nextNodeLoop_endNode (h : fdt.fdtNextTag o = (FDT_END_NODE, next)) (d : Int) :
    fdt.nextNodeLoop (fuel + 1) o (some d) =
      if d - 1 < 0 then some (next, some (d - 1))
      else fdt.nextNodeLoop fuel next (some (d - 1)) := by
  simp [nextNodeLoop, h, FDT_END_NODE, FDT_BEGIN_NODE]

theorem nextNodeLoop_endNode_none (h : fdt.fdtNextTag o = (FDT_END_NODE, next)) :
    fdt.nextNodeLoop (fuel + 1) o none = fdt.nextNodeLoop fuel next none := by
  simp [nextNodeLoop, h, FDT_END_NODE, FDT_BEGIN_NODE]

theorem nextNodeLoop_skip {tag : Nat} (h : fdt.fdtNextTag o = (tag, next))
    (htag : tag = FDT_PROP ∨ tag = FDT_NOP) :
    fdt.nextNodeLoop (fuel + 1) o depth = fdt.nextNodeLoop fuel next depth := by
  rcases htag with rfl | rfl <;>
    simp [nextNodeLoop, h, FDT_PROP, FDT_NOP, FDT_END, FDT_END_NODE, FDT_BEGIN_NODE]

theorem nextNodeLoop_finish (h : fdt.fdtNextTag o = (FDT_END, next)) (hnext : 0 ≤ next) :
    fdt.nextNodeLoop (fuel + 1) o depth = some (-FDT_ERR_NOTFOUND, depth) := by
  simp [nextNodeLoop, h, hnext, FDT_END, FDT_END_NODE, FDT_BEGIN_NODE]

end Rounds

theorem nextNodeLoop_reaches (hheader : fdt.Header) {tokens : List Token} {o m fuel : Nat}
    (hspells : fdt.Spells o tokens) (hcloses : closes m tokens) (hfuel : fdt.totalsize < o + fuel)
    {base : Int} (hbase : 0 < m + base) :
    ∃ r, fdt.nextNodeLoop fuel o (some (m + base - 1)) = some r ∧
      Reaches base (entries o m tokens) r := by
  induction tokens generalizing o m fuel with
  | nil => cases m <;> cases hcloses
  | cons t rest ih =>
    obtain ⟨htoken, hrest⟩ := hspells
    have hstep := fdt.fdtNextTag_of_tokenAt hheader htoken
    have hnext := t.lt_next o
    have hroom := htoken.fits.1
    obtain ⟨fuel, rfl⟩ : ∃ n, fuel = n + 1 := ⟨fuel - 1, by have := t.four_le_size; omega⟩
    have hpos : (0 : Int) ≤ (t.next o : Nat) := Int.natCast_nonneg _
    cases t with
    | beginNode name =>
      refine ⟨_, nextNodeLoop_beginNode hstep, ?_⟩
      rw [entries, Reaches, if_pos hbase, Option.map_some, Int.sub_add_cancel]
    | endNode =>
      rw [nextNodeLoop_endNode hstep, entries]
      cases m with
      | zero => cases hcloses
      | succ m =>
        rw [show ((m + 1 : Nat) : Int) + base - 1 - 1 = m + base - 1 by omega]
        by_cases hleft : (m : Int) + base - 1 < 0
        · rw [if_pos hleft]
          refine ⟨_, rfl, reaches_left (by omega) ⟨hpos, ?_⟩⟩
          simp only
          congr 1
          omega
        · rw [if_neg hleft]
          exact ih hrest hcloses (by omega) (by omega)
    | prop len nameoff =>
      have hcloses' : closes m rest := by
        cases m with
        | zero => cases hcloses
        | succ m => exact hcloses
      rw [nextNodeLoop_skip hstep (Or.inl rfl)]
      exact ih hrest hcloses' (by omega) hbase
    | nop =>
      have hcloses' : closes m rest := by
        cases m <;> exact hcloses
      rw [nextNodeLoop_skip hstep (Or.inr rfl)]
      exact ih hrest hcloses' (by omega) hbase
    | finish =>
      have hm : m = 0 := by
        cases m with
        | zero => rfl
        | succ m => cases hcloses
      subst hm
      refine ⟨_, nextNodeLoop_finish hstep hpos, ?_⟩
      rw [entries, Reaches, if_pos (by omega)]
      congr 2
      omega

def firstOffset : List Entry → Int
  | e :: _ => e.offset
  | [] => -FDT_ERR_NOTFOUND

/-- Without a depth the loop goes to the next node, whatever ends on the way. -/
theorem nextNodeLoop_none (hheader : fdt.Header) {tokens : List Token} {o m fuel : Nat}
    (hspells : fdt.Spells o tokens) (hcloses : closes m tokens)
    (hfuel : fdt.totalsize < o + fuel) :
    fdt.nextNodeLoop fuel o none = some (firstOffset (entries o m tokens), none) := by
  induction tokens generalizing o m fuel with
  | nil => cases m <;> cases hcloses
  | cons t rest ih =>
    obtain ⟨htoken, hrest⟩ := hspells
    have hstep := fdt.fdtNextTag_of_tokenAt hheader htoken
    have hnext := t.lt_next o
    have hroom := htoken.fits.1
    obtain ⟨fuel, rfl⟩ : ∃ n, fuel = n + 1 := ⟨fuel - 1, by have := t.four_le_size; omega⟩
    cases t with
    | beginNode name => exact nextNodeLoop_beginNode hstep
    | endNode =>
      rw [nextNodeLoop_endNode_none hstep, entries]
      cases m with
      | zero => cases hcloses
      | succ m => exact ih hrest hcloses (by omega)
    | prop len nameoff =>
      rw [nextNodeLoop_skip hstep (Or.inl rfl)]
      cases m with
      | zero => cases hcloses
      | succ m => exact ih hrest hcloses (by omega)
    | nop =>
      rw [nextNodeLoop_skip hstep (Or.inr rfl)]
      exact ih hrest (by cases m <;> exact hcloses) (by omega)
    | finish => exact nextNodeLoop_finish hstep (Int.natCast_nonneg _)

/-! ## From a node on -/

/-- The offset behind the token of a node. -/
def inside (e : Entry) : Nat := (Token.beginNode e.name).next e.offset

/-- The nodes behind a node, `tokens` being those behind its own. -/
def later (e : Entry) (tokens : List Token) : List Entry :=
  entries (inside e) (e.depth + 1) tokens

variable (fdt) in
/-- A node of a blob and the tokens behind its own. -/
structure NodeAt (e : Entry) (tokens : List Token) : Prop where
  aligned : 4 ∣ e.offset
  token : fdt.TokenAt e.offset (.beginNode e.name)
  spells : fdt.Spells (inside e) tokens
  closes : closes (e.depth + 1) tokens
  props : e.props = propsFrom (inside e) tokens

theorem nodeAt_of_entries {tokens : List Token} {o m : Nat} {before post : List Entry} {e : Entry}
    (haligned : 4 ∣ o) (hspells : fdt.Spells o tokens) (hcloses : Libfdt.closes m tokens)
    (hsplit : entries o m tokens = before ++ e :: post) :
    ∃ rest, fdt.NodeAt e rest ∧ post = later e rest := by
  induction tokens generalizing o m before with
  | nil => cases m <;> cases hcloses
  | cons t rest ih =>
    obtain ⟨htoken, hrest⟩ := hspells
    have hnext := t.four_dvd_next o
    cases t with
    | beginNode name =>
      cases m with
      | zero => cases hcloses
      | succ m =>
        rw [entries] at hsplit
        cases before with
        | nil =>
          obtain ⟨rfl, rfl⟩ := List.cons.inj hsplit
          exact ⟨rest, ⟨haligned, htoken, hrest, hcloses, rfl⟩, rfl⟩
        | cons first before =>
          exact ih hnext hrest hcloses (List.cons.inj hsplit).2
    | endNode =>
      cases m with
      | zero => cases hcloses
      | succ m => exact ih hnext hrest hcloses hsplit
    | prop len nameoff =>
      cases m with
      | zero => cases hcloses
      | succ m => exact ih hnext hrest hcloses hsplit
    | nop => exact ih hnext hrest (by cases m <;> exact hcloses) hsplit
    | finish =>
      rw [entries] at hsplit
      simp at hsplit

theorem checkOffset_of_tokenAt (hheader : fdt.Header) {o : Nat} {t : Token} (haligned : 4 ∣ o)
    (h : fdt.TokenAt o t) : fdt.checkOffset t.tag o = (t.next o : Nat) := by
  rw [checkOffset, fdt.fdtNextTag_of_tokenAt hheader h, FDT_TAGSIZE, if_neg (by omega),
    if_neg (not_not.2 rfl)]

section NodeAt

variable {e : Entry} {tokens : List Token} {fuel : Nat}

theorem NodeAt.checkOffset (h : fdt.NodeAt e tokens) (hheader : fdt.Header) :
    fdt.fdtCheckNodeOffset e.offset = (inside e : Nat) :=
  checkOffset_of_tokenAt hheader h.aligned h.token

theorem NodeAt.nextNode (h : fdt.NodeAt e tokens) (hheader : fdt.Header) (depth : Option Int) :
    fdt.fdtNextNode fuel e.offset depth = fdt.nextNodeLoop fuel (inside e : Nat) depth := by
  rw [fdtNextNode, if_pos (Int.natCast_nonneg _), h.checkOffset hheader]
  exact if_neg (Int.not_lt.2 (Int.natCast_nonneg _))

theorem NodeAt.lt_inside (e : Entry) : e.offset < inside e := Token.lt_next _ _

/-- `fdt_next_node` from a node on, without a depth and with one. -/
theorem NodeAt.nextNode_none (h : fdt.NodeAt e tokens) (hheader : fdt.Header)
    (hfuel : fdt.totalsize < inside e + fuel) :
    fdt.fdtNextNode fuel e.offset none = some (firstOffset (later e tokens), none) := by
  rw [h.nextNode hheader]
  exact nextNodeLoop_none hheader h.spells h.closes hfuel

theorem NodeAt.nextNode_reaches (h : fdt.NodeAt e tokens) (hheader : fdt.Header)
    (hfuel : fdt.totalsize < inside e + fuel) {base : Int} (hbase : 0 ≤ e.depth + base) :
    ∃ r, fdt.fdtNextNode fuel e.offset (some (e.depth + base)) = some r ∧
      Reaches base (later e tokens) r := by
  have hopen : 0 < ((e.depth + 1 : Nat) : Int) + base := by omega
  have hwalk := nextNodeLoop_reaches hheader h.spells h.closes hfuel hopen
  rwa [show ((e.depth + 1 : Nat) : Int) + base - 1 = e.depth + base by omega,
    ← h.nextNode hheader] at hwalk

end NodeAt

end Dtb

end ZStage.Libfdt
