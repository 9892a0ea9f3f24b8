import ZStage.Libfdt.Paths
import ZStage.Libfdt.SerialInit

/-!
A copy of a blob. What a blob presents depends on the bytes that its total size counts,
and the address of the copy matters in one way: it must be a multiple of eight. The
lookups then give the same offsets in the copy, and the values there are the same.
-/

namespace ZStage.Libfdt

open ZStage.Lib.BigEndian ZStage.Lib.Lexicographic ZStage.Fdt

namespace Dtb

variable {fdt fdt' : Dtb} {tokens : List Token}

/-- The bytes that the header counts are the same. -/
def SameBytes (fdt fdt' : Dtb) : Prop := ∀ i, i < fdt.totalsize → fdt'.mem i = fdt.mem i

/-! ## Words and strings -/

section Same

variable (h : fdt.SameBytes fdt')

include h

theorem SameBytes.fdt32 {p : Nat} (hp : p + 4 ≤ fdt.totalsize) : fdt'.fdt32 p = fdt.fdt32 p := by
  have hword (n : Nat) (hn : p + n ≤ fdt.totalsize) :
      bigEndian fdt'.mem p n = bigEndian fdt.mem p n := by
    induction n with
    | zero => rfl
    | succ n ih => rw [bigEndian, bigEndian, ih (by omega), h (p + n) (by omega)]
  exact hword 4 hp

theorem SameBytes.initial {p n : Nat} (hp : p + n ≤ fdt.totalsize) :
    initial (fdt'.bytesAt p) n = initial (fdt.bytesAt p) n := by
  apply List.map_congr_left
  intro i hi
  exact h (p + i) (by have := List.mem_range.1 hi; omega)

/-- The fields of the header. -/
theorem SameBytes.header (hroom : 40 ≤ fdt.totalsize) :
    fdt'.magic = fdt.magic ∧ fdt'.totalsize = fdt.totalsize ∧
      fdt'.offDtStruct = fdt.offDtStruct ∧ fdt'.offDtStrings = fdt.offDtStrings ∧
      fdt'.version = fdt.version ∧ fdt'.lastCompVersion = fdt.lastCompVersion ∧
      fdt'.sizeDtStrings = fdt.sizeDtStrings ∧ fdt'.sizeDtStruct = fdt.sizeDtStruct :=
  ⟨h.fdt32 (by omega), h.fdt32 (by omega), h.fdt32 (by omega), h.fdt32 (by omega),
    h.fdt32 (by omega), h.fdt32 (by omega), h.fdt32 (by omega), h.fdt32 (by omega)⟩

theorem SameBytes.memchr {p : Nat} (c : Int32) {n : Nat} (hp : p + n ≤ fdt.totalsize) :
    (Libc.memchr (fdt'.bytesAt p) c n).value = (Libc.memchr (fdt.bytesAt p) c n).value := by
  rw [memchr_eq_find, memchr_eq_find]
  apply List.find?_congr
  intro i hi
  rw [bytesAt, bytesAt, h (p + i) (by have := List.mem_range.1 hi; omega)]

omit h in
theorem stringRoom_le {stroffset : Int} {len room : Nat}
    (hroom : fdt.stringRoom stroffset len = .ok room) : room ≤ len := by
  simp only [stringRoom] at hroom
  split_ifs at hroom <;> cases hroom
  · exact Nat.min_le_left _ _
  · exact Nat.le_refl _
  · exact Nat.min_le_left _ _

/-- The names in the strings block. -/
theorem SameBytes.nameAt (hroom : 40 ≤ fdt.totalsize) (hprobe : fdt'.fdtRoProbe = fdt.fdtRoProbe)
    (hlimit : fdt.fdtRoProbe ≤ fdt.totalsize) (nameoff : Nat) :
    fdt'.nameAt nameoff = fdt.nameAt nameoff := by
  obtain ⟨hmagic, htotal, -, hstrings, hversion, -, hsize, -⟩ := h.header hroom
  have hlen (len : Nat) :
      fdt'.stringRoom (toInt nameoff) len = fdt.stringRoom (toInt nameoff) len := by
    simp only [stringRoom, hmagic, hversion, hsize]
  simp only [Dtb.nameAt, fdtGetString, hprobe, hstrings, hlen]
  generalize toUnsigned (toInt nameoff + fdt.offDtStrings) = absoffset
  by_cases hneg : fdt.fdtRoProbe < 0
  · simp only [hneg, if_true]
  by_cases hbehind : fdt.fdtRoProbe.toNat ≤ absoffset
  · simp only [hneg, hbehind, if_true, if_false]
  simp only [hneg, hbehind, if_false]
  cases hstring : fdt.stringRoom (toInt nameoff) (fdt.fdtRoProbe.toNat - absoffset) with
  | error err => rfl
  | ok room =>
    have hle := stringRoom_le hstring
    simp only [h.memchr 0 (show absoffset + room ≤ fdt.totalsize by omega)]
    cases hfound : (Libc.memchr (fdt.bytesAt absoffset) 0 room).value with
    | none => rfl
    | some n =>
      rw [memchr_eq_find] at hfound
      have hn := List.mem_range.1 (List.mem_of_find?_eq_some hfound)
      simp only [h.initial (show absoffset + n ≤ fdt.totalsize by omega)]

/-! ## Tokens -/

theorem SameBytes.fits (hroom : 40 ≤ fdt.totalsize) {o n : Nat} :
    fdt'.Fits o n ↔ fdt.Fits o n := by
  obtain ⟨-, htotal, hstruct, -, hversion, -, -, hsize⟩ := h.header hroom
  rw [Fits, Fits, htotal, hstruct, hversion, hsize]

theorem SameBytes.tokenAt (hroom : 40 ≤ fdt.totalsize) {o : Nat} {t : Token}
    (ht : fdt.TokenAt o t) : fdt'.TokenAt o t := by
  obtain ⟨-, -, hstruct, -, -, -, -, -⟩ := h.header hroom
  have hin := ht.fits.1
  have hsize := t.four_le_size
  refine ⟨(h.fits hroom).2 ht.fits, ?_, ?_⟩
  · rw [hstruct, h.fdt32 (by omega), ht.tag]
  · have hbody := ht.body
    rw [hstruct]
    cases t with
    | beginNode name =>
      simp only [Token.size] at hin
      exact ⟨(h.initial (by omega)).trans hbody.1, hbody.2⟩
    | prop len nameoff =>
      simp only [Token.size] at hin
      exact ⟨(h.fdt32 (by omega)).trans hbody.1, (h.fdt32 (by omega)).trans hbody.2⟩
    | endNode => trivial
    | nop => trivial
    | finish => trivial

theorem SameBytes.spells (hroom : 40 ≤ fdt.totalsize) {o : Nat} {ts : List Token}
    (hspells : fdt.Spells o ts) : fdt'.Spells o ts := by
  induction ts generalizing o with
  | nil => trivial
  | cons t rest ih => exact ⟨h.tokenAt hroom hspells.1, ih hspells.2⟩

end Same

/-! ## The copy of a blob that presents a tree -/

/-- Each token that is still to come takes a word. -/
theorem room_of_closes {ts : List Token} {o m : Nat} (hspells : fdt.Spells o ts)
    (hcloses : closes m ts) : fdt.offDtStruct + o + 4 * (m + 1) ≤ fdt.totalsize := by
  induction ts generalizing o m with
  | nil => cases m <;> cases hcloses
  | cons t rest ih =>
    obtain ⟨htoken, hrest⟩ := hspells
    have hin := htoken.fits.1
    have hnext := t.le_next o
    have hsize := t.four_le_size
    cases t with
    | beginNode name =>
      cases m with
      | zero => cases hcloses
      | succ m =>
        have := ih hrest hcloses
        omega
    | endNode =>
      cases m with
      | zero => cases hcloses
      | succ m =>
        have := ih hrest hcloses
        omega
    | prop len nameoff =>
      cases m with
      | zero => cases hcloses
      | succ m =>
        have := ih hrest hcloses
        omega
    | nop =>
      have := ih hrest (m := m) (by cases m <;> exact hcloses)
      omega
    | finish =>
      cases m with
      | zero => omega
      | succ m => cases hcloses

/-- The header of a blob that presents a tree is inside it. -/
theorem Presents.header_room (h : fdt.Presents tokens) : 40 ≤ fdt.totalsize := by
  have hnested := h.nested
  have hspells := h.spells
  match tokens, hnested with
  | .beginNode name :: rest, hnested =>
    have hroom := room_of_closes hspells.2 hnested
    have hnext := (Token.beginNode name).le_next 0
    have hsize : 5 ≤ (Token.beginNode name).size := by
      simp only [Token.size]
      omega
    have hstruct := h.header.offDtStruct
    have haligned := (Token.beginNode name).four_dvd_next 0
    omega

/-- A copy presents the same tree exactly when it is aligned. -/
theorem Presents.copy_iff (h : fdt.Presents tokens) (hcopy : fdt.SameBytes fdt') :
    fdt'.Presents tokens ↔ fdt'.addr &&& 7 = 0 := by
  refine ⟨fun h' => h'.header.aligned, ?_⟩
  intro haligned
  have hroom := h.header_room
  obtain ⟨hmagic, htotal, hstruct, -, hversion, hlast, -, -⟩ := hcopy.header hroom
  have hheader : fdt'.Header := by
    refine ⟨haligned, ?_, ?_, ?_, ?_, ?_⟩
    · rw [hmagic]
      exact h.header.magic
    · rw [hversion]
      exact h.header.version
    · rw [hlast]
      exact h.header.lastComp
    · rw [htotal]
      exact h.header.totalsize
    · rw [hstruct]
      exact h.header.offDtStruct
  exact ⟨hheader, hcopy.spells hroom h.spells, h.nested⟩

/-- What the lookups give for a node, in two blobs: the same offsets, and the same bytes where a
value is. -/
structure SameNode (fdt fdt' : Dtb) (fuel : Nat) (e : Entry) : Prop where
  getprop : ∀ name, fdt'.fdtGetprop fuel e.offset name = fdt.fdtGetprop fuel e.offset name
  value : ∀ name v, fdt.fdtGetprop fuel e.offset name = some (.ok v) →
    0 ≤ v.len ∧ ∀ k : Nat, (k : Int) < v.len → fdt'.mem (v.data + k) = fdt.mem (v.data + k)
  parentOffset : fdt'.fdtParentOffset fuel e.offset = fdt.fdtParentOffset fuel e.offset
  subnodeOffset : ∀ name,
    fdt'.fdtSubnodeOffset fuel e.offset name = fdt.fdtSubnodeOffset fuel e.offset name

theorem Presents.sameNode (h : fdt.Presents tokens) (h' : fdt'.Presents tokens)
    (hcopy : fdt.SameBytes fdt') {i : Nat} {e : Entry} (hi : (nodes tokens)[i]? = some e)
    {fuel : Nat} (hfuel : fdt.totalsize < fuel) : SameNode fdt fdt' fuel e := by
  have hroom := h.header_room
  obtain ⟨-, htotal, hstruct, -, -, -, -, -⟩ := hcopy.header hroom
  have hfuel' : fdt'.totalsize < fuel := by omega
  have hprobe : fdt'.fdtRoProbe = fdt.fdtRoProbe := by
    rw [h.header.roProbe_eq, h'.header.roProbe_eq, htotal]
  have hname (nameoff : Nat) : fdt'.nameAt nameoff = fdt.nameAt nameoff :=
    hcopy.nameAt hroom hprobe (Int.le_of_eq h.header.roProbe_eq) nameoff
  obtain ⟨rest, hnode, -⟩ := h.nodeAt_position hi
  obtain ⟨rest', hnode', -⟩ := h'.nodeAt_position hi
  have hfind (name : List UInt8) : fdt'.findProp e.props name = fdt.findProp e.props name := by
    simp only [findProp, hname]
  refine ⟨?_, ?_, ?_, ?_⟩
  · intro name
    rw [hnode.getprop h.header (by omega), hnode'.getprop h'.header (by omega), hfind, hstruct]
  · intro name v hv
    rw [hnode.getprop h.header (by omega), Option.some.injEq] at hv
    cases hprop : fdt.findProp e.props name with
    | none =>
      rw [hprop] at hv
      cases hv
    | some p =>
      rw [hprop] at hv
      cases hv
      have hentry := List.mem_of_find?_eq_some hprop
      have htoken := tokenAt_of_propsFrom hnode.spells (hnode.props ▸ hentry)
      have hin := htoken.fits.1
      simp only [Token.size] at hin
      refine ⟨Int.natCast_nonneg _, ?_⟩
      intro k hk
      simp only at hk ⊢
      exact hcopy _ (by omega)
  · rw [h.parentOffset hi hfuel, h'.parentOffset hi hfuel', h.parentOffset_tree hi,
      h'.parentOffset_tree hi]
  · intro name
    rw [h.subnodeOffset hi hfuel, h'.subnodeOffset hi hfuel']

end Dtb

end ZStage.Libfdt
