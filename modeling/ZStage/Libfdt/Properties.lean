import ZStage.Libfdt.Walk

/-!
The properties of a node, read from the tokens behind it. `fdt_get_property_namelen_`
goes through the properties in front of the first child and compares the name that each
of them has in the strings block; the first that agrees is the one.
-/

namespace ZStage.Libfdt

open ZStage.Lib.Lexicographic ZStage.Fdt

theorem initial_ofChars (s : List UInt8) : initial (ofChars s) s.length = s := by
  apply List.ext_getElem
  · rw [initial_length]
  · intro i hi hi'
    simp [initial, ofChars, List.getD_eq_getElem?_getD, List.getElem?_eq_getElem hi']

theorem memcmp_eq_zero_iff (s t : Nat → UInt8) (n : Nat) :
    (Libc.memcmp s t n).value = 0 ↔ initial s n = initial t n := by
  rw [← Std.LawfulEqOrd.compare_eq_iff_eq (a := (Libc.memcmp s t n).value), Libc.memcmp_sign,
    Std.LawfulEqOrd.compare_eq_iff_eq]

namespace Dtb

variable (fdt : Dtb)

/-- The name at an offset of the strings block, if there is one. -/
def nameAt (nameoff : Nat) : Option (List UInt8) :=
  match fdt.fdtGetString (toInt nameoff) with
  | .error _ => none
  | .ok (p, slen) => some (initial (fdt.bytesAt p) slen)

theorem fdtStringEq_iff (nameoff : Nat) (s : List UInt8) :
    fdt.fdtStringEq (toInt nameoff) s = true ↔ fdt.nameAt nameoff = some s := by
  rw [fdtStringEq, nameAt]
  cases fdt.fdtGetString (toInt nameoff) with
  | error err => simp
  | ok string =>
    obtain ⟨p, slen⟩ := string
    simp only [decide_eq_true_eq, memcmp_eq_zero_iff, initial_ofChars, Option.some.injEq]
    constructor
    · rintro ⟨rfl, hbytes⟩
      exact hbytes
    · intro hbytes
      have hlen := congrArg List.length hbytes
      rw [initial_length] at hlen
      exact ⟨hlen, hlen ▸ hbytes⟩

/-- The first of some properties with a name. -/
def findProp (props : List PropEntry) (name : List UInt8) : Option PropEntry :=
  props.find? fun p => fdt.nameAt p.nameoff = some name

/-- What `fdt_get_property_namelen_` returns for it. -/
def propResult : Option PropEntry → Except Int PropPtr
  | none => .error (-FDT_ERR_NOTFOUND)
  | some p => .ok ⟨p.offset, fdt.offDtStruct + p.offset, p.len⟩

variable {fdt}

section Rounds

variable {o : Int} {next : Int} {fuel : Nat}

theorem nextprop_prop (h : fdt.fdtNextTag o = (FDT_PROP, next)) :
    fdt.nextprop (fuel + 1) o = some o := by
  simp [nextprop, h, FDT_PROP, FDT_END]

theorem nextprop_nop (h : fdt.fdtNextTag o = (FDT_NOP, next)) :
    fdt.nextprop (fuel + 1) o = fdt.nextprop fuel next := by
  simp [nextprop, h, FDT_PROP, FDT_END, FDT_NOP]

theorem nextprop_other {tag : Nat} (h : fdt.fdtNextTag o = (tag, next))
    (htag : tag = FDT_BEGIN_NODE ∨ tag = FDT_END_NODE) :
    fdt.nextprop (fuel + 1) o = some (-FDT_ERR_NOTFOUND) := by
  rcases htag with rfl | rfl <;>
    simp [nextprop, h, FDT_PROP, FDT_END, FDT_NOP, FDT_BEGIN_NODE, FDT_END_NODE]

end Rounds

/-- The token of a property gives what the loop looks at. -/
theorem getPropertyByOffset_of_tokenAt (hheader : fdt.Header) {o len nameoff : Nat}
    (haligned : 4 ∣ o) (h : fdt.TokenAt o (.prop len nameoff)) :
    fdt.fdtCheckPropOffset o = ((Token.prop len nameoff).next o : Nat) ∧
      fdt.fdtGetPropertyByOffset o = .ok ⟨o, fdt.offDtStruct + o, len⟩ := by
  have hcheck : fdt.fdtCheckPropOffset o = ((Token.prop len nameoff).next o : Nat) :=
    checkOffset_of_tokenAt hheader haligned h
  have hsize := h.size_lt fdt hheader
  refine ⟨hcheck, ?_⟩
  simp only [Token.size] at hsize
  rw [fdtGetPropertyByOffset, hcheck, if_neg (Int.not_lt.2 (Int.natCast_nonneg _))]
  simp only [Int.toNat_natCast, h.body.1]
  rw [toInt_natCast (by omega)]

/-- The loop over the properties of a node, from its first token on or from behind one of
them. -/
theorem propertyLoop_eq (hheader : fdt.Header) (name : List UInt8) {tokens : List Token}
    {o m fuel fuel' : Nat} (haligned : 4 ∣ o) (hspells : fdt.Spells o tokens)
    (hcloses : closes (m + 1) tokens) (hfuel : fdt.totalsize < o + fuel)
    (hfuel' : fdt.totalsize < o + fuel') :
    (fdt.nextprop fuel o).bind (fdt.propertyLoop name fuel') =
      some (fdt.propResult (fdt.findProp (propsFrom o tokens) name)) := by
  induction tokens generalizing o fuel fuel' with
  | nil => cases hcloses
  | cons t rest ih =>
    obtain ⟨htoken, hrest⟩ := hspells
    have hstep := fdt.fdtNextTag_of_tokenAt hheader htoken
    have hnext := t.lt_next o
    have hroom := htoken.fits.1
    have hsize := t.four_le_size
    obtain ⟨fuel, rfl⟩ : ∃ n, fuel = n + 1 := ⟨fuel - 1, by omega⟩
    obtain ⟨fuel', rfl⟩ : ∃ n, fuel' = n + 1 := ⟨fuel' - 1, by omega⟩
    have hstop (htag : t.tag = FDT_BEGIN_NODE ∨ t.tag = FDT_END_NODE)
        (hnone : propsFrom o (t :: rest) = []) :
        (fdt.nextprop (fuel + 1) o).bind (fdt.propertyLoop name (fuel' + 1)) =
          some (fdt.propResult (fdt.findProp (propsFrom o (t :: rest)) name)) := by
      have hneg : -FDT_ERR_NOTFOUND < 0 := by decide
      rw [nextprop_other hstep htag, hnone, Option.bind_some, propertyLoop, if_pos hneg]
      rfl
    cases t with
    | beginNode inner => exact hstop (Or.inl rfl) rfl
    | endNode => exact hstop (Or.inr rfl) rfl
    | finish => cases hcloses
    | nop =>
      rw [nextprop_nop hstep, propsFrom]
      exact ih (Token.four_dvd_next _ _) hrest hcloses (by omega) (by omega)
    | prop len nameoff =>
      obtain ⟨hcheck, hprop⟩ := getPropertyByOffset_of_tokenAt hheader haligned htoken
      have hcode : fdt.fdt32 (fdt.offDtStruct + o + 8) = nameoff := htoken.body.2
      rw [nextprop_prop hstep, Option.bind_some, propertyLoop,
        if_neg (Int.not_lt.2 (Int.natCast_nonneg _)), hprop]
      simp only [hcode, propsFrom, findProp, List.find?_cons]
      by_cases hname : fdt.nameAt nameoff = some name
      · rw [if_pos ((fdt.fdtStringEq_iff nameoff name).2 hname)]
        simp only [hname, decide_true]
        rfl
      · rw [if_neg fun h => hname ((fdt.fdtStringEq_iff nameoff name).1 h)]
        simp only [hname, decide_false]
        rw [fdtNextPropertyOffset, hcheck]
        simp only [if_neg (Int.not_lt.2 (Int.natCast_nonneg _))]
        exact ih (Token.four_dvd_next _ _) hrest hcloses (by omega) (by omega)

/-- `fdt_getprop` of a node: the first of its properties with the name. -/
theorem NodeAt.getprop (hheader : fdt.Header) {e : Entry} {tokens : List Token} {fuel : Nat}
    (h : fdt.NodeAt e tokens) (hfuel : fdt.totalsize < e.offset + fuel) (name : List UInt8) :
    fdt.fdtGetprop fuel e.offset name =
      some (match fdt.findProp e.props name with
        | none => .error (-FDT_ERR_NOTFOUND)
        | some p => .ok ⟨fdt.offDtStruct + p.offset + 12, p.len⟩) := by
  have hinside := NodeAt.lt_inside e
  have hversion := hheader.version
  have haligned : 4 ∣ inside e := Token.four_dvd_next _ _
  have hfuel' : fdt.totalsize < inside e + fuel := by omega
  have hloop := propertyLoop_eq hheader name haligned h.spells h.closes hfuel' hfuel'
  have hfirst : fdt.fdtGetPropertyNamelen fuel e.offset name =
      some (fdt.propResult (fdt.findProp e.props name)) := by
    rw [fdtGetPropertyNamelen, fdtFirstPropertyOffset, h.checkOffset hheader]
    simp only [if_neg (Int.not_lt.2 (Int.natCast_nonneg _))]
    rw [h.props]
    exact hloop
  rw [fdtGetprop, hfirst]
  cases fdt.findProp e.props name with
  | none => rfl
  | some p =>
    have hold : ¬ fdt.version < 0x10 := by omega
    simp only [propResult, hold, false_and, if_false]
    rfl

end Dtb

end ZStage.Libfdt
