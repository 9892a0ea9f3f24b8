import ZStage.Libfdt.Fdt
import ZStage.Lib.CString

/-!
The tokens of a structure block. A token at an offset is what the bytes there spell and
what the block has room for; `fdt_next_tag` goes from one to the next. The only other
thing that it goes over is a property whose length is too large to add to an offset.
-/

namespace ZStage.Libfdt

open ZStage.Lib.BigEndian ZStage.Lib.CString ZStage.Lib.Lexicographic ZStage.Fdt

theorem toUnsigned_natCast (n : Nat) : toUnsigned n = n % 2 ^ 32 := by
  simp only [toUnsigned]
  omega

theorem toInt_natCast {n : Nat} (h : n < 2 ^ 31) : toInt n = n := by
  rw [toInt, Int.bmod_def]
  omega

theorem toInt_emod (x : Int) : toInt x % 2 ^ 32 = x % 2 ^ 32 := by
  rw [toInt, Int.bmod_def]
  omega

/-- Only the value modulo 32 bits counts where an `int` is stored. -/
theorem toInt_congr {x y : Int} (h : x % 2 ^ 32 = y % 2 ^ 32) : toInt x = toInt y := by
  have hpow : ((2 ^ 32 : Nat) : Int) = 2 ^ 32 := rfl
  rw [toInt, toInt, Int.bmod_def, Int.bmod_def, hpow, h]

theorem tagAlign_congr {x y : Int} (h : x % 2 ^ 32 = y % 2 ^ 32) : tagAlign x = tagAlign y := by
  rw [tagAlign, tagAlign]
  apply toInt_congr
  omega

theorem toUnsigned_congr {x y : Int} (h : x % 2 ^ 32 = y % 2 ^ 32) :
    toUnsigned x = toUnsigned y := by
  rw [toUnsigned, toUnsigned, h]

theorem toUnsigned_emod_eight (x : Int) : (toUnsigned x : Int) % 8 = x % 8 := by
  have hpos : 0 ≤ x % 2 ^ 32 := Int.emod_nonneg _ (by decide)
  rw [toUnsigned, Int.toNat_of_nonneg hpos]
  exact Int.emod_emod_of_dvd x (by decide)

theorem toUnsigned_sub {o n : Nat} {offset : Int}
    (h : offset % 2 ^ 32 = ((o + n : Nat) : Int) % 2 ^ 32) :
    toUnsigned (offset - o) = n % 2 ^ 32 := by
  rw [toUnsigned]
  omega

/-- The offset of a value modulo 8, which old versions align. -/
theorem toUnsigned_realign (o len : Nat) :
    toUnsigned (toInt (o + (12 + len) : Nat) - len) % 8 = (o + 12) % 8 := by
  have hsub : (toInt (o + (12 + len) : Nat) - len) % 2 ^ 32 = ((o + 12 : Nat) : Int) % 2 ^ 32 := by
    rw [Int.sub_emod, toInt_emod, ← Int.sub_emod]
    congr 1
    omega
  have height := toUnsigned_emod_eight ((o + 12 : Nat) : Int)
  rw [toUnsigned_congr hsub]
  omega

theorem tagAlign_natCast {n : Nat} (h : n + 3 < 2 ^ 31) : tagAlign n = ((n + 3) / 4 * 4 : Nat) := by
  rw [tagAlign, show ((n : Int) + 3) / 4 * 4 = ((n + 3) / 4 * 4 : Nat) by omega]
  exact toInt_natCast (by omega)

/-- A token. The value of a property stays in the blob. -/
inductive Token
  | beginNode (name : List UInt8)
  | endNode
  | prop (len nameoff : Nat)
  | nop
  | finish
  deriving DecidableEq, Repr

namespace Token

def tag : Token → Nat
  | beginNode _ => FDT_BEGIN_NODE
  | endNode => FDT_END_NODE
  | prop _ _ => FDT_PROP
  | nop => FDT_NOP
  | finish => FDT_END

/-- The bytes of a token up to the padding. -/
def size : Token → Nat
  | beginNode name => 4 + name.length + 1
  | prop len _ => 12 + len
  | _ => 4

/-- The offset behind a token at `o`. -/
def next (t : Token) (o : Nat) : Nat := (o + t.size + 3) / 4 * 4

variable (t : Token) (o : Nat)

theorem four_le_size : 4 ≤ t.size := by
  cases t <;> simp only [size] <;> omega

theorem le_next : o + t.size ≤ t.next o := by
  rw [next]
  omega

theorem lt_next : o < t.next o := by
  have hsize := t.four_le_size
  have hnext := t.le_next o
  omega

theorem four_dvd_next : 4 ∣ t.next o := Nat.dvd_mul_left 4 _

end Token

namespace Dtb

variable (fdt : Dtb)

/-- The `len` bytes at an offset are in the structure block. -/
def Fits (offset len : Nat) : Prop :=
  fdt.offDtStruct + offset + len ≤ fdt.totalsize ∧
    (0x11 ≤ fdt.version → offset + len ≤ fdt.sizeDtStruct)

instance (offset len : Nat) : Decidable (fdt.Fits offset len) :=
  inferInstanceAs (Decidable (_ ∧ _))

variable {fdt}

theorem Fits.mono {offset offset' len len' : Nat} (h : fdt.Fits offset len)
    (hle : offset' + len' ≤ offset + len) : fdt.Fits offset' len' := by
  obtain ⟨htotal, hstruct⟩ := h
  exact ⟨by omega, fun hversion => Nat.le_trans hle (hstruct hversion)⟩

variable (fdt)

theorem fdt32_lt (p : Nat) : fdt.fdt32 p < 2 ^ 32 := by
  have := bigEndian_lt fdt.mem p 4
  rw [fdt32]
  omega

theorem fdtOffsetPtr_neg {offset : Int} (len : Nat) (h : offset < 0) :
    fdt.fdtOffsetPtr offset len = none := by
  simp [fdtOffsetPtr, h]

theorem fdtNextTag_neg {offset : Int} (h : offset < 0) :
    fdt.fdtNextTag offset = (FDT_END, -FDT_ERR_TRUNCATED) := by
  rw [fdtNextTag, fdt.fdtOffsetPtr_neg _ h]

/-- The checks of `fdt_offset_ptr` are exact: no sum of them wraps unnoticed. -/
theorem fdtOffsetPtr_natCast {offset len : Nat} (hoffset : offset < 2 ^ 32)
    (hlen : len < 2 ^ 32) :
    fdt.fdtOffsetPtr offset len =
      if fdt.Fits offset len then some (fdt.offDtStruct + offset) else none := by
  have hbase : fdt.offDtStruct < 2 ^ 32 := fdt.fdt32_lt 8
  have htotal : fdt.totalsize < 2 ^ 32 := fdt.fdt32_lt 4
  have hsize : fdt.sizeDtStruct < 2 ^ 32 := fdt.fdt32_lt 36
  simp only [fdtOffsetPtr, ← Int.natCast_add, toUnsigned_natCast, Int.toNat_natCast,
    Nat.mod_eq_of_lt hoffset, show ¬ (offset : Int) < 0 by omega, if_false]
  by_cases hblob : fdt.offDtStruct + offset + len ≤ fdt.totalsize
  · rw [if_neg (by omega)]
    by_cases hblock : 0x11 ≤ fdt.version → offset + len ≤ fdt.sizeDtStruct
    · rw [if_neg (by omega), if_pos ⟨hblob, hblock⟩]
    · rw [if_pos (by omega), if_neg fun h => hblock h.2]
  · rw [if_pos (by omega), if_neg fun h => hblob h.1]

theorem fdtOffsetPtr_of_fits {offset len : Nat} (h : fdt.Fits offset len) :
    fdt.fdtOffsetPtr offset len = some (fdt.offDtStruct + offset) := by
  have htotal : fdt.totalsize < 2 ^ 32 := fdt.fdt32_lt 4
  have hblob := h.1
  rw [fdt.fdtOffsetPtr_natCast (by omega) (by omega), if_pos h]

/-! ## Tokens in a blob -/

/-- What follows the tag of a token, `p` being the byte of the blob at which it begins. -/
def Body (p : Nat) : Token → Prop
  | .beginNode name =>
    initial (fdt.bytesAt (p + 4)) (name.length + 1) = name ++ [0] ∧ 0 ∉ name
  | .prop len nameoff => fdt.fdt32 (p + 4) = len ∧ fdt.fdt32 (p + 8) = nameoff
  | _ => True

/-- The token at an offset. -/
structure TokenAt (o : Nat) (t : Token) : Prop where
  fits : fdt.Fits o t.size
  tag : fdt.fdt32 (fdt.offDtStruct + o) = t.tag
  body : fdt.Body (fdt.offDtStruct + o) t

/-- What the checks of libfdt say about the header, and that the structure block, of a version
without realignment, lies behind it. -/
structure Header : Prop where
  aligned : fdt.addr &&& 7 = 0
  magic : fdt.magic = FDT_MAGIC
  version : 16 ≤ fdt.version
  lastComp : fdt.lastCompVersion ≤ FDT_LAST_SUPPORTED_VERSION
  totalsize : fdt.totalsize < INT32_MAX
  offDtStruct : 28 ≤ fdt.offDtStruct

/-! ## One step of `fdt_next_tag` -/

@[simp] theorem bytesAt_zero (p : Nat) : fdt.bytesAt p 0 = fdt.mem p := by
  rw [bytesAt, Nat.add_zero]

theorem bytesAt_add (p k i : Nat) : fdt.bytesAt (p + k) i = fdt.bytesAt p (i + k) := by
  rw [bytesAt, bytesAt, Nat.add_assoc, Nat.add_comm k]

theorem skipName_of_terminated {left o n : Nat}
    (h : Terminated (fdt.bytesAt (fdt.offDtStruct + o)) n) (hfits : fdt.Fits o (n + 1))
    (hleft : n < left) : fdt.skipName left o = some ((o + n + 1 : Nat) : Int) := by
  induction left generalizing o n with
  | zero => omega
  | succ left ih =>
      rw [skipName, fdt.fdtOffsetPtr_of_fits (hfits.mono (show o + 1 ≤ o + (n + 1) by omega))]
      simp only
      cases n with
      | zero =>
          have hnul := h.nul
          rw [bytesAt_zero] at hnul
          rw [if_neg (not_not.2 hnul)]
          rfl
      | succ n =>
          have hbody := h.body 0 (by omega)
          rw [bytesAt_zero] at hbody
          have htail : Terminated (fdt.bytesAt (fdt.offDtStruct + (o + 1))) n := by
            have heq : fdt.bytesAt (fdt.offDtStruct + (o + 1)) =
                fun i => fdt.bytesAt (fdt.offDtStruct + o) (i + 1) := by
              funext i
              rw [← Nat.add_assoc, bytesAt_add]
            exact heq ▸ h.tail
          rw [if_pos hbody]
          have hrest := ih htail (hfits.mono (by omega)) (by omega)
          rw [show (o : Int) + 1 = (o + 1 : Nat) by omega, hrest]
          congr 2
          omega

theorem terminated_of_skipName {left o : Nat} {r : Int} (ho : o + left ≤ 2 ^ 32)
    (h : fdt.skipName left o = some r) :
    ∃ n, Terminated (fdt.bytesAt (fdt.offDtStruct + o)) n ∧ fdt.Fits o (n + 1) ∧
      r = (o + n + 1 : Nat) := by
  induction left generalizing o with
  | zero => cases h
  | succ left ih =>
      rw [skipName, fdt.fdtOffsetPtr_natCast (by omega) (by omega)] at h
      by_cases hfits : fdt.Fits o 1
      · rw [if_pos hfits] at h
        simp only at h
        by_cases hnul : fdt.mem (fdt.offDtStruct + o) = 0
        · rw [if_neg (not_not.2 hnul), Option.some.injEq] at h
          refine ⟨0, ⟨fun i hi => absurd hi (Nat.not_lt_zero i), ?_⟩, hfits, h.symm⟩
          rw [bytesAt_zero, hnul]
        · rw [if_pos hnul, show (o : Int) + 1 = (o + 1 : Nat) by omega] at h
          obtain ⟨n, hstring, hfits', rfl⟩ := ih (by omega) h
          rw [← Nat.add_assoc] at hstring
          refine ⟨n + 1, ⟨?_, ?_⟩, hfits'.mono (by omega), by congr 1; omega⟩
          · intro i hi
            cases i with
            | zero => rwa [bytesAt_zero]
            | succ i =>
                have hbyte := hstring.body i (by omega)
                rwa [bytesAt_add] at hbyte
          · have hbyte := hstring.nul
            rwa [bytesAt_add] at hbyte
      · rw [if_neg hfits] at h
        cases h

/-- The bytes that `fdt_next_tag` takes a property of length `len` at `o` to have, with those
for the realignment of old versions. The sum is one of 32 bits. -/
def propSize (o len : Nat) : Nat :=
  (12 + len + if fdt.version < 0x10 ∧ 8 ≤ len ∧ (o + 12) % 8 ≠ 0 then 4 else 0) % 2 ^ 32

/-- The offset behind a property is right modulo 32 bits, and so is what is checked. -/
theorem skipToken_prop {o : Nat} (hlenp : fdt.Fits o 8) :
    ∃ offset : Int, fdt.skipToken FDT_PROP (o + FDT_TAGSIZE) = some offset ∧
      toUnsigned (offset - o) = fdt.propSize o (fdt.fdt32 (fdt.offDtStruct + o + 4)) ∧
      tagAlign offset =
        tagAlign (o + fdt.propSize o (fdt.fdt32 (fdt.offDtStruct + o + 4)) : Nat) := by
  have hptr := fdt.fdtOffsetPtr_of_fits (hlenp.mono (show o + 4 + 4 ≤ o + 8 by omega))
  have hprop : FDT_PROP ≠ FDT_BEGIN_NODE := by decide
  rw [skipToken, if_neg hprop, if_pos rfl, show (o : Int) + FDT_TAGSIZE = (o + 4 : Nat) from rfl,
    hptr, ← Nat.add_assoc]
  generalize hlen : fdt.fdt32 (fdt.offDtStruct + o + 4) = len
  have hsum : ((o + 4 : Nat) : Int) + (12 - FDT_TAGSIZE) + len = (o + (12 + len) : Nat) := by
    simp only [FDT_TAGSIZE]
    omega
  have hwrap := toInt_emod (o + (12 + len) : Nat)
  have halign := toUnsigned_realign o len
  simp only [hlen, hsum, halign, propSize]
  generalize toInt (o + (12 + len) : Nat) = offset at hwrap
  by_cases hold : fdt.version < 0x10 ∧ 8 ≤ len ∧ (o + 12) % 8 ≠ 0
  · rw [if_pos hold, if_pos hold]
    have hmod : (offset + 4) % 2 ^ 32 = ((o + (12 + len + 4) : Nat) : Int) % 2 ^ 32 := by omega
    exact ⟨offset + 4, rfl, toUnsigned_sub hmod, tagAlign_congr (by omega)⟩
  · rw [if_neg hold, if_neg hold]
    exact ⟨offset, rfl, toUnsigned_sub hwrap, tagAlign_congr (by omega)⟩

/-- The tags that `fdt_next_tag` knows how to skip by their own length. -/
theorem skipToken_short {tag : Nat} {o : Nat} {offset : Int} (hbegin : tag ≠ FDT_BEGIN_NODE)
    (hprop : tag ≠ FDT_PROP) :
    fdt.skipToken tag o = some offset ↔
      (tag = FDT_END ∨ tag = FDT_END_NODE ∨ tag = FDT_NOP) ∧ offset = o := by
  rw [skipToken, if_neg hbegin, if_neg hprop]
  split
  · next hknown => simp [hknown, eq_comm]
  · next hknown => simp [hknown]

theorem fdtNextTag_of_skip {o n : Nat} {offset : Int} {tag : Nat} (hfits : fdt.Fits o (max 4 n))
    (htag : fdt.fdt32 (fdt.offDtStruct + o) = tag)
    (hskip : fdt.skipToken tag (o + FDT_TAGSIZE) = some offset)
    (hchecked : toUnsigned (offset - o) = n) :
    fdt.fdtNextTag o = (tag, tagAlign offset) := by
  rw [fdtNextTag, fdt.fdtOffsetPtr_of_fits (hfits.mono (by simp only [FDT_TAGSIZE]; omega))]
  simp only [htag, hskip, hchecked]
  rw [fdt.fdtOffsetPtr_of_fits (hfits.mono (by omega))]

theorem TokenAt.size_lt (hheader : fdt.Header) {o : Nat} {t : Token} (h : fdt.TokenAt o t) :
    o + t.size + 3 < 2 ^ 31 := by
  have htotal := hheader.totalsize
  have hbase := hheader.offDtStruct
  have hfits := h.fits.1
  rw [INT32_MAX] at htotal
  omega

/-- One step over a token that the block holds. -/
theorem fdtNextTag_of_tokenAt (hheader : fdt.Header) {o : Nat} {t : Token}
    (h : fdt.TokenAt o t) : fdt.fdtNextTag o = (t.tag, ((t.next o : Nat) : Int)) := by
  have hsize := h.size_lt fdt hheader
  have hfits : fdt.Fits o (max 4 t.size) := by
    rw [Nat.max_eq_right t.four_le_size]
    exact h.fits
  have hstep (offset : Int) (hskip : fdt.skipToken t.tag (o + FDT_TAGSIZE) = some offset)
      (hchecked : toUnsigned (offset - o) = t.size)
      (halign : tagAlign offset = tagAlign (o + t.size : Nat)) :
      fdt.fdtNextTag o = (t.tag, ((t.next o : Nat) : Int)) := by
    rw [fdt.fdtNextTag_of_skip hfits h.tag hskip hchecked, halign, tagAlign_natCast hsize,
      Token.next]
  have hshort (hsmall : t.size = 4) (hbegin : t.tag ≠ FDT_BEGIN_NODE) (hprop : t.tag ≠ FDT_PROP)
      (hknown : t.tag = FDT_END ∨ t.tag = FDT_END_NODE ∨ t.tag = FDT_NOP) :
      fdt.fdtNextTag o = (t.tag, ((t.next o : Nat) : Int)) := by
    apply hstep (o + t.size : Nat)
    · rw [hsmall]
      exact (fdt.skipToken_short hbegin hprop).2 ⟨hknown, rfl⟩
    · rw [toUnsigned_sub rfl]
      omega
    · rfl
  cases t with
  | endNode => exact hshort rfl (by decide) (by decide) (by decide)
  | nop => exact hshort rfl (by decide) (by decide) (by decide)
  | finish => exact hshort rfl (by decide) (by decide) (by decide)
  | beginNode name =>
      obtain ⟨hbytes, hbody⟩ := h.body
      have hstring := terminated_of_initial hbytes hbody
      rw [Nat.add_assoc] at hstring
      have hleft : name.length < fdt.totalsize := by
        have hroom := h.fits.1
        simp only [Token.size] at hroom
        omega
      have hname := fdt.skipName_of_terminated hstring
        (h.fits.mono (by simp only [Token.size]; omega)) hleft
      apply hstep (o + Token.size (.beginNode name) : Nat)
      · rw [Token.tag, skipToken, if_pos rfl]
        rw [show (o : Int) + FDT_TAGSIZE = (o + 4 : Nat) from rfl, hname]
        simp only [Token.size]
        congr 2
        omega
      · rw [toUnsigned_sub rfl]
        omega
      · rfl
  | prop len nameoff =>
      obtain ⟨offset, hskip, hchecked, halign⟩ := fdt.skipToken_prop (o := o)
        (h.fits.mono (by simp only [Token.size]; omega))
      have hlen := h.body.1
      have hprop : fdt.propSize o (fdt.fdt32 (fdt.offDtStruct + o + 4)) = 12 + len := by
        have hversion := hheader.version
        simp only [Token.size] at hsize
        rw [hlen, propSize, if_neg (by omega)]
        omega
      rw [hprop] at hchecked halign
      exact hstep offset hskip hchecked halign

/-! ## What `fdt_next_tag` does on any blob -/

/-- The tags other than `FDT_PROP`. -/
def PlainTag (tag : Nat) : Prop :=
  tag = FDT_BEGIN_NODE ∨ tag = FDT_END_NODE ∨ tag = FDT_NOP ∨ tag = FDT_END

/-- What lies behind a token of `n` bytes at `o`, as far as an `int` tells. -/
def Behind (o n : Nat) (offset : Int) : Prop :=
  toUnsigned (offset - o) = n ∧ tagAlign offset = tagAlign (o + n : Nat)

theorem behind_natCast {o n : Nat} (hn : n < 2 ^ 32) : Behind o n ((o + n : Nat) : Int) := by
  refine ⟨?_, rfl⟩
  rw [toUnsigned_sub rfl]
  exact Nat.mod_eq_of_lt hn

theorem skipToken_cases (htotal : fdt.totalsize < INT32_MAX) {o tag : Nat} {offset : Int}
    (hfits : fdt.Fits o 4) (hskip : fdt.skipToken tag (o + FDT_TAGSIZE) = some offset) :
    ∃ n, Behind o n offset ∧ (PlainTag tag ∧ 4 ≤ n ∨
      tag = FDT_PROP ∧ fdt.Fits o 8 ∧
        n = fdt.propSize o (fdt.fdt32 (fdt.offDtStruct + o + 4))) := by
  rw [INT32_MAX] at htotal
  have hblob := hfits.1
  have hfour : (o : Int) + FDT_TAGSIZE = (o + 4 : Nat) := rfl
  by_cases hbegin : tag = FDT_BEGIN_NODE
  · subst hbegin
    rw [skipToken, if_pos rfl, hfour] at hskip
    obtain ⟨n, -, hname, rfl⟩ := fdt.terminated_of_skipName (by omega) hskip
    have hroom := hname.1
    refine ⟨4 + n + 1, ?_, Or.inl ⟨Or.inl rfl, by omega⟩⟩
    rw [show o + 4 + n + 1 = o + (4 + n + 1) by omega]
    exact behind_natCast (by omega)
  · by_cases hprop : tag = FDT_PROP
    · subst hprop
      have hlenp : fdt.Fits o 8 := by
        by_contra hno
        have hnull : ¬ fdt.Fits (o + 4) 4 := fun h => hno (h.mono (by omega))
        rw [skipToken, if_neg hbegin, if_pos rfl, hfour,
          fdt.fdtOffsetPtr_natCast (by omega) (by decide), if_neg hnull] at hskip
        cases hskip
      obtain ⟨offset', hskip', hbehind⟩ := fdt.skipToken_prop hlenp
      rw [hskip', Option.some.injEq] at hskip
      subst hskip
      exact ⟨_, hbehind, Or.inr ⟨rfl, hlenp, rfl⟩⟩
    · rw [hfour] at hskip
      obtain ⟨hknown, rfl⟩ := (fdt.skipToken_short hbegin hprop).1 hskip
      refine ⟨4, behind_natCast (by omega), Or.inl ⟨?_, Nat.le_refl 4⟩⟩
      rcases hknown with h | h | h
      · exact Or.inr (Or.inr (Or.inr h))
      · exact Or.inr (Or.inl h)
      · exact Or.inr (Or.inr (Or.inl h))

/-- A step is an error, or goes over what the block has room for: a token of at least four
bytes, or a property of the size that the code computes. -/
theorem fdtNextTag_cases (htotal : fdt.totalsize < INT32_MAX) (hbase : 28 ≤ fdt.offDtStruct)
    {o : Nat} (ho : o < 2 ^ 31) :
    (fdt.fdtNextTag o).1 = FDT_END ∧ (fdt.fdtNextTag o).2 < 0 ∨
      ∃ n, fdt.Fits o 4 ∧ fdt.Fits o n ∧
        fdt.fdtNextTag o = (fdt.fdt32 (fdt.offDtStruct + o), (((o + n + 3) / 4 * 4 : Nat) : Int)) ∧
        (PlainTag (fdt.fdt32 (fdt.offDtStruct + o)) ∧ 4 ≤ n ∨
          fdt.fdt32 (fdt.offDtStruct + o) = FDT_PROP ∧ fdt.Fits o 8 ∧
            n = fdt.propSize o (fdt.fdt32 (fdt.offDtStruct + o + 4))) := by
  have herr : -FDT_ERR_BADSTRUCTURE < 0 := by decide
  have herr' : -FDT_ERR_TRUNCATED < 0 := by decide
  by_cases hfits : fdt.Fits o 4
  · rw [fdtNextTag, FDT_TAGSIZE, fdt.fdtOffsetPtr_of_fits hfits]
    simp only
    generalize htag : fdt.fdt32 (fdt.offDtStruct + o) = tag
    cases hskip : fdt.skipToken tag ((o : Int) + (4 : Nat)) with
    | none => exact Or.inl ⟨rfl, herr⟩
    | some offset =>
        obtain ⟨n, ⟨hchecked, halign⟩, hkind⟩ := fdt.skipToken_cases htotal hfits hskip
        have hn : n < 2 ^ 32 := by
          rw [← hchecked, toUnsigned]
          omega
        simp only [hchecked, fdt.fdtOffsetPtr_natCast (show o < 2 ^ 32 by omega) hn]
        by_cases hroom : fdt.Fits o n
        · have hblob := hroom.1
          rw [INT32_MAX] at htotal
          rw [if_pos hroom, halign, tagAlign_natCast (by omega)]
          exact Or.inr ⟨n, hfits, hroom, rfl, hkind⟩
        · rw [if_neg hroom]
          exact Or.inl ⟨rfl, herr⟩
  · rw [fdtNextTag, FDT_TAGSIZE, fdt.fdtOffsetPtr_natCast (by omega) (by decide), if_neg hfits]
    exact Or.inl ⟨rfl, herr'⟩

end Dtb

end ZStage.Libfdt
