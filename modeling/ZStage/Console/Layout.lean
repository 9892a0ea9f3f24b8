import ZStage.Lib.Numeral
import ZStage.Console.ArgsInStep
import ZStage.Console.Bounded

/-!
The layout of a printed integer. A number is a sign, a prefix and the numeral of its
magnitude (`NumberText`), and a layout puts it into a field: flush left with spaces
behind, or flush right with spaces in front or zeros between prefix and digits. `printi`
and `prints` share the work. Only `printi` knows the sign and the prefix, and only `prints`
pads, with zeros on either side once there is a '0' flag (`layout_iff`).
-/

namespace ZStage.Console

open ZStage.Lib.Numeral

/-! ## The layout -/

/-- The parts of a number that is printed. -/
structure NumberText where
  sign : List UInt8
  pre : List UInt8
  digits : List UInt8

def NumberText.body (n : NumberText) : List UInt8 := n.sign ++ (n.pre ++ n.digits)

/-- The number in a field of a width. -/
def NumberText.layout (n : NumberText) (width : Nat) (flags : Flags) : List UInt8 :=
  let padding (c : Char) := List.replicate (width - n.body.length) (ch c)
  if width ≤ n.body.length then n.body
  else if flags.right then n.body ++ padding ' '
  else if flags.zero then n.sign ++ (n.pre ++ (padding '0' ++ n.digits))
  else padding ' ' ++ n.body

theorem NumberText.layout_of_le {n : NumberText} {width : Nat} (h : width ≤ n.body.length)
    (flags : Flags) : n.layout width flags = n.body := if_pos h

theorem NumberText.layout_of_not_le {n : NumberText} {width : Nat}
    (h : ¬width ≤ n.body.length) (flags : Flags) :
    n.layout width flags =
      let padding (c : Char) := List.replicate (width - n.body.length) (ch c)
      if flags.right then n.body ++ padding ' '
      else if flags.zero then n.sign ++ (n.pre ++ (padding '0' ++ n.digits))
      else padding ' ' ++ n.body := if_neg h

theorem NumberText.layout_length (n : NumberText) (width : Nat) (flags : Flags) :
    (n.layout width flags).length = max width n.body.length := by
  simp only [NumberText.layout]
  split_ifs with hfits hright hzero
  · omega
  · rw [List.length_append, List.length_replicate]
    omega
  · simp only [NumberText.body, List.length_append, List.length_replicate] at hfits ⊢
    omega
  · rw [List.length_append, List.length_replicate]
    omega

/-! ## Integer conversions -/

/-- The conversions of an integer; the others are of a character and of a string. -/
def Conv.isInteger : Conv → Bool
  | .c | .s => false
  | _ => true

def Conv.isSigned : Conv → Bool
  | .d | .i | .ld | .lld => true
  | _ => false

def Conv.isHex : Conv → Bool
  | .x | .X | .p | .P | .lx | .lX | .llx | .llX => true
  | _ => false

def Conv.isUpper : Conv → Bool
  | .X | .P | .lX | .llX => true
  | _ => false

/-- The argument in the width of the conversion, as a word. -/
def Conv.word (conv : Conv) (v : UInt64) : UInt64 :=
  match conv with
  | .d | .i => argInt v
  | .u | .x | .X => argUnsigned v
  | _ => v

/-- The number that the argument stands for. -/
def Conv.value (conv : Conv) (v : UInt64) : Int :=
  if conv.isSigned then (conv.word v).toInt64.toInt else (conv.word v).toNat

def Conv.radix (conv : Conv) : Nat := if conv.isHex then 16 else 10

/-- The character of a digit. -/
def digitText (upper : Bool) (t : Nat) : UInt8 :=
  if t < 10 then UInt8.ofNat (48 + t) else UInt8.ofNat ((if upper then 65 else 97) + (t - 10))

/-- The digit that a character stands for. -/
def digitValue (c : UInt8) : Nat :=
  if c.toNat < 65 then c.toNat - 48 else if c.toNat < 97 then c.toNat - 55 else c.toNat - 87

theorem digitValue_digitText (upper : Bool) {b : Nat} (hb : b ≤ 16) :
    ∀ t < b, digitValue (digitText upper t) = t := by
  have hall : ∀ t : Fin 16, digitValue (digitText upper t) = t := by
    cases upper <;> decide
  exact fun t ht => hall ⟨t, by omega⟩

/-- The parts of the number: a '-' for a negative one, "0x" or "0X" with the flag '#', and the
minimal digits of the magnitude. -/
def Conv.numberText (conv : Conv) (alternate : Bool) (v : UInt64) : NumberText where
  sign := if conv.value v < 0 then [ch '-'] else []
  pre := if alternate then [ch '0', if conv.isUpper then ch 'X' else ch 'x'] else []
  digits := numeral (digitText conv.isUpper) conv.radix (conv.value v).natAbs

/-! ## What `printi` makes of it -/

def Conv.base (conv : Conv) : Base := if conv.isHex then .hex else .dec

def Conv.letbase (conv : Conv) : LetBase :=
  if conv.isSigned then .zero else if conv.isUpper then .upper else .lower

theorem render_integer (args : Args) (v : UInt64) {conv : Conv} (h : conv.isInteger) :
    conv.render args v = .integer (conv.word v) conv.base conv.isSigned conv.letbase := by
  cases conv with
  | c | s => cases h
  | _ => rfl

theorem toInt_cond (i : UInt64) : i.toInt64.toInt =
    if 2 * i.toNat < 2 ^ 64 then (i.toNat : Int) else i.toNat - 2 ^ 64 :=
  BitVec.toInt_eq_toNat_cond i.toBitVec

theorem neg_iff (i : UInt64) : i.toInt64 < 0 ↔ i.toInt64.toInt < 0 := by
  rw [Int64.lt_iff_toInt_lt, Int64.toInt_zero]

/-- The negation of a negative word is its magnitude, for the most negative one too. -/
theorem neg_toNat {i : UInt64} (h : i.toInt64.toInt < 0) :
    (-i).toNat = i.toInt64.toInt.natAbs := by
  have hi := i.toNat_lt
  have hcond := toInt_cond i
  rw [UInt64.toNat_neg]
  show (2 ^ 64 - i.toNat) % 2 ^ 64 = _
  split at hcond
  · omega
  · omega

theorem Conv.digitChar_eq (conv : Conv) {t : UInt64} (ht : t.toNat < conv.radix) :
    digitChar conv.letbase t = digitText conv.isUpper t.toNat := by
  have hdec (h : t.toNat < 10) : digitChar .zero t = digitText false t.toNat ∧
      digitChar .lower t = digitText false t.toNat := by
    have hall : ∀ k : Fin 10, digitChar .zero (UInt64.ofNat k) = digitText false k ∧
        digitChar .lower (UInt64.ofNat k) = digitText false k := by decide
    have hk := hall ⟨t.toNat, h⟩
    rwa [UInt64.ofNat_toNat] at hk
  have hhex (h : t.toNat < 16) : digitChar .lower t = digitText false t.toNat ∧
      digitChar .upper t = digitText true t.toNat := by
    have hall : ∀ k : Fin 16, digitChar .lower (UInt64.ofNat k) = digitText false k ∧
        digitChar .upper (UInt64.ofNat k) = digitText true k := by decide
    have hk := hall ⟨t.toNat, h⟩
    rwa [UInt64.ofNat_toNat] at hk
  cases conv with
  | d | i | ld | lld => exact (hdec ht).1
  | u | lu | llu | c | s => exact (hdec ht).2
  | x | p | lx | llx => exact (hhex ht).1
  | X | P | lX | llX => exact (hhex ht).2

theorem Conv.base_value (conv : Conv) : conv.base.value.toNat = conv.radix := by
  cases conv <;> rfl

theorem Conv.one_lt_radix (conv : Conv) : 1 < conv.radix := by
  cases conv <;> decide

/-- The digit loop stores the digits in front of what is there. -/
theorem digitLoop_eq (conv : Conv) (u : UInt64) (s : List UInt8) :
    digitLoop conv.base conv.letbase u s =
      (Nat.digits conv.radix u.toNat).reverse.map (digitText conv.isUpper) ++ s := by
  induction u, s using digitLoop.induct conv.base conv.letbase with
  | case1 s =>
    rw [digitLoop, dif_pos rfl, UInt64.toNat_zero, Nat.digits_zero]
    rfl
  | case2 u s hu ih =>
    have hpos : 0 < u.toNat := by
      rcases Nat.eq_zero_or_pos u.toNat with hzero | hpos
      · exact absurd (UInt64.toNat_inj.1 hzero) hu
      · exact hpos
    have hdigit : digitChar conv.letbase (u % conv.base.value) =
        digitText conv.isUpper (u.toNat % conv.radix) := by
      have hmod : (u % conv.base.value).toNat = u.toNat % conv.radix := by
        rw [UInt64.toNat_mod, conv.base_value]
      rw [conv.digitChar_eq, hmod]
      rw [hmod]
      exact Nat.mod_lt _ (Nat.lt_trans Nat.zero_lt_one conv.one_lt_radix)
    rw [digitLoop, dif_neg hu, ih, hdigit, UInt64.toNat_div, conv.base_value,
      Nat.digits_def' conv.one_lt_radix hpos, List.reverse_cons, List.map_append,
      List.append_assoc]
    rfl

/-- What `print_buf` holds before the sign: the prefix and the numeral. -/
theorem unsignedDigits_eq {conv : Conv} (flags : Flags)
    (halternate : flags.alternate → conv.isHex) (u : UInt64) :
    unsignedDigits u conv.base flags conv.letbase =
      (if flags.alternate then [ch '0', if conv.isUpper then ch 'X' else ch 'x'] else []) ++
        numeral (digitText conv.isUpper) conv.radix u.toNat := by
  have hdigits : (if u = 0 then [ch '0'] else digitLoop conv.base conv.letbase u []) =
      numeral (digitText conv.isUpper) conv.radix u.toNat := by
    by_cases hu : u = 0
    · have hzero : digitText conv.isUpper 0 = ch '0' := rfl
      rw [if_pos hu, hu, UInt64.toNat_zero, numeral, if_pos rfl, hzero]
    · have hne : u.toNat ≠ 0 := fun h => hu (UInt64.toNat_inj.1 h)
      rw [if_neg hu, digitLoop_eq, numeral_of_ne hne, List.append_nil]
  simp only [unsignedDigits, hdigits]
  by_cases hflag : flags.alternate = true
  · simp only [hflag, if_true]
    have hhex := halternate hflag
    cases conv with
    | x | p | lx | llx => rfl
    | X | P | lX | llX => rfl
    | _ => cases hhex
  · simp only [hflag, Bool.false_eq_true, if_false, List.nil_append]

theorem Conv.value_neg_iff (conv : Conv) (v : UInt64) :
    (conv.isSigned = true ∧ conv.base = .dec ∧ (conv.word v).toInt64 < 0) ↔
      conv.value v < 0 := by
  have hbase : conv.isSigned = true → conv.base = .dec := by
    cases conv <;> decide
  rw [Conv.value, neg_iff]
  by_cases hsigned : conv.isSigned = true
  · simp [hsigned, hbase hsigned]
  · rw [if_neg hsigned]
    exact iff_of_false (fun h => hsigned h.1) (by omega)

/-- The word whose digits are printed has the magnitude of the number. -/
theorem Conv.magnitude (conv : Conv) (v : UInt64) :
    (if conv.value v < 0 then -(conv.word v) else conv.word v).toNat =
      (conv.value v).natAbs := by
  have hcond := toInt_cond (conv.word v)
  by_cases hsigned : conv.isSigned = true
  · have hvalue : conv.value v = (conv.word v).toInt64.toInt := if_pos hsigned
    rw [hvalue]
    split_ifs with hneg
    · exact neg_toNat hneg
    · split at hcond
      · omega
      · have := (conv.word v).toNat_lt
        omega
  · have hvalue : conv.value v = (conv.word v).toNat := if_neg hsigned
    rw [hvalue, if_neg (by omega)]
    rfl

/-- What is printed, over the parts of the number. -/
theorem integer_text (args : Args) {conv : Conv} (hint : conv.isInteger) (flags : Flags)
    (halternate : flags.alternate → conv.isHex) (v : UInt64) (x : Int) :
    (conv.render args v).text x flags =
      let n := conv.numberText flags.alternate v
      if conv.value v < 0 ∧ x ≠ 0 ∧ flags.zero then
        ch '-' :: printsText (n.pre ++ n.digits) (int (x - 1)) flags
      else printsText n.body x flags := by
  have hmagnitude := conv.magnitude v
  rw [render_integer args v hint]
  simp only [Render.text, printiText, conv.value_neg_iff, unsignedDigits_eq flags halternate,
    hmagnitude]
  simp only [NumberText.body, Conv.numberText]
  by_cases hneg : conv.value v < 0
  · simp only [hneg, if_true, true_and]
    rfl
  · simp only [hneg, if_false, false_and, List.nil_append]

theorem Conv.body_length_lt (conv : Conv) (alternate : Bool) (v : UInt64) :
    (conv.numberText alternate v).body.length < 2 ^ 31 := by
  have hsign : (conv.numberText alternate v).sign.length ≤ 1 := by
    simp only [Conv.numberText]
    split <;> decide
  have hpre : (conv.numberText alternate v).pre.length ≤ 2 := by
    simp only [Conv.numberText]
    split
    · exact Nat.le_refl 2
    · exact Nat.zero_le 2
  have hdigits : (conv.numberText alternate v).digits.length ≤ 64 := by
    refine numeral_length_le conv.one_lt_radix (by decide) ?_
    rw [← conv.magnitude v]
    exact Nat.lt_of_lt_of_le (UInt64.toNat_lt _)
      (Nat.pow_le_pow_left conv.one_lt_radix 64)
  simp only [NumberText.body, List.length_append]
  omega

/-! ## The field -/

/-- A string in the field that `prints` makes, below the widths that wrap. -/
theorem printsText_eq {s : List UInt8} {x : Int} (flags : Flags) (hs : s.length < 2 ^ 31)
    (hx : x < 2 ^ 31) :
    printsText s x flags =
      let padding := List.replicate (x.toNat - s.length) (if flags.zero then ch '0' else ch ' ')
      if flags.right then s ++ padding else padding ++ s := by
  have hcount : (padWidth s x).toNat = x.toNat - s.length := by
    rw [padWidth, (int_natCast_iff _).2 hs]
    split_ifs with hpos hfits
    · rw [Int.toNat_zero]
      omega
    · rw [int, Int.bmod_eq_of_le (by omega) (by omega)]
      omega
    · omega
  have hpadding : List.replicate (x.toNat - s.length) (padChar x flags) =
      List.replicate (x.toNat - s.length) (if flags.zero then ch '0' else ch ' ') := by
    by_cases hpos : 0 < x
    · simp only [padChar, hpos, true_and]
    · rw [show x.toNat - s.length = 0 by omega]
      rfl
  simp only [printsText, hcount, hpadding]

theorem printsText_length_max {s : List UInt8} {x : Int} (flags : Flags) (hs : s.length < 2 ^ 31)
    (hx : x < 2 ^ 31) : (printsText s x flags).length = max s.length x.toNat := by
  rw [printsText_eq flags hs hx]
  dsimp only
  split
  · rw [List.length_append, List.length_replicate]
    omega
  · rw [List.length_append, List.length_replicate]
    omega

theorem padding_behind_iff (s : List UInt8) (k : Nat) :
    s ++ List.replicate k (ch '0') = s ++ List.replicate k (ch ' ') ↔ k = 0 := by
  rw [List.append_cancel_left_eq]
  constructor
  · intro h
    by_contra hk
    exact absurd ((List.replicate_right_inj hk).1 h) (by decide)
  · rintro rfl
    rfl

/-- Zeros in front of a prefix are not zeros behind it. -/
theorem zeros_in_front_iff {pre : List UInt8} (digits : List UInt8) (k : Nat)
    (hpre : pre = [] ∨ ∃ c, c ≠ ch '0' ∧ pre = [ch '0', c]) :
    List.replicate k (ch '0') ++ (pre ++ digits) = pre ++ (List.replicate k (ch '0') ++ digits) ↔
      k = 0 ∨ pre = [] := by
  rcases hpre with rfl | ⟨c, hc, rfl⟩
  · simp
  · cases k with
    | zero => simp
    | succ k =>
      refine iff_of_false (fun h => hc ?_) (by simp)
      have htail := (List.cons.inj h).2
      cases k with
      | zero => exact (List.cons.inj htail).1.symm
      | succ k => exact (List.cons.inj htail).1.symm

/-- Where `prints` knows the whole number, it lays it out unless there is something to pad
with zeros and these belong behind a prefix, or do not belong there at all. -/
theorem field_iff (n : NumberText) (flags : Flags) (w : Nat) (hlen : n.body.length < 2 ^ 31)
    (hpre : n.pre = [] ∨ ∃ c, c ≠ ch '0' ∧ n.pre = [ch '0', c])
    (hsign : flags.zero → w ≠ 0 → w < 2 ^ 31 → n.sign = []) :
    printsText n.body (int w) flags = n.layout w flags ↔
      w ≤ n.body.length ∨ (w < 2 ^ 31 ∧ (flags.zero → ¬flags.right ∧ n.pre = [])) := by
  have hlt := int_natCast_lt w
  by_cases hw : w < 2 ^ 31
  · rw [printsText_eq flags hlen hlt, (int_natCast_iff w).2 hw, Int.toNat_natCast]
    by_cases hfits : w ≤ n.body.length
    · refine iff_of_true ?_ (Or.inl hfits)
      simp only [NumberText.layout_of_le hfits, Nat.sub_eq_zero_of_le hfits,
        List.replicate_zero, List.append_nil, List.nil_append, ite_self]
    · have hk : w - n.body.length ≠ 0 := by omega
      have hpos : w ≠ 0 := by omega
      simp only [NumberText.layout_of_not_le hfits, hfits, hw, true_and, false_or]
      cases hright : flags.right with
      | true =>
        cases hzero : flags.zero with
        | true =>
          simp only [if_true, padding_behind_iff, hk, not_true_eq_false, false_and, imp_false]
        | false => simp
      | false =>
        cases hzero : flags.zero with
        | true =>
          have hnone := hsign hzero hpos hw
          have hbody : n.body = n.pre ++ n.digits := by
            rw [NumberText.body, hnone, List.nil_append]
          have hiff := zeros_in_front_iff n.digits (w - n.body.length) hpre
          rw [← hbody] at hiff
          simp only [Bool.false_eq_true, if_false, if_true, hnone, List.nil_append, hiff, hk,
            false_or, not_false_eq_true, true_and, forall_const]
        | false => simp
  · refine iff_of_false (fun h => ?_) (by omega)
    have hlength := congrArg List.length h
    rw [printsText_length_max flags hlen hlt, NumberText.layout_length] at hlength
    omega

/-- Where `printi` prints the sign itself, the zeros stand between it and the digits. A width
of 2^31 wraps twice on the way, and arrives. -/
theorem signed_field_iff (n : NumberText) (flags : Flags) (w : Nat)
    (hlen : n.body.length < 2 ^ 31) (hpre : n.pre = []) (hsign : n.sign = [ch '-'])
    (hzero : flags.zero) (hw : int w ≠ 0) :
    ch '-' :: printsText (n.pre ++ n.digits) (int (int w - 1)) flags = n.layout w flags ↔
      w ≤ n.body.length ∨ (w ≤ 2 ^ 31 ∧ ¬flags.right) := by
  have hpos : w ≠ 0 := by
    rintro rfl
    exact hw rfl
  have hbody : n.body = ch '-' :: n.digits := by
    rw [NumberText.body, hsign, hpre]
    rfl
  have hbodyLen : n.body.length = n.digits.length + 1 := by rw [hbody, List.length_cons]
  have hlt : int (int w - 1) < 2 ^ 31 := Int.bmod_lt (by decide)
  rw [hpre, List.nil_append]
  by_cases hwide : w ≤ 2 ^ 31
  · have hwidth : int (int w - 1) = (w : Int) - 1 := by
      rw [Int.sub_eq_add_neg, int_int_add, int, Int.bmod_eq_of_le (by omega) (by omega)]
      rfl
    rw [printsText_eq flags (by omega) hlt, hwidth]
    have hcount : ((w : Int) - 1).toNat - n.digits.length = w - n.body.length := by omega
    rw [hcount]
    by_cases hfits : w ≤ n.body.length
    · refine iff_of_true ?_ (Or.inl hfits)
      simp only [NumberText.layout_of_le hfits, Nat.sub_eq_zero_of_le hfits,
        List.replicate_zero, List.append_nil, List.nil_append, ite_self]
      exact hbody.symm
    · have hk : w - n.body.length ≠ 0 := by omega
      simp only [NumberText.layout_of_not_le hfits, hfits, hwide, hzero, true_and, false_or,
        if_true]
      cases hright : flags.right with
      | true =>
        have hiff := padding_behind_iff n.body (w - n.body.length)
        simp only [if_true, not_true_eq_false, iff_false]
        intro h
        exact hk (hiff.1 (by rw [← h, hbody, List.cons_append]))
      | false =>
        refine iff_of_true ?_ Bool.false_ne_true
        simp only [Bool.false_eq_true, if_false, hsign, hpre, List.nil_append,
          List.singleton_append]
  · refine iff_of_false (fun h => ?_) (by omega)
    have hlength := congrArg List.length h
    rw [List.length_cons, printsText_length_max flags (by omega) hlt,
      NumberText.layout_length] at hlength
    omega

/-! ## The conversions of a format -/

/-- The number is laid out as it should be: the field is no wider than the number; or there
is no '0' flag together with '-' or '#', and the width is an `int`; or the width is 2^31, in
front of a negative number with zeros. -/
def LaidOut (spec : ConvSpec) (v : UInt64) : Prop :=
  let w := decimal 0 spec.digits
  w ≤ (spec.conv.numberText spec.alternate v).body.length ∨
    (w < 2 ^ 31 ∧ (0 < spec.zeros → ¬spec.minus ∧ ¬spec.alternate)) ∨
    (w = 2 ^ 31 ∧ spec.conv.value v < 0 ∧ 0 < spec.zeros ∧ ¬spec.minus)

theorem Conv.signed_of_neg {conv : Conv} {v : UInt64} (h : conv.value v < 0) :
    conv.isSigned = true := ((conv.value_neg_iff v).2 h).1

theorem Conv.not_hex_of_signed {conv : Conv} (h : conv.isSigned = true) : conv.isHex = false := by
  revert h
  cases conv <;> decide

/-- The call that a conversion makes lays the number out exactly in these cases. -/
theorem call_laidOut_iff (args : Args) (spec : ConvSpec) (v : UInt64)
    (hint : spec.conv.isInteger) (halternate : spec.alternate → spec.conv.isHex) :
    (spec.conv.render args v).text spec.width spec.flags =
        (spec.conv.numberText spec.alternate v).layout (decimal 0 spec.digits) spec.flags ↔
      LaidOut spec v := by
  have htext := integer_text args hint spec.flags halternate v spec.width
  have hflag : spec.flags.alternate = spec.alternate := rfl
  have hright : spec.flags.right = spec.minus := rfl
  have hzero : spec.flags.zero = true ↔ 0 < spec.zeros := decide_eq_true_iff
  have hlen := spec.conv.body_length_lt spec.alternate v
  have hwidth : spec.width = int (decimal 0 spec.digits) := rfl
  rw [hflag] at htext
  rw [htext]
  simp only [LaidOut]
  generalize decimal 0 spec.digits = w at hwidth
  have hint31 := int_natCast_iff w
  by_cases hsigned : spec.conv.value v < 0 ∧ spec.width ≠ 0 ∧ spec.flags.zero = true
  · obtain ⟨hneg, hne, hz⟩ := hsigned
    have halt : ¬spec.alternate = true := by
      intro h
      have hhex := halternate h
      rw [Conv.not_hex_of_signed (Conv.signed_of_neg hneg)] at hhex
      cases hhex
    have hsign : (spec.conv.numberText spec.alternate v).sign = [ch '-'] := if_pos hneg
    have hpre : (spec.conv.numberText spec.alternate v).pre = [] := if_neg halt
    rw [if_pos ⟨hneg, hne, hz⟩, hwidth,
      signed_field_iff _ _ w hlen hpre hsign hz (hwidth ▸ hne), hright]
    simp only [hneg, hzero.1 hz, halt, Bool.false_eq_true, not_false_eq_true, and_true, true_and,
      forall_const]
    rw [← or_and_right, ← Nat.le_iff_lt_or_eq]
  · have hsign : spec.flags.zero = true → w ≠ 0 → w < 2 ^ 31 →
        (spec.conv.numberText spec.alternate v).sign = [] := by
      intro hz hw hlt
      refine if_neg fun hneg => hsigned ⟨hneg, ?_, hz⟩
      rw [hwidth, hint31.2 hlt]
      exact Int.natCast_ne_zero.2 hw
    have hpre : (spec.conv.numberText spec.alternate v).pre = [] ∨ ∃ c, c ≠ ch '0' ∧
        (spec.conv.numberText spec.alternate v).pre = [ch '0', c] := by
      simp only [Conv.numberText]
      by_cases halt : spec.alternate = true
      · rw [if_pos halt]
        refine Or.inr ⟨_, ?_, rfl⟩
        split <;> decide
      · exact Or.inl (if_neg halt)
    have hempty : (spec.conv.numberText spec.alternate v).pre = [] ↔ ¬spec.alternate := by
      simp only [Conv.numberText]
      by_cases halt : spec.alternate = true
      · simp [halt]
      · simp [halt]
    rw [if_neg hsigned, hwidth, field_iff _ _ w hlen hpre hsign, hempty, hzero]
    have hwide : ¬(w = 2 ^ 31 ∧ spec.conv.value v < 0 ∧ 0 < spec.zeros ∧ ¬spec.minus) := by
      rintro ⟨rfl, hneg, hz, -⟩
      refine hsigned ⟨hneg, ?_, hzero.2 hz⟩
      rw [hwidth]
      decide +kernel
    rw [or_iff_left hwide]
    rfl

theorem NumberText.mem_layout {n : NumberText} {width : Nat} {flags : Flags} {c : UInt8}
    (h : c ∈ n.layout width flags) : c ∈ n.body ∨ c = ch ' ' ∨ c = ch '0' := by
  have hpad {c₀ : UInt8} {k : Nat} (hmem : c ∈ List.replicate k c₀) : c = c₀ :=
    List.eq_of_mem_replicate hmem
  by_cases hfits : width ≤ n.body.length
  · rw [NumberText.layout_of_le hfits] at h
    exact Or.inl h
  · rw [NumberText.layout_of_not_le hfits] at h
    dsimp only at h
    split at h
    · exact (List.mem_append.1 h).imp_right fun hmem => Or.inl (hpad hmem)
    · split at h
      · simp only [NumberText.body, List.mem_append] at h ⊢
        rcases h with h | h | h | h
        · exact Or.inl (Or.inl h)
        · exact Or.inl (Or.inr (Or.inl h))
        · exact Or.inr (Or.inr (hpad h))
        · exact Or.inl (Or.inr (Or.inr h))
      · exact (List.mem_append.1 h).symm.imp_right fun hmem => Or.inl (hpad hmem)

/-- No letter 'd' belongs to a decimal number. -/
theorem not_mem_layout_d {conv : Conv} (hsigned : conv.isSigned = true) (alternate : Bool)
    (halternate : alternate → conv.isHex) (v : UInt64) (width : Nat) (flags : Flags) :
    ch 'd' ∉ (conv.numberText alternate v).layout width flags := by
  have hradix : conv.radix = 10 := by rw [Conv.radix, Conv.not_hex_of_signed hsigned]; rfl
  have halt : ¬alternate = true := fun h => by
    have := halternate h
    rw [Conv.not_hex_of_signed hsigned] at this
    cases this
  have hdigit : ∀ (upper : Bool) (t : Fin 10), digitText upper t ≠ ch 'd' := by decide
  intro hmem
  rcases NumberText.mem_layout hmem with hbody | hspace | hzero
  · simp only [NumberText.body, Conv.numberText, if_neg halt, List.nil_append,
      List.mem_append] at hbody
    rcases hbody with hsign | hdigits
    · split at hsign
      · exact absurd (List.mem_singleton.1 hsign) (by decide)
      · exact List.not_mem_nil hsign
    · obtain ⟨t, ht, heq⟩ := mem_numeral conv.one_lt_radix hdigits
      exact hdigit conv.isUpper ⟨t, hradix ▸ ht⟩ heq
  · exact absurd hspace (by decide)
  · exact absurd hzero (by decide)

/-- The first argument of a format is read from the first slot. -/
theorem Conv.before_start (conv : Conv) : (conv.before .start).ap = 0 := by
  rw [Conv.before]
  split
  · rw [VaList.align_of_aligned _ rfl]
    rfl
  · rfl

/-- `sprintf` of one conversion prints its call and what is echoed behind it. -/
theorem sprintf_conversion (args : Args) (spec : ConvSpec) (buf : Nat → UInt8) :
    ∃ o count, sprintf args (formatOf [.conversion spec]) buf = some (o, count) ∧
      o.bytes o.pos =
        (spec.conv.render args (args.slots 0)).text spec.width spec.flags ++ spec.conv.echo := by
  obtain ⟨st, hst, hholds, -, -⟩ := print_holds args [.conversion spec] buf none
  refine ⟨st.out, st.pc, ?_, ?_⟩
  · rw [sprintf, hst]
    rfl
  · rw [hholds.bytes, hholds.pos, stored_none, List.take_length, printedText]
    simp only [convs, fetched, itemsText, spec.conv.before_start, List.append_nil]

/-- The echo of "ld" and "lld" is no part of a layout. -/
theorem append_echo_ne_layout (spec : ConvSpec) (halternate : spec.alternate → spec.conv.isHex)
    (v : UInt64) (width : Nat) (hecho : spec.conv.echo ≠ []) (text : List UInt8) :
    text ++ spec.conv.echo ≠
      (spec.conv.numberText spec.alternate v).layout width spec.flags := by
  have hsigned : spec.conv.isSigned = true := by
    revert hecho
    cases spec.conv <;> decide
  have hd : ch 'd' ∈ spec.conv.echo := by
    revert hecho
    cases spec.conv <;> decide
  intro heq
  apply not_mem_layout_d hsigned spec.alternate halternate v width spec.flags
  rw [← heq]
  exact List.mem_append_right _ hd

/-- The sign and the digits of a number read back as its value, also behind zeros. -/
theorem numberText_reads (conv : Conv) (alternate : Bool) (v : UInt64) (k : Nat) :
    (if (conv.numberText alternate v).sign = [] then 1 else -1) *
      (read digitValue conv.radix
        (List.replicate k (ch '0') ++ (conv.numberText alternate v).digits) : Int) =
      conv.value v := by
  have hradix : conv.radix ≤ 16 := by
    cases conv <;> decide
  have hread := read_replicate_numeral conv.one_lt_radix
    (digitValue_digitText conv.isUpper hradix) k (conv.value v).natAbs
  have hzero : digitText conv.isUpper 0 = ch '0' := rfl
  rw [hzero] at hread
  simp only [Conv.numberText, hread]
  by_cases hneg : conv.value v < 0
  · simp only [hneg, if_true, List.cons_ne_nil, if_false]
    omega
  · simp only [hneg, if_false, if_true]
    omega

/-- Flags and width leave the number as it is exactly in the cases of `LaidOut`, as far as the
call of `printi` goes; the output of "ld" and "lld" has a 'd' behind it. The layout is as
long as it should be, and its digits read back give the argument. -/
theorem layout_iff (args : Args) (spec : ConvSpec) (buf : Nat → UInt8)
    (hint : spec.conv.isInteger) (halternate : spec.alternate → spec.conv.isHex) :
    let v := args.slots 0
    let n := spec.conv.numberText spec.alternate v
    let width := decimal 0 spec.digits
    (∃ o count, sprintf args (formatOf [.conversion spec]) buf = some (o, count) ∧
      (o.bytes o.pos = n.layout width spec.flags ↔
        LaidOut spec v ∧ spec.conv ≠ .ld ∧ spec.conv ≠ .lld)) ∧
    ((spec.conv.render args v).text spec.width spec.flags = n.layout width spec.flags ↔
      LaidOut spec v) ∧
    (n.layout width spec.flags).length = max width n.body.length ∧
    ∀ k, (if n.sign = [] then 1 else -1) *
      (read digitValue spec.conv.radix (List.replicate k (ch '0') ++ n.digits) : Int) =
        spec.conv.value v := by
  dsimp only
  have hcall := call_laidOut_iff args spec (args.slots 0) hint halternate
  refine ⟨?_, hcall, NumberText.layout_length _ _ _, ?_⟩
  · obtain ⟨o, count, hrun, htext⟩ := sprintf_conversion args spec buf
    refine ⟨o, count, hrun, ?_⟩
    rw [htext, ← echo_eq_nil_iff]
    by_cases hecho : spec.conv.echo = []
    · rw [hecho, List.append_nil, hcall]
      exact (and_iff_left rfl).symm
    · refine iff_of_false ?_ fun h => hecho h.2
      exact append_echo_ne_layout spec halternate _ _ hecho _
  · exact numberText_reads spec.conv spec.alternate (args.slots 0)

theorem zeroPadded_head : (decimalDigits [6]).head? ≠ some 0 := by decide

/-- "%06d". -/
def zeroPadded : ConvSpec := ⟨false, false, 1, decimalDigits [6], .d, zeroPadded_head⟩

theorem layout_iff_sample :
    (zeroPadded.conv.render oneArg (oneArg.slots 0)).text zeroPadded.width zeroPadded.flags =
      chars "000042" := by
  have hlaid : LaidOut zeroPadded (oneArg.slots 0) :=
    Or.inr (Or.inl ⟨by decide, fun _ => ⟨by decide, by decide⟩⟩)
  obtain ⟨-, hcall, -⟩ := layout_iff oneArg zeroPadded (fun _ => 0) rfl nofun
  rw [hcall.2 hlaid]
  decide +kernel

/-- "%-05d" pads with zeros behind the number, and "%#06x" in front of the prefix. -/
theorem zeros_misplaced :
    (sprintf oneArg (formatOf [.conversion ⟨true, false, 1, [5], .d, by decide⟩]) fun _ => 0).map
        (fun r => r.1.bytes r.1.pos) = some (chars "42000") ∧
      (Conv.numberText .d false 42).layout 5 ⟨true, true, false⟩ = chars "42   " ∧
      (sprintf oneArg (formatOf [.conversion ⟨false, true, 1, [6], .x, by decide⟩])
        fun _ => 0).map (fun r => r.1.bytes r.1.pos) = some (chars "000x2a") ∧
      (Conv.numberText .x true 42).layout 6 ⟨false, true, true⟩ = chars "0x002a" := by
  decide +kernel

end ZStage.Console
