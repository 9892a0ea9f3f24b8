import ZStage.Console.Layout
import ZStage.Lib.CString
import ZStage.Lib.Trace

/-!
`printi` up to the padding, with its buffer. The digits, the prefix and the sign are
stored from the end of `print_buf` downwards, and each store is an event, under its
distance from the start of the buffer. A computation that only puts characters in front
of the string in the buffer has a text of its own (`Prepends`), and these texts are put
together as the computations are.
-/

namespace ZStage.Console

open ZStage.Lib.CString ZStage.Lib.Lexicographic ZStage.Lib.Numeral ZStage.Lib.Trace

/-! ## The buffer -/

def PRINT_BUF_LEN : Int := 64

/-- `print_buf` and `s`, as distances from the start of the buffer. -/
structure PrintBuf where
  mem : Int → UInt8
  s : Int

def PrintBuf.string (p : PrintBuf) : Bytes := fun k => p.mem (p.s + k)

/-- `*--s = c;`. -/
def push (c : UInt8) (p : PrintBuf) : Traced Int PrintBuf :=
  emit (p.s - 1) { mem := Function.update p.mem (p.s - 1) c, s := p.s - 1 }

/-- `s = print_buf + PRINT_BUF_LEN - 1; *s = '\0';`. -/
def pushNul (mem : Int → UInt8) : Traced Int PrintBuf :=
  emit (PRINT_BUF_LEN - 1)
    { mem := Function.update mem (PRINT_BUF_LEN - 1) 0, s := PRINT_BUF_LEN - 1 }

/-- `while (u) { .. }`. -/
def pushDigits (b : Base) (letbase : LetBase) (u : UInt64) (p : PrintBuf) :
    Traced Int PrintBuf :=
  if _ : u = 0 then pure p
  else do
    let p ← push (digitChar letbase (u % b.value)) p
    pushDigits b letbase (u / b.value) p
termination_by u.toNat
decreasing_by exact b.div_lt (by assumption)

/-- `if (!u) { .. } else { .. }`. -/
def pushNumber (b : Base) (letbase : LetBase) (u : UInt64) (p : PrintBuf) :
    Traced Int PrintBuf :=
  if u = 0 then push (ch '0') p else pushDigits b letbase u p

/-- The branch of the flag '#'. -/
def pushPrefix (b : Base) (letbase : LetBase) (p : PrintBuf) : Traced Int PrintBuf := do
  let p ←
    (if b = .hex ∧ letbase = .upper then push (ch 'X') p
    else if b = .hex ∧ letbase = .lower then push (ch 'x') p
    else pure p)
  push (ch '0') p

structure Converted where
  neg : Bool
  buf : PrintBuf

/-- `printi` up to the padding; `mem` is what the stack held. -/
def conversion (mem : Int → UInt8) (i : UInt64) (b : Base) (sg : Bool) (width : Int)
    (flags : Flags) (letbase : LetBase) : Traced Int Converted := do
  let neg := sg ∧ b = .dec ∧ i.toInt64 < 0
  let p ← pushNul mem
  let p ← pushNumber b letbase (if neg then -i else i) p
  let p ← (if flags.alternate then pushPrefix b letbase p else pure p)
  -- with a width and the flag '0' the sign is not stored, but printed here
  let p ← (if neg ∧ ¬(width ≠ 0 ∧ flags.zero) then push (ch '-') p else pure p)
  pure ⟨neg, p⟩

/-! ## Texts in the buffer -/

/-- A computation puts the text `front` in front of the string, and stores only there. -/
structure Prepends (f : PrintBuf → Traced Int PrintBuf) (front : List UInt8) : Prop where
  moves : ∀ p, (f p).value.s = p.s - front.length
  stores : ∀ p, (f p).Safe fun k => p.s - front.length ≤ k ∧ k < p.s
  bytes : ∀ p n, initial (f p).value.string (front.length + n) = front ++ initial p.string n

theorem prepends_push (c : UInt8) : Prepends (push c) [c] where
  moves _ := rfl
  stores p := by
    simp [push]
  bytes p n := by
    have hhead : (push c p).value.string 0 = c := by
      simp [PrintBuf.string, push]
    have htail : (fun k : Nat => (push c p).value.string (k + 1)) = p.string := by
      funext k
      have hplace : p.s - 1 + ((k + 1 : Nat) : Int) = p.s + k := by omega
      simp only [PrintBuf.string, push, value_emit, hplace]
      exact Function.update_of_ne (by omega) _ _
    rw [List.length_singleton, Nat.add_comm, initial_succ, hhead, htail, List.singleton_append]

theorem prepends_pure : Prepends pure [] where
  moves p := by simp
  stores _ := safe_pure _
  bytes p n := by simp

theorem Prepends.bind {f g : PrintBuf → Traced Int PrintBuf} {front front' : List UInt8}
    (hf : Prepends f front) (hg : Prepends g front') :
    Prepends (fun p => f p >>= g) (front' ++ front) where
  moves p := by
    rw [value_bind, hg.moves, hf.moves, List.length_append]
    omega
  stores p := by
    rw [safe_bind, List.length_append]
    refine ⟨?_, ?_⟩
    · intro k hk
      have := hf.stores p k hk
      omega
    · intro k hk
      have := hg.stores (f p).value k hk
      rw [hf.moves] at this
      omega
  bytes p n := by
    rw [value_bind, List.length_append, Nat.add_assoc, hg.bytes, hf.bytes, List.append_assoc]

theorem Prepends.when {f : PrintBuf → Traced Int PrintBuf} {front : List UInt8}
    (hf : Prepends f front) (c : Prop) [Decidable c] :
    Prepends (fun p => if c then f p else pure p) (if c then front else []) := by
  by_cases hc : c
  · simpa only [if_pos hc] using hf
  · simpa only [if_neg hc] using prepends_pure

theorem digitLoop_append (b : Base) (letbase : LetBase) (u : UInt64) (s t : List UInt8) :
    digitLoop b letbase u (s ++ t) = digitLoop b letbase u s ++ t := by
  induction u, s using digitLoop.induct b letbase with
  | case1 s => rw [digitLoop, dif_pos rfl, digitLoop, dif_pos rfl]
  | case2 u s hu ih =>
    rw [digitLoop, dif_neg hu, ← List.cons_append, ih]
    conv_rhs => rw [digitLoop, dif_neg hu]

theorem prepends_pushDigits (b : Base) (letbase : LetBase) (u : UInt64) :
    Prepends (pushDigits b letbase u) (digitLoop b letbase u []) := by
  by_cases hu : u = 0
  · have hloop : pushDigits b letbase u = pure := by
      funext p
      rw [pushDigits, dif_pos hu]
    rw [hloop, digitLoop, dif_pos hu]
    exact prepends_pure
  · have hloop : pushDigits b letbase u = fun p =>
        push (digitChar letbase (u % b.value)) p >>= pushDigits b letbase (u / b.value) := by
      funext p
      rw [pushDigits, dif_neg hu]
    have hrest := prepends_pushDigits b letbase (u / b.value)
    rw [hloop, digitLoop, dif_neg hu, ← List.nil_append [_], digitLoop_append]
    exact (prepends_push _).bind hrest
termination_by u.toNat
decreasing_by exact b.div_lt hu

def digitsText (b : Base) (letbase : LetBase) (u : UInt64) : List UInt8 :=
  if u = 0 then [ch '0'] else digitLoop b letbase u []

theorem prepends_pushNumber (b : Base) (letbase : LetBase) (u : UInt64) :
    Prepends (pushNumber b letbase u) (digitsText b letbase u) := by
  by_cases hu : u = 0
  · have hzero : pushNumber b letbase u = push (ch '0') := by
      funext p
      rw [pushNumber, if_pos hu]
    rw [hzero, digitsText, if_pos hu]
    exact prepends_push _
  · have hloop : pushNumber b letbase u = pushDigits b letbase u := by
      funext p
      rw [pushNumber, if_neg hu]
    rw [hloop, digitsText, if_neg hu]
    exact prepends_pushDigits b letbase u

/-- "0X" or "0x" in base 16, "0" otherwise. -/
def prefixText (b : Base) (letbase : LetBase) : List UInt8 :=
  ch '0' ::
    if b = .hex ∧ letbase = .upper then [ch 'X']
    else if b = .hex ∧ letbase = .lower then [ch 'x']
    else []

theorem prepends_pushPrefix (b : Base) (letbase : LetBase) :
    Prepends (pushPrefix b letbase) (prefixText b letbase) := by
  have hletter : Prepends
      (fun p => if b = .hex ∧ letbase = .upper then push (ch 'X') p
        else if b = .hex ∧ letbase = .lower then push (ch 'x') p
        else pure p)
      (if b = .hex ∧ letbase = .upper then [ch 'X']
        else if b = .hex ∧ letbase = .lower then [ch 'x']
        else []) := by
    by_cases hupper : b = .hex ∧ letbase = .upper
    · simpa only [if_pos hupper] using prepends_push (ch 'X')
    · simpa only [if_neg hupper] using (prepends_push (ch 'x')).when _
  exact hletter.bind (prepends_push (ch '0'))

theorem unsignedDigits_parts (u : UInt64) (b : Base) (flags : Flags) (letbase : LetBase) :
    unsignedDigits u b flags letbase =
      (if flags.alternate then prefixText b letbase else []) ++ digitsText b letbase u := by
  show (if flags.alternate then
      ch '0' ::
        if b = .hex ∧ letbase = .upper then ch 'X' :: digitsText b letbase u
        else if b = .hex ∧ letbase = .lower then ch 'x' :: digitsText b letbase u
        else digitsText b letbase u
    else digitsText b letbase u) = _
  split
  · rw [prefixText, List.cons_append]
    split_ifs <;> rfl
  · rfl

section Conversion

variable (mem : Int → UInt8) (i : UInt64) (b : Base) (sg : Bool) (width : Int) (flags : Flags)
  (letbase : LetBase)

/-- What the conversion leaves in the buffer. -/
def convertedText : List UInt8 :=
  let neg := sg ∧ b = .dec ∧ i.toInt64 < 0
  (if neg ∧ ¬(width ≠ 0 ∧ flags.zero) then [ch '-'] else []) ++
      (if flags.alternate then prefixText b letbase else []) ++
    digitsText b letbase (if neg then -i else i)

theorem conversion_body :
    ∃ body, Prepends body (convertedText i b sg width flags letbase) ∧
      (conversion mem i b sg width flags letbase).value.buf =
        (body (pushNul mem).value).value ∧
      (conversion mem i b sg width flags letbase).trace =
        (pushNul mem).trace ++ (body (pushNul mem).value).trace := by
  let neg := sg ∧ b = .dec ∧ i.toInt64 < 0
  refine ⟨_, (prepends_pushNumber b letbase (if neg then -i else i)).bind
    (((prepends_pushPrefix b letbase).when flags.alternate).bind
      ((prepends_push (ch '-')).when (neg ∧ ¬(width ≠ 0 ∧ flags.zero)))), rfl, ?_⟩
  simp only [conversion, trace_bind, trace_pure, List.append_nil]
  rfl

/-- The conversion leaves its text and the zero at the end of the buffer, and stores nothing in
front of them. -/
theorem conversion_spec :
    let r := conversion mem i b sg width flags letbase
    let text := convertedText i b sg width flags letbase
    r.value.buf.s = PRINT_BUF_LEN - 1 - text.length ∧
      initial r.value.buf.string (text.length + 1) = text ++ [0] ∧
      r.Safe fun k => PRINT_BUF_LEN - 1 - text.length ≤ k ∧ k < PRINT_BUF_LEN := by
  intro r text
  obtain ⟨body, hbody, hvalue, htrace⟩ := conversion_body mem i b sg width flags letbase
  have hnul : initial (pushNul mem).value.string 1 = [0] := by
    simp [initial, PrintBuf.string, pushNul]
  refine ⟨?_, ?_, ?_⟩
  · rw [hvalue]
    exact hbody.moves (pushNul mem).value
  · rw [hvalue, ← hnul]
    exact hbody.bytes (pushNul mem).value 1
  · intro k hk
    rw [htrace, List.mem_append] at hk
    rcases hk with hnul | hpart
    · obtain rfl : k = PRINT_BUF_LEN - 1 := List.mem_singleton.1 hnul
      omega
    · have hstore : PRINT_BUF_LEN - 1 - text.length ≤ k ∧ k < PRINT_BUF_LEN - 1 :=
        hbody.stores (pushNul mem).value k hpart
      omega

theorem convertedText_no_nul : 0 ∉ convertedText i b sg width flags letbase := by
  have hminus : (0 : UInt8) ≠ ch '-' := by decide
  rw [convertedText, List.append_assoc, ← unsignedDigits_parts]
  refine List.not_mem_append ?_ (unsignedDigits_no_nul _ b flags letbase)
  split
  · exact fun hmem => hminus (List.mem_singleton.1 hmem)
  · exact List.not_mem_nil

/-- The characters from `s` to the zero. -/
def PrintBuf.text (p : PrintBuf) : List UInt8 :=
  initial p.string (PRINT_BUF_LEN - 1 - p.s).toNat

theorem conversion_text :
    (conversion mem i b sg width flags letbase).value.buf.text =
      convertedText i b sg width flags letbase := by
  obtain ⟨hplace, hbytes, -⟩ := conversion_spec mem i b sg width flags letbase
  have hlength : (PRINT_BUF_LEN - 1 -
      (conversion mem i b sg width flags letbase).value.buf.s).toNat =
      (convertedText i b sg width flags letbase).length := by
    omega
  rw [PrintBuf.text, hlength]
  exact initial_of_append hbytes

/-- `printi` is the conversion, the sign that goes in front of the zeros, and `prints`. -/
theorem printi_conversion {σ : Type} (put : σ → UInt8 → σ) (o : σ) :
    printi put o i b sg width flags letbase =
      let r := (conversion mem i b sg width flags letbase).value
      if r.neg ∧ width ≠ 0 ∧ flags.zero then
        let q := prints put (put o (ch '-')) r.buf.text (int (width - 1)) flags
        (q.1, int (1 + q.2))
      else prints put o r.buf.text width flags := by
  have hneg : (conversion mem i b sg width flags letbase).value.neg =
      decide (sg ∧ b = .dec ∧ i.toInt64 < 0) := rfl
  simp only [conversion_text, hneg, decide_eq_true_eq, printi, convertedText, List.append_assoc,
    ← unsignedDigits_parts]
  by_cases hsign : sg ∧ b = .dec ∧ i.toInt64 < 0
  · by_cases hzeros : width ≠ 0 ∧ flags.zero
    · simp only [hsign, hzeros.1, hzeros.2, and_self, and_false, if_true, not_true_eq_false,
        if_false, ne_eq, not_false_eq_true, List.nil_append]
    · simp only [hsign, hzeros, and_self, if_true, not_false_eq_true, and_false, if_false,
        List.singleton_append]
  · simp only [hsign, false_and, if_false, List.nil_append]

end Conversion

/-! ## What `print` asks for -/

/-- A base, a signedness and a `letbase` that `print` passes to `printi`. -/
def Passes (b : Base) (sg : Bool) (letbase : LetBase) : Prop :=
  ∃ (args : Args) (fmt : List UInt8) (va : VaList) (i : UInt64),
    (directive args fmt va).call = some (.integer i b sg letbase)

/-- A conversion of 64 bits with the base, the signedness and the `letbase`. -/
def Widest (b : Base) (sg : Bool) (letbase : LetBase) : Prop :=
  ∃ conv : Conv, (∀ i, conv.word i = i) ∧ conv.base = b ∧ conv.isSigned = sg ∧
    conv.letbase = letbase

theorem letterCall_widest {args : Args} {slot i : UInt64} {c : UInt8} {b : Base} {sg : Bool}
    {letbase : LetBase} {words : Nat}
    (h : letterCall args slot c = some (.integer i b sg letbase, words)) :
    Widest b sg letbase := by
  rw [letterCall] at h
  repeat' split at h
  all_goals cases h
  · exact ⟨.lld, fun _ => rfl, rfl, rfl, rfl⟩
  · exact ⟨.llx, fun _ => rfl, rfl, rfl, rfl⟩
  · exact ⟨.llX, fun _ => rfl, rfl, rfl, rfl⟩
  · exact ⟨.llu, fun _ => rfl, rfl, rfl, rfl⟩
  · exact ⟨.llx, fun _ => rfl, rfl, rfl, rfl⟩
  · exact ⟨.llX, fun _ => rfl, rfl, rfl, rfl⟩

theorem longCall_widest {v i : UInt64} {letter : Option UInt8} {b : Base} {sg : Bool}
    {letbase : LetBase} (h : longCall v letter = some (.integer i b sg letbase)) :
    Widest b sg letbase := by
  rw [longCall] at h
  repeat' split at h
  all_goals cases h
  · exact ⟨.llu, fun _ => rfl, rfl, rfl, rfl⟩
  · exact ⟨.llx, fun _ => rfl, rfl, rfl, rfl⟩
  · exact ⟨.llX, fun _ => rfl, rfl, rfl, rfl⟩

theorem Passes.widest {b : Base} {sg : Bool} {letbase : LetBase} (h : Passes b sg letbase) :
    Widest b sg letbase := by
  obtain ⟨args, fmt, va, i, hcall⟩ := h
  have hsigned : Widest .dec true .zero := ⟨.lld, fun _ => rfl, rfl, rfl, rfl⟩
  cases fmt with
  | nil => cases hcall
  | cons c rest =>
    simp only [directive] at hcall
    split at hcall
    · next hletter =>
      cases hcall
      exact letterCall_widest hletter
    · by_cases hll : c = ch 'l' ∧ rest.head? = some (ch 'l')
      · rw [if_pos hll] at hcall
        split at hcall
        · next hlong =>
          cases hcall
          exact longCall_widest hlong
        · cases hcall
          exact hsigned
      · rw [if_neg hll] at hcall
        by_cases hl : c = ch 'l'
        · rw [if_pos hl] at hcall
          cases hlong : longCall (args.slots va.ap) rest.head? with
          | some call =>
            rw [hlong] at hcall
            cases hcall
            exact longCall_widest hlong
          | none =>
            rw [hlong] at hcall
            cases hcall
            exact hsigned
        · rw [if_neg hl] at hcall
          cases hcall

/-! ## Reading back -/

/-- The number that a word stands for. -/
def wordValue (sg : Bool) (i : UInt64) : Int := if sg then i.toInt64.toInt else i.toNat

/-- There is no zero in front of another digit. -/
def NoLeadingZero (digits : List UInt8) : Prop :=
  digits.head? = some (ch '0') → digits = [ch '0']

instance (digits : List UInt8) : Decidable (NoLeadingZero digits) :=
  inferInstanceAs (Decidable (_ → _))

theorem digitText_eq_zero (upper : Bool) {t : Nat} (ht : t < 16)
    (h : digitText upper t = digitText upper 0) : t = 0 := by
  have hvalue := digitValue_digitText upper (le_refl 16)
  rw [← hvalue t ht, h, hvalue 0 (by decide)]

theorem digitsText_eq (conv : Conv) (u : UInt64) :
    digitsText conv.base conv.letbase u =
      numeral (digitText conv.isUpper) conv.radix u.toNat := by
  have hflag : (⟨false, false, false⟩ : Flags).alternate → conv.isHex := by simp
  have hplain := unsignedDigits_eq ⟨false, false, false⟩ hflag u
  simpa only [unsignedDigits, digitsText, Bool.false_eq_true, if_false, List.nil_append] using
    hplain

theorem digitsText_length_le (conv : Conv) (u : UInt64) :
    (digitsText conv.base conv.letbase u).length ≤ 20 := by
  have hradix : 10 ≤ conv.radix := by
    cases conv <;> decide
  rw [digitsText_eq]
  apply numeral_length_le conv.one_lt_radix (by decide)
  calc u.toNat < 2 ^ 64 := u.toNat_lt
    _ ≤ 10 ^ 20 := by decide
    _ ≤ conv.radix ^ 20 := Nat.pow_le_pow_left hradix 20

/-- A sign, a prefix and the digits of a word fit into the buffer. -/
theorem convertedText_length_le (i : UInt64) (conv : Conv) (width : Int) (flags : Flags) :
    (convertedText i conv.base conv.isSigned width flags conv.letbase).length ≤ 23 := by
  have hdigits := digitsText_length_le conv
    (if conv.isSigned ∧ conv.base = .dec ∧ i.toInt64 < 0 then -i else i)
  have hprefix :
      (if flags.alternate then prefixText conv.base conv.letbase else []).length ≤ 2 := by
    split
    · cases conv <;> decide
    · exact Nat.zero_le 2
  have hsign (c : Prop) [Decidable c] : (if c then [ch '-'] else []).length ≤ 1 := by
    split <;> decide
  have hstored := hsign ((conv.isSigned ∧ conv.base = .dec ∧ i.toInt64 < 0) ∧
    ¬(width ≠ 0 ∧ flags.zero))
  simp only [convertedText, List.length_append]
  omega

theorem digits_of_word {conv : Conv} (hword : ∀ i, conv.word i = i) (i : UInt64) :
    digitsText conv.base conv.letbase
        (if conv.isSigned ∧ conv.base = .dec ∧ i.toInt64 < 0 then -i else i) =
        numeral (digitText conv.isUpper) conv.radix (wordValue conv.isSigned i).natAbs ∧
      (conv.isSigned ∧ conv.base = .dec ∧ i.toInt64 < 0 ↔ wordValue conv.isSigned i < 0) := by
  have hvalue : conv.value i = wordValue conv.isSigned i := by
    rw [Conv.value, hword, wordValue]
  have hmagnitude := conv.magnitude i
  have hneg := conv.value_neg_iff i
  rw [hvalue, hword] at hmagnitude hneg
  refine ⟨?_, hneg⟩
  simp only [hneg]
  rw [digitsText_eq, hmagnitude]

theorem radix_le (conv : Conv) : conv.radix ≤ 16 := by
  cases conv <;> decide

/-- A numeral is made of digits of its base and has no zeros in front. -/
theorem numeral_wellFormed (conv : Conv) (n : Nat) :
    let digits := numeral (digitText conv.isUpper) conv.radix n
    digits ≠ [] ∧ NoLeadingZero digits ∧
      ∀ c ∈ digits, ∃ t < conv.base.value.toNat, digitText (conv.letbase = .upper) t = c := by
  intro digits
  have hupper : decide (conv.letbase = .upper) = conv.isUpper := by
    cases conv <;> rfl
  refine ⟨?_, ?_, ?_⟩
  · exact numeral_ne_nil
  · intro hhead
    exact numeral_head conv.one_lt_radix
      (fun t ht => digitText_eq_zero conv.isUpper (Nat.lt_of_lt_of_le ht (radix_le conv))) hhead
  · intro c hc
    obtain ⟨t, ht, hdigit⟩ := mem_numeral conv.one_lt_radix hc
    rw [hupper, conv.base_value]
    exact ⟨t, ht, hdigit⟩

/-- The conversion stays in the buffer and leaves a string there: the sign, unless that is
printed apart, the prefix of the flag '#', and digits of the base without leading zeros that
with the sign give the argument. -/
theorem conversion_reads_back {b : Base} {sg : Bool} {letbase : LetBase}
    (h : Passes b sg letbase) (mem : Int → UInt8) (i : UInt64) (width : Int) (flags : Flags) :
    let r := conversion mem i b sg width flags letbase
    (r.Safe fun k => 0 ≤ k ∧ k < PRINT_BUF_LEN) ∧
      ∃ digits : List UInt8,
        let sign := if r.value.neg ∧ ¬(width ≠ 0 ∧ flags.zero) then [ch '-'] else []
        let text := sign ++ (if flags.alternate then prefixText b letbase else []) ++ digits
        Terminated r.value.buf.string text.length ∧
          initial r.value.buf.string text.length = text ∧
          (digits ≠ [] ∧ NoLeadingZero digits ∧
            ∀ c ∈ digits, ∃ t < b.value.toNat, digitText (letbase = .upper) t = c) ∧
          (if r.value.neg then -(read digitValue b.value.toNat digits : Int)
            else read digitValue b.value.toNat digits) = wordValue sg i := by
  obtain ⟨conv, hword, rfl, rfl, rfl⟩ := h.widest
  intro r
  obtain ⟨-, hbytes, hstores⟩ :=
    conversion_spec mem i conv.base conv.isSigned width flags conv.letbase
  have hnul := convertedText_no_nul i conv.base conv.isSigned width flags conv.letbase
  obtain ⟨hnumber, hneg⟩ := digits_of_word hword i
  have hsign : r.value.neg = decide (conv.isSigned ∧ conv.base = .dec ∧ i.toInt64 < 0) := rfl
  simp only [hsign, decide_eq_true_eq]
  refine ⟨?_, digitsText conv.base conv.letbase
    (if conv.isSigned ∧ conv.base = .dec ∧ i.toInt64 < 0 then -i else i), ?_, ?_, ?_, ?_⟩
  · intro k hk
    have hlength := convertedText_length_le i conv width flags
    have hstore : PRINT_BUF_LEN - 1 - _ ≤ k ∧ k < PRINT_BUF_LEN := hstores k hk
    have : PRINT_BUF_LEN = 64 := rfl
    omega
  · exact terminated_of_initial hbytes hnul
  · exact initial_of_append hbytes
  · rw [hnumber]
    exact numeral_wellFormed conv _
  · have hread := read_replicate_numeral conv.one_lt_radix
      (digitValue_digitText conv.isUpper (radix_le conv)) 0 (wordValue conv.isSigned i).natAbs
    rw [List.replicate_zero, List.nil_append] at hread
    rw [hnumber, conv.base_value, hread]
    simp only [hneg]
    split
    · omega
    · omega

/-- Arguments that are all 5. -/
def fives : Args := { oneArg with slots := fun _ => 5 }

theorem passes_signed : Passes .dec true .zero := ⟨fives, chars "d", .start, 5, by decide⟩

/-- The most negative number, over a buffer that was full of ones. -/
theorem most_negative_reads_back :
    let r := conversion (fun _ => 1) 9223372036854775808 .dec true 0 ⟨false, false, false⟩ .zero
    (r.Safe fun k => 0 ≤ k ∧ k < PRINT_BUF_LEN) ∧
      ∃ digits : List UInt8, Terminated r.value.buf.string (digits.length + 1) ∧
        initial r.value.buf.string (digits.length + 1) = ch '-' :: digits ∧
        read digitValue 10 digits = 9223372036854775808 := by
  intro r
  obtain ⟨hstores, digits, hstring, hbytes, -, hread⟩ :=
    conversion_reads_back passes_signed (fun _ => 1) 9223372036854775808 0 ⟨false, false, false⟩
  have hneg : r.value.neg = true := by decide
  have hvalue : wordValue true 9223372036854775808 = -9223372036854775808 := by decide
  rw [if_pos hneg, hvalue] at hread
  refine ⟨hstores, digits, hstring, hbytes, ?_⟩
  have : read digitValue 10 digits = read digitValue Base.dec.value.toNat digits := rfl
  omega

/-- `printf("%#d", 5)`: the prefix is a zero in front of the digit. -/
theorem leading_zero_stored :
    let spec := scanSpec (chars "#d")
    let r := conversion (fun _ => 0) 5 .dec true spec.width spec.flags .zero
    (directive fives spec.fmt .start).call = some (.integer 5 .dec true .zero) ∧
      Terminated r.value.buf.string 2 ∧ ¬NoLeadingZero (initial r.value.buf.string 2) := by
  intro spec r
  have hdigits : digitsText .dec .zero 5 = [ch '5'] := by
    rw [show Base.dec = Conv.lld.base from rfl, show LetBase.zero = Conv.lld.letbase from rfl,
      digitsText_eq]
    decide
  have htext : convertedText 5 .dec true spec.width spec.flags .zero = [ch '0', ch '5'] := by
    have hneg : ¬(true = true ∧ Base.dec = .dec ∧ (5 : UInt64).toInt64 < 0) := by decide
    have hflag : spec.flags.alternate = true := by decide
    rw [convertedText, if_neg fun h => hneg h.1, if_pos hflag, if_neg hneg, hdigits]
    rfl
  obtain ⟨-, hbytes, -⟩ :=
    conversion_spec (fun _ => 0) 5 .dec true spec.width spec.flags .zero
  rw [htext] at hbytes
  have hstring : initial r.value.buf.string 2 = [ch '0', ch '5'] := initial_of_append hbytes
  refine ⟨by decide, terminated_of_initial hbytes (by decide), ?_⟩
  rw [hstring]
  decide

end ZStage.Console
