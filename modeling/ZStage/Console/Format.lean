import ZStage.Console.Printf

/-!
The format language: literal characters, "%%" and conversion specifications with flags
and a width. `printLoop_items` says what a run on a format of the language prints and
which arguments it reads. A conversion is scanned as written, except that the pointer is
left before the last letter of "ld" and "lld", which is printed (`Conv.echo`), and that
"ll" conversions drop an argument where `acnt` is not a multiple of 8.
-/

namespace ZStage.Console

/-! ## The language -/

inductive Conv
  | d | i | u | x | X | p | P | c | s
  | ld | lu | lx | lX
  | lld | llu | llx | llX
  deriving DecidableEq, Repr

def Conv.chars : Conv → List UInt8
  | .d => [ch 'd']
  | .i => [ch 'i']
  | .u => [ch 'u']
  | .x => [ch 'x']
  | .X => [ch 'X']
  | .p => [ch 'p']
  | .P => [ch 'P']
  | .c => [ch 'c']
  | .s => [ch 's']
  | .ld => [ch 'l', ch 'd']
  | .lu => [ch 'l', ch 'u']
  | .lx => [ch 'l', ch 'x']
  | .lX => [ch 'l', ch 'X']
  | .lld => [ch 'l', ch 'l', ch 'd']
  | .llu => [ch 'l', ch 'l', ch 'u']
  | .llx => [ch 'l', ch 'l', ch 'x']
  | .llX => [ch 'l', ch 'l', ch 'X']

/-- A conversion specification. A zero before the width is a flag. -/
structure ConvSpec where
  minus : Bool
  alternate : Bool
  zeros : Nat
  digits : List (Fin 10)
  conv : Conv
  digits_head : digits.head? ≠ some 0
  deriving DecidableEq, Repr

/-- The digits with these values. -/
def decimalDigits (values : List Nat) : List (Fin 10) := values.map (Fin.ofNat 10)

theorem no_digits_head : ([] : List (Fin 10)).head? ≠ some 0 := nofun

def digitCh (k : Fin 10) : UInt8 := UInt8.ofNat (48 + k)

def ConvSpec.flags (spec : ConvSpec) : Flags := ⟨spec.minus, 0 < spec.zeros, spec.alternate⟩

/-- The number that decimal digits spell behind the number `w`. -/
def decimal (w : Nat) : List (Fin 10) → Nat
  | [] => w
  | k :: digits => decimal (w * 10 + k) digits

def ConvSpec.width (spec : ConvSpec) : Int := int (decimal 0 spec.digits)

/-- What follows the '%'. -/
def ConvSpec.chars (spec : ConvSpec) : List UInt8 :=
  (if spec.minus then [ch '-'] else []) ++ (if spec.alternate then [ch '#'] else []) ++
    List.replicate spec.zeros (ch '0') ++ spec.digits.map digitCh ++ spec.conv.chars

inductive Item
  | literal (c : UInt8) (not_nul : c ≠ 0) (not_percent : c ≠ ch '%')
  | percent
  | conversion (spec : ConvSpec)

def Item.chars : Item → List UInt8
  | .literal c _ _ => [c]
  | .percent => [ch '%', ch '%']
  | .conversion spec => ch '%' :: spec.chars

/-- The conversions of a format, in order. -/
def convs : List Item → List Conv
  | [] => []
  | .conversion spec :: items => spec.conv :: convs items
  | _ :: items => convs items

theorem ConvSpec.not_mem_chars (spec : ConvSpec) {x : UInt8} (hx : x = 0 ∨ x = ch '%') :
    x ∉ spec.chars := by
  have hdigit : ∀ k : Fin 10, digitCh k ≠ 0 ∧ digitCh k ≠ ch '%' := by decide
  have hconv : x ∉ spec.conv.chars := by
    rcases hx with rfl | rfl <;> cases spec.conv <;> decide
  have hother : x ≠ ch '-' ∧ x ≠ ch '#' ∧ x ≠ ch '0' := by
    rcases hx with rfl | rfl <;> decide
  simp only [ConvSpec.chars, List.mem_append, List.mem_replicate, List.mem_map, not_or]
  refine ⟨⟨⟨⟨?_, ?_⟩, fun h => hother.2.2 h.2⟩, ?_⟩, hconv⟩
  · split
    · exact fun h => hother.1 (List.mem_singleton.1 h)
    · exact List.not_mem_nil
  · split
    · exact fun h => hother.2.1 (List.mem_singleton.1 h)
    · exact List.not_mem_nil
  · rintro ⟨k, -, rfl⟩
    exact hx.elim (hdigit k).1 (hdigit k).2

theorem Item.chars_no_nul (item : Item) : 0 ∉ item.chars := by
  cases item with
  | literal c not_nul not_percent => exact fun h => not_nul (List.mem_singleton.1 h).symm
  | percent => decide
  | conversion spec =>
    exact List.not_mem_cons_of_ne_of_not_mem (by decide) (spec.not_mem_chars (.inl rfl))

/-- The format string of a list of items. -/
def formatOf (items : List Item) : CString where
  chars := items.flatMap Item.chars
  no_nul h := by
    obtain ⟨item, -, hmem⟩ := List.mem_flatMap.1 h
    exact item.chars_no_nul hmem

/-! ## Scanning -/

theorem scanFlag_optional (b : Bool) {flag c : UInt8} (h : c ≠ flag) (fmt : List UInt8) :
    scanFlag flag ((if b then [flag] else []) ++ c :: fmt) = (b, c :: fmt) := by
  cases b with
  | true => simp [scanFlag]
  | false => simp [scanFlag, h]

theorem scanZeros_replicate (n : Nat) {c : UInt8} (h : c ≠ ch '0') (fmt : List UInt8)
    (zero : Bool) :
    scanZeros (List.replicate n (ch '0') ++ c :: fmt) zero = (zero || 0 < n, c :: fmt) := by
  induction n generalizing zero with
  | zero => simp [scanZeros, h]
  | succ n ih =>
    rw [List.replicate_succ, List.cons_append, scanZeros, if_pos rfl, ih]
    simp

theorem scanWidth_digits (digits : List (Fin 10)) {c : UInt8} (h : ch '9' < c) (fmt : List UInt8)
    (w : Nat) :
    scanWidth (digits.map digitCh ++ c :: fmt) (int w) =
      (int (decimal w digits), c :: fmt) := by
  have hdigit : ∀ k : Fin 10, ch '0' ≤ digitCh k ∧ digitCh k ≤ ch '9' ∧
      (digitCh k).toNat - (ch '0').toNat = k := by decide
  induction digits generalizing w with
  | nil =>
    have hstop : ¬(ch '0' ≤ c ∧ c ≤ ch '9') := fun hc => absurd h (UInt8.not_lt.2 hc.2)
    rw [List.map_nil, List.nil_append, scanWidth, if_neg hstop, decimal]
  | cons k digits ih =>
    obtain ⟨hlow, hhigh, hvalue⟩ := hdigit k
    have hnext : int (int (int w * 10) + (k : Nat)) = int ((w * 10 + k : Nat) : Int) := by
      rw [int_int_mul, int_int_add]
      push_cast
      rfl
    rw [List.map_cons, List.cons_append, scanWidth, if_pos ⟨hlow, hhigh⟩, hvalue, hnext, ih,
      decimal]

theorem Conv.chars_cons (conv : Conv) : ∃ c t, conv.chars = c :: t ∧ ch '9' < c := by
  cases conv <;> exact ⟨_, _, rfl, by decide⟩

theorem scanSpec_chars (spec : ConvSpec) (rest : List UInt8) :
    scanSpec (spec.chars ++ rest) = ⟨spec.flags, spec.width, spec.conv.chars ++ rest⟩ := by
  have hdigit : ∀ k : Fin 10, k ≠ 0 → ch '0' < digitCh k := by decide
  obtain ⟨c, t, hconv, hletter⟩ := spec.conv.chars_cons
  -- the width begins with a digit that is not zero, or is followed by a letter
  obtain ⟨c₁, t₁, hwidth, hc₁⟩ : ∃ c₁ t₁,
      spec.digits.map digitCh ++ c :: (t ++ rest) = c₁ :: t₁ ∧ ch '0' < c₁ := by
    cases hdigits : spec.digits with
    | nil => exact ⟨c, t ++ rest, rfl, UInt8.lt_trans (by decide) hletter⟩
    | cons k digits =>
      have hk : k ≠ 0 := fun h => spec.digits_head (by rw [hdigits, h]; rfl)
      exact ⟨digitCh k, _, rfl, hdigit k hk⟩
  obtain ⟨c₂, t₂, hzeros, hc₂⟩ : ∃ c₂ t₂,
      List.replicate spec.zeros (ch '0') ++ c₁ :: t₁ = c₂ :: t₂ ∧ ch '0' ≤ c₂ := by
    cases spec.zeros with
    | zero => exact ⟨c₁, t₁, rfl, UInt8.le_of_lt hc₁⟩
    | succ n => exact ⟨ch '0', _, rfl, UInt8.le_refl _⟩
  obtain ⟨c₃, t₃, halternate, hc₃⟩ : ∃ c₃ t₃,
      (if spec.alternate then [ch '#'] else []) ++ c₂ :: t₂ = c₃ :: t₃ ∧ c₃ ≠ ch '-' := by
    cases spec.alternate with
    | true => exact ⟨ch '#', _, rfl, by decide⟩
    | false =>
      refine ⟨c₂, t₂, rfl, ?_⟩
      rintro rfl
      exact absurd hc₂ (by decide)
  have hc₂' : c₂ ≠ ch '#' := by
    rintro rfl
    exact absurd hc₂ (by decide)
  have hfirst : scanFlag (ch '-') (spec.chars ++ rest) = (spec.minus, c₃ :: t₃) := by
    simp only [ConvSpec.chars, List.append_assoc, hconv, List.cons_append, hwidth, hzeros,
      halternate]
    exact scanFlag_optional spec.minus hc₃ t₃
  have hsecond : scanFlag (ch '#') (c₃ :: t₃) = (spec.alternate, c₂ :: t₂) :=
    halternate ▸ scanFlag_optional spec.alternate hc₂' t₂
  have hthird : scanZeros (c₂ :: t₂) false = (false || 0 < spec.zeros, c₁ :: t₁) :=
    hzeros ▸ scanZeros_replicate spec.zeros (UInt8.ne_of_lt hc₁).symm t₁ false
  have hlast : scanWidth (c₁ :: t₁) 0 = (spec.width, c :: (t ++ rest)) :=
    hwidth ▸ scanWidth_digits spec.digits hletter (t ++ rest) 0
  simp only [scanSpec, hfirst, hsecond, hthird, hlast, Bool.false_or, hconv, List.cons_append]
  rfl

/-! ## What a conversion does -/

def Conv.longLong : Conv → Bool
  | .lld | .llu | .llx | .llX => true
  | _ => false

/-- The 4-byte words that a conversion adds to `acnt`; "lu" adds none. -/
def Conv.words : Conv → Nat
  | .d | .i | .u | .x | .X | .c => 1
  | .lu => 0
  | _ => 2

def Conv.before (conv : Conv) (va : VaList) : VaList :=
  if conv.longLong then va.conversion.align else va.conversion

def Conv.after (conv : Conv) (va : VaList) : VaList := (conv.before va).arg.count conv.words

/-- The call that renders the argument `v`. -/
def Conv.render (args : Args) (v : UInt64) : Conv → Render
  | .d | .i => .integer (argInt v) .dec true .zero
  | .u => .integer (argUnsigned v) .dec false .lower
  | .x => .integer (argUnsigned v) .hex false .lower
  | .X => .integer (argUnsigned v) .hex false .upper
  | .p | .lx | .llx => .integer v .hex false .lower
  | .P | .lX | .llX => .integer v .hex false .upper
  | .ld | .lld => .integer v .dec true .zero
  | .lu | .llu => .integer v .dec false .lower
  | .c => .string (if v.toUInt8 = 0 then [] else [v.toUInt8])
  | .s => .string (if v = 0 then Console.chars "(null)" else (args.strings v).chars)

/-- The letters behind which the pointer is left, and which are then printed. -/
def Conv.echo : Conv → List UInt8
  | .ld | .lld => [ch 'd']
  | _ => []

/-- `directive` carries out the conversion and leaves the pointer on its last character, or
on the one before. -/
theorem directive_conv (args : Args) (conv : Conv) (rest : List UInt8) (va : VaList) :
    ∃ c, directive args (conv.chars ++ rest) va.conversion =
      ⟨c :: (conv.echo ++ rest), some (conv.render args (args.slots (conv.before va).ap)),
        conv.after va⟩ := by
  cases conv <;> exact ⟨_, rfl⟩

/-! ## What a format does -/

/-- The arguments after the conversions of a format. -/
def afterAll : List Conv → VaList → VaList
  | [], va => va
  | conv :: rest, va => afterAll rest (conv.after va)

/-- The slots that the conversions of a format read, in order. -/
def fetched (args : Args) : List Conv → VaList → List UInt64
  | [], _ => []
  | conv :: rest, va => args.slots (conv.before va).ap :: fetched args rest (conv.after va)

/-- The text of a format whose conversions render the given values, each conversion being
followed by what it echoes. -/
def itemsText (echo : Conv → List UInt8) (args : Args) : List Item → List UInt64 → List UInt8
  | [], _ => []
  | .literal c _ _ :: items, vs => c :: itemsText echo args items vs
  | .percent :: items, vs => ch '%' :: itemsText echo args items vs
  | .conversion spec :: items, v :: vs =>
    (spec.conv.render args v).text spec.width spec.flags ++
      (echo spec.conv ++ itemsText echo args items vs)
  | .conversion _ :: _, [] => []

theorem printLoop_literal (args : Args) {c : UInt8} (hc : c ≠ ch '%') (rest t : List UInt8)
    (n : Int) (va : VaList) :
    printLoop textDest args (c :: rest) ⟨t, int n, va⟩ =
      printLoop textDest args rest ⟨t ++ [c], int (n + 1), va⟩ := by
  refine printLoop_next ?_
  simp only [step, if_neg hc, Print.literal, int_int_add]
  rfl

theorem printLoop_percent (args : Args) (rest t : List UInt8) (n : Int) (va : VaList) :
    printLoop textDest args (ch '%' :: ch '%' :: rest) ⟨t, int n, va⟩ =
      printLoop textDest args rest ⟨t ++ [ch '%'], int (n + 1), va⟩ := by
  refine printLoop_next ?_
  simp [step, Print.literal, int_int_add, textDest]

theorem printLoop_conversion (args : Args) (spec : ConvSpec) (rest t : List UInt8) (n : Int)
    (va : VaList) :
    printLoop textDest args (ch '%' :: (spec.chars ++ rest)) ⟨t, int n, va⟩ =
      (let text := (spec.conv.render args (args.slots (spec.conv.before va).ap)).text spec.width
        spec.flags
      printLoop textDest args rest
        ⟨t ++ (text ++ spec.conv.echo), int (n + (text ++ spec.conv.echo).length),
          spec.conv.after va⟩) := by
  obtain ⟨c, hdir⟩ := directive_conv args spec.conv rest va
  obtain ⟨c₀, t₀, hchars⟩ : ∃ c₀ t₀, spec.chars = c₀ :: t₀ := by
    obtain ⟨c, t, hconv, -⟩ := spec.conv.chars_cons
    exact List.exists_cons_of_ne_nil (by simp [ConvSpec.chars, hconv])
  have hpercent : (spec.chars ++ rest).head? ≠ some (ch '%') := by
    rw [hchars]
    intro h
    have : ch '%' ∈ spec.chars := by
      rw [hchars, ← Option.some.inj h]
      exact List.mem_cons_self
    exact spec.not_mem_chars (.inr rfl) this
  have hstep : step textDest args (ch '%' :: (spec.chars ++ rest)) ⟨t, int n, va⟩ =
      .next (spec.conv.echo ++ rest)
        ⟨t ++ (spec.conv.render args (args.slots (spec.conv.before va).ap)).text spec.width
          spec.flags, int (n + ((spec.conv.render args (args.slots
            (spec.conv.before va).ap)).text spec.width spec.flags).length),
          spec.conv.after va⟩ := by
    have hne : spec.chars ++ rest ≠ [] := by simp [hchars]
    simp only [step, if_true, if_neg hne, if_neg hpercent, scanSpec_chars, hdir, Print.render,
      Render.run_eq, foldl_textDest, int_int_add, int_add_int]
    rfl
  rw [printLoop_next hstep]
  cases hecho : spec.conv.echo with
  | nil => simp
  | cons e tail =>
    obtain ⟨rfl, rfl⟩ : e = ch 'd' ∧ tail = [] := by
      cases hconv : spec.conv <;> rw [hconv] at hecho <;> cases hecho <;> exact ⟨rfl, rfl⟩
    rw [List.singleton_append, printLoop_literal args (by decide)]
    simp [Int.add_assoc]

/-- A run on a format of the language prints its text, with the echoes, and goes through the
arguments as its conversions do. -/
theorem printLoop_items (args : Args) (items : List Item) (t : List UInt8) (n : Int)
    (va : VaList) :
    printLoop textDest args (formatOf items).chars ⟨t, int n, va⟩ =
      (let text := itemsText Conv.echo args items (fetched args (convs items) va)
      some ⟨t ++ text, int (n + text.length), afterAll (convs items) va⟩) := by
  induction items generalizing t n va with
  | nil =>
    have hdone : step textDest args [] ⟨t, int n, va⟩ = .done ⟨t, int n, va⟩ := rfl
    show printLoop textDest args [] ⟨t, int n, va⟩ = _
    rw [printLoop_done hdone]
    simp [itemsText, convs, afterAll]
  | cons item items ih =>
    have hchars : (formatOf (item :: items)).chars = item.chars ++ (formatOf items).chars :=
      List.flatMap_cons
    rw [hchars]
    cases item with
    | literal c not_nul not_percent =>
      show printLoop textDest args (c :: (formatOf items).chars) _ = _
      rw [printLoop_literal args not_percent, ih]
      simp [itemsText, convs, Int.add_assoc, Int.add_comm 1]
    | percent =>
      show printLoop textDest args (ch '%' :: ch '%' :: (formatOf items).chars) _ = _
      rw [printLoop_percent, ih]
      simp [itemsText, convs, Int.add_assoc, Int.add_comm 1]
    | conversion spec =>
      show printLoop textDest args (ch '%' :: (spec.chars ++ (formatOf items).chars)) _ = _
      rw [printLoop_conversion]
      dsimp only
      rw [ih]
      simp [itemsText, convs, afterAll, fetched, Int.add_assoc]

end ZStage.Console
