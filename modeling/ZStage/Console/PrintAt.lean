import Mathlib.Data.List.TakeWhile
import ZStage.Console.Print
import ZStage.Libc.Strings

/-!
`print` on the memory that its format is in. The format pointer is an index into the bytes
from the format on, the reads through it are the events of a trace, and nothing but a zero
that the loop header reads keeps it from going on. The digit loops and the loop itself run
for at most `fuel` rounds.

On a string with its terminator at `n` the rounds are those of `step`. They read nothing
behind `n`; after an `overrun` the pointer is there.
-/

namespace ZStage.Console

open ZStage.Lib.CString ZStage.Lib.Trace ZStage.Libc

def isDigit (c : UInt8) : Bool := ch '0' ≤ c ∧ c ≤ ch '9'

/-! ## Reading -/

/-- `if (*format == flag) ++format;`. -/
def flagAt (format : Bytes) (flag : UInt8) (p : Nat) : Traced Nat (Bool × Nat) := do
  let c ← load format p
  if c = flag then pure (true, p + 1) else pure (false, p)

/-- `for (; test(*format); ++format) { acc = update(acc, *format); }`. -/
def loopAt {α : Type} (format : Bytes) (test : UInt8 → Bool) (update : α → UInt8 → α) :
    Nat → Nat → α → Traced Nat (Option (α × Nat))
  | 0, _, _ => pure none
  | fuel + 1, p, acc => do
    let c ← load format p
    if test c then loopAt format test update fuel (p + 1) (update acc c)
    else pure (some (acc, p))

def zerosAt (format : Bytes) (fuel p : Nat) : Traced Nat (Option (Bool × Nat)) :=
  loopAt format (· = ch '0') (fun _ _ => true) fuel p false

/-- `width *= 10; width += *format - '0'`. -/
def widthDigit (width : Int) (c : UInt8) : Int :=
  int (int (width * 10) + (c.toNat - (ch '0').toNat : Nat))

def widthAt (format : Bytes) (fuel p : Nat) : Traced Nat (Option (Int × Nat)) :=
  loopAt format isDigit widthDigit fuel p 0

/-- Flags and width, and the pointer behind them. -/
structure SpecAt where
  flags : Flags
  width : Int
  ptr : Nat

def specAt (format : Bytes) (fuel p : Nat) : Traced Nat (Option SpecAt) := do
  let right ← flagAt format (ch '-') p
  let alternate ← flagAt format (ch '#') right.2
  (zerosAt format fuel alternate.2).andThen fun zero =>
    (widthAt format fuel zero.2).andThen fun width =>
      pure (some ⟨⟨right.1, zero.1, alternate.1⟩, width.1, width.2⟩)

/-- Where the format pointer stands after a conversion, the call made and the arguments. -/
structure DirectiveAt where
  ptr : Nat
  call : Option Render
  va : VaList

/-- The branches of `print` on the conversion letter, with the look-ahead of one character
behind an 'l' and of two behind "ll". -/
def directiveAt (args : Args) (format : Bytes) (p : Nat) (va : VaList) :
    Traced Nat DirectiveAt := do
  let c ← load format p
  match letterCall args (args.slots va.ap) c with
  | some (call, words) => pure ⟨p, some call, va.arg.count words⟩
  | none =>
    if c = ch 'l' then
      let c₁ ← load format (p + 1)
      if c₁ = ch 'l' then
        let va := va.align
        let tmp := args.slots va.ap
        let c₂ ← load format (p + 2)
        match longCall tmp (some c₂) with
        | some call => pure ⟨p + 2, some call, va.arg.count 2⟩
        | none => pure ⟨p + 1, some (.integer tmp .dec true .zero), va.arg.count 2⟩
      else
        match longCall (args.slots va.ap) (some c₁) with
        | some call => pure ⟨p + 1, some call, if c₁ = ch 'u' then va.arg else va.arg.count 2⟩
        | none => pure ⟨p, some (.integer (args.slots va.ap) .dec true .zero), va.arg.count 2⟩
    else pure ⟨p, none, va⟩

variable {σ : Type}

inductive StepAt (σ : Type)
  | next (p : Nat) (st : Print σ)
  | done (st : Print σ)

def stepAt (d : Dest σ) (args : Args) (format : Bytes) (fuel p : Nat) (st : Print σ) :
    Traced Nat (Option (StepAt σ)) := do
  let c ← load format p
  if c = 0 then pure (some (.done st))
  else
    let st := { st with out := d.flush st.out }
    if c = ch '%' then
      let c₁ ← load format (p + 1)
      if c₁ = 0 then pure (some (.done st))
      else if c₁ = ch '%' then pure (some (.next (p + 2) (st.literal d (ch '%'))))
      else
        (specAt format fuel (p + 1)).andThen fun spec => do
          let dir ← directiveAt args format spec.ptr st.va.conversion
          let st := st.render d ⟨spec.flags, spec.width, []⟩ dir.call dir.va
          pure (some (.next (dir.ptr + 1) st))
    else pure (some (.next (p + 1) (st.literal d c)))

def printLoopAt (d : Dest σ) (args : Args) (format : Bytes) (fuel : Nat) :
    Nat → Nat → Print σ → Traced Nat (Option (Print σ))
  | 0, _, _ => pure none
  | rounds + 1, p, st =>
    (stepAt d args format fuel p st).andThen fun
      | .done st => pure (some st)
      | .next p st => printLoopAt d args format fuel rounds p st

/-- `print` up to the last flush, with its reads of the format. -/
def printAt (d : Dest σ) (args : Args) (format : Bytes) (fuel : Nat) (out : σ) :
    Traced Nat (Option (Print σ)) :=
  printLoopAt d args format fuel fuel 0 ⟨out, 0, .start⟩

/-! ## A string in memory -/

/-- From byte `p` on stand the characters of a string, and its terminator at byte `n`. -/
inductive At (format : Bytes) (n : Nat) : Nat → List UInt8 → Prop
  | nul (byte : format n = 0) : At format n n []
  | char {p : Nat} {c : UInt8} {rest : List UInt8} (byte : format p = c) (ne_zero : c ≠ 0)
      (tail : At format n (p + 1) rest) : At format n p (c :: rest)

/-- The string, followed by any bytes. -/
def CString.followedBy (s : CString) (behind : Bytes) : Bytes := fun i =>
  (s.chars ++ [0])[i]?.getD (behind i)

section

variable {format : Bytes} {n p fuel : Nat} {fmt : List UInt8}

theorem At.length_eq (h : At format n p fmt) : p + fmt.length = n := by
  induction h with
  | nul byte => rfl
  | @char p c rest byte ne_zero tail ih =>
    rw [List.length_cons]
    omega

theorem At.le (h : At format n p fmt) : p ≤ n := by
  have := h.length_eq
  omega

/-- The byte at the pointer, the terminator being a zero. -/
theorem At.head (h : At format n p fmt) : format p = fmt.head?.getD 0 := by
  cases h with
  | nul byte => exact byte
  | char byte ne_zero tail => exact byte

theorem At.head_eq_iff (h : At format n p fmt) {c : UInt8} (hc : c ≠ 0) :
    format p = c ↔ fmt.head? = some c := by
  rw [h.head]
  cases fmt with
  | nil => exact iff_of_false (fun heq => hc heq.symm) nofun
  | cons c₁ rest => exact ⟨congrArg some, Option.some.inj⟩

theorem At.tail {c : UInt8} {rest : List UInt8} (h : At format n p (c :: rest)) :
    At format n (p + 1) rest := by
  cases h with
  | char byte ne_zero tail => exact tail

theorem at_append (format : Bytes) {text : List UInt8} (hnul : 0 ∉ text) :
    ∀ p, (∀ i, i < text.length + 1 → format (p + i) = (text ++ [0])[i]?.getD 0) →
      At format (p + text.length) p text := by
  induction text with
  | nil => exact fun p h => .nul (h 0 (by decide))
  | cons c rest ih =>
    intro p h
    rw [List.mem_cons, not_or] at hnul
    have hrest := ih hnul.2 (p + 1) fun i hi => by
      have := h (i + 1) (by rw [List.length_cons]; omega)
      rwa [← Nat.add_assoc, Nat.add_right_comm] at this
    rw [List.length_cons, Nat.add_comm rest.length, ← Nat.add_assoc]
    exact .char (h 0 (Nat.succ_pos _)) (Ne.symm hnul.1) hrest

theorem CString.followedBy_at (s : CString) (behind : Bytes) :
    At (s.followedBy behind) s.chars.length 0 s.chars := by
  have h := at_append (s.followedBy behind) s.no_nul 0 fun i hi => by
    have hlt : i < (s.chars ++ [0]).length := by simpa using hi
    rw [Nat.zero_add, CString.followedBy, List.getElem?_eq_getElem hlt]
    rfl
  rwa [Nat.zero_add] at h

/-! ## The scan -/

theorem scanZeros_eq (fmt : List UInt8) (zero : Bool) :
    scanZeros fmt zero =
      ((fmt.takeWhile (· = ch '0')).foldl (fun _ _ => true) zero,
        fmt.dropWhile (· = ch '0')) := by
  induction fmt generalizing zero with
  | nil => rfl
  | cons c rest ih =>
    rw [scanZeros]
    split
    · next hc =>
      rw [ih, List.takeWhile_cons_of_pos (by simpa using hc),
        List.dropWhile_cons_of_pos (by simpa using hc), List.foldl_cons]
    · next hc =>
      rw [List.takeWhile_cons_of_neg (by simpa using hc),
        List.dropWhile_cons_of_neg (by simpa using hc), List.foldl_nil]

theorem scanWidth_eq (fmt : List UInt8) (width : Int) :
    scanWidth fmt width =
      ((fmt.takeWhile isDigit).foldl widthDigit width, fmt.dropWhile isDigit) := by
  induction fmt generalizing width with
  | nil => rfl
  | cons c rest ih =>
    rw [scanWidth]
    split
    · next hc =>
      have hdigit : isDigit c = true := decide_eq_true hc
      rw [ih, List.takeWhile_cons_of_pos hdigit, List.dropWhile_cons_of_pos hdigit,
        List.foldl_cons, widthDigit]
    · next hc =>
      have hdigit : ¬isDigit c = true := fun h => hc (of_decide_eq_true h)
      rw [List.takeWhile_cons_of_neg hdigit, List.dropWhile_cons_of_neg hdigit, List.foldl_nil]

theorem flagAt_spec (h : At format n p fmt) (flag : UInt8) (hflag : flag ≠ 0) :
    ∃ j, (flagAt format flag p).value = ((scanFlag flag fmt).1, j) ∧
      At format n j (scanFlag flag fmt).2 ∧ (flagAt format flag p).Safe (· ≤ n) := by
  simp only [flagAt, load, value_bind, value_emit, safe_emit_bind, scanFlag, h.head_eq_iff hflag]
  split
  · next hhead =>
    cases fmt with
    | nil => cases hhead
    | cons c rest => exact ⟨p + 1, rfl, h.tail, h.le, safe_pure _⟩
  · exact ⟨p, rfl, h, h.le, safe_pure _⟩

/-- A byte up to the terminator is read, and is what is known to stand there. -/
theorem yields_load {ρ : Type} {c : UInt8} {enough : Prop}
    {f : UInt8 → Traced Nat (Option ρ)} {r : ρ} (hle : p ≤ n) (byte : format p = c)
    (hf : Yields (· ≤ n) enough (f c) r) :
    Yields (· ≤ n) enough (load format p >>= f) r := by
  refine .bind ((safe_emit _ _).2 hle) ?_
  rw [load, value_emit, byte]
  exact hf

/-- A loop over characters stops at the terminator, if not before. -/
theorem loopAt_yields {α : Type} (fuel : Nat) (test : UInt8 → Bool) (htest : test 0 = false)
    (update : α → UInt8 → α) (h : At format n p fmt) (acc : α) :
    ∃ j, At format n j (fmt.dropWhile test) ∧
      Yields (· ≤ n) (fmt.length < fuel) (loopAt format test update fuel p acc)
        ((fmt.takeWhile test).foldl update acc, j) := by
  induction h generalizing fuel acc with
  | nul byte =>
    refine ⟨n, .nul byte, ?_⟩
    cases fuel with
    | zero => exact yields_none (Nat.lt_irrefl _) _
    | succ fuel =>
      refine yields_load (Nat.le_refl n) byte ?_
      rw [if_neg (by rw [htest]; exact Bool.false_ne_true)]
      exact yields_pure _
  | @char p c rest byte ne_zero tail ih =>
    have hle : p ≤ n := Nat.le_of_succ_le tail.le
    by_cases hc : test c = true
    · rw [List.takeWhile_cons_of_pos hc, List.dropWhile_cons_of_pos hc, List.foldl_cons]
      obtain ⟨j, hj⟩ := ih (fuel - 1) (update acc c)
      refine ⟨j, hj.1, ?_⟩
      cases fuel with
      | zero => exact yields_none (Nat.not_lt_zero _) _
      | succ fuel =>
        refine yields_load hle byte ?_
        rw [if_pos hc]
        exact hj.2.weaken Nat.lt_of_succ_lt_succ
    · rw [List.takeWhile_cons_of_neg hc, List.dropWhile_cons_of_neg hc, List.foldl_nil]
      refine ⟨p, .char byte ne_zero tail, ?_⟩
      cases fuel with
      | zero => exact yields_none (Nat.not_lt_zero _) _
      | succ fuel =>
        refine yields_load hle byte ?_
        rw [if_neg hc]
        exact yields_pure _

theorem specAt_yields (fuel : Nat) (h : At format n p fmt) :
    ∃ j, At format n j (scanSpec fmt).fmt ∧
      Yields (· ≤ n) (n < fuel) (specAt format fuel p)
        ⟨(scanSpec fmt).flags, (scanSpec fmt).width, j⟩ := by
  have henough {j : Nat} {rest : List UInt8} (hj : At format n j rest) (hfuel : n < fuel) :
      rest.length < fuel := by
    have := hj.length_eq
    omega
  obtain ⟨jr, hright, hatr, hsafer⟩ := flagAt_spec h (ch '-') (by decide)
  obtain ⟨ja, halternate, hata, hsafea⟩ := flagAt_spec hatr (ch '#') (by decide)
  obtain ⟨jz, hatz, hzeros⟩ := loopAt_yields fuel (· = ch '0') rfl (fun _ _ => true)
    hata false
  obtain ⟨jw, hatw, hwidth⟩ := loopAt_yields fuel isDigit rfl widthDigit hatz 0
  refine ⟨jw, ?_, ?_⟩
  · rwa [scanSpec, scanZeros_eq, scanWidth_eq]
  · refine .bind hsafer (.bind (by rwa [hright]) ?_)
    rw [hright, halternate]
    refine (hzeros.weaken (henough hata)).andThen ((hwidth.weaken (henough hatz)).andThen ?_)
    rw [scanSpec, scanZeros_eq, scanWidth_eq]
    exact yields_pure _

/-- A look-ahead sees the terminator as no letter. -/
theorem longCall_getD (v : UInt64) (letter : Option UInt8) :
    longCall v (some (letter.getD 0)) = longCall v letter := by
  cases letter with
  | none => rfl
  | some c => rfl

theorem letterCall_zero (args : Args) (slot : UInt64) : letterCall args slot 0 = none := rfl

theorem letterCall_l (args : Args) (slot : UInt64) : letterCall args slot (ch 'l') = none := rfl

/-- The branch of an 'l' with its look-ahead. -/
theorem directiveAt_l (args : Args) {rest : List UInt8} (h : At format n p (ch 'l' :: rest))
    (va : VaList) :
    ∃ j, At format n j (directive args (ch 'l' :: rest) va).fmt ∧
      (directiveAt args format p va).value =
        ⟨j, (directive args (ch 'l' :: rest) va).call, (directive args (ch 'l' :: rest) va).va⟩ ∧
      (directiveAt args format p va).Safe (· ≤ n) := by
  have hl : ch 'l' ≠ 0 := by decide
  have hu : ch 'u' ≠ 0 := by decide
  have hp : format p = ch 'l' := h.head
  have htail := h.tail
  simp only [directiveAt, load, value_bind, value_emit, safe_emit_bind, hp, letterCall_l,
    if_true, directive, true_and, htail.head_eq_iff hl]
  by_cases hll : rest.head? = some (ch 'l')
  · cases rest with
    | nil => cases hll
    | cons c₁ rest =>
      obtain rfl : c₁ = ch 'l' := Option.some.inj hll
      have htail₂ := htail.tail
      simp only [List.head?_cons, if_true, value_bind, value_emit, safe_emit_bind, htail₂.head,
        longCall_getD, List.tail_cons, h.le, htail.le, htail₂.le, true_and]
      cases longCall (args.slots va.align.ap) rest.head? with
      | some call => exact ⟨p + 2, htail₂, rfl, safe_pure _⟩
      | none => exact ⟨p + 1, htail, rfl, safe_pure _⟩
  · simp only [hll, if_false, htail.head_eq_iff hu, h.le, htail.le, true_and]
    rw [htail.head, longCall_getD]
    cases longCall (args.slots va.ap) rest.head? with
    | some call => exact ⟨p + 1, htail, rfl, safe_pure _⟩
    | none => exact ⟨p, h, rfl, safe_pure _⟩

/-- A conversion is carried out as on the list of its characters. -/
theorem directiveAt_spec (args : Args) (h : At format n p fmt) (va : VaList) :
    ∃ j, At format n j (directive args fmt va).fmt ∧
      (directiveAt args format p va).value =
        ⟨j, (directive args fmt va).call, (directive args fmt va).va⟩ ∧
      (directiveAt args format p va).Safe (· ≤ n) := by
  cases h with
  | nul byte =>
    refine ⟨n, .nul byte, ?_⟩
    simp only [directiveAt, load, value_bind, value_emit, safe_emit_bind, byte, letterCall_zero,
      directive]
    exact ⟨rfl, Nat.le_refl n, safe_pure _⟩
  | @char p c rest byte ne_zero tail =>
    by_cases hl : c = ch 'l'
    · subst hl
      exact directiveAt_l args (.char byte ne_zero tail) va
    · refine ⟨p, ?_⟩
      have hle : p ≤ n := Nat.le_of_succ_le tail.le
      simp only [directiveAt, load, value_bind, value_emit, safe_emit_bind, byte, directive, hl,
        if_false, false_and]
      rcases letterCall args (args.slots va.ap) c with _ | ⟨call, words⟩
      · exact ⟨.char byte ne_zero tail, rfl, hle, safe_pure _⟩
      · exact ⟨.char byte ne_zero tail, rfl, hle, safe_pure _⟩

/-! ## The loop -/

/-- A round on the memory takes the same step, over the terminator after an `overrun`. -/
inductive StepResult.At (format : Bytes) (n : Nat) : StepResult σ → StepAt σ → Prop
  | next {p : Nat} {fmt : List UInt8} {st : Print σ} (h : Console.At format n p fmt) :
      At format n (.next fmt st) (.next p st)
  | done {st : Print σ} : At format n (.done st) (.done st)
  | overrun {st : Print σ} : At format n .overrun (.next (n + 1) st)

/-- A round reads nothing behind the terminator. -/
theorem stepAt_yields (fuel : Nat) (d : Dest σ) (args : Args) (h : At format n p fmt)
    (st : Print σ) :
    ∃ r, (step d args fmt st).At format n r ∧
      Yields (· ≤ n) (n < fuel) (stepAt d args format fuel p st) r := by
  have hle := h.le
  cases h with
  | nul byte =>
    refine ⟨.done st, .done, yields_load hle byte ?_⟩
    rw [if_pos rfl]
    exact yields_pure _
  | @char p c rest byte ne_zero tail =>
    have hle₁ := tail.le
    have hpercent : ch '%' ≠ 0 := by decide
    by_cases hc : c = ch '%'
    · subst hc
      cases tail with
      | nul byte₁ =>
        refine ⟨.done _, .done, yields_load hle byte ?_⟩
        rw [if_neg hpercent, if_pos rfl]
        refine yields_load hle₁ byte₁ ?_
        rw [if_pos rfl]
        exact yields_pure _
      | @char _ c₁ rest byte₁ ne_zero₁ tail₁ =>
        have htail : At format n (p + 1) (c₁ :: rest) := .char byte₁ ne_zero₁ tail₁
        by_cases hc₁ : c₁ = ch '%'
        · subst hc₁
          refine ⟨.next (p + 2) _, .next tail₁, yields_load hle byte ?_⟩
          rw [if_neg hpercent, if_pos rfl]
          refine yields_load hle₁ byte₁ ?_
          rw [if_neg hpercent, if_pos rfl]
          exact yields_pure _
        · obtain ⟨js, hats, hspec⟩ := specAt_yields fuel htail
          obtain ⟨jd, hatd, hvalue, hsafe⟩ := directiveAt_spec args hats st.va.conversion
          have hhead : (c₁ :: rest).head? ≠ some (ch '%') := fun heq => hc₁ (Option.some.inj heq)
          have hround : Yields (· ≤ n) (n < fuel) (stepAt d args format fuel p st) (.next (jd + 1)
              (Print.render d (scanSpec (c₁ :: rest)) { st with out := d.flush st.out }
                (directive args (scanSpec (c₁ :: rest)).fmt st.va.conversion).call
                (directive args (scanSpec (c₁ :: rest)).fmt st.va.conversion).va)) := by
            refine yields_load hle byte ?_
            rw [if_neg hpercent, if_pos rfl]
            refine yields_load hle₁ byte₁ ?_
            rw [if_neg ne_zero₁, if_neg hc₁]
            refine hspec.andThen (.bind hsafe ?_)
            rw [hvalue]
            exact yields_pure _
          refine ⟨_, ?_, hround⟩
          simp only [step, if_true, if_neg (List.cons_ne_nil c₁ rest), if_neg hhead]
          cases hdir : (directive args (scanSpec (c₁ :: rest)).fmt st.va.conversion).fmt with
          | nil =>
            rw [hdir] at hatd
            cases hatd
            exact .overrun
          | cons c₂ after =>
            rw [hdir] at hatd
            exact .next hatd.tail
    · refine ⟨.next (p + 1) (Print.literal d c { st with out := d.flush st.out }), ?_,
        yields_load hle byte ?_⟩
      · simp only [step, if_neg hc]
        exact .next tail
      · rw [if_neg ne_zero, if_neg hc]
        exact yields_pure _

/-- A loop that ends on the characters ends on the memory in the same state, and reads nothing
behind the terminator. -/
theorem printLoopAt_yields {d : Dest σ} {args : Args} {rounds : Nat} {st st' : Print σ}
    (h : At format n p fmt) (hloop : printLoop d args fmt st = some st') :
    Yields (· ≤ n) (n < fuel ∧ fmt.length < rounds)
      (printLoopAt d args format fuel rounds p st) st' := by
  induction rounds generalizing p fmt st with
  | zero => exact yields_none (fun henough => Nat.not_lt_zero _ henough.2) _
  | succ rounds ih =>
    obtain ⟨r, hr, hstep⟩ := stepAt_yields fuel d args h st
    refine (hstep.weaken And.left).andThen ?_
    generalize hresult : step d args fmt st = result at hr
    cases hr with
    | next hat =>
      obtain ⟨c, hsuffix⟩ := step_suffix hresult
      have hlt := hsuffix.length_le
      rw [printLoop_next hresult] at hloop
      refine (ih hat hloop).weaken fun henough => ⟨henough.1, ?_⟩
      rw [List.length_cons] at hlt
      omega
    | done =>
      rw [printLoop_done hresult] at hloop
      cases hloop
      exact yields_pure _
    | overrun =>
      rw [printLoop_overrun hresult] at hloop
      cases hloop

/-- A round reads the character at the pointer. -/
theorem printLoopAt_reads (d : Dest σ) (args : Args) (rounds : Nat) (st : Print σ) :
    p ∈ (printLoopAt d args format fuel (rounds + 1) p st).trace :=
  List.mem_append_left _ (List.mem_append_left _ List.mem_cons_self)

/-- A loop that steps over the terminator reads the byte behind it, if it ends at all. -/
theorem printLoopAt_unsafe {d : Dest σ} {args : Args} {rounds : Nat} {st : Print σ}
    (h : At format n p fmt) (hloop : printLoop d args fmt st = none)
    (hsome : (printLoopAt d args format fuel rounds p st).value.isSome) :
    ¬(printLoopAt d args format fuel rounds p st).Safe (· ≤ n) := by
  induction rounds generalizing p fmt st with
  | zero => cases hsome
  | succ rounds ih =>
    obtain ⟨r, hr, hstep⟩ := stepAt_yields fuel d args h st
    obtain ⟨hrest, hsafe⟩ := hstep.andThen_isSome hsome
    refine fun hall => absurd (hsafe hall) ?_
    generalize hresult : step d args fmt st = result at hr
    cases hr with
    | next hat =>
      rw [printLoop_next hresult] at hloop
      exact ih hat hloop hrest
    | done =>
      rw [printLoop_done hresult] at hloop
      cases hloop
    | overrun =>
      cases rounds with
      | zero => cases hrest
      | succ rounds =>
        exact fun hbehind => Nat.not_succ_le_self n (hbehind _ (printLoopAt_reads d args rounds _))

end

/-- `print` ends on the memory as on the characters. -/
theorem printAt_yields {d : Dest σ} {args : Args} {format : CString} {out : σ}
    {st : Print σ} (behind : Bytes) (fuel : Nat) (h : print d args format out = some st) :
    Yields (· ≤ format.chars.length) (format.chars.length < fuel)
      (printAt d args (format.followedBy behind) fuel out) st :=
  (printLoopAt_yields (format.followedBy_at behind) h).weaken fun hfuel => ⟨hfuel, hfuel⟩

end ZStage.Console
