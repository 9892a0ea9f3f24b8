import ZStage.Console.Output

/-!
The format interpreter `print` of `firmware/console.c` on RV64.
One round of its loop is `step`: a literal character, or a conversion, which is scanned
(`scanSpec`) and carried out (`directive`). The format is the list of its characters,
and the format pointer a suffix of it, the terminator following the last character; a
round that moves the pointer past the terminator is an `overrun`.

The variadic arguments are 8-byte slots. `VaList` records the reads, with the number of
the conversion that renders the value read, and the `acnt` that the code keeps.
-/

namespace ZStage.Console

/-! ## Arguments -/

/-- A `va_arg` of a slot, by the conversion that renders its value or by none. -/
structure VaRead where
  slot : Nat
  use : Option Nat
  deriving DecidableEq, Repr

/-- The next slot, the count of argument bytes, the conversions begun so far and the reads. -/
structure VaList where
  ap : Nat
  acnt : Nat
  convs : Nat
  reads : List VaRead
  acnt_mod : acnt % 4 = 0
  deriving DecidableEq, Repr

def VaList.start : VaList := ⟨0, 0, 0, [], rfl⟩

def VaList.conversion (va : VaList) : VaList := { va with convs := va.convs + 1 }

def VaList.arg (va : VaList) : VaList :=
  { va with ap := va.ap + 1, reads := va.reads ++ [⟨va.ap, some (va.convs - 1)⟩] }

/-- `acnt += 4 * words`. -/
def VaList.count (va : VaList) (words : Nat) : VaList :=
  { va with
    acnt := va.acnt + 4 * words
    acnt_mod := by
      have := va.acnt_mod
      omega }

/-- `va_arg(args, int); acnt += sizeof(int)`, the value being dropped. -/
def VaList.drop (va : VaList) : VaList :=
  { va.count 1 with ap := va.ap + 1, reads := va.reads ++ [⟨va.ap, none⟩] }

/-- `while (acnt & (sizeof(unsigned long long) - 1))`. -/
def VaList.align (va : VaList) : VaList :=
  if _ : va.acnt % 8 = 0 then va else va.drop.align
termination_by va.acnt % 8
decreasing_by
  have := va.acnt_mod
  show (va.acnt + 4 * 1) % 8 < va.acnt % 8
  omega

def argInt (slot : UInt64) : UInt64 := slot.toUInt32.toInt32.toInt64.toUInt64

def argUnsigned (slot : UInt64) : UInt64 := slot.toUInt32.toUInt64

/-! ## Conversions -/

/-- A call of `prints` or `printi`. -/
inductive Render
  | string (s : List UInt8)
  | integer (i : UInt64) (b : Base) (sg : Bool) (letbase : LetBase)
  deriving DecidableEq, Repr

def Render.run {σ : Type} (put : σ → UInt8 → σ) (o : σ) (width : Int) (flags : Flags) :
    Render → σ × Int
  | .string s => prints put o s width flags
  | .integer i b sg letbase => printi put o i b sg width flags letbase

/-- Where the format pointer stands after a conversion, the call made and the arguments. -/
structure Directive where
  fmt : List UInt8
  call : Option Render
  va : VaList

/-- The memory that the arguments refer to: the slots and the strings. -/
structure Args where
  slots : Nat → UInt64
  strings : UInt64 → CString

/-- The branches for one letter: the call, and the 4-byte words added to `acnt`. -/
def letterCall (args : Args) (slot : UInt64) (c : UInt8) : Option (Render × Nat) :=
  if c = ch 's' then
    some (.string (if slot = 0 then chars "(null)" else (args.strings slot).chars), 2)
  else if c = ch 'd' ∨ c = ch 'i' then some (.integer (argInt slot) .dec true .zero, 1)
  else if c = ch 'x' then some (.integer (argUnsigned slot) .hex false .lower, 1)
  else if c = ch 'X' then some (.integer (argUnsigned slot) .hex false .upper, 1)
  else if c = ch 'u' then some (.integer (argUnsigned slot) .dec false .lower, 1)
  else if c = ch 'p' then some (.integer slot .hex false .lower, 2)
  else if c = ch 'P' then some (.integer slot .hex false .upper, 2)
  else if c = ch 'c' then some (.string (if slot.toUInt8 = 0 then [] else [slot.toUInt8]), 1)
  else none

/-- The letters that `print` knows behind 'l' and "ll". -/
def longCall (v : UInt64) (letter : Option UInt8) : Option Render :=
  if letter = some (ch 'u') then some (.integer v .dec false .lower)
  else if letter = some (ch 'x') then some (.integer v .hex false .lower)
  else if letter = some (ch 'X') then some (.integer v .hex false .upper)
  else none

/-- The branches of `print` on the conversion letter at `fmt`. After 'l' and "ll" with no
letter that it knows the pointer stays on the last 'l'. -/
def directive (args : Args) (fmt : List UInt8) (va : VaList) : Directive :=
  match fmt with
  | [] => ⟨fmt, none, va⟩
  | c :: rest =>
    match letterCall args (args.slots va.ap) c with
    | some (call, words) => ⟨fmt, some call, va.arg.count words⟩
    | none =>
      if c = ch 'l' ∧ rest.head? = some (ch 'l') then
        let va := va.align
        let tmp := args.slots va.ap
        match longCall tmp rest.tail.head? with
        | some call => ⟨rest.tail, some call, va.arg.count 2⟩
        | none => ⟨rest, some (.integer tmp .dec true .zero), va.arg.count 2⟩
      else if c = ch 'l' then
        match longCall (args.slots va.ap) rest.head? with
        | some call =>
          -- "lu" does not count its argument
          ⟨rest, some call, if rest.head? = some (ch 'u') then va.arg else va.arg.count 2⟩
        | none => ⟨fmt, some (.integer (args.slots va.ap) .dec true .zero), va.arg.count 2⟩
      else ⟨fmt, none, va⟩

/-- Flags and width, and where the format pointer then stands. -/
structure Spec where
  flags : Flags
  width : Int
  fmt : List UInt8

def scanWidth : List UInt8 → Int → Int × List UInt8
  | [], width => (width, [])
  | c :: rest, width =>
    if ch '0' ≤ c ∧ c ≤ ch '9' then
      scanWidth rest (int (int (width * 10) + (c.toNat - (ch '0').toNat : Nat)))
    else (width, c :: rest)

def scanFlag (flag : UInt8) (fmt : List UInt8) : Bool × List UInt8 :=
  if fmt.head? = some flag then (true, fmt.tail) else (false, fmt)

/-- `while (*format == '0')`. -/
def scanZeros : List UInt8 → Bool → Bool × List UInt8
  | [], zero => (zero, [])
  | c :: rest, zero => if c = ch '0' then scanZeros rest true else (zero, c :: rest)

def scanSpec (fmt : List UInt8) : Spec :=
  let right := scanFlag (ch '-') fmt
  let alternate := scanFlag (ch '#') right.2
  let zero := scanZeros alternate.2 false
  let width := scanWidth zero.2 0
  ⟨⟨right.1, zero.1, alternate.1⟩, width.1, width.2⟩

/-! ## The loop -/

/-- The state of `print` between rounds. -/
structure Print (σ : Type) where
  out : σ
  pc : Int
  va : VaList

inductive StepResult (σ : Type)
  | next (fmt : List UInt8) (st : Print σ)
  | done (st : Print σ)
  | overrun

variable {σ : Type}

/-- How `print` reaches its destination: `printc`, and what it does at the loop head. -/
structure Dest (σ : Type) where
  put : σ → UInt8 → σ
  flush : σ → σ

def Print.literal (d : Dest σ) (ch : UInt8) (st : Print σ) : Print σ :=
  { st with out := d.put st.out ch, pc := int (st.pc + 1) }

def Print.render (d : Dest σ) (spec : Spec) (st : Print σ) (call : Option Render) (va : VaList) :
    Print σ :=
  match call with
  | none => { st with va := va }
  | some r =>
    let result := r.run d.put st.out spec.width spec.flags
    ⟨result.1, int (st.pc + result.2), va⟩

def step (d : Dest σ) (args : Args) (fmt : List UInt8) (st : Print σ) : StepResult σ :=
  match fmt with
  | [] => .done st
  | c :: rest =>
    let st := { st with out := d.flush st.out }
    if c = ch '%' then
      if rest = [] then .done st
      else if rest.head? = some (ch '%') then .next rest.tail (st.literal d (ch '%'))
      else
        let spec := scanSpec rest
        let dir := directive args spec.fmt st.va.conversion
        match dir.fmt with
        | [] => .overrun
        | _ :: after => .next after (st.render d spec dir.call dir.va)
    else .next rest (st.literal d c)

theorem scanWidth_suffix (fmt : List UInt8) (width : Int) : (scanWidth fmt width).2 <:+ fmt := by
  induction fmt generalizing width with
  | nil => exact List.suffix_rfl
  | cons c rest ih =>
    rw [scanWidth]
    split
    · exact (ih _).trans (List.suffix_cons c rest)
    · exact List.suffix_rfl

theorem scanZeros_suffix (fmt : List UInt8) (zero : Bool) : (scanZeros fmt zero).2 <:+ fmt := by
  induction fmt generalizing zero with
  | nil => exact List.suffix_rfl
  | cons c rest ih =>
    rw [scanZeros]
    split
    · exact (ih _).trans (List.suffix_cons c rest)
    · exact List.suffix_rfl

theorem scanFlag_suffix (flag : UInt8) (fmt : List UInt8) : (scanFlag flag fmt).2 <:+ fmt := by
  rw [scanFlag]
  split
  · exact List.tail_suffix fmt
  · exact List.suffix_rfl

theorem scanSpec_suffix (fmt : List UInt8) : (scanSpec fmt).fmt <:+ fmt :=
  (scanWidth_suffix _ _).trans ((scanZeros_suffix _ _).trans
    ((scanFlag_suffix _ _).trans (scanFlag_suffix _ _)))

theorem directive_suffix (args : Args) (fmt : List UInt8) (va : VaList) :
    (directive args fmt va).fmt <:+ fmt := by
  cases fmt with
  | nil => exact List.suffix_rfl
  | cons c rest =>
    have hrest : rest <:+ c :: rest := List.suffix_cons c rest
    have htail : rest.tail <:+ c :: rest := (List.tail_suffix rest).trans hrest
    simp only [directive]
    repeat' split
    all_goals first | exact List.suffix_rfl | exact hrest | exact htail

theorem step_suffix {d : Dest σ} {args : Args} {fmt fmt' : List UInt8} {st st' : Print σ}
    (h : step d args fmt st = .next fmt' st') : ∃ c, c :: fmt' <:+ fmt := by
  cases fmt with
  | nil => simp [step] at h
  | cons c rest =>
    simp only [step] at h
    split_ifs at h with hc hrest hpercent
    · cases h
      cases rest with
      | nil => exact absurd rfl hrest
      | cons c' after => exact ⟨c', List.suffix_cons c _⟩
    · have hsuffix := (directive_suffix args (scanSpec rest).fmt st.va.conversion).trans
        (scanSpec_suffix rest)
      cases hdir : (directive args (scanSpec rest).fmt st.va.conversion).fmt with
      | nil => simp [hdir] at h
      | cons c' after =>
        simp only [hdir, StepResult.next.injEq] at h
        rw [hdir] at hsuffix
        rw [← h.1]
        exact ⟨c', hsuffix.trans (List.suffix_cons c rest)⟩
    · cases h
      exact ⟨c, List.suffix_rfl⟩

def printLoop (d : Dest σ) (args : Args) (fmt : List UInt8) (st : Print σ) : Option (Print σ) :=
  match _ : step d args fmt st with
  | .done st => some st
  | .overrun => none
  | .next fmt st => printLoop d args fmt st
termination_by fmt.length
decreasing_by
  obtain ⟨c, hc⟩ := step_suffix (by assumption)
  exact hc.length_le

theorem printLoop_next {d : Dest σ} {args : Args} {fmt fmt' : List UInt8} {st st' : Print σ}
    (h : step d args fmt st = .next fmt' st') :
    printLoop d args fmt st = printLoop d args fmt' st' := by
  rw [printLoop]
  split
  · next h' => cases h.symm.trans h'
  · next h' => cases h.symm.trans h'
  · next h' =>
    cases h.symm.trans h'
    rfl

theorem printLoop_done {d : Dest σ} {args : Args} {fmt : List UInt8} {st st' : Print σ}
    (h : step d args fmt st = .done st') : printLoop d args fmt st = some st' := by
  rw [printLoop]
  split
  · next h' =>
    cases h.symm.trans h'
    rfl
  · next h' => cases h.symm.trans h'
  · next h' => cases h.symm.trans h'

theorem printLoop_overrun {d : Dest σ} {args : Args} {fmt : List UInt8} {st : Print σ}
    (h : step d args fmt st = .overrun) : printLoop d args fmt st = none := by
  rw [printLoop]
  split
  · next h' => cases h.symm.trans h'
  · rfl
  · next h' => cases h.symm.trans h'

/-- `print` up to the last flush; `none` when it reads past the terminator. -/
def print (d : Dest σ) (args : Args) (format : CString) (out : σ) : Option (Print σ) :=
  printLoop d args format.chars ⟨out, 0, .start⟩

end ZStage.Console
