import Mathlib.Data.List.Basic
import Mathlib.Tactic.Ring

/-!
The output functions of `firmware/console.c`: `printc` into a bounded or unbounded
buffer, and `prints` and `printi` above it. These two use the destination only
through `printc`, so they are written over any type of destinations with a `printc`;
what they print is a text (`printsText`, `printiText`) that does not depend on it
(`prints_eq`, `printi_eq`).

A character is an unsigned byte, as on RISC-V. An `int` wraps (`int`).
-/

namespace ZStage.Console

/-- The value of an `int`. -/
def int (x : Int) : Int := Int.bmod x (2 ^ 32)

/-- A character constant. -/
def ch (c : Char) : UInt8 := c.toUInt8

/-- The characters of a C string constant. -/
def chars (s : String) : List UInt8 := s.toList.map ch

/-- A string in memory, without its terminator. -/
structure CString where
  chars : List UInt8
  no_nul : 0 ∉ chars

/-- The `PAD_` flags. -/
structure Flags where
  right : Bool
  zero : Bool
  alternate : Bool
  deriving DecidableEq, Repr

/-! ## The destination -/

/-- What `(out, out_len)` stands for: the buffer, how far `*out` has moved in it, and the
count behind `out_len` unless that is null. -/
structure Sink where
  buf : Nat → UInt8
  pos : Nat
  outLen : Option Nat

/-- `printc` with a non-null `out`. -/
def printc (o : Sink) (ch : UInt8) : Sink :=
  let stored : Sink :=
    if o.outLen.all (1 < ·) then
      { o with
        buf := fun i => if i = o.pos then ch else if i = o.pos + 1 then 0 else o.buf i
        pos := o.pos + 1 }
    else o
  { stored with outLen := o.outLen.map (· - 1) }

/-! ## Strings -/

variable {σ : Type} (put : σ → UInt8 → σ)

/-- `for (; width > 0; --width) { printc(padchar); ++pc; }`. -/
def padLoop (padchar : UInt8) : Nat → σ × Int → σ × Int
  | 0, st => st
  | width + 1, st => padLoop padchar width (put st.1 padchar, int (st.2 + 1))

/-- `for (; *string; ++string) { printc(*string); ++pc; }`. -/
def stringLoop : List UInt8 → σ × Int → σ × Int
  | [], st => st
  | c :: string, st => stringLoop string (put st.1 c, int (st.2 + 1))

/-- The width that is left to pad. -/
def padWidth (string : List UInt8) (width : Int) : Int :=
  let len := int string.length
  if 0 < width then if width ≤ len then 0 else int (width - len) else width

def padChar (width : Int) (flags : Flags) : UInt8 :=
  if 0 < width ∧ flags.zero then ch '0' else ch ' '

def prints (o : σ) (string : List UInt8) (width : Int) (flags : Flags) : σ × Int :=
  let padchar := padChar width flags
  let width := padWidth string width
  -- padding on the left leaves nothing for the last loop
  let before := if flags.right then 0 else width.toNat
  let after := if flags.right then width.toNat else 0
  padLoop put padchar after (stringLoop put string (padLoop put padchar before (o, 0)))

/-! ## Integers -/

/-- The bases that `print` asks for. -/
inductive Base
  | dec
  | hex
  deriving DecidableEq, Repr

def Base.value : Base → UInt64
  | .dec => 10
  | .hex => 16

theorem Base.div_lt (b : Base) {u : UInt64} (h : u ≠ 0) : (u / b.value).toNat < u.toNat := by
  have hpos : 0 < u.toNat := by
    rcases Nat.eq_zero_or_pos u.toNat with h0 | h0
    · exact absurd (UInt64.toNat_inj.1 h0) h
    · exact h0
  cases b with
  | dec => exact Nat.div_lt_self hpos (by decide)
  | hex => exact Nat.div_lt_self hpos (by decide)

/-- The characters that `letbase` takes. -/
inductive LetBase
  | zero
  | lower
  | upper
  deriving DecidableEq, Repr

def LetBase.char : LetBase → UInt8
  | .zero => ch '0'
  | .lower => ch 'a'
  | .upper => ch 'A'

/-- The character that the digit loop stores for the digit `t`. -/
def digitChar (letbase : LetBase) (t : UInt64) : UInt8 :=
  let t := if 10 ≤ t then t + (letbase.char.toUInt64 - (ch '0').toUInt64 - 10) else t
  (t + (ch '0').toUInt64).toUInt8

/-- The digit loop, which stores from the end of `print_buf` downwards. -/
def digitLoop (b : Base) (letbase : LetBase) (u : UInt64) (s : List UInt8) : List UInt8 :=
  if _ : u = 0 then s
  else digitLoop b letbase (u / b.value) (digitChar letbase (u % b.value) :: s)
termination_by u.toNat
decreasing_by exact b.div_lt (by assumption)

/-- What `print_buf` holds before the sign: the digits with the alternate prefix. -/
def unsignedDigits (u : UInt64) (b : Base) (flags : Flags) (letbase : LetBase) : List UInt8 :=
  let s := if u = 0 then [ch '0'] else digitLoop b letbase u []
  if flags.alternate then
    let s :=
      if b = .hex ∧ letbase = .upper then ch 'X' :: s
      else if b = .hex ∧ letbase = .lower then ch 'x' :: s
      else s
    ch '0' :: s
  else s

/-- `printi`; `i` is the `long long` as a word. -/
def printi (o : σ) (i : UInt64) (b : Base) (sg : Bool) (width : Int) (flags : Flags)
    (letbase : LetBase) : σ × Int :=
  let neg := sg ∧ b = .dec ∧ i.toInt64 < 0
  let s := unsignedDigits (if neg then -i else i) b flags letbase
  if neg then
    if width ≠ 0 ∧ flags.zero then
      let r := prints put (put o (ch '-')) s (int (width - 1)) flags
      (r.1, int (1 + r.2))
    else prints put o (ch '-' :: s) width flags
  else prints put o s width flags

/-! ## What is printed -/

theorem int_int_add (x y : Int) : int (int x + y) = int (x + y) := Int.bmod_add_bmod

theorem int_add_int (x y : Int) : int (x + int y) = int (x + y) := Int.add_bmod_bmod

theorem int_int_mul (x y : Int) : int (int x * y) = int (x * y) := Int.bmod_mul_bmod

theorem padLoop_eq (padchar : UInt8) (width : Nat) (st : σ × Int) :
    padLoop put padchar width st = stringLoop put (List.replicate width padchar) st := by
  induction width generalizing st with
  | zero => rfl
  | succ width ih => exact ih _

theorem stringLoop_append (s s' : List UInt8) (st : σ × Int) :
    stringLoop put (s ++ s') st = stringLoop put s' (stringLoop put s st) := by
  induction s generalizing st with
  | nil => rfl
  | cons c s ih => exact ih _

theorem stringLoop_eq (string : List UInt8) (o : σ) (pc : Int) :
    stringLoop put string (o, int pc) = (string.foldl put o, int (pc + string.length)) := by
  induction string generalizing o pc with
  | nil => simp [stringLoop]
  | cons c string ih =>
    rw [stringLoop, int_int_add, ih, List.foldl_cons, List.length_cons]
    congr 2
    push_cast
    ring

/-- What `prints` prints. -/
def printsText (string : List UInt8) (width : Int) (flags : Flags) : List UInt8 :=
  let padding := List.replicate (padWidth string width).toNat (padChar width flags)
  if flags.right then string ++ padding else padding ++ string

theorem prints_eq (o : σ) (string : List UInt8) (width : Int) (flags : Flags) :
    prints put o string width flags =
      ((printsText string width flags).foldl put o,
        int (printsText string width flags).length) := by
  have hloop : prints put o string width flags =
      stringLoop put (printsText string width flags) (o, int 0) := by
    have hzero : int 0 = 0 := rfl
    cases hright : flags.right
    all_goals
      simp only [prints, printsText, hright, if_true, if_false, padLoop_eq, Bool.false_eq_true,
        List.replicate_zero, stringLoop_append, stringLoop, hzero]
  rw [hloop, stringLoop_eq, Int.zero_add]

/-- What `printi` prints. -/
def printiText (i : UInt64) (b : Base) (sg : Bool) (width : Int) (flags : Flags)
    (letbase : LetBase) : List UInt8 :=
  let neg := sg ∧ b = .dec ∧ i.toInt64 < 0
  let s := unsignedDigits (if neg then -i else i) b flags letbase
  if neg then
    if width ≠ 0 ∧ flags.zero then ch '-' :: printsText s (int (width - 1)) flags
    else printsText (ch '-' :: s) width flags
  else printsText s width flags

theorem printi_eq (o : σ) (i : UInt64) (b : Base) (sg : Bool) (width : Int) (flags : Flags)
    (letbase : LetBase) :
    printi put o i b sg width flags letbase =
      ((printiText i b sg width flags letbase).foldl put o,
        int (printiText i b sg width flags letbase).length) := by
  simp only [printi, printiText, prints_eq]
  split
  · split
    · rw [List.foldl_cons, List.length_cons, int_add_int, Int.add_comm]
      rfl
    · rfl
  · rfl

/-! ## No terminator is printed -/

theorem digitChar_ne_zero (b : Base) (letbase : LetBase) (u : UInt64) :
    digitChar letbase (u % b.value) ≠ 0 := by
  have hall : ∀ t : Fin 16, digitChar letbase (UInt64.ofNat t) ≠ 0 := by
    cases letbase <;> decide
  have hlt : (u % b.value).toNat < 16 := by
    rw [UInt64.toNat_mod]
    cases b with
    | dec => exact Nat.lt_of_lt_of_le (Nat.mod_lt _ (by decide)) (by decide)
    | hex => exact Nat.mod_lt _ (by decide)
  have h := hall ⟨(u % b.value).toNat, hlt⟩
  rwa [UInt64.ofNat_toNat] at h

theorem digitLoop_no_nul (b : Base) (letbase : LetBase) (u : UInt64) (s : List UInt8)
    (h : 0 ∉ s) : 0 ∉ digitLoop b letbase u s := by
  induction u, s using digitLoop.induct b letbase with
  | case1 s => rwa [digitLoop, dif_pos rfl]
  | case2 u s hu ih =>
    rw [digitLoop, dif_neg hu]
    exact ih (List.not_mem_cons_of_ne_of_not_mem (digitChar_ne_zero b letbase u).symm h)

theorem unsignedDigits_no_nul (u : UInt64) (b : Base) (flags : Flags) (letbase : LetBase) :
    0 ∉ unsignedDigits u b flags letbase := by
  have hdigits : 0 ∉ (if u = 0 then [ch '0'] else digitLoop b letbase u []) := by
    split
    · decide
    · exact digitLoop_no_nul b letbase u [] List.not_mem_nil
  have hzero : (0 : UInt8) ≠ ch '0' := by decide
  have hlower : (0 : UInt8) ≠ ch 'x' := by decide
  have hupper : (0 : UInt8) ≠ ch 'X' := by decide
  simp only [unsignedDigits]
  split
  · refine List.not_mem_cons_of_ne_of_not_mem hzero ?_
    split
    · exact List.not_mem_cons_of_ne_of_not_mem hupper hdigits
    · split
      · exact List.not_mem_cons_of_ne_of_not_mem hlower hdigits
      · exact hdigits
  · exact hdigits

theorem printsText_no_nul {string : List UInt8} (h : 0 ∉ string) (width : Int) (flags : Flags) :
    0 ∉ printsText string width flags := by
  have hpad : (0 : UInt8) ≠ padChar width flags := by
    rw [padChar]
    split <;> decide
  have hpadding : 0 ∉ List.replicate (padWidth string width).toNat (padChar width flags) :=
    fun hmem => hpad (List.eq_of_mem_replicate hmem)
  simp only [printsText]
  split
  · exact List.not_mem_append h hpadding
  · exact List.not_mem_append hpadding h

theorem printiText_no_nul (i : UInt64) (b : Base) (sg : Bool) (width : Int) (flags : Flags)
    (letbase : LetBase) : 0 ∉ printiText i b sg width flags letbase := by
  have hminus : (0 : UInt8) ≠ ch '-' := by decide
  simp only [printiText]
  split
  · have hdigits := unsignedDigits_no_nul (-i) b flags letbase
    split
    · exact List.not_mem_cons_of_ne_of_not_mem hminus (printsText_no_nul hdigits _ _)
    · exact printsText_no_nul (List.not_mem_cons_of_ne_of_not_mem hminus hdigits) _ _
  · exact printsText_no_nul (unsignedDigits_no_nul i b flags letbase) _ _

end ZStage.Console
