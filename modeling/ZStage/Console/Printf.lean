import ZStage.Console.Print

/-!
The entry points of `print` and what a run prints. The control of `print` does not
depend on its destination, so every run goes along with the run that only collects the
characters, its text (`print_tracks`): a relation between texts and destinations that
`printc` and the flush at the loop head keep holds at the end of a run if it holds at
the start. No text contains a NUL.
-/

namespace ZStage.Console

/-! ## Destinations -/

/-- The first `n` bytes of the buffer. -/
def Sink.bytes (o : Sink) (n : Nat) : List UInt8 := (List.range n).map o.buf

/-- A buffer of the caller; nothing happens at the loop head. -/
def bufferDest : Dest Sink := ⟨printc, id⟩

/-- `sprintf`: the buffer afterwards and the count. -/
def sprintf (args : Args) (format : CString) (buf : Nat → UInt8) : Option (Sink × Int) :=
  (print bufferDest args format ⟨buf, 0, none⟩).map fun st => (st.out, st.pc)

def PRINT_TBUF_MAX : Nat := 128

/-- `tbuf` with `tout` and `tbuf_len`, and the byte ranges given to `nputs` so far. -/
structure Tbuf where
  sink : Sink
  ranges : List (List UInt8)

def Tbuf.printc (t : Tbuf) (c : UInt8) : Tbuf := { t with sink := Console.printc t.sink c }

/-- `tbuf` is given to `nputs` at the loop head when `tbuf_len` is 0. -/
def Tbuf.flush (t : Tbuf) : Tbuf :=
  if t.sink.outLen = some 0 then
    ⟨{ t.sink with pos := 0, outLen := some PRINT_TBUF_MAX },
      t.ranges ++ [t.sink.bytes PRINT_TBUF_MAX]⟩
  else t

def tbufDest : Dest Tbuf := ⟨Tbuf.printc, Tbuf.flush⟩

/-- The last `nputs` of `print`, of `PRINT_TBUF_MAX - tbuf_len` bytes. -/
def Tbuf.finish (t : Tbuf) : List (List UInt8) :=
  let tbufLen := t.sink.outLen.getD PRINT_TBUF_MAX
  if tbufLen < PRINT_TBUF_MAX then t.ranges ++ [t.sink.bytes (PRINT_TBUF_MAX - tbufLen)]
  else t.ranges

/-- `printf`: the byte ranges given to `nputs` and the count. The buffer starts with
whatever the stack holds. -/
def printf (args : Args) (format : CString) (tbuf : Nat → UInt8) :
    Option (List (List UInt8) × Int) :=
  (print tbufDest args format ⟨⟨tbuf, 0, some PRINT_TBUF_MAX⟩, []⟩).map
    fun st => (st.out.finish, st.pc)

/-! ## Devices -/

/-- The functions that a console device has. -/
structure ConsoleDevice where
  consolePutc : Bool
  consolePuts : Bool
  deriving DecidableEq, Repr

/-- The characters that the device receives from `putc`. -/
def putc (consoleDev : Option ConsoleDevice) (c : UInt8) : List UInt8 :=
  if consoleDev.any (·.consolePutc) then if c = ch '\n' then [ch '\r', c] else [c] else []

/-- The characters that the device receives from `nputs`. -/
def nputs (consoleDev : Option ConsoleDevice) (str : List UInt8) : List UInt8 :=
  if consoleDev.any (·.consolePuts) then str else str.flatMap (putc consoleDev)

/-! ## The text of a run -/

/-- The destination that only collects the characters. -/
def textDest : Dest (List UInt8) := ⟨fun t c => t ++ [c], id⟩

/-- A relation between the text printed so far and the destination that `print` keeps. -/
structure Tracks {σ : Type} (d : Dest σ) (r : List UInt8 → σ → Prop) : Prop where
  put : ∀ {t o c}, r t o → c ≠ 0 → r (t ++ [c]) (d.put o c)
  flush : ∀ {t o}, r t o → r t (d.flush o)

/-- The destination after the characters of a text, put one after the other. -/
inductive Printed {σ : Type} (d : Dest σ) (out : σ) : List UInt8 → σ → Prop
  | start : Printed d out [] out
  | put {t : List UInt8} {o : σ} {c : UInt8} (h : Printed d out t o) (ne_zero : c ≠ 0) :
      Printed d out (t ++ [c]) (d.put o c)
  | flush {t : List UInt8} {o : σ} (h : Printed d out t o) : Printed d out t (d.flush o)

theorem printed_tracks {σ : Type} (d : Dest σ) (out : σ) : Tracks d (Printed d out) where
  put := .put
  flush := .flush

/-- What a call of `prints` or `printi` prints. -/
def Render.text (width : Int) (flags : Flags) : Render → List UInt8
  | .string s => printsText s width flags
  | .integer i b sg letbase => printiText i b sg width flags letbase

variable {σ : Type} {d : Dest σ} {r : List UInt8 → σ → Prop}

theorem Render.run_eq (put : σ → UInt8 → σ) (o : σ) (width : Int) (flags : Flags) (c : Render) :
    c.run put o width flags =
      ((c.text width flags).foldl put o, int (c.text width flags).length) := by
  cases c with
  | string s => exact prints_eq put o s width flags
  | integer i b sg letbase => exact printi_eq put o i b sg width flags letbase

/-- A call that prints no NUL. -/
def Render.NoNul : Render → Prop
  | .string s => 0 ∉ s
  | .integer _ _ _ _ => True

theorem Render.NoNul.text {c : Render} (h : c.NoNul) (width : Int) (flags : Flags) :
    0 ∉ c.text width flags := by
  cases c with
  | string s => exact printsText_no_nul h width flags
  | integer i b sg letbase => exact printiText_no_nul i b sg width flags letbase

theorem letterCall_noNul {args : Args} {slot : UInt64} {c : UInt8} {call : Render} {words : Nat}
    (h : letterCall args slot c = some (call, words)) : call.NoNul := by
  by_cases hs : c = ch 's'
  · simp only [letterCall, hs, if_true, Option.some.injEq, Prod.mk.injEq] at h
    rw [← h.1, Render.NoNul]
    split
    · decide
    · exact (args.strings slot).no_nul
  by_cases hc : c = ch 'c'
  · subst hc
    have hcall : letterCall args slot (ch 'c') =
        some (.string (if slot.toUInt8 = 0 then [] else [slot.toUInt8]), 1) := rfl
    rw [hcall] at h
    cases h
    rw [Render.NoNul]
    split
    · exact List.not_mem_nil
    · next hslot => exact fun hmem => hslot (List.mem_singleton.1 hmem).symm
  · simp only [letterCall, hs, hc, if_false] at h
    repeat' split at h
    all_goals cases h
    all_goals trivial

theorem longCall_noNul {v : UInt64} {letter : Option UInt8} {call : Render}
    (h : longCall v letter = some call) : call.NoNul := by
  simp only [longCall] at h
  repeat' split at h
  all_goals cases h
  all_goals trivial

theorem directive_noNul (args : Args) (fmt : List UInt8) (va : VaList) :
    ∀ call ∈ (directive args fmt va).call, call.NoNul := by
  intro call hcall
  cases fmt with
  | nil => cases hcall
  | cons c rest =>
    simp only [directive] at hcall
    split at hcall
    · next h =>
      cases hcall
      exact letterCall_noNul h
    · split at hcall
      · split at hcall
        · next h =>
          cases hcall
          exact longCall_noNul h
        · cases hcall
          trivial
      · split at hcall
        · split at hcall
          · next h =>
            cases hcall
            exact longCall_noNul h
          · cases hcall
            trivial
        · cases hcall

theorem foldl_textDest (t l : List UInt8) : l.foldl textDest.put t = t ++ l := by
  induction l generalizing t with
  | nil => exact (List.append_nil t).symm
  | cons c l ih => rw [List.foldl_cons, ih, textDest, List.append_assoc, List.singleton_append]

theorem Tracks.foldl (h : Tracks d r) {t : List UInt8} {o : σ} {l : List UInt8} (hl : 0 ∉ l)
    (hr : r t o) : r (t ++ l) (l.foldl d.put o) := by
  induction l generalizing t o with
  | nil => simpa using hr
  | cons c l ih =>
    rw [List.mem_cons, not_or] at hl
    simpa using ih hl.2 (h.put hr (Ne.symm hl.1))

/-- Two runs of the same format: the one that collects the text and one on `d`. -/
structure Print.Tracked (r : List UInt8 → σ → Prop) (a : Print (List UInt8)) (b : Print σ) :
    Prop where
  out : r a.out b.out
  pc : a.pc = b.pc
  va : a.va = b.va

/-- The two runs take the same step. -/
inductive StepResult.Tracked (r : List UInt8 → σ → Prop) :
    StepResult (List UInt8) → StepResult σ → Prop
  | next (fmt : List UInt8) {a : Print (List UInt8)} {b : Print σ} (h : a.Tracked r b) :
      Tracked r (.next fmt a) (.next fmt b)
  | done {a : Print (List UInt8)} {b : Print σ} (h : a.Tracked r b) : Tracked r (.done a) (.done b)
  | overrun : Tracked r .overrun .overrun

theorem Print.Tracked.literal (h : Tracks d r) {a : Print (List UInt8)} {b : Print σ}
    (hab : a.Tracked r b) {c : UInt8} (hc : c ≠ 0) :
    (a.literal textDest c).Tracked r (b.literal d c) :=
  ⟨h.put hab.out hc, congrArg (fun pc => int (pc + 1)) hab.pc, hab.va⟩

theorem Print.Tracked.render (h : Tracks d r) {a : Print (List UInt8)} {b : Print σ}
    (hab : a.Tracked r b) (spec : Spec) {call : Option Render} (hcall : ∀ c ∈ call, c.NoNul)
    (va : VaList) : (a.render textDest spec call va).Tracked r (b.render d spec call va) := by
  cases call with
  | none => exact ⟨hab.out, hab.pc, rfl⟩
  | some c =>
    simp only [Print.render, Render.run_eq, foldl_textDest]
    exact ⟨h.foldl ((hcall c rfl).text _ _) hab.out, by rw [hab.pc], rfl⟩

theorem step_tracked (h : Tracks d r) (args : Args) {fmt : List UInt8} (hnul : 0 ∉ fmt)
    {a : Print (List UInt8)} {b : Print σ} (hab : a.Tracked r b) :
    (step textDest args fmt a).Tracked r (step d args fmt b) := by
  cases fmt with
  | nil => exact .done hab
  | cons c rest =>
    rw [List.mem_cons, not_or] at hnul
    have hflush : Print.Tracked r { a with out := textDest.flush a.out }
        { b with out := d.flush b.out } := ⟨h.flush hab.out, hab.pc, hab.va⟩
    have hpercent : ch '%' ≠ 0 := by decide
    simp only [step]
    split_ifs
    · exact .done hflush
    · exact .next _ (hflush.literal h hpercent)
    · rw [hab.va]
      cases hdir : (directive args (scanSpec rest).fmt b.va.conversion).fmt with
      | nil => exact .overrun
      | cons c' after => exact .next _ (hflush.render h _ (directive_noNul _ _ _) _)
    · exact .next _ (hflush.literal h (Ne.symm hnul.1))

theorem printLoop_tracked (h : Tracks d r) (args : Args) (fmt : List UInt8) (hnul : 0 ∉ fmt)
    {a : Print (List UInt8)} {b : Print σ} (hab : a.Tracked r b) :
    Option.Rel (Print.Tracked r) (printLoop textDest args fmt a) (printLoop d args fmt b) := by
  induction hlen : fmt.length using Nat.strong_induction_on generalizing fmt a b with
  | _ n ih =>
    have hstep := step_tracked h args hnul hab
    generalize ha : step textDest args fmt a = ra at hstep
    generalize hb : step d args fmt b = rb at hstep
    cases hstep with
    | @next fmt' a' b' hab' =>
      obtain ⟨c, hsuffix⟩ := step_suffix ha
      have hlt : fmt'.length < n := hlen ▸ hsuffix.length_le
      have hnul' : 0 ∉ fmt' := fun hmem => hnul (hsuffix.subset (List.mem_cons_of_mem _ hmem))
      rw [printLoop_next ha, printLoop_next hb]
      exact ih fmt'.length hlt fmt' hnul' hab' rfl
    | done hab' =>
      rw [printLoop_done ha, printLoop_done hb]
      exact .some hab'
    | overrun =>
      rw [printLoop_overrun ha, printLoop_overrun hb]
      exact .none

/-- Every run goes along with the text that it prints. -/
theorem print_tracks (h : Tracks d r) (args : Args) (format : CString) (out : σ)
    (hout : r [] out) :
    Option.Rel (Print.Tracked r) (print textDest args format []) (print d args format out) :=
  printLoop_tracked h args format.chars format.no_nul ⟨hout, rfl, rfl⟩

end ZStage.Console
