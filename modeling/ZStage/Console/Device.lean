import ZStage.Console.Buffered

/-!
The console functions of `firmware/console.c` over a device whose functions have effects.
`ConsoleDevice` says only which functions a device has, and `nputs` what it receives. A
device that has `console_putc` alone is called for these characters, one after the other
(`nputs_putc`).
-/

namespace ZStage.Console

variable {m : Type → Type} [Monad m]

/-- `struct zstage_console_device`, with null for a function that is missing. -/
structure Device (m : Type → Type) where
  consolePutc : Option (UInt8 → m Unit)
  consolePuts : Option (List UInt8 → m Unit)

/-- `putc`. -/
def Device.putc (consoleDev : Option (Device m)) (c : UInt8) : m Unit :=
  match consoleDev.bind Device.consolePutc with
  | some consolePutc => do
    if c = ch '\n' then consolePutc (ch '\r')
    consolePutc c
  | none => pure ()

/-- `nputs`. -/
def Device.nputs (consoleDev : Option (Device m)) (str : List UInt8) : m Unit :=
  match consoleDev.bind Device.consolePuts with
  | some consolePuts => consolePuts str
  | none => str.forM (Device.putc consoleDev)

theorem crlf_append (t t' : List UInt8) : crlf (t ++ t') = crlf t ++ crlf t' :=
  List.flatMap_append

variable [LawfulMonad m]

theorem Device.nputs_putc (consolePutc : UInt8 → m Unit) (str : List UInt8) :
    Device.nputs (some ⟨some consolePutc, none⟩) str = (crlf str).forM consolePutc := by
  show forM str (Device.putc (some ⟨some consolePutc, none⟩)) = forM (crlf str) consolePutc
  induction str with
  | nil => rfl
  | cons c str ih =>
    have hput : Device.putc (some ⟨some consolePutc, none⟩) c = forM (crlf [c]) consolePutc := by
      by_cases hnewline : c = ch '\n'
      · simp [Device.putc, crlf, hnewline]
      · simp [Device.putc, crlf, hnewline]
    rw [List.forM_cons, hput, ih, ← List.forM_append, ← crlf_append, List.singleton_append]

/-- Over several texts the device sees one. -/
theorem Device.forM_nputs_putc (consolePutc : UInt8 → m Unit) (texts : List (List UInt8)) :
    texts.forM (Device.nputs (some ⟨some consolePutc, none⟩)) =
      (crlf texts.flatten).forM consolePutc := by
  simp only [List.forM_eq_forM]
  induction texts with
  | nil => rfl
  | cons str texts ih =>
    rw [List.forM_cons, Device.nputs_putc, ih, List.forM_eq_forM, ← List.forM_append,
      ← crlf_append, List.flatten_cons]

end ZStage.Console
