import ZStage.Console.Device
import ZStage.Serial.Cadence

/-!
Text on the Cadence console. A character waits until a read of CSR finds room in the
FIFO, so a run is given by what these reads give. The FIFO takes the text that is given
to `nputs`, with a carriage return in front of each newline, and the calls return exactly
when there has been room often enough.
-/

namespace ZStage.Serial.Cadence

open ZStage.Console (Device crlf)
open ZStage.Serial.Uart8250 (Access)

variable {w : Nat}

/-- CSR says that there is room. -/
def hasRoom (csr : UInt32) : Bool := csr &&& UART_CSR_TFUL = 0

theorem hasRoom_iff (csr : UInt32) : hasRoom csr = true ↔ csr &&& UART_CSR_TFUL = 0 :=
  decide_eq_true_iff

/-- What the next reads of CSR give, and the accesses so far. -/
structure Line (w : Nat) where
  replies : List UInt32
  accesses : List (Access w)

/-- A call of `cadence_uart_putc`: all its accesses but the last one are reads of CSR. -/
def putcOn (st : Statics w) (ch : UInt8) : StateT (Line w) Option Unit := fun line =>
  (cadenceUartPutc st ch line.replies).map fun accesses =>
    ((), ⟨line.replies.drop (accesses.length - 1), line.accesses ++ accesses⟩)

def cadenceConsole (st : Statics w) : Device (StateT (Line w) Option) where
  consolePutc := some (putcOn st)
  consolePuts := none

section Calls

variable {st : Statics w}

theorem putc_isSome_iff (ch : UInt8) (replies : List UInt32) :
    (cadenceUartPutc st ch replies).isSome ↔ 0 < replies.countP hasRoom := by
  induction replies with
  | nil => simp [cadenceUartPutc]
  | cons csr replies ih =>
    by_cases hroom : hasRoom csr = true
    · simp [cadenceUartPutc, (hasRoom_iff csr).1 hroom, List.countP_cons_of_pos hroom]
    · simpa [cadenceUartPutc, (hasRoom_iff csr).not.1 hroom, List.countP_cons_of_neg hroom]
        using ih

theorem putc_reads {ch : UInt8} {replies : List UInt32} {accesses : List (Access w)}
    (h : cadenceUartPutc st ch replies = some accesses) :
    2 ≤ accesses.length ∧
      (replies.drop (accesses.length - 1)).countP hasRoom + 1 =
        replies.countP hasRoom := by
  induction replies generalizing accesses with
  | nil => cases h
  | cons csr replies ih =>
    rw [cadenceUartPutc] at h
    split at h
    · next hbusy =>
      obtain ⟨rest, hrest, rfl⟩ := Option.map_eq_some_iff.1 h
      obtain ⟨hlen, hcount⟩ := ih hrest
      have hskip : (getReg st .csr :: rest).length - 1 = rest.length - 1 + 1 := by
        rw [List.length_cons]
        omega
      refine ⟨Nat.le_succ_of_le hlen, ?_⟩
      rw [hskip, List.drop_succ_cons, hcount,
        List.countP_cons_of_neg ((hasRoom_iff csr).not.2 hbusy)]
    · next hroom =>
      cases h
      rw [ne_eq, not_not] at hroom
      exact ⟨Nat.le_refl 2, (List.countP_cons_of_pos ((hasRoom_iff csr).2 hroom)).symm⟩

/-- A run of calls writes the characters to the FIFO in order, and returns exactly when
as many reads of CSR find room. -/
theorem forM_putcOn (port : Port st.base) (str : List UInt8) (line : Line w) :
    (((forM str (putcOn st)).run line).isSome ↔
        str.length ≤ line.replies.countP hasRoom) ∧
      ∀ line', (forM str (putcOn st)).run line = some ((), line') →
        port.written .rfifoTfifo line'.accesses =
          port.written .rfifoTfifo line.accesses ++ str.map UInt8.toUInt32 := by
  induction str generalizing line with
  | nil =>
    refine ⟨iff_of_true rfl (Nat.zero_le _), ?_⟩
    rintro line' h
    cases h
    exact (List.append_nil _).symm
  | cons ch str ih =>
    rw [List.forM_cons, StateT.run_bind]
    cases hputc : cadenceUartPutc st ch line.replies with
    | none =>
      have hnone : (putcOn st ch).run line = none := by
        rw [StateT.run, putcOn, hputc, Option.map_none]
      have hcount : (cadenceUartPutc st ch line.replies).isSome ↔ _ :=
        putc_isSome_iff ch line.replies
      rw [hputc] at hcount
      rw [hnone]
      refine ⟨iff_of_false (by simp) ?_, by simp⟩
      have := hcount.not.1 (by simp)
      rw [List.length_cons]
      omega
    | some accesses =>
      let next : Line w :=
        ⟨line.replies.drop (accesses.length - 1), line.accesses ++ accesses⟩
      have hnext : (putcOn st ch).run line = some ((), next) := by
        rw [StateT.run, putcOn, hputc, Option.map_some]
      obtain ⟨hreturns, hwritten⟩ := ih next
      have hcount : next.replies.countP hasRoom + 1 = line.replies.countP hasRoom :=
        (putc_reads hputc).2
      rw [hnext]
      refine ⟨?_, ?_⟩
      · show ((forM str (putcOn st)).run next).isSome ↔ _
        rw [hreturns, List.length_cons]
        omega
      · intro line' hrun
        rw [hwritten line' hrun, written_append, written_putc port hputc, List.append_assoc,
          List.map_cons, List.singleton_append]

/-- Any texts that are given to `nputs` on the Cadence console: the FIFO takes all of them,
in order and with a carriage return in front of each newline, and the calls return exactly
when as many reads of CSR have found room. -/
theorem nputs_on_cadence (port : Port st.base) (texts : List (List UInt8))
    (replies : List UInt32) :
    let out := (texts.forM (Device.nputs (some (cadenceConsole st)))).run ⟨replies, []⟩
    (out.isSome ↔ (crlf texts.flatten).length ≤ replies.countP hasRoom) ∧
      ∀ line, out = some ((), line) →
        port.written .rfifoTfifo line.accesses = (crlf texts.flatten).map UInt8.toUInt32 := by
  intro out
  have hout : out = (forM (crlf texts.flatten) (putcOn st)).run ⟨replies, []⟩ :=
    congrArg (·.run ⟨replies, []⟩) (Device.forM_nputs_putc (putcOn st) texts)
  rw [hout]
  exact forM_putcOn port (crlf texts.flatten) ⟨replies, []⟩

end Calls

end ZStage.Serial.Cadence
