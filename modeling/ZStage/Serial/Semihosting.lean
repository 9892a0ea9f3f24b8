import ZStage.Console.Device
import ZStage.Serial.FdtSerial

/-!
The semihosting console of `firmware/serial/semihosting.c`. A trap is a request to the
host, whose reply may depend on everything before it, and the log keeps the requests
with their replies. The reply to `SYSWRITE` is the number of bytes that were not
written, or negative, so the log also says what the host has accepted.
-/

namespace ZStage.Serial.Semihosting

open ZStage.Console (int chars Device)

/-! ## The host -/

/-- `sysnum` and what its argument block holds. -/
inductive Sys
  | open (fname : List UInt8) (mode : Nat) (len : Nat)
  | writec (ch : UInt8)
  | write (fd : Int) (memp : List UInt8)
  | errno
  deriving DecidableEq, Repr

/-- A request and what the host leaves in `a0`. -/
abbrev Event := Sys × Int

abbrev Log := List Event

/-- The reply to a request after a log. -/
abbrev Host := Log → Sys → Int

/-- The bytes that the host takes over. -/
def Event.accepted : Event → List UInt8
  | (.writec ch, _) => [ch]
  | (.write _ memp, r) => if r < 0 then [] else memp.take (memp.length - r.toNat)
  | _ => []

def accepted (log : Log) : List UInt8 := log.flatMap Event.accepted

/-! ## The driver -/

variable (host : Host) (w : Nat)

def semihostingTrap (sys : Sys) : StateM Log Int := fun log =>
  (int (host log sys), log ++ [(sys, host log sys)])

def EIO : Int := 12

def semihostingErrno : StateM Log Int := do
  let ret ← semihostingTrap host .errno
  if 0 < ret then return -ret
  return - EIO

/-- `semihosting_write`; a `long` has `w` bits. -/
def semihostingWrite (fd : Int) (memp : List UInt8) : StateM Log Int := do
  let ret ← semihostingTrap host (.write fd memp)
  if ret < 0 then semihostingErrno host
  else return Int.bmod (memp.length - ret) (2 ^ w)

def semihostingPutc (ch : UInt8) : StateM Log Unit := do
  let _ ← semihostingTrap host (.writec ch)

def semihostingPuts (outfd : Int) (str : List UInt8) : StateM Log Unit := do
  if outfd < 0 then str.forM (semihostingPutc host)
  else
    let _ ← semihostingWrite host w outfd str

def semihostConsole (outfd : Int) : Device (StateM Log) where
  consolePutc := some (semihostingPutc host)
  consolePuts := some (semihostingPuts host w outfd)

def nputsLog (outfd : Int) (log : Log) (str : List UInt8) : Log :=
  ((Device.nputs (some (semihostConsole host w outfd)) str).run log).2

/-! ## Opening -/

def MODE_WRITE : Nat := 4

def semihostingOpen (fname : List UInt8) (mode : Nat) : StateM Log Int := do
  let fd ← semihostingTrap host (.open fname mode fname.length)
  if fd = -1 then semihostingErrno host
  else return fd

/-- `semihosting_serial_init`, `enabled` being what `semihosting_test` returns: the code
returned, `semihosting_outfd` and the console. -/
def semihostingSerialInit {Dev : Type} (enabled : Bool) (dev : Dev) (outfd : Int)
    (con : Console Dev) : StateM Log (Int × Int × Console Dev) := do
  if ¬enabled then return (-Fdt.ENODEV, outfd, con)
  let outfd ← semihostingOpen host (chars ":tt") MODE_WRITE
  return (0, outfd, zstageConsoleSetDevice con (some dev))

/-! ## What the host has accepted -/

theorem accepted_append (log log' : Log) : accepted (log ++ log') = accepted log ++ accepted log' :=
  List.flatMap_append

/-- A reply to `SYSWRITE` that says that nothing is left; other requests accept all. -/
def Event.Complete : Event → Prop
  | (.write _ memp, r) => memp = [] ∨ r = 0
  | _ => True

theorem write_accepted_eq_iff (fd : Int) (memp : List UInt8) (r : Int) :
    Event.accepted (.write fd memp, r) = memp ↔ memp = [] ∨ r = 0 := by
  rw [Event.accepted]
  constructor
  · intro h
    by_cases hneg : r < 0
    · rw [if_pos hneg] at h
      exact .inl h.symm
    have hlen := congrArg List.length h
    rw [if_neg hneg, List.length_take] at hlen
    rcases Nat.eq_zero_or_pos memp.length with hempty | hpos
    · exact .inl (List.eq_nil_of_length_eq_zero hempty)
    · exact .inr (by omega)
  · rintro (rfl | rfl)
    · simp
    · simp

section Traps

variable {host}

theorem trap_bind {α : Type} (sys : Sys) (next : Int → StateM Log α) (log : Log) :
    (semihostingTrap host sys >>= next).run log =
      (next (int (host log sys))).run (log ++ [(sys, host log sys)]) := rfl

theorem errno_log (log : Log) :
    ((semihostingErrno host).run log).2 = log ++ [(.errno, host log .errno)] := by
  rw [semihostingErrno, trap_bind]
  split <;> rfl

end Traps

theorem putcs_log (str : List UInt8) (log : Log) : ∃ events : Log,
    ((str.forM (semihostingPutc host)).run log).2 = log ++ events ∧ accepted events = str ∧
      ∀ e ∈ events, e.Complete := by
  induction str generalizing log with
  | nil => exact ⟨[], (List.append_nil log).symm, rfl, nofun⟩
  | cons ch str ih =>
    obtain ⟨events, hlog, haccepted, hcomplete⟩ := ih (log ++ [(.writec ch, host log (.writec ch))])
    refine ⟨(.writec ch, host log (.writec ch)) :: events, ?_, ?_, ?_⟩
    · rw [List.append_cons, ← hlog]
      rfl
    · rw [accepted, List.flatMap_cons, ← accepted, haccepted]
      rfl
    · intro e he
      rcases List.mem_cons.1 he with rfl | he
      · trivial
      · exact hcomplete e he

/-- One request, and another one for the error if the reply is negative as an `int`. -/
theorem write_log (fd : Int) (memp : List UInt8) (log : Log) : ∃ events : Log,
    ((semihostingWrite host w fd memp).run log).2 =
        log ++ (.write fd memp, host log (.write fd memp)) :: events ∧
      accepted events = [] ∧ ∀ e ∈ events, e.Complete := by
  rw [semihostingWrite, trap_bind]
  split
  · refine ⟨_, (errno_log _).trans (List.append_assoc _ _ _), rfl, ?_⟩
    intro e he
    rw [List.mem_singleton.1 he]
    trivial
  · exact ⟨[], rfl, rfl, nofun⟩

theorem write_accepted_prefix (fd : Int) (memp : List UInt8) (r : Int) :
    Event.accepted (.write fd memp, r) <+: memp := by
  rw [Event.accepted]
  split
  · exact List.nil_prefix
  · exact List.take_prefix _ _

/-- The requests of `nputs` pass on a first part of the text, and all of it exactly when
no `SYSWRITE` among them leaves something over. -/
theorem nputs_log (outfd : Int) (log : Log) (str : List UInt8) : ∃ events : Log,
    nputsLog host w outfd log str = log ++ events ∧ accepted events <+: str ∧
      (accepted events = str ↔ ∀ e ∈ events, e.Complete) ∧
      (accepted events = str ↔
        outfd < 0 ∨ str = [] ∨ host log (.write outfd str) = 0) := by
  by_cases hclosed : outfd < 0
  · obtain ⟨events, hlog, haccepted, hcomplete⟩ := putcs_log host str log
    refine ⟨events, ?_, ?_, iff_of_true haccepted hcomplete, iff_of_true haccepted (.inl hclosed)⟩
    · show ((semihostingPuts host w outfd str).run log).2 = _
      rw [semihostingPuts, if_pos hclosed, hlog]
    · exact haccepted ▸ List.prefix_refl str
  · obtain ⟨events, hlog, haccepted, hcomplete⟩ := write_log host w outfd str log
    have hevents : accepted ((.write outfd str, host log (.write outfd str)) :: events) =
        Event.accepted (.write outfd str, host log (.write outfd str)) := by
      rw [accepted, List.flatMap_cons, ← accepted, haccepted, List.append_nil]
    refine ⟨(.write outfd str, host log (.write outfd str)) :: events, ?_, ?_, ?_, ?_⟩
    · rw [← hlog]
      show ((semihostingPuts host w outfd str).run log).2 = _
      rw [semihostingPuts, if_neg hclosed]
      rfl
    · rw [hevents]
      exact write_accepted_prefix outfd str _
    · rw [hevents, write_accepted_eq_iff, List.forall_mem_cons]
      exact (and_iff_left hcomplete).symm
    · rw [hevents, write_accepted_eq_iff, or_iff_right hclosed]

/-- Over any sequence of texts no byte is repeated or out of order, and none is lost
exactly when every `SYSWRITE` leaves nothing over. -/
theorem texts_log (outfd : Int) (texts : List (List UInt8)) (log : Log) : ∃ events : Log,
    texts.foldl (nputsLog host w outfd) log = log ++ events ∧
      (accepted events).Sublist texts.flatten ∧
      (accepted events = texts.flatten ↔ ∀ e ∈ events, e.Complete) := by
  induction texts generalizing log with
  | nil => exact ⟨[], (List.append_nil log).symm, .refl _, iff_of_true rfl nofun⟩
  | cons str texts ih =>
    obtain ⟨first, hfirst, hprefix, hstr, -⟩ := nputs_log host w outfd log str
    obtain ⟨rest, hrest, hsub, htexts⟩ := ih (log ++ first)
    refine ⟨first ++ rest, ?_, ?_, ?_⟩
    · rw [List.foldl_cons, hfirst, hrest, List.append_assoc]
    · rw [accepted_append, List.flatten_cons]
      exact hprefix.sublist.append hsub
    · rw [accepted_append, List.flatten_cons, List.forall_mem_append, ← hstr, ← htexts]
      constructor
      · intro h
        -- neither part is longer than its text, so both have its length
        have hlen := congrArg List.length h
        rw [List.length_append, List.length_append] at hlen
        have hlen₁ := hprefix.length_le
        have hlen₂ := hsub.length_le
        exact List.append_inj h (by omega)
      · rintro ⟨hfst, hsnd⟩
        rw [hfst, hsnd]

/-- `nputs` on the semihosting console passes on the whole text exactly when its only
`SYSWRITE` leaves nothing over: the count that `semihosting_write` returns is not used. -/
theorem nputs_accepted_iff (outfd : Int) (log : Log) (str : List UInt8) :
    accepted (nputsLog host w outfd log str) = accepted log ++ str ↔
      outfd < 0 ∨ str = [] ∨ host log (.write outfd str) = 0 := by
  obtain ⟨events, hlog, -, -, hiff⟩ := nputs_log host w outfd log str
  rw [hlog, accepted_append, List.append_cancel_left_eq, hiff]

/-- A reply to `SYSWRITE` that is no error and leaves a first byte accepted. -/
def Event.Progress : Event → Prop
  | (.write _ memp, r) => 0 ≤ r ∧ (r < memp.length ∨ memp = [] ∧ r = 0)
  | _ => True

/-- A host that leaves one byte of every `SYSWRITE` over. -/
theorem short_write_lost :
    (∀ e ∈ nputsLog (fun _ _ => 1) 64 1 [] (chars "abc"), e.Progress) ∧
      accepted (nputsLog (fun _ _ => 1) 64 1 [] (chars "abc")) ≠ chars "abc" := by
  constructor
  · intro e he
    have hone : e ∈ [((Sys.write 1 (chars "abc"), 1) : Event)] := he
    rw [List.mem_singleton.1 hone]
    exact ⟨by decide, .inl (by decide)⟩
  · decide

section Replies

variable {host w}

theorem semihostingOpen_nonneg (fname : List UInt8) (mode : Nat) (log : Log) :
    0 ≤ ((semihostingOpen host fname mode).run log).1 ↔
      0 ≤ int (host log (.open fname mode fname.length)) := by
  rw [semihostingOpen, trap_bind]
  split
  · next hfd =>
    rw [hfd, semihostingErrno, trap_bind]
    refine iff_of_false ?_ (by decide)
    split
    · next hpos => exact Int.not_le.2 (Int.neg_neg_of_pos hpos)
    · exact Int.not_le.2 (by decide : - EIO < 0)
  · exact Iff.rfl

theorem open_accepted (fname : List UInt8) (mode : Nat) (log : Log) :
    accepted ((semihostingOpen host fname mode).run log).2 = accepted log := by
  rw [semihostingOpen, trap_bind]
  split
  · rw [errno_log, accepted_append, accepted_append]
    simp [accepted, Event.accepted]
  · show accepted (log ++ _) = _
    rw [accepted_append]
    simp [accepted, Event.accepted]

theorem texts_without_descriptor {outfd : Int} (hclosed : outfd < 0) (texts : List (List UInt8))
    (log : Log) :
    accepted (texts.foldl (nputsLog host w outfd) log) = accepted log ++ texts.flatten := by
  induction texts generalizing log with
  | nil => exact (List.append_nil _).symm
  | cons str texts ih =>
    obtain ⟨events, hlog, -, -, hiff⟩ := nputs_log host w outfd log str
    rw [List.foldl_cons, ih, hlog, accepted_append, hiff.2 (.inl hclosed), List.flatten_cons,
      List.append_assoc]

/-- From the opening of the console on, whatever the host replies: over any sequence of texts
no byte is repeated or out of order, and none is lost exactly when every `SYSWRITE` leaves
nothing over. A host that opens no descriptor gets every text whole. -/
theorem console_texts_accepted {Dev : Type} (dev : Dev) (outfd : Int) (con : Console Dev)
    (log : Log) (texts : List (List UInt8)) :
    let out := (semihostingSerialInit host true dev outfd con).run log
    ∃ events : Log, texts.foldl (nputsLog host w out.1.2.1) out.2 = out.2 ++ events ∧
      accepted out.2 = accepted log ∧ (accepted events).Sublist texts.flatten ∧
      (accepted events = texts.flatten ↔ ∀ e ∈ events, e.Complete) ∧
      (int (host log (.open (chars ":tt") MODE_WRITE 3)) < 0 →
        accepted events = texts.flatten) := by
  intro out
  obtain ⟨events, hlog, hsub, hiff⟩ := texts_log host w out.1.2.1 texts out.2
  refine ⟨events, hlog, open_accepted (chars ":tt") MODE_WRITE log, hsub, hiff, fun hopen => ?_⟩
  have hclosed : out.1.2.1 < 0 :=
    Int.not_le.1 (mt (semihostingOpen_nonneg (chars ":tt") MODE_WRITE log).1 (Int.not_le.2 hopen))
  have hwhole : accepted (texts.foldl (nputsLog host w out.1.2.1) out.2) =
      accepted out.2 ++ texts.flatten := texts_without_descriptor hclosed texts out.2
  rw [hlog, accepted_append, List.append_cancel_left_eq] at hwhole
  exact hwhole

end Replies

end ZStage.Serial.Semihosting
