import Mathlib.Logic.Relation
import ZStage.Serial.FdtSerialHtif
import ZStage.Serial.Htif

/-!
Which mailbox words the HTIF driver uses. `htif_serial_init` selects a pair of words
once, and `htif_putc` goes to the words that the accessors name; on RV32 it is a proxy
call with a loop of its own, which reads and clears the built-in `fromhost`. A run
mixes initialisations and calls of `htif_putc`, and the host may change every word
between any two accesses.

An access on RV32 stands for the two halves of its word.
-/

namespace ZStage.Serial.Htif

variable {w : Nat} {Dev : Type}

/-! ## The driver -/

inductive Xlen
  | rv32
  | rv64
  deriving DecidableEq, Repr

/-- The pair that a call of `htif_serial_init` names. -/
def customPair (args : HtifArgs w) : Symbols w :=
  ⟨args.customTohostAddr, args.customFromhostAddr⟩

/-- `set_custom_addr`: the code returned and the statics. -/
def setCustomAddr (st : Statics w) (args : HtifArgs w) : Int × Statics w :=
  if args.customAddr then
    if st.htifCustom ∧ (args.customFromhostAddr ≠ st.htifFromhost ∨
        args.customTohostAddr ≠ st.htifTohost) then (-Fdt.EINVAL, st)
    else
      (0, { st with
        htifFromhost := args.customFromhostAddr
        htifTohost := args.customTohostAddr
        htifCustom := true })
  else (0, st)

def htifSerialInit (dev : Dev) (st : Statics w) (con : Console Dev) (args : HtifArgs w) :
    Int × Statics w × Console Dev :=
  let rc := setCustomAddr st args
  if rc.1 ≠ 0 then (rc.1, rc.2, con) else (0, rc.2, zstageConsoleSetDevice con (some dev))

def HTIF_DEV_SYSTEM : UInt64 := 0
def PK_SYS_write : UInt64 := 64

/-- `__set_tohost(dev, cmd, data)` on RV32: `TOHOST_CMD` is the payload, with a trap unless
device and command are zero. -/
def setTohost32 (sym : Symbols w) (st : Statics w) (dev cmd data : UInt64) :
    SetPc → Access w (Next w (Statics w × SetPc))
  | .test => readTohost sym st fun v =>
      if v = 0 then if dev ≠ 0 ∨ cmd ≠ 0 then .trap else .goto (st, .write)
      else .goto (st, .check .read)
  | pc => setTohost sym st data pc

/-- Before which access `do_tohost_fromhost` stands. -/
inductive DoPc
  | set (pc : SetPc)
  | poll
  | clear
  | check (pc : CheckPc)
  deriving DecidableEq, Repr

/-- `do_tohost_fromhost(dev, cmd, data)`; the first argument is not used. The loop accesses the
symbol `fromhost` itself. -/
def doTohostFromhost (sym : Symbols w) (st : Statics w) (cmd data : UInt64) :
    DoPc → Access w (Next w (Statics w × DoPc))
  | .set pc => (setTohost32 sym st HTIF_DEV_SYSTEM cmd data pc).map fun next =>
      match next with
      | .goto (st, pc) => .goto (st, .set pc)
      | .ret st => .goto (st, .poll)
      | .trap => .trap
  | .poll => .load sym.fromhost fun fh =>
      if fh = 0 then .goto (st, .poll)
      else if fromhostDev fh = HTIF_DEV_SYSTEM ∧ fromhostCmd fh = cmd then .goto (st, .clear)
      else .goto (st, .check .read)
  | .clear => .store sym.fromhost 0 (.ret st)
  | .check pc => (checkFromhost sym st pc).map fun next =>
      match next with
      | .goto pc => .goto (st, .check pc)
      | .ret st => .goto (st, .poll)
      | .trap => .trap

/-- Where the compiler puts `magic_mem` and `ch`. -/
structure Frame (w : Nat) where
  magicMem : BitVec w
  ch : BitVec w

/-- `magic_mem[k]` of the proxy write call. -/
def magicWord (frame : Frame w) : Fin 4 → UInt64
  | 0 => PK_SYS_write
  | 1 => HTIF_DEV_CONSOLE
  | 2 => UInt64.ofNat frame.ch.toNat
  | 3 => HTIF_CONSOLE_CMD_PUTC

inductive PutcPc
  | set (pc : SetPc)
  | magic (k : Fin 4)
  | proxy (pc : DoPc)
  deriving DecidableEq, Repr

def PutcPc.start : Xlen → PutcPc
  | .rv64 => .set .test
  | .rv32 => .magic 0

/-- `htif_putc` of both register sizes. -/
def putcAccess (sym : Symbols w) (st : Statics w) (ch : UInt8) (frame : Frame w) :
    PutcPc → Access w (Next w (Statics w × PutcPc))
  | .set pc => (htifPutc sym st ch pc).map fun next =>
      match next with
      | .goto (st, pc) => .goto (st, .set pc)
      | .ret st => .ret st
      | .trap => .trap
  | .magic k => .store (frame.magicMem + BitVec.ofNat w (8 * k.val)) (magicWord frame k)
      (if k = 3 then .goto (st, .proxy (.set .test)) else .goto (st, .magic (k + 1)))
  | .proxy pc =>
      (doTohostFromhost sym st 0 (UInt64.ofNat frame.magicMem.toNat) pc).map fun next =>
        match next with
        | .goto (st, pc) => .goto (st, .proxy pc)
        | .ret st => .ret st
        | .trap => .trap

/-! ## Runs -/

inductive Word
  | tohost
  | fromhost
  deriving DecidableEq, Repr

def Symbols.addr (sym : Symbols w) : Word → BitVec w
  | .tohost => sym.tohost
  | .fromhost => sym.fromhost

/-- The word that the next access goes to, as the source names it. -/
def SetPc.word : SetPc → Word
  | .test | .write => .tohost
  | .check _ => .fromhost

def DoPc.word : DoPc → Word
  | .set pc => pc.word
  | .poll | .clear | .check _ => .fromhost

/-- The words of `magic_mem` are no mailbox words. -/
def PutcPc.word : PutcPc → Option Word
  | .set pc => some pc.word
  | .magic _ => none
  | .proxy pc => some pc.word

/-- Where the hart stands: between two calls, in `htif_putc`, or in the trap. -/
inductive HartPc (w : Nat)
  | idle
  | putc (ch : UInt8) (frame : Frame w) (pc : PutcPc)
  | trapped

/-- The words, the driver, the console, and the custom pairs given so far. -/
structure Mailbox (w : Nat) (Dev : Type) where
  mem : Mailboxes w
  statics : Statics w
  console : Console Dev
  pc : HartPc w
  given : List (Symbols w)

/-- The pair in use: the first custom pair ever given, or the built-in pair. -/
def pairInUse (sym : Symbols w) (given : List (Symbols w)) : Symbols w := given.head?.getD sym

def Mailbox.access (sym : Symbols w) (s : Mailbox w Dev) (ch : UInt8) (frame : Frame w)
    (pc : PutcPc) : Mailbox w Dev :=
  let out := (putcAccess sym s.statics ch frame pc).run s.mem
  let s := { s with mem := out.2 }
  match out.1 with
  | .goto (statics, pc) => { s with statics := statics, pc := .putc ch frame pc }
  | .ret statics => { s with statics := statics, pc := .idle }
  | .trap => { s with pc := .trapped }

/-- A call of `htif_serial_init`. -/
def Mailbox.init (dev : Dev) (s : Mailbox w Dev) (args : HtifArgs w) : Mailbox w Dev :=
  let out := htifSerialInit dev s.statics s.console args
  { s with
    statics := out.2.1
    console := out.2.2
    given := s.given ++ if args.customAddr then [customPair args] else [] }

/-- A step of the hart or of the host; `ok` is a condition on the calls of `htif_putc`. -/
inductive MailboxStep (x : Xlen) (sym : Symbols w) (dev : Dev) (ok : Mailbox w Dev → Prop)
    (s : Mailbox w Dev) : Mailbox w Dev → Prop
  | init (args : HtifArgs w) (h : s.pc = .idle) : MailboxStep x sym dev ok s (s.init dev args)
  | call (ch : UInt8) (frame : Frame w) (h : s.pc = .idle) (hok : ok s) :
      MailboxStep x sym dev ok s { s with pc := .putc ch frame (.start x) }
  | access {ch : UInt8} {frame : Frame w} {pc : PutcPc} (h : s.pc = .putc ch frame pc) :
      MailboxStep x sym dev ok s (s.access sym ch frame pc)
  | host (mem : Mailboxes w) : MailboxStep x sym dev ok s { s with mem := mem }

abbrev MailboxRun (x : Xlen) (sym : Symbols w) (dev : Dev) (ok : Mailbox w Dev → Prop) :
    Mailbox w Dev → Mailbox w Dev → Prop :=
  Relation.ReflTransGen (MailboxStep x sym dev ok)

structure Mailbox.Initial (s : Mailbox w Dev) : Prop where
  custom : s.statics.htifCustom = false
  given : s.given = []
  pc : s.pc = .idle

section Selection

variable (sym : Symbols w)

def selected (st : Statics w) : Symbols w := ⟨tohostAddr sym st, fromhostAddr sym st⟩

def Selects (st : Statics w) (given : List (Symbols w)) : Prop :=
  match given.head? with
  | none => st.htifCustom = false
  | some pair => st.htifCustom = true ∧ pair = ⟨st.htifTohost, st.htifFromhost⟩

theorem Selects.eq {st : Statics w} {given : List (Symbols w)} (h : Selects st given) :
    selected sym st = pairInUse sym given := by
  unfold Selects at h
  unfold selected pairInUse tohostAddr fromhostAddr
  cases hgiven : given.head? with
  | none =>
    simp only [hgiven] at h
    simp [h]
  | some pair =>
    simp only [hgiven] at h
    simp [h.1, h.2]

/-- The pair selected is the only thing that depends on what is in use. -/
theorem Selects.congr {st st' : Statics w} {given : List (Symbols w)} (h : Selects st given)
    (hcustom : st'.htifCustom = st.htifCustom) (htohost : st'.htifTohost = st.htifTohost)
    (hfromhost : st'.htifFromhost = st.htifFromhost) : Selects st' given := by
  unfold Selects at h ⊢
  rw [hcustom, htohost, hfromhost]
  exact h

theorem Selects.setCustomAddr {st : Statics w} {given : List (Symbols w)} (h : Selects st given)
    (args : HtifArgs w) :
    Selects (setCustomAddr st args).2
      (given ++ if args.customAddr then [customPair args] else []) := by
  cases hcustom : args.customAddr with
  | false => simpa [Htif.setCustomAddr, hcustom] using h
  | true =>
    cases given with
    | nil =>
      have hfree : st.htifCustom = false := h
      simp [Htif.setCustomAddr, hcustom, hfree, Selects, customPair]
    | cons pair rest =>
      obtain ⟨hset, hpair⟩ := h
      show Selects _ (pair :: (rest ++ _))
      simp only [Htif.setCustomAddr, hcustom, hset, if_true, true_and]
      split
      · exact ⟨hset, hpair⟩
      · rename_i hsame
        obtain ⟨hfrom, hto⟩ := not_or.1 hsame
        refine ⟨rfl, ?_⟩
        rw [hpair, not_not.1 hfrom, not_not.1 hto]

/-- A conflicting pair is refused, with the pair in use and the console as they were. -/
theorem htifSerialInit_refuses (dev : Dev) {st : Statics w} {given : List (Symbols w)}
    (h : Selects st given) (con : Console Dev) (args : HtifArgs w)
    (hcustom : args.customAddr = true) (hgiven : given ≠ [])
    (hpair : customPair args ≠ pairInUse sym given) :
    htifSerialInit dev st con args = (-Fdt.EINVAL, st, con) := by
  cases given with
  | nil => exact absurd rfl hgiven
  | cons pair rest =>
    obtain ⟨hset, rfl⟩ := h
    have hconflict : args.customFromhostAddr ≠ st.htifFromhost ∨
        args.customTohostAddr ≠ st.htifTohost := by
      by_contra hsame
      obtain ⟨hfrom, hto⟩ := not_or.1 hsame
      apply hpair
      simp [customPair, pairInUse, not_not.1 hfrom, not_not.1 hto]
    have hrc : setCustomAddr st args = (-Fdt.EINVAL, st) := by
      rw [setCustomAddr, if_pos hcustom, if_pos ⟨hset, hconflict⟩]
    have hne : -Fdt.EINVAL ≠ 0 := by decide
    simp only [htifSerialInit, hrc, hne, ne_eq, not_false_eq_true, if_true]

end Selection

/-! ## Accesses -/

section Accesses

variable (sym : Symbols w)

/-- What every outcome of an access that is no trap leaves of the statics. -/
def Next.All {Pc : Type} (p : Statics w → Prop) : Next w (Statics w × Pc) → Prop
  | .goto (st, _) => p st
  | .ret st => p st
  | .trap => True

def SamePair (st st' : Statics w) : Prop :=
  st'.htifCustom = st.htifCustom ∧ st'.htifTohost = st.htifTohost ∧
    st'.htifFromhost = st.htifFromhost

theorem SamePair.refl (st : Statics w) : SamePair st st := ⟨rfl, rfl, rfl⟩

theorem all_map {Pc Pc' : Type} {p : Statics w → Prop} {mem : Mailboxes w}
    {a : Access w (Next w (Statics w × Pc))}
    {f : Next w (Statics w × Pc) → Next w (Statics w × Pc')} (h : (a.run mem).1.All p)
    (hf : ∀ next, next.All p → (f next).All p) : ((a.map f).run mem).1.All p := by
  rw [Access.run_map]
  exact hf _ h

theorem checkFromhost_keeps {st st' : Statics w} {mem : Mailboxes w} {pc : CheckPc}
    (h : ((checkFromhost sym st pc).run mem).1 = .ret st') : SamePair st st' := by
  cases pc with
  | read =>
    simp only [checkFromhost, readFromhost, Access.run] at h
    split at h
    · cases h
      exact .refl st
    · cases h
  | clear fh =>
    simp only [checkFromhost, writeFromhost, Access.run] at h
    split at h
    · cases h
    · split at h
      · cases h
        exact ⟨rfl, rfl, rfl⟩
      · split at h
        · cases h
          exact .refl st
        · cases h

theorem checkFromhost_map_keeps {Pc : Type} {st : Statics w} {mem : Mailboxes w} {pc : CheckPc}
    {f : Next w CheckPc → Next w (Statics w × Pc)} (hgoto : ∀ pc, (f (.goto pc)).All (SamePair st))
    (hret : ∀ st', SamePair st st' → (f (.ret st')).All (SamePair st))
    (htrap : (f .trap).All (SamePair st)) :
    (((checkFromhost sym st pc).map f).run mem).1.All (SamePair st) := by
  rw [Access.run_map]
  cases hnext : ((checkFromhost sym st pc).run mem).1 with
  | goto pc => exact hgoto pc
  | ret st' => exact hret st' (checkFromhost_keeps sym hnext)
  | trap => exact htrap

theorem setTohost_keeps (st : Statics w) (mem : Mailboxes w) (val : UInt64) (pc : SetPc) :
    ((setTohost sym st val pc).run mem).1.All (SamePair st) := by
  cases pc with
  | test => exact .refl st
  | write => exact .refl st
  | check pc =>
    rw [setTohost]
    refine checkFromhost_map_keeps sym ?_ ?_ trivial
    · exact fun _ => SamePair.refl st
    · exact fun _ hkept => hkept

theorem setTohost32_keeps (st : Statics w) (mem : Mailboxes w) (dev cmd data : UInt64)
    (pc : SetPc) : ((setTohost32 sym st dev cmd data pc).run mem).1.All (SamePair st) := by
  cases pc with
  | test =>
    simp only [setTohost32, readTohost, Access.run]
    split
    · split
      · trivial
      · exact .refl st
    · exact .refl st
  | write => exact setTohost_keeps sym st mem data .write
  | check pc => exact setTohost_keeps sym st mem data (.check pc)

theorem doTohostFromhost_keeps (st : Statics w) (mem : Mailboxes w) (cmd data : UInt64)
    (pc : DoPc) : ((doTohostFromhost sym st cmd data pc).run mem).1.All (SamePair st) := by
  cases pc with
  | set pc =>
    rw [doTohostFromhost]
    refine all_map (setTohost32_keeps sym st mem HTIF_DEV_SYSTEM cmd data pc) ?_
    intro next hkeeps
    cases next <;> exact hkeeps
  | poll =>
    simp only [doTohostFromhost, Access.run]
    split
    · exact .refl st
    · split <;> exact .refl st
  | clear => exact .refl st
  | check pc =>
    rw [doTohostFromhost]
    refine checkFromhost_map_keeps sym ?_ ?_ trivial
    · exact fun _ => SamePair.refl st
    · exact fun _ hkept => hkept

theorem putcAccess_keeps (st : Statics w) (mem : Mailboxes w) (ch : UInt8) (frame : Frame w)
    (pc : PutcPc) : ((putcAccess sym st ch frame pc).run mem).1.All (SamePair st) := by
  cases pc with
  | set pc =>
    rw [putcAccess, htifPutc]
    refine all_map (setTohost_keeps sym st mem _ pc) ?_
    intro next hkeeps
    cases next <;> exact hkeeps
  | magic k =>
    simp only [putcAccess, Access.run]
    split <;> exact .refl st
  | proxy pc =>
    rw [putcAccess]
    refine all_map (doTohostFromhost_keeps sym st mem 0 _ pc) ?_
    intro next hkeeps
    cases next <;> exact hkeeps

theorem setTohost_addr (st : Statics w) (val : UInt64) (pc : SetPc) :
    (setTohost sym st val pc).addr = (selected sym st).addr pc.word := by
  cases pc with
  | test => rfl
  | write => rfl
  | check pc => cases pc <;> rfl

/-- The loop of `do_tohost_fromhost` goes to the built-in word, every other access to the
selected one. -/
theorem doTohostFromhost_addr (st : Statics w) (cmd data : UInt64) (pc : DoPc) :
    (doTohostFromhost sym st cmd data pc).addr =
      if pc = .poll ∨ pc = .clear then sym.fromhost else (selected sym st).addr pc.word := by
  cases pc with
  | set pc =>
    cases pc with
    | test => rfl
    | write => rfl
    | check pc => cases pc <;> rfl
  | poll => rfl
  | clear => rfl
  | check pc => cases pc <;> rfl

end Accesses

/-! ## The pair in use over runs -/

section Runs

/-- What an access does to the record: the pairs given stay, the call goes on or ends, and the
statics change in the buffered character only. -/
theorem access_cases (sym : Symbols w) (s : Mailbox w Dev) (ch : UInt8) (frame : Frame w)
    (pc : PutcPc) :
    (s.access sym ch frame pc).given = s.given ∧
      SamePair s.statics (s.access sym ch frame pc).statics ∧
      ∀ ch' frame' pc', (s.access sym ch frame pc).pc = .putc ch' frame' pc' →
        ∃ st', ((putcAccess sym s.statics ch frame pc).run s.mem).1 = .goto (st', pc') := by
  have hkeeps := putcAccess_keeps sym s.statics s.mem ch frame pc
  simp only [Mailbox.access]
  cases hnext : ((putcAccess sym s.statics ch frame pc).run s.mem).1 with
  | goto next =>
    rw [hnext] at hkeeps
    refine ⟨rfl, hkeeps, ?_⟩
    rintro ch' frame' pc' ⟨⟩
    exact ⟨next.1, rfl⟩
  | ret st' =>
    rw [hnext] at hkeeps
    exact ⟨rfl, hkeeps, nofun⟩
  | trap => exact ⟨rfl, .refl s.statics, nofun⟩

variable {x : Xlen} {sym : Symbols w} {dev : Dev} {ok : Mailbox w Dev → Prop}

theorem putcAccess_set {st st' : Statics w} {mem : Mailboxes w} {ch : UInt8} {frame : Frame w}
    {pc : SetPc} {pc' : PutcPc}
    (h : ((putcAccess sym st ch frame (.set pc)).run mem).1 = .goto (st', pc')) :
    ∃ p, pc' = .set p := by
  rw [putcAccess, Access.run_map] at h
  cases hnext : ((htifPutc sym st ch pc).run mem).1 with
  | goto next =>
    rw [hnext] at h
    cases h
    exact ⟨next.2, rfl⟩
  | ret st' =>
    rw [hnext] at h
    cases h
  | trap =>
    rw [hnext] at h
    cases h

/-- The statics select the pair in use, and a call on RV64 is in `__set_tohost`. -/
structure MailboxInv (x : Xlen) (s : Mailbox w Dev) : Prop where
  selects : Selects s.statics s.given
  variant : ∀ ch frame pc, s.pc = .putc ch frame pc → x = .rv64 → ∃ p, pc = .set p

theorem Mailbox.Initial.inv {s : Mailbox w Dev} (h : s.Initial) : MailboxInv x s where
  selects := by
    rw [h.given]
    exact h.custom
  variant := by
    intro ch frame pc hpc
    rw [h.pc] at hpc
    cases hpc

theorem MailboxInv.step {s t : Mailbox w Dev} (hinv : MailboxInv x s)
    (hstep : MailboxStep x sym dev ok s t) : MailboxInv x t := by
  cases hstep with
  | init args hidle =>
    constructor
    · have hset := hinv.selects.setCustomAddr args
      simp only [Mailbox.init, htifSerialInit]
      split <;> exact hset
    · intro ch frame pc hpc
      simp only [Mailbox.init, hidle] at hpc
      cases hpc
  | call ch frame hidle hok =>
    refine ⟨hinv.selects, ?_⟩
    rintro ch' frame' pc ⟨⟩ rfl
    exact ⟨.test, rfl⟩
  | @access ch frame pc hpc =>
    obtain ⟨hgiven, hsame, hgoes⟩ := access_cases sym s ch frame pc
    constructor
    · rw [hgiven]
      exact hinv.selects.congr hsame.1 hsame.2.1 hsame.2.2
    · intro ch' frame' pc' hpc' hx
      obtain ⟨st', hnext⟩ := hgoes ch' frame' pc' hpc'
      obtain ⟨p, rfl⟩ := hinv.variant ch frame pc hpc hx
      exact putcAccess_set hnext
  | host mem => exact ⟨hinv.selects, hinv.variant⟩

theorem MailboxRun.inv {s t : Mailbox w Dev} (hinit : s.Initial)
    (hrun : MailboxRun x sym dev ok s t) : MailboxInv x t := by
  induction hrun with
  | refl => exact hinit.inv
  | tail _ hstep ih => exact ih.step hstep

/-- The next access to a mailbox word is to the pair in use. -/
def Mailbox.AccessInUse (sym : Symbols w) (s : Mailbox w Dev) : Prop :=
  ∀ ch frame pc word, s.pc = .putc ch frame pc → pc.word = some word →
    (putcAccess sym s.statics ch frame pc).addr = (pairInUse sym s.given).addr word

/-- The hart is not in the loop of `do_tohost_fromhost`, or that loop's word is in use. -/
def Mailbox.LoopInUse (sym : Symbols w) (s : Mailbox w Dev) : Prop :=
  ∀ ch frame pc, s.pc = .putc ch frame (.proxy pc) → pc = .poll ∨ pc = .clear →
    (pairInUse sym s.given).fromhost = sym.fromhost

/-- In every state the loop of the proxy call is all that can miss the pair in use. -/
theorem accessInUse_iff {s : Mailbox w Dev} (hselects : Selects s.statics s.given) :
    s.AccessInUse sym ↔ s.LoopInUse sym := by
  have hpair := hselects.eq sym
  constructor
  · intro h ch frame pc hpc hloop
    have haddr := h ch frame (.proxy pc) .fromhost hpc (by rcases hloop with rfl | rfl <;> rfl)
    rw [putcAccess, Access.addr_map, doTohostFromhost_addr, if_pos hloop] at haddr
    exact haddr.symm
  · intro h ch frame pc word hpc hword
    cases pc with
    | set pc =>
      cases hword
      rw [putcAccess, Access.addr_map, htifPutc, setTohost_addr, hpair]
    | magic k => cases hword
    | proxy pc =>
      cases hword
      rw [putcAccess, Access.addr_map, doTohostFromhost_addr, hpair]
      split
      · rename_i hloop
        have huse := h ch frame pc hpc hloop
        rcases hloop with rfl | rfl <;> exact huse.symm
      · rfl

/-- On RV32 a call of `htif_putc` begins with the built-in `fromhost` in use. -/
def ProxyFits (x : Xlen) (sym : Symbols w) (s : Mailbox w Dev) : Prop :=
  x = .rv32 → (pairInUse sym s.given).fromhost = sym.fromhost

/-- In a run whose calls begin so, the loop of the proxy call misses nothing. -/
theorem MailboxRun.loopInUse {s t : Mailbox w Dev} (hinit : s.Initial)
    (hrun : MailboxRun x sym dev (ProxyFits x sym) s t) :
    ∀ ch frame pc, t.pc = .putc ch frame pc → ProxyFits x sym t := by
  induction hrun with
  | refl =>
    intro ch frame pc hpc
    rw [hinit.pc] at hpc
    cases hpc
  | @tail b _ _ hstep ih =>
    cases hstep with
    | init args hidle =>
      intro ch frame pc hpc
      simp only [Mailbox.init, hidle] at hpc
      cases hpc
    | call ch frame hidle hok => exact fun _ _ _ _ => hok
    | @access ch frame pc hpc =>
      intro _ _ _ _
      have hgiven := (access_cases sym b ch frame pc).1
      have hfits := ih ch frame pc hpc
      unfold ProxyFits at hfits ⊢
      rw [hgiven]
      exact hfits
    | host mem => exact ih

/-- In every run the pair in use is the one that the statics select, a conflicting pair is
refused without a trace, and only the loop of the proxy call can miss the pair; in every run
in which that call finds the built-in `fromhost` in use on RV32, no access misses it. -/
theorem traffic_in_use {s : Mailbox w Dev} (hinit : s.Initial) :
    (∀ t, MailboxRun x sym dev (fun _ => True) s t →
      selected sym t.statics = pairInUse sym t.given ∧
      (∀ args, args.customAddr = true → t.given ≠ [] → customPair args ≠ pairInUse sym t.given →
        htifSerialInit dev t.statics t.console args = (-Fdt.EINVAL, t.statics, t.console)) ∧
      (t.AccessInUse sym ↔ t.LoopInUse sym)) ∧
    ∀ t, MailboxRun x sym dev (ProxyFits x sym) s t → t.AccessInUse sym := by
  constructor
  · intro t hrun
    have hinv := hrun.inv hinit
    refine ⟨hinv.selects.eq sym, ?_, accessInUse_iff hinv.selects⟩
    intro args hcustom hgiven hpair
    exact htifSerialInit_refuses sym dev hinv.selects t.console args hcustom hgiven hpair
  · intro t hrun
    have hinv := hrun.inv hinit
    have hfits := hrun.loopInUse hinit
    rw [accessInUse_iff hinv.selects]
    intro ch frame pc hpc hloop
    cases x with
    | rv32 => exact hfits ch frame (.proxy pc) hpc rfl
    | rv64 =>
      obtain ⟨p, hp⟩ := hinv.variant ch frame (.proxy pc) hpc rfl
      cases hp

end Runs

/-! ## Runs on RV32 -/

def imageWords : Symbols 32 := ⟨0x80001000, 0x80001008⟩

/-- The statics and the words at boot. -/
def bootMailbox : Mailbox 32 Unit where
  mem := fun _ => 0
  statics := ⟨0, 0, false, 0⟩
  console := ⟨none⟩
  pc := .idle
  given := []

theorem bootMailbox_initial : bootMailbox.Initial := ⟨rfl, rfl, rfl⟩

/-- A call of `htif_putc` after a custom pair with the built-in `fromhost`. -/
def sharedFromhostCall : Mailbox 32 Unit :=
  { bootMailbox.init () ⟨true, 0x80001008, 0x9008⟩ with
    pc := .putc 65 ⟨0x80003000, 0x80003040⟩ (.start .rv32) }

theorem traffic_in_use_shared_fromhost :
    selected imageWords sharedFromhostCall.statics = ⟨0x9008, 0x80001008⟩ ∧
      htifSerialInit () sharedFromhostCall.statics sharedFromhostCall.console
          ⟨true, 0x9000, 0x9008⟩ =
        (-Fdt.EINVAL, sharedFromhostCall.statics, sharedFromhostCall.console) ∧
      sharedFromhostCall.AccessInUse imageWords := by
  have hcall {ok : Mailbox 32 Unit → Prop} (hok : ok (bootMailbox.init ()
      ⟨true, 0x80001008, 0x9008⟩)) :
      MailboxRun .rv32 imageWords () ok bootMailbox sharedFromhostCall :=
    (Relation.ReflTransGen.single (.init ⟨true, 0x80001008, 0x9008⟩ rfl)).tail
      (.call 65 _ rfl hok)
  obtain ⟨hevery, hfits⟩ := @traffic_in_use 32 Unit .rv32 imageWords () bootMailbox
    bootMailbox_initial
  obtain ⟨hselected, hrefused, -⟩ := hevery sharedFromhostCall (hcall trivial)
  refine ⟨hselected, ?_, hfits sharedFromhostCall (hcall fun _ => rfl)⟩
  refine hrefused ⟨true, 0x9000, 0x9008⟩ rfl (List.cons_ne_nil _ _) fun hpair => ?_
  exact absurd (congrArg Symbols.fromhost hpair) (by decide)

/-- The request goes to the custom pair, and the reply is awaited at the built-in word. -/
theorem reply_awaited_elsewhere : ∃ t : Mailbox 32 Unit, bootMailbox.Initial ∧
    MailboxRun .rv32 imageWords () (fun _ => True) bootMailbox t ∧
    ¬ t.AccessInUse imageWords := by
  let s := bootMailbox.init () ⟨true, 0x9000, 0x9008⟩
  let frame : Frame 32 := ⟨0x80003000, 0x80003040⟩
  have hcall : MailboxRun .rv32 imageWords () (fun _ => True) bootMailbox
      { s with pc := .putc 65 frame (.magic 0) } :=
    (Relation.ReflTransGen.single (.init ⟨true, 0x9000, 0x9008⟩ rfl)).tail
      (.call 65 frame rfl trivial)
  have hmagic := (((hcall.tail (.access rfl)).tail (.access rfl)).tail (.access rfl)).tail
    (.access rfl)
  have hset := (hmagic.tail (.access rfl)).tail (.access rfl)
  refine ⟨_, bootMailbox_initial, hset, ?_⟩
  intro huse
  have haddr := huse 65 frame (.proxy .poll) .fromhost rfl rfl
  exact absurd haddr (by decide)

end ZStage.Serial.Htif
