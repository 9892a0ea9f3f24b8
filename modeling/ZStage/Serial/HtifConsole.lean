import Mathlib.Logic.Relation
import ZStage.Serial.Htif

/-!
The HTIF console against a host that acts between any two accesses. The host takes a
non-zero `tohost` word and clears it, or stores a console reply into an empty
`fromhost`. What is kept beside memory and control is a record of both sides: the
characters given to `htif_putc` and those stored, the words that the host has taken and
stored, and the replies that the driver has cleared.
-/

namespace ZStage.Serial.Htif

variable {w : Nat} {sym : Symbols w}

/-! ## Fields -/

theorem tohostCmd_toNat {dev cmd payload : UInt64} (hdev : dev.toNat < 2 ^ 8)
    (hcmd : cmd.toNat < 2 ^ 8) (hpayload : payload.toNat < 2 ^ 48) :
    (tohostCmd dev cmd payload).toNat =
      (dev.toNat * 2 ^ 8 + cmd.toNat) * 2 ^ 48 + payload.toNat := by
  have hcmd' : cmd.toNat <<< 48 % 2 ^ 64 = cmd.toNat * 2 ^ 48 := by
    rw [Nat.shiftLeft_eq, Nat.mod_eq_of_lt (by omega)]
  have hdev' : dev.toNat <<< 56 % 2 ^ 64 = dev.toNat <<< 8 <<< 48 := by
    rw [Nat.shiftLeft_eq, Nat.shiftLeft_eq, Nat.shiftLeft_eq, Nat.mod_eq_of_lt (by omega)]
    omega
  have hfields : dev.toNat <<< 8 ||| cmd.toNat = dev.toNat * 2 ^ 8 + cmd.toNat := by
    rw [← Nat.shiftLeft_add_eq_or_of_lt hcmd, Nat.shiftLeft_eq]
  have hsplit : dev.toNat <<< 8 <<< 48 ||| cmd.toNat * 2 ^ 48 =
      (dev.toNat * 2 ^ 8 + cmd.toNat) <<< 48 := by
    rw [← Nat.shiftLeft_eq, ← Nat.shiftLeft_or_distrib, hfields]
  show ((dev <<< HTIF_DEV_SHIFT) ||| (cmd <<< HTIF_CMD_SHIFT) ||| payload).toNat = _
  rw [UInt64.toNat_or, UInt64.toNat_or, UInt64.toNat_shiftLeft, UInt64.toNat_shiftLeft]
  show dev.toNat <<< 56 % 2 ^ 64 ||| cmd.toNat <<< 48 % 2 ^ 64 ||| payload.toNat = _
  rw [hcmd', hdev', hsplit, ← Nat.shiftLeft_add_eq_or_of_lt hpayload, Nat.shiftLeft_eq]

/-- The device, command and data of a word. -/
def decode (word : UInt64) : UInt64 × UInt64 × UInt64 :=
  (fromhostDev word, fromhostCmd word, fromhostData word)

theorem decode_toNat (word : UInt64) :
    (fromhostDev word).toNat = word.toNat / 2 ^ 56 % 2 ^ 8 ∧
      (fromhostCmd word).toNat = word.toNat / 2 ^ 48 % 2 ^ 8 ∧
      (fromhostData word).toNat = word.toNat % 2 ^ 48 := by
  have hmask : (HTIF_DEV_MASK).toNat = 2 ^ 8 - 1 ∧ (HTIF_CMD_MASK).toNat = 2 ^ 8 - 1 ∧
      (HTIF_DATA_MASK).toNat = 2 ^ 48 - 1 := by decide
  refine ⟨?_, ?_, ?_⟩
  · rw [fromhostDev, UInt64.toNat_and, UInt64.toNat_shiftRight, hmask.1,
      Nat.and_two_pow_sub_one_eq_mod, Nat.shiftRight_eq_div_pow]
    rfl
  · rw [fromhostCmd, UInt64.toNat_and, UInt64.toNat_shiftRight, hmask.2.1,
      Nat.and_two_pow_sub_one_eq_mod, Nat.shiftRight_eq_div_pow]
    rfl
  · rw [fromhostData, UInt64.toNat_and, UInt64.toNat_shiftRight, hmask.2.2,
      Nat.and_two_pow_sub_one_eq_mod, Nat.shiftRight_eq_div_pow]
    simp [HTIF_DATA_SHIFT]

/-- A command whose fields fit is read back field by field: the payload does not leak. -/
theorem decode_tohostCmd {dev cmd payload : UInt64} (hdev : dev.toNat < 2 ^ 8)
    (hcmd : cmd.toNat < 2 ^ 8) (hpayload : payload.toNat < 2 ^ 48) :
    decode (tohostCmd dev cmd payload) = (dev, cmd, payload) := by
  have hword := tohostCmd_toNat hdev hcmd hpayload
  obtain ⟨hd, hc, hp⟩ := decode_toNat (tohostCmd dev cmd payload)
  rw [hword] at hd hc hp
  simp only [decode, Prod.mk.injEq, ← UInt64.toNat_inj, hd, hc, hp]
  exact ⟨by omega, by omega, by omega⟩

def putcWord (ch : UInt8) : UInt64 :=
  tohostCmd HTIF_DEV_CONSOLE HTIF_CONSOLE_CMD_PUTC ch.toUInt64

theorem decode_putcWord (ch : UInt8) : decode (putcWord ch) = (1, 1, ch.toUInt64) := by
  refine decode_tohostCmd (by decide) (by decide) ?_
  have := ch.toNat_lt
  rw [UInt8.toNat_toUInt64]
  omega

theorem putcWord_ne_zero (ch : UInt8) : putcWord ch ≠ 0 := by
  intro h
  have hdev : fromhostDev 0 = 1 := h ▸ congrArg Prod.fst (decode_putcWord ch)
  exact absurd hdev (by decide)

/-! ## The driver and the host -/

/-- Where the hart stands: between two calls, in a call, or in the trap. -/
inductive Pc
  | idle
  | putc (ch : UInt8) (pc : SetPc)
  | trapped
  deriving DecidableEq, Repr

def Pc.inProgress : Pc → List UInt8
  | .putc ch _ => [ch]
  | _ => []

/-- The words, the driver, and the record of both sides. -/
structure System (w : Nat) where
  mem : Mailboxes w
  statics : Statics w
  pc : Pc
  called : List UInt8
  sent : List UInt8
  cleared : List UInt64
  taken : List UInt64
  replied : List UInt64

/-- The host: device 1, command 0 or 1. -/
def IsConsoleReply (word : UInt64) : Prop :=
  word ≠ 0 ∧ fromhostDev word = HTIF_DEV_CONSOLE ∧
    (fromhostCmd word = HTIF_CONSOLE_CMD_GETC ∨ fromhostCmd word = HTIF_CONSOLE_CMD_PUTC)

/-- The reply that the next access clears. -/
def SetPc.clearing : SetPc → List UInt64
  | .check (.clear fh) => [fh]
  | _ => []

def System.putcStep (sym : Symbols w) (s : System w) (ch : UInt8) (pc : SetPc) : System w :=
  let out := (htifPutc sym s.statics ch pc).run s.mem
  let s := { s with mem := out.2, cleared := s.cleared ++ pc.clearing }
  match out.1 with
  | .goto (statics, pc) => { s with statics := statics, pc := .putc ch pc }
  | .ret statics => { s with statics := statics, pc := .idle, sent := s.sent ++ [ch] }
  | .trap => { s with pc := .trapped }

def System.tohost (sym : Symbols w) (s : System w) : UInt64 := s.mem (tohostAddr sym s.statics)

def System.fromhost (sym : Symbols w) (s : System w) : UInt64 :=
  s.mem (fromhostAddr sym s.statics)

/-- A step of the hart or of the host. -/
inductive Step (sym : Symbols w) (s : System w) : System w → Prop
  | call (ch : UInt8) (h : s.pc = .idle) :
      Step sym s { s with pc := .putc ch .test, called := s.called ++ [ch] }
  | putc {ch : UInt8} {pc : SetPc} (h : s.pc = .putc ch pc) : Step sym s (s.putcStep sym ch pc)
  | take (h : s.tohost sym ≠ 0) :
      Step sym s { s with
        mem := Function.update s.mem (tohostAddr sym s.statics) 0
        taken := s.taken ++ [s.tohost sym] }
  | reply (word : UInt64) (h : s.fromhost sym = 0) (hword : IsConsoleReply word) :
      Step sym s { s with
        mem := Function.update s.mem (fromhostAddr sym s.statics) word
        replied := s.replied ++ [word] }

/-- Both mailboxes, two words, are empty and nothing has happened yet. -/
structure System.Initial (sym : Symbols w) (s : System w) : Prop where
  distinct : tohostAddr sym s.statics ≠ fromhostAddr sym s.statics
  tohost : s.tohost sym = 0
  fromhost : s.fromhost sym = 0
  pc : s.pc = .idle
  record : s.called = [] ∧ s.sent = [] ∧ s.cleared = [] ∧ s.taken = [] ∧ s.replied = []

/-- The word pending in a mailbox, if any. -/
def pending (word : UInt64) : List UInt64 := if word = 0 then [] else [word]

@[simp] theorem pending_zero : pending 0 = [] := rfl

theorem pending_of_ne {word : UInt64} (h : word ≠ 0) : pending word = [word] := if_neg h

/-! ## The invariant -/

/-- What has been sent is what the host has taken and the word pending, what has been replied
is what the driver has cleared and the reply pending. A call about to store has seen
`tohost` empty, and one about to clear a reply has read it. -/
structure Inv (sym : Symbols w) (s : System w) : Prop where
  distinct : tohostAddr sym s.statics ≠ fromhostAddr sym s.statics
  sent : s.taken ++ pending (s.tohost sym) = s.sent.map putcWord
  called : s.called = s.sent ++ s.pc.inProgress
  replied : s.replied = s.cleared ++ pending (s.fromhost sym)
  isReply : ∀ word ∈ s.replied, IsConsoleReply word
  atWrite : ∀ ch, s.pc = .putc ch .write → s.tohost sym = 0
  atClear : ∀ ch fh, s.pc = .putc ch (.check (.clear fh)) → s.fromhost sym = fh ∧ fh ≠ 0
  running : s.pc ≠ .trapped

theorem System.Initial.inv {s : System w} (h : s.Initial sym) : Inv sym s := by
  obtain ⟨hcalled, hsent, hcleared, htaken, hreplied⟩ := h.record
  refine ⟨h.distinct, ?_, ?_, ?_, ?_, ?_, ?_, ?_⟩
  · rw [htaken, hsent, h.tohost]
    rfl
  · rw [hcalled, hsent, h.pc]
    rfl
  · rw [hreplied, hcleared, h.fromhost]
    rfl
  · rw [hreplied]
    exact fun word hword => absurd hword List.not_mem_nil
  · exact fun ch hpc => by simp [h.pc] at hpc
  · exact fun ch fh hpc => by simp [h.pc] at hpc
  · simp [h.pc]

/-- The reply that is about to be cleared comes from the console. -/
theorem Inv.reply {s : System w} (hinv : Inv sym s) {ch : UInt8} {fh : UInt64}
    (hpc : s.pc = .putc ch (.check (.clear fh))) : IsConsoleReply fh := by
  obtain ⟨hfh, hne⟩ := hinv.atClear ch fh hpc
  refine hinv.isReply fh ?_
  rw [hinv.replied, hfh, pending_of_ne hne]
  exact List.mem_append_right _ (List.mem_singleton_self fh)

theorem putcStep_test (s : System w) (ch : UInt8) :
    s.putcStep sym ch .test = { s with
      pc := .putc ch (if s.tohost sym = 0 then .write else .check .read) } := by
  by_cases h : s.mem (tohostAddr sym s.statics) = 0
  · simp [System.putcStep, htifPutc, setTohost, readTohost, Access.run, SetPc.clearing,
      System.tohost, h]
  · simp [System.putcStep, htifPutc, setTohost, readTohost, Access.run, SetPc.clearing,
      System.tohost, h]

theorem putcStep_read (s : System w) (ch : UInt8) :
    s.putcStep sym ch (.check .read) = { s with
      pc := .putc ch (if s.fromhost sym = 0 then .test
        else .check (.clear (s.fromhost sym))) } := by
  by_cases h : s.mem (fromhostAddr sym s.statics) = 0
  · simp [System.putcStep, htifPutc, setTohost, checkFromhost, readFromhost, Access.run,
      Access.map, SetPc.clearing, System.fromhost, h]
  · simp [System.putcStep, htifPutc, setTohost, checkFromhost, readFromhost, Access.run,
      Access.map, SetPc.clearing, System.fromhost, h]

/-- A console reply is cleared without a trap; only the buffered character can change. -/
theorem putcStep_clear (sym : Symbols w) (s : System w) (ch : UInt8) {fh : UInt64}
    (hfh : IsConsoleReply fh) :
    ∃ buf, s.putcStep sym ch (.check (.clear fh)) = { s with
      mem := Function.update s.mem (fromhostAddr sym s.statics) 0
      statics := { s.statics with htifConsoleBuf := buf }
      pc := .putc ch .test
      cleared := s.cleared ++ [fh] } := by
  obtain ⟨-, hdev, hgetc | hputc⟩ := hfh
  · refine ⟨1 + (fromhostData fh).toUInt8.toNat, ?_⟩
    simp [System.putcStep, htifPutc, setTohost, checkFromhost, writeFromhost, Access.run,
      Access.map, SetPc.clearing, hdev, hgetc]
  · have hne : HTIF_CONSOLE_CMD_PUTC ≠ HTIF_CONSOLE_CMD_GETC := by decide
    refine ⟨s.statics.htifConsoleBuf, ?_⟩
    simp [System.putcStep, htifPutc, setTohost, checkFromhost, writeFromhost, Access.run,
      Access.map, SetPc.clearing, hdev, hputc, hne]

theorem putcStep_write (s : System w) (ch : UInt8) :
    s.putcStep sym ch .write = { s with
      mem := Function.update s.mem (tohostAddr sym s.statics) (putcWord ch)
      pc := .idle
      sent := s.sent ++ [ch] } := by
  simp [System.putcStep, htifPutc, setTohost, writeTohost, Access.run, SetPc.clearing, putcWord]

theorem Inv.putcStep {s : System w} (hinv : Inv sym s) {ch : UInt8} {pc : SetPc}
    (hpc : s.pc = .putc ch pc) : Inv sym (s.putcStep sym ch pc) := by
  have hcalled := hinv.called
  rw [hpc] at hcalled
  cases pc with
  | test =>
    rw [putcStep_test]
    by_cases hempty : s.tohost sym = 0
    · rw [if_pos hempty]
      exact ⟨hinv.distinct, hinv.sent, hcalled, hinv.replied, hinv.isReply, fun _ _ => hempty,
        nofun, nofun⟩
    · rw [if_neg hempty]
      exact ⟨hinv.distinct, hinv.sent, hcalled, hinv.replied, hinv.isReply, nofun, nofun, nofun⟩
  | check pc =>
    cases pc with
    | read =>
      rw [putcStep_read]
      by_cases hempty : s.fromhost sym = 0
      · rw [if_pos hempty]
        exact ⟨hinv.distinct, hinv.sent, hcalled, hinv.replied, hinv.isReply, nofun, nofun,
          nofun⟩
      · rw [if_neg hempty]
        refine ⟨hinv.distinct, hinv.sent, hcalled, hinv.replied, hinv.isReply, nofun, ?_, nofun⟩
        intro ch' fh hclear
        cases hclear
        exact ⟨rfl, hempty⟩
    | clear fh =>
      obtain ⟨hfh, hne⟩ := hinv.atClear ch fh hpc
      obtain ⟨buf, hstep⟩ := putcStep_clear sym s ch (hinv.reply hpc)
      rw [hstep]
      refine ⟨hinv.distinct, ?_, hcalled, ?_, hinv.isReply, nofun, nofun, nofun⟩
      · show s.taken ++ pending (Function.update s.mem _ 0 (tohostAddr sym s.statics)) = _
        rw [Function.update_of_ne hinv.distinct]
        exact hinv.sent
      · show s.replied = s.cleared ++ [fh] ++
          pending (Function.update s.mem _ 0 (fromhostAddr sym s.statics))
        rw [Function.update_self, pending_zero, List.append_nil, hinv.replied, hfh,
          pending_of_ne hne]
  | write =>
    have hempty := hinv.atWrite ch hpc
    have hsent := hinv.sent
    rw [hempty, pending_zero, List.append_nil] at hsent
    rw [putcStep_write]
    refine ⟨hinv.distinct, ?_, ?_, ?_, hinv.isReply, nofun, nofun, nofun⟩
    · show s.taken ++ pending (Function.update s.mem _ (putcWord ch) (tohostAddr sym s.statics)) =
        (s.sent ++ [ch]).map putcWord
      rw [Function.update_self, pending_of_ne (putcWord_ne_zero ch), hsent, List.map_append,
        List.map_singleton]
    · exact hcalled.trans (List.append_nil _).symm
    · show s.replied = s.cleared ++
        pending (Function.update s.mem _ (putcWord ch) (fromhostAddr sym s.statics))
      rw [Function.update_of_ne hinv.distinct.symm]
      exact hinv.replied

theorem Inv.step {s s' : System w} (hinv : Inv sym s) (hstep : Step sym s s') : Inv sym s' := by
  cases hstep with
  | call ch hidle =>
    refine ⟨hinv.distinct, hinv.sent, ?_, hinv.replied, hinv.isReply, nofun, nofun, nofun⟩
    have hcalled := hinv.called
    rw [hidle] at hcalled
    show s.called ++ [ch] = s.sent ++ [ch]
    rw [hcalled]
    exact congrArg (· ++ [ch]) (List.append_nil s.sent)
  | putc hpc => exact hinv.putcStep hpc
  | take hfull =>
    refine ⟨hinv.distinct, ?_, hinv.called, ?_, hinv.isReply, ?_, ?_, hinv.running⟩
    · show s.taken ++ [s.tohost sym] ++
        pending (Function.update s.mem _ 0 (tohostAddr sym s.statics)) = _
      rw [Function.update_self, pending_zero, List.append_nil, ← pending_of_ne hfull]
      exact hinv.sent
    · show s.replied = s.cleared ++
        pending (Function.update s.mem _ 0 (fromhostAddr sym s.statics))
      rw [Function.update_of_ne hinv.distinct.symm]
      exact hinv.replied
    · exact fun ch hpc => absurd (hinv.atWrite ch hpc) hfull
    · intro ch fh hpc
      show Function.update s.mem _ 0 (fromhostAddr sym s.statics) = fh ∧ fh ≠ 0
      rw [Function.update_of_ne hinv.distinct.symm]
      exact hinv.atClear ch fh hpc
  | reply word hempty hword =>
    refine ⟨hinv.distinct, ?_, hinv.called, ?_, ?_, ?_, ?_, hinv.running⟩
    · show s.taken ++ pending (Function.update s.mem _ word (tohostAddr sym s.statics)) = _
      rw [Function.update_of_ne hinv.distinct]
      exact hinv.sent
    · have hreplied := hinv.replied
      rw [hempty, pending_zero, List.append_nil] at hreplied
      show s.replied ++ [word] = s.cleared ++
        pending (Function.update s.mem _ word (fromhostAddr sym s.statics))
      rw [Function.update_self, pending_of_ne hword.1, hreplied]
    · intro word' hmem
      rcases List.mem_append.1 hmem with hmem | hmem
      · exact hinv.isReply word' hmem
      · exact List.mem_singleton.1 hmem ▸ hword
    · intro ch hpc
      show Function.update s.mem _ word (tohostAddr sym s.statics) = 0
      rw [Function.update_of_ne hinv.distinct]
      exact hinv.atWrite ch hpc
    · intro ch fh hpc
      obtain ⟨hfh, hne⟩ := hinv.atClear ch fh hpc
      exact absurd (hfh ▸ hempty) hne

abbrev Run (sym : Symbols w) : System w → System w → Prop := Relation.ReflTransGen (Step sym)

theorem Run.inv {s t : System w} (hinit : s.Initial sym) (hrun : Run sym s t) : Inv sym t := by
  induction hrun with
  | refl => exact hinit.inv
  | tail _ hstep ih => exact ih.step hstep

/-- The console delivers every character once and in order: what the host has taken and what
is pending are the commands of the characters stored, which are those of the calls so far
but for the one in progress. `tohost` is empty when it is stored to, a reply has been read
when it is cleared, every reply that is not pending has been cleared once, and no trap is
reached. -/
theorem console_delivers {s t : System w} (hinit : s.Initial sym) (hrun : Run sym s t) :
    (t.taken ++ pending (t.tohost sym)).map decode =
        t.sent.map (fun ch => (1, 1, ch.toUInt64)) ∧
      t.called = t.sent ++ t.pc.inProgress ∧
      (∀ ch, t.pc = .putc ch .write → t.tohost sym = 0) ∧
      (∀ ch fh, t.pc = .putc ch (.check (.clear fh)) → t.fromhost sym = fh) ∧
      t.replied = t.cleared ++ pending (t.fromhost sym) ∧
      t.pc ≠ .trapped := by
  have hinv := hrun.inv hinit
  refine ⟨?_, hinv.called, hinv.atWrite, fun ch fh hpc => (hinv.atClear ch fh hpc).1,
    hinv.replied, hinv.running⟩
  rw [hinv.sent, List.map_map]
  exact List.map_congr_left fun ch _ => decode_putcWord ch

/-- The words of an image, with nothing sent yet. -/
def sampleSymbols : Symbols 64 := ⟨0x80002000, 0x80002008⟩

def sampleSystem : System 64 :=
  ⟨fun _ => 0, ⟨0, 0, false, 0⟩, .idle, [], [], [], [], []⟩

/-- The zero character is stored, and the next call finds `tohost` full and a reply pending. It
clears the reply, and once the host has taken the word it stores its own. -/
theorem console_delivers_sample :
    ∃ t, Run sampleSymbols sampleSystem t ∧ t.called = [0, 65] ∧ t.pc = .idle ∧
      t.taken = [putcWord 0] ∧ t.cleared = [putcWord 0] ∧
      (t.taken ++ pending (t.tohost sampleSymbols)).map decode = [(1, 1, 0), (1, 1, 65)] ∧
      t.replied = t.cleared ++ pending (t.fromhost sampleSymbols) := by
  have hinit : sampleSystem.Initial sampleSymbols :=
    ⟨by decide, rfl, rfl, rfl, rfl, rfl, rfl, rfl, rfl⟩
  have hfirst : Run sampleSymbols sampleSystem _ :=
    .tail (.tail (.single (.call 0 rfl)) (.putc rfl)) (.putc rfl)
  have hreply : Run sampleSymbols sampleSystem _ :=
    .tail hfirst (.reply (putcWord 0) rfl ⟨by decide, by decide, by decide⟩)
  have hclear : Run sampleSymbols sampleSystem _ :=
    .tail (.tail (.tail (.tail hreply (.call 65 rfl)) (.putc rfl)) (.putc rfl)) (.putc rfl)
  have hrun : Run sampleSymbols sampleSystem _ :=
    .tail (.tail (.tail hclear (.take (by decide))) (.putc rfl)) (.putc rfl)
  obtain ⟨hsent, -, -, -, hreplied, -⟩ := console_delivers hinit hrun
  exact ⟨_, hrun, rfl, rfl, rfl, rfl, hsent, hreplied⟩

end ZStage.Serial.Htif
