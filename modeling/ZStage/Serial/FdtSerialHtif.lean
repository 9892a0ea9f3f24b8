import ZStage.Fdt.Failure
import ZStage.Serial.FdtSerial

/-!
`serial_htif_init` of `firmware/serial/fdt_serial_htif.c`. It decodes two entries of
`reg` and asks for the mailboxes that it found. A mailbox is known when its entry is
complete and its address is translated up to the root; the results say on which trees
the driver asks for known mailboxes only.
-/

namespace ZStage.Serial

open ZStage.Lib.Trace ZStage.Fdt

/-- The arguments of `htif_serial_init`; an `unsigned long` has `w` bits. -/
structure HtifArgs (w : Nat) where
  customAddr : Bool
  customFromhostAddr : BitVec w
  customTohostAddr : BitVec w
  deriving DecidableEq, Repr

/-- `serial_htif_init`: the call of `htif_serial_init` with which it returns. -/
def serialHtifInit (w : Nat) (fdt : Tree) (nodeoff : Int) : Decode (HtifArgs w) := do
  let first ← fdtGetNodeAddrSize fdt nodeoff 0 (some 0) none
  let custom := decide (first.rc = 0)
  let fromhostAddr := first.addr.getD 0
  let tohostAddr := if custom then fromhostAddr + 8 else 0
  let second ← fdtGetNodeAddrSize fdt nodeoff 1 (some tohostAddr) none
  let tohostAddr := second.addr.getD tohostAddr
  pure ⟨custom, BitVec.ofNat w fromhostAddr.toNat, BitVec.ofNat w tohostAddr.toNat⟩

/-- The node is below a bus, the entry of `reg` is complete and its address is translated up
to the root. -/
def EntryTranslates (fdt : Tree) (node : Int) (index : Nat) (c : UInt64) : Prop :=
  ¬fdtParentOffset fdt node < 0 ∧
    ∃ a s, regEntry fdt node index = some (a, s) ∧
      Translates fdt (fdtParentOffset fdt node) (UInt64.ofNat a) c

/-- The built-in words are used unless the first entry is translated; then `fromhost` is its
address, and `tohost` the one of the second entry or the word behind `fromhost`. -/
structure KnownMailboxes {w : Nat} (fdt : Tree) (node : Int) (args : HtifArgs w) : Prop where
  custom : args.customAddr = true ↔ ∃ f, EntryTranslates fdt node 0 f
  fromhost : ∀ f, EntryTranslates fdt node 0 f → args.customFromhostAddr.toNat = f.toNat
  tohost : ∀ f t, EntryTranslates fdt node 0 f → EntryTranslates fdt node 1 t →
    args.customTohostAddr.toNat = t.toNat
  next : ∀ f, EntryTranslates fdt node 0 f → (¬∃ t, EntryTranslates fdt node 1 t) →
    args.customTohostAddr.toNat = (f + 8).toNat

/-- The second entry is translated, or its preset `fromhost + 8` stays, because there is no
entry to read or because the first bus rejects its address. -/
def SecondSettled (w : Nat) (fdt : Tree) (node : Int) (f : UInt64) : Prop :=
  (∃ t, EntryTranslates fdt node 1 t ∧ t.toNat < 2 ^ w) ∨
    (f + 8).toNat < 2 ^ w ∧
      (readEntry fdt node 1 = none ∨ ∃ a s, readEntry fdt node 1 = some (a, s) ∧
        StepFails fdt (fdtParentOffset fdt node) a)

def MailboxesSettled (w : Nat) (fdt : Tree) (node : Int) : Prop :=
  readEntry fdt node 0 = none ∨
    ∃ f, EntryTranslates fdt node 0 f ∧ f.toNat < 2 ^ w ∧ SecondSettled w fdt node f

/-- What is read in the place of a second entry passes the first bus, and is led to the word
behind `fromhost` all the same. -/
def SecondCoincides (w : Nat) (fdt : Tree) (node : Int) (f : UInt64) : Prop :=
  (¬∃ t, EntryTranslates fdt node 1 t) ∧ ∃ a s left, readEntry fdt node 1 = some (a, s) ∧
    (Translates fdt (fdtParentOffset fdt node) a left ∨
      FailsAbove fdt (fdtParentOffset fdt node) a left) ∧
    left.toNat % 2 ^ w = (f + 8).toNat

theorem translates_cells {fdt : Tree} {bus : Int} {a c : UInt64} (h : Translates fdt bus a c)
    (hbus : ¬bus < 0) : ¬fdtAddressCells fdt bus < 1 ∧ ¬fdtSizeCells fdt bus < 0 := by
  cases h with
  | root hneg => exact absurd hneg hbus
  | step hpos head tail =>
    have hstep := head 0
    rw [translate_value, firstEntryMaps] at hstep
    split at hstep
    · cases congrArg Prod.fst hstep
    · rename_i hcells
      exact not_or.1 hcells

theorem EntryTranslates.readEntry_eq {fdt : Tree} {node : Int} {index : Nat} {c : UInt64}
    (h : EntryTranslates fdt node index c) :
    ∃ a s, readEntry fdt node index = some (a, s) ∧
      Translates fdt (fdtParentOffset fdt node) a c := by
  obtain ⟨hparent, a, s, hentry, htrans⟩ := h
  obtain ⟨hca, hcs⟩ := translates_cells htrans hparent
  have hnode : ¬node < 0 := by
    intro hneg
    simp [fdtParentOffset, Tree.node?, hneg, FDT_ERR_BADOFFSET] at hparent
  obtain ⟨reg, ca, cs, hreg, hcaNat, hcsNat, hlen, rfl, rfl⟩ := regEntry_eq_some hentry
  have hcaEq : fdtAddressCells fdt (fdtParentOffset fdt node) = ca := by omega
  have hcsEq : fdtSizeCells fdt (fdtParentOffset fdt node) = cs := by omega
  obtain ⟨hstart, hfits⟩ := entryStart_inside (show 1 ≤ ca by omega) hlen reg.len_lt
  refine ⟨_, UInt64.ofNat (reg.number (index * (ca + cs) + ca) cs), ?_, htrans⟩
  simp only [readEntry, hreg, hcaEq, hcsEq, hstart, if_neg hfits, Int.toNat_natCast,
    readCells_value, show ¬(node < 0 ∨ (index : Int) < 0 ∨ fdtParentOffset fdt node < 0 ∨
      (ca : Int) < 1 ∨ (cs : Int) < 0) by omega, if_false]

theorem EntryTranslates.unique {fdt : Tree} {node : Int} {index : Nat} {c c' : UInt64}
    (h : EntryTranslates fdt node index c) (h' : EntryTranslates fdt node index c') : c = c' := by
  obtain ⟨-, a, s, hentry, htrans⟩ := h
  obtain ⟨-, a', s', hentry', htrans'⟩ := h'
  cases hentry.symm.trans hentry'
  exact htrans.unique htrans'

theorem walk_unique {fdt : Tree} {bus : Int} {a addr left left' : UInt64}
    (h : Translates fdt bus a left ∨ FailsFrom fdt bus a addr left)
    (h' : Translates fdt bus a left' ∨ FailsFrom fdt bus a addr left') : left = left' := by
  rcases h with hto | hfails <;> rcases h' with hto' | hfails'
  · exact hto.unique hto'
  · exact absurd ⟨left, hto⟩ hfails'.not_translates
  · exact absurd ⟨left', hto'⟩ hfails.not_translates
  · exact hfails.unique hfails'

section Init

variable (w : Nat) (fdt : Tree) (node : Int)

/-- What a call for the address of an entry leaves behind its pointer: nothing new when the
entry is not there, else where the walk from its address ended. -/
theorem getNodeAddr_cases (index : Nat) (addr : UInt64) :
    (readEntry fdt node index = none ∧ (¬∃ c, EntryTranslates fdt node index c) ∧
      ∃ rc < 0, (fdtGetNodeAddrSize fdt node index (some addr) none).value =
        ⟨rc, some addr, none⟩) ∨
    (∃ a s left, readEntry fdt node index = some (a, s) ∧
      (Translates fdt (fdtParentOffset fdt node) a left ∨
        FailsFrom fdt (fdtParentOffset fdt node) a addr left) ∧
      (∀ c, EntryTranslates fdt node index c → left = c) ∧
      (fdtGetNodeAddrSize fdt node index (some addr) none).value = ⟨0, some left, none⟩) := by
  rcases getNodeAddrSize_cases fdt node index addr none with
    ⟨hnone, rc, hrc, hvalue⟩ | ⟨a, s, hsome, hparent, hvalue⟩
  · refine Or.inl ⟨hnone, ?_, rc, hrc, hvalue⟩
    rintro ⟨c, hentry⟩
    obtain ⟨a, s, hread, -⟩ := hentry.readEntry_eq
    rw [hnone] at hread
    cases hread
  · have hwalk := translateLoop_cases fdt a (fdtParentOffset fdt node) addr
      (fun hneg => absurd hneg (Int.not_lt.2 hparent))
    refine Or.inr ⟨a, s, _, hsome, hwalk, ?_, hvalue⟩
    intro c hentry
    obtain ⟨a', s', hread, htrans⟩ := hentry.readEntry_eq
    cases hsome.symm.trans hread
    rcases hwalk with hto | hfails
    · exact hto.unique htrans
    · exact absurd ⟨c, htrans⟩ hfails.not_translates

variable {w fdt node}

theorem knownMailboxes_custom {f : UInt64} (hf : EntryTranslates fdt node 0 f) (v : UInt64) :
    KnownMailboxes fdt node
        (⟨true, BitVec.ofNat w f.toNat, BitVec.ofNat w v.toNat⟩ : HtifArgs w) ↔
      f.toNat < 2 ^ w ∧
        (∀ t, EntryTranslates fdt node 1 t → v.toNat % 2 ^ w = t.toNat) ∧
        ((¬∃ t, EntryTranslates fdt node 1 t) → v.toNat % 2 ^ w = (f + 8).toNat) := by
  constructor
  · intro h
    have hfrom := h.fromhost f hf
    rw [BitVec.toNat_ofNat] at hfrom
    refine ⟨?_, ?_, ?_⟩
    · rw [← hfrom]
      exact Nat.mod_lt _ (Nat.two_pow_pos w)
    · intro t ht
      rw [← h.tohost f t hf ht, BitVec.toNat_ofNat]
    · intro hno
      rw [← h.next f hf hno, BitVec.toNat_ofNat]
  · rintro ⟨hlt, htrans, hnext⟩
    refine ⟨iff_of_true rfl ⟨f, hf⟩, ?_, ?_, ?_⟩
    · intro f' hf'
      rw [hf'.unique hf, BitVec.toNat_ofNat, Nat.mod_eq_of_lt hlt]
    · intro f' t _ ht
      rw [BitVec.toNat_ofNat]
      exact htrans t ht
    · intro f' hf' hno
      rw [BitVec.toNat_ofNat, hf'.unique hf]
      exact hnext hno

theorem knownMailboxes_builtin (hno : ¬∃ f, EntryTranslates fdt node 0 f)
    (fromhost tohost : BitVec w) :
    KnownMailboxes fdt node (⟨false, fromhost, tohost⟩ : HtifArgs w) := by
  refine ⟨iff_of_false Bool.false_ne_true hno, ?_, ?_, ?_⟩
  · exact fun f hf => absurd ⟨f, hf⟩ hno
  · exact fun f t hf _ => absurd ⟨f, hf⟩ hno
  · exact fun f hf _ => absurd ⟨f, hf⟩ hno

variable (w fdt node)

/-- When the call for the second entry leaves the right `tohost`. -/
theorem secondSettled_iff {f tohost : UInt64} (hsecond :
      (fdtGetNodeAddrSize fdt node 1 (some (f + 8)) none).value.addr.getD (f + 8) = tohost) :
    ((∀ t, EntryTranslates fdt node 1 t → tohost.toNat % 2 ^ w = t.toNat) ∧
        ((¬∃ t, EntryTranslates fdt node 1 t) → tohost.toNat % 2 ^ w = (f + 8).toNat)) ↔
      SecondSettled w fdt node f ∨ SecondCoincides w fdt node f := by
  have hcases := getNodeAddr_cases fdt node 1 (f + 8)
  simp only [Nat.cast_one] at hcases
  have hmod (v : UInt64) : v.toNat % 2 ^ w < 2 ^ w := Nat.mod_lt _ (Nat.two_pow_pos w)
  rcases hcases with ⟨hnone, hno, rc, hrc, hvalue⟩ | ⟨a, s, left, hsome, hwalk, hleft, hvalue⟩
  · obtain rfl : f + 8 = tohost := by rw [← hsecond, hvalue, Option.getD_some]
    constructor
    · rintro ⟨-, hnext⟩
      exact Or.inl (Or.inr ⟨hnext hno ▸ hmod _, Or.inl hnone⟩)
    · rintro ((⟨t, ht, -⟩ | ⟨hlt, -⟩) | ⟨-, a, s, left, hsome, -⟩)
      · exact absurd ⟨t, ht⟩ hno
      · exact ⟨fun t ht => absurd ⟨t, ht⟩ hno, fun _ => Nat.mod_eq_of_lt hlt⟩
      · cases hnone.symm.trans hsome
  · obtain rfl : left = tohost := by rw [← hsecond, hvalue, Option.getD_some]
    have hunique {left' : UInt64} (hwalk' : Translates fdt (fdtParentOffset fdt node) a left' ∨
        FailsFrom fdt (fdtParentOffset fdt node) a (f + 8) left') : left = left' :=
      walk_unique hwalk hwalk'
    constructor
    · rintro ⟨htrans, hnext⟩
      by_cases hentry : ∃ t, EntryTranslates fdt node 1 t
      · obtain ⟨t, ht⟩ := hentry
        exact Or.inl (Or.inl ⟨t, ht, htrans t ht ▸ hmod _⟩)
      · have hpreset := hnext hentry
        rcases hwalk with hto | hfails
        · exact Or.inr ⟨hentry, a, s, left, hsome, Or.inl hto, hpreset⟩
        · rcases failsFrom_iff.1 hfails with ⟨-, hstep, -⟩ | habove
          · exact Or.inl (Or.inr ⟨hpreset ▸ hmod _, Or.inr ⟨a, s, hsome, hstep⟩⟩)
          · exact Or.inr ⟨hentry, a, s, left, hsome, Or.inr habove, hpreset⟩
    · rintro ((⟨t, ht, hlt⟩ | ⟨hlt, hnone | ⟨a', s', hsome', hstep⟩⟩) |
        ⟨hno, a', s', left', hsome', hwalk', hmeets⟩)
      · obtain rfl := hleft t ht
        refine ⟨fun t' ht' => ?_, fun hno => absurd ⟨left, ht⟩ hno⟩
        rw [ht'.unique ht, Nat.mod_eq_of_lt hlt]
      · cases hnone.symm.trans hsome
      · cases hsome.symm.trans hsome'
        have hfails : FailsFrom fdt (fdtParentOffset fdt node) _ (f + 8) (f + 8) :=
          .here (readEntry_parent hsome) hstep
        obtain rfl := hunique (Or.inr hfails)
        refine ⟨fun t ht => ?_, fun _ => Nat.mod_eq_of_lt hlt⟩
        rw [hleft t ht] at hlt ⊢
        exact Nat.mod_eq_of_lt hlt
      · cases hsome.symm.trans hsome'
        obtain rfl := hunique (hwalk'.imp_right fun habove => failsFrom_iff.2 (Or.inr habove))
        exact ⟨fun t ht => absurd ⟨t, ht⟩ hno, fun _ => hmeets⟩

/-- On a node with settled mailboxes the driver asks for known mailboxes only. The converse
fails only where what is read for `tohost` is no known address and yet the one that the
driver should use. -/
theorem knownMailboxes_settled :
    (MailboxesSettled w fdt node →
        KnownMailboxes fdt node (serialHtifInit w fdt node).value) ∧
      (KnownMailboxes fdt node (serialHtifInit w fdt node).value →
        MailboxesSettled w fdt node ∨
          ∃ f, EntryTranslates fdt node 0 f ∧ SecondCoincides w fdt node f) := by
  have hfirst := getNodeAddr_cases fdt node 0 0
  simp only [Nat.cast_zero] at hfirst
  simp only [serialHtifInit, value_bind, value_pure]
  rcases hfirst with
    ⟨hnone, hno, rc, hrc, hvalue⟩ | ⟨a, s, left, hsome, -, hleft, hvalue⟩
  · rw [hvalue]
    simp only [hrc.ne, decide_false]
    exact ⟨fun _ => knownMailboxes_builtin hno _ _, fun _ => Or.inl (Or.inl hnone)⟩
  · rw [hvalue]
    simp only [decide_true, if_true, Option.getD_some]
    constructor
    · rintro (hnone | ⟨f, hf, hlt, hsettled⟩)
      · cases hnone.symm.trans hsome
      · obtain rfl := hleft f hf
        rw [knownMailboxes_custom hf, secondSettled_iff w fdt node rfl]
        exact ⟨hlt, Or.inl hsettled⟩
    · intro hknown
      obtain ⟨f, hf⟩ := hknown.custom.1 rfl
      obtain rfl := hleft f hf
      rw [knownMailboxes_custom hf, secondSettled_iff w fdt node rfl] at hknown
      rcases hknown.2 with hsettled | hmeets
      · exact Or.inl (Or.inr ⟨left, hf, hknown.1, hsettled⟩)
      · exact Or.inr ⟨left, hf, hmeets⟩

end Init

def htifCompatible : Property :=
  .ofBytes "compatible" (cstr "ucb,htif0" ++ [0]) (by decide)

def htifSecondRejected : Tree :=
  Tree.ofNodes
    [⟨none, oneCellEach⟩, ⟨some 0, oneCellEach ++ [rangesFrom1000]⟩,
      ⟨some 1, [htifCompatible,
        .ofBytes "reg" (cellBytes [0x1000, 0x10, 0x50, 0x10]) (by decide)]⟩]
    (by decide) (by decide)

theorem knownMailboxes_settled_sample :
    (serialHtifInit 64 htifSecondRejected 2).value = ⟨true, 0x10000000, 0x10000008⟩ ∧
      KnownMailboxes htifSecondRejected 2 (serialHtifInit 64 htifSecondRejected 2).value := by
  have hparent : fdtParentOffset htifSecondRejected 2 = 1 := by decide +kernel
  have hroot : fdtParentOffset htifSecondRejected 1 = 0 := by decide +kernel
  have hbehind : fdtParentOffset htifSecondRejected 0 < 0 := by decide +kernel
  have hbus : firstEntryMaps htifSecondRejected 1 (UInt64.ofNat 0x1000) = some 0x10000000 := by
    decide +kernel
  have htop : firstEntryMaps htifSecondRejected 0 0x10000000 = some 0x10000000 := by
    decide +kernel
  have hrejects : firstEntryMaps htifSecondRejected 1 0x50 = none := by decide +kernel
  have hfirst : EntryTranslates htifSecondRejected 2 0 0x10000000 := by
    refine ⟨by rw [hparent]; decide, 0x1000, 0x10, by decide +kernel, ?_⟩
    rw [hparent]
    refine .step (b := 0x10000000) (by decide) (fun addr => ?_) ?_
    · rw [translate_value, hbus]
      rfl
    · rw [hroot]
      refine .step (b := 0x10000000) (by decide) (fun addr => ?_) (.root hbehind)
      rw [translate_value, htop]
      rfl
  refine ⟨by decide +kernel, (knownMailboxes_settled 64 htifSecondRejected 2).1
    (Or.inr ⟨0x10000000, hfirst, by decide, Or.inr ⟨by decide, Or.inr ?_⟩⟩)⟩
  refine ⟨0x50, 0x10, by decide +kernel, fun addr => ?_⟩
  rw [hparent, translate_value, hrejects]
  exact (by decide : -ENODEV ≠ 0)

def rangesFrom2000 : Property :=
  .ofBytes "ranges" (cellBytes [0x2000, 0x1000, 0x1000]) (by decide)

/-- Two buses, of which the lower one maps every address to itself. -/
def htifCoincidence : Tree :=
  Tree.ofNodes
    [⟨none, oneCellEach⟩, ⟨some 0, oneCellEach ++ [rangesFrom2000]⟩, ⟨some 1, oneCellEach⟩,
      ⟨some 2, [htifCompatible,
        .ofBytes "reg" (cellBytes [0x2000, 0x10, 0x1008, 0x10]) (by decide)]⟩]
    (by decide) (by decide)

/-- The upper bus rejects the second address, which is the word behind `fromhost` as it is. -/
example : (serialHtifInit 64 htifCoincidence 3).value = ⟨true, 0x1000, 0x1008⟩ := by
  decide +kernel

def htifOutsideWindow : Tree :=
  Tree.ofNodes
    [⟨none, oneCellEach⟩, ⟨some 0, oneCellEach ++ [rangesFrom1000]⟩,
      ⟨some 1, [htifCompatible, regAt50]⟩]
    (by decide) (by decide)

/-- The driver takes the failed translation for a custom mailbox at address 0. -/
theorem mailbox_at_zero :
    fdtMatchNode htifOutsideWindow 2 serialHtifMatch = some ⟨cstr "ucb,htif0"⟩ ∧
      (serialHtifInit 64 htifOutsideWindow 2).value = ⟨true, 0, 8⟩ ∧
      ¬KnownMailboxes htifOutsideWindow 2 (serialHtifInit 64 htifOutsideWindow 2).value := by
  have hread : readEntry htifOutsideWindow 2 0 = some (0x50, 0x10) := by decide +kernel
  have hparent : fdtParentOffset htifOutsideWindow 2 = 1 := by decide +kernel
  have hmaps : firstEntryMaps htifOutsideWindow 1 0x50 = none := by decide +kernel
  have hfails : FailsFrom htifOutsideWindow (fdtParentOffset htifOutsideWindow 2) 0x50 0 0 := by
    rw [hparent]
    refine .here (by decide) fun left => ?_
    rw [translate_value, hmaps]
    exact (by decide : -ENODEV ≠ 0)
  have hcall : (serialHtifInit 64 htifOutsideWindow 2).value = ⟨true, 0, 8⟩ := by decide +kernel
  refine ⟨by decide +kernel, hcall, ?_⟩
  rw [hcall]
  intro hknown
  obtain ⟨f, hf⟩ := hknown.custom.1 rfl
  obtain ⟨a, s, hread', htrans⟩ := hf.readEntry_eq
  cases hread.symm.trans hread'
  exact hfails.not_translates ⟨f, htrans⟩

end ZStage.Serial
