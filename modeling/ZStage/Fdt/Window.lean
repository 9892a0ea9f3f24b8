import ZStage.Fdt.Translate

/-!
One `ranges` window against the interval that it stands for. The code compares the sum
of the address and the size with the start of the window, not the address with the end:
an address behind the window passes unless that sum wraps, and one inside fails if it
does (`translate_exact_iff`).
-/

namespace ZStage.Fdt

open ZStage.Lib.Trace ZStage.Lib.AddressWindow

/-- The result of one step: 0 exactly on the addresses of the window, with the address that
the window maps to, and `-ENODEV` with `*addr` as it was on all others. -/
def ExactStep (w : Window) (reg addr : UInt64) (result : Int × UInt64) : Prop :=
  (result.1 = 0 ↔ w.child ≤ reg.toNat ∧ reg.toNat < w.child + w.size) ∧
    (result.1 = 0 → result.2.toNat = w.parent + (reg.toNat - w.child)) ∧
    (result.1 ≠ 0 → result = (-ENODEV, addr))

/-- The sum of address and size does not lead the test astray: it does not wrap below the
start for an address inside, and does for one behind the window. -/
def SumTells (w : Window) (reg : Nat) : Prop :=
  reg < w.child ∨
    (w.child ≤ reg ∧ reg < w.child + w.size ∧ w.child < (reg + w.size) % 2 ^ 64) ∨
    (w.child + w.size ≤ reg ∧ (reg + w.size) % 2 ^ 64 ≤ w.child)

/-- The step that the code takes on the first entry of `ranges`. -/
theorem translate_first {fdt : Tree} {bus : Int} (hcells : PlainCells fdt bus)
    (hsame : fdtAddressCells fdt (fdtParentOffset fdt bus) = fdtAddressCells fdt bus)
    {w : Window} {ws : List Window} (hws : windows fdt bus = some (w :: ws)) (reg addr : UInt64) :
    (fdtTranslateAddress fdt reg bus addr).value =
      if w.child ≤ reg.toNat ∧ w.child < (reg.toNat + w.size) % 2 ^ 64 then
        (0, UInt64.ofNat (w.parent + (reg.toNat - w.child)))
      else (-ENODEV, addr) := by
  obtain ⟨ranges, hranges, hlen⟩ : ∃ ranges, fdtGetprop fdt bus "ranges" = .ok ranges ∧
      ranges.len ≠ 0 := by
    have hsome : windows fdt bus ≠ none := by simp [hws]
    simpa [windows_eq_none] using hsome
  have hstep (b : Nat) (hb : b < 2 ^ 64) :=
    translate_window hcells hranges hlen reg.toNat_lt hb addr
  simp only [firstWindow_eq hsame hws hranges hlen, UInt64.ofNat_toNat] at hstep
  split_ifs with h
  · have := (hstep ((w.parent + (reg.toNat - w.child)) % 2 ^ 64) (Nat.mod_lt _ (by decide))).2
      ⟨h.1, h.2, rfl⟩
    rw [this, Prod.mk.injEq]
    refine ⟨rfl, ?_⟩
    rw [← UInt64.toNat_inj]
    simp
  · rw [translate_value]
    cases hmaps : firstEntryMaps fdt bus reg with
    | none => rfl
    | some b =>
      have hvalue : (fdtTranslateAddress fdt reg bus addr).value =
          (0, UInt64.ofNat b.toNat) := by
        rw [translate_value, hmaps, UInt64.ofNat_toNat]
        rfl
      obtain ⟨hchild, hsum, -⟩ := (hstep b.toNat b.toNat_lt).1 hvalue
      exact absurd ⟨hchild, hsum⟩ h

/-- A window maps exactly the addresses inside it where, and only where, the sum of the
address and the size tells them from the others. -/
theorem translate_exact_iff {fdt : Tree} {bus : Int} (hcells : PlainCells fdt bus)
    (hsame : fdtAddressCells fdt (fdtParentOffset fdt bus) = fdtAddressCells fdt bus)
    (w : Window) (hws : windows fdt bus = some [w]) (hparent : w.parent + w.size ≤ 2 ^ 64)
    (reg addr : UInt64) :
    ExactStep w reg addr (fdtTranslateAddress fdt reg bus addr).value ↔
      SumTells w reg.toNat := by
  have hreg := reg.toNat_lt
  have hne : -ENODEV ≠ 0 := by decide
  rw [translate_first hcells hsame hws]
  split_ifs with h
  · have hvalue (hlt : reg.toNat < w.child + w.size) :
        (UInt64.ofNat (w.parent + (reg.toNat - w.child))).toNat =
          w.parent + (reg.toNat - w.child) :=
      UInt64.toNat_ofNat_of_lt' (show _ < 2 ^ 64 by omega)
    constructor
    · rintro ⟨hiff, -⟩
      exact Or.inr (Or.inl ⟨h.1, (hiff.1 rfl).2, h.2⟩)
    · rintro (hlt | ⟨-, hlt, -⟩ | ⟨-, hle⟩)
      · omega
      · exact ⟨iff_of_true rfl ⟨h.1, hlt⟩, fun _ => hvalue hlt, fun hcode => absurd rfl hcode⟩
      · omega
  · constructor
    · rintro ⟨hiff, -⟩
      have hout : ¬(w.child ≤ reg.toNat ∧ reg.toNat < w.child + w.size) :=
        fun hin => hne (hiff.2 hin)
      rcases Nat.lt_or_ge reg.toNat w.child with hlt | hge
      · exact Or.inl hlt
      · exact Or.inr (Or.inr ⟨by omega, by omega⟩)
    · intro htells
      have hout : ¬(w.child ≤ reg.toNat ∧ reg.toNat < w.child + w.size) := by
        rintro ⟨hge, hlt⟩
        rcases htells with hlt' | ⟨-, -, hsum⟩ | ⟨hge', -⟩
        · omega
        · exact h ⟨hge, hsum⟩
        · omega
      exact ⟨iff_of_false hne hout, fun hcode => absurd hcode hne, fun _ => rfl⟩

def oneRange : Property :=
  .ofBytes "ranges" (cellBytes [0x1000, 0x10000000, 0x100]) (by decide)

/-- A root and a bus with one window of 0x100 addresses. -/
def oneWindow : Tree :=
  Tree.ofNodes [⟨none, oneCellEach⟩, ⟨some 0, oneCellEach ++ [oneRange]⟩] (by decide) (by decide)

theorem oneWindow_plain : PlainCells oneWindow 1 :=
  ⟨.inl (by decide +kernel), .inl (by decide +kernel)⟩

theorem oneWindow_same :
    fdtAddressCells oneWindow (fdtParentOffset oneWindow 1) = fdtAddressCells oneWindow 1 := by
  decide +kernel

theorem oneWindow_windows : windows oneWindow 1 = some [⟨0x1000, 0x10000000, 0x100⟩] := by
  decide +kernel

theorem translate_exact_iff_sample :
    ExactStep ⟨0x1000, 0x10000000, 0x100⟩ 0x1080 0
      (fdtTranslateAddress oneWindow 0x1080 1 0).value :=
  (translate_exact_iff oneWindow_plain oneWindow_same _ oneWindow_windows (by decide) 0x1080
    0).2 (.inr (.inl ⟨by decide, by decide, by decide⟩))

/-- An address behind the window is translated. -/
theorem behind_window_translated :
    PlainCells oneWindow 1 ∧
      fdtAddressCells oneWindow (fdtParentOffset oneWindow 1) = fdtAddressCells oneWindow 1 ∧
      windows oneWindow 1 = some [⟨0x1000, 0x10000000, 0x100⟩] ∧
      (fdtTranslateAddress oneWindow 0x2000 1 0).value = (0, 0x10001000) ∧
      ¬ExactStep ⟨0x1000, 0x10000000, 0x100⟩ 0x2000 0
        (fdtTranslateAddress oneWindow 0x2000 1 0).value := by
  have hvalue : (fdtTranslateAddress oneWindow 0x2000 1 0).value = (0, 0x10001000) := by
    decide +kernel
  refine ⟨oneWindow_plain, oneWindow_same, oneWindow_windows, hvalue, ?_⟩
  rw [hvalue]
  rintro ⟨hiff, -⟩
  exact absurd (hiff.1 rfl).2 (by decide)

end ZStage.Fdt
