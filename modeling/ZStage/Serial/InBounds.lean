import ZStage.Fdt.InBounds
import ZStage.Serial.FdtSerial

/-!
The string of stdout-path, and the bounds of all four decoders together. The scan for
':' stays inside the value exactly when the value contains a ':' or a zero byte.
-/

namespace ZStage.Serial

open ZStage.Lib.Trace ZStage.Fdt

variable {Dev : Type}

/-- A scan stays inside the value when it stops there. -/
theorem scan_safe (p : Property) (stop : UInt8 → Bool) (i fuel : Nat)
    (hend : i + fuel = p.tokenOffset) :
    (scan p stop i fuel).Safe Access.Inside ↔ ∃ k, i ≤ k ∧ k < p.len ∧ stop (p.mem k) := by
  have htoken : p.len ≤ p.tokenOffset := by
    rw [Property.tokenOffset]
    omega
  induction fuel generalizing i with
  | zero =>
    rw [scan, safe_emit_bind]
    constructor
    · intro h
      have : i + 1 ≤ p.len := h.1
      omega
    · rintro ⟨k, hk, hlt, -⟩
      omega
  | succ fuel ih =>
    rw [scan, safe_emit_bind]
    by_cases hstop : stop (p.mem i)
    · simp only [hstop, if_true, safe_pure, and_true]
      constructor
      · exact fun h => ⟨i, Nat.le_refl i, h, hstop⟩
      · rintro ⟨k, hk, hlt, -⟩
        show i + 1 ≤ p.len
        omega
    · simp only [hstop, Bool.false_eq_true, if_false, ih (i + 1) (by omega)]
      constructor
      · rintro ⟨-, k, hk, hlt, hk'⟩
        exact ⟨k, by omega, hlt, hk'⟩
      · rintro ⟨k, hk, hlt, hk'⟩
        have hne : k ≠ i := fun h => hstop (h ▸ hk')
        refine ⟨?_, k, by omega, hlt, hk'⟩
        show i + 1 ≤ p.len
        omega

theorem scan_value_lt {p : Property} {stop : UInt8 → Bool} {i fuel : Nat}
    (h : (scan p stop i fuel).Safe Access.Inside) : (scan p stop i fuel).value < p.len := by
  induction fuel generalizing i with
  | zero =>
    rw [scan, safe_emit_bind] at h
    exact h.1
  | succ fuel ih =>
    rw [scan, safe_emit_bind] at h
    rw [scan, value_emit_bind]
    have hin : i + 1 ≤ p.len := h.1
    by_cases hstop : stop (p.mem i)
    · simp only [hstop, if_true, value_pure]
      omega
    · simp only [hstop, Bool.false_eq_true, if_false] at h ⊢
      exact ih h.2

theorem strchr_safe (p : Property) (c : UInt8) :
    (strchr p c).Safe Access.Inside ↔ ∃ k < p.len, p.mem k = 0 ∨ p.mem k = c := by
  simp [strchr, scan_safe p _ 0 p.tokenOffset (Nat.zero_add _)]

theorem strlen_safe (p : Property) :
    (strlen p).Safe Access.Inside ↔ ∃ k < p.len, p.mem k = 0 := by
  simp [strlen, scan_safe p _ 0 p.tokenOffset (Nat.zero_add _)]

/-- Where `strchr` stays inside and finds nothing it has met the terminator. -/
theorem strchr_none {p : Property} {c : UInt8} (hsafe : (strchr p c).Safe Access.Inside)
    (hnone : (strchr p c).value = none) : ∃ k < p.len, p.mem k = 0 := by
  simp only [strchr, safe_bind, safe_pure, and_true] at hsafe
  simp only [strchr, value_bind, value_pure, ite_eq_left_iff, reduceCtorEq, imp_false,
    Decidable.not_not] at hnone
  exact ⟨_, scan_value_lt hsafe, hnone⟩

/-- A non-empty stdout-path contains a ':' or is terminated. -/
def StdoutFits (pathOffset : List UInt8 → Int) (fdt : Tree) : Prop :=
  -1 < pathOffset (cstr "/chosen") →
    ∀ prop, fdtGetprop fdt (pathOffset (cstr "/chosen")) "stdout-path" = .ok prop →
      prop.len ≠ 0 → ∃ k < prop.len, prop.mem k = 0 ∨ prop.mem k = 58

theorem stdoutNode_safe (pathOffset : List UInt8 → Int) (fdt : Tree) :
    (stdoutNode pathOffset fdt).Safe Access.Inside ↔ StdoutFits pathOffset fdt := by
  simp only [stdoutNode, StdoutFits]
  by_cases hcoff : -1 < pathOffset (cstr "/chosen")
  · cases hprop : fdtGetprop fdt (pathOffset (cstr "/chosen")) "stdout-path" with
    | error len => simp [hcoff]
    | ok prop =>
      by_cases hlen : prop.len = 0
      · simp [hcoff, hlen]
      simp only [hcoff, if_true, hlen, ne_eq, not_false_eq_true, forall_const, Except.ok.injEq,
        forall_eq', safe_bind, ← strchr_safe]
      refine and_iff_left_of_imp fun hsafe => ?_
      cases hsep : (strchr prop 58).value with
      | some n => exact safe_pure _
      | none =>
        rw [safe_bind, strlen_safe]
        exact ⟨strchr_none hsafe hsep, safe_pure _⟩
  · simp [hcoff]

theorem serialInit_safe (pathOffset : List UInt8 → Int) (fdt : Tree)
    (drivers : List (FdtSerial Dev)) (st : SerialState Dev) :
    (fdtSerialInit pathOffset fdt drivers st).Safe Access.Inside ↔
      StdoutFits pathOffset fdt := by
  rw [fdtSerialInit, safe_bind, stdoutNode_safe]
  refine and_iff_left ?_
  dsimp only
  split
  · exact safe_pure _
  · split <;> exact safe_pure _

/-- The decoders read inside the property values that they fetch exactly where these values
fit: `reg` and `ranges` hold the whole entries that are read, the cells properties of a
phandle list and the optional cells of a UART node hold a cell, and stdout-path contains
a ':' or a zero. -/
theorem decoders_in_bounds_iff (fdt : Tree) :
    (∀ node index addr size,
      (fdtGetNodeAddrSize fdt node index addr size).Safe Access.Inside ↔
        RegFits fdt node index addr size) ∧
    (∀ nodeoff prop cellsProp index outArgs,
      (fdtParsePhandleWithArgs fdt nodeoff prop cellsProp index outArgs).Safe Access.Inside ↔
        ListFits fdt nodeoff prop cellsProp index) ∧
    (∀ nodeoffset regAddr regSize uart,
      (fdtParseUartNode fdt nodeoffset regAddr regSize uart).Safe Access.Inside ↔
        UartFits fdt nodeoffset regAddr regSize) ∧
    (∀ pathOffset (drivers : List (FdtSerial Dev)) st,
      (fdtSerialInit pathOffset fdt drivers st).Safe Access.Inside ↔
        StdoutFits pathOffset fdt) :=
  ⟨getNodeAddrSize_safe fdt, parsePhandleWithArgs_safe fdt, parseUartNode_safe fdt,
    fun pathOffset drivers st => serialInit_safe pathOffset fdt drivers st⟩

/-- A device whose `reg` ends after the address. -/
def shortReg : Tree :=
  Tree.ofNodes
    [⟨none, oneCellEach⟩,
      ⟨some 0, [.ofBytes "reg" (cellBytes [0x10000000]) (by decide)]⟩]
    (by decide) (by decide)

/-- The size is read from behind the value, and 0 is returned. -/
theorem size_read_outside :
    ¬(fdtGetNodeAddrSize shortReg 1 0 (some 0) (some 0)).Safe Access.Inside ∧
      (fdtGetNodeAddrSize shortReg 1 0 (some 0) (some 0)).value.rc = 0 := by
  decide +kernel

end ZStage.Serial
