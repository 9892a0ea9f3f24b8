import Mathlib.Data.List.TakeWhile
import ZStage.Serial.InBounds
import ZStage.Serial.Probe

/-!
The priority of stdout-path. A driver here answers anything on a node and registers its
device exactly when it answers 0. The driver that decides is the first one matching the
node that does not answer `-ENODEV`: its answer is returned, and what the fallback loop
would find on other nodes does not matter.
-/

namespace ZStage.Serial

open ZStage.Lib.Trace ZStage.Fdt

variable {Dev : Type}

/-! ## The node of stdout-path -/

def text (p : Property) : List UInt8 := (bytes p p.len).takeWhile (· ≠ 0)

/-- The device path of stdout-path: its text up to the first ':'. -/
def devicePath (p : Property) : List UInt8 := (text p).takeWhile (· ≠ 58)

def Terminated (p : Property) : Prop := ∃ k < p.len, p.mem k = 0

theorem takeWhile_bytes {p : Property} {keep : UInt8 → Bool} {s n : Nat} (hs : s < n)
    (hbefore : ∀ i < s, keep (p.mem i)) (hstop : keep (p.mem s) = false) :
    (bytes p n).takeWhile keep = bytes p s := by
  obtain ⟨rest, rfl⟩ := Nat.exists_eq_add_of_lt hs
  have hsplit : bytes p (s + rest + 1) =
      bytes p s ++ (p.mem s :: (List.range rest).map fun i => p.mem (s + (i + 1))) := by
    rw [bytes, bytes, Nat.add_assoc, List.range_add, List.map_append, List.range_succ_eq_map]
    simp [Function.comp_def]
  have hkeep : ∀ b ∈ bytes p s, keep b := by
    intro b hb
    obtain ⟨i, hi, rfl⟩ := List.mem_map.1 hb
    exact hbefore i (List.mem_range.1 hi)
  rw [hsplit, List.takeWhile_append_of_pos hkeep, List.takeWhile_cons_of_neg (by simp [hstop]),
    List.append_nil]

/-- A scan passes what does not stop it and stops at the first byte that does. -/
theorem scan_value (p : Property) (stop : UInt8 → Bool) {s : Nat} :
    ∀ {i fuel : Nat}, i ≤ s → s < i + fuel → (∀ j, i ≤ j → j < s → stop (p.mem j) = false) →
      stop (p.mem s) → (scan p stop i fuel).value = s := by
  intro i fuel
  induction fuel generalizing i with
  | zero => exact fun hi hs => by omega
  | succ fuel ih =>
    intro hi hs hbefore hstop
    rw [scan, value_emit_bind]
    rcases Nat.lt_or_eq_of_le hi with hlt | rfl
    · rw [hbefore i (Nat.le_refl i) hlt]
      exact ih hlt (by omega) (fun j hj => hbefore j (by omega)) hstop
    · simp [hstop]

theorem Terminated.firstStop {p : Property} (h : Terminated p) (stop : UInt8 → Bool)
    (hzero : stop 0) :
    ∃ s < p.len, stop (p.mem s) ∧ ∀ i < s, stop (p.mem i) = false := by
  obtain ⟨k, hk, hnul⟩ := h
  have hex : ∃ s, stop (p.mem s) := ⟨k, hnul ▸ hzero⟩
  refine ⟨Nat.find hex, Nat.lt_of_le_of_lt (Nat.find_min' hex (hnul ▸ hzero)) hk,
    Nat.find_spec hex, fun i hi => ?_⟩
  exact Bool.eq_false_iff.2 (Nat.find_min hex hi)

theorem offset_of_getprop {fdt : Tree} {offset : Int} {name : String} {prop : Property}
    (h : fdtGetprop fdt offset name = .ok prop) : -1 < offset := by
  by_contra hneg
  rw [fdtGetprop, Tree.node?, if_pos (by omega)] at h
  cases h

/-- The text ends at its first zero, and the device path at the ':' before it, if any. -/
theorem devicePath_eq {p : Property} {s : Nat} (hs : s < p.len)
    (hbefore : ∀ i < s, p.mem i ≠ 0 ∧ p.mem i ≠ 58) (hstop : p.mem s = 0 ∨ p.mem s = 58)
    (hterm : Terminated p) : devicePath p = bytes p s := by
  have hkeep (c : UInt8) (n : Nat) (h : ∀ i < n, p.mem i ≠ c) :
      ∀ i < n, (fun b => decide (b ≠ c)) (p.mem i) := fun i hi => by simpa using h i hi
  rcases hstop with hzero | hcolon
  · have htext : text p = bytes p s :=
      takeWhile_bytes hs (hkeep 0 s fun i hi => (hbefore i hi).1) (by simp [hzero])
    rw [devicePath, htext, List.takeWhile_eq_self_iff]
    intro b hb
    obtain ⟨i, hi, rfl⟩ := List.mem_map.1 hb
    exact hkeep 58 s (fun i hi => (hbefore i hi).2) i (List.mem_range.1 hi)
  · obtain ⟨t, ht, hzero, hfirst⟩ := hterm.firstStop (fun b => b = 0) rfl
    simp only [decide_eq_true_eq, decide_eq_false_iff_not] at hzero hfirst
    have hst : s < t := by
      by_contra hle
      rcases Nat.lt_or_eq_of_le (Nat.le_of_not_lt hle) with hlt | rfl
      · exact (hbefore t hlt).1 hzero
      · rw [hcolon] at hzero
        exact absurd hzero (by decide)
    have htext : text p = bytes p t := takeWhile_bytes ht (hkeep 0 t hfirst) (by simp [hzero])
    rw [devicePath, htext]
    exact takeWhile_bytes hst (hkeep 58 s fun i hi => (hbefore i hi).2) (by simp [hcolon])

theorem stdoutNode_devicePath {pathOffset : List UInt8 → Int} {fdt : Tree} {prop : Property}
    (hprop : fdtGetprop fdt (pathOffset (cstr "/chosen")) "stdout-path" = .ok prop)
    (hterm : Terminated prop) :
    (stdoutNode pathOffset fdt).value = pathOffset (devicePath prop) := by
  obtain ⟨s, hs, hstop, hfirst⟩ := hterm.firstStop (fun b => b = 0 ∨ b = 58) rfl
  have hbefore (i : Nat) (hi : i < s) : prop.mem i ≠ 0 ∧ prop.mem i ≠ 58 := by
    simpa using hfirst i hi
  have hend (i : Nat) (hi : i < prop.len) : i < 0 + prop.tokenOffset := by
    rw [Nat.zero_add, Property.tokenOffset]
    omega
  have hsep : (strchr prop 58).value = if prop.mem s = 0 then none else some s := by
    have hscan : (scan prop (fun b => b = 0 ∨ b = 58) 0 prop.tokenOffset).value = s :=
      scan_value prop _ (Nat.zero_le s) (hend s hs) (fun j _ hj => hfirst j hj) hstop
    rw [strchr, value_bind, hscan, value_pure]
  have hlen : prop.len ≠ 0 := by omega
  rw [devicePath_eq hs hbefore (by simpa using hstop) hterm]
  simp only [stdoutNode, offset_of_getprop hprop, if_true, hprop, if_pos hlen, value_bind, hsep]
  by_cases hzero : prop.mem s = 0
  · have hscan : (strlen prop).value = s := by
      refine scan_value prop _ (Nat.zero_le s) (hend s hs) ?_ (by simp [hzero])
      exact fun j _ hj => by simpa using (hbefore j hj).1
    simp only [if_pos hzero, value_bind, hscan, value_pure]
  · simp only [if_neg hzero, value_pure]

/-! ## The driver that decides -/

/-- The driver matches the node. -/
def Matches (fdt : Tree) (noff : Int) (d : RegisteringDriver Dev) : Prop :=
  (fdtMatchNode fdt noff d.matchTable).isSome

/-- The driver at `k` is the first one that matches the node and does not answer
`-ENODEV` on it. -/
structure Decides (fdt : Tree) (noff : Int) (ds : List (RegisteringDriver Dev)) (k : Nat)
    (d : RegisteringDriver Dev) : Prop where
  get : ds[k]? = some d
  isMatch : Matches fdt noff d
  answers : d.result noff ≠ -ENODEV
  before : ∀ j < k, ∀ d', ds[j]? = some d' → Matches fdt noff d' → d'.result noff = -ENODEV

theorem Decides.tail {fdt : Tree} {noff : Int} {d d' : RegisteringDriver Dev}
    {ds : List (RegisteringDriver Dev)} {k : Nat} (h : Decides fdt noff (d' :: ds) (k + 1) d) :
    Decides fdt noff ds k d :=
  ⟨h.get, h.isMatch, h.answers, fun j hj d'' hget => h.before (j + 1) (by omega) d'' hget⟩

/-- The loop over the drivers of one node. It returns the answer of the driver that decides,
if that is not 0, and calls no driver on another node. -/
theorem probeLoop_decides {fdt : Tree} {noff : Int} {ds : List (RegisteringDriver Dev)} {k : Nat}
    {d : RegisteringDriver Dev} (h : Decides fdt noff ds k d) (pos : Nat)
    (st : SerialState Dev) :
    let out := probeLoop fdt (fun drv => (fdtMatchNode fdt noff drv.matchTable).map
      fun m => (noff, m)) (ds.map fun d => d.toFdtSerial) pos st
    (out.1 = if d.result noff = 0 then none else some (d.result noff)) ∧
      (out.2.currentDriver = if d.result noff = 0 then some (pos + k) else st.currentDriver) ∧
      (out.2.console = if d.result noff = 0 then
        zstageConsoleSetDevice st.console (some (d.dev noff)) else st.console) ∧
      ∃ rcs : List (Nat × Int), out.2.calls = st.calls ++ rcs.map fun c => ⟨c.1, noff, c.2⟩ := by
  induction ds generalizing k pos st with
  | nil => exact absurd h.get (by simp)
  | cons d' rest ih =>
    cases k with
    | zero =>
      obtain rfl : d' = d := by simpa using h.get
      obtain ⟨m, hm⟩ := Option.isSome_iff_exists.1 h.isMatch
      simp only [List.map_cons, probeLoop, RegisteringDriver.toFdtSerial_matchTable, hm,
        Option.map_some, d'.toFdtSerial_init, if_neg h.answers]
      by_cases hzero : d'.result noff = 0
      · exact ⟨by simp [hzero], by simp [hzero], by simp [hzero], [(pos, 0)], by simp [hzero]⟩
      · exact ⟨by simp [hzero], by simp [hzero], by simp [hzero], [(pos, d'.result noff)],
          by simp [hzero]⟩
    | succ k =>
      have hpos : pos + 1 + k = pos + (k + 1) := by omega
      cases hm : fdtMatchNode fdt noff d'.matchTable with
      | none =>
        simp only [List.map_cons, probeLoop, RegisteringDriver.toFdtSerial_matchTable, hm,
          Option.map_none, ← hpos]
        exact ih h.tail (pos + 1) st
      | some m =>
        have hskip : d'.result noff = -ENODEV :=
          h.before 0 (Nat.succ_pos k) d' rfl (Option.isSome_iff_exists.2 ⟨m, hm⟩)
        have hne : -ENODEV ≠ 0 := by decide
        simp only [List.map_cons, probeLoop, RegisteringDriver.toFdtSerial_matchTable, hm,
          Option.map_some, d'.toFdtSerial_init, hskip, if_true, if_neg hne, ← hpos]
        obtain ⟨hret, hcur, hcon, rcs, hcalls⟩ := ih h.tail (pos + 1)
          ⟨st.console, st.currentDriver, st.calls ++ [⟨pos, noff, -ENODEV⟩]⟩
        exact ⟨hret, hcur, hcon, (pos, -ENODEV) :: rcs, by rw [hcalls]; simp⟩

theorem Matches.offset {fdt : Tree} {noff : Int} {d : RegisteringDriver Dev}
    (h : Matches fdt noff d) : -1 < noff := by
  by_contra hneg
  rw [Matches, fdtMatchNode, if_pos (by omega)] at h
  cases h

/-- stdout-path has priority: the driver that decides on its node is selected with its device
as the console, or its error is returned with no device registered, and no driver is tried
on another node. -/
theorem stdout_path_priority (pathOffset : List UInt8 → Int) (fdt : Tree) (prop : Property)
    (ds : List (RegisteringDriver Dev)) (k : Nat) (d : RegisteringDriver Dev)
    (hprop : fdtGetprop fdt (pathOffset (cstr "/chosen")) "stdout-path" = .ok prop)
    (hterm : Terminated prop) (hdec : Decides fdt (pathOffset (devicePath prop)) ds k d) :
    let noff := pathOffset (devicePath prop)
    let out := (fdtSerialInit pathOffset fdt (ds.map fun d => d.toFdtSerial)
      ⟨⟨none⟩, none, []⟩).value
    out.1 = d.result noff ∧ (∀ call ∈ out.2.calls, call.node = noff) ∧
      (d.result noff = 0 →
        out.2.currentDriver = some k ∧ out.2.console.consoleDev = some (d.dev noff)) ∧
      (d.result noff ≠ 0 → out.2.currentDriver = none ∧ out.2.console.consoleDev = none) := by
  obtain ⟨hret, hcur, hcon, rcs, hcalls⟩ := probeLoop_decides hdec 0 ⟨⟨none⟩, none, []⟩
  have hnodes : ∀ call ∈ rcs.map fun c => (⟨c.1, pathOffset (devicePath prop), c.2⟩ : InitCall),
      call.node = pathOffset (devicePath prop) := by
    rintro call hcall
    obtain ⟨c, -, rfl⟩ := List.mem_map.1 hcall
    rfl
  simp only [fdtSerialInit, value_bind, stdoutNode_devicePath hprop hterm, stdoutProbe,
    if_pos hdec.isMatch.offset]
  generalize probeLoop fdt (fun drv => (fdtMatchNode fdt (pathOffset (devicePath prop))
    drv.matchTable).map fun m => (pathOffset (devicePath prop), m))
    (ds.map fun d => d.toFdtSerial) 0 ⟨⟨none⟩, none, []⟩ = first at *
  by_cases hzero : d.result (pathOffset (devicePath prop)) = 0
  · rw [if_pos hzero] at hret hcur hcon
    have hsel : first.2.currentDriver.isSome := by rw [hcur]; rfl
    simp only [hret, if_pos hsel, value_pure]
    refine ⟨hzero.symm, by rwa [hcalls], fun _ => ⟨?_, ?_⟩, fun hne => absurd hzero hne⟩
    · rw [hcur, Nat.zero_add]
    · rw [hcon]
      rfl
  · rw [if_neg hzero] at hret hcur hcon
    simp only [hret, value_pure]
    refine ⟨trivial, by rwa [hcalls], fun h => absurd h hzero, fun _ => ⟨hcur, ?_⟩⟩
    rw [hcon]

/-- Two `ns16550` nodes below the root and a stdout-path with options that names the second
one. -/
def uartsWithChosen : Tree :=
  Tree.ofNodes
    [⟨none, []⟩, ⟨some 0, [ns16550]⟩, ⟨some 0, [ns16550]⟩,
      ⟨some 0, [.ofBytes "stdout-path" (cstr "/serial@2:115200n8" ++ [0]) (by decide)]⟩]
    (by decide) (by decide)

def chosenPathOffset (path : List UInt8) : Int :=
  if path = cstr "/chosen" then 3
  else if path = cstr "/serial@2" then 2
  else -FDT_ERR_NOTFOUND

/-- Drivers of which the second answers `rc` on every node. -/
def driversAnswering (rc : Int) : List (RegisteringDriver Int) :=
  [⟨serialUart8250Match, fun _ => -ENODEV, id⟩, ⟨serialUart8250Match, fun _ => rc, id⟩]

theorem stdout_path_priority_sample :
    let out := (fdtSerialInit chosenPathOffset uartsWithChosen
      ((driversAnswering 0).map fun d => d.toFdtSerial) ⟨⟨none⟩, none, []⟩).value
    out.2.currentDriver = some 1 ∧ out.2.console.consoleDev = some 2 := by
  have hdec : Decides uartsWithChosen 2 (driversAnswering 0) 1
      ⟨serialUart8250Match, fun _ => 0, id⟩ := by
    refine ⟨rfl, by unfold Matches; decide +kernel, by decide, fun j hj d' hget _ => ?_⟩
    obtain rfl : j = 0 := by omega
    obtain rfl := Option.some.inj hget
    rfl
  have hpath : chosenPathOffset (devicePath (.ofBytes "stdout-path"
      (cstr "/serial@2:115200n8" ++ [0]) (by decide))) = 2 := by decide +kernel
  obtain ⟨-, -, hsel, -⟩ := stdout_path_priority chosenPathOffset uartsWithChosen
    (.ofBytes "stdout-path" (cstr "/serial@2:115200n8" ++ [0]) (by decide))
    (driversAnswering 0) 1 ⟨serialUart8250Match, fun _ => 0, id⟩ rfl ⟨18, by decide, rfl⟩
    (by rw [hpath]; exact hdec)
  exact hpath ▸ hsel rfl

end ZStage.Serial
