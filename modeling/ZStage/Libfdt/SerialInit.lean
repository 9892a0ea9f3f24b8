import ZStage.Libfdt.Aliases
import ZStage.Libfdt.Helper
import ZStage.Serial.FdtSerialHtif

/-!
`fdt_serial_init` over the bytes of a blob. A driver is called with an offset in the
blob; a driver over the tree that answers the same at every node stands for it. What
the function does on a blob that presents a tree is what it does on the tree.
-/

namespace ZStage.Libfdt

open ZStage.Lib.CString ZStage.Lib.Rounds ZStage.Lib.Trace ZStage.Fdt ZStage.Serial

variable {Dev : Type}

/-- `struct fdt_serial`; `init` is bounded like the loops of libfdt. -/
structure BlobSerial (Dev : Type) where
  matchTable : MatchTable
  init : Option (Dtb → Nat → Int → FdtMatch → Console Dev → Option (Int × Console Dev))

namespace Dtb

section Definitions

variable (fdt : Dtb)

/-- The node that stdout-path points to, -1 when there is none. -/
def stdoutNode (fuel calls : Nat) : Option Int := do
  let coff ← fdt.fdtPathOffset fuel calls (cstr "/chosen")
  if -1 < coff then do
    let prop ← fdt.fdtGetprop fuel coff (cstr "stdout-path")
    match prop with
    | .error _ => some (-1)
    | .ok prop =>
      if prop.len ≠ 0 then do
        let start := fdt.bytesAt prop.data
        -- the device path may be followed by ':'
        let sep ← (Libc.strchr start 58 fuel).value
        match sep with
        | some n => fdt.fdtPathOffsetNamelen fuel calls ((List.range (n + 1)).map start) n
        | none => do
          let len ← (Libc.strlen start fuel).value
          fdt.fdtPathOffset fuel calls ((List.range len).map start)
      else some (-1)
  else some (-1)

def probeLoop (fuel : Nat) (candidate : BlobSerial Dev → Option (Option (Int × FdtMatch))) :
    List (BlobSerial Dev) → Nat → SerialState Dev → Option (Option Int × SerialState Dev)
  | [], _, st => some (none, st)
  | drv :: rest, pos, st => do
    let found ← candidate drv
    match found with
    | none => probeLoop fuel candidate rest (pos + 1) st
    | some (noff, m) =>
      match drv.init with
      | none => some (none, { st with currentDriver := some pos })
      | some init => do
        let result ← init fdt fuel noff m st.console
        let st := { st with console := result.2, calls := st.calls ++ [⟨pos, noff, result.1⟩] }
        if result.1 = -ENODEV then probeLoop fuel candidate rest (pos + 1) st
        else if result.1 ≠ 0 then some (some result.1, st)
        else some (none, { st with currentDriver := some pos })

def stdoutProbe (fuel : Nat) (drivers : List (BlobSerial Dev)) (noff : Int)
    (st : SerialState Dev) : Option (Option Int × SerialState Dev) :=
  if -1 < noff then
    fdt.probeLoop fuel (fun drv => do
      let m ← fdt.fdtMatchNode fuel noff drv.matchTable
      some (m.map fun m => (noff, m))) drivers 0 st
  else some (none, st)

/-- The second loop: each driver on the node that `fdt_find_match` returns. -/
def fallbackProbe (fuel : Nat) (drivers : List (BlobSerial Dev)) (st : SerialState Dev) :
    Option (Option Int × SerialState Dev) :=
  fdt.probeLoop fuel (fun drv => do
    let found ← fdt.fdtFindMatch fuel (-1) none drv.matchTable
    some (if found.1 < 0 then none else found.2.map fun m => (found.1, m))) drivers 0 st

def fdtSerialInit (fuel calls : Nat) (drivers : List (BlobSerial Dev)) (st : SerialState Dev) :
    Option (Int × SerialState Dev) := do
  let noff ← fdt.stdoutNode fuel calls
  let first ← fdt.stdoutProbe fuel drivers noff st
  match first.1 with
  | some rc => some (rc, first.2)
  | none =>
    if first.2.currentDriver.isSome then some (0, first.2)
    else do
      let last ← fdt.fallbackProbe fuel drivers first.2
      some (last.1.getD 0, last.2)

end Definitions

variable {fdt : Dtb} {tokens : List Token}

/-! ## The probe loops -/

/-- The calls of a state with the offsets of the blob. -/
def atOffsets (tokens : List Token) (st : SerialState Dev) : SerialState Dev :=
  { st with calls := st.calls.map fun call => { call with node := place tokens call.node } }

/-- A driver over the tree stands for one over the blob. -/
structure Stands (h : fdt.Presents tokens) (fuel : Nat) (drv : BlobSerial Dev)
    (drv' : FdtSerial Dev) : Prop where
  matchTable : drv.matchTable = drv'.matchTable
  dummy : drv.init = none ↔ drv'.init = none
  answers : ∀ init init', drv.init = some init → drv'.init = some init' →
    ∀ (i : Nat) (e : Entry), (nodes tokens)[i]? = some e → ∀ m con,
      init fdt fuel e.offset m con = some (init' h.tree i m con)

/-- A node that a driver is tried on, in the blob. -/
def tried (tokens : List Token) (found : Option (Int × FdtMatch)) : Option (Int × FdtMatch) :=
  found.map fun c => (place tokens c.1, c.2)

section Presents

variable (h : fdt.Presents tokens) {fuel : Nat}

theorem Presents.probeLoop {candidate : BlobSerial Dev → Option (Option (Int × FdtMatch))}
    {candidate' : FdtSerial Dev → Option (Int × FdtMatch)} {drivers : List (BlobSerial Dev)}
    {drivers' : List (FdtSerial Dev)} (hdrivers : List.Forall₂ (Stands h fuel) drivers drivers')
    (hcandidate : ∀ drv drv', drv.matchTable = drv'.matchTable →
      candidate drv = some (tried tokens (candidate' drv')))
    (hnode : ∀ drv' c, candidate' drv' = some c → ∃ (i : Nat) (e : Entry),
      c.1 = i ∧ (nodes tokens)[i]? = some e)
    (pos : Nat) (st : SerialState Dev) :
    fdt.probeLoop fuel candidate drivers pos (atOffsets tokens st) =
      some ((Serial.probeLoop h.tree candidate' drivers' pos st).1,
        atOffsets tokens (Serial.probeLoop h.tree candidate' drivers' pos st).2) := by
  induction hdrivers generalizing pos st with
  | nil => rfl
  | @cons drv drv' drivers drivers' hstands hrest ih =>
    rw [Dtb.probeLoop, hcandidate drv drv' hstands.matchTable, Serial.probeLoop,
      Option.bind_eq_bind, Option.bind_some]
    cases hfound : candidate' drv' with
    | none => exact ih (pos + 1) st
    | some c =>
      obtain ⟨i, e, hc, hi⟩ := hnode drv' c hfound
      obtain ⟨noff, m⟩ := c
      obtain rfl : noff = (i : Nat) := hc
      simp only [tried, Option.map_some, place_natCast hi]
      cases hinit : drv.init with
      | none =>
        rw [hstands.dummy.1 hinit]
        rfl
      | some init =>
        cases hinit' : drv'.init with
        | none => rw [hstands.dummy.2 hinit'] at hinit; cases hinit
        | some init' =>
          have hanswer := hstands.answers init init' hinit hinit' i e hi m st.console
          have hcalls (current : Option Nat) : atOffsets tokens
              ⟨(init' h.tree i m st.console).2, current,
                st.calls ++ [⟨pos, i, (init' h.tree i m st.console).1⟩]⟩ =
              ⟨(init' h.tree i m st.console).2, current,
                (atOffsets tokens st).calls ++
                  [⟨pos, e.offset, (init' h.tree i m st.console).1⟩]⟩ := by
            simp [atOffsets, place_natCast hi]
          simp only [show (atOffsets tokens st).console = st.console from rfl,
            show (atOffsets tokens st).currentDriver = st.currentDriver from rfl, hanswer,
            Option.bind_eq_bind, Option.bind_some, ← hcalls]
          split_ifs
          · exact ih (pos + 1) _
          · rfl
          · rfl

theorem Presents.stdoutProbe (hfuel : fdt.totalsize < fuel) {drivers : List (BlobSerial Dev)}
    {drivers' : List (FdtSerial Dev)} (hdrivers : List.Forall₂ (Stands h fuel) drivers drivers')
    {noff : Int} (hnoff : IsPosition tokens noff) (st : SerialState Dev) :
    fdt.stdoutProbe fuel drivers (place tokens noff) (atOffsets tokens st) =
      some ((Serial.stdoutProbe h.tree drivers' noff st).1,
        atOffsets tokens (Serial.stdoutProbe h.tree drivers' noff st).2) := by
  rw [Dtb.stdoutProbe, Serial.stdoutProbe]
  rcases hnoff with hneg | ⟨i, e, rfl, hi⟩
  · rw [place_neg hneg, if_neg (by omega), if_neg (by omega)]
  · rw [place_natCast hi, if_pos (by omega), if_pos (by omega)]
    refine h.probeLoop hdrivers ?_ ?_ 0 st
    · intro drv drv' htable
      rw [h.matchNode hi hfuel, htable, Option.bind_eq_bind, Option.bind_some, tried,
        Option.map_map]
      simp only [Function.comp_def, place_natCast hi]
    · intro drv' c hc
      obtain ⟨m, -, rfl⟩ := Option.map_eq_some_iff.1 hc
      exact ⟨i, e, rfl, hi⟩

theorem Presents.isPosition_findMatch (outMatch : Option FdtMatch) (table : MatchTable) :
    IsPosition tokens (Fdt.fdtFindMatch h.tree (-1) outMatch table).1 := by
  induction table with
  | nil =>
    have hneg : -ENODEV < 0 := by decide
    exact Or.inl hneg
  | cons m rest ih =>
    rw [Fdt.fdtFindMatch]
    split_ifs
    · exact h.isPosition_compatible m
    · exact ih

theorem Presents.fallbackProbe (hfuel : fdt.totalsize < fuel) {drivers : List (BlobSerial Dev)}
    {drivers' : List (FdtSerial Dev)} (hdrivers : List.Forall₂ (Stands h fuel) drivers drivers')
    (st : SerialState Dev) :
    fdt.fallbackProbe fuel drivers (atOffsets tokens st) =
      some ((Serial.fallbackProbe h.tree drivers' st).1,
        atOffsets tokens (Serial.fallbackProbe h.tree drivers' st).2) := by
  rw [Dtb.fallbackProbe, Serial.fallbackProbe]
  refine h.probeLoop hdrivers ?_ ?_ 0 st
  · intro drv drv' htable
    have hposition := h.isPosition_findMatch none drv'.matchTable
    have hneg : place tokens (Fdt.fdtFindMatch h.tree (-1) none drv'.matchTable).1 < 0 ↔
        (Fdt.fdtFindMatch h.tree (-1) none drv'.matchTable).1 < 0 := by
      have hnonneg := place_nonneg_iff hposition
      omega
    simp only [h.findMatch hfuel, htable, Option.bind_eq_bind, Option.bind_some, hneg, tried]
    split_ifs
    · rfl
    · rw [Option.map_map]
      rfl
  · intro drv' c hc
    have hposition := h.isPosition_findMatch none drv'.matchTable
    simp only at hc
    split_ifs at hc with hneg
    obtain ⟨m, -, rfl⟩ := Option.map_eq_some_iff.1 hc
    exact hposition.resolve_left hneg

end Presents

/-! ## The drivers -/

/-- What the drivers of the devices do with what has been decoded for them. -/
structure Starts (w : Nat) (Dev : Type) where
  cadence : PlatformUartData → Console Dev → Int × Console Dev
  uart8250 : PlatformUartData → Console Dev → Int × Console Dev
  htif : HtifArgs w → Console Dev → Int × Console Dev

/-- What the locals of `fdt_parse_uart_node` and of `serial_uart8250_init` hold on entry. -/
structure Locals where
  regAddr : UInt64
  regSize : UInt64
  uart : PlatformUartData

section Drivers

variable {w : Nat} (locals : Locals)

def uartSerial (table : MatchTable) (start : PlatformUartData → Console Dev → Int × Console Dev)
    (uart : PlatformUartData) : FdtSerial Dev where
  matchTable := table
  init := some fun tree nodeoff _ con =>
    let parsed := (Fdt.fdtParseUartNode tree nodeoff locals.regAddr locals.regSize uart).value
    if parsed.1 ≠ 0 then (parsed.1, con) else start parsed.2 con

def htifSerial (table : MatchTable) (start : HtifArgs w → Console Dev → Int × Console Dev) :
    FdtSerial Dev where
  matchTable := table
  init := some fun tree nodeoff _ con => start (Serial.serialHtifInit w tree nodeoff).value con

def serialDrivers (starts : Starts w Dev) : List (FdtSerial Dev) :=
  [uartSerial locals serialCadenceMatch starts.cadence ⟨0, 0, 0, 0, 0⟩,
    uartSerial locals serialUart8250Match starts.uart8250 locals.uart,
    htifSerial serialHtifMatch starts.htif]

/-! The same over the bytes. -/

def uartBlobSerial (table : MatchTable)
    (start : PlatformUartData → Console Dev → Int × Console Dev) (uart : PlatformUartData) :
    BlobSerial Dev where
  matchTable := table
  init := some fun fdt fuel nodeoff _ con => do
    let parsed ← fdt.fdtParseUartNode fuel nodeoff locals.regAddr locals.regSize uart
    some (if parsed.1 ≠ 0 then (parsed.1, con) else start parsed.2 con)

def serialHtifInit (w : Nat) (fdt : Dtb) (fuel : Nat) (nodeoff : Int) : Option (HtifArgs w) := do
  let first ← fdt.fdtGetNodeAddrSize fuel nodeoff 0 (some 0) none
  let custom := decide (first.rc = 0)
  let fromhostAddr := first.addr.getD 0
  let tohostAddr := if custom then fromhostAddr + 8 else 0
  let second ← fdt.fdtGetNodeAddrSize fuel nodeoff 1 (some tohostAddr) none
  let tohostAddr := second.addr.getD tohostAddr
  some ⟨custom, BitVec.ofNat w fromhostAddr.toNat, BitVec.ofNat w tohostAddr.toNat⟩

def htifBlobSerial (table : MatchTable) (start : HtifArgs w → Console Dev → Int × Console Dev) :
    BlobSerial Dev where
  matchTable := table
  init := some fun fdt fuel nodeoff _ con => do
    let args ← serialHtifInit w fdt fuel nodeoff
    some (start args con)

def blobDrivers (starts : Starts w Dev) : List (BlobSerial Dev) :=
  [uartBlobSerial locals serialCadenceMatch starts.cadence ⟨0, 0, 0, 0, 0⟩,
    uartBlobSerial locals serialUart8250Match starts.uart8250 locals.uart,
    htifBlobSerial serialHtifMatch starts.htif]

variable (h : fdt.Presents tokens) {fuel : Nat} (hfuel : fdt.totalsize < fuel)

include hfuel

theorem Presents.uartSerial (table : MatchTable)
    (start : PlatformUartData → Console Dev → Int × Console Dev) (uart : PlatformUartData) :
    Stands h fuel (uartBlobSerial locals table start uart)
      (Dtb.uartSerial locals table start uart) := by
  refine ⟨rfl, iff_of_false nofun nofun, ?_⟩
  rintro _ _ ⟨⟩ ⟨⟩ i e hi m con
  simp only [h.parseUartNode hi hfuel, Option.bind_eq_bind, Option.bind_some]

theorem Presents.htifSerial (table : MatchTable)
    (start : HtifArgs w → Console Dev → Int × Console Dev) :
    Stands h fuel (htifBlobSerial table start) (Dtb.htifSerial table start) := by
  refine ⟨rfl, iff_of_false nofun nofun, ?_⟩
  rintro _ _ ⟨⟩ ⟨⟩ i e hi m con
  simp only [serialHtifInit, Serial.serialHtifInit, h.getNodeAddrSize hi hfuel,
    Option.bind_eq_bind, Option.bind_some, value_bind, value_pure]

/-- The drivers over the tree stand for those over the bytes. -/
theorem Presents.serialDrivers (starts : Starts w Dev) :
    List.Forall₂ (Stands h fuel) (blobDrivers locals starts) (Dtb.serialDrivers locals starts) :=
  .cons (h.uartSerial locals hfuel _ _ _) <| .cons (h.uartSerial locals hfuel _ _ _) <|
    .cons (h.htifSerial hfuel _ _) .nil

end Drivers

/-! ## The node of stdout-path -/

/-- `fdt_path_offset_namelen` does not look at what is behind the path. -/
theorem pathOffsetNamelen_append (fuel calls : Nat) {c : UInt8} (hc : c ≠ 47)
    (path : List UInt8) :
    fdt.fdtPathOffsetNamelen fuel calls (path ++ [c]) path.length =
      fdt.fdtPathOffset fuel calls path := by
  cases calls with
  | zero => rfl
  | succ calls =>
    have hhead : (path ++ [c]).head? = some 47 ↔ path.head? = some 47 := by
      cases path with
      | nil => simp [hc]
      | cons first path => rfl
    rw [fdtPathOffset, fdtPathOffsetNamelen, fdtPathOffsetNamelen, List.take_left,
      List.take_length]
    simp only [hhead]

theorem strchr_property (p : Property) {fuel : Nat} (hfuel : p.tokenOffset < fuel) :
    (Libc.strchr p.mem 58 fuel).value = some (Serial.strchr p 58).value := by
  have hchar : Libc.toChar 58 ≠ 0 := by decide
  obtain ⟨n, hn, hstring⟩ := terminated_property p
  obtain ⟨r, hr, hfirst⟩ := Libc.strchr_isFirst hstring hchar (show n < fuel by omega)
  obtain ⟨r', hr', hfirst'⟩ :=
    Libc.strchr_isFirst hstring hchar (show n < p.tokenOffset + 1 by omega)
  rw [hr, hfirst.unique hfirst', ← hr', strchr_libc]
  rfl

/-- What `strchr` finds is the character. -/
theorem mem_of_strchr {p : Property} {n : Nat} (h : (Serial.strchr p 58).value = some n) :
    p.mem n = 58 := by
  have hchar : Libc.toChar 58 ≠ 0 := by decide
  obtain ⟨k, hk, hstring⟩ := terminated_property p
  obtain ⟨r, hr, hfirst⟩ :=
    Libc.strchr_isFirst hstring hchar (show k < p.tokenOffset + 1 by omega)
  rw [strchr_property p (Nat.lt_succ_self _), h, Option.some.injEq] at hr
  rw [← hr] at hfirst
  exact hfirst.2.1

def stdoutPath (prop : Property) : List UInt8 :=
  match (Serial.strchr prop 58).value with
  | some n => bytes prop n
  | none => stringOf prop

theorem stdoutNode_value (pathOffset : List UInt8 → Int) (tree : Tree) :
    (Serial.stdoutNode pathOffset tree).value =
      match Fdt.fdtGetprop tree (pathOffset (cstr "/chosen")) "stdout-path" with
      | .error _ => -1
      | .ok prop => if prop.len ≠ 0 then pathOffset (stdoutPath prop) else -1 := by
  rw [Serial.stdoutNode]
  cases hprop : Fdt.fdtGetprop tree (pathOffset (cstr "/chosen")) "stdout-path" with
  | error err =>
    simp only
    split_ifs <;> rfl
  | ok prop =>
    simp only [offset_of_getprop hprop, if_true]
    split_ifs
    · rw [value_bind, stdoutPath]
      cases (Serial.strchr prop 58).value <;> rfl
    · rfl

section Stdout

variable (h : fdt.Presents tokens) {fuel : Nat} (hfuel : fdt.totalsize < fuel)

include hfuel

theorem Presents.stdoutNode_eq (calls : Nat) :
    fdt.stdoutNode fuel (calls + 1) =
      match Fdt.fdtGetprop h.tree (below tokens 0 [cstr "chosen"]) "stdout-path" with
      | .error _ => some (-1)
      | .ok prop =>
        if prop.len ≠ 0 then fdt.fdtPathOffset fuel (calls + 1) (stdoutPath prop)
        else some (-1) := by
  have hcomponents : components (cstr "/chosen") = [cstr "chosen"] := by decide
  have hname : nameString (cstr "stdout-path") = "stdout-path" := by decide
  have hposition := isPosition_below h.isPosition_root [cstr "chosen"]
  rw [stdoutNode, h.pathOffset_root hfuel calls (by decide), hcomponents, Option.bind_eq_bind,
    Option.bind_some]
  rcases hposition with hneg | ⟨i, e, hi, hnode⟩
  · rw [place_neg hneg, if_neg (by omega), Fdt.fdtGetprop, Tree.node?, if_pos hneg]
  · rw [hi, place_natCast hnode, if_pos (by omega)]
    obtain ⟨r, hr, hsame⟩ := h.getprop hnode hfuel (cstr "stdout-path")
    rw [hname] at hsame
    rw [hr, Option.bind_eq_bind, Option.bind_some]
    rcases hsame.cases with ⟨err, rfl, herr⟩ | ⟨v, p, rfl, hp, hlen, hmem⟩
    · rw [herr]
    · have hzero : v.len ≠ 0 ↔ p.len ≠ 0 := by omega
      have hroom := h.tokenOffset_le hnode hp
      simp only [hp, hzero, hmem, strchr_property p (Nat.lt_of_le_of_lt hroom hfuel),
        strlen_property p (Nat.lt_of_le_of_lt hroom hfuel), Option.bind_eq_bind, Option.bind_some,
        stdoutPath]
      split_ifs
      · cases hsep : (Serial.strchr p 58).value with
        | none => rfl
        | some n =>
          have hlen : (bytes p n).length = n := by rw [bytes, List.length_map, List.length_range]
          have hcolon : (58 : UInt8) ≠ 47 := by decide
          have happend := fdt.pathOffsetNamelen_append fuel (calls + 1) hcolon (bytes p n)
          rw [hlen] at happend
          simp only
          rw [List.range_succ, List.map_append, List.map_singleton, mem_of_strchr hsep, ← happend]
          rfl
      · rfl

/-- A lookup of paths that is right about one of them. -/
def Presents.Follows (h : fdt.Presents tokens) (pathOffset : List UInt8 → Int)
    (path : List UInt8) : Prop :=
  ∃ paths, h.lookup paths path = some (pathOffset path)

theorem Presents.Follows.pathOffset {h : fdt.Presents tokens} {pathOffset : List UInt8 → Int}
    {path : List UInt8} (hfollows : h.Follows pathOffset path) {calls : Nat} {offset : Int}
    (hoffset : fdt.fdtPathOffset fuel calls path = some offset) :
    offset = place tokens (pathOffset path) := by
  obtain ⟨paths, hlookup⟩ := hfollows
  obtain ⟨position, hposition, rfl⟩ := h.lookup_of_pathOffset hfuel hoffset
  rw [run_unique h.aliasRound hposition hlookup]

/-- The lookups of the two paths are right, the second one being that of the device. -/
structure Presents.Paths (h : fdt.Presents tokens) (pathOffset : List UInt8 → Int) : Prop where
  chosen : h.Follows pathOffset (cstr "/chosen")
  device : ∀ prop,
    Fdt.fdtGetprop h.tree (pathOffset (cstr "/chosen")) "stdout-path" = .ok prop →
      prop.len ≠ 0 → h.Follows pathOffset (stdoutPath prop)

section Stdout

variable {h} {pathOffset : List UInt8 → Int} (hpaths : h.Paths pathOffset)

include hpaths

omit hfuel in
theorem Presents.Paths.chosen_eq :
    pathOffset (cstr "/chosen") = below tokens 0 [cstr "chosen"] := by
  have hcomponents : components (cstr "/chosen") = [cstr "chosen"] := by decide
  have hroot : (cstr "/chosen").head? = some 47 := by decide
  obtain ⟨paths, hlookup⟩ := hpaths.chosen
  cases paths with
  | zero => cases hlookup
  | succ paths =>
    rw [lookup, run, aliasRound, if_pos hroot, hcomponents] at hlookup
    exact (Option.some.inj hlookup).symm

omit hfuel in
theorem Presents.Paths.isPosition :
    IsPosition tokens (Serial.stdoutNode pathOffset h.tree).value := by
  have hminus : (-1 : Int) < 0 := by decide
  rw [stdoutNode_value]
  cases hprop : Fdt.fdtGetprop h.tree (pathOffset (cstr "/chosen")) "stdout-path" with
  | error err => exact Or.inl hminus
  | ok prop =>
    simp only
    split_ifs with hlen
    · obtain ⟨paths, hlookup⟩ := hpaths.device prop hprop hlen
      exact h.lookup_isPosition hlookup
    · exact Or.inl hminus

/-- What the search for the node of stdout-path returns when it returns, and that it does. -/
theorem Presents.Paths.stdoutNode {calls : Nat} {noff : Int}
    (hnoff : fdt.stdoutNode fuel calls = some noff) :
    noff = place tokens (Serial.stdoutNode pathOffset h.tree).value := by
  have hminus : (-1 : Int) < 0 := by decide
  cases calls with
  | zero => cases hnoff
  | succ calls =>
    rw [h.stdoutNode_eq hfuel, ← hpaths.chosen_eq] at hnoff
    rw [stdoutNode_value]
    cases hprop : Fdt.fdtGetprop h.tree (pathOffset (cstr "/chosen")) "stdout-path" with
    | error err =>
      rw [hprop] at hnoff
      exact (Option.some.inj hnoff).symm.trans (place_neg hminus).symm
    | ok prop =>
      simp only [hprop] at hnoff ⊢
      split_ifs at hnoff ⊢ with hlen
      · exact (hpaths.device prop hprop hlen).pathOffset hfuel hnoff
      · exact (Option.some.inj hnoff).symm.trans (place_neg hminus).symm

theorem Presents.Paths.stdoutNode_returns :
    ∃ calls, fdt.stdoutNode fuel calls =
      some (place tokens (Serial.stdoutNode pathOffset h.tree).value) := by
  have hsome : ∃ calls noff, fdt.stdoutNode fuel calls = some noff := by
    cases hprop : Fdt.fdtGetprop h.tree (pathOffset (cstr "/chosen")) "stdout-path" with
    | error err =>
      refine ⟨1, -1, ?_⟩
      rw [h.stdoutNode_eq hfuel, ← hpaths.chosen_eq, hprop]
    | ok prop =>
      by_cases hlen : prop.len ≠ 0
      · obtain ⟨paths, hlookup⟩ := hpaths.device prop hprop hlen
        refine ⟨paths + 1, place tokens (pathOffset (stdoutPath prop)), ?_⟩
        rw [h.stdoutNode_eq hfuel, ← hpaths.chosen_eq, hprop]
        exact (if_pos hlen).trans (h.pathOffset_of_lookup hfuel hlookup)
      · refine ⟨1, -1, ?_⟩
        rw [h.stdoutNode_eq hfuel, ← hpaths.chosen_eq, hprop]
        exact if_neg hlen
  obtain ⟨calls, noff, hnoff⟩ := hsome
  exact ⟨calls, hnoff.trans (congrArg some (hpaths.stdoutNode hfuel hnoff))⟩

/-- `fdt_serial_init` on the bytes of a blob does what it does on the tree that they present. -/
theorem serialInit_on_blob {drivers : List (BlobSerial Dev)} {drivers' : List (FdtSerial Dev)}
    (hdrivers : List.Forall₂ (Stands h fuel) drivers drivers') (st : SerialState Dev)
    (r : Int × SerialState Dev) :
    (∃ calls, fdt.fdtSerialInit fuel calls drivers (atOffsets tokens st) = some r) ↔
      r = ((Serial.fdtSerialInit pathOffset h.tree drivers' st).value.1,
        atOffsets tokens (Serial.fdtSerialInit pathOffset h.tree drivers' st).value.2) := by
  have hrest (noff : Int) (hnoff : noff = place tokens (Serial.stdoutNode pathOffset h.tree).value)
      (calls : Nat) (hnode : fdt.stdoutNode fuel calls = some noff) :
      fdt.fdtSerialInit fuel calls drivers (atOffsets tokens st) =
        some ((Serial.fdtSerialInit pathOffset h.tree drivers' st).value.1,
          atOffsets tokens (Serial.fdtSerialInit pathOffset h.tree drivers' st).value.2) := by
    have hfirst := h.stdoutProbe hfuel hdrivers hpaths.isPosition st
    simp only [Dtb.fdtSerialInit, Serial.fdtSerialInit, hnode, hnoff, hfirst, Option.bind_eq_bind,
      Option.bind_some, value_bind]
    generalize Serial.stdoutProbe h.tree drivers'
      (Serial.stdoutNode pathOffset h.tree).value st = first
    obtain ⟨rc, first⟩ := first
    have hlast := h.fallbackProbe hfuel hdrivers first
    have hcurrent : (atOffsets tokens first).currentDriver = first.currentDriver := rfl
    cases rc with
    | some rc => rfl
    | none =>
      simp only [hcurrent, hlast, Option.bind_some]
      split_ifs <;> rfl
  constructor
  · rintro ⟨calls, hr⟩
    cases hnode : fdt.stdoutNode fuel calls with
    | none =>
      rw [Dtb.fdtSerialInit, hnode] at hr
      cases hr
    | some noff =>
      rw [hrest noff (hpaths.stdoutNode hfuel hnode) calls hnode] at hr
      exact (Option.some.inj hr).symm
  · rintro rfl
    obtain ⟨calls, hnode⟩ := hpaths.stdoutNode_returns hfuel
    exact ⟨calls, hrest _ rfl calls hnode⟩

end Stdout

end Stdout

/-- The UART that a driver has registered. -/
inductive BoardDevice
  | uart (uart : PlatformUartData)
  | htif
  deriving DecidableEq

def boardStarts : Starts 64 BoardDevice where
  cadence uart con := (0, zstageConsoleSetDevice con (some (.uart uart)))
  uart8250 uart con := (0, zstageConsoleSetDevice con (some (.uart uart)))
  htif _ con := (0, zstageConsoleSetDevice con (some .htif))

/-- The console of the board is the UART that stdout-path leads to by two aliases. -/
theorem serialInit_on_blob_board :
    let uart : PlatformUartData := ⟨0x10000000, 3686400, 115200, 0, 1⟩
    ∃ calls, (Source.board.blob 0x82200000).fdtSerialInit 1000 calls
      (blobDrivers ⟨7, 7, ⟨7, 7, 7, 7, 7⟩⟩ boardStarts) ⟨⟨none⟩, none, []⟩ =
        some (0, ⟨⟨some (.uart uart)⟩, some 1, [⟨1, place Source.board.tokens 4, 0⟩]⟩) := by
  intro uart
  have hfuel : (Source.board.blob 0x82200000).totalsize < 1000 := by decide +kernel
  let pathOffset (path : List UInt8) : Int := if path = cstr "/chosen" then 2 else 4
  have hstdout : (Fdt.fdtGetprop Source.board_presents.tree 2 "stdout-path").map stdoutPath =
      .ok (cstr "console") := by decide +kernel
  have hpaths : Source.board_presents.Paths pathOffset := by
    refine ⟨⟨1, by decide +kernel⟩, ?_⟩
    intro prop hprop _
    rw [show pathOffset (cstr "/chosen") = 2 from if_pos rfl] at hprop
    rw [hprop] at hstdout
    rw [Except.ok.inj hstdout]
    exact ⟨3, by decide +kernel⟩
  have hdrivers := Source.board_presents.serialDrivers ⟨7, 7, ⟨7, 7, 7, 7, 7⟩⟩ hfuel boardStarts
  refine (serialInit_on_blob hfuel hpaths hdrivers ⟨⟨none⟩, none, []⟩ _).2 ?_
  decide +kernel

end Dtb

end ZStage.Libfdt
