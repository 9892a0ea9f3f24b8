import ZStage.Lib.Rounds
import ZStage.Libfdt.Layout
import ZStage.Serial.StdoutPath

/-!
Paths that begin with an alias. The value of an alias is a path in turn, which may begin
with one again, so that `fdt_path_offset` calls itself: a round for each alias, with the
components behind it kept for later. Nothing in libfdt stops an alias that leads back to
itself.
-/

namespace ZStage.Libfdt

open ZStage.Lib.CString ZStage.Lib.Rounds ZStage.Lib.Trace ZStage.Fdt ZStage.Serial

/-- The position that names lead to, from a position down; an error stays one. -/
def below (tokens : List Token) (position : Int) (names : List (List UInt8)) : Int :=
  if position < 0 then position
  else
    match resolve tokens position.toNat names with
    | some j => j
    | none => -FDT_ERR_NOTFOUND

/-- The first component of a path without a `/` in front. -/
def aliasName (path : List UInt8) : List UInt8 := path.takeWhile (· ≠ 47)

def behindAlias (path : List UInt8) : List (List UInt8) := components (path.dropWhile (· ≠ 47))

section Positions

variable {tokens : List Token} {position : Int}

theorem below_neg (h : position < 0) (names : List (List UInt8)) :
    below tokens position names = position := if_pos h

theorem below_natCast (i : Nat) (names : List (List UInt8)) :
    below tokens i names =
      match resolve tokens i names with
      | some j => j
      | none => -FDT_ERR_NOTFOUND := by
  rw [below, if_neg (Int.not_lt.2 (Int.natCast_nonneg i)), Int.toNat_natCast]

theorem below_zero (names : List (List UInt8)) :
    below tokens 0 names =
      match resolve tokens 0 names with
      | some j => j
      | none => -FDT_ERR_NOTFOUND := below_natCast 0 names

theorem resolve_append (i : Nat) (first last : List (List UInt8)) :
    resolve tokens i (first ++ last) =
      (resolve tokens i first).bind fun j => resolve tokens j last := by
  induction first generalizing i with
  | nil => rfl
  | cons s first ih =>
    rw [List.cons_append, resolve, resolve, Option.bind_assoc]
    exact congrArg _ (funext fun j => ih j)

theorem below_append (first last : List (List UInt8)) :
    below tokens position (first ++ last) = below tokens (below tokens position first) last := by
  by_cases hneg : position < 0
  · rw [below_neg hneg, below_neg hneg, below_neg hneg]
  · obtain ⟨i, rfl⟩ := Int.eq_ofNat_of_zero_le (Int.not_lt.1 hneg)
    rw [below_natCast, below_natCast, resolve_append]
    cases resolve tokens i first with
    | none => rw [Option.bind_none, below_neg (by decide)]
    | some j => rw [Option.bind_some, below_natCast]

theorem resolve_isPosition {i j : Nat} {names : List (List UInt8)} {e : Entry}
    (hi : (nodes tokens)[i]? = some e) (h : resolve tokens i names = some j) :
    ∃ e', (nodes tokens)[j]? = some e' := by
  induction names generalizing i e with
  | nil =>
    cases h
    exact ⟨e, hi⟩
  | cons s names ih =>
    obtain ⟨k, hk, hrest⟩ := Option.bind_eq_some_iff.1 h
    obtain ⟨e', hk'⟩ := Dtb.childNamed_node hk
    exact ih hk' hrest

theorem isPosition_below (h : IsPosition tokens position) (names : List (List UInt8)) :
    IsPosition tokens (below tokens position names) := by
  rcases h with hneg | ⟨i, e, rfl, hi⟩
  · rw [below_neg hneg]
    exact Or.inl hneg
  · rw [below_natCast]
    cases hresolve : resolve tokens i names with
    | none => exact Or.inl (by decide)
    | some j =>
      obtain ⟨e', hj⟩ := resolve_isPosition hi hresolve
      exact Or.inr ⟨j, e', rfl, hj⟩

end Positions

namespace Dtb

variable {fdt : Dtb} {tokens : List Token}

theorem place_found {i : Nat} (names : List (List UInt8)) :
    placeFound tokens (resolve tokens i names) = place tokens (below tokens i names) := by
  rw [below_natCast]
  cases resolve tokens i names with
  | some j => rfl
  | none =>
    have hneg : -FDT_ERR_NOTFOUND < 0 := by decide
    exact (place_neg hneg).symm

/-! ## The string of a property -/

theorem terminated_property (p : Property) : ∃ n ≤ p.tokenOffset, Terminated p.mem n := by
  have hex : ∃ n, p.mem n = 0 := ⟨p.tokenOffset, p.mem_tokenOffset⟩
  refine ⟨Nat.find hex, Nat.find_min' hex p.mem_tokenOffset, ?_, Nat.find_spec hex⟩
  exact fun i hi => Nat.find_min hex hi

theorem strlen_property (p : Property) {fuel : Nat} (hfuel : p.tokenOffset < fuel) :
    (Libc.strlen p.mem fuel).value = some (Serial.strlen p).value := by
  obtain ⟨n, hn, hstring⟩ := terminated_property p
  rw [← strlen_libc, Libc.strlen_value hstring (by omega), Libc.strlen_value hstring (by omega)]

/-- The string that a value begins with. -/
def stringOf (p : Property) : List UInt8 := bytes p (Serial.strlen p).value

section Presents

variable (h : fdt.Presents tokens) {i : Nat} {e : Entry} {fuel : Nat}

include h

/-! ## Aliases -/

/-- The path that an alias stands for. -/
def Presents.aliasPath (name : List UInt8) : Option (List UInt8) :=
  (resolve tokens 0 [cstr "aliases"]).bind fun a =>
    match Fdt.fdtGetprop h.tree a (nameString name) with
    | .error _ => none
    | .ok p => some (stringOf p)

/-- A round for a path and the components behind it. -/
def Presents.aliasRound (s : List UInt8 × List (List UInt8)) :
    (List UInt8 × List (List UInt8)) ⊕ Int :=
  if s.1.head? = some 47 then .inr (below tokens 0 (components s.1 ++ s.2))
  else
    match h.aliasPath (aliasName s.1) with
    | none => .inr (-FDT_ERR_BADPATH)
    | some path => .inl (path, behindAlias s.1 ++ s.2)

/-- The position of a path, when at most so many paths lead there. -/
def Presents.lookup (paths : Nat) (path : List UInt8) : Option Int :=
  run h.aliasRound paths (path, [])

theorem Presents.run_aliasRound (paths : Nat) (path : List UInt8) (first last : List (List UInt8)) :
    run h.aliasRound paths (path, first ++ last) =
      (run h.aliasRound paths (path, first)).map fun position => below tokens position last := by
  induction paths generalizing path first with
  | zero => rfl
  | succ paths ih =>
    rw [run, run, aliasRound, aliasRound]
    by_cases hroot : path.head? = some 47
    · simp only [hroot, if_true]
      rw [← List.append_assoc, below_append, Option.map_some]
    · simp only [hroot, if_false]
      cases h.aliasPath (aliasName path) with
      | none => rw [Option.map_some, below_neg (by decide)]
      | some value =>
        simp only
        rw [← List.append_assoc, ih]

theorem Presents.isPosition_root : IsPosition tokens 0 := by
  obtain ⟨e, rest, -, hnodes, -, -⟩ := h.root
  exact Or.inr ⟨0, e, rfl, by rw [hnodes]; rfl⟩

theorem Presents.place_root : 0 = place tokens 0 := by
  obtain ⟨e, rest, -, hnodes, hoffset, -⟩ := h.root
  have hplace := place_natCast (show (nodes tokens)[0]? = some e by rw [hnodes]; rfl)
  rw [hoffset] at hplace
  exact hplace.symm

theorem Presents.lookup_isPosition {paths : Nat} {path : List UInt8} {position : Int}
    (hlookup : h.lookup paths path = some position) : IsPosition tokens position := by
  refine run_invariant (p := fun _ => True) (q := IsPosition tokens) h.aliasRound ?_ ?_
    trivial hlookup
  · exact fun s t _ _ => trivial
  · intro s r _ hreturns
    rw [aliasRound] at hreturns
    split at hreturns
    · cases hreturns
      exact isPosition_below h.isPosition_root _
    · split at hreturns <;> cases hreturns
      exact Or.inl (by decide)

theorem Presents.pathLoop_place (hfuel : fdt.totalsize < fuel) {position : Int}
    (hposition : IsPosition tokens position) (path : List UInt8) :
    fdt.pathLoop fuel (place tokens position) path =
      some (place tokens (below tokens position (components path))) := by
  rcases hposition with hneg | ⟨i, e, rfl, hi⟩
  · rw [place_neg hneg, below_neg hneg, place_neg hneg]
    have hsub (name : List UInt8) : fdt.fdtSubnodeOffset fuel position name = some position := by
      obtain ⟨fuel, rfl⟩ : ∃ n, fuel = n + 1 := ⟨fuel - 1, by omega⟩
      rw [fdtSubnodeOffset, if_neg (Int.not_lt.2 h.header.roProbe), subnodeLoop,
        if_neg (fun hge => absurd hge.1 (Int.not_le.2 hneg)), if_neg (by decide)]
    induction path with
    | nil => rw [pathLoop]
    | cons c path ih =>
      rw [pathLoop, hsub]
      by_cases hslash : c = 47
      · rw [if_pos hslash, ih]
      · rw [if_neg hslash, Option.bind_eq_bind, Option.bind_some, if_pos hneg]
  · rw [place_natCast hi, h.pathLoop_resolve hi hfuel, place_found]

theorem Presents.aliases_offset (hfuel : fdt.totalsize < fuel) (calls : Nat) :
    fdt.fdtPathOffsetNamelen fuel (calls + 1) (cstr "/aliases") 8 =
      some (place tokens (below tokens 0 [cstr "aliases"])) := by
  have hcomponents : components (cstr "/aliases") = [cstr "aliases"] := by decide
  rw [fdtPathOffsetNamelen, if_neg (Int.not_lt.2 h.header.roProbe), if_pos (by decide),
    show (cstr "/aliases").take 8 = cstr "/aliases" by decide]
  conv => lhs; rw [h.place_root]
  rw [h.pathLoop_place hfuel h.isPosition_root, hcomponents]

/-- What `fdt_get_alias_namelen` returns: NULL, or what the path is read from. -/
theorem Presents.aliasValue_eq (hfuel : fdt.totalsize < fuel) (name : List UInt8) :
    ∃ p, fdt.aliasValue fuel (place tokens (below tokens 0 [cstr "aliases"])) name = some p ∧
      match h.aliasPath name with
      | none => p = none
      | some path => ∃ data, p = some data ∧
          (Libc.strlen (fdt.bytesAt data) fuel).value = some path.length ∧
          (List.range path.length).map (fdt.bytesAt data) = path := by
  rw [below_zero, aliasPath]
  obtain ⟨e₀, rest, -, hnodes, -, -⟩ := h.root
  have hroot : (nodes tokens)[0]? = some e₀ := by rw [hnodes]; rfl
  cases hresolve : resolve tokens 0 [cstr "aliases"] with
  | none =>
    have hneg : -FDT_ERR_NOTFOUND < 0 := by decide
    exact ⟨none, by rw [place_neg hneg, aliasValue, if_pos hneg], rfl⟩
  | some a =>
    obtain ⟨e, ha⟩ := resolve_isPosition hroot hresolve
    obtain ⟨r, hr, hsame⟩ := h.getprop ha hfuel name
    rw [place_natCast ha, aliasValue, if_neg (Int.not_lt.2 (Int.natCast_nonneg _)), hr]
    simp only [Option.bind_eq_bind, Option.bind_some]
    cases hprop : Fdt.fdtGetprop h.tree a (nameString name) with
    | error err =>
      rw [hprop] at hsame
      cases r with
      | error err' => exact ⟨none, rfl, rfl⟩
      | ok v => exact hsame.elim
    | ok p =>
      rw [hprop] at hsame
      cases r with
      | error err' => exact hsame.elim
      | ok v =>
        have hlen : (stringOf p).length = (Serial.strlen p).value := by
          rw [stringOf, bytes, List.length_map, List.length_range]
        have hroom := h.tokenOffset_le ha hprop
        refine ⟨some v.data, rfl, v.data, rfl, ?_, ?_⟩
        · rw [hsame.2, hlen, strlen_property p (by omega)]
        · rw [hsame.2, hlen]
          rfl

theorem Presents.pathOffset_root (hfuel : fdt.totalsize < fuel) (calls : Nat) {path : List UInt8}
    (hroot : path.head? = some 47) :
    fdt.fdtPathOffset fuel (calls + 1) path =
      some (place tokens (below tokens 0 (components path))) := by
  rw [fdtPathOffset, fdtPathOffsetNamelen, if_neg (Int.not_lt.2 h.header.roProbe), if_pos hroot,
    List.take_length]
  conv => lhs; rw [h.place_root]
  exact h.pathLoop_place hfuel h.isPosition_root path

theorem Presents.pathOffset_alias (hfuel : fdt.totalsize < fuel) (calls : Nat) {path : List UInt8}
    (hroot : path.head? ≠ some 47) :
    fdt.fdtPathOffset fuel (calls + 2) path =
      match h.aliasPath (aliasName path) with
      | none => some (-FDT_ERR_BADPATH)
      | some value =>
        (fdt.fdtPathOffset fuel (calls + 1) value).bind fun offset =>
          fdt.pathLoop fuel offset (path.dropWhile (· ≠ 47)) := by
  obtain ⟨p, hp, hpath⟩ := h.aliasValue_eq hfuel (aliasName path)
  rw [fdtPathOffset, fdtPathOffsetNamelen, if_neg (Int.not_lt.2 h.header.roProbe), if_neg hroot,
    List.take_length, h.aliases_offset hfuel, Option.bind_eq_bind, Option.bind_some, ← aliasName,
    hp, Option.bind_eq_bind, Option.bind_some]
  cases halias : h.aliasPath (aliasName path) with
  | none =>
    simp only [halias] at hpath
    rw [hpath]
  | some value =>
    simp only [halias] at hpath
    obtain ⟨data, rfl, hlen, hbytes⟩ := hpath
    simp only [hlen, hbytes, Option.bind_eq_bind, Option.bind_some, fdtPathOffset]

/-- What has been looked up is where `fdt_path_offset` comes to. -/
theorem Presents.pathOffset_of_lookup (hfuel : fdt.totalsize < fuel) {paths : Nat}
    {path : List UInt8} {position : Int} (hlookup : h.lookup paths path = some position) :
    fdt.fdtPathOffset fuel (paths + 1) path = some (place tokens position) := by
  induction paths generalizing path position with
  | zero => cases hlookup
  | succ paths ih =>
    rw [lookup, run, aliasRound] at hlookup
    by_cases hroot : path.head? = some 47
    · simp only [hroot, if_true, List.append_nil, Option.some.injEq] at hlookup
      rw [h.pathOffset_root hfuel _ hroot, hlookup]
    · rw [h.pathOffset_alias hfuel paths hroot]
      simp only [hroot, if_false] at hlookup
      cases halias : h.aliasPath (aliasName path) with
      | none =>
        have hneg : -FDT_ERR_BADPATH < 0 := by decide
        simp only [halias, Option.some.injEq] at hlookup
        rw [← hlookup, place_neg hneg]
      | some value =>
        simp only [halias, List.append_nil] at hlookup
        rw [← List.nil_append (behindAlias path), h.run_aliasRound,
          Option.map_eq_some_iff] at hlookup
        obtain ⟨first, hfirst, rfl⟩ := hlookup
        simp only
        rw [ih hfirst, Option.bind_some, h.pathLoop_place hfuel (h.lookup_isPosition hfirst),
          behindAlias]

/-- Whatever `fdt_path_offset` returns has been looked up. -/
theorem Presents.lookup_of_pathOffset (hfuel : fdt.totalsize < fuel) {calls : Nat}
    {path : List UInt8} {offset : Int}
    (hoffset : fdt.fdtPathOffset fuel calls path = some offset) :
    ∃ position, h.lookup calls path = some position ∧ place tokens position = offset := by
  induction calls generalizing path offset with
  | zero => cases hoffset
  | succ calls ih =>
    rw [lookup, run, aliasRound]
    by_cases hroot : path.head? = some 47
    · rw [h.pathOffset_root hfuel _ hroot, Option.some.injEq] at hoffset
      simp only [hroot, if_true, List.append_nil]
      exact ⟨_, rfl, hoffset⟩
    · cases calls with
      | zero =>
        -- there is no call left for the path of the aliases
        rw [fdtPathOffset, fdtPathOffsetNamelen, if_neg (Int.not_lt.2 h.header.roProbe),
          if_neg hroot, fdtPathOffsetNamelen] at hoffset
        cases hoffset
      | succ calls =>
        rw [h.pathOffset_alias hfuel calls hroot] at hoffset
        simp only [hroot, if_false]
        cases halias : h.aliasPath (aliasName path) with
        | none =>
          have hneg : -FDT_ERR_BADPATH < 0 := by decide
          simp only [halias, Option.some.injEq] at hoffset
          exact ⟨_, rfl, (place_neg hneg).trans hoffset⟩
        | some value =>
          simp only [halias] at hoffset
          obtain ⟨first, hfirst, hrest⟩ := Option.bind_eq_some_iff.1 hoffset
          obtain ⟨position, hposition, rfl⟩ := ih hfirst
          rw [h.pathLoop_place hfuel (h.lookup_isPosition hposition), Option.some.injEq] at hrest
          simp only [List.append_nil]
          rw [← List.nil_append (behindAlias path), h.run_aliasRound, ← lookup, hposition]
          exact ⟨_, rfl, hrest⟩

theorem Presents.aliasRound_goes_iff {s t : List UInt8 × List (List UInt8)} :
    Goes h.aliasRound s t ↔
      s.1.head? ≠ some 47 ∧ h.aliasPath (aliasName s.1) = some t.1 ∧
        t.2 = behindAlias s.1 ++ s.2 := by
  rw [Goes, aliasRound]
  by_cases hroot : s.1.head? = some 47
  · simp [hroot]
  · rw [if_neg hroot]
    cases h.aliasPath (aliasName s.1) with
    | none => simp
    | some path => simp [hroot, Prod.ext_iff, eq_comm]

/-- `fdt_path_offset` returns for a path exactly what the aliases in front of it lead to. -/
theorem pathOffset_follows_aliases (hfuel : fdt.totalsize < fuel) (path : List UInt8)
    (offset : Int) :
    (∃ calls, fdt.fdtPathOffset fuel calls path = some offset) ↔
      ∃ paths position, h.lookup paths path = some position ∧ place tokens position = offset := by
  constructor
  · rintro ⟨calls, hoffset⟩
    exact ⟨calls, h.lookup_of_pathOffset hfuel hoffset⟩
  · rintro ⟨paths, position, hlookup, rfl⟩
    exact ⟨paths + 1, h.pathOffset_of_lookup hfuel hlookup⟩

omit h in
/-- Two aliases are followed to the UART. -/
theorem pathOffset_follows_aliases_board :
    ∃ calls, (Source.board.blob 0x82200000).fdtPathOffset 1000 calls (cstr "console") =
      some (place Source.board.tokens 4) := by
  have hlookup : Source.board_presents.lookup 3 (cstr "console") = some 4 := by decide +kernel
  exact (pathOffset_follows_aliases Source.board_presents (by decide +kernel) _ _).2
    ⟨3, 4, hlookup, rfl⟩

/-- It never returns exactly when the aliases lead from path to path without end. -/
theorem pathOffset_never_returns_iff (hfuel : fdt.totalsize < fuel) (path : List UInt8) :
    (∀ calls, fdt.fdtPathOffset fuel calls path = none) ↔
      ∃ paths : Set (List UInt8), path ∈ paths ∧ ∀ p ∈ paths,
        p.head? ≠ some 47 ∧ ∃ value ∈ paths, h.aliasPath (aliasName p) = some value := by
  have hruns : (∀ calls, fdt.fdtPathOffset fuel calls path = none) ↔
      ∀ paths, run h.aliasRound paths (path, []) = none := by
    simp only [Option.eq_none_iff_forall_ne_some]
    constructor
    · intro hnever paths position hlookup
      exact hnever (paths + 1) _ (h.pathOffset_of_lookup hfuel hlookup)
    · intro hnever calls offset hoffset
      obtain ⟨position, hlookup, -⟩ := h.lookup_of_pathOffset hfuel hoffset
      exact hnever calls position hlookup
  rw [hruns, never_returns_iff]
  constructor
  · rintro ⟨p, hp, hgoes⟩
    refine ⟨{path | ∃ rest, p (path, rest)}, ⟨[], hp⟩, ?_⟩
    rintro path ⟨rest, hpath⟩
    obtain ⟨t, ht, hpt⟩ := hgoes _ hpath
    obtain ⟨hroot, halias, -⟩ := h.aliasRound_goes_iff.1 ht
    exact ⟨hroot, t.1, ⟨t.2, hpt⟩, halias⟩
  · rintro ⟨paths, hpath, hgoes⟩
    refine ⟨fun s => s.1 ∈ paths, hpath, ?_⟩
    intro s hs
    obtain ⟨hroot, value, hvalue, halias⟩ := hgoes s.1 hs
    exact ⟨(value, behindAlias s.1 ++ s.2), h.aliasRound_goes_iff.2 ⟨hroot, halias, rfl⟩, hvalue⟩

omit h in
/-- The alias that leads back to itself. -/
theorem pathOffset_never_returns_iff_board :
    ¬ ∃ calls offset, (Source.board.blob 0x82200000).fdtPathOffset 1000 calls (cstr "loop") =
      some offset := by
  have hloop : ∀ p ∈ [cstr "loop", cstr "loop/more"], p.head? ≠ some 47 ∧
      Source.board_presents.aliasPath (aliasName p) = some (cstr "loop/more") := by
    decide +kernel
  have hnever := (pathOffset_never_returns_iff Source.board_presents
    (show (Source.board.blob 0x82200000).totalsize < 1000 by decide +kernel) (cstr "loop")).2
    ⟨{p | p ∈ [cstr "loop", cstr "loop/more"]}, by decide, fun p hp =>
      ⟨(hloop p hp).1, cstr "loop/more", by decide, (hloop p hp).2⟩⟩
  rintro ⟨calls, offset, hreturns⟩
  rw [hnever calls] at hreturns
  cases hreturns

end Presents

end Dtb

end ZStage.Libfdt
