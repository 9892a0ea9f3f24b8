import ZStage.Console.Buffered
import ZStage.Console.FormatText

/-!
`snprintf` next to `sprintf`. Both print through `printc` into a buffer of the caller, which
stores as many characters of the text as there is room for in front of a terminator, and
writes the terminator behind each of them (`Holds`). So a buffer into which no
character is stored gets no terminator either (`terminated_iff`).
-/

namespace ZStage.Console

/-- `snprintf`: the buffer afterwards and the count. -/
def snprintf (args : Args) (format : CString) (buf : Nat → UInt8) (outSz : UInt32) :
    Option (Sink × Int) :=
  (print bufferDest args format ⟨buf, 0, some outSz.toNat⟩).map fun st => (st.out, st.pc)

/-! ## The buffer -/

/-- How many of `n` characters are stored; `none` is a buffer without bound. -/
def stored (outSz : Option Nat) (n : Nat) : Nat := outSz.elim n fun sz => min n (sz - 1)

@[simp] theorem stored_none (n : Nat) : stored none n = n := rfl

/-- What the buffer of a caller, first `buf`, is after the text `t`. -/
structure Holds (buf : Nat → UInt8) (outSz : Option Nat) (t : List UInt8) (o : Sink) : Prop where
  outLen : o.outLen = outSz.map (· - t.length)
  pos : o.pos = stored outSz t.length
  bytes : o.bytes o.pos = t.take o.pos
  nul : 0 < o.pos → o.buf o.pos = 0
  frame : ∀ i, o.pos < i ∨ o.pos = 0 → o.buf i = buf i

theorem Holds.start (buf : Nat → UInt8) (outSz : Option Nat) :
    Holds buf outSz [] ⟨buf, 0, outSz⟩ where
  outLen := by cases outSz <;> rfl
  pos := by cases outSz <;> simp [stored]
  bytes := rfl
  nul h := absurd h (Nat.lt_irrefl 0)
  frame _ _ := rfl

/-- `printc` writes nothing behind the terminator. -/
theorem printc_frame (o : Sink) (c : UInt8) {i : Nat} (h : o.pos + 1 < i) :
    (printc o c).buf i = o.buf i := by
  have hne : i ≠ o.pos ∧ i ≠ o.pos + 1 := ⟨by omega, by omega⟩
  simp only [printc]
  split
  · simp [hne]
  · rfl

/-- There is room for a further character exactly when it is counted as stored. -/
theorem room_iff (outSz : Option Nat) (n : Nat) :
    (outSz.map (· - n)).all (1 < ·) ↔ stored outSz (n + 1) = n + 1 := by
  cases outSz with
  | none => simp [stored]
  | some sz =>
    simp only [Option.map_some, Option.all_some, decide_eq_true_eq, stored, Option.elim_some]
    omega

theorem stored_le (outSz : Option Nat) (n : Nat) : stored outSz n ≤ n := by
  cases outSz with
  | none => exact Nat.le_refl n
  | some sz => exact Nat.min_le_left n (sz - 1)

theorem stored_succ (outSz : Option Nat) (n : Nat) :
    stored outSz (n + 1) = n + 1 ∧ stored outSz n = n ∨
      stored outSz (n + 1) ≠ n + 1 ∧ stored outSz (n + 1) = stored outSz n := by
  cases outSz with
  | none => exact Or.inl ⟨rfl, rfl⟩
  | some sz =>
    simp only [stored, Option.elim_some]
    omega

theorem Holds.put {buf : Nat → UInt8} {outSz : Option Nat} {t : List UInt8} {o : Sink}
    (h : Holds buf outSz t o) (c : UInt8) : Holds buf outSz (t ++ [c]) (printc o c) := by
  have hlength : (t ++ [c]).length = t.length + 1 := by simp
  have hout (o' : Sink) (ho' : o'.outLen = o.outLen.map (· - 1)) :
      o'.outLen = outSz.map (· - (t ++ [c]).length) := by
    rw [ho', h.outLen, Option.map_map, hlength]
    rfl
  have hroom := room_iff outSz t.length
  rw [← h.outLen] at hroom
  rcases stored_succ outSz t.length with ⟨hnext, hall⟩ | ⟨hfull, hsame⟩
  · have hpos : o.pos = t.length := h.pos.trans hall
    obtain ⟨hbytes, hpos', hnul, ho'⟩ := printc_stores (o := o) c (hroom.2 hnext)
    refine ⟨hout _ ho', ?_, ?_, fun _ => by rw [hpos', hnul], fun i hi => ?_⟩
    · rw [hpos', hpos, hlength, hnext]
    · rw [hpos', hbytes, h.bytes, hpos, List.take_length, ← hlength, List.take_length]
    · rw [hpos'] at hi
      rw [printc_frame o c (by omega)]
      exact h.frame i (by omega)
  · obtain ⟨hbuf, ho'⟩ := printc_drops (o := o) c (by
      rw [Bool.eq_false_iff]
      exact fun hall => hfull (hroom.1 hall))
    have hpos' : (printc o c).pos = o.pos := by
      simp only [printc]
      rw [if_neg fun hall => hfull (hroom.1 hall)]
    have hpos := h.pos
    have hle := stored_le outSz t.length
    refine ⟨hout _ ho', by rw [hpos', hlength, hsame, hpos], ?_, ?_, ?_⟩
    · rw [hpos', Sink.bytes_congr (o := o) fun i _ => congrFun hbuf i, h.bytes,
        List.take_append_of_le_length (by omega)]
    · rw [hpos', hbuf]
      exact h.nul
    · rw [hpos', hbuf]
      exact h.frame

theorem holds_tracks (buf : Nat → UInt8) (outSz : Option Nat) :
    Tracks bufferDest fun t o => Holds buf outSz t o ∧ 0 ∉ t where
  put := by
    rintro t o c ⟨h, hnul⟩ hc
    exact ⟨h.put c, List.not_mem_append hnul fun hmem => hc (List.mem_singleton.1 hmem).symm⟩
  flush h := h

/-! ## The functions -/

/-- The text that a run prints, with what its conversions echo. -/
def printedText (args : Args) (items : List Item) : List UInt8 :=
  itemsText Conv.echo args items (fetched args (convs items) .start)

theorem print_text (args : Args) (items : List Item) :
    print textDest args (formatOf items) [] =
      some ⟨printedText args items, int (printedText args items).length,
        afterAll (convs items) .start⟩ := by
  have hstart : int 0 = 0 := rfl
  have hrun := printLoop_items args items [] 0 .start
  simp only [hstart, List.nil_append, Int.zero_add] at hrun
  exact hrun

/-- A run into a buffer of the caller. -/
theorem print_holds (args : Args) (items : List Item) (buf : Nat → UInt8)
    (outSz : Option Nat) :
    ∃ st, print bufferDest args (formatOf items) ⟨buf, 0, outSz⟩ = some st ∧
      Holds buf outSz (printedText args items) st.out ∧ 0 ∉ printedText args items ∧
      st.pc = int (printedText args items).length := by
  have hrun := print_tracks (holds_tracks buf outSz) args (formatOf items) ⟨buf, 0, outSz⟩
    ⟨.start buf outSz, List.not_mem_nil⟩
  rw [print_text] at hrun
  generalize print bufferDest args (formatOf items) ⟨buf, 0, outSz⟩ = result at hrun
  generalize printedText args items = t at hrun
  cases hrun with
  | @some a st hst => exact ⟨st, rfl, hst.out.1, hst.out.2, by rw [← hst.pc]⟩

theorem printf_count (args : Args) (items : List Item) (tbuf : Nat → UInt8) :
    ∃ ranges, printf args (formatOf items) tbuf =
      some (ranges, int (printedText args items).length) := by
  have hrun := print_tracks tbufHolds_tracks args (formatOf items)
    ⟨⟨tbuf, 0, some PRINT_TBUF_MAX⟩, []⟩
    ⟨.short (Nat.zero_le _) rfl rfl rfl fun hne => absurd rfl hne, List.not_mem_nil⟩
  rw [print_text] at hrun
  rw [printf]
  generalize print tbufDest args (formatOf items) _ = result at hrun
  cases hrun with
  | @some a st hst => exact ⟨st.out.finish, by rw [Option.map_some, ← hst.pc]⟩

/-- `sprintf`, `snprintf` and `printf` return one count, the length of the text that `sprintf`
writes as an `int`. `snprintf` writes nothing from index `outSz` on, and in front of it
leaves the text as far as it has room. -/
theorem snprintf_agrees (args : Args) (items : List Item) (buf bufN tbuf : Nat → UInt8)
    (outSz : UInt32) :
    ∃ o oN ranges n, sprintf args (formatOf items) buf = some (o, n) ∧
      snprintf args (formatOf items) bufN outSz = some (oN, n) ∧
      printf args (formatOf items) tbuf = some (ranges, n) ∧
      n = int (o.bytes o.pos).length ∧
      ((o.bytes o.pos).length < 2 ^ 31 → n = (o.bytes o.pos).length) ∧
      (∀ i, outSz.toNat ≤ i → oN.buf i = bufN i) ∧
      (1 ≤ outSz.toNat →
        oN.bytes (min (o.bytes o.pos).length (outSz.toNat - 1)) =
          (o.bytes o.pos).take (outSz.toNat - 1)) := by
  obtain ⟨st, hst, hholds, -, hpc⟩ := print_holds args items buf none
  obtain ⟨stN, hstN, hholdsN, -, hpcN⟩ := print_holds args items bufN (some outSz.toNat)
  obtain ⟨ranges, hprintf⟩ := printf_count args items tbuf
  have htext : st.out.bytes st.out.pos = printedText args items := by
    rw [hholds.bytes, hholds.pos]
    exact List.take_length
  have hpos : stN.out.pos = min (printedText args items).length (outSz.toNat - 1) := hholdsN.pos
  refine ⟨st.out, stN.out, ranges, int (printedText args items).length, ?_, ?_, hprintf, ?_, ?_,
    ?_, ?_⟩
  · rw [sprintf, hst, Option.map_some, hpc]
  · rw [snprintf, hstN, Option.map_some, hpcN]
  · rw [htext]
  · rw [htext]
    exact (int_natCast_iff _).2
  · exact fun i hi => hholdsN.frame i (by omega)
  · intro _
    rw [htext, ← hpos, hholdsN.bytes, hpos]
    exact List.take_eq_take_iff.2 (by omega)

theorem wideSpec_head : (decimalDigits [2, 1, 4, 7, 4, 8, 3, 6, 4, 7]).head? ≠ some 0 := by decide

/-- "%2147483647d". -/
def wideSpec : ConvSpec :=
  ⟨false, false, 0, decimalDigits [2, 1, 4, 7, 4, 8, 3, 6, 4, 7], .d, wideSpec_head⟩

/-- "%d". -/
def plainSpec : ConvSpec := ⟨false, false, 0, [], .d, no_digits_head⟩

/-- A number padded to 2^31 - 1 characters, and a digit behind it. -/
def wideItems : List Item := [.conversion wideSpec, .conversion plainSpec]

theorem printsText_length (string : List UInt8) (width : Int) (flags : Flags) :
    (printsText string width flags).length = string.length + (padWidth string width).toNat := by
  simp only [printsText]
  split
  · rw [List.length_append, List.length_replicate]
  · rw [List.length_append, List.length_replicate, Nat.add_comm]

theorem wideItems_length : (printedText oneArg wideItems).length = 2 ^ 31 := by
  have hwide : printiText (argInt 42) .dec true wideSpec.width wideSpec.flags .zero =
      printsText (chars "42") 2147483647 wideSpec.flags := by
    have hdigits : unsignedDigits (argInt 42) .dec wideSpec.flags .zero = chars "42" := by
      decide +kernel
    have hwidth : wideSpec.width = 2147483647 := by decide +kernel
    rw [hwidth, ← hdigits]
    rfl
  have hplain : printiText (argInt 0) .dec true plainSpec.width plainSpec.flags .zero =
      chars "0" := by
    decide +kernel
  have htext : printedText oneArg wideItems =
      printiText (argInt 42) .dec true wideSpec.width wideSpec.flags .zero ++
        (printiText (argInt 0) .dec true plainSpec.width plainSpec.flags .zero ++ []) := rfl
  have hpad : padWidth (chars "42") 2147483647 = 2147483645 := by decide +kernel
  rw [htext, hwide, hplain, List.length_append, printsText_length, hpad]
  rfl

/-- The count of a text of 2^31 characters is negative. -/
theorem count_wraps :
    ∃ o n, sprintf oneArg (formatOf wideItems) (fun _ => 0) = some (o, n) ∧
      (o.bytes o.pos).length = 2 ^ 31 ∧ n = -2 ^ 31 := by
  obtain ⟨st, hst, hholds, -, hpc⟩ := print_holds oneArg wideItems (fun _ => 0) none
  have hpos := hholds.pos
  have hcount : int ((2 ^ 31 : Nat) : Int) = -2 ^ 31 := by decide +kernel
  rw [wideItems_length, stored_none] at hpos
  rw [wideItems_length] at hpc
  refine ⟨st.out, st.pc, by rw [sprintf, hst]; rfl, ?_, hpc.trans hcount⟩
  rw [Sink.bytes, List.length_map, List.length_range, hpos]

/-! ## The terminator -/

/-- The buffer holds a NUL at the index. -/
def NulAt (o : Sink) (index : Int) : Prop := ∃ k : Nat, index = k ∧ o.buf k = 0

theorem nulAt_natCast (o : Sink) (k : Nat) : NulAt o k ↔ o.buf k = 0 := by
  constructor
  · rintro ⟨k', hk', hnul⟩
    rwa [Int.natCast_inj.1 hk']
  · exact fun hnul => ⟨k, rfl, hnul⟩

/-- Behind the text stands a terminator if a character was stored, and else what the buffer
held. -/
theorem Holds.nul_iff {buf : Nat → UInt8} {outSz : Option Nat} {t : List UInt8} {o : Sink}
    (h : Holds buf outSz t o) : o.buf o.pos = 0 ↔ 0 < o.pos ∨ buf 0 = 0 := by
  rcases Nat.eq_zero_or_pos o.pos with hzero | hpos
  · rw [h.frame o.pos (Or.inr hzero), hzero]
    simp
  · exact iff_of_true (h.nul hpos) (Or.inl hpos)

/-- The characters of the text are no terminators. -/
theorem Holds.not_nul {buf : Nat → UInt8} {outSz : Option Nat} {t : List UInt8} {o : Sink}
    (h : Holds buf outSz t o) (hnul : 0 ∉ t) {k : Nat} (hk : k < o.pos) : o.buf k ≠ 0 := by
  intro hzero
  have hmem : o.buf k ∈ o.bytes o.pos := List.mem_map_of_mem (List.mem_range.2 hk)
  rw [h.bytes, hzero] at hmem
  exact hnul (List.mem_of_mem_take hmem)

theorem int_natCast_le (n : Nat) : int n ≤ n := by
  rw [int, Int.bmod]
  split
  · omega
  · omega

theorem int_natCast_lt (n : Nat) : int n < 2 ^ 31 := Int.bmod_lt (by decide)

/-- An index that wraps lies before the text's end. -/
theorem Holds.not_nulAt {buf : Nat → UInt8} {outSz : Option Nat} {t : List UInt8} {o : Sink}
    (h : Holds buf outSz t o) (hnul : 0 ∉ t) {index : Int} (hindex : index < o.pos) :
    ¬NulAt o index := by
  rintro ⟨k, rfl, hzero⟩
  exact h.not_nul hnul (Int.ofNat_lt.1 hindex) hzero

/-- The buffer holds a terminator at the count of `sprintf`, or at the last index of
`snprintf`, exactly when the count stands for the length of the text and a character was
stored, or the buffer began with a NUL. -/
theorem terminated_iff (args : Args) (items : List Item) (buf : Nat → UInt8) :
    (∃ o n, sprintf args (formatOf items) buf = some (o, n) ∧
      (NulAt o n ↔ (printedText args items).length < 2 ^ 31 ∧
        (0 < (printedText args items).length ∨ buf 0 = 0))) ∧
    ∀ outSz : UInt32, 1 ≤ outSz.toNat →
      ∃ o n, snprintf args (formatOf items) buf outSz = some (o, n) ∧
        (NulAt o (min n (outSz.toNat - 1 : Nat)) ↔
          ((printedText args items).length < 2 ^ 31 ∨
            (outSz.toNat - 1 : Nat) ≤ int (printedText args items).length) ∧
          (0 < (printedText args items).length ∧ 2 ≤ outSz.toNat ∨ buf 0 = 0)) := by
  have hint := int_natCast_iff (printedText args items).length
  have hle := int_natCast_le (printedText args items).length
  have hlt := int_natCast_lt (printedText args items).length
  constructor
  · obtain ⟨st, hst, hholds, hnul, hpc⟩ := print_holds args items buf none
    have hpos : st.out.pos = (printedText args items).length := hholds.pos
    refine ⟨st.out, st.pc, by rw [sprintf, hst]; rfl, ?_⟩
    rw [hpc]
    by_cases hlen : (printedText args items).length < 2 ^ 31
    · rw [hint.2 hlen, ← hpos, nulAt_natCast, hholds.nul_iff, hpos]
      exact (and_iff_right hlen).symm
    · exact iff_of_false (hholds.not_nulAt hnul (by omega)) fun h => hlen h.1
  · intro outSz hsz
    obtain ⟨st, hst, hholds, hnul, hpc⟩ := print_holds args items buf (some outSz.toNat)
    have hpos : st.out.pos = min (printedText args items).length (outSz.toNat - 1) := hholds.pos
    refine ⟨st.out, st.pc, by rw [snprintf, hst]; rfl, ?_⟩
    rw [hpc]
    by_cases hindex : (printedText args items).length < 2 ^ 31 ∨
        (outSz.toNat - 1 : Nat) ≤ int (printedText args items).length
    · have hmin : min (int (printedText args items).length) (outSz.toNat - 1 : Nat) =
          (st.out.pos : Int) := by omega
      have hsome : 0 < st.out.pos ↔ 0 < (printedText args items).length ∧ 2 ≤ outSz.toNat := by
        omega
      rw [hmin, nulAt_natCast, hholds.nul_iff, hsome]
      exact (and_iff_right hindex).symm
    · exact iff_of_false (hholds.not_nulAt hnul (by omega)) fun h => hindex h.1

/-- "%s" of the string at 1, which is empty. -/
def emptyText : List Item := [.conversion ⟨false, false, 0, [], .s, no_digits_head⟩]

def emptyString : Args := { oneArg with slots := fun _ => 1 }

theorem terminated_iff_sample :
    ∃ o n, snprintf oneArg (formatOf [.conversion plainSpec]) (fun _ => 1) 2 = some (o, n) ∧
      NulAt o (min n 1) := by
  obtain ⟨o, n, hrun, hiff⟩ := (terminated_iff oneArg [.conversion plainSpec] fun _ => 1).2 2
    (by decide)
  have hlen : (printedText oneArg [.conversion plainSpec]).length = 2 := by decide +kernel
  exact ⟨o, n, hrun, hiff.2 ⟨.inl (by rw [hlen]; decide), .inl ⟨by rw [hlen]; decide, by decide⟩⟩⟩

/-- An empty text leaves the buffer as it was, and so does any text in a buffer of one byte. -/
theorem empty_not_terminated :
    (sprintf emptyString (formatOf emptyText) fun _ => 1).map (fun r => (r.1.buf 0, r.2)) =
        some (1, 0) ∧
      (snprintf emptyString (formatOf emptyText) (fun _ => 1) 8).map
        (fun r => (r.1.buf 0, r.2)) = some (1, 0) ∧
      (snprintf oneArg (formatOf [.percent]) (fun _ => 1) 1).map
        (fun r => (r.1.buf 0, r.2)) = some (1, 1) := by
  decide +kernel

end ZStage.Console
