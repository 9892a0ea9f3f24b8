import ZStage.Console.Printf

/-!
Printing through the temporary buffer of `print`. `printc` keeps the last byte of the
buffer for the terminator, so the buffer takes 127 characters, drops the next one and is
then given to `nputs` with all its 128 bytes (`TbufHolds`). A text of at most 127
characters reaches `nputs` as it is; a longer one is cut there by a NUL, which no text
contains.
-/

namespace ZStage.Console

/-! ## The buffer of `sprintf` -/

theorem Sink.bytes_congr {o o' : Sink} {n : Nat} (h : ∀ i < n, o'.buf i = o.buf i) :
    o'.bytes n = o.bytes n := by
  refine List.map_congr_left fun i hi => h i (List.mem_range.1 hi)

theorem Sink.bytes_succ (o : Sink) (n : Nat) : o.bytes (n + 1) = o.bytes n ++ [o.buf n] := by
  simp [Sink.bytes, List.range_succ]

/-- `printc` stores the character and a terminator behind it. -/
theorem printc_stores {o : Sink} (c : UInt8) (h : o.outLen.all (1 < ·)) :
    (printc o c).bytes (o.pos + 1) = o.bytes o.pos ++ [c] ∧ (printc o c).pos = o.pos + 1 ∧
      (printc o c).buf (o.pos + 1) = 0 ∧ (printc o c).outLen = o.outLen.map (· - 1) := by
  have hbuf (i : Nat) : (printc o c).buf i =
      if i = o.pos then c else if i = o.pos + 1 then 0 else o.buf i := by
    simp [printc, h]
  refine ⟨?_, by simp [printc, h], by simp [hbuf], by simp [printc]⟩
  rw [Sink.bytes_succ, hbuf, if_pos rfl]
  congr 1
  refine Sink.bytes_congr fun i hi => ?_
  rw [hbuf, if_neg (Nat.ne_of_lt hi), if_neg (Nat.ne_of_lt (Nat.lt_succ_of_lt hi))]

/-- `printc` drops the character when only the place of the terminator is left. -/
theorem printc_drops {o : Sink} (c : UInt8) (h : o.outLen.all (1 < ·) = false) :
    (printc o c).buf = o.buf ∧ (printc o c).outLen = o.outLen.map (· - 1) := by
  simp [printc, h]

/-- An unbounded buffer holds the text. -/
def BufferHolds (t : List UInt8) (o : Sink) : Prop := o.outLen = none ∧ o.bytes o.pos = t

theorem bufferHolds_tracks : Tracks bufferDest BufferHolds where
  put := by
    rintro t o c ⟨hlen, htext⟩ -
    obtain ⟨hbytes, hpos, -, hout⟩ := printc_stores (o := o) c (by rw [hlen]; rfl)
    exact ⟨by rw [bufferDest, hout, hlen]; rfl, by rw [bufferDest, hpos, hbytes, htext]⟩
  flush h := h

/-! ## The temporary buffer -/

/-- What the temporary buffer and the ranges given to `nputs` are after the text `t`. -/
inductive TbufHolds (t : List UInt8) : Tbuf → Prop
  | short {sink : Sink} (len : t.length ≤ 127) (pos : sink.pos = t.length)
      (outLen : sink.outLen = some (128 - t.length)) (text : sink.bytes t.length = t)
      (nul : t ≠ [] → sink.buf t.length = 0) : TbufHolds t ⟨sink, []⟩
  | full {sink : Sink} (len : 128 ≤ t.length) (outLen : sink.outLen = some 0)
      (text : sink.bytes 128 = t.take 127 ++ [0]) : TbufHolds t ⟨sink, []⟩
  | flushed {sink : Sink} {rest : List (List UInt8)} (len : 128 ≤ t.length) :
      TbufHolds t ⟨sink, (t.take 127 ++ [0]) :: rest⟩

theorem TbufHolds.put {t : List UInt8} {o : Tbuf} (h : TbufHolds t o) (c : UInt8) :
    TbufHolds (t ++ [c]) (o.printc c) := by
  have htake (hlen : 128 ≤ t.length) : (t ++ [c]).take 127 = t.take 127 :=
    List.take_append_of_le_length (by omega)
  have hlength : (t ++ [c]).length = t.length + 1 := by simp
  cases h with
  | @short sink len pos outLen text nul =>
    by_cases hroom : t.length < 127
    · obtain ⟨hbytes, hpos, hnul, hout⟩ := printc_stores (o := sink) c (by
        rw [outLen]
        simp
        omega)
      rw [pos, text] at hbytes
      rw [pos] at hpos hnul
      refine .short (by omega) (by rw [hlength]; exact hpos) ?_ (by rw [hlength]; exact hbytes)
        (fun _ => by rw [hlength]; exact hnul)
      rw [hlength]
      show (printc sink c).outLen = _
      rw [hout, outLen, Option.map_some, Nat.sub_sub]
    · -- one byte is left, which is the terminator's
      have hfull : t.length = 127 := by omega
      obtain ⟨hbuf, hout⟩ := printc_drops (o := sink) c (by rw [outLen, hfull]; rfl)
      refine .full (by omega) ?_ ?_
      · show (printc sink c).outLen = _
        rw [hout, outLen, hfull]
        rfl
      · show (printc sink c).bytes 128 = _
        have hne : t ≠ [] := by
          rintro rfl
          cases hfull
        rw [Sink.bytes_congr (o := sink) (fun i _ => congrFun hbuf i), Sink.bytes_succ, ← hfull,
          text, nul hne, List.take_left]
  | @full sink len outLen text =>
    obtain ⟨hbuf, hout⟩ := printc_drops (o := sink) c (by rw [outLen]; rfl)
    refine .full (by omega) ?_ ?_
    · show (printc sink c).outLen = _
      rw [hout, outLen]
      rfl
    · show (printc sink c).bytes 128 = _
      rw [Sink.bytes_congr (o := sink) (fun i _ => congrFun hbuf i), text, htake len]
  | @flushed sink rest len =>
    have := @TbufHolds.flushed (t ++ [c]) (printc sink c) rest (by omega)
    rwa [htake len] at this

theorem TbufHolds.flush {t : List UInt8} {o : Tbuf} (h : TbufHolds t o) :
    TbufHolds t o.flush := by
  cases h with
  | @short sink len pos outLen text nul =>
    have hroom : sink.outLen ≠ some 0 := by
      rw [outLen]
      simp
      omega
    rw [Tbuf.flush, if_neg hroom]
    exact .short len pos outLen text nul
  | @full sink len outLen text =>
    rw [Tbuf.flush, if_pos outLen]
    show TbufHolds t ⟨_, [sink.bytes 128]⟩
    rw [text]
    exact .flushed len
  | @flushed sink rest len =>
    rw [Tbuf.flush]
    split
    · exact .flushed len
    · exact .flushed len

/-- The temporary buffer goes along with the text, which contains no NUL. -/
theorem tbufHolds_tracks : Tracks tbufDest fun t o => TbufHolds t o ∧ 0 ∉ t where
  put := by
    rintro t o c ⟨h, hnul⟩ hc
    exact ⟨h.put c, List.not_mem_append hnul fun hmem => hc (List.mem_singleton.1 hmem).symm⟩
  flush h := ⟨h.1.flush, h.2⟩

/-- The ranges given to `nputs` make up the text exactly when it has at most 127 characters. -/
theorem TbufHolds.finish_iff {t : List UInt8} {o : Tbuf} (h : TbufHolds t o) (hnul : 0 ∉ t) :
    o.finish.flatten = t ↔ t.length ≤ 127 := by
  cases h with
  | @short sink len pos outLen text nul =>
    refine iff_of_true ?_ len
    simp only [Tbuf.finish, outLen, Option.getD_some, PRINT_TBUF_MAX]
    split
    · rw [Nat.sub_sub_self (by omega), text]
      simp
    · have hempty : t = [] := List.length_eq_zero_iff.1 (by omega)
      rw [hempty]
      rfl
  | @full sink len outLen text =>
    refine iff_of_false (fun heq => hnul ?_) (by omega)
    rw [← heq]
    simp [Tbuf.finish, outLen, PRINT_TBUF_MAX, text]
  | @flushed sink rest len =>
    refine iff_of_false (fun heq => hnul ?_) (by omega)
    rw [← heq]
    simp only [Tbuf.finish]
    split <;> simp

/-! ## The devices -/

/-- The text with each newline preceded by a carriage return. -/
def crlf (t : List UInt8) : List UInt8 :=
  t.flatMap fun c => if c = ch '\n' then [ch '\r', ch '\n'] else [c]

/-- The characters that a device receives from a run of `printf`. -/
def received (dev : ConsoleDevice) (ranges : List (List UInt8)) : List UInt8 :=
  ranges.flatMap (nputs (some dev))

theorem received_putc (ranges : List (List UInt8)) :
    received ⟨true, false⟩ ranges = crlf ranges.flatten := by
  have hputc : putc (some ⟨true, false⟩) = fun c =>
      if c = ch '\n' then [ch '\r', ch '\n'] else [c] := by
    funext c
    by_cases hc : c = ch '\n' <;> simp [putc, hc]
  induction ranges with
  | nil => rfl
  | cons s rest ih =>
    simp only [received, crlf, List.flatMap_cons, List.flatten_cons, List.flatMap_append] at ih ⊢
    rw [ih]
    simp [nputs, hputc]

theorem received_puts (hasPutc : Bool) (ranges : List (List UInt8)) :
    received ⟨hasPutc, true⟩ ranges = ranges.flatten := by
  have hnputs : nputs (some ⟨hasPutc, true⟩) = id := by
    funext str
    simp [nputs]
  rw [received, hnputs, List.flatMap_id]

/-- `printf` hands the text that `sprintf` writes to `nputs`, and with it to the device,
exactly when it has at most 127 characters. -/
theorem printf_prints_text_iff (args : Args) (format : CString) (buf tbuf : Nat → UInt8)
    (o : Sink) (n : Int) (h : sprintf args format buf = some (o, n)) :
    (∃ ranges count, printf args format tbuf = some (ranges, count) ∧
      ranges.flatten = o.bytes o.pos ∧
      received ⟨true, false⟩ ranges = crlf (o.bytes o.pos) ∧
      ∀ hasPutc, received ⟨hasPutc, true⟩ ranges = o.bytes o.pos) ↔
    (o.bytes o.pos).length ≤ 127 := by
  have hbuffer := print_tracks bufferHolds_tracks args format ⟨buf, 0, none⟩ ⟨rfl, rfl⟩
  have htbuf := print_tracks tbufHolds_tracks args format
    ⟨⟨tbuf, 0, some PRINT_TBUF_MAX⟩, []⟩
    ⟨.short (Nat.zero_le _) rfl rfl rfl fun hne => absurd rfl hne, List.not_mem_nil⟩
  rw [sprintf, Option.map_eq_some_iff] at h
  obtain ⟨st, hst, heq⟩ := h
  cases heq
  rw [hst] at hbuffer
  generalize print textDest args format [] = text at hbuffer htbuf
  cases hbuffer with
  | @some a b hab =>
    generalize hrun : print tbufDest args format _ = run at htbuf
    cases htbuf with
    | @some _ c hac =>
      have hfinish := hac.out.1.finish_iff hac.out.2
      rw [hab.out.2, printf, hrun]
      constructor
      · rintro ⟨ranges, count, heq, hflat, -⟩
        cases heq
        exact hfinish.1 hflat
      · intro hlen
        have hflat := hfinish.2 hlen
        exact ⟨_, _, rfl, hflat, by rw [received_putc, hflat],
          fun hasPutc => by rw [received_puts, hflat]⟩

/-- The argument 42, and no strings. -/
def oneArg : Args := ⟨fun i => if i = 0 then 42 else 0, fun _ => ⟨[], List.not_mem_nil⟩⟩

theorem printf_prints_text_iff_sample :
    ∃ ranges count, printf oneArg ⟨chars "x=%d\n", by decide⟩ (fun _ => 0) = some (ranges, count) ∧
      ranges.flatten = chars "x=42\n" := by
  have hsprintf : (sprintf oneArg ⟨chars "x=%d\n", by decide⟩ fun _ => 0).map
      (fun r => r.1.bytes r.1.pos) = some (chars "x=42\n") := by
    decide +kernel
  obtain ⟨⟨o, n⟩, hrun, htext⟩ := Option.map_eq_some_iff.1 hsprintf
  obtain ⟨ranges, count, hprintf, hflat, -⟩ :=
    (printf_prints_text_iff oneArg _ (fun _ => 0) (fun _ => 0) o n hrun).2 (by
      rw [htext]
      decide)
  exact ⟨ranges, count, hprintf, hflat.trans htext⟩

/-- A text of 128 characters: the last one is lost and a NUL printed in its place. -/
theorem last_character_lost :
    (sprintf oneArg ⟨List.replicate 128 (ch 'a'), by decide⟩ fun _ => 0).map
        (fun r => r.1.bytes r.1.pos) = some (List.replicate 128 (ch 'a')) ∧
      (printf oneArg ⟨List.replicate 128 (ch 'a'), by decide⟩ fun _ => 0).map Prod.fst =
        some [List.replicate 127 (ch 'a') ++ [0]] := by
  decide +kernel

end ZStage.Console
