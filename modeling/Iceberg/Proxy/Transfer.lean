import Iceberg.Proxy.Relay
import Iceberg.Proxy.Capture

/-!
# The transfer of a synchronisation

In `SYNC_START_STATE` the master sends line feeds to keep the connection alive, a header
line with the length of the payload, the payload itself, and then commands. Beside the bytes
of a transfer, this module has the streams that its progress is measured in.
-/

namespace Iceberg

open Triples

/-- The value of a run of digits. -/
def numeral (ds : Bytes) : Nat := ds.foldl (fun n c => n * 10 + (c.toNat - 48)) 0

/-- What the master sends from `SYNC_START_STATE` on. -/
structure Transfer where
  keepalives : Nat
  digits : Bytes
  payload : Bytes
  commands : Bytes
  digits_ok : ∀ b ∈ digits, 48 ≤ b.toNat ∧ b.toNat < 58
  length_payload : payload.length = numeral digits
  fits : numeral digits < 2 ^ 63
  short : digits.length + 3 < maxRead

namespace Transfer

variable (T : Transfer)

/-- The header without its line feed. -/
def line : Bytes := Byte.dollar :: (T.digits ++ [Byte.cr])

/-- Everything in front of the payload. -/
def head : Bytes := List.replicate T.keepalives Byte.lf ++ (T.line ++ [Byte.lf])

def stream : Bytes := T.head ++ (T.payload ++ T.commands)

variable {T}

/-- The header line has no line feed in it. -/
theorem lf_notMem_line : Byte.lf ∉ T.line := by
  intro h
  rcases List.mem_cons.mp h with h | h
  · cases h
  rcases List.mem_append.mp h with h | h
  · have := (T.digits_ok _ h).1
    exact absurd this (by decide)
  · exact absurd (List.mem_singleton.mp h) (by decide)

theorem length_line : T.line.length = T.digits.length + 2 := by
  simp [line]

theorem length_head : T.head.length = T.keepalives + T.line.length + 1 := by
  simp [head]
  omega

/-- What is left of some bytes without the line feeds in front. -/
def unfed (R : Bytes) : Bytes := R.dropWhile (· == Byte.lf)

/-- Without the line feeds in front, the stream begins with the header line. -/
theorem unfed_stream : unfed T.stream = T.line ++ Byte.lf :: (T.payload ++ T.commands) := by
  have hfeeds : ∀ k s, unfed (List.replicate k Byte.lf ++ s) = unfed s := by
    intro k s
    induction k with
    | zero => rfl
    | succ k ih => exact ih
  rw [stream, head, List.append_assoc, hfeeds, List.append_assoc]
  rfl

/-- A byte that is no line feed is added behind the line feeds in front. -/
theorem unfed_concat {R : Bytes} {b : UInt8} (h : b ≠ Byte.lf) :
    unfed (R ++ [b]) = unfed R ++ [b] := by
  unfold unfed
  rw [List.dropWhile_append]
  split
  · rename_i hnil
    rw [List.isEmpty_iff.mp hnil]
    simp [h]
  · rfl

theorem unfed_feed {R : Bytes} (h : unfed R = []) : unfed (R ++ [Byte.lf]) = [] := by
  unfold unfed at h ⊢
  rw [List.dropWhile_append, h]
  rfl

theorem unfed_append {R u : Bytes} (h : unfed R ≠ []) : unfed (R ++ u) = unfed R ++ u := by
  unfold unfed at h ⊢
  rw [List.dropWhile_append, if_neg (by simpa using h)]

/-- As long as the header is not complete. -/
theorem length_of_unbroken {R : Bytes} (h : R <+: T.stream) (hlf : Byte.lf ∉ unfed R) :
    R.length < T.head.length ∧ (unfed R).length ≤ T.line.length := by
  obtain ⟨u, hu⟩ := h
  have hlen := congrArg List.length hu
  simp only [List.length_append, stream] at hlen
  have hline := length_head (T := T)
  rcases Decidable.em (unfed R = []) with hnil | hne
  · have hrest : unfed (R ++ u) = unfed u := by
      unfold unfed at hnil ⊢
      rw [List.dropWhile_append, hnil]
      rfl
    rw [hu, unfed_stream] at hrest
    have hle : (unfed u).length ≤ u.length := List.length_dropWhile_le _ _
    rw [← hrest] at hle
    simp only [List.length_append, List.length_cons] at hle
    rw [hnil]
    exact ⟨by omega, Nat.zero_le _⟩
  · have hrest := unfed_append (u := u) hne
    rw [hu, unfed_stream] at hrest
    have hsplit : (unfed R).length ≤ T.line.length := by
      rcases Nat.lt_or_ge T.line.length (unfed R).length with hlt | hle
      · have hget := congrArg (·[T.line.length]?) hrest
        simp only [List.getElem?_append_left hlt] at hget
        rw [List.getElem?_append_right (Nat.le_refl _), Nat.sub_self] at hget
        exact absurd (List.mem_of_getElem? hget.symm) hlf
      · exact hle
    have hlenrest := congrArg List.length hrest
    simp only [List.length_append, List.length_cons] at hlenrest
    exact ⟨by omega, hsplit⟩

/-- The first line feed behind something else completes the header. -/
theorem line_of_prefix {R : Bytes} (h : R ++ [Byte.lf] <+: T.stream) (hlf : Byte.lf ∉ unfed R)
    (hne : unfed R ≠ []) : unfed R = T.line ∧ (R ++ [Byte.lf]).length = T.head.length := by
  obtain ⟨u, hu⟩ := h
  have hrest := unfed_append (u := Byte.lf :: u) hne
  rw [List.append_assoc, List.singleton_append] at hu
  rw [hu, unfed_stream] at hrest
  obtain ⟨hline, hu'⟩ := Scan.cut_inj lf_notMem_line hlf hrest
  refine ⟨hline.symm, ?_⟩
  have hlen := congrArg List.length hu
  simp only [stream, List.length_append, List.length_cons, ← hu', List.length_nil] at hlen ⊢
  omega

/-- The digits end at the carriage return. -/
theorem numeral_takeWhile {ds s : Bytes} (hds : ∀ b ∈ ds, 48 ≤ b.toNat ∧ b.toNat < 58) :
    (ds ++ Byte.cr :: s).takeWhile (fun c => 48 ≤ c && c ≤ 57) = ds := by
  induction ds with
  | nil => rfl
  | cons d ds ih =>
    obtain ⟨hlo, hhi⟩ := hds d List.mem_cons_self
    have hd : (48 ≤ d && d ≤ 57) = true := by
      rw [Bool.and_eq_true, decide_eq_true_eq, decide_eq_true_eq, UInt8.le_iff_toNat_le,
        UInt8.le_iff_toNat_le]
      exact ⟨hlo, by show d.toNat ≤ 57; omega⟩
    rw [List.cons_append, List.takeWhile_cons, if_pos hd,
      ih fun b hb => hds b (List.mem_cons_of_mem _ hb)]

/-- `strtoull` reads the number of the header. -/
theorem strtoull_line : int64 (strtoull T.line.tail) = T.payload.length := by
  have hnul : Byte.nul ∉ T.digits ++ [Byte.cr] := by
    intro h
    rcases List.mem_append.mp h with h | h
    · exact absurd (T.digits_ok _ h).1 (by decide)
    · exact absurd (List.mem_singleton.mp h) (by decide)
  have hfits := T.fits
  have hvalue : strtoull T.line.tail = numeral T.digits := by
    show strtoull (T.digits ++ [Byte.cr]) = _
    unfold strtoull
    rw [cstr_of_nulFree hnul]
    have htake := numeral_takeWhile (s := []) T.digits_ok
    have hok := T.digits_ok
    cases hds : T.digits with
    | nil => rfl
    | cons d ds =>
      rw [hds] at htake hok hfits
      obtain ⟨hlo, hhi⟩ := hok d List.mem_cons_self
      have hblank : (d == Byte.space || (9 ≤ d && d ≤ 13)) = false := by
        rw [Bool.or_eq_false_iff, Bool.and_eq_false_iff, beq_eq_false_iff_ne,
          decide_eq_false_iff_not, decide_eq_false_iff_not, UInt8.le_iff_toNat_le,
          UInt8.le_iff_toNat_le]
        refine ⟨?_, Or.inr ?_⟩
        · rintro rfl
          exact absurd hlo (by decide)
        · show ¬ d.toNat ≤ 13
          omega
      have hplus : d ≠ Byte.plus := by
        rintro rfl
        exact absurd hlo (by decide)
      have hminus : d ≠ Byte.minus := by
        rintro rfl
        exact absurd hlo (by decide)
      rw [List.cons_append, List.dropWhile_cons_of_neg (by simpa using hblank)]
      simp only [if_neg hplus, if_neg hminus]
      rw [← List.cons_append, htake]
      exact Nat.min_eq_left (by show numeral (d :: ds) ≤ _; omega)
  rw [hvalue, T.length_payload]
  unfold int64
  omega

end Transfer

/-! ## The streams of a transfer -/

variable {m c fd : Int} {t : List Event} {R F X bs stream : Bytes} {w w' : World} {T : Transfer}

/-- The bytes that are written to other descriptors than the master's. While nothing is
scanned, and so nothing is queried, these are the bytes for the slave, whichever it is. -/
def writtenPast (m : Int) (es : List Event) : Bytes :=
  es.flatMap fun
    | .wrote x bs => if x = m then [] else bs
    | _ => []

@[simp] theorem writtenPast_append (m : Int) (es es' : List Event) :
    writtenPast m (es ++ es') = writtenPast m es ++ writtenPast m es' := List.flatMap_append

/-- The pieces of a write to another descriptor are what has been written past the master. -/
theorem writtenPast_wrote (m x : Int) (pieces : List Bytes) :
    writtenPast m (pieces.map (Event.wrote x)) = if x = m then [] else pieces.flatten := by
  induction pieces with
  | nil => simp [writtenPast]
  | cons piece pieces ih =>
    have hcons : writtenPast m ((piece :: pieces).map (Event.wrote x))
        = (if x = m then [] else piece) ++ writtenPast m (pieces.map (Event.wrote x)) := rfl
    rw [hcons, ih]
    split <;> simp

/-- Since the trace was `t`, without a reset, `R` was read from the master, `F` written past
it, and `X` scanned. -/
def Streams (m : Int) (t : List Event) (R F X : Bytes) (w : World) : Prop :=
  ∃ es, w.trace = t ++ es ∧ Event.reset ∉ es ∧ readFrom m es = R ∧ writtenPast m es = F
    ∧ scannedIn es = X

/-- Since the trace was `t`, there has been a reset, or the master has sent something else. -/
def Gone (stream : Bytes) (m : Int) (t : List Event) (w : World) : Prop :=
  ∃ es, w.trace = t ++ es ∧ (Event.reset ∈ es ∨ ¬ readFrom m es <+: stream)

/-- What is gone stays gone. -/
theorem Gone.grows (w w' : World) (h : Gone stream m t w) (hmore : w.trace <+: w'.trace) :
    Gone stream m t w' := by
  obtain ⟨es, htrace, hes⟩ := h
  obtain ⟨es', hes'⟩ := hmore
  refine ⟨es ++ es', by rw [← hes', htrace, List.append_assoc], hes.imp ?_ fun hne hR => hne ?_⟩
  · exact List.mem_append_left _
  · rw [readFrom_append] at hR
    exact (List.prefix_append _ _).trans hR

theorem Over.gone (h : Over t w) : Gone stream m t w := by
  obtain ⟨es, htrace, hreset⟩ := h
  exact ⟨es, htrace, Or.inl hreset⟩

namespace Streams

/-- The streams of some more events are added. -/
theorem log (h : Streams m t R F X w) (es : List Event) (htrace : w'.trace = w.trace ++ es)
    (hreset : Event.reset ∉ es) : Streams m t (R ++ readFrom m es) (F ++ writtenPast m es)
      (X ++ scannedIn es) w' := by
  obtain ⟨es', htrace', hreset', rfl, rfl, rfl⟩ := h
  refine ⟨es' ++ es, by rw [htrace, htrace', List.append_assoc], ?_, readFrom_append ..,
    writtenPast_append .., scannedIn_append ..⟩
  rw [List.mem_append]
  exact fun hmem => hmem.elim hreset' hreset

theorem trans {R' F' X' : Bytes} (h : Streams m t R F X w)
    (h' : Streams m w.trace R' F' X' w') : Streams m t (R ++ R') (F ++ F') (X ++ X') w' := by
  obtain ⟨es, htrace, hreset, rfl, rfl, rfl⟩ := h'
  exact h.log es htrace hreset

theorem same (h : Streams m t R F X w) (htrace : w'.trace = w.trace) :
    Streams m t R F X w' := by
  obtain ⟨es, h⟩ := h
  exact ⟨es, by rwa [htrace]⟩

theorem left {reads : List (Except Int (UInt8 × Bytes))} (h : Streams m t R F X w) :
    Streams m t R F X (w.leftReads reads) := h.same rfl

/-- Entries for other things than reads, writes and scans. -/
theorem aside (h : Streams m t R F X w) (es : List Event) (htrace : w'.trace = w.trace ++ es)
    (hes : ∀ e ∈ es, (∃ fd, e = .opened fd) ∨ (∃ fd masked, e = .closed fd masked)
      ∨ ∃ place key, e = .asked place key) : Streams m t R F X w' := by
  have hreset : Event.reset ∉ es := by
    intro hmem
    rcases hes _ hmem with ⟨_, h⟩ | ⟨_, _, h⟩ | ⟨_, _, h⟩ <;> cases h
  have hnil : ∀ f : Event → Bytes, (∀ fd, f (.opened fd) = []) →
      (∀ fd masked, f (.closed fd masked) = []) →
      (∀ place key, f (.asked place key) = []) → es.flatMap f = [] := by
    intro f hopened hclosed hasked
    refine List.flatMap_eq_nil_iff.mpr fun e he => ?_
    rcases hes e he with ⟨_, rfl⟩ | ⟨_, _, rfl⟩ | ⟨_, _, rfl⟩
    · exact hopened _
    · exact hclosed _ _
    · exact hasked _ _
  have hlog := h.log es htrace hreset
  rwa [readFrom, writtenPast, scannedIn, hnil, hnil, hnil, List.append_nil, List.append_nil,
    List.append_nil] at hlog <;> intros <;> rfl

/-- A read of the master. -/
theorem readMaster {reads : List (Except Int (UInt8 × Bytes))} (h : Streams m t R F X w) :
    Streams m t (R ++ bs) F X ((w.leftReads reads).log [.read m bs]) := by
  have hlog : Streams m t _ _ _ ((w.leftReads reads).log [.read m bs]) :=
    h.log [.read m bs] rfl (by simp)
  simpa [readFrom, writtenPast, scannedIn] using hlog

/-- A read of another descriptor. -/
theorem readOther {reads : List (Except Int (UInt8 × Bytes))} (h : Streams m t R F X w)
    (hfd : fd ≠ m) : Streams m t R F X ((w.leftReads reads).log [.read fd bs]) := by
  have hlog : Streams m t _ _ _ ((w.leftReads reads).log [.read fd bs]) :=
    h.log [.read fd bs] rfl (by simp)
  simpa [readFrom, writtenPast, scannedIn, hfd] using hlog

theorem sentMaster (h : Streams m t R F X w) (bs : Bytes) : Streams m t R F X (w.sent m bs) := by
  have hlog : Streams m t _ _ _ (w.sent m bs) :=
    h.log _ rfl (reset_notMem_wrote (sendAll w.outcomes.writes bs).1)
  simpa [readFrom_wrote, writtenPast_wrote, scannedIn_wrote] using hlog

/-- A write past the master. -/
theorem sentOther (h : Streams m t R F X w) (bs : Bytes) (hfd : fd ≠ m) :
    Streams m t R (F ++ (sendAll w.outcomes.writes bs).1.flatten) X (w.sent fd bs) := by
  have hlog : Streams m t _ _ _ (w.sent fd bs) :=
    h.log _ rfl (reset_notMem_wrote (sendAll w.outcomes.writes bs).1)
  simpa [readFrom_wrote, writtenPast_wrote, scannedIn_wrote, hfd] using hlog

theorem closed (h : Streams m t R F X w) : Over t w.closeFd := by
  obtain ⟨es, htrace, -⟩ := h
  obtain ⟨es', hes'⟩ := w.closeFd_trace
  exact ⟨es ++ Event.reset :: es', by rw [hes', htrace, List.append_assoc], by simp⟩

theorem gone (h : Streams m t R F X w) (hR : ¬ R <+: stream) : Gone stream m t w := by
  obtain ⟨es, htrace, -, rfl, -⟩ := h
  exact ⟨es, htrace, Or.inr hR⟩

end Streams

end Iceberg
