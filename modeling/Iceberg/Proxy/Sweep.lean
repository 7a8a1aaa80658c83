import Iceberg.Proxy.Boundaries
import Iceberg.Proxy.CarryOver

/-!
# Sweeping a stream

What a scan does to a stream that is cut anywhere. It queries from left to right, and at most
the end of the buffer is carried over. Three things hold of the carried bytes, whatever was
read: where a header seems to stand in them, one stood in the stream, up to the first zero
byte; the copies have not changed them since; and when there are more than fifteen of them,
they are a `DEL` that is not complete. So a query for a carried command always comes with the
bytes that complete it.
-/

namespace Iceberg

/-! ## What a copy shows of its source -/

theorem cstr_begins (s : Bytes) : cstr s <+: s := List.takeWhile_prefix _

theorem cstr_begins_strncpy (s : Bytes) : cstr s <+: strncpy s := List.prefix_append _ _

theorem ne_nul_of_mem_cstr {s : Bytes} {b : UInt8} (h : b ∈ cstr s) : b ≠ Byte.nul := by
  simpa using List.mem_takeWhile_imp h

/-- Up to the first zero byte, whatever stands at the beginning stands in the string. -/
theorem prefix_cstr {p s : Bytes} (h : p <+: s) (hp : Byte.nul ∉ p) : p <+: cstr s := by
  obtain ⟨t, rfl⟩ := h
  have hpos : ∀ b ∈ p, decide (b ≠ Byte.nul) = true := by
    intro b hb
    apply decide_eq_true
    intro hnul
    exact hp (hnul ▸ hb)
  show p <+: (p ++ t).takeWhile _
  rw [List.takeWhile_append_of_pos hpos]
  exact List.prefix_append _ _

/-- Behind a zero byte nothing belongs to the string. -/
theorem cstr_append_of_nul {s : Bytes} (t : Bytes) (h : Byte.nul ∈ s) :
    cstr (s ++ t) = cstr s := by
  have hlen : ¬(cstr s).length = s.length := by
    intro heq
    have hall : cstr s = s := (cstr_begins s).eq_of_length heq
    exact ne_nul_of_mem_cstr (hall ▸ h) rfl
  show (s ++ t).takeWhile _ = s.takeWhile _
  rw [List.takeWhile_append]
  exact if_neg hlen

/-- Without a zero byte the string goes on. -/
theorem cstr_append_of_nulFree {s : Bytes} (t : Bytes) (h : Byte.nul ∉ s) :
    cstr (s ++ t) = s ++ cstr t := by
  apply List.takeWhile_append_of_pos
  intro b hb
  apply decide_eq_true
  intro hnul
  exact h (hnul ▸ hb)

/-- In a copy there are only zeros behind the first zero, so a string that ends with another
byte has been copied as it is. -/
theorem prefix_of_strncpy {p s : Bytes} {b : UInt8} (hb : b ≠ Byte.nul)
    (h : p ++ [b] <+: strncpy s) : p ++ [b] <+: cstr s := by
  obtain ⟨t, ht⟩ := h
  rcases List.append_eq_append_iff.mp ht with ⟨r, hr, -⟩ | ⟨r, hr, hzeros⟩
  · exact ⟨r, hr.symm⟩
  · rcases List.eq_nil_or_concat r with rfl | ⟨q, x, rfl⟩
    · exact ⟨[], by rw [hr, List.append_nil, List.append_nil]⟩
    · -- the last byte is one of the zeros that fill the copy up
      have hlast : x = b := by
        have := congrArg List.getLast? hr
        simpa using this.symm
      have hx : x ∈ List.replicate (s.length - (cstr s).length) Byte.nul := by
        rw [hzeros]
        simp
      exact absurd (hlast ▸ List.eq_of_mem_replicate hx) hb

/-- Bytes without zeros begin a copy exactly if they begin the text. -/
theorem prefix_strncpy_iff {p s : Bytes} (hp : Byte.nul ∉ p) : p <+: strncpy s ↔ p <+: s := by
  constructor
  · intro h
    rcases List.eq_nil_or_concat p with rfl | ⟨q, b, rfl⟩
    · exact List.nil_prefix
    · have hb : b ≠ Byte.nul := fun hnul => hp (by simp [hnul])
      rw [List.concat_eq_append] at h ⊢
      exact (prefix_of_strncpy hb h).trans (cstr_begins s)
  · intro h
    exact (prefix_cstr h hp).trans (cstr_begins_strncpy s)

/-- The end of a copy, from a byte on that is not zero, is the copy of an end. -/
theorem suffix_of_strncpy {x s : Bytes} {b : UInt8} (hb : b ≠ Byte.nul)
    (h : b :: x <:+ strncpy s) : ∃ t, t <:+ s ∧ b :: x = strncpy t := by
  obtain ⟨p, hp⟩ := h
  -- the bytes in front of it are not zero either
  have hfront : p ++ [b] <+: cstr s :=
    prefix_of_strncpy hb ⟨x, by rw [← hp, List.append_assoc]; rfl⟩
  obtain ⟨r, hr⟩ := hfront
  obtain ⟨t, ht⟩ := cstr_begins s
  refine ⟨b :: (r ++ t), ⟨p, by rw [← ht, ← hr]; simp⟩, ?_⟩
  have hnul : Byte.nul ∉ p := by
    intro hmem
    apply ne_nul_of_mem_cstr (s := s) (b := Byte.nul) _ rfl
    rw [← hr]
    simp [hmem]
  have hs : s = p ++ b :: (r ++ t) := by
    rw [← ht, ← hr]
    simp
  have hcopy : strncpy s = p ++ strncpy (b :: (r ++ t)) := by
    rw [strncpy, strncpy, hs, cstr_append_of_nulFree _ hnul, List.length_append,
      List.length_append, Nat.add_sub_add_left, List.append_assoc]
  rw [hcopy] at hp
  exact List.append_cancel_left hp

namespace Scan

open Iceberg.Parser (End)
open Resp (array delName)

variable {w : WData}

/-! ## The calls of a scan -/

/-- A `DEL` that breaks off: behind the `'\r'` of its length field stands at most one byte, or
no more of them than the field counts. -/
def Pending (z : Bytes) : Prop :=
  ∃ s, z = delHeader ++ s ∧ ∀ ds r, s = ds ++ Byte.cr :: r → Byte.cr ∉ ds →
    r.length ≤ 1 ∨ (r.length : Int) ≤ digitsVal 0 ds

/-- What a scan from `index` on may carry over. The last case is the save that starts one
byte early. -/
inductive Saved (w : WData) (index : Int) : Bytes → Prop where
  | dropped : Saved w index []
  | command {start : Int} {z : Bytes} (hle : index ≤ start) (hat : w.At start z)
      (hfit : z.length < maxRead) (h : Pending z) : Saved w index (strncpy z)
  | broken {start : Int} {s : Bytes} (hle : index ≤ start) (hat : w.At start (Byte.star :: s))
      (hshort : (Byte.star :: s).length < 14) : Saved w index (strncpy (Byte.star :: s))
  | early {g : UInt8} {s : Bytes} (hlen : w.len ≤ 14)
      (hat : w.data = Byte.star :: s ∨ ∃ start, w.At start (g :: Byte.star :: s)) :
      Saved w index (strncpy (g :: Byte.star :: s))

/-- The calls of a scan from `index` on: queries for headers with a length field, from left to
right, and at most one save at the end. -/
inductive Sweeps (w : WData) : Int → List Act → Prop where
  | done {index : Int} : Sweeps w index []
  | save {index : Int} {buf : Bytes} (h : Saved w index buf) : Sweeps w index [.save buf]
  | query {index q : Int} {ds r key : Bytes} {acts : List Act} (hle : index ≤ q)
      (hat : w.At q (delHeader ++ (ds ++ Byte.cr :: r))) (hcr : Byte.cr ∉ ds)
      (hpos : 0 ≤ digitsVal 0 ds) (hr : 2 ≤ r.length)
      (hrest : Sweeps w (q + 18 + ds.length + digitsVal 0 ds) acts) :
      Sweeps w index (.query q key :: acts)

/-- What a scan from one index on may save, one from an earlier index on may save. -/
theorem Saved.mono {index index' : Int} {buf : Bytes} (h : Saved w index buf)
    (hle : index' ≤ index) : Saved w index' buf := by
  cases h with
  | dropped => exact .dropped
  | command hstart hat hfit h => exact .command (by omega) hat hfit h
  | broken hstart hat hshort => exact .broken (by omega) hat hshort
  | early hlen hat => exact .early hlen hat

/-- What a scan from one index on may do, one from an earlier index on may do. -/
theorem Sweeps.mono {index index' : Int} {acts : List Act} (h : Sweeps w index acts)
    (hle : index' ≤ index) : Sweeps w index' acts := by
  cases h with
  | done => exact .done
  | save h => exact .save (h.mono hle)
  | query hq hat hcr hpos hr hrest => exact .query (by omega) hat hcr hpos hr hrest

/-- The first occurrence of a byte is at one place. -/
theorem append_cons_unique {p q s t : Bytes} {b : UInt8} (h : p ++ b :: s = q ++ b :: t)
    (hp : b ∉ p) (hq : b ∉ q) : p = q ∧ s = t := by
  induction p generalizing q with
  | nil =>
    cases q with
    | nil => exact ⟨rfl, (List.cons.inj h).2⟩
    | cons c q =>
      obtain ⟨rfl, -⟩ := List.cons.inj h
      exact absurd List.mem_cons_self hq
  | cons c p ih =>
    cases q with
    | nil =>
      obtain ⟨rfl, -⟩ := List.cons.inj h
      exact absurd List.mem_cons_self hp
    | cons d q =>
      obtain ⟨rfl, hrest⟩ := List.cons.inj h
      obtain ⟨rfl, rfl⟩ := ih hrest (fun hb => hp (List.mem_cons_of_mem _ hb))
        fun hb => hq (List.mem_cons_of_mem _ hb)
      exact ⟨rfl, rfl⟩

theorem pending_of_unbroken {s : Bytes} (hcr : Byte.cr ∉ s) : Pending (delHeader ++ s) := by
  refine ⟨s, rfl, ?_⟩
  intro ds r hs
  exact absurd (show Byte.cr ∈ s by simp [hs]) hcr

/-- A deletion with too few bytes behind its length field breaks off. -/
theorem pending_of_field {ds r : Bytes} (hcr : Byte.cr ∉ ds)
    (h : r.length ≤ 1 ∨ (r.length : Int) ≤ digitsVal 0 ds) :
    Pending (delHeader ++ (ds ++ Byte.cr :: r)) := by
  refine ⟨_, rfl, ?_⟩
  intro ds' r' hs hcr'
  obtain ⟨rfl, rfl⟩ := append_cons_unique hs hcr hcr'
  exact h

/-- Saving such a command ends the scan, unless the index returned is in the buffer. -/
theorem keep_pending (hlen : w.len < 2 ^ 30) {index : Int} {z : Bytes} (hat : w.At index z)
    (h : Pending z) (next : Int) :
    ∃ buf, keep w index next = .ret [.save buf] next ∧ Saved w index buf := by
  rcases Nat.lt_or_ge z.length maxRead with hfit | hlarge
  · refine ⟨strncpy z, ?_, .command (Int.le_refl _) hat hfit h⟩
    rw [keep, saveToBuf_fit hat hfit]
  · refine ⟨[], ?_, .dropped⟩
    have h0 := hat.1
    have hsum := hat.2.1
    have hn : int32 (w.len - index) = z.length := by
      rw [int32_of_bounds (by omega) (by omega)]
      omega
    rw [keep, saveToBuf, hn]
    simp only [if_neg (show ¬(z.length : Int) < maxRead from by omega)]

/-- Nothing comes behind an index that is not in the buffer. -/
theorem scanFrom_outside {index : Int} (h : index < 0 ∨ w.len ≤ index) :
    (scanFrom w index).1 = [] := by
  rcases Int.lt_or_le index 0 with hneg | hnn
  · rw [scanFrom, scan_negative hneg (by omega)]
  · rw [scanFrom_behind (by omega) hnn]

/-- The calls at a header, and behind it. -/
theorem scanFrom_header_calls (hlen : w.len < 2 ^ 30) (hlong : 14 < w.len) {index : Int}
    {s : Bytes} (hat : w.At index (delHeader ++ s)) :
    (scanFrom w index).1 = match delParser w index with
      | .crash => []
      | .ret acts next => acts ++ (scanFrom w next).1 := by
  rw [scanFrom_header hlen hlong hat]
  cases delParser w index with
  | crash => rfl
  | ret acts next =>
    simp only
    split
    · rename_i hstop
      rw [hstop, scanFrom_outside (Or.inl (by decide)), List.append_nil]
    · rfl

/-- What comes of a header: nothing, a save, or a query. -/
theorem scanFrom_header_acts (hlen : w.len < 2 ^ 30) (hlong : 14 < w.len) {index : Int}
    {s : Bytes} (hat : w.At index (delHeader ++ s)) :
    (scanFrom w index).1 = []
    ∨ (∃ buf, (scanFrom w index).1 = [.save buf] ∧ Saved w index buf)
    ∨ ∃ ds r key acts, s = ds ++ Byte.cr :: r ∧ Byte.cr ∉ ds ∧ 0 ≤ digitsVal 0 ds
      ∧ 2 ≤ r.length ∧ (scanFrom w index).1 = .query index key :: acts
      ∧ (acts = [] ∨ acts = (scanFrom w (index + 18 + ds.length + digitsVal 0 ds)).1) := by
  have h0 := hat.1
  have hsum := hat.2.1
  rw [scanFrom_header_calls hlen hlong hat, delParser_header hat]
  rcases Decidable.em (Byte.cr ∈ s) with hmem | hno
  · obtain ⟨ds, r, rfl, hcr⟩ := List.eq_append_cons_of_mem hmem
    have hfield := lengthField_at (at_field hat) hcr
    have hint := lengthField_int hfield
    rw [hfield]
    simp only [List.length_append, List.length_cons, show delHeader.length = 14 from rfl,
      Int.natCast_add] at hsum
    simp only
    rcases Int.lt_or_le (index + 14 + ds.length + 2) w.len with hin | hend
    · rw [if_neg (show ¬index + 14 + ds.length + 2 ≥ w.len from by omega)]
      rcases Int.lt_or_le w.len (int32 (index + 14 + ds.length + 2 + digitsVal 0 ds)) with
        hover | hfit
      · -- the key is not complete
        have hcount : (r.length : Int) ≤ digitsVal 0 ds := by
          unfold int32 at hover
          omega
        obtain ⟨buf, hkeep, hsaved⟩ := keep_pending hlen hat
          (pending_of_field hcr (Or.inr hcount))
          (int32 (index + 14 + ds.length + 2 + digitsVal 0 ds + 2))
        have hbehind : (scanFrom w (int32 (index + 14 + ds.length + 2 + digitsVal 0 ds + 2))).1
            = [] := by
          apply scanFrom_outside
          unfold int32 at hover ⊢
          omega
        rw [if_neg (by omega), hkeep]
        refine Or.inr (Or.inl ⟨buf, ?_, hsaved⟩)
        show [Act.save buf] ++ _ = _
        rw [hbehind, List.append_nil]
      · rw [if_pos hfit]
        rcases Int.lt_or_le (digitsVal 0 ds) 0 with hneg | hpos
        · -- a negative length crashes before anything is sent
          rw [if_pos hneg]
          exact Or.inl rfl
        · rw [if_neg (by omega)]
          refine Or.inr (Or.inr ⟨ds, r, _, _, rfl, hcr, hpos, by omega, rfl, ?_⟩)
          rcases Int.lt_or_le (index + 14 + ds.length + 2 + digitsVal 0 ds + 2) (2 ^ 31) with
            hsmall | hlarge
          · right
            have hnext : index + 14 + ds.length + 2 + digitsVal 0 ds + 2
                = index + 18 + ds.length + digitsVal 0 ds := by omega
            rewrite [int32_of_bounds (by omega) hsmall, hnext]
            rfl
          · -- the index that is returned has overflowed
            left
            apply scanFrom_outside
            unfold int32
            omega
    · -- the line end is not complete
      obtain ⟨buf, hkeep, hsaved⟩ := keep_pending hlen hat
        (pending_of_field hcr (Or.inl (show r.length ≤ 1 by omega))) (-1)
      rw [if_pos hend, hkeep]
      refine Or.inr (Or.inl ⟨buf, ?_, hsaved⟩)
      show [Act.save buf] ++ _ = _
      rw [scanFrom_outside (Or.inl (by decide)), List.append_nil]
  · -- the length is not complete
    obtain ⟨buf, hkeep, hsaved⟩ := keep_pending hlen hat (pending_of_unbroken hno) (-1)
    rw [lengthField_eq_none (at_field hat) hno, hkeep]
    refine Or.inr (Or.inl ⟨buf, ?_, hsaved⟩)
    show [Act.save buf] ++ _ = _
    rw [scanFrom_outside (Or.inl (by decide)), List.append_nil]

/-- At a `'*'` in a buffer of at most fourteen bytes the scan saves, and ends. -/
theorem sweeps_short (hlong : w.len ≤ 14) {index : Int} {s : Bytes}
    (hat : w.At index (Byte.star :: s)) : Sweeps w index (scanFrom w index).1 := by
  have h0 := hat.1
  have hsum := hat.2.1
  rw [List.length_cons] at hsum
  rw [scanFrom_star (by omega) hat.1 hat.lt_len hat.get, if_neg (by omega)]
  -- what is saved begins one byte in front of the star
  have hslice : w.slice (index - 1) (s.length + 2) = w.get (index - 1) :: Byte.star :: s := by
    have hrest : w.slice index (Byte.star :: s).length = Byte.star :: s :=
      WData.At.slice (t := []) (by rwa [List.append_nil])
    rw [WData.slice_succ, show index - 1 + 1 = index by omega]
    exact congrArg _ hrest
  -- that byte is in the buffer, unless the star is the first one
  have hwhere : w.data = Byte.star :: s
      ∨ ∃ start, w.At start (w.get (index - 1) :: Byte.star :: s) := by
    rcases Decidable.em (index = 0) with rfl | hne
    · exact Or.inl hat.2.2
    · have hback := @WData.at_drop w (index - 1) (by omega) (by omega)
      cases ht : w.data.drop (index - 1).toNat with
      | nil =>
        have hsum' := hback.2.1
        rw [ht, List.length_nil] at hsum'
        omega
      | cons b t =>
        rw [ht] at hback
        have hsame : t = Byte.star :: s :=
          (hback.tail.cast (show index - 1 + 1 = index by omega)).2.2.symm.trans hat.2.2
        rw [hback.get, ← hsame]
        exact Or.inr ⟨_, hback⟩
  have hn : int32 (w.len - (index - 1)) = (s.length + 2 : Nat) := by
    rw [int32_of_bounds (by omega) (by omega)]
    omega
  rw [saveToBuf, hn]
  simp only [Int.toNat_natCast, hslice]
  rw [if_pos (by unfold maxRead; omega), if_neg (by omega)]
  exact .save (.early hlong hwhere)

/-- **Every scan is a sweep.** -/
theorem sweeps_scanFrom (hlen : w.len < 2 ^ 30) {index : Int} (h0 : 0 ≤ index) :
    Sweeps w index (scanFrom w index).1 := by
  induction hn : (w.len - index).toNat using Nat.strong_induction_on generalizing index with
  | _ n ih =>
    subst hn
    rcases Int.lt_or_le index w.len with hin | hout
    · have hat := WData.at_drop h0 hin
      cases hs : w.data.drop index.toNat with
      | nil =>
        have hsum := hat.2.1
        rw [hs, List.length_nil] at hsum
        omega
      | cons b s =>
        rw [hs] at hat
        rcases Decidable.em (b = Byte.star) with rfl | hstar
        · rcases Int.lt_or_le 14 w.len with hlong | hshort
          · rcases Decidable.em (delHeader <+: Byte.star :: s) with ⟨t, ht⟩ | hpre
            · -- a header, and what its length field gives
              rw [← ht] at hat
              rcases scanFrom_header_acts hlen hlong hat with hnone | ⟨buf, hsave, hsaved⟩
                | ⟨ds, r, key, acts, rfl, hcr, hpos, hr, hquery, hrest⟩
              · rw [hnone]
                exact .done
              · rw [hsave]
                exact .save hsaved
              · rw [hquery]
                apply Sweeps.query (Int.le_refl _) hat hcr hpos hr
                rcases hrest with rfl | rfl
                · exact .done
                · exact ih _ (by omega) (by omega) rfl
            · rcases Nat.lt_or_ge (Byte.star :: s).length 14 with h14 | h14
              · -- a star that begins no header: too near to the end, or jumped over
                rcases scanFrom_brokenStar hlen hlong hat h14 with hnone | hsave
                · rw [hnone]
                  exact .done
                · rw [hsave]
                  exact .save (.broken (Int.le_refl _) hat h14)
              · rcases scanFrom_jumped hlen hlong hat hpre with hjump | ⟨-, -, hshort⟩
                · rw [hjump]
                  exact (ih _ (by omega) (by omega) rfl).mono (by omega)
                · rw [List.length_cons] at h14
                  omega
          · -- a short buffer is saved from its first star on
            exact sweeps_short hshort hat
        · -- no star: one byte further
          rw [scanFrom_skip hlen h0 hin (by rw [hat.get]; exact hstar)]
          exact (ih _ (by omega) (by omega) rfl).mono (by omega)
    · rw [scanFrom_outside (Or.inr hout)]
      exact .done

/-! ## What is carried shows what was read -/

/-- The bytes look like a header, as far as they go. -/
def HeaderLike (x : Bytes) : Prop := x ≠ [] ∧ (delHeader <+: x ∨ x <+: delHeader)

/-- Wherever a header seems to begin in `b`, it shows the end of the stream `t` up to the first
zero byte. -/
def Legible (b t : Bytes) : Prop :=
  ∀ x, x <:+ b → HeaderLike x → ∃ v, v <:+ t ∧ v.length = x.length ∧ cstr v <+: x

/-- What looks like a header begins with a star. -/
theorem HeaderLike.star {x : Bytes} (h : HeaderLike x) : ∃ y, x = Byte.star :: y := by
  obtain ⟨hne, ⟨y, hy⟩ | ⟨y, hy⟩⟩ := h
  · exact ⟨_, hy.symm⟩
  · cases x with
    | nil => exact absurd rfl hne
    | cons b x =>
      obtain ⟨rfl, -⟩ := List.cons.inj hy
      exact ⟨x, rfl⟩

/-- The front of what looks like a header looks like one. -/
theorem HeaderLike.front {x y : Bytes} (h : HeaderLike (x ++ y)) (hx : x ≠ []) :
    HeaderLike x := by
  refine ⟨hx, ?_⟩
  rcases h.2 with hlong | hshort
  · exact List.prefix_or_prefix_of_prefix hlong (List.prefix_append x y)
  · exact Or.inr ((List.prefix_append x y).trans hshort)

/-- What looks like a header in a copy looked like one in the text. -/
theorem HeaderLike.of_strncpy {z : Bytes} (h : HeaderLike (strncpy z)) : HeaderLike z := by
  obtain ⟨hne, hhead⟩ := h
  refine ⟨fun hnil => hne (by rw [hnil]; rfl), ?_⟩
  rcases hhead with hlong | hshort
  · exact Or.inl ((prefix_strncpy_iff nul_notMem_delHeader).mp hlong)
  · have hnul : Byte.nul ∉ strncpy z := fun hmem => nul_notMem_delHeader (hshort.subset hmem)
    have hsame : z = strncpy z := eq_of_strncpy rfl hnul
    rw [← hsame] at hshort
    exact Or.inr hshort

theorem Legible.nil (t : Bytes) : Legible [] t := by
  intro x hx hhead
  exact absurd (List.suffix_nil.mp hx) hhead.1

theorem legible_self (t b : Bytes) : Legible b (t ++ b) := by
  intro x hx _
  exact ⟨x, hx.trans (List.suffix_append t b), rfl, cstr_begins x⟩

theorem Legible.suffix {b b' t : Bytes} (h : Legible b t) (hb : b' <:+ b) : Legible b' t := by
  intro x hx
  exact h x (hx.trans hb)

/-- A copy of what is legible is: it agrees with the text up to its first zero. -/
theorem Legible.strncpy {b t : Bytes} (h : Legible b t) : Legible (strncpy b) t := by
  intro x hx hhead
  obtain ⟨y, rfl⟩ := hhead.star
  obtain ⟨z, hz, hcopy⟩ := suffix_of_strncpy (by decide) hx
  rw [hcopy] at hhead ⊢
  obtain ⟨v, hv, hlen, hshow⟩ := h z hz hhead.of_strncpy
  refine ⟨v, hv, by rw [hlen, length_strncpy], ?_⟩
  rw [prefix_strncpy_iff fun hnul => ne_nul_of_mem_cstr hnul rfl]
  exact hshow

/-- The merge with the next read. -/
theorem Legible.append {c t : Bytes} (h : Legible c t) (d : Bytes) :
    Legible (c ++ Iceberg.strncpy d) (t ++ d) := by
  intro x ⟨y, hy⟩ hhead
  have hread : Legible (Iceberg.strncpy d) (t ++ d) := (legible_self t d).strncpy
  rcases List.append_eq_append_iff.mp hy with ⟨x₁, hc, rfl⟩ | ⟨y₁, -, hd⟩
  · rcases Decidable.em (x₁ = []) with rfl | hne
    · exact hread _ (List.suffix_refl _) hhead
    · -- what is shown goes on in the new read, unless it has ended already
      obtain ⟨v, hv, hlen, hshow⟩ := h x₁ ⟨y, hc.symm⟩ (hhead.front hne)
      refine ⟨v ++ d, ?_, by simp [hlen], ?_⟩
      · obtain ⟨u, rfl⟩ := hv
        exact ⟨u, (List.append_assoc ..).symm⟩
      · rcases Decidable.em (Byte.nul ∈ v) with hnul | hnul
        · rw [cstr_append_of_nul d hnul]
          exact hshow.trans (List.prefix_append _ _)
        · rw [cstr_of_nulFree hnul] at hshow
          rw [cstr_append_of_nulFree d hnul, hshow.eq_of_length hlen]
          exact (List.prefix_append_right_inj x₁).mpr (cstr_begins_strncpy d)
  · exact hread x ⟨y₁, hd.symm⟩ hhead

/-- The byte in front of the buffer makes no header with the `'*'` behind it. -/
theorem Legible.early {s t : Bytes} (h : Legible (Byte.star :: s) t) (g : UInt8) :
    Legible (g :: Byte.star :: s) t := by
  intro x hx hhead
  rcases List.suffix_cons_iff.mp hx with rfl | hx
  · -- the second byte of a header is no star
    rcases hhead.2 with hlong | hshort
    · have hsecond := (List.cons_prefix_cons.mp (List.cons_prefix_cons.mp hlong).2).1
      exact absurd hsecond (by decide)
    · have hsecond := (List.cons_prefix_cons.mp (List.cons_prefix_cons.mp hshort).2).1
      exact absurd hsecond (by decide)
  · exact h x hx hhead

/-! ## The carry buffer -/

/-- What is carried, after the stream `t`. -/
structure Carried (t carry : Bytes) : Prop where
  fits : carry.length < maxRead
  copied : Copied carry
  legible : Legible carry t
  short : carry.length ≤ 15 ∨ Pending carry

/-- An empty carry is as it should be after any stream. -/
theorem carried_nil (t : Bytes) : Carried t [] where
  fits := by decide
  copied := copied_nil
  legible := Legible.nil t
  short := Or.inl (by decide)

/-- A copy of a deletion that breaks off breaks off, too: its zeros close no length field, and
make none greater. -/
theorem Pending.strncpy {z : Bytes} (h : Pending z) : Pending (strncpy z) := by
  obtain ⟨s, rfl, hfield⟩ := h
  have hhead : delHeader <+: Iceberg.strncpy (delHeader ++ s) :=
    (prefix_strncpy_iff nul_notMem_delHeader).mpr (List.prefix_append _ _)
  obtain ⟨s', hs'⟩ := hhead
  refine ⟨s', hs'.symm, ?_⟩
  intro ds r hsplit hcr
  -- the length field has been copied as it was
  have hcopied : delHeader ++ ds ++ [Byte.cr] <+: delHeader ++ s := by
    apply List.IsPrefix.trans _ (cstr_begins _)
    apply prefix_of_strncpy (by decide)
    exact ⟨r, by rw [← hs', hsplit]; simp⟩
  rw [List.append_assoc, List.prefix_append_right_inj] at hcopied
  obtain ⟨r', hr'⟩ := hcopied
  have hlen := congrArg List.length hs'
  rw [length_strncpy, List.length_append, List.length_append, hsplit, ← hr'] at hlen
  have hsame : r'.length = r.length := by
    simp at hlen
    omega
  rw [← hsame]
  exact hfield ds r' (by rw [← hr']; simp) hcr

theorem suffix_of_at {index : Int} {s : Bytes} (h : w.At index s) : s <:+ w.data :=
  h.2.2 ▸ List.drop_suffix _ _

/-- The save that starts early holds one byte more than the buffer. -/
theorem length_early {g : UInt8} {s : Bytes} (hlen : w.len ≤ 14)
    (hat : w.data = Byte.star :: s ∨ ∃ start, w.At start (g :: Byte.star :: s)) :
    (g :: Byte.star :: s).length ≤ 15 := by
  unfold WData.len at hlen
  rcases hat with hall | ⟨start, hat⟩
  · rw [hall] at hlen
    rw [List.length_cons]
    omega
  · have := (suffix_of_at hat).length_le
    omega

/-- Little is saved, or nothing from in front of the index. -/
theorem Saved.length_le {index : Int} {buf : Bytes} (h : Saved w index buf) :
    buf.length ≤ 15 ∨ (buf.length : Int) ≤ w.len - index := by
  cases h with
  | dropped => exact Or.inl (Nat.zero_le _)
  | command hle hat =>
    right
    have := hat.2.1
    rw [length_strncpy]
    omega
  | broken hle hat =>
    right
    have := hat.2.1
    rw [length_strncpy]
    omega
  | early hlen hat =>
    left
    rw [length_strncpy]
    exact length_early hlen hat

/-- What a scan saves may be carried. -/
theorem Saved.carried {index : Int} {buf t : Bytes} (h : Saved w index buf)
    (hleg : Legible w.data t) : Carried t buf := by
  cases h with
  -- dropped, the part of a command, one cut in its header, or a short buffer
  | dropped => exact carried_nil t
  | @command start z hle hat hfit hpending =>
    exact ⟨by rwa [length_strncpy], copied_strncpy _, (hleg.suffix (suffix_of_at hat)).strncpy,
      Or.inr hpending.strncpy⟩
  | @broken start s hle hat hshort =>
    refine ⟨?_, copied_strncpy _, (hleg.suffix (suffix_of_at hat)).strncpy, Or.inl ?_⟩
    · rw [length_strncpy]
      unfold maxRead
      omega
    · rw [length_strncpy]
      omega
  | @early g s hlen hat =>
    have hsuffix : Legible (g :: Byte.star :: s) t := by
      rcases hat with hall | ⟨start, hat⟩
      · exact Legible.early (hall ▸ hleg) g
      · exact hleg.suffix (suffix_of_at hat)
    have hshort := length_early hlen hat
    refine ⟨?_, copied_strncpy _, hsuffix.strncpy, Or.inl ?_⟩
    · rw [length_strncpy]
      unfold maxRead
      omega
    · rwa [length_strncpy]

section Merging

variable {t carry : Bytes} (h : Carried t carry) (hread : w.data.length ≤ maxRead)

include h hread

/-- The carried part is always put in front of the read. -/
theorem Carried.merge : mergeCarry carry w = w ∧ carry = []
    ∨ mergeCarry carry w = ⟨carry ++ strncpy w.data, w.around⟩ := by
  rcases Decidable.em (carry = []) with rfl | hne
  · exact Or.inl ⟨mergeCarry_nil w, rfl⟩
  · right
    have hmerge : mergeCarry (strncpy carry) w
        = ⟨strncpy carry ++ strncpy w.data, w.around⟩ := by
      apply mergeCarry_strncpy hne
      have := h.fits
      omega
    rwa [h.copied] at hmerge

/-- The merged buffer holds the carry and the chunk. -/
theorem Carried.length_merge :
    (mergeCarry carry w).data.length = carry.length + w.data.length := by
  rcases h.merge hread with ⟨heq, rfl⟩ | heq
  · rw [heq, List.length_nil, Nat.zero_add]
  · rw [heq]
    simp

/-- The merged buffer shows the end of the stream, with the chunk behind it. -/
theorem Carried.legible_merge : Legible (mergeCarry carry w).data (t ++ w.data) := by
  rcases h.merge hread with ⟨heq, rfl⟩ | heq
  · rw [heq]
    exact legible_self t w.data
  · rw [heq]
    exact h.legible.append w.data

/-- **A read** is swept from the front of the merged buffer. -/
theorem Carried.sweeps : Sweeps (mergeCarry carry w) 0 (processInputBuffer carry w).1 := by
  have hlen := h.length_merge hread
  have hfit := h.fits
  apply sweeps_scanFrom _ (Int.le_refl 0)
  show ((mergeCarry carry w).data.length : Int) < 2 ^ 30
  unfold maxRead at hfit hread
  omega

end Merging

/-! ## Queries are in time -/

/-- The queries lie inside the buffer, with the seventeen bytes behind their places. Induction on
the calls. -/
theorem Sweeps.bounds {index : Int} {acts : List Act} (h : Sweeps w index acts) :
    ∀ p ∈ queriesOf acts, index ≤ p.1 ∧ p.1 + 17 ≤ w.len := by
  induction h with
  | done => simp [queriesOf]
  | save h => simp [queriesOf]
  | @query index q ds r key acts hle hat hcr hpos hr hrest ih =>
    intro p hp
    rcases List.mem_cons.mp (show p ∈ (q, key) :: queriesOf acts from hp) with rfl | hp
    · have hsum := hat.2.1
      simp only [List.length_append, List.length_cons, show delHeader.length = 14 from rfl,
        Int.natCast_add] at hsum
      exact ⟨hle, by omega⟩
    · have := ih p hp
      omega

/-- A `DEL` that breaks off in the copy breaks off in the stream. -/
theorem Pending.incomplete {z v key : Bytes} (h : Pending z) (hlen : v.length = z.length)
    (hfit : z.length < maxRead) (hshow : cstr v <+: z) : ¬array [delName, key] <+: v := by
  intro hdel
  have hsize := hdel.length_le
  rw [length_del] at hsize
  -- the header and the length field have no zeros, so the copy shows them
  have hfield : delHeader ++ (Decimal.decimal key.length ++ [Byte.cr]) <+: z := by
    apply List.IsPrefix.trans _ hshow
    apply prefix_cstr
    · apply List.IsPrefix.trans _ hdel
      rw [array_del]
      exact ⟨Byte.lf :: (key ++ crlf), by simp⟩
    · have hdigits : Byte.nul ∉ Decimal.decimal key.length :=
        Decimal.notMem_decimal _ (Or.inl (by decide))
      simp only [List.mem_append, List.mem_singleton, not_or]
      exact ⟨nul_notMem_delHeader, hdigits, by decide⟩
  obtain ⟨r, hr⟩ := hfield
  obtain ⟨s, rfl, hcount⟩ := h
  have hs : s = Decimal.decimal key.length ++ Byte.cr :: r := by
    rw [List.append_assoc, List.append_cancel_left_eq] at hr
    rw [← hr]
    simp
  -- the header, the number and the rest would be longer than what is there
  have htotal : (delHeader ++ s).length = 15 + (Decimal.decimal key.length).length + r.length := by
    rw [hs]
    simp [delHeader]
    omega
  unfold maxRead at hfit
  have := hcount _ r hs (cr_notMem_decimal _)
  rw [Resp.digitsVal_decimal (by omega)] at this
  omega

section Querying

variable {t carry : Bytes} (h : Carried t carry) (hread : w.data.length ≤ maxRead)

include h hread

/-- A query is for the new read, or for the first bytes of the carried part, or for the command
that has been carried. -/
theorem Carried.queries : ∀ p ∈ queriesOf (processInputBuffer carry w).1,
    carry.length ≤ p.1 ∨ (0 ≤ p.1 ∧ carry.length ≤ 15) ∨ (p.1 = 0 ∧ Pending carry) := by
  have hlen := h.length_merge hread
  have hfit := h.fits
  have hsmall : (mergeCarry carry w).len < 2 ^ 30 := by
    unfold WData.len maxRead at *
    omega
  have hbounds := (sweeps_scanFrom hsmall (Int.le_refl 0)).bounds
  intro p hp
  -- a carry of a few bytes, or one that ends inside a command
  rcases h.short with hshort | hpending
  · exact Or.inr (Or.inl ⟨(hbounds p hp).1, hshort⟩)
  · rcases h.merge hread with ⟨heq, rfl⟩ | heq
    · exact Or.inl (hbounds p hp).1
    · obtain ⟨s, hs, hcount⟩ := id hpending
      have hat : (mergeCarry carry w).At 0 (delHeader ++ (s ++ strncpy w.data)) := by
        rw [← List.append_assoc, ← hs]
        exact heq ▸ WData.at_zero _
      have hlong : 14 < (mergeCarry carry w).len := by
        have := (hbounds p hp).1
        have := (hbounds p hp).2
        omega
      have hz : carry.length = 14 + s.length := by
        rw [hs, List.length_append]
        rfl
      have hcase := scanFrom_header_acts hsmall hlong hat
      rcases hcase with hnone | ⟨buf, hsave, -⟩
        | ⟨ds, r, key, acts, hsplit, hcr, hpos, -, hquery, hrest⟩
      · -- nothing is asked for
        rw [processInputBuffer, hnone] at hp
        exact absurd hp List.not_mem_nil
      · rw [processInputBuffer, hsave] at hp
        exact absurd hp List.not_mem_nil
      · rw [processInputBuffer, hquery] at hp
        rcases List.mem_cons.mp (show p ∈ (0, key) :: queriesOf acts from hp) with rfl | hp
        · exact Or.inr (Or.inr ⟨rfl, hpending⟩)
        · -- behind the command the scan is behind the carried part
          left
          have hbehind : (18 : Int) + ds.length + digitsVal 0 ds ≤ p.1 := by
            rcases hrest with rfl | rfl
            · exact absurd hp List.not_mem_nil
            · have := ((sweeps_scanFrom hsmall (by omega)).bounds p hp).1
              omega
          -- the carriage return lies in the carried part or behind it
          rcases List.append_eq_append_iff.mp hsplit with ⟨x, hx, -⟩ | ⟨x, hx, hr⟩
          · have := congrArg List.length hx
            rw [List.length_append] at this
            omega
          · cases x with
            | nil =>
              rw [List.append_nil] at hx
              rw [hx] at hz
              omega
            | cons b x =>
              obtain ⟨rfl, -⟩ := List.cons.inj hr
              have hfield := hcount ds x hx hcr
              have := congrArg List.length hx
              rw [List.length_append, List.length_cons] at this
              omega

/-- **A query comes in time.** When the place of a query is that of a `DEL` in the stream, the
last byte of this `DEL` is in the new read or in a later one. -/
theorem Carried.inTime {p : Int × Bytes} (hp : p ∈ queriesOf (processInputBuffer carry w).1)
    {u key v : Bytes} (hplace : (u.length : Int) = t.length - carry.length + p.1)
    (hstream : t ++ w.data <+: u ++ (array [delName, key] ++ v)) :
    t.length < u.length + (array [delName, key]).length := by
  have hsize := length_del key
  have hdigits := List.length_pos_iff.mpr (Decimal.decimal_ne_nil key.length)
  rcases h.queries hread p hp with hbehind | ⟨h0, hshort⟩ | ⟨h0, hpending⟩
  · omega
  · omega
  · by_contra hge
    -- all of the command would have been carried
    have ht : t <+: u ++ (array [delName, key] ++ v) :=
      (List.prefix_append t w.data).trans hstream
    obtain ⟨x, rfl⟩ : u <+: t :=
      List.prefix_of_prefix_length_le (List.prefix_append u _) ht (by omega)
    rw [List.length_append] at hplace hge
    have hx : x <+: array [delName, key] ++ v := (List.prefix_append_right_inj u).mp ht
    have hdel : array [delName, key] <+: x :=
      List.prefix_of_prefix_length_le (List.prefix_append _ v) hx (by omega)
    obtain ⟨s, hs, -⟩ := id hpending
    have hhead : HeaderLike carry := by
      rw [hs]
      exact ⟨List.append_ne_nil_of_left_ne_nil (by decide) _, Or.inl (List.prefix_append _ _)⟩
    obtain ⟨x', hsuffix, hlen, hshow⟩ := h.legible carry (List.suffix_refl _) hhead
    have hsame : x' = x :=
      (List.suffix_of_suffix_length_le hsuffix (List.suffix_append u x) (by omega)).eq_of_length
        (by omega)
    exact hpending.incomplete hlen h.fits hshow (hsame ▸ hdel)

end Querying

end Scan

end Iceberg
