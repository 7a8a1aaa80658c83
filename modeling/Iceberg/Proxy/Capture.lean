import Iceberg.Lib.Framing
import Iceberg.Proxy.Scanner

/-!
# Capture across reads

What the scanner carries from one read to the next, together with what has not been read
yet, is always some harmless text followed by commands of the stream: the commands whose
keys are still to be queried (`Ahead`). A read that ends inside a `DEL` keeps it so when at
least fourteen bytes of the command have arrived in a buffer of more than fourteen bytes,
or when the buffer is of at most fourteen bytes and the command is not its first byte
(`CutSafe`); at any other cut the command is dropped.
-/

namespace Iceberg

namespace Scan

open Iceberg.Parser (End)
open Resp Framing

variable {w : WData}

/-! ## Harmless text -/

/-- Text that the scanner passes without a query and leaves exactly at its end: no `'*'` in
it opens a `DEL` or stands in the last thirteen bytes. -/
def Harmless (s : Bytes) : Prop :=
  ∀ k, s[k]? = some Byte.star → k + 14 ≤ s.length ∧ (s.drop k).take 14 ≠ delHeader

/-- The end of a harmless piece is harmless. -/
theorem Harmless.right {s t : Bytes} (h : Harmless (s ++ t)) : Harmless t := by
  intro k hk
  have hmove := h (s.length + k)
    (by rwa [List.getElem?_append_right (by omega), Nat.add_sub_cancel_left])
  rw [List.length_append, ← List.drop_drop, List.drop_left] at hmove
  exact ⟨by omega, hmove.2⟩

/-- Harmless pieces make a harmless whole: behind a star, fourteen bytes lie in the same piece. -/
theorem Harmless.append {s t : Bytes} (hs : Harmless s) (ht : Harmless t) :
    Harmless (s ++ t) := by
  intro k hk
  rw [List.length_append]
  rcases Nat.lt_or_ge k s.length with hin | hout
  · -- the star and the bytes of its jump lie in the first part
    rw [List.getElem?_append_left hin] at hk
    obtain ⟨hlen, hne⟩ := hs k hk
    rw [List.drop_append_of_le_length (by omega),
      List.take_append_of_le_length (by rw [List.length_drop]; omega)]
    exact ⟨by omega, hne⟩
  · rw [List.getElem?_append_right hout] at hk
    obtain ⟨hlen, hne⟩ := ht _ hk
    rw [List.drop_append, List.drop_of_length_le hout, List.nil_append]
    exact ⟨by omega, hne⟩

theorem harmless_of_starFree {s : Bytes} (h : Byte.star ∉ s) : Harmless s :=
  fun _ hk => absurd (List.mem_of_getElem? hk) h

/-- Zeros in the place of other bytes do no harm. -/
theorem Harmless.strncpy {s t : Bytes} (h : Harmless (s ++ t)) :
    Harmless (strncpy s ++ t) := by
  -- a byte of the copy that is not zero was there before
  have hbyte : ∀ {k : Nat} {b : UInt8}, (Iceberg.strncpy s ++ t)[k]? = some b →
      b ≠ Byte.nul → (s ++ t)[k]? = some b := by
    intro k b hk hb
    rw [List.getElem?_append] at hk ⊢
    rw [length_strncpy] at hk
    split at hk
    · rename_i hlt
      rw [if_pos hlt]
      exact (strncpy_get hk).resolve_left hb
    · rename_i hge
      rwa [if_neg hge]
  intro k hk
  obtain ⟨hlen, hne⟩ := h k (hbyte hk (by decide))
  rw [List.length_append] at hlen ⊢
  rw [length_strncpy]
  refine ⟨hlen, fun heq => hne ?_⟩
  -- a header has no zeros, so that it was there before
  apply List.ext_getElem?
  intro j
  rw [← heq]
  rcases Nat.lt_or_ge j 14 with hj | hj
  · have hget : ∀ x : Bytes, ((x.drop k).take 14)[j]? = x[k + j]? := by
      intro x
      rw [List.getElem?_take_of_lt hj, List.getElem?_drop]
    rw [hget, hget]
    obtain ⟨b, hb⟩ : ∃ b, delHeader[j]? = some b := ⟨_, List.getElem?_eq_getElem hj⟩
    rw [← heq, hget] at hb
    have hnul : b ≠ Byte.nul := by
      rintro rfl
      rw [← hget, heq] at hb
      exact nul_notMem_delHeader (List.mem_of_getElem? hb)
    rw [hb, hbyte hb hnul]
  · rw [List.getElem?_eq_none (by rw [List.length_take]; omega),
      List.getElem?_eq_none (by rw [List.length_take]; omega)]

/-! ## The commands -/

/-- The commands in question: at least fourteen bytes, fewer than `MAX_READ`, and no `'*'`
or zero byte in an argument. -/
def Plain (c : Command) : Prop :=
  14 ≤ (array c).length ∧ (array c).length < maxRead
    ∧ ∀ arg ∈ c, Byte.star ∉ arg ∧ Byte.nul ∉ arg

instance (c : Command) : Decidable (Plain c) :=
  inferInstanceAs (Decidable (_ ∧ _ ∧ ∀ arg ∈ c, Byte.star ∉ arg ∧ Byte.nul ∉ arg))

theorem mem_bulk {s : Bytes} {b : UInt8} (h : b ∈ bulk s) :
    b ∈ s ∨ b = Byte.dollar ∨ b ∈ Decimal.decimal s.length ∨ b ∈ crlf := by
  simp only [bulk, List.mem_cons, List.mem_append] at h ⊢
  tauto

/-- Zeros and stars come from the arguments, apart from the first byte. -/
theorem Plain.notMem_tail {c : Command} (h : Plain c) {b : UInt8}
    (hb : b = Byte.star ∨ b = Byte.nul) : b ∉ (array c).tail := by
  have hdigit : ∀ n, b ∉ Decimal.decimal n := fun n =>
    Decimal.notMem_decimal n (Or.inl (by rcases hb with rfl | rfl <;> decide))
  have hcrlf : b ∉ crlf := by rcases hb with rfl | rfl <;> decide
  have hdollar : b ≠ Byte.dollar := by rcases hb with rfl | rfl <;> decide
  intro hmem
  rw [array, List.tail_cons, List.mem_append, List.mem_append, List.mem_flatMap] at hmem
  rcases hmem with (hn | hn) | ⟨arg, harg, hn⟩
  · exact hdigit _ hn
  · exact hcrlf hn
  · obtain ⟨hstar, hnul⟩ := h.2.2 arg harg
    rcases mem_bulk hn with hn | hn | hn | hn
    · rcases hb with rfl | rfl
      · exact hstar hn
      · exact hnul hn
    · exact hdollar hn
    · exact hdigit _ hn
    · exact hcrlf hn

/-- A plain command has no zero byte. -/
theorem Plain.nulFree {c : Command} (h : Plain c) : Byte.nul ∉ array c := by
  intro hmem
  rcases List.mem_cons.mp (show Byte.nul ∈ Byte.star :: (array c).tail from hmem) with hn | hn
  · exact absurd hn (by decide)
  · exact h.notMem_tail (Or.inr rfl) hn

/-- A separator that occurs in neither front cuts both strings at the same place. -/
theorem cut_inj {x y s t : Bytes} {b : UInt8} (hx : b ∉ x) (hy : b ∉ y)
    (h : x ++ b :: s = y ++ b :: t) : x = y ∧ s = t := by
  rcases List.append_eq_append_iff.mp h with ⟨c, hc, ht⟩ | ⟨c, hc, ht⟩
  · cases c with
    | nil => exact ⟨by rw [hc, List.append_nil], (List.cons_eq_cons.mp ht).2⟩
    | cons d c =>
      obtain ⟨rfl, -⟩ := List.cons_eq_cons.mp ht
      exact absurd (hc ▸ List.mem_append_right x List.mem_cons_self) hy
  · cases c with
    | nil => exact ⟨by rw [hc, List.append_nil], (List.cons_eq_cons.mp ht).2.symm⟩
    | cons d c =>
      obtain ⟨rfl, -⟩ := List.cons_eq_cons.mp ht
      exact absurd (hc ▸ List.mem_append_right y List.mem_cons_self) hx

/-- A length field determines its number and what stands behind it. -/
theorem field_inj {n m : Nat} {s t : Bytes} (hn : n < 2 ^ 31) (hm : m < 2 ^ 31)
    (h : Decimal.decimal n ++ Byte.cr :: s = Decimal.decimal m ++ Byte.cr :: t) :
    n = m ∧ s = t := by
  obtain ⟨hd, hst⟩ := cut_inj (cr_notMem_decimal n) (cr_notMem_decimal m) h
  have hval := congrArg (digitsVal 0) hd
  rw [digitsVal_decimal hn, digitsVal_decimal hm] at hval
  exact ⟨by omega, hst⟩

/-- Only a `DEL` opens with the header. -/
theorem delKey?_of_header {c : Command} {s : Bytes} (hlen : (array c).length < 2 ^ 31)
    (h : array c = delHeader ++ s) : c.delKey? ≠ none := by
  have h2 : Decimal.decimal 2 = [50] := by decide
  have h3 : Decimal.decimal 3 = [51] := by decide
  have hcount : c.length ≤ (array c).length := by
    have := length_le_stream bulk (fun s => by simp [bulk]) c
    simp only [array, List.length_cons, List.length_append]
    omega
  -- the count of the header is two
  obtain ⟨hc, hbody⟩ := field_inj (show c.length < 2 ^ 31 from by omega) (by decide : 2 < 2 ^ 31)
    (s := Byte.lf :: c.flatMap bulk) (t := delHeader.drop 3 ++ s)
    (by rw [h2]; simpa [array, delHeader] using h)
  obtain ⟨name, key, rfl⟩ := List.length_eq_two.mp hc
  have hname : name.length ≤ (array [name, key]).length := by
    simp only [array, List.length_cons, List.length_append, List.flatMap_cons, bulk]
    omega
  -- the name has three bytes, and they are `DEL`
  obtain ⟨hthree, hrest⟩ := field_inj (show name.length < 2 ^ 31 from by omega)
    (by decide : 3 < 2 ^ 31) (s := Byte.lf :: (name ++ crlf ++ bulk key))
    (t := delHeader.drop 7 ++ s) (by
      rw [h3]
      simpa [bulk, delHeader] using hbody)
  have heq : name ++ (crlf ++ bulk key) = delName ++ (delHeader.drop 11 ++ s) := by
    simpa [delHeader, delName] using hrest
  obtain rfl : name = delName := List.append_inj_left heq hthree
  rw [Command.delKey?_eq_some.mpr rfl]
  exact Option.some_ne_none key

/-- A plain command that is no deletion is harmless: its only star is the first byte, and what
stands there is not the header. -/
theorem Plain.harmless {c : Command} (h : Plain c) (hdel : c.delKey? = none) :
    Harmless (array c) := by
  have hlen := h.2.1
  unfold maxRead at hlen
  intro k hk
  cases k with
  | zero =>
    refine ⟨by have := h.1; omega, fun heq => ?_⟩
    refine delKey?_of_header (c := c) (s := (array c).drop 14) (by omega) ?_ hdel
    rw [← heq, List.drop_zero, List.take_append_drop]
  | succ k =>
    -- there is no star but the first byte
    rw [show array c = Byte.star :: (array c).tail from rfl, List.getElem?_cons_succ] at hk
    exact absurd (List.mem_of_getElem? hk) (h.notMem_tail (Or.inl rfl))

/-! ## Passing harmless text -/

/-- The scanner passes harmless text as a whole. -/
theorem scanFrom_harmless (hlen : w.len < 2 ^ 30) (hlong : 14 < w.len) {index : Int}
    {s t : Bytes} (hat : w.At index (s ++ t)) (hs : Harmless s) :
    scanFrom w index = scanFrom w (index + s.length) := by
  induction hn : s.length using Nat.strong_induction_on generalizing s index with
  | _ n ih =>
    subst hn
    cases s with
    | nil => simp
    | cons b s =>
      rcases Decidable.em (b = Byte.star) with rfl | hstar
      · obtain ⟨h14, hne⟩ := hs 0 rfl
        rw [Nat.zero_add] at h14
        rw [List.drop_zero] at hne
        -- a star of no header: the scan jumps over fourteen bytes of `s`
        have hsplit := List.take_append_drop 14 (Byte.star :: s)
        have htake : ((Byte.star :: s).take 14).length = 14 := by
          rw [List.length_take]
          omega
        have hdrop : ((Byte.star :: s).drop 14).length + 14 = (Byte.star :: s).length := by
          rw [List.length_drop]
          omega
        rw [← hsplit, List.append_assoc] at hat
        rw [← hsplit] at hs
        have hnext : w.At (index + 14) ((Byte.star :: s).drop 14 ++ t) :=
          hat.append.cast (by rw [htake]; rfl)
        rw [scanFrom_other hlen hlong hat rfl htake hne, ih _ (by omega) hnext hs.right rfl]
        congr 1
        omega
      · rw [scanFrom_skip hlen hat.1 hat.lt_len (by rw [hat.get]; exact hstar),
          ih s.length (by simp) hat.tail (hs.right (s := [b])) rfl]
        congr 1
        simp only [List.length_cons]
        omega

/-- What a scan may leave behind harmless text of which `t` has not been read. -/
structure Passed (t : Bytes) (acts : List Act) : Prop where
  quiet : keysOf acts = []
  harmless : Harmless (carryOf acts ++ t)
  copied : Copied (carryOf acts)
  short : (carryOf acts).length < 14
  empty : t = [] → carryOf acts = []

/-- A scan that does nothing leaves harmless text. -/
theorem passed_nil {t : Bytes} (ht : Harmless t) : Passed t [] where
  quiet := rfl
  harmless := ht
  copied := copied_nil
  short := by decide
  empty _ := rfl

/-- A `'*'` with fewer than fourteen bytes behind it leaves harmless text harmless. -/
theorem passed_brokenStar (hlen : w.len < 2 ^ 30) (hlong : 14 < w.len) {index : Int}
    {s t : Bytes} (hat : w.At index (Byte.star :: s)) (h14 : (Byte.star :: s).length < 14)
    (hs : Harmless (Byte.star :: s ++ t)) :
    ∃ acts, scanFrom w index = (acts, .done) ∧ Passed t acts := by
  rcases scanFrom_brokenStar hlen hlong hat h14 with hnone | hsave
  · exact ⟨[], hnone, passed_nil hs.right⟩
  · refine ⟨_, hsave, rfl, hs.strncpy, copied_strncpy _, ?_, ?_⟩
    · simpa [carryOf] using h14
    · rintro rfl
      have := (hs 0 rfl).1
      rw [List.append_nil] at this
      omega

/-- A buffer that ends inside harmless text. -/
theorem scanFrom_cut (hlen : w.len < 2 ^ 30) (hlong : 14 < w.len) {index : Int}
    {s t : Bytes} (hat : w.At index s) (hs : Harmless (s ++ t)) :
    ∃ acts, scanFrom w index = (acts, .done) ∧ Passed t acts := by
  induction hn : s.length using Nat.strong_induction_on generalizing s index with
  | _ n ih =>
    subst hn
    cases s with
    | nil =>
      have hend := hat.2.1
      rw [List.length_nil] at hend
      exact ⟨[], scanFrom_behind (by omega) hat.1, passed_nil hs⟩
    | cons b s =>
      rcases Decidable.em (b = Byte.star) with rfl | hstar
      · rcases Nat.lt_or_ge (Byte.star :: s).length 14 with h14 | h14
        · -- fewer than fourteen bytes are left from the star on
          exact passed_brokenStar hlen hlong hat h14 hs
        · -- a star of no header is jumped over
          have hne := (hs 0 rfl).2
          have htake : ((Byte.star :: s).take 14).length = 14 := by
            rw [List.length_take]
            omega
          rw [List.drop_zero, List.take_append_of_le_length h14] at hne
          rw [← List.take_append_drop 14 (Byte.star :: s)] at hat hs
          have hnext : w.At (index + 14) ((Byte.star :: s).drop 14) :=
            hat.append.cast (by rw [htake]; rfl)
          rw [List.append_assoc] at hs
          rw [scanFrom_other hlen hlong hat rfl htake hne]
          refine ih _ ?_ hnext hs.right rfl
          rw [List.length_drop]
          omega
      · rw [scanFrom_skip hlen hat.1 hat.lt_len (by rw [hat.get]; exact hstar)]
        exact ih s.length (by simp) hat.tail (hs.right (s := [b])) rfl

/-! ## What lies ahead -/

/-- What is carried and what has not been read are harmless text `j` followed by commands, the
first of which has not arrived completely. -/
structure Ahead (j carry future : Bytes) (cs : List Command) : Prop where
  split : carry ++ future = j ++ cs.flatMap array
  harmless : Harmless j
  ends : j.getLast? ≠ some Byte.nul ∨ (j.length ≤ carry.length ∧ 15 ≤ j.length)
  pending : ∀ c ∈ cs.head?, carry.length < j.length + (array c).length
  copied : Copied carry
  fits : carry.length < maxRead

/-- A scan that ends well: it queries the keys of the commands `before`, and the commands
`after` lie ahead. -/
def Captures (cs : List Command) (future : Bytes) (scanned : List Act × End) : Prop :=
  ∃ j before after, scanned.2 = .done ∧ cs = before ++ after
    ∧ keysOf scanned.1 = delKeys before ∧ Ahead j (carryOf scanned.1) future after

/-- The read ended inside harmless text. -/
theorem captures_passed {s q future : Bytes} {cs : List Command} {acts : List Act}
    (hq : future = q ++ cs.flatMap array) (hend : q = [] ∨ (s ++ q).getLast? ≠ some Byte.nul)
    (h : Passed q acts) : Captures cs future (acts, .done) := by
  refine ⟨carryOf acts ++ q, [], cs, rfl, rfl, h.quiet, ?_, h.harmless, Or.inl ?_, ?_,
    h.copied, ?_⟩
  · rw [hq, List.append_assoc]
  · rcases hend with rfl | hlast
    · simp [h.empty rfl]
    · cases q with
      | nil => simp [h.empty rfl]
      | cons b q => simpa [List.getLast?_append] using hlast
  · intro c hc
    have hpos : 0 < (array c).length := by simp [array]
    simp only [List.length_append]
    omega
  · exact Nat.lt_trans h.short (by decide)

/-! ## A `DEL` in a long buffer -/

/-- A `DEL` that breaks off behind its header is saved, or, when at most the line end is
missing, queried. -/
theorem scanFrom_brokenDel (hlen : w.len < 2 ^ 30) (hlong : 14 < w.len) {index : Int}
    {key s q : Bytes} (hat : w.At index s) (hsq : array [delName, key] = s ++ q)
    (h14 : 14 ≤ s.length) (hfit : (array [delName, key]).length < maxRead)
    (hnul : Byte.nul ∉ s) :
    scanFrom w index = ([.save s], .done)
      ∨ (scanFrom w index = ([.query index (strncpy key)], .done) ∧ q <:+ crlf) := by
  have h0 := hat.1
  have hend := hat.2.1
  have hsize := congrArg List.length hsq
  rw [length_del, List.length_append] at hsize
  rw [length_del] at hfit
  unfold maxRead at hfit
  -- saving keeps all of it, since there are no zeros
  have hsave : keep w index = fun next => .ret [.save s] next := by
    funext next
    exact keep_at hat (by unfold maxRead; omega) (copied_of_nulFree hnul)
  rw [array_del] at hsq
  -- the header is complete, and `r` is what is there of the rest
  obtain ⟨r, rfl, hr⟩ : ∃ r, s = delHeader ++ r
      ∧ Decimal.decimal key.length ++ crlf ++ key ++ crlf = r ++ q := by
    rcases List.append_eq_append_iff.mp hsq with ⟨r, hs, hr⟩ | ⟨r, hs, hr⟩
    · exact ⟨r, hs, hr⟩
    · have hlast := congrArg List.length hs
      rw [List.length_append, show delHeader.length = 14 from rfl] at hlast
      obtain rfl : r = [] := List.eq_nil_of_length_eq_zero (by omega)
      exact ⟨[], by rw [hs, List.append_nil, List.append_nil], hr.symm⟩
  -- cut before the key is complete: all is saved
  have hbroken : ∀ t, r ++ t = Decimal.decimal key.length ++ crlf ++ key → t ≠ [] ∨ key = [] →
      scanFrom w index = ([.save (delHeader ++ r)], .done) := by
    intro t ht hleft
    obtain ⟨next, hparse, hnext⟩ := delParser_broken hat ht hleft hlen (by omega)
    rw [scanFrom_header hlen hlong hat, hparse, hsave]
    rcases hnext with rfl | hbehind
    · rfl
    · simp only
      rw [if_neg (by omega), scanFrom_behind hbehind (by omega)]
      rfl
  -- cut behind the key: it is asked for
  have hwhole : ∀ r', r = Decimal.decimal key.length ++ crlf ++ key ++ r' → crlf = r' ++ q →
      key ++ r' ≠ [] → scanFrom w index = ([.query index (strncpy key)], .done) := by
    rintro r' rfl hq' hmore
    have hline := congrArg List.length hq'
    simp only [List.length_append, List.length_cons, List.length_nil] at hend hsize hline
    rw [scanFrom_header hlen hlong hat, delParser_key hat hlen hmore]
    simp only
    rw [if_neg (by omega), scanFrom_behind (by omega) (by omega)]
    rfl
  rcases List.append_eq_append_iff.mp hr with ⟨r', hr', hq'⟩ | ⟨r', hr', hq'⟩
  · rcases Decidable.em (key ++ r' = []) with hnil | hmore
    · -- an empty key, and nothing behind its length field
      obtain ⟨hkey, hr0⟩ := List.append_eq_nil_iff.mp hnil
      exact Or.inl (hbroken [] (by rw [hr', hr0, List.append_nil, List.append_nil]) (Or.inr hkey))
    · exact Or.inr ⟨hwhole r' hr' hq' hmore, r', hq'.symm⟩
  · rcases Decidable.em (r' = [] ∧ key ≠ []) with ⟨rfl, hkey⟩ | hleft
    · -- the key is complete, its line end is missing
      have hq'' : crlf = [] ++ q := hq'.symm
      exact Or.inr ⟨hwhole [] (by rw [List.append_nil, hr', List.append_nil]) hq'' (by simpa),
        [], hq''.symm⟩
    · refine Or.inl (hbroken r' hr'.symm (Decidable.or_iff_not_imp_left.mpr fun hr0 => ?_))
      exact Decidable.of_not_not fun hkey => hleft ⟨Decidable.of_not_not hr0, hkey⟩

/-! ## One read -/

/-- A cut inside the `DEL` command `c` of `cs`, behind `p`. -/
def CutAt (cs : List Command) (future p : Bytes) : Prop :=
  ∃ (before : List Command) (c : Command) (after : List Command) (q : Bytes),
    cs = before ++ c :: after ∧ c.delKey? ≠ none ∧ array c = p ++ q
    ∧ p ≠ [] ∧ q ≠ [] ∧ future = q ++ after.flatMap array

theorem CutAt.cons {cs : List Command} {future p : Bytes} (c : Command)
    (h : CutAt cs future p) : CutAt (c :: cs) future p := by
  obtain ⟨before, d, after, q, rfl, h⟩ := h
  exact ⟨c :: before, d, after, q, rfl, h⟩

/-- A command in front that is no deletion adds no queries. -/
theorem Captures.cons {cs : List Command} {future : Bytes} {scanned : List Act × End}
    {c : Command} (hc : c.delKey? = none) (h : Captures cs future scanned) :
    Captures (c :: cs) future scanned := by
  obtain ⟨j, before, after, hend, rfl, hkeys, hahead⟩ := h
  exact ⟨j, c :: before, after, hend, rfl, by rw [hkeys, delKeys, delKeys,
    List.filterMap_cons_none hc], hahead⟩

/-- The data do not end in a zero byte where a plain command ends. -/
theorem getLast?_array {c : Command} (j : Bytes) (hc : Plain c) :
    (j ++ array c).getLast? ≠ some Byte.nul := by
  intro h
  rw [List.getLast?_append_of_ne_nil _ (by simp [array])] at h
  exact hc.nulFree (List.mem_of_getLast? h)

/-- The text in front of a cut: inside the harmless part, or beyond it. -/
theorem split_cases {s t j r : Bytes} (h : s ++ t = j ++ r) :
    (∃ q, j = s ++ q ∧ t = q ++ r) ∨ ∃ s', s' ≠ [] ∧ s = j ++ s' ∧ s' ++ t = r := by
  rcases List.append_eq_append_iff.mp h with ⟨q, hq, ht⟩ | ⟨s', hs, hr⟩
  · exact Or.inl ⟨q, hq, ht⟩
  · cases s' with
    | nil => exact Or.inl ⟨[], by simpa using hs.symm, hr.symm⟩
    | cons b s' => exact Or.inr ⟨b :: s', List.cons_ne_nil b s', hs, hr.symm⟩

/-- The buffer ends inside the harmless text. -/
theorem captures_inside (hlen : w.len < 2 ^ 30) (hlong : 14 < w.len) {cs : List Command}
    {index : Int} {s q t : Bytes} (hat : w.At index s) (ht : t = q ++ cs.flatMap array)
    (hj : Harmless (s ++ q))
    (hend : (s ++ q).getLast? ≠ some Byte.nul ∨ (s ++ q).length ≤ s.length) :
    Captures cs t (scanFrom w index) := by
  obtain ⟨acts, hscan, hpassed⟩ := scanFrom_cut hlen hlong hat hj
  rw [hscan]
  refine captures_passed (s := s) ht ?_ hpassed
  rcases hend with hlast | hle
  · exact Or.inr hlast
  · left
    rw [List.length_append] at hle
    exact List.eq_nil_of_length_eq_zero (by omega)

/-- The buffer ends inside a `DEL`, behind its header. -/
theorem captures_broken (hlen : w.len < 2 ^ 30) (hlong : 14 < w.len) {cs : List Command}
    {index : Int} {key s q t : Bytes} (hat : w.At index s) (hsq : array [delName, key] = s ++ q)
    (hq : q ≠ []) (ht : t = q ++ cs.flatMap array) (h14 : 14 ≤ s.length)
    (hplain : Plain [delName, key]) :
    Captures ([delName, key] :: cs) t (scanFrom w index) := by
  have hnul := hplain.nulFree
  rw [hsq, nul_notMem_append] at hnul
  have hfit := hplain.2.1
  have hsize := congrArg List.length hsq
  have hqpos := List.length_pos_iff.mpr hq
  rw [List.length_append] at hsize
  rcases scanFrom_brokenDel hlen hlong hat hsq h14 hfit hnul.1 with hsave | ⟨hquery, hline⟩
  · -- the command is carried over
    rw [hsave]
    refine ⟨[], [], [delName, key] :: cs, rfl, rfl, rfl, ?_, by simp [Harmless], Or.inl (by simp),
      ?_, copied_of_nulFree hnul.1, ?_⟩
    · rw [ht, List.nil_append, List.flatMap_cons, hsq, List.append_assoc]
      rfl
    · rintro c hc
      cases hc
      simp only [hsq, List.length_append, carryOf, List.foldl_cons, List.foldl_nil]
      omega
    · simp only [carryOf, List.foldl_cons, List.foldl_nil]
      omega
  · -- its key is there, and only a part of the line end is passed over
    rw [hquery]
    have hstar : Byte.star ∉ q := fun h => absurd (hline.subset h) (by decide)
    refine ⟨q, [[delName, key]], cs, rfl, rfl, ?_, ht, harmless_of_starFree hstar, Or.inl ?_, ?_,
      copied_nil, show 0 < maxRead from by decide⟩
    · rw [copied_of_nulFree (hplain.2.2 key (by simp)).2]
      simp [keysOf, delKeys, Command.delKey?]
    · exact fun h => hnul.2 (List.mem_of_getLast? h)
    · intro c hc
      have hpos : 0 < (array c).length := by simp [array]
      simp only [carryOf, List.foldl_cons, List.foldl_nil, List.length_nil]
      omega

/-- A `DEL` lies completely in the buffer. -/
theorem captures_del (hlen : w.len < 2 ^ 30) (hlong : 14 < w.len) {cs : List Command}
    {index : Int} {key s t : Bytes} (hat : w.At index (array [delName, key] ++ s))
    (hplain : Plain [delName, key])
    (h : Captures cs t (scanFrom w (index + (array [delName, key]).length))) :
    Captures ([delName, key] :: cs) t (scanFrom w index) := by
  obtain ⟨j, before, after, hend, rfl, hkeys, hahead⟩ := h
  rw [scanFrom_del hlen hlong hat, copied_of_nulFree (hplain.2.2 key (by simp)).2]
  refine ⟨j, [delName, key] :: before, after, hend, rfl, ?_, hahead⟩
  have hcons : ∀ acts, keysOf (.query index key :: acts) = key :: keysOf acts := fun _ => rfl
  have hdel : delKeys ([delName, key] :: before) = key :: delKeys before := rfl
  rw [hcons, hkeys, hdel]

/-- **Long buffers.** -/
theorem captures_long (hlen : w.len < 2 ^ 30) (hlong : 14 < w.len) {cs : List Command}
    {index : Int} {s t j : Bytes} (hat : w.At index s) (hsplit : s ++ t = j ++ cs.flatMap array)
    (hj : Harmless j) (hend : j.getLast? ≠ some Byte.nul ∨ j.length ≤ s.length)
    (hcs : ∀ c ∈ cs, Plain c) (hcut : ∀ p, CutAt cs t p → 14 ≤ p.length) :
    Captures cs t (scanFrom w index) := by
  induction cs generalizing index s j with
  | nil =>
    rcases split_cases hsplit with ⟨q, rfl, ht⟩ | ⟨s', hs', -, hrest⟩
    · exact captures_inside hlen hlong hat ht hj hend
    · exact absurd (List.append_eq_nil_iff.mp hrest).1 hs'
  | cons c cs ih =>
    have hplain := hcs c List.mem_cons_self
    rcases split_cases hsplit with ⟨q, rfl, ht⟩ | ⟨s', hs', rfl, hrest⟩
    · exact captures_inside hlen hlong hat ht hj hend
    · have hnext := fun d hd => hcs d (List.mem_cons_of_mem c hd)
      have hcuts := fun p hp => hcut p (CutAt.cons c hp)
      rcases hkey : c.delKey? with _ | key
      · -- the command is harmless as well
        refine Captures.cons hkey (ih hat ?_ (hj.append (hplain.harmless hkey))
          (Or.inl (getLast?_array j hplain)) hnext hcuts)
        rw [hsplit, List.flatMap_cons, List.append_assoc]
      · obtain rfl := Command.delKey?_eq_some.mp hkey
        have hat' : w.At (index + j.length) s' := hat.append
        rw [scanFrom_harmless hlen hlong hat hj]
        rw [List.flatMap_cons] at hrest
        rcases split_cases hrest.symm with ⟨s'', rfl, ht⟩ | ⟨q, hq0, hq, ht⟩
        · refine captures_del hlen hlong hat' hplain
            (ih (j := []) hat'.append ht.symm ?_ ?_ hnext hcuts)
          · simp [Harmless]
          · simp
        · refine captures_broken hlen hlong hat' hq hq0 ht.symm ?_ hplain
          exact hcut s' ⟨[], [delName, key], cs, q, rfl, by simp [hkey], hq, hs', hq0, ht.symm⟩

/-- The scan passes over bytes without a star. -/
theorem scanFrom_toStar (hlen : w.len < 2 ^ 30) {index : Int} {a s : Bytes}
    (hat : w.At index (a ++ s)) (ha : Byte.star ∉ a) :
    scanFrom w index = scanFrom w (index + a.length) := by
  induction a generalizing index with
  | nil => simp
  | cons b a ih =>
    have hb : b ≠ Byte.star := fun h => ha (h ▸ List.mem_cons_self)
    rw [scanFrom_skip hlen hat.1 hat.lt_len (by rw [hat.get]; exact hb),
      ih hat.tail (fun h => ha (List.mem_cons_of_mem b h))]
    congr 1
    simp only [List.length_cons]
    omega

/-- In a buffer of at most fourteen bytes the first `'*'` is saved together with one byte in
front of it, wherever that byte lies. -/
theorem scanFrom_short (hshort : w.len ≤ 14) {a s : Bytes}
    (hdata : w.data = a ++ Byte.star :: s) (ha : Byte.star ∉ a) :
    scanFrom w 0 = ([.save (strncpy (w.get (a.length - 1) :: Byte.star :: s))], .done) := by
  have hat : w.At 0 (a ++ Byte.star :: s) := hdata ▸ WData.at_zero w
  have hstar := hat.append
  have hend := hstar.2.1
  simp only [List.length_cons] at hend
  rw [scanFrom_toStar (by omega) hat ha,
    scanFrom_star (by omega) hstar.1 hstar.lt_len hstar.get, if_neg (by omega)]
  rw [Int.zero_add] at hstar hend ⊢
  have hslice : w.slice a.length (s.length + 1) = Byte.star :: s :=
    WData.At.slice (t := []) (by rwa [List.append_nil])
  rw [saveToBuf, int32_of_bounds (by omega) (by omega), if_pos (by unfold maxRead; omega),
    if_neg (by omega), show (w.len - ((a.length : Int) - 1)).toNat = s.length + 1 + 1 from by omega,
    WData.slice_succ, show (a.length : Int) - 1 + 1 = a.length from by omega, hslice]

/-- The last byte of a front is the one before what follows. -/
theorem get_last {a s : Bytes} {b : UInt8} (hdata : w.data = a ++ s)
    (hb : a.getLast? = some b) : w.get (a.length - 1) = b := by
  obtain ⟨a', rfl⟩ := List.getLast?_eq_some_iff.mp hb
  have hat : w.At 0 (a' ++ (b :: s)) := by
    have := WData.at_zero w
    rw [hdata, List.append_assoc] at this
    exact this
  rw [← hat.append.get]
  congr 1
  simp only [List.length_append, List.length_cons, List.length_nil]
  omega

/-- One more byte in front of a star is harmless: no header has a star in its second place. -/
theorem Harmless.cons_star {b : UInt8} {s : Bytes} (hs : Harmless (Byte.star :: s)) :
    Harmless (b :: Byte.star :: s) := by
  intro k hk
  cases k with
  | zero =>
    obtain ⟨h14, -⟩ := hs 0 rfl
    refine ⟨by rw [List.length_cons]; omega, fun heq => ?_⟩
    -- the second byte of the header is no star
    have hsecond := congrArg (fun l => l[1]?) heq
    exact absurd (Option.some.inj (show some Byte.star = some 50 from hsecond)) (by decide)
  | succ k =>
    rw [List.getElem?_cons_succ] at hk
    rw [List.length_cons, List.drop_succ_cons]
    have := hs k hk
    exact ⟨by omega, this.2⟩

/-- The buffer ends inside the harmless text. -/
theorem captures_shortInside (hshort : w.len ≤ 14) {cs : List Command} {q t : Bytes}
    (ht : t = q ++ cs.flatMap array) (hj : Harmless (w.data ++ q))
    (hend : (w.data ++ q).getLast? ≠ some Byte.nul
      ∨ ((w.data ++ q).length ≤ w.data.length ∧ 15 ≤ (w.data ++ q).length)) :
    Captures cs t (scanFrom w 0) := by
  have hsize : w.data.length ≤ 14 := by
    unfold WData.len at hshort
    omega
  rw [List.length_append] at hend
  have hlast := hend.resolve_right (by omega)
  -- from a star on the bytes are carried, without one they are passed over
  rcases Decidable.em (Byte.star ∈ w.data) with hstar | hstar
  · obtain ⟨a, s, hdata, ha⟩ := List.eq_append_cons_of_mem hstar
    have hscan := scanFrom_short hshort hdata ha
    generalize w.get (a.length - 1) = b at hscan
    have hlen := congrArg List.length hdata
    simp only [List.length_append, List.length_cons] at hlen
    rw [hdata, List.append_assoc] at hj
    rw [hscan]
    refine ⟨strncpy (b :: Byte.star :: s) ++ q, [], cs, rfl, rfl, rfl, ?_, ?_, ?_, ?_, ?_, ?_⟩
    · rw [ht, List.append_assoc]
      rfl
    · exact Harmless.strncpy (s := b :: Byte.star :: s) hj.right.cons_star
    · cases q with
      | nil =>
        -- a whole command of fourteen bytes: it is all carried
        have h14 := (hj.right 0 rfl).1
        simp only [List.append_nil, List.length_cons] at h14
        right
        simp only [List.append_nil, length_strncpy, List.length_cons, carryOf, List.foldl_cons,
          List.foldl_nil]
        omega
      | cons d q => exact Or.inl (by simpa [List.getLast?_append] using hlast)
    · -- the carry is no longer than a whole command
      intro c hc
      have hpos : 0 < (array c).length := by simp [array]
      simp only [carryOf, List.foldl_cons, List.foldl_nil, List.length_append]
      omega
    · exact copied_strncpy _
    · simp only [carryOf, List.foldl_cons, List.foldl_nil, length_strncpy, List.length_cons,
        maxRead]
      omega
  · have hat : w.At 0 (w.data ++ []) := by
      rw [List.append_nil]
      exact WData.at_zero w
    rw [scanFrom_toStar (by omega) hat hstar,
      scanFrom_behind (by unfold WData.len; omega) (by omega)]
    exact captures_passed (s := w.data) ht (Or.inr hlast) (passed_nil hj.right)

/-- The buffer ends inside a `DEL`, behind harmless text. -/
theorem captures_shortBroken (hshort : w.len ≤ 14) {cs : List Command} {c : Command}
    {j s q t : Bytes} (hdata : w.data = j ++ s) (hj : Harmless j) (hj0 : j ≠ [])
    (hend : j.getLast? ≠ some Byte.nul) (hsq : array c = s ++ q) (hs : s ≠ [])
    (ht : t = q ++ cs.flatMap array) (hq : q ≠ []) (hplain : Plain c) :
    Captures (c :: cs) t (scanFrom w 0) := by
  have hlen := congrArg List.length hdata
  have hsize := congrArg List.length hsq
  have hqpos := List.length_pos_iff.mpr hq
  rw [List.length_append] at hlen hsize
  unfold WData.len at hshort
  -- thirteen bytes leave no room for a star that does no harm
  have hstar : Byte.star ∉ j := by
    intro hmem
    obtain ⟨k, hk⟩ := List.mem_iff_getElem?.mp hmem
    have hspos := List.length_pos_iff.mpr hs
    have := (hj k hk).1
    omega
  obtain ⟨b, s, rfl⟩ := List.exists_cons_of_ne_nil hs
  obtain ⟨rfl, -⟩ := List.cons_eq_cons.mp hsq
  obtain ⟨d, hd⟩ := Option.ne_none_iff_exists'.mp (List.getLast?_eq_none_iff.not.mpr hj0)
  have hscan := scanFrom_short (by unfold WData.len; omega) hdata hstar
  rw [get_last hdata hd] at hscan
  have hnul := hplain.nulFree
  rw [hsq, nul_notMem_append] at hnul
  -- the byte in front of the star and what follows have no zeros
  have hcopy : Copied (d :: Byte.star :: s) := by
    apply copied_of_nulFree
    intro h
    rcases List.mem_cons.mp h with h0 | h0
    · exact hend (h0 ▸ hd)
    · exact hnul.1 h0
  rw [hscan, hcopy]
  refine ⟨[d], [], c :: cs, rfl, rfl, rfl, ?_, ?_, Or.inl ?_, ?_, hcopy, ?_⟩
  · rw [ht, List.flatMap_cons, hsq]
    simp [carryOf]
  · refine harmless_of_starFree fun h => hstar ?_
    rw [List.mem_singleton.mp h]
    exact List.mem_of_getLast? hd
  · rw [hd] at hend
    exact hend
  · intro c' hc'
    cases hc'
    simp only [carryOf, List.foldl_cons, List.foldl_nil, List.length_cons, List.length_nil] at *
    omega
  · simp only [carryOf, List.foldl_cons, List.foldl_nil, List.length_cons, maxRead] at *
    omega

/-- **Short buffers.** -/
theorem captures_short (hshort : w.len ≤ 14) {cs : List Command} {t j : Bytes}
    (hsplit : w.data ++ t = j ++ cs.flatMap array)
    (hj : Harmless j)
    (hend : j.getLast? ≠ some Byte.nul ∨ (j.length ≤ w.data.length ∧ 15 ≤ j.length))
    (hcs : ∀ c ∈ cs, Plain c) (hcut : ∀ p, CutAt cs t p → p.length < w.data.length) :
    Captures cs t (scanFrom w 0) := by
  have hsize : w.data.length ≤ 14 := by
    unfold WData.len at hshort
    omega
  induction cs generalizing j with
  | nil =>
    rcases split_cases hsplit with ⟨q, rfl, ht⟩ | ⟨s', hs', -, hrest⟩
    · exact captures_shortInside hshort ht hj hend
    · exact absurd (List.append_eq_nil_iff.mp hrest).1 hs'
  | cons c cs ih =>
    have hplain := hcs c List.mem_cons_self
    rcases split_cases hsplit with ⟨q, rfl, ht⟩ | ⟨s', hs', hs, hrest⟩
    · exact captures_shortInside hshort ht hj hend
    · rcases hkey : c.delKey? with _ | key
      · -- the command is harmless as well
        refine Captures.cons hkey (ih ?_ (hj.append (hplain.harmless hkey))
          (Or.inl (getLast?_array j hplain)) (fun d hd => hcs d (List.mem_cons_of_mem c hd))
          (fun p hp => hcut p (CutAt.cons c hp)))
        rw [hsplit, List.flatMap_cons, List.append_assoc]
      · have hlen := congrArg List.length hs
        rw [List.length_append] at hlen
        have hlast : j.getLast? ≠ some Byte.nul := hend.resolve_right (by omega)
        rw [List.flatMap_cons] at hrest
        -- the command is too long for the buffer
        have hbig : 14 < (array c).length := by
          rw [Command.delKey?_eq_some.mp hkey, length_del]
          omega
        rcases split_cases hrest with ⟨q, hq, ht⟩ | ⟨s'', -, hdel, -⟩
        · have hq0 : q ≠ [] := by
            rintro rfl
            rw [hq, List.append_nil] at hbig
            omega
          have hcut' := hcut s' ⟨[], c, cs, q, rfl, by simp [hkey], hq, hs', hq0, ht⟩
          refine captures_shortBroken hshort hs hj ?_ hlast hq hs' ht hq0 hplain
          rintro rfl
          rw [List.length_nil] at hlen
          omega
        · rw [hdel, List.length_append] at hlen
          omega

/-- **Unsafe cuts.** With zeros around the buffer, a command that it breaks off in at any
other place leaves no query and no `'*'` behind. -/
theorem dropped_of_unsafe (hlen : w.len < 2 ^ 30) (hzero : ∀ k, w.around k = Byte.nul)
    {j s : Bytes} (hdata : w.data = j ++ Byte.star :: s) (hj : Harmless j)
    (hbroken : ¬((14 < w.len ∧ 14 ≤ (Byte.star :: s).length)
      ∨ (w.len ≤ 14 ∧ (Byte.star :: s).length < w.len))) :
    ∃ acts, scanFrom w 0 = (acts, .done) ∧ keysOf acts = [] ∧ Byte.star ∉ carryOf acts := by
  have hsize : w.len = (j.length + (Byte.star :: s).length : Nat) := by
    rw [WData.len, hdata, List.length_append]
  rcases Int.lt_or_le 14 w.len with hlong | hshort
  · have hat : w.At 0 (j ++ Byte.star :: s) := hdata ▸ WData.at_zero w
    have hstar := hat.append
    have hend := hstar.2.1
    -- the comparison meets the zero behind the buffer
    have hother : w.slice (0 + j.length) 14 ≠ delHeader := by
      intro heq
      have hget : (w.slice (0 + j.length) 14)[(Byte.star :: s).length]? = some Byte.nul := by
        rw [WData.slice, List.getElem?_map, List.getElem?_range (by omega), Option.map_some,
          hend, WData.get, if_neg (by omega), hzero]
      rw [heq] at hget
      exact nul_notMem_delHeader (List.mem_of_getElem? hget)
    refine ⟨[], ?_, rfl, List.not_mem_nil⟩
    rw [scanFrom_harmless hlen hlong hat hj, scanFrom_star hlen hstar.1 hstar.lt_len hstar.get,
      if_pos (by omega), if_neg (strncpy_eq_delHeader.not.mpr hother),
      scanFrom_behind (by omega) (by omega)]
  · obtain rfl : j = [] := List.eq_nil_of_length_eq_zero (by omega)
    have hfirst : w.get (([] : Bytes).length - 1) = Byte.nul := by
      rw [WData.get, if_neg (by simp), hzero]
    refine ⟨_, scanFrom_short hshort hdata List.not_mem_nil, rfl, ?_⟩
    -- a copy that begins with a zero has nothing else
    rw [hfirst]
    simp only [carryOf, List.foldl_cons, List.foldl_nil]
    intro hmem
    have hcstr : cstr (Byte.nul :: Byte.star :: s) = [] := rfl
    rw [strncpy, hcstr, List.nil_append] at hmem
    exact absurd (List.eq_of_mem_replicate hmem) (by decide)

/-! ## A sequence of reads -/

/-- `buf_master_cmd`, the keys passed to `queryKey`, and how the calls of
`processInputBuffer` ended. -/
structure Master where
  bufMasterCmd : Bytes
  queried : List Bytes
  ends : List End

/-- Before the first read. -/
def Master.start : Master := ⟨[], [], []⟩

/-- The next read, if there still is a process to read it. -/
def Master.feed (m : Master) (w : WData) : Master :=
  if m.ends.all End.running then
    let scanned := processInputBuffer m.bufMasterCmd w
    { bufMasterCmd := carryOf scanned.1
      queried := m.queried ++ keysOf scanned.1
      ends := m.ends ++ [scanned.2] }
  else m

/-- A read that ends at byte `n` of the stream of `cmds`, in a buffer of `len` bytes. When the
end lies inside a `DEL`, then either enough of the command has arrived, or the buffer is
short and the command is not its first byte. -/
def CutSafe (cmds : List Command) (n len : Nat) : Prop :=
  ∀ c ∈ cmds[whole array cmds n]?, c.delKey? ≠ none → rest array cmds n ≠ [] →
    (14 < len ∧ 14 ≤ (rest array cmds n).length)
      ∨ (len ≤ 14 ∧ (rest array cmds n).length < len)

instance (cmds : List Command) (n len : Nat) : Decidable (CutSafe cmds n len) :=
  inferInstanceAs (Decidable (∀ c ∈ cmds[whole array cmds n]?, Command.delKey? c ≠ none →
    rest array cmds n ≠ [] → _ ∨ _))

/-- Every read, from byte `n` of the stream on, ends in a safe place. -/
def CutsSafe (cmds : List Command) : Nat → Master → List WData → Prop
  | _, _, [] => True
  | n, m, w :: reads =>
    CutSafe cmds (n + w.data.length) (m.bufMasterCmd.length + w.data.length)
      ∧ CutsSafe cmds (n + w.data.length) (m.feed w) reads

instance decidableCutsSafe (cmds : List Command) :
    ∀ (n : Nat) (m : Master) (reads : List WData), Decidable (CutsSafe cmds n m reads)
  | _, _, [] => inferInstanceAs (Decidable True)
  | n, m, w :: reads =>
    have := decidableCutsSafe cmds (n + w.data.length) (m.feed w) reads
    inferInstanceAs (Decidable (CutSafe cmds (n + w.data.length) _ ∧ CutsSafe cmds _ _ reads))

/-- After `n` bytes: the keys of the commands `before` have been queried. -/
def Master.Reached (cmds : List Command) (n : Nat) (m : Master) : Prop :=
  ∃ j before after, cmds = before ++ after ∧ m.queried = delKeys before
    ∧ Ahead j m.bufMasterCmd ((cmds.flatMap array).drop n) after ∧ ∀ e ∈ m.ends, e = .done

/-- What a safe cut says of the deletion that it falls into, of which `p` has arrived. -/
theorem cutSafe_cutAt {cmds before after : List Command} {n len : Nat} {p : Bytes}
    (hcmds : cmds = before ++ after) (h : CutSafe cmds n len)
    (hcut : CutAt after ((cmds.flatMap array).drop n) p) :
    (14 < len ∧ 14 ≤ p.length) ∨ (len ≤ 14 ∧ p.length < len) := by
  obtain ⟨between, c, behind, q, rfl, hdel, hpq, hp, hq, hfuture⟩ := hcut
  have hsize := congrArg List.length hpq
  have hqpos := List.length_pos_iff.mpr hq
  rw [List.length_append] at hsize
  rw [← List.append_assoc] at hcmds
  -- the cut is `p` behind the commands in front of it
  have hn : n = ((before ++ between).flatMap array).length + p.length := by
    have hlen := congrArg List.length hfuture
    rw [List.length_drop, hcmds] at hlen
    simp only [List.flatMap_append, List.flatMap_cons, List.length_append] at hlen ⊢
    omega
  have hrest := rest_inside array (before ++ between) c behind (d := p.length) (by omega)
  have hwhole := whole_inside array (before ++ between) c behind (d := p.length) (by omega)
  rw [← hcmds, ← hn] at hrest hwhole
  rw [hpq, List.take_left'] at hrest
  · have hsafe := h c (by rw [hwhole, hcmds]; simp) hdel (by rwa [hrest])
    rwa [hrest] at hsafe
  · rfl

/-- **Step.** -/
theorem reached_feed {cmds : List Command} {n : Nat} {m : Master} {w : WData}
    (hcmds : ∀ c ∈ cmds, Plain c) (hread : w.data.length ≤ maxRead)
    (hw : w.data = ((cmds.flatMap array).drop n).take w.data.length)
    (hsafe : CutSafe cmds (n + w.data.length) (m.bufMasterCmd.length + w.data.length))
    (h : m.Reached cmds n) : (m.feed w).Reached cmds (n + w.data.length) := by
  obtain ⟨j, before, after, rfl, hqueried, hahead, hends⟩ := h
  have hgo : m.ends.all End.running = true := by
    rw [List.all_eq_true]
    intro e he
    rw [hends e he]
    rfl
  -- a part of plain commands has no zeros
  have hnul : Byte.nul ∉ w.data := by
    rw [hw]
    intro hmem
    obtain ⟨c, hc, hmem⟩ :=
      List.mem_flatMap.mp (List.mem_of_mem_drop (List.mem_of_mem_take hmem))
    exact (hcmds c hc).nulFree hmem
  have hfits := hahead.fits
  -- so the merge keeps every byte of the carry and of the read
  have hdata : (mergeCarry m.bufMasterCmd w).data = m.bufMasterCmd ++ w.data :=
    mergeCarry_data (by omega) fun _ => ⟨hahead.copied, copied_of_nulFree hnul⟩
  have hlen : (mergeCarry m.bufMasterCmd w).len
      = (m.bufMasterCmd.length + w.data.length : Nat) := by
    rw [WData.len, hdata, List.length_append]
  -- what is in the buffer, and what the master still sends
  have hsplit : (m.bufMasterCmd ++ w.data)
      ++ (((before ++ after).flatMap array).drop (n + w.data.length))
      = j ++ after.flatMap array := by
    rw [← hahead.split, List.append_assoc, ← List.drop_drop]
    congr 1
    conv => lhs; lhs; rw [hw]
    exact List.take_append_drop _ _
  have hplain := fun c hc => hcmds c (List.mem_append_right before hc)
  have hsize : (m.bufMasterCmd ++ w.data).length = m.bufMasterCmd.length + w.data.length :=
    List.length_append
  have hcaptures : Captures after (((before ++ after).flatMap array).drop (n + w.data.length))
      (processInputBuffer m.bufMasterCmd w) := by
    -- the cut is safe for a long buffer and for a short one
    rcases Nat.lt_or_ge 14 (m.bufMasterCmd.length + w.data.length) with hlong | hshort
    · refine captures_long (by unfold maxRead at *; omega) (by omega)
        (hdata ▸ WData.at_zero _) hsplit hahead.harmless ?_ hplain ?_
      · refine hahead.ends.imp_right fun hle => ?_
        omega
      · intro p hp
        have := cutSafe_cutAt rfl hsafe hp
        omega
    · refine captures_short (by omega) (by rw [hdata]; exact hsplit) hahead.harmless ?_ hplain ?_
      · refine hahead.ends.imp_right fun hle => ?_
        rw [hdata]
        omega
      · intro p hp
        have := cutSafe_cutAt rfl hsafe hp
        rw [hdata]
        omega
  -- the commands that are complete have been asked for
  obtain ⟨j', captured, left, hdone, rfl, hkeys, hahead'⟩ := hcaptures
  rw [Master.feed, if_pos hgo]
  refine ⟨j', before ++ captured, left, by rw [List.append_assoc], ?_, hahead', ?_⟩
  · simp only [hqueried, hkeys, delKeys, List.filterMap_append]
  · intro e he
    rcases List.mem_append.mp he with h0 | h0
    · exact hends e h0
    · rw [List.mem_singleton.mp h0, hdone]

/-- **Run.** -/
theorem reached_foldl {cmds : List Command} {reads : List WData} {n : Nat} {m : Master}
    (hcmds : ∀ c ∈ cmds, Plain c) (hreads : ∀ w ∈ reads, w.data.length ≤ maxRead)
    (hcut : reads.flatMap WData.data <+: (cmds.flatMap array).drop n)
    (hsafe : CutsSafe cmds n m reads) (h : m.Reached cmds n) :
    (reads.foldl Master.feed m).Reached cmds (n + (reads.flatMap WData.data).length) := by
  induction reads generalizing n m with
  | nil => simpa using h
  | cons w reads ih =>
    obtain ⟨hcuts, hrest⟩ := hsafe
    obtain ⟨tail, htail⟩ := hcut
    rw [List.flatMap_cons, List.append_assoc] at htail
    have hw : w.data = ((cmds.flatMap array).drop n).take w.data.length := by
      rw [← htail, List.take_left']
      rfl
    have hnext : reads.flatMap WData.data <+: (cmds.flatMap array).drop (n + w.data.length) := by
      rw [← List.drop_drop, ← htail, List.drop_left']
      · exact ⟨tail, rfl⟩
      · rfl
    have hstep := reached_feed hcmds (hreads w List.mem_cons_self) hw hcuts h
    have hrun := ih (fun v hv => hreads v (List.mem_cons_of_mem w hv)) hnext hrest hstep
    rwa [List.flatMap_cons, List.length_append, ← Nat.add_assoc]

/-- **Safe cuts lose no `DEL`.** For reads that cut the stream in safe places, the keys passed
to `queryKey` are the keys of the `DEL` commands: at any time a beginning of their list, and
all of them when the stream has been read. -/
theorem queried_of_cutsSafe {cmds : List Command} {reads : List WData}
    (hcmds : ∀ c ∈ cmds, Plain c)
    (hreads : ∀ w ∈ reads, w.data.length ≤ maxRead)
    (hcut : reads.flatMap WData.data <+: cmds.flatMap array)
    (hsafe : CutsSafe cmds 0 Master.start reads) :
    let m := reads.foldl Master.feed Master.start
    m.queried <+: delKeys cmds ∧ (∀ e ∈ m.ends, e = .done)
      ∧ (reads.flatMap WData.data = cmds.flatMap array → m.queried = delKeys cmds) := by
  intro m
  have hstart : Master.start.Reached cmds 0 := by
    refine ⟨[], [], cmds, rfl, rfl, ⟨rfl, by simp [Harmless], Or.inl (by simp), ?_, copied_nil,
      show 0 < maxRead from by decide⟩, by simp [Master.start]⟩
    intro c hc
    simp [Master.start, array]
  obtain ⟨j, before, after, rfl, hqueried, hahead, hends⟩ :=
    reached_foldl (n := 0) hcmds hreads hcut hsafe hstart
  refine ⟨?_, hends, fun hall => ?_⟩
  · exact ⟨delKeys after, by rw [hqueried, delKeys, delKeys, delKeys, List.filterMap_append]⟩
  · -- nothing is left to be read, so that no command lies ahead
    have hsplit := hahead.split
    rw [hall, Nat.zero_add, List.drop_length, List.append_nil] at hsplit
    have hnil : after = [] := by
      cases after with
      | nil => rfl
      | cons c after =>
        have hpending := hahead.pending c rfl
        rw [hsplit, List.flatMap_cons, List.length_append, List.length_append] at hpending
        omega
    rw [hqueried, hnil, List.append_nil]

theorem queried_of_cutsSafe_two :
    let cmds : List Command := [[[83, 69, 84], [107], [118]], [delName, [107, 49]]]
    let stream := cmds.flatMap array
    let reads : List WData := [⟨stream.take 45, fun _ => 0⟩, ⟨stream.drop 45, fun _ => 0⟩]
    let m := reads.foldl Master.feed Master.start
    m.queried <+: delKeys cmds ∧ (∀ e ∈ m.ends, e = .done)
      ∧ (reads.flatMap WData.data = cmds.flatMap array → m.queried = delKeys cmds) := by
  intro cmds stream reads
  exact queried_of_cutsSafe (by decide) (by decide) (by decide) (by decide)

/-- **An unsafe cut loses a `DEL`.** A `SET` and five bytes of a `DEL` in one read, the rest
of the `DEL` in the next: the key is not queried. -/
theorem queried_ne_delKeys :
    let cmds : List Command := [[[83, 69, 84], [107], [118]], [delName, [107, 49]]]
    let stream := cmds.flatMap array
    let reads : List WData := [⟨stream.take 32, fun _ => 0⟩, ⟨stream.drop 32, fun _ => 0⟩]
    (∀ c ∈ cmds, Plain c)
      ∧ (∀ w ∈ reads, w.data ≠ [] ∧ w.data.length ≤ maxRead)
      ∧ reads.flatMap WData.data = cmds.flatMap array
      ∧ (reads.foldl Master.feed Master.start).queried ≠ delKeys cmds := by
  decide

end Scan

end Iceberg
