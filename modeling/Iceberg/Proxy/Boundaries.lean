import Iceberg.Proxy.Scanner

/-!
# Capture and command boundaries

One read that holds complete commands, whatever bytes their arguments consist of. The
scanner does not parse the commands: it jumps fourteen bytes from every `'*'` it meets. The
result is the list of the `DEL` commands exactly when the jumps behind each of them lead to
the next one (`Clear`).
-/

namespace Iceberg

namespace Scan

open Iceberg.Parser (End)
open Resp

variable {w : WData}

/-- The queries, each with the place of its command. -/
def queriesOf (acts : List Act) : List (Int × Bytes) :=
  acts.filterMap fun
    | .query start key => some (start, key)
    | .save _ => none

/-- The `DEL` commands of a stream from `index` on. -/
def delsFrom : Int → List Command → List (Int × Bytes)
  | _, [] => []
  | index, c :: cs =>
    match c.delKey? with
    | some key => (index, key) :: delsFrom (index + (array c).length) cs
    | none => delsFrom (index + (array c).length) cs

/-- The read is scanned to its end, and the keys queried are those of the `DEL` commands in
it, each at the place of its command. -/
def Respects (cmds : List Command) (w : WData) : Prop :=
  (processInputBuffer [] w).2 = .done
    ∧ queriesOf (processInputBuffer [] w).1 = delsFrom 0 cmds

instance (cmds : List Command) (w : WData) : Decidable (Respects cmds w) :=
  inferInstanceAs (Decidable (_ ∧ _))

/-- Without the places, the queries are the keys. -/
theorem map_snd_queriesOf (acts : List Act) : (queriesOf acts).map Prod.snd = keysOf acts := by
  induction acts with
  | nil => rfl
  | cons act acts ih =>
    cases act with
    | query start key => exact congrArg (key :: ·) ih
    | save buf => exact ih

/-- Without the places, the deletions are their keys. Induction on the commands. -/
theorem map_snd_delsFrom (index : Int) (cs : List Command) :
    (delsFrom index cs).map Prod.snd = delKeys cs := by
  induction cs generalizing index with
  | nil => rfl
  | cons c cs ih =>
    rw [delsFrom, delKeys]
    cases hkey : c.delKey? with
    | none => rw [List.filterMap_cons_none hkey, ih, delKeys]
    | some key =>
      rw [List.filterMap_cons_some hkey, List.map_cons, ih, delKeys]

theorem Respects.keys {cmds : List Command} (h : Respects cmds w) :
    keysOf (processInputBuffer [] w).1 = delKeys cmds := by
  rw [← map_snd_queriesOf, h.2, map_snd_delsFrom]

/-! ## The condition -/

/-- From each `'*'` met on, fourteen bytes are jumped over, `skip` of them being left: no
header is met on the way, and the last jump ends with the text. -/
def Passes : Nat → Bytes → Prop
  | skip, [] => skip = 0
  | skip + 1, _ :: s => Passes skip s
  | 0, b :: s =>
    if b = Byte.star then (b :: s).take 14 ≠ delHeader ∧ Passes 13 s else Passes 0 s

/-- The place of the first header met in this way, in a text that begins at `index`. -/
def landing : Nat → Int → Bytes → Option Int
  | _, _, [] => none
  | skip + 1, index, _ :: s => landing skip (index + 1) s
  | 0, index, b :: s =>
    if b = Byte.star then
      if delHeader <+: b :: s then some index else landing 13 (index + 1) s
    else landing 0 (index + 1) s

/-- The length field behind the header at `start` does not end in the buffer, or counts more
bytes than the buffer has, without exceeding an `int`. -/
def Unfinished (w : WData) (start : Int) : Prop :=
  match lengthField w (start + 14) with
  | none => True
  | some (len, cr) => w.len ≤ cr + 2 ∨ (w.len < cr + 2 + len ∧ cr + 4 + len < 2 ^ 31)

/-- The text `between` stands at `index`, behind the last `DEL` or at the beginning of the
read, and the commands follow it. -/
def Clear (w : WData) : Int → Bytes → List Command → Prop
  | index, between, [] => ∀ start ∈ landing 0 index between, Unfinished w start
  | index, between, c :: cs =>
    match c.delKey? with
    | none => Clear w index (between ++ array c) cs
    | some key =>
      Passes 0 between ∧ Copied key
        ∧ Clear w (index + between.length + (array c).length) [] cs

instance decidablePasses : ∀ (skip : Nat) (s : Bytes), Decidable (Passes skip s)
  | 0, [] => .isTrue rfl
  | _ + 1, [] => .isFalse (Nat.succ_ne_zero _)
  | skip + 1, _ :: s => decidablePasses skip s
  | 0, b :: s =>
    have := decidablePasses 13 s
    have := decidablePasses 0 s
    inferInstanceAs (Decidable (if b = Byte.star then _ ∧ Passes 13 s else Passes 0 s))

instance (w : WData) (start : Int) : Decidable (Unfinished w start) :=
  show Decidable (match lengthField w (start + 14) with
    | none => True
    | some (len, cr) => w.len ≤ cr + 2 ∨ (w.len < cr + 2 + len ∧ cr + 4 + len < 2 ^ 31)) from
  match lengthField w (start + 14) with
  | none => .isTrue trivial
  | some _ => inferInstanceAs (Decidable (_ ∨ _ ∧ _))

instance decidableClear (w : WData) :
    ∀ (index : Int) (between : Bytes) (cs : List Command), Decidable (Clear w index between cs)
  | index, between, [] =>
    inferInstanceAs (Decidable (∀ start ∈ landing 0 index between, Unfinished w start))
  | index, between, c :: cs =>
    show Decidable (match c.delKey? with
      | none => Clear w index (between ++ array c) cs
      | some key => Passes 0 between ∧ Copied key
          ∧ Clear w (index + between.length + (array c).length) [] cs) from
    match c.delKey? with
    | none => decidableClear w index (between ++ array c) cs
    | some _ =>
      have := decidableClear w (index + between.length + (array c).length) [] cs
      inferInstanceAs (Decidable (_ ∧ _ ∧ _))

/-! ## Landings -/

/-- The scan lands behind what it skips. Induction on the bytes. -/
theorem le_landing {skip : Nat} {index start : Int} {s : Bytes}
    (h : landing skip index s = some start) : index + skip ≤ start := by
  induction s generalizing skip index with
  | nil => cases skip <;> cases h
  | cons b s ih =>
    cases skip with
    | zero =>
      rw [landing] at h
      split at h
      · split at h
        · cases h
          omega
        · have := ih h
          omega
      · have := ih h
        omega
    | succ skip =>
      have := ih (show landing skip (index + 1) s = some start from h)
      omega

/-- Nothing is landed on where all bytes are skipped. -/
theorem landing_of_short {skip : Nat} {index : Int} {s : Bytes} (h : s.length ≤ skip) :
    landing skip index s = none := by
  induction s generalizing skip index with
  | nil => cases skip <;> rfl
  | cons b s ih =>
    cases skip with
    | zero => cases h
    | succ skip => exact ih (Nat.le_of_succ_le_succ h)

/-- A header does not begin inside another one. -/
theorem header_prefix {s r : Bytes} (hs : s ≠ []) (h : delHeader <+: s ++ delHeader ++ r) :
    s.take 14 = delHeader := by
  obtain ⟨u, hu⟩ := h
  rcases Nat.lt_or_ge s.length 14 with hlt | hge
  · -- the first star of the second header would be one of the first header
    have hone : ∀ k < 14, 0 < k → delHeader[k]? ≠ some Byte.star := by decide
    have hget := congrArg (fun l => l[s.length]?) hu
    simp only [List.append_assoc] at hget
    rw [List.getElem?_append_left hlt, List.getElem?_append_right (Nat.le_refl _),
      Nat.sub_self] at hget
    exact absurd hget (hone _ hlt (List.length_pos_iff.mpr hs))
  · rw [List.append_assoc] at hu
    have htake := congrArg (List.take 14) hu
    rw [List.take_append_of_le_length hge] at htake
    rw [← htake]
    rfl

/-- The jumps lead to the header behind a text exactly when they pass the text. -/
theorem landing_eq_iff {skip : Nat} {index : Int} {s r : Bytes} :
    landing skip index (s ++ delHeader ++ r) = some (index + s.length) ↔ Passes skip s := by
  induction s generalizing skip index with
  | nil =>
    cases skip with
    | zero => simp [landing, Passes, delHeader]
    | succ skip =>
      have hne : landing (skip + 1) index ([] ++ delHeader ++ r) ≠ some (index + 0) := by
        intro h
        have := le_landing h
        omega
      simpa [Passes] using hne
  | cons b s ih =>
    have hidx : index + (b :: s).length = index + 1 + s.length := by
      simp only [List.length_cons]
      omega
    rw [hidx]
    cases skip with
    -- a byte inside the jump: it is passed whatever it is
    | succ skip => exact ih
    | zero =>
      rw [List.cons_append, List.cons_append, landing, Passes]
      split
      · split
        · rename_i hpre
          -- a header before the command: the scan lands too early
          have htake := header_prefix (s := b :: s) (List.cons_ne_nil b s) hpre
          constructor
          · intro h
            have := Option.some.inj h
            omega
          · exact fun h => absurd htake h.1
        · rename_i hpre
          -- a star that begins no header is jumped over
          have hne : (b :: s).take 14 ≠ delHeader := by
            intro htake
            have htaken : (b :: s).take 14 <+: b :: (s ++ delHeader ++ r) :=
              (List.take_prefix 14 (b :: s)).trans ⟨delHeader ++ r, by simp⟩
            exact hpre (htake ▸ htaken)
          rw [ih]
          exact (and_iff_right hne).symm
      · exact ih

/-! ## The scanner at a landing -/

/-- A `'*'` that opens no `DEL`, with fourteen bytes or fewer in the buffer. -/
theorem scanFrom_jumped (hlen : w.len < 2 ^ 30) (hlong : 14 < w.len) {index : Int} {s : Bytes}
    (hat : w.At index (Byte.star :: s)) (hpre : ¬ delHeader <+: Byte.star :: s) :
    (scanFrom w index = scanFrom w (index + 14))
      ∨ ((scanFrom w index).2 = .done ∧ queriesOf (scanFrom w index).1 = [] ∧ s.length < 13) := by
  rcases Nat.lt_or_ge (Byte.star :: s).length 14 with hlt | hge
  · right
    have hshort : s.length < 13 := by
      rw [List.length_cons] at hlt
      omega
    rcases scanFrom_brokenStar hlen hlong hat hlt with h | h
    · rw [h]
      exact ⟨rfl, rfl, hshort⟩
    · rw [h]
      exact ⟨rfl, rfl, hshort⟩
  · left
    have hsplit := List.take_append_drop 14 (Byte.star :: s)
    have htake : ((Byte.star :: s).take 14).length = 14 := by
      rw [List.length_take]
      omega
    rw [← hsplit] at hat
    refine scanFrom_other hlen hlong hat rfl htake fun heq => hpre ?_
    exact ⟨(Byte.star :: s).drop 14, by rw [← heq, hsplit]⟩

/-- **Nothing is landed on**: the scan runs to the end of the data and queries nothing. Induction
on the bytes, with the number of them that are skipped. -/
theorem scanFrom_landing_none (hlen : w.len < 2 ^ 30) (hlong : 14 < w.len) {skip : Nat}
    {index : Int} {s : Bytes} (hat : w.At index s) (h : landing skip index s = none) :
    (scanFrom w (index + skip)).2 = .done ∧ queriesOf (scanFrom w (index + skip)).1 = [] := by
  induction s generalizing skip index with
  | nil =>
    have hend := hat.2.1
    have h0 := hat.1
    simp only [List.length_nil] at hend
    rw [scanFrom_behind (by omega) (by omega)]
    exact ⟨rfl, rfl⟩
  | cons b s ih =>
    -- the index behind one byte, with what is left of the jump
    have hmove : ∀ k : Nat, index + 1 + k = index + (k + 1 : Nat) := by omega
    have hzero : index + 1 + (0 : Nat) = index + 1 := by omega
    cases skip with
    | succ skip =>
      rw [← hmove]
      exact ih hat.tail h
    | zero =>
      rw [show index + (0 : Nat) = index from by omega]
      rw [landing] at h
      split at h
      · rename_i hstar
        subst hstar
        split at h
        · cases h
        · rename_i hpre
          -- no header: the scan jumps fourteen bytes, or has come to the end
          rcases scanFrom_jumped hlen hlong hat hpre with hjump | ⟨hdone, hnone, -⟩
          · rw [hjump]
            exact hmove 13 ▸ ih hat.tail h
          · exact ⟨hdone, hnone⟩
      · rename_i hstar
        rw [scanFrom_skip hlen hat.1 hat.lt_len (by rw [hat.get]; exact hstar)]
        have hrest := ih hat.tail h
        rwa [hzero] at hrest

/-- **A header is landed on**: the scan passes over everything before it, and a deletion header
stands there. -/
theorem scanFrom_landing_some (hlen : w.len < 2 ^ 30) (hlong : 14 < w.len) {skip : Nat}
    {index start : Int} {s : Bytes} (hat : w.At index s)
    (h : landing skip index s = some start) :
    scanFrom w (index + skip) = scanFrom w start ∧ ∃ r, w.At start (delHeader ++ r) := by
  induction s generalizing skip index with
  | nil => cases skip <;> cases h
  | cons b s ih =>
    have hmove : ∀ k : Nat, index + 1 + k = index + (k + 1 : Nat) := by omega
    have hzero : index + 1 + (0 : Nat) = index + 1 := by omega
    cases skip with
    | succ skip =>
      rw [← hmove]
      exact ih hat.tail h
    | zero =>
      rw [show index + (0 : Nat) = index from by omega]
      rw [landing] at h
      split at h
      · rename_i hstar
        subst hstar
        split at h
        · rename_i hpre
          -- the header is here, and both scans are the same
          obtain ⟨r, hr⟩ := hpre
          cases h
          exact ⟨rfl, r, hr ▸ hat⟩
        · rename_i hpre
          rcases scanFrom_jumped hlen hlong hat hpre with hjump | ⟨-, -, hshort⟩
          · rw [hjump]
            exact hmove 13 ▸ ih hat.tail h
          · -- fewer than fourteen bytes are left, where nothing can be landed on
            rw [landing_of_short (by omega)] at h
            cases h
      · rename_i hstar
        rw [scanFrom_skip hlen hat.1 hat.lt_len (by rw [hat.get]; exact hstar)]
        have hrest := ih hat.tail h
        rwa [hzero] at hrest

/-! ## A header -/

/-- To keep a rest saves something and goes on at the place that is asked for. -/
theorem keep_ret {start : Int} {s : Bytes} (hat : w.At start s) (hlen : w.len < 2 ^ 30)
    (next : Int) : ∃ buf, keep w start next = .ret [.save buf] next := by
  have h0 := hat.1
  have hle := hat.le_len
  rw [keep, saveToBuf, int32_of_bounds (by omega) (by omega),
    if_neg (show ¬ w.len - start < 0 from by omega)]
  rcases Decidable.em (w.len - start < maxRead) with hfit | hfull
  · rw [if_pos hfit]
    exact ⟨_, rfl⟩
  · rw [if_neg hfull]
    exact ⟨_, rfl⟩

/-- What comes of a header: nothing, when its command is unfinished; else a query for it, or
the end of the process. -/
theorem scanFrom_header_cases (hlen : w.len ≤ maxRead) (hlong : 14 < w.len) {start : Int}
    {s : Bytes} (hat : w.At start (delHeader ++ s)) :
    (Unfinished w start ∧ (scanFrom w start).2 = .done ∧ queriesOf (scanFrom w start).1 = [])
      ∨ (¬Unfinished w start
        ∧ ∃ key rest, queriesOf (scanFrom w start).1 = (start, key) :: rest)
      ∨ (¬Unfinished w start ∧ (scanFrom w start).2 = .crash
        ∧ queriesOf (scanFrom w start).1 = []) := by
  have hsmall : w.len < 2 ^ 30 := Int.lt_of_le_of_lt hlen (by decide)
  have h0 := hat.1
  obtain ⟨buf, hkeep⟩ := keep_ret hat hsmall (-1)
  rw [scanFrom_header hsmall hlong hat, delParser_header hat, Unfinished]
  -- the cases are those of `del_parser`: no length, no key yet, a key cut off, a key
  cases hfield : lengthField w (start + 14) with
  | none =>
    left
    simp only [hkeep]
    exact ⟨trivial, rfl, rfl⟩
  | some field =>
    obtain ⟨len, cr⟩ := field
    have hb := lengthField_bounds hfield
    have hint := lengthField_int hfield
    simp only
    rcases Int.lt_or_le (cr + 2) w.len with hin | hend
    · rw [if_neg (show ¬ cr + 2 ≥ w.len from by omega)]
      rcases Int.lt_or_le w.len (int32 (cr + 2 + len)) with hfit | hfit
      · obtain ⟨buf', hkeep'⟩ := keep_ret hat hsmall (int32 (cr + 2 + len + 2))
        rw [if_neg (by omega), hkeep']
        simp only
        rcases Int.lt_or_le (cr + 4 + len) (2 ^ 31) with hok | hover
        · left
          -- the key ends behind the buffer, and no index overflows
          rw [int32_of_bounds (by omega) (by omega)] at hfit
          rw [int32_of_bounds (by omega) (by omega), if_neg (by omega),
            scanFrom_behind (by omega) (by omega)]
          exact ⟨Or.inr ⟨by omega, hok⟩, rfl, rfl⟩
        · -- the index that is returned has overflowed
          right
          right
          have hneg : int32 (cr + 2 + len + 2) < -1 := by
            unfold int32
            omega
          rw [if_neg (by omega), scanFrom, scan_negative (by omega) (by omega)]
          exact ⟨by omega, rfl, rfl⟩
      · have hnot : ¬(w.len ≤ cr + 2 ∨ w.len < cr + 2 + len ∧ cr + 4 + len < 2 ^ 31) := by
          unfold int32 at hfit
          omega
        rw [if_pos hfit]
        rcases Int.lt_or_le len 0 with hneg | hpos
        · -- a negative length makes `strncpy` copy without a bound
          rw [if_pos hneg]
          exact Or.inr (Or.inr ⟨hnot, rfl, rfl⟩)
        · rw [if_neg (by omega)]
          -- the key is there and is asked for
          refine Or.inr (Or.inl ⟨hnot, strncpy (w.slice (cr + 2) len.toNat), ?_⟩)
          simp only
          split
          · exact ⟨[], rfl⟩
          · exact ⟨_, rfl⟩
    · left
      rw [if_pos hend, hkeep]
      exact ⟨Or.inl hend, rfl, rfl⟩

/-- The keys found are the expected ones exactly when the way to each `DEL` is clear. -/
theorem scanFrom_clear_iff (hlen : w.len ≤ maxRead) (hlong : 14 < w.len) {cs : List Command}
    {index : Int} {between : Bytes} (hat : w.At index (between ++ cs.flatMap array)) :
    ((scanFrom w index).2 = .done
        ∧ queriesOf (scanFrom w index).1 = delsFrom (index + between.length) cs)
      ↔ Clear w index between cs := by
  have hsmall : w.len < 2 ^ 30 := Int.lt_of_le_of_lt hlen (by decide)
  induction cs generalizing index between with
  | nil =>
    rw [List.flatMap_nil, List.append_nil] at hat
    have hindex : index + (0 : Nat) = index := by omega
    rw [delsFrom, Clear]
    -- no command left: the rest may hold at most one header that is unfinished
    cases hland : landing 0 index between with
    | none =>
      -- no landing, but the command begins with a header
      have hquiet := scanFrom_landing_none hsmall hlong hat hland
      rw [hindex] at hquiet
      exact iff_of_true hquiet (by simp)
    | some start =>
      obtain ⟨hscan, r, hhead⟩ := scanFrom_landing_some hsmall hlong hat hland
      rw [hindex] at hscan
      rw [hscan]
      have hiff : (∀ start' ∈ some start, Unfinished w start') ↔ Unfinished w start := by simp
      rw [hiff]
      rcases scanFrom_header_cases hlen hlong hhead with
        ⟨hun, hquiet⟩ | ⟨hun, key, rest, hquery⟩ | ⟨hun, hcrash, -⟩
      · exact iff_of_true hquiet hun
      · refine iff_of_false (fun h => ?_) hun
        rw [hquery] at h
        cases h.2
      · refine iff_of_false (fun h => ?_) hun
        rw [hcrash] at h
        cases h.1
  | cons c cs ih =>
    rw [List.flatMap_cons] at hat
    rw [delsFrom, Clear]
    rcases hkey : c.delKey? with _ | key
    · -- another command joins the bytes in between
      have hjoin := @ih index (between ++ array c) (by rwa [List.append_assoc])
      rw [List.length_append, Int.natCast_add, ← Int.add_assoc] at hjoin
      exact hjoin
    · obtain rfl := Command.delKey?_eq_some.mp hkey
      -- the text behind `between` begins with a header
      obtain ⟨body, hbody⟩ : ∃ body, array [delName, key] ++ cs.flatMap array
          = delHeader ++ body := ⟨_, by rw [array_del, List.append_assoc]⟩
      have hlands := @landing_eq_iff 0 index between body
      rw [List.append_assoc, ← hbody] at hlands
      have hindex : index + (0 : Nat) = index := by omega
      simp only
      cases hland : landing 0 index (between ++ (array [delName, key] ++ cs.flatMap array)) with
      | none =>
        have hquiet := scanFrom_landing_none hsmall hlong hat hland
        rw [hindex] at hquiet
        rw [hland] at hlands
        refine iff_of_false (fun h => ?_) (fun h => ?_)
        · rw [hquiet.2] at h
          cases h.2
        · cases hlands.mpr h.1
      | some start =>
        obtain ⟨hscan, r, hhead⟩ := scanFrom_landing_some hsmall hlong hat hland
        rw [hindex] at hscan
        rw [hland, Option.some_inj] at hlands
        rw [hscan]
        rcases Decidable.em (start = index + between.length) with hstart | hother
        · -- the next header is that of the command
          have hat' : w.At start (array [delName, key] ++ cs.flatMap array) :=
            hat.append.cast hstart.symm
          have hih := @ih (start + (array [delName, key]).length) [] (by simpa using hat'.append)
          rw [List.length_nil, show start + (array [delName, key]).length + ((0 : Nat) : Int)
            = start + (array [delName, key]).length from by omega] at hih
          rw [scanFrom_del hsmall hlong hat', ← hstart]
          have hcons : ∀ acts, queriesOf (.query start (strncpy key) :: acts)
            = (start, strncpy key) :: queriesOf acts := fun _ => rfl
          refine Iff.trans ?_ (and_congr_right fun _ => and_congr_right fun _ => hih)
          simp only [hcons, List.cons.injEq, Prod.mk.injEq, true_and, hlands.mp hstart, Copied]
          exact and_left_comm
        · refine iff_of_false (fun h => ?_) (fun h => hother (hlands.mpr h.1))
          -- landed somewhere else, whatever is read there
          rcases scanFrom_header_cases hlen hlong hhead with
            ⟨-, -, hnone⟩ | ⟨-, key', rest, hquery⟩ | ⟨-, -, hnone⟩
          · rw [hnone] at h
            cases h.2
          · rw [hquery] at h
            exact hother (Prod.mk.inj (List.cons.inj h.2).1).1
          · rw [hnone] at h
            cases h.2

/-- **Boundaries.** A read of complete commands is scanned as such exactly when the way to
each `DEL` is clear. -/
theorem respects_iff_clear {cmds : List Command} (hdata : w.data = cmds.flatMap array)
    (hmin : 15 ≤ w.data.length) (hmax : w.data.length ≤ maxRead) :
    Respects cmds w ↔ Clear w 0 [] cmds := by
  have hat : w.At 0 ([] ++ cmds.flatMap array) := hdata ▸ WData.at_zero w
  have hmerge : mergeCarry [] w = w := if_neg fun h => Nat.lt_irrefl 0 h.1
  have hiff := scanFrom_clear_iff (by unfold WData.len; omega) (by unfold WData.len; omega) hat
  rw [Respects, processInputBuffer, hmerge]
  exact hiff

theorem respects_iff_clear_two :
    let cmds : List Command := [[[83, 69, 84], [107], [0, 118]], [delName, [107, 49]]]
    let w : WData := ⟨cmds.flatMap array, fun _ => 255⟩
    Respects cmds w ↔ Clear w 0 [] cmds :=
  respects_iff_clear rfl (by decide) (by decide)

example :
    let cmds : List Command := [[[83, 69, 84], [107], [0, 118]], [delName, [107, 49]]]
    Clear ⟨cmds.flatMap array, fun _ => 255⟩ 0 [] cmds := by
  decide

/-- **Stars and headers in arguments.** Behind a value that ends with a `'*'` the `DEL` is
jumped over, and a value that looks like a `DEL` is queried. -/
theorem not_respects_star :
    let hidden : List Command := [[[83, 69, 84], [107], [42]], [delName, [107, 49]]]
    let hider : WData := ⟨hidden.flatMap array, fun _ => 0⟩
    let quoted : List Command := [[[83, 69, 84], [107], array [delName, [107, 49]]]]
    let quoter : WData := ⟨quoted.flatMap array, fun _ => 0⟩
    (15 ≤ hider.data.length ∧ hider.data.length ≤ maxRead ∧ ¬Respects hidden hider
        ∧ keysOf (processInputBuffer [] hider).1 = [] ∧ delKeys hidden = [[107, 49]])
      ∧ 15 ≤ quoter.data.length ∧ quoter.data.length ≤ maxRead ∧ ¬Respects quoted quoter
        ∧ keysOf (processInputBuffer [] quoter).1 = [[107, 49]] ∧ delKeys quoted = [] := by
  decide

end Scan

end Iceberg
