import Iceberg.Proxy.Accesses
import Iceberg.Proxy.ParserLemmas

/-!
# The bytes that the reply parser looks at

What each sub-parser of `parseReadData` reads, the item lengths it computes and the index it
returns, for arbitrary bytes. A header without a `'\r'` is searched past the end of the
buffer, and of a line one byte too many is copied. A length that is negative, or that takes
the index out of an `int`, moves the index back.

What the log calls are given is not counted as read here.
-/

namespace Iceberg

namespace Parser

variable {w : WData} {start : Int}

/-! ## What is read -/

/-- A round of the item loop of `parseArray`, with `arrayLen` items to come, reads the byte
at `i`. Before `exit(1)` the whole buffer is printed from the array on. -/
def ItemReads (w : WData) (start : Int) (arrayLen : Nat) (index i : Int) : Prop :=
  i = index ∨
    if w.get index ≠ Byte.dollar then
      (start ≤ i ∧ i ≤ index) ∨ (index + 1 ≤ i ∧ i < w.len)
    else if index + 1 ≥ w.len then Saves w start i
    else Reads w Byte.cr (index + 1) w.len i ∨
      match lengthField w (index + 1) with
      | none => Saves w start i
      | some (itemLen, cr) =>
        let next := int32 (cr + itemLen + 4)
        if next > w.len ∨ (next = w.len ∧ arrayLen > 1) then Saves w start i
        else itemLen > 0 ∧ Copies w (cr + 2) itemLen i

/-- The rounds of the item loop: the items to come, and the index. -/
def itemRounds (w : WData) : Nat → Int → CPtr → List (Nat × Int)
  | 0, _, _ => []
  | arrayLen + 1, index, itemKey =>
    (arrayLen + 1, index) ::
      if w.get index ≠ Byte.dollar then []
      else if index + 1 ≥ w.len then []
      else match lengthField w (index + 1) with
        | none => []
        | some (itemLen, cr) =>
          let itemStart := cr + 2
          let index := int32 (cr + itemLen + 4)
          if index > w.len ∨ (index = w.len ∧ arrayLen + 1 > 1) then []
          else if itemLen > 0 then
            let item := cstr (w.slice itemStart itemLen.toNat)
            if (arrayLen + 1) % 2 = 0 then itemRounds w arrayLen index (.str item)
            else match itemKey with
              | .str _ => itemRounds w arrayLen index .freed
              | _ => []
          else itemRounds w arrayLen index itemKey

/-- The length that a bulk string at `index` gets, if its header is complete. -/
def itemLen (w : WData) (index : Int) : Option Int :=
  if w.get index = Byte.dollar then (lengthField w (index + 1)).map Prod.fst else none

/-- The rounds of the item loop that `parseArray` comes to. -/
def arrayRounds (w : WData) (start : Int) : List (Nat × Int) :=
  if start + 1 ≥ w.len then []
  else match lengthField w (start + 1) with
    | none => []
    | some (arrayLen, cr) =>
      let index := cr + 2
      if index > w.len ∨ (index = w.len ∧ arrayLen > 0) then []
      else itemRounds w arrayLen.toNat index .uninit

/-- `parseArray` reads the byte at `i` in front of the item loop. -/
def HeaderReads (w : WData) (start i : Int) : Prop :=
  if start + 1 ≥ w.len then Saves w start i
  else Reads w Byte.cr (start + 1) (w.len - 1) i ∨
    match lengthField w (start + 1) with
    | none => Saves w start i
    | some (arrayLen, cr) =>
      let index := cr + 2
      (index > w.len ∨ (index = w.len ∧ arrayLen > 0)) ∧ Saves w start i

/-- `parseBulkString` reads the byte at `i`. -/
def BulkReads (w : WData) (start i : Int) : Prop :=
  Reads w Byte.cr (start + 1) w.len i ∨
    match lengthField w (start + 1) with
    | none => Saves w start i
    | some (itemLen, cr) =>
      if int32 (cr + itemLen + 4) > w.len then Saves w start i
      else Copies w (cr + 2) itemLen i

/-- `parseSimple` reads the byte at `i`. -/
def SimpleReads (w : WData) (start i : Int) : Prop :=
  Reads w Byte.lf (start + 1) (w.len - 1) i ∨
    match findLf w (w.len - (start + 1)).toNat (start + 1) with
    | some index => Copies w (start + 1) (index + 1 - start) i ∨ i = index
    | none => Saves w start i

/-- A round of the loop of `parseReadData` reads the byte at `i`: its first one, or one that
the sub-parser reads, or any one that is printed as unexpected data. -/
def ReplyReads (w : WData) (start i : Int) : Prop :=
  i = start ∨
    let b := w.get start
    if b = Byte.star then
      HeaderReads w start i ∨ ∃ r ∈ arrayRounds w start, ItemReads w start r.1 r.2 i
    else if b = Byte.dollar then BulkReads w start i
    else if b = Byte.minus ∨ b = Byte.plus ∨ b = Byte.colon then SimpleReads w start i
    else w.Inside i

/-- A round computes the item length `v`. -/
def ReplyLen (w : WData) (start v : Int) : Prop :=
  let b := w.get start
  if b = Byte.star then ∃ r ∈ arrayRounds w start, itemLen w r.2 = some v
  else if b = Byte.dollar then itemLen w start = some v
  else False

/-- The sub-parser ends the process by `exit(1)`, or returns `-1` or an index that is greater
than its start and at most `len`. -/
def Res.Forward (w : WData) (start : Int) (r : Res) : Prop :=
  r = .exit ∨ ∃ acts next, r = .ret acts next ∧ (next = -1 ∨ (start < next ∧ next ≤ w.len))

/-- **A round of `parseReadData` is sound.** It reads inside the buffer, item lengths are not
negative, and the sub-parser goes forward. -/
structure SoundReply (w : WData) (start : Int) : Prop where
  reads : ∀ i, ReplyReads w start i → w.Inside i
  lengths : ∀ v, ReplyLen w start v → 0 ≤ v
  forward : ∀ r, parseReply w start = some r → r.Forward w start

/-! ## The condition -/

/-- The items that stand at `index`, `n` of them to come, with or without a key in
`item_key`: each header that is reached has its `'\r'` in the buffer, a length that is not
negative and an end that fits an `int`, and no value comes without a key. -/
def ItemsFit : Nat → Bool → Int → Bytes → Prop
  | 0, _, _, _ => True
  | n + 1, hasKey, index, s =>
    s.head? = some Byte.dollar → s.tail ≠ [] →
      Byte.cr ∈ s.tail ∧ 0 ≤ fieldVal s.tail
        ∧ index + (field s.tail).length + fieldVal s.tail + 5 < 2 ^ 31
        ∧ let k := (field s.tail).length + (fieldVal s.tail).toNat + 5
          k < s.length ∨ (k = s.length ∧ n = 0) →
            (0 < fieldVal s.tail → (n + 1) % 2 = 0 ∨ hasKey = true)
              ∧ ItemsFit n (if 0 < fieldVal s.tail then (n + 1) % 2 = 0 else hasKey)
                (index + k) (s.drop k)

instance decidableItemsFit : ∀ (n : Nat) (hasKey : Bool) (index : Int) (s : Bytes),
    Decidable (ItemsFit n hasKey index s)
  | 0, _, _, _ => .isTrue trivial
  | n + 1, _, _, s =>
    have := decidableItemsFit n
    inferInstanceAs (Decidable (s.head? = some Byte.dollar → s.tail ≠ [] → _ ∧ _ ∧ _ ∧ (_ → _)))

/-- The bytes that `n` items take, when they are all there. -/
def itemsTake : Nat → Bytes → Option Nat
  | 0, _ => some 0
  | n + 1, s =>
    if s.head? = some Byte.dollar ∧ Byte.cr ∈ s.tail then
      let k := (field s.tail).length + (fieldVal s.tail).toNat + 5
      if k < s.length ∨ (k = s.length ∧ n = 0) then (itemsTake n (s.drop k)).map (k + ·)
      else none
    else none

/-! ## The item loop -/

/-- What `SoundReply` asks of the item loop. -/
structure SoundItems (w : WData) (start : Int) (n : Nat) (index : Int) (object : JsonSets)
    (itemKey : CPtr) : Prop where
  reads : ∀ r ∈ itemRounds w n index itemKey, ∀ i, ItemReads w start r.1 r.2 i → w.Inside i
  lengths : ∀ r ∈ itemRounds w n index itemKey, ∀ v, itemLen w r.2 = some v → 0 ≤ v
  forward : (parseItems w start n index object itemKey).Forward w start

/-- The reply ends behind the buffer, and is saved. -/
theorem incomplete_eq (hlen : w.len < 2 ^ 30) {p : Bytes} (hat : w.At start p) :
    ∃ acts, incomplete w start = .ret acts (-1) := by
  have h0 := hat.1
  have hle := hat.le_len
  rw [incomplete, saveToBuf, int32_of_bounds (by omega) (by omega),
    if_neg (show ¬ w.len - start < 0 from by omega)]
  rcases Decidable.em (w.len - start < maxRead) with hfit | hfull
  · rw [if_pos hfit]
    exact ⟨_, rfl⟩
  · rw [if_neg hfull]
    exact ⟨_, rfl⟩

theorem forward_incomplete (hlen : w.len < 2 ^ 30) {p : Bytes} (hat : w.At start p) :
    (incomplete w start).Forward w start := by
  obtain ⟨acts, hret⟩ := incomplete_eq hlen hat
  exact Or.inr ⟨acts, -1, hret, Or.inl rfl⟩

section

variable {n : Nat} {index next : Int} {object object' : JsonSets} {itemKey itemKey' : CPtr}

/-- A round that is the last one. -/
theorem soundItems_stop
    (hrounds : itemRounds w (n + 1) index itemKey = [(n + 1, index)])
    (hreads : ∀ i, ItemReads w start (n + 1) index i → w.Inside i)
    (hlens : ∀ v, itemLen w index = some v → 0 ≤ v) :
    SoundItems w start (n + 1) index object itemKey
      ↔ (parseItems w start (n + 1) index object itemKey).Forward w start := by
  constructor
  · exact fun h => h.forward
  · intro h
    refine ⟨?_, ?_, h⟩
    · rw [hrounds]
      simpa using hreads
    · rw [hrounds]
      simpa using hlens

/-- A round that another one follows. -/
theorem SoundItems.tail
    (hrounds : itemRounds w (n + 1) index itemKey
      = (n + 1, index) :: itemRounds w n next itemKey')
    (hparse : parseItems w start (n + 1) index object itemKey
      = parseItems w start n next object' itemKey')
    (h : SoundItems w start (n + 1) index object itemKey) :
    SoundItems w start n next object' itemKey' := by
  obtain ⟨hr, hl, hf⟩ := h
  rw [hrounds] at hr hl
  rw [hparse] at hf
  exact ⟨fun r h => hr r (List.mem_cons_of_mem _ h),
    fun r h => hl r (List.mem_cons_of_mem _ h), hf⟩

/-- A round that goes on to the next item is sound exactly if it reads inside, its length is not
negative, and the rest is sound. -/
theorem soundItems_step
    (hrounds : itemRounds w (n + 1) index itemKey
      = (n + 1, index) :: itemRounds w n next itemKey')
    (hparse : parseItems w start (n + 1) index object itemKey
      = parseItems w start n next object' itemKey')
    (hreads : ∀ i, ItemReads w start (n + 1) index i → w.Inside i)
    (hlens : ∀ v, itemLen w index = some v → 0 ≤ v) :
    SoundItems w start (n + 1) index object itemKey
      ↔ SoundItems w start n next object' itemKey' := by
  refine ⟨SoundItems.tail hrounds hparse, ?_⟩
  rintro ⟨hr, hl, hf⟩
  refine ⟨?_, ?_, hparse ▸ hf⟩
  · rw [hrounds]
    intro r h
    rcases List.mem_cons.mp h with rfl | h
    · exact hreads
    · exact hr r h
  · rw [hrounds]
    intro r h
    rcases List.mem_cons.mp h with rfl | h
    · exact hlens
    · exact hl r h

/-- An index in front of the buffer is read from, or returned. -/
theorem not_soundItems_back (h0 : 0 ≤ start) (hback : next < -1) :
    ¬SoundItems w start n next object itemKey := by
  intro h
  cases n with
  | zero =>
    rcases h.forward with hexit | ⟨acts, next', hret, hnext⟩
    · cases hexit
    · cases hret
      omega
  | succ n =>
    have hread := h.reads (n + 1, next) List.mem_cons_self next (Or.inl rfl)
    have := hread.1
    omega

theorem not_forward_crash : ¬Res.Forward w start .crash := by
  rintro (hexit | ⟨acts, next, hret, -⟩)
  · cases hexit
  · cases hret

variable {t : Bytes}

/-- The index behind an item whose header is complete. -/
def itemNext (index : Int) (t : Bytes) : Int :=
  int32 (index + 1 + (field t).length + fieldVal t + 4)

theorem itemLen_header (hat : w.At index (Byte.dollar :: t)) (hcr : Byte.cr ∈ t) :
    itemLen w index = some (fieldVal t) := by
  rw [itemLen, if_pos hat.get, lengthField_eq hat.tail, if_pos hcr]
  rfl

/-- The item loop at a complete header. -/
theorem parseItems_header (hat : w.At index (Byte.dollar :: t)) (hcr : Byte.cr ∈ t) :
    parseItems w start (n + 1) index object itemKey
      = if itemNext index t > w.len ∨ (itemNext index t = w.len ∧ n + 1 > 1) then
          incomplete w start
        else if fieldVal t > 0 then
          let item := cstr (w.slice (index + 1 + (field t).length + 2) (fieldVal t).toNat)
          if (n + 1) % 2 = 0 then
            parseItems w start n (itemNext index t) object (.str item)
          else match itemKey with
            | .str key => parseItems w start n (itemNext index t) (object ++ [(key, item)]) .freed
            | _ => .crash
        else parseItems w start n (itemNext index t) object itemKey := by
  have hsum := hat.2.1
  have hlt := length_field_lt hcr
  rw [List.length_cons] at hsum
  rw [parseItems, hat.get, if_neg (by simp), if_neg (by omega), lengthField_eq hat.tail,
    if_pos hcr]
  rfl

/-- The rounds of the item loop at a complete header. -/
theorem itemRounds_header (hat : w.At index (Byte.dollar :: t)) (hcr : Byte.cr ∈ t) :
    itemRounds w (n + 1) index itemKey
      = (n + 1, index) ::
        if itemNext index t > w.len ∨ (itemNext index t = w.len ∧ n + 1 > 1) then []
        else if fieldVal t > 0 then
          let item := cstr (w.slice (index + 1 + (field t).length + 2) (fieldVal t).toNat)
          if (n + 1) % 2 = 0 then itemRounds w n (itemNext index t) (.str item)
          else match itemKey with
            | .str _ => itemRounds w n (itemNext index t) .freed
            | _ => []
        else itemRounds w n (itemNext index t) itemKey := by
  have hsum := hat.2.1
  have hlt := length_field_lt hcr
  rw [List.length_cons] at hsum
  rw [itemRounds, hat.get, if_neg (by simp), if_neg (by omega), lengthField_eq hat.tail,
    if_pos hcr]
  rfl

/-- What a round with a complete header reads. -/
theorem itemReads_header (hat : w.At index (Byte.dollar :: t)) (hcr : Byte.cr ∈ t) (i : Int) :
    ItemReads w start (n + 1) index i
      ↔ i = index ∨ Reads w Byte.cr (index + 1) w.len i
        ∨ if itemNext index t > w.len ∨ (itemNext index t = w.len ∧ n + 1 > 1) then
            Saves w start i
          else fieldVal t > 0 ∧ Copies w (index + 1 + (field t).length + 2) (fieldVal t) i := by
  have hsum := hat.2.1
  have hlt := length_field_lt hcr
  rw [List.length_cons] at hsum
  rw [ItemReads, hat.get, if_neg (by simp), if_neg (by omega), lengthField_eq hat.tail,
    if_pos hcr]
  rfl

/-- What is asked of an item behind its dollar sign. -/
theorem itemsFit_dollar {key : Bool} (ht : t ≠ []) :
    ItemsFit (n + 1) key index (Byte.dollar :: t)
      ↔ Byte.cr ∈ t ∧ 0 ≤ fieldVal t ∧ index + (field t).length + fieldVal t + 5 < 2 ^ 31
        ∧ ((field t).length + (fieldVal t).toNat + 5 < t.length + 1
            ∨ ((field t).length + (fieldVal t).toNat + 5 = t.length + 1 ∧ n = 0) →
          (0 < fieldVal t → (n + 1) % 2 = 0 ∨ key = true)
            ∧ ItemsFit n (if 0 < fieldVal t then (n + 1) % 2 = 0 else key)
              (index + ((field t).length + (fieldVal t).toNat + 5 : Nat))
              ((Byte.dollar :: t).drop ((field t).length + (fieldVal t).toNat + 5))) := by
  constructor
  · exact fun h => h rfl ht
  · exact fun h _ _ => h

/-- The loop may go on: the outcomes of a complete item. -/
theorem parseItems_outcome (hat : w.At index (Byte.dollar :: t)) (hcr : Byte.cr ∈ t)
    (hgo : ¬(itemNext index t > w.len ∨ (itemNext index t = w.len ∧ n + 1 > 1))) :
    (0 < fieldVal t ∧ ¬((n + 1) % 2 = 0 ∨ hasKey itemKey = true)
        ∧ parseItems w start (n + 1) index object itemKey = .crash)
      ∨ ((0 < fieldVal t → (n + 1) % 2 = 0 ∨ hasKey itemKey = true) ∧ ∃ object' itemKey',
        hasKey itemKey' = (if 0 < fieldVal t then decide ((n + 1) % 2 = 0) else hasKey itemKey)
        ∧ parseItems w start (n + 1) index object itemKey
          = parseItems w start n (itemNext index t) object' itemKey'
        ∧ itemRounds w (n + 1) index itemKey
          = (n + 1, index) :: itemRounds w n (itemNext index t) itemKey') := by
  rw [parseItems_header hat hcr, itemRounds_header hat hcr, if_neg hgo, if_neg hgo]
  rcases Int.lt_or_le 0 (fieldVal t) with hpos | hzero
  · rw [if_pos hpos, if_pos hpos, if_pos hpos]
    -- a field becomes the key
    rcases Decidable.em ((n + 1) % 2 = 0) with heven | hodd
    · right
      exact ⟨fun _ => Or.inl heven, _, _, by simp [hasKey, heven], if_pos heven,
        congrArg _ (if_pos heven)⟩
    · -- a value needs a key that has not been used
      cases itemKey with
      | str key =>
        right
        exact ⟨fun _ => Or.inr rfl, _, _, by simp [hasKey, hodd], if_neg hodd,
          congrArg _ (if_neg hodd)⟩
      | uninit => exact Or.inl ⟨hpos, by simp [hasKey, hodd], if_neg hodd⟩
      | freed => exact Or.inl ⟨hpos, by simp [hasKey, hodd], if_neg hodd⟩
  · right
    rw [if_neg (by omega), if_neg (by omega), if_neg (by omega)]
    exact ⟨fun h => by omega, _, _, rfl, rfl, rfl⟩

/-! The rounds that end the loop, each with what it reads. -/

/-- The buffer ends behind the `'$'`: the array is saved. -/
theorem soundItems_end (hlen : w.len < 2 ^ 30) {p : Bytes} (hstart : w.At start p)
    (hat : w.At index [Byte.dollar]) : SoundItems w start (n + 1) index object itemKey := by
  have hsum := hat.2.1
  rw [List.length_singleton] at hsum
  have hend : index + 1 ≥ w.len := by omega
  refine (soundItems_stop ?_ ?_ ?_).mpr ?_
  · rw [itemRounds, hat.get, if_neg (by simp), if_pos hend]
  · intro i hi
    rw [ItemReads, hat.get, if_neg (by simp), if_pos hend] at hi
    rcases hi with rfl | hi
    · exact ⟨hat.1, hat.lt_len⟩
    · exact saves_inside hstart hlen hi
  · intro v hv
    rw [itemLen, if_pos hat.get, lengthField_eq hat.tail, if_neg List.not_mem_nil] at hv
    cases hv
  · rw [parseItems, hat.get, if_neg (by simp), if_pos hend]
    exact forward_incomplete hlen hstart

/-- The item does not begin with a `'$'`: `exit(1)`. -/
theorem soundItems_exit (hat : w.At index s) (hne : s ≠ []) (hafter : start < index)
    (h0 : 0 ≤ start) (hother : w.get index ≠ Byte.dollar) :
    SoundItems w start (n + 1) index object itemKey := by
  have hpos := List.length_pos_iff.mpr hne
  have hsum := hat.2.1
  have hself : w.Inside index := ⟨hat.1, by omega⟩
  refine (soundItems_stop ?_ ?_ ?_).mpr ?_
  · rw [itemRounds, if_pos hother]
  · intro i hi
    rw [ItemReads, if_pos hother] at hi
    -- the buffer is printed up to its end, or from the start of the array on
    rcases hi with rfl | ⟨hfirst, hlast⟩ | ⟨hfirst, hlast⟩
    · exact hself
    · exact ⟨by omega, by omega⟩
    · exact ⟨by omega, by omega⟩
  · intro v hv
    rw [itemLen, if_neg hother] at hv
    cases hv
  · rw [parseItems, if_pos hother]
    exact Or.inl rfl

/-- The search for the `'\r'` leaves the buffer. -/
theorem not_soundItems_open (hat : w.At index (Byte.dollar :: t)) (ht : t ≠ [])
    (hcr : Byte.cr ∉ t) : ¬SoundItems w start (n + 1) index object itemKey := by
  intro h
  have hsum := hat.2.1
  rw [List.length_cons] at hsum
  have hin : ¬ index + 1 ≥ w.len := by
    have := List.length_pos_iff.mpr ht
    omega
  refine ((@reads_inside_iff w Byte.cr (index + 1) w.len t hat.tail).mp fun i hi => ?_).elim
    (Int.lt_irrefl _) hcr
  apply h.reads (n + 1, index) List.mem_cons_self i
  rw [ItemReads, hat.get, if_neg (by simp), if_neg hin]
  exact Or.inr (Or.inl hi)

/-- The index behind the item overflows. -/
theorem not_soundItems_over (hlen : w.len < 2 ^ 30) (h0 : 0 ≤ start)
    (hat : w.At index (Byte.dollar :: t)) (hcr : Byte.cr ∈ t) (hpos : 0 ≤ fieldVal t)
    (hover : 2 ^ 31 ≤ index + (field t).length + fieldVal t + 5) :
    ¬SoundItems w start (n + 1) index object itemKey := by
  intro h
  have hnn := hat.1
  have hsum := hat.2.1
  rw [List.length_cons] at hsum
  have hlt := length_field_lt hcr
  have hval : fieldVal t < 2 ^ 31 := int32_lt _
  have hback : itemNext index t < -1 := by
    unfold itemNext int32
    omega
  rcases @parseItems_outcome w start n index object itemKey t hat hcr (by omega)
    with ⟨-, -, hcrash⟩ | ⟨-, object', itemKey', -, hparse, hrounds⟩
  · exact not_forward_crash (hcrash ▸ h.forward)
  · exact not_soundItems_back h0 hback (h.tail hrounds hparse)

/-- What a round with a complete header reads is in the buffer, when its length is not negative
and the index behind it does not overflow. -/
theorem itemReads_inside (hlen : w.len < 2 ^ 30) {p : Bytes} (hstart : w.At start p)
    (hat : w.At index (Byte.dollar :: t)) (hcr : Byte.cr ∈ t) (hpos : 0 ≤ fieldVal t)
    (hfit : index + (field t).length + fieldVal t + 5 < 2 ^ 31) :
    ∀ i, ItemReads w start (n + 1) index i → w.Inside i := by
  intro i hi
  have hnn := hat.1
  have hsum := hat.2.1
  rw [List.length_cons] at hsum
  have hlt := length_field_lt hcr
  have hnext : itemNext index t = index + 1 + (field t).length + fieldVal t + 4 :=
    int32_of_bounds (by omega) (by omega)
  rw [itemReads_header hat hcr] at hi
  rcases hi with rfl | hi | hi
  · exact ⟨hat.1, hat.lt_len⟩
  · exact (@reads_inside_iff w Byte.cr (index + 1) w.len t hat.tail).mpr (Or.inr hcr) i hi
  · split at hi
    · exact saves_inside hstart hlen hi
    · -- the item is copied only when it is in the buffer
      refine copies_inside (at_value hat.tail (by omega)) hpos ?_ hi.2
      rw [List.length_drop]
      omega

end

/-- **The item loop is sound exactly when the items fit.** The induction is on the number of items
to come, as the loop counts them. -/
theorem soundItems_iff (hlen : w.len < 2 ^ 30) {p : Bytes} (hstart : w.At start p) {n : Nat}
    {index : Int} {s : Bytes} {object : JsonSets} {itemKey : CPtr} (hafter : start < index)
    (hat : w.At index s) (hmore : s ≠ [] ∨ n = 0) :
    SoundItems w start n index object itemKey ↔ ItemsFit n (hasKey itemKey) index s := by
  -- induction on the number of items that are left, one header and value each
  have h0 := hstart.1
  induction n generalizing index s object itemKey with
  | zero =>
    refine iff_of_true ⟨?_, ?_, ?_⟩ trivial
    · simp [itemRounds]
    · simp [itemRounds]
    · exact Or.inr ⟨_, _, rfl, Or.inr ⟨hafter, hat.le_len⟩⟩
  | succ n ih =>
    obtain ⟨b, t, rfl⟩ := List.exists_cons_of_ne_nil (hmore.resolve_right (Nat.succ_ne_zero n))
    have hnn := hat.1
    have hsum := hat.2.1
    rw [List.length_cons] at hsum
    rcases Decidable.em (b = Byte.dollar) with rfl | hb
    swap
    · -- no `$`: the process ends before anything else is read
      refine iff_of_true (soundItems_exit hat (List.cons_ne_nil b t) hafter h0 ?_)
        fun h => absurd (Option.some.inj h) hb
      rwa [hat.get]
    rcases Decidable.em (t = []) with rfl | ht
    · -- the `$` is the last byte
      exact iff_of_true (soundItems_end hlen hstart hat) fun _ h => absurd rfl h
    rw [itemsFit_dollar ht]
    rcases Decidable.em (Byte.cr ∈ t) with hcr | hcr
    swap
    · -- no carriage return behind the `$`: the search runs out of the buffer
      exact iff_of_false (not_soundItems_open hat ht hcr) fun h => hcr h.1
    have hlens := itemLen_header hat hcr
    have hlt := length_field_lt hcr
    rcases Int.lt_or_le (fieldVal t) 0 with hneg | hpos
    · -- a negative length is copied without a bound
      refine iff_of_false (fun h => ?_) (fun h => ?_)
      · have := h.lengths (n + 1, index) List.mem_cons_self _ hlens
        omega
      · have := h.2.1
        omega
    rcases Int.lt_or_le (index + (field t).length + fieldVal t + 5) (2 ^ 31) with hfit | hover
    swap
    · -- the index behind the value has overflowed
      exact iff_of_false (not_soundItems_over hlen h0 hat hcr hpos hover) fun h => by omega
    have hnext : itemNext index t = index + ((field t).length + (fieldVal t).toNat + 5 : Nat) := by
      rw [itemNext, int32_of_bounds (by omega) (by omega)]
      omega
    have hlens' : ∀ v, itemLen w index = some v → 0 ≤ v := fun v hv => by
      obtain rfl := Option.some.inj (hlens.symm.trans hv)
      exact hpos
    have hreads : ∀ i, ItemReads w start (n + 1) index i → w.Inside i :=
      itemReads_inside hlen hstart hat hcr hpos hfit
    rcases Decidable.em (itemNext index t > w.len
      ∨ (itemNext index t = w.len ∧ n + 1 > 1)) with hstop | hgo
    · -- the array is not complete
      refine iff_of_true ((soundItems_stop ?_ hreads hlens').mpr ?_)
        ⟨hcr, hpos, hfit, fun hk => by omega⟩
      · rw [itemRounds_header hat hcr, if_pos hstop]
      · rw [parseItems_header hat hcr, if_pos hstop]
        exact forward_incomplete hlen hstart
    have hk : (field t).length + (fieldVal t).toNat + 5 < t.length + 1
        ∨ ((field t).length + (fieldVal t).toNat + 5 = t.length + 1 ∧ n = 0) := by
      omega
    rcases @parseItems_outcome w start n index object itemKey t hat hcr hgo with
      ⟨hv, hno, hcrash⟩ | ⟨hyes, object', itemKey', hkey, hparse, hrounds⟩
    · -- a value without a key
      refine iff_of_false (fun h => ?_) (fun h => hno ((h.2.2.2 hk).1 hv))
      exact not_forward_crash (hcrash ▸ h.forward)
    · -- the loop goes on behind the item
      have hat' : w.At (itemNext index t)
          ((Byte.dollar :: t).drop ((field t).length + (fieldVal t).toNat + 5)) := by
        rw [hnext]
        apply hat.drop
        rw [List.length_cons]
        omega
      have hmore' : (Byte.dollar :: t).drop ((field t).length + (fieldVal t).toNat + 5) ≠ []
          ∨ n = 0 := by
        rcases hk with hlt' | ⟨-, hzero⟩
        · left
          apply List.ne_nil_of_length_pos
          rw [List.length_drop, List.length_cons]
          omega
        · exact Or.inr hzero
      have hrest := @ih (itemNext index t) _ object' itemKey' (by omega) hat' hmore'
      refine ((soundItems_step hrounds hparse hreads hlens').trans hrest).trans ?_
      rw [hkey, hnext]
      constructor
      · exact fun h => ⟨hcr, hpos, hfit, fun _ => ⟨hyes, h⟩⟩
      · exact fun h => (h.2.2.2 hk).2

/-- Items that fit are consumed, or the array is saved, or the process ends. -/
theorem parseItems_takes (hlen : w.len < 2 ^ 30) {p : Bytes} (hstart : w.At start p) {n : Nat}
    {index : Int} {s : Bytes} {object : JsonSets} {itemKey : CPtr} (hat : w.At index s)
    (hmore : s ≠ [] ∨ n = 0) (hfits : ItemsFit n (hasKey itemKey) index s) :
    match itemsTake n s with
    | some k => ∃ sets, parseItems w start n index object itemKey
        = .ret [.popHandle (.object sets)] (index + k)
    | none => parseItems w start n index object itemKey = .exit
        ∨ ∃ acts, parseItems w start n index object itemKey = .ret acts (-1) := by
  induction n generalizing index s object itemKey with
  | zero =>
    refine ⟨object, ?_⟩
    rw [parseItems, Int.natCast_zero, Int.add_zero]
  | succ n ih =>
    obtain ⟨b, t, rfl⟩ := List.exists_cons_of_ne_nil (hmore.resolve_right (Nat.succ_ne_zero n))
    have hnn := hat.1
    have hsum := hat.2.1
    rw [List.length_cons] at hsum
    rw [itemsTake, List.head?_cons, List.tail_cons]
    rcases Decidable.em (b = Byte.dollar) with rfl | hb
    · rcases Decidable.em (t = []) with rfl | ht
      · rw [List.length_nil] at hsum
        -- the `$` is the last byte, and the reply is saved
        rw [if_neg (by simp), parseItems, hat.get, if_neg (by simp), if_pos (by omega)]
        exact Or.inr (incomplete_eq hlen hstart)
      · obtain ⟨hcr, hpos, hfit, hrest⟩ := (itemsFit_dollar ht).mp hfits
        have hlt := length_field_lt hcr
        have hnext : itemNext index t
            = index + ((field t).length + (fieldVal t).toNat + 5 : Nat) := by
          rw [itemNext, int32_of_bounds (by omega) (by omega)]
          omega
        rw [if_pos ⟨rfl, hcr⟩, List.length_cons]
        simp only
        rcases Decidable.em (itemNext index t > w.len
          ∨ (itemNext index t = w.len ∧ n + 1 > 1)) with hstop | hgo
        · -- the value is not complete
          rw [if_neg (by omega), parseItems_header hat hcr, if_pos hstop]
          exact Or.inr (incomplete_eq hlen hstart)
        · have hk : (field t).length + (fieldVal t).toNat + 5 < t.length + 1
              ∨ ((field t).length + (fieldVal t).toNat + 5 = t.length + 1 ∧ n = 0) := by
            omega
          -- the value is complete, and has a key if it needs one
          obtain ⟨hyes, hitems⟩ := hrest hk
          rcases @parseItems_outcome w start n index object itemKey t hat hcr hgo
            with ⟨hv, hno, -⟩ | ⟨-, object', itemKey', hkey, hparse, -⟩
          · exact absurd (hyes hv) hno
          · rw [← hkey] at hitems
            rw [hparse, if_pos hk, hnext]
            have hat' := hat.drop (k := (field t).length + (fieldVal t).toNat + 5) (by
              rw [List.length_cons]
              omega)
            have hmore' : (Byte.dollar :: t).drop ((field t).length + (fieldVal t).toNat + 5)
                ≠ [] ∨ n = 0 := by
              rcases hk with hlt' | ⟨-, hzero⟩
              · left
                apply List.ne_nil_of_length_pos
                rw [List.length_drop, List.length_cons]
                omega
              · exact Or.inr hzero
            -- the rest of the items, from behind this one
            have hih := @ih _ _ object' itemKey' hat' hmore' hitems
            generalize itemsTake n ((Byte.dollar :: t).drop
              ((field t).length + (fieldVal t).toNat + 5)) = taken at hih
            cases taken with
            | none => exact hih
            | some k =>
              obtain ⟨sets, hret⟩ := hih
              refine ⟨sets, hret.trans ?_⟩
              congr 1
              show _ = index + ((field t).length + (fieldVal t).toNat + 5 + k : Nat)
              omega
    · -- no `$`: the process ends
      rw [if_neg (fun h => hb (Option.some.inj h.1)), parseItems,
        if_pos (by rw [hat.get]; exact hb)]
      exact Or.inl rfl

/-! ## Replies -/

/-- What a reply does to the queue: it needs a key, it takes one if there is one, or
neither. -/
inductive Use where
  | key
  | line
  | nothing

/-- The keys that are left of `c`; `none` where the process ends for want of one. -/
def Use.spend : Use → Nat → Option Nat
  | .key, 0 => none
  | .key, c + 1 => some c
  | .line, c => some (c - 1)
  | .nothing, c => some c

/-- The text in front of the first `'\n'`. -/
def lineOf (s : Bytes) : Bytes := s.takeWhile (· ≠ Byte.lf)

/-- The bytes that the reply at the head of a text takes when it is all there, and its use of
the queue. -/
def replyTakes : Bytes → Option (Nat × Use)
  | [] => none
  | b :: t =>
    if b = Byte.star then
      if Byte.cr ∈ t ∧ ((field t).length + 2 < t.length
          ∨ ((field t).length + 2 = t.length ∧ fieldVal t ≤ 0)) then
        (itemsTake (fieldVal t).toNat (t.drop ((field t).length + 2))).map
          fun k => ((field t).length + 3 + k, .key)
      else none
    else if b = Byte.dollar then
      if Byte.cr ∈ t ∧ (field t).length + (fieldVal t).toNat + 4 ≤ t.length then
        some ((field t).length + (fieldVal t).toNat + 5, .key)
      else none
    else if b = Byte.minus ∨ b = Byte.plus ∨ b = Byte.colon then
      if Byte.lf ∈ t then
        some ((lineOf t).length + 2, if 4 < (lineOf t).length then .line else .nothing)
      else none
    else none

/-- The reply at `index`: the items of an array fit; the header of a bulk string has its
`'\r'` in the buffer, a length that is not negative and an end that fits an `int`; behind a
line there is another byte, or a zero ends its copy. -/
def ReplyFits (index : Int) : Bytes → Prop
  | [] => True
  | b :: t =>
    if b = Byte.star then
      Byte.cr ∈ t → (field t).length + 2 < t.length →
        ItemsFit (fieldVal t).toNat false (index + (field t).length + 3)
          (t.drop ((field t).length + 2))
    else if b = Byte.dollar then
      Byte.cr ∈ t ∧ 0 ≤ fieldVal t ∧ index + (field t).length + fieldVal t + 5 < 2 ^ 31
    else if b = Byte.minus ∨ b = Byte.plus ∨ b = Byte.colon then
      Byte.lf ∈ t → (lineOf t).length + 2 ≤ t.length ∨ Byte.nul ∈ t
    else True

instance (index : Int) : ∀ s : Bytes, Decidable (ReplyFits index s)
  | [] => .isTrue trivial
  | b :: _ => inferInstanceAs (Decidable (if b = Byte.star then _ → _ → ItemsFit _ _ _ _
    else if b = Byte.dollar then _ ∧ _ ∧ _
    else if b = Byte.minus ∨ b = Byte.plus ∨ b = Byte.colon then _ → _ ∨ _ else True))

end Parser

end Iceberg
