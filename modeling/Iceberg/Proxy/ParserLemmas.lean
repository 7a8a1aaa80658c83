import Iceberg.Proxy.Parser
import Iceberg.Spec.Resp

/-!
# What the reply parser does with well-formed answers

For a buffer that holds a complete answer, the sub-parser consumes exactly the answer and
makes the calls of `replyActs`; for a buffer that ends inside one it saves what there is,
from the answer's first byte. `parseLoop_stream` puts the two together for a buffer of
complete answers followed by a broken one.

The complete case is proved for arrays of arbitrary strings: what the pointers of
`parseArray` make of the items is the fold `storeItems`, whatever the items are.
-/

namespace Iceberg

open Resp Decimal

/-! ## Proper beginnings -/

/-- A beginning of `s ++ t` ends inside `s`, or it is `s` and a beginning of `t`. -/
theorem prefix_append_cases {α : Type} {p s t : List α} (h : p <+: s ++ t) :
    (p <+: s ∧ p.length < s.length) ∨ ∃ q, p = s ++ q ∧ q <+: t := by
  rcases Nat.lt_or_ge p.length s.length with hlt | hge
  · exact Or.inl ⟨List.prefix_of_prefix_length_le h (List.prefix_append s t)
      (Nat.le_of_lt hlt), hlt⟩
  · obtain ⟨q, rfl⟩ := List.prefix_of_prefix_length_le (List.prefix_append s t) h hge
    exact Or.inr ⟨q, rfl, (List.prefix_append_right_inj s).mp h⟩

namespace Parser

/-! ## Items -/

/-- What the item loop of `parseArray` makes of complete items: the calls on the object,
or `none` where it uses `item_key` without a string in it. -/
def storeItems : List Bytes → JsonSets → CPtr → Option JsonSets
  | [], object, _ => some object
  | item :: items, object, itemKey =>
    if 0 < item.length then
      if (items.length + 1) % 2 = 0 then storeItems items object (.str (cstr item))
      else match itemKey with
        | .str key => storeItems items (object ++ [(key, cstr item)]) .freed
        | _ => none
    else storeItems items object itemKey

/-- One round of the item loop. -/
theorem storeItems_cons (item : Bytes) (items : List Bytes) (object : JsonSets)
    (itemKey : CPtr) :
    storeItems (item :: items) object itemKey
      = if 0 < item.length then
          if (items.length + 1) % 2 = 0 then storeItems items object (.str (cstr item))
          else match itemKey with
            | .str key => storeItems items (object ++ [(key, cstr item)]) .freed
            | _ => none
        else storeItems items object itemKey := rfl

/-- The result of `parseArray` once all items are in the buffer. -/
def stored (object : Option JsonSets) (index : Int) : Res :=
  match object with
  | some sets => .ret [.popHandle (.object sets)] index
  | none => .crash

/-- The header of a bulk string, as the item loop and `parseBulkString` read it. -/
theorem lengthField_bulk {w : WData} {start : Int} {item t : Bytes}
    (hat : w.At start (bulk item ++ t)) (hlen : item.length < 2 ^ 31) :
    lengthField w (start + 1)
      = some ((item.length : Int), start + 1 + (decimal item.length).length) := by
  have hbody : w.At (start + 1)
      (decimal item.length ++ Byte.cr :: (Byte.lf :: (item ++ crlf ++ t))) := by
    simpa [bulk] using hat.tail
  rw [lengthField_at hbody (notMem_decimal _ (by decide)), digitsVal_decimal hlen]

/-- The item bytes behind the header. -/
theorem slice_bulk {w : WData} {start : Int} {item t : Bytes}
    (hat : w.At start (bulk item ++ t)) :
    w.slice (start + 1 + (decimal item.length).length + 2) item.length = item := by
  have hbody : w.At start
      ((Byte.dollar :: (decimal item.length ++ crlf)) ++ (item ++ (crlf ++ t))) := by
    simpa [bulk] using hat
  have hitem := hbody.append
  simp only [List.length_cons, List.length_append, List.length_nil] at hitem
  convert WData.At.slice hitem using 2
  omega

@[simp] theorem length_bulk (item : Bytes) :
    (bulk item).length = (decimal item.length).length + item.length + 5 := by
  simp only [bulk, List.length_cons, List.length_append, List.length_nil]
  omega

/-- **One item.** A complete item is stored, and the loop goes on right behind it; when
items are still to come and the buffer ends there, the answer is incomplete. -/
theorem parseItems_item {w : WData} {start index : Int} {item t : Bytes} {left : Nat}
    {object : JsonSets} {itemKey : CPtr} (hat : w.At index (bulk item ++ t))
    (hw : w.len < 2 ^ 31) :
    parseItems w start (left + 1) index object itemKey
      = if t = [] ∧ 0 < left then incomplete w start
        else if 0 < item.length then
          if (left + 1) % 2 = 0 then
            parseItems w start left (index + (bulk item).length) object (.str (cstr item))
          else match itemKey with
            | .str key => parseItems w start left (index + (bulk item).length)
                (object ++ [(key, cstr item)]) .freed
            | _ => .crash
        else parseItems w start left (index + (bulk item).length) object itemKey := by
  have hlen := hat.2.1
  have hnn := hat.1
  simp only [List.length_append, length_bulk] at hlen
  have hget : w.get index = Byte.dollar :=
    WData.At.get (s := decimal item.length ++ crlf ++ item ++ crlf ++ t)
      (by simpa [bulk] using hat)
  -- the index behind the item, which does not overflow
  have hindex : int32 (index + 1 + (decimal item.length).length + item.length + 4)
      = index + (bulk item).length := by
    rw [length_bulk, int32_of_bounds (by omega) (by omega)]
    omega
  -- the buffer ends here with items missing exactly if nothing follows
  have hend : (index + (bulk item).length > w.len
      ∨ (index + (bulk item).length = w.len ∧ left + 1 > 1)) ↔ (t = [] ∧ 0 < left) := by
    rw [length_bulk, ← List.length_eq_zero_iff]
    omega
  rw [parseItems, hget, if_neg (by simp), if_neg (by omega), lengthField_bulk hat (by omega)]
  simp only [hindex]
  by_cases hstop : t = [] ∧ 0 < left
  · rw [if_pos (hend.mpr hstop), if_pos hstop]
  rw [if_neg (fun h => hstop (hend.mp h)), if_neg hstop]
  by_cases hpos : 0 < item.length
  · -- the value that is copied is the item
    rewrite [if_pos (by omega), if_pos hpos, Int.toNat_natCast, slice_bulk hat]
    rfl
  · rw [if_neg (by omega), if_neg hpos]

/-- **Items, complete.** The loop consumes the items and nothing else. -/
theorem parseItems_complete {w : WData} {start : Int} (items : List Bytes) {t : Bytes}
    {index : Int} {object : JsonSets} {itemKey : CPtr}
    (hat : w.At index (items.flatMap bulk ++ t)) (hw : w.len < 2 ^ 31) :
    parseItems w start items.length index object itemKey
      = stored (storeItems items object itemKey) (index + (items.flatMap bulk).length) := by
  induction items generalizing index object itemKey with
  | nil => simp [parseItems, storeItems, stored]
  | cons item items ih =>
    rw [List.flatMap_cons, List.append_assoc] at hat
    have hnext : w.At (index + (bulk item).length) (items.flatMap bulk ++ t) := hat.append
    have htotal : index + ((item :: items).flatMap bulk).length
        = index + (bulk item).length + (items.flatMap bulk).length := by
      simp only [List.flatMap_cons, List.length_append, Int.natCast_add]
      omega
    have hmore : ¬(items.flatMap bulk ++ t = [] ∧ 0 < items.length) := by
      rintro ⟨hnil, hpos⟩
      obtain ⟨item', items', rfl⟩ := List.exists_cons_of_length_pos hpos
      simp [bulk] at hnil
    rw [List.length_cons, parseItems_item hat hw, if_neg hmore, htotal, storeItems_cons]
    by_cases hpos : 0 < item.length
    · rw [if_pos hpos, if_pos hpos]
      by_cases heven : (items.length + 1) % 2 = 0
      · rw [if_pos heven, if_pos heven]
        exact ih hnext
      · rw [if_neg heven, if_neg heven]
        cases itemKey with
        | str key => exact ih hnext
        | uninit => rfl
        | freed => rfl
    · rw [if_neg hpos, if_neg hpos]
      exact ih hnext

/-- The item loop on a buffer that ends inside the first item. -/
theorem parseItems_broken_item {w : WData} {start index : Int} {item p : Bytes} {left : Nat}
    {object : JsonSets} {itemKey : CPtr} (hat : w.At index p) (hp : p <+: bulk item)
    (hne : p ≠ []) (hlt : p.length < (bulk item).length) (hitem : item.length < 2 ^ 29)
    (hw : w.len < 2 ^ 30) :
    parseItems w start (left + 1) index object itemKey = incomplete w start := by
  obtain ⟨b, p, rfl⟩ := List.exists_cons_of_ne_nil hne
  obtain ⟨rfl, hbody⟩ : b = Byte.dollar ∧ p <+: decimal item.length ++ (crlf ++ item ++ crlf) := by
    simpa [bulk, List.cons_prefix_cons] using hp
  have hlen := hat.2.1
  have hnn := hat.1
  have hdigits : Byte.cr ∉ decimal item.length := notMem_decimal _ (by decide)
  rw [parseItems, hat.get, if_neg (by simp)]
  simp only [List.length_cons, length_bulk] at hlen hlt
  by_cases hend : index + 1 ≥ w.len
  · rw [if_pos hend]
  rw [if_neg hend]
  rcases prefix_append_cases hbody with ⟨hdec, -⟩ | ⟨q, rfl, hq⟩
  · -- the buffer ends in the length digits
    rw [lengthField_eq_none hat.tail fun h => hdigits (hdec.subset h)]
  cases q with
  | nil =>
    -- right behind them
    rw [lengthField_eq_none hat.tail (by simpa using hdigits)]
  | cons c q =>
    -- the header is there, the bytes it announces are not
    obtain rfl : c = Byte.cr := by
      simpa [List.cons_prefix_cons] using (List.cons_prefix_cons.mp hq).1
    simp only [List.length_append, List.length_cons] at hlen hlt
    rw [lengthField_at hat.tail hdigits, digitsVal_decimal (by omega)]
    have hindex : int32 (index + 1 + (decimal item.length).length + item.length + 4)
        = index + 1 + (decimal item.length).length + item.length + 4 :=
      int32_of_bounds (by omega) (by omega)
    simp only [hindex]
    rw [if_pos (Or.inl (by omega))]

/-- **Items, broken.** A buffer that ends inside the items of an array is incomplete. -/
theorem parseItems_broken {w : WData} {start : Int} (items : List Bytes) {p : Bytes}
    {index : Int} {object : JsonSets} {itemKey : CPtr} (hat : w.At index p)
    (hp : p <+: items.flatMap bulk) (hne : p ≠ [])
    (hlt : p.length < (items.flatMap bulk).length)
    (hsize : ∀ item ∈ items, item.length < 2 ^ 29) (hw : w.len < 2 ^ 30)
    (hstore : storeItems items object itemKey ≠ none) :
    parseItems w start items.length index object itemKey = incomplete w start := by
  induction items generalizing p index object itemKey with
  | nil => exact absurd (List.prefix_nil.mp hp) hne
  | cons item items ih =>
    have hitem : item.length < 2 ^ 29 := hsize item List.mem_cons_self
    rw [List.flatMap_cons] at hp hlt
    rw [List.length_cons]
    rcases prefix_append_cases hp with ⟨hin, hinlt⟩ | ⟨q, rfl, hq⟩
    · -- the cut is inside this item
      exact parseItems_broken_item hat hin hne hinlt hitem hw
    · -- the cut is behind it, in one of the others
      have hqlt : q.length < (items.flatMap bulk).length := by
        simp only [List.length_append] at hlt
        omega
      have hleft : 0 < items.length := by
        cases items with
        | nil => simp at hqlt
        | cons _ _ => simp
      rw [parseItems_item hat (by omega)]
      by_cases hstop : q = [] ∧ 0 < items.length
      · rw [if_pos hstop]
      have hqne : q ≠ [] := fun h => hstop ⟨h, hleft⟩
      have hrest : ∀ (object : JsonSets) (itemKey : CPtr),
          storeItems items object itemKey ≠ none →
          parseItems w start items.length (index + (bulk item).length) object itemKey
            = incomplete w start := fun object itemKey hs =>
        ih hat.append hq hqne hqlt (fun i hi => hsize i (List.mem_cons_of_mem _ hi)) hs
      rw [storeItems_cons] at hstore
      rw [if_neg hstop]
      by_cases hpos : 0 < item.length
      · rw [if_pos hpos] at hstore ⊢
        -- a field becomes the key, a value needs one
        by_cases heven : (items.length + 1) % 2 = 0
        · rw [if_pos heven] at hstore ⊢
          exact hrest _ _ hstore
        · rw [if_neg heven] at hstore ⊢
          cases itemKey with
          | str key => exact hrest _ _ hstore
          | uninit => exact absurd rfl hstore
          | freed => exact absurd rfl hstore
      · rw [if_neg hpos] at hstore ⊢
        exact hrest _ _ hstore

/-! ## Arrays -/

/-- The header of an array. -/
theorem lengthField_array {w : WData} {start : Int} {items : List Bytes} {t : Bytes}
    (hat : w.At start (array items ++ t)) (hcount : items.length < 2 ^ 31) :
    lengthField w (start + 1)
        = some ((items.length : Int), start + 1 + (decimal items.length).length)
      ∧ w.At (start + 1 + (decimal items.length).length + 2) (items.flatMap bulk ++ t) := by
  have hbody : w.At (start + 1)
      (decimal items.length ++ Byte.cr :: (Byte.lf :: (items.flatMap bulk ++ t))) := by
    simpa [array] using hat.tail
  refine ⟨?_, ?_⟩
  · rw [lengthField_at hbody (notMem_decimal _ (by decide)), digitsVal_decimal hcount]
  · exact hbody.append.tail.tail.cast (by omega)

/-- No bulk string is empty, so there are no more items than bytes. -/
theorem length_le_flatMap_bulk (items : List Bytes) :
    items.length ≤ (items.flatMap bulk).length := by
  induction items with
  | nil => simp
  | cons item items ih =>
    simp only [List.flatMap_cons, List.length_append, List.length_cons, length_bulk]
    omega

/-- **Arrays, complete.** -/
theorem parseArray_complete {w : WData} {start : Int} {items : List Bytes} {t : Bytes}
    (hat : w.At start (array items ++ t)) (hw : w.len < 2 ^ 31) :
    parseArray w start
      = stored (storeItems items [] .uninit) (start + (array items).length) := by
  have hlen := hat.2.1
  have hnn := hat.1
  have hcount := length_le_flatMap_bulk items
  simp only [array, List.length_append, List.length_cons, List.length_nil] at hlen
  obtain ⟨hfield, hbody⟩ := lengthField_array hat (by omega)
  have hle := hbody.le_len
  have hmore : ¬(start + 1 + (decimal items.length).length + 2 > w.len
      ∨ (start + 1 + (decimal items.length).length + 2 = w.len ∧ (items.length : Int) > 0)) := by
    omega
  rw [parseArray, if_neg (by omega), hfield]
  simp only
  rw [if_neg hmore, Int.toNat_natCast, parseItems_complete items hbody hw]
  congr 1
  simp only [array, List.length_append, List.length_cons, List.length_nil]
  omega

/-- **Arrays, broken.** -/
theorem parseArray_broken {w : WData} {start : Int} {items : List Bytes} {p : Bytes}
    (hat : w.At start p) (hp : p <+: array items) (hne : p ≠ [])
    (hlt : p.length < (array items).length) (hstore : storeItems items [] .uninit ≠ none)
    (hsize : (array items).length < 2 ^ 29) (hw : w.len < 2 ^ 30) :
    parseArray w start = incomplete w start := by
  obtain ⟨b, p, rfl⟩ := List.exists_cons_of_ne_nil hne
  obtain ⟨rfl, hbody⟩ : b = Byte.star
      ∧ p <+: decimal items.length ++ (crlf ++ items.flatMap bulk) := by
    simpa [array, List.cons_prefix_cons] using hp
  have hlen := hat.2.1
  have hnn := hat.1
  have hdigits : Byte.cr ∉ decimal items.length := notMem_decimal _ (by decide)
  have hcount := length_le_flatMap_bulk items
  simp only [array, List.length_append, List.length_cons, List.length_nil] at hlen hlt hsize
  rw [parseArray]
  by_cases hend : start + 1 ≥ w.len
  · rw [if_pos hend]
  rw [if_neg hend]
  -- cut inside the count of the items
  rcases prefix_append_cases hbody with ⟨hdec, -⟩ | ⟨q, rfl, hq⟩
  · rw [lengthField_eq_none hat.tail fun h => hdigits (hdec.subset h)]
  cases q with
  -- cut behind it
  | nil => rw [lengthField_eq_none hat.tail (by simpa using hdigits)]
  | cons c q =>
    obtain ⟨rfl, hlf⟩ : c = Byte.cr ∧ q <+: [Byte.lf] ++ items.flatMap bulk := by
      simpa [List.cons_prefix_cons] using hq
    rw [lengthField_at hat.tail hdigits, digitsVal_decimal (by omega)]
    simp only [List.length_append, List.length_cons] at hlen hlt
    rcases prefix_append_cases hlf with ⟨-, hshort⟩ | ⟨r, rfl, hr⟩
    · -- the header's line feed is missing
      simp only [List.length_cons, List.length_nil] at hshort
      simp only
      rw [if_pos (Or.inl (by omega))]
    · -- cut behind the header: in front of the items, or inside one
      have hitemsAt : w.At (start + 1 + (decimal items.length).length + 2) r := by
        have hlfAt := hat.tail.append.tail
        rw [List.singleton_append] at hlfAt
        exact hlfAt.tail.cast (by omega)
      simp only [List.length_append, List.length_cons, List.length_nil] at hlen hlt
      simp only
      cases r with
      | nil =>
        simp only [List.length_nil] at hlen hlt
        have hpos : 0 < items.length := by
          rw [List.length_pos_iff]
          rintro rfl
          simp at hlt
        rw [if_pos (Or.inr ⟨by omega, by omega⟩)]
      | cons c r =>
        have hin := hitemsAt.lt_len
        rw [if_neg (by omega), Int.toNat_natCast]
        refine parseItems_broken items hitemsAt hr (by simp) (by omega) ?_ hw hstore
        intro item hitem
        have hle : (bulk item).length ≤ (items.flatMap bulk).length := by
          rw [List.flatMap_def]
          exact (List.sublist_flatten_of_mem (List.mem_map_of_mem hitem)).length_le
        simp only [length_bulk] at hle
        omega

/-! ## Lines -/

/-- The search for a line feed ends at the first one. Induction on the bytes in front of it. -/
theorem findLf_at {w : WData} (s : Bytes) {t : Bytes} {index : Int} {fuel : Nat}
    (hat : w.At index (s ++ Byte.lf :: t)) (hlf : Byte.lf ∉ s) (hfuel : s.length < fuel) :
    findLf w fuel index = some (index + s.length) := by
  induction s generalizing index fuel with
  | nil =>
    obtain ⟨fuel, rfl⟩ := Nat.exists_eq_add_of_lt hfuel
    have hget : w.get index = Byte.lf := WData.At.get (by simpa using hat)
    simp [findLf, hget]
  | cons b s ih =>
    obtain ⟨fuel, rfl⟩ : ∃ n, fuel = n + 1 := ⟨fuel - 1, by omega⟩
    rw [List.cons_append] at hat
    have hb : b ≠ Byte.lf := fun h => hlf (by simp [h])
    rw [findLf, hat.get, if_neg hb,
      ih hat.tail (fun h => hlf (List.mem_cons_of_mem _ h)) (by simpa using hfuel)]
    simp only [List.length_cons, Int.natCast_add, Int.natCast_one]
    congr 1
    omega

/-- Without a line feed the search fails. Induction on the rounds. -/
theorem findLf_eq_none {w : WData} {s : Bytes} {index : Int} {fuel : Nat}
    (hat : w.At index s) (hlf : Byte.lf ∉ s) (hfuel : fuel ≤ s.length) :
    findLf w fuel index = none := by
  induction s generalizing index fuel with
  | nil =>
    obtain rfl : fuel = 0 := by simpa using hfuel
    rfl
  | cons b s ih =>
    cases fuel with
    | zero => rfl
    | succ fuel =>
      have hb : b ≠ Byte.lf := fun h => hlf (by simp [h])
      rw [findLf, hat.get, if_neg hb]
      exact ih hat.tail (fun h => hlf (List.mem_cons_of_mem _ h)) (by simpa using hfuel)

/-- **Lines, complete.** A line pops when it is longer than six bytes, whatever its
marker. -/
theorem parseSimple_complete {w : WData} {start : Int} {marker : UInt8} {text t : Bytes}
    (hat : w.At start (marker :: (text ++ crlf) ++ t)) (hlf : Byte.lf ∉ text) :
    parseSimple w start
      = .ret (if 3 < text.length then [.pop] else []) (start + (text.length + 3 : Nat)) := by
  have hlen := hat.2.1
  simp only [List.length_append, List.length_cons, List.length_nil] at hlen
  have hbody : w.At (start + 1) ((text ++ [Byte.cr]) ++ Byte.lf :: t) := by
    simpa using hat.tail
  have hfind : findLf w (w.len - (start + 1)).toNat (start + 1)
      = some (start + 1 + (text.length + 1 : Nat)) := by
    rw [findLf_at (text ++ [Byte.cr]) hbody (by simp [hlf])
      (by simp only [List.length_append, List.length_cons, List.length_nil]; omega)]
    simp
  have hend : w.get (start + 1 + (text.length + 1 : Nat)) = Byte.lf := by
    have := hbody.append.get
    simpa using this
  rw [parseSimple, hfind]
  simp only [hend]
  rw [if_neg (by decide)]
  by_cases hlong : 3 < text.length
  · rw [if_pos (by omega), if_pos hlong]
    congr 1
    omega
  · rw [if_neg (by omega), if_neg hlong]
    congr 1
    omega

/-- **Lines, broken.** -/
theorem parseSimple_broken {w : WData} {start : Int} {marker : UInt8} {text p : Bytes}
    (hat : w.At start p) (hp : p <+: marker :: (text ++ crlf)) (hne : p ≠ [])
    (hlt : p.length < text.length + 3) (hlf : Byte.lf ∉ text) :
    parseSimple w start = incomplete w start := by
  obtain ⟨b, p, rfl⟩ := List.exists_cons_of_ne_nil hne
  have hlen := hat.2.1
  simp only [List.length_cons] at hlen hlt
  have hbody : p <+: (text ++ [Byte.cr]) ++ [Byte.lf] := by
    simpa [List.cons_prefix_cons] using (List.cons_prefix_cons.mp hp).2
  have hno : Byte.lf ∉ p := by
    rcases prefix_append_cases hbody with ⟨hin, -⟩ | ⟨q, rfl, -⟩
    · exact fun h => by simpa [hlf] using hin.subset h
    · -- only a beginning without the line feed is short enough
      have hq : q = [] := by
        simp only [List.length_append, List.length_cons, List.length_nil] at hlt
        exact List.eq_nil_of_length_eq_zero (by omega)
      simpa [hq] using hlf
  rw [parseSimple, findLf_eq_none hat.tail hno (by omega)]

/-! ## Answers -/

/-- The object that `parseArray` builds from a complete hash. -/
def hashObject (pairs : List (Bytes × Bytes)) : JsonSets :=
  (storeItems (Reply.items pairs) [] .uninit).getD []

/-- The calls that a complete answer leads to. -/
def replyActs : Reply → List Act
  | .hash pairs => [.popHandle (.object (hashObject pairs))]
  | .line _ text => if 3 < text.length then [.pop] else []

/-- The answers that the parser gets through: a hash in which no value is stored without a
field, and a line that is one line. -/
def Readable : Reply → Prop
  | .hash pairs => storeItems (Reply.items pairs) [] .uninit ≠ none
  | .line marker text =>
    (marker = Byte.plus ∨ marker = Byte.minus ∨ marker = Byte.colon) ∧ Byte.lf ∉ text

/-- `item_key` behind a field. -/
def keyAfter (field : Bytes) (itemKey : CPtr) : CPtr :=
  if 0 < field.length then .str (cstr field) else itemKey

/-- **One pair.** What the two rounds of the item loop for a field and its value do. -/
theorem storeItems_pair (p : Bytes × Bytes) (pairs : List (Bytes × Bytes))
    (object : JsonSets) (itemKey : CPtr) :
    storeItems (Reply.items (p :: pairs)) object itemKey
      = if 0 < p.2.length then
          match keyAfter p.1 itemKey with
          | .str key => storeItems (Reply.items pairs) (object ++ [(key, cstr p.2)]) .freed
          | _ => none
        else storeItems (Reply.items pairs) object (keyAfter p.1 itemKey) := by
  have hsplit : Reply.items (p :: pairs) = p.1 :: p.2 :: Reply.items pairs := rfl
  have hlen := Reply.length_items pairs
  have heven : ((p.2 :: Reply.items pairs).length + 1) % 2 = 0 := by
    rw [List.length_cons]
    omega
  have hodd : ¬((Reply.items pairs).length + 1) % 2 = 0 := by omega
  have hvalue : ∀ key : CPtr, storeItems (p.2 :: Reply.items pairs) object key
      = if 0 < p.2.length then
          match key with
          | .str k => storeItems (Reply.items pairs) (object ++ [(k, cstr p.2)]) .freed
          | _ => none
        else storeItems (Reply.items pairs) object key := by
    intro key
    rewrite [storeItems_cons, if_neg hodd]
    rfl
  rw [hsplit, storeItems_cons]
  rcases Decidable.em (0 < p.1.length) with hpos | h0
  · rw [if_pos hpos, if_pos heven, hvalue, keyAfter, if_pos hpos]
  · rw [if_neg h0, hvalue, keyAfter, if_neg h0]

/-- There is a string in `item_key`. -/
def hasKey : CPtr → Bool
  | .str _ => true
  | .uninit | .freed => false

/-- In front of every non-empty value, and behind the one before it, there is a non-empty field;
`waiting` says that there has been one already. -/
def ValuesNamed : Bool → List (Bytes × Bytes) → Prop
  | _, [] => True
  | waiting, (field, value) :: pairs =>
    if value = [] then ValuesNamed (waiting || field ≠ []) pairs
    else (waiting = true ∨ field ≠ []) ∧ ValuesNamed false pairs

/-- **The item loop gets through** exactly the hashes that name their values. Induction on the
pairs, over both items of each. -/
theorem storeItems_ne_none_iff (pairs : List (Bytes × Bytes)) (object : JsonSets)
    (itemKey : CPtr) :
    storeItems (Reply.items pairs) object itemKey ≠ none
      ↔ ValuesNamed (hasKey itemKey) pairs := by
  induction pairs generalizing object itemKey with
  | nil => simp [Reply.items, storeItems, ValuesNamed]
  | cons p pairs ih =>
    obtain ⟨field, value⟩ := p
    -- a non-empty field makes `item_key` a string
    have hkey : hasKey (keyAfter field itemKey)
        = (hasKey itemKey || decide (field ≠ [])) := by
      cases field <;> simp [keyAfter, hasKey]
    rw [storeItems_pair, ValuesNamed]
    rcases Decidable.em (value = []) with rfl | hvalue
    · rw [if_neg (by simp), if_pos rfl, ih, hkey]
    · rw [if_pos (List.length_pos_iff.mpr hvalue), if_neg hvalue]
      have hnamed : (hasKey itemKey = true ∨ field ≠ [])
          ↔ hasKey (keyAfter field itemKey) = true := by
        simp [hkey]
      rw [hnamed]
      cases keyAfter field itemKey with
      | str key => simpa [hasKey] using ih (object ++ [(key, cstr value)]) .freed
      | uninit => simp [hasKey]
      | freed => simp [hasKey]

/-- **The hashes that the parser gets through**, by the pattern of their empty strings. -/
theorem readable_hash_iff {pairs : List (Bytes × Bytes)} :
    Readable (.hash pairs) ↔ ValuesNamed false pairs :=
  storeItems_ne_none_iff pairs [] .uninit

/-- The calls on the object of a hash without empty fields and values. -/
def pairSets (pairs : List (Bytes × Bytes)) : JsonSets :=
  pairs.map fun p => (cstr p.1, cstr p.2)

/-- Without empty strings every pair is stored. Induction on the pairs. -/
theorem storeItems_pairs (pairs : List (Bytes × Bytes)) (object : JsonSets) (itemKey : CPtr)
    (hitems : ∀ item ∈ Reply.items pairs, item ≠ []) :
    storeItems (Reply.items pairs) object itemKey = some (object ++ pairSets pairs) := by
  induction pairs generalizing object itemKey with
  | nil => simp [Reply.items, storeItems, pairSets]
  | cons p pairs ih =>
    have hsplit : Reply.items (p :: pairs) = p.1 :: p.2 :: Reply.items pairs := rfl
    rw [hsplit] at hitems ⊢
    have hfield : 0 < p.1.length := List.length_pos_iff.mpr (hitems p.1 (by simp))
    have hvalue : 0 < p.2.length := List.length_pos_iff.mpr (hitems p.2 (by simp))
    have hlen := Reply.length_items pairs
    rw [storeItems_cons, if_pos hfield,
      if_pos (by simp only [List.length_cons]; omega), storeItems_cons, if_pos hvalue,
      if_neg (by omega)]
    simp only
    rw [ih _ _ fun item h => hitems item (by simp [h])]
    simp [pairSets]

theorem hashObject_eq {pairs : List (Bytes × Bytes)}
    (hitems : ∀ item ∈ Reply.items pairs, item ≠ []) : hashObject pairs = pairSets pairs := by
  simp [hashObject, storeItems_pairs pairs [] .uninit hitems]

theorem readable_of_shape {r : Reply} (h : r.Shape) : Readable r := by
  cases r with
  | hash pairs => simp [Readable, storeItems_pairs pairs [] .uninit h]
  | line marker text => exact h

/-- The dispatch on a line marker. -/
theorem parseReply_line {w : WData} {start : Int}
    (hmarker : w.get start = Byte.plus ∨ w.get start = Byte.minus ∨ w.get start = Byte.colon) :
    parseReply w start = some (parseSimple w start) := by
  unfold parseReply
  rcases hmarker with h | h | h <;> simp only [h] <;> rfl

/-- **An answer, complete.** -/
theorem parseReply_complete {w : WData} {start : Int} {r : Reply} {t : Bytes}
    (hat : w.At start (r.enc ++ t)) (hr : Readable r) (hw : w.len < 2 ^ 31) :
    parseReply w start = some (.ret (replyActs r) (start + r.enc.length)) := by
  cases r with
  | hash pairs =>
    have hget : w.get start = Byte.star :=
      WData.At.get (s := decimal (Reply.items pairs).length ++ crlf
        ++ (Reply.items pairs).flatMap bulk ++ t) (by simpa [Reply.enc, array] using hat)
    obtain ⟨sets, hsets⟩ := Option.ne_none_iff_exists'.mp hr
    simp only [parseReply, hget, if_true]
    rw [parseArray_complete hat hw, hsets]
    simp [stored, replyActs, hashObject, hsets, Reply.enc]
  | line marker text =>
    obtain ⟨hmarker, hlf⟩ := hr
    have hget : w.get start = marker :=
      WData.At.get (s := text ++ crlf ++ t) (by simpa [Reply.enc] using hat)
    rw [parseReply_line (hget.symm ▸ hmarker), parseSimple_complete hat hlf]
    simp [replyActs, Reply.enc, Nat.add_assoc]

/-- **An answer, broken.** -/
theorem parseReply_broken {w : WData} {start : Int} {r : Reply} {p : Bytes}
    (hat : w.At start p) (hp : p <+: r.enc) (hne : p ≠ []) (hlt : p.length < r.enc.length)
    (hr : Readable r) (hsize : r.enc.length < 2 ^ 29) (hw : w.len < 2 ^ 30) :
    parseReply w start = some (incomplete w start) := by
  cases r with
  | hash pairs =>
    obtain ⟨b, p', rfl⟩ := List.exists_cons_of_ne_nil hne
    obtain rfl : b = Byte.star := by
      simpa [Reply.enc, array, List.cons_prefix_cons] using (List.cons_prefix_cons.mp hp).1
    have hget : w.get start = Byte.star := hat.get
    simp only [parseReply, hget, if_true]
    rw [parseArray_broken hat hp hne hlt hr hsize hw]
  | line marker text =>
    obtain ⟨hmarker, hlf⟩ := hr
    obtain ⟨b, p', rfl⟩ := List.exists_cons_of_ne_nil hne
    obtain rfl : b = marker := (List.cons_prefix_cons.mp hp).1
    have hget : w.get start = b := hat.get
    have hshort : (b :: p').length < text.length + 3 := by
      simp only [Reply.enc, List.length_cons, List.length_append, List.length_nil] at hlt ⊢
      omega
    rw [parseReply_line (hget.symm ▸ hmarker), parseSimple_broken hat hp hne hshort hlf]

theorem incomplete_save {w : WData} {start : Int} {p : Bytes} (hat : w.At start p)
    (hfit : p.length < maxRead) (hcopy : Copied p) :
    incomplete w start = .ret [.save p] (-1) := by
  rw [incomplete, saveToBuf_at hat hfit hcopy]

/-- What the carry buffer takes as it is: nothing, or a proper beginning of an answer that
fits and is copied. -/
def Carried (p : Bytes) : Prop :=
  p.length < maxRead ∧ Copied p ∧
    (p ≠ [] → ∃ r, Readable r ∧ r.enc.length < 2 ^ 29 ∧ p <+: r.enc ∧ p.length < r.enc.length)

/-- The save that a broken answer leads to. -/
def carryActs (p : Bytes) : List Act := if p = [] then [] else [.save p]

/-- **The loop on a stream.** Complete answers followed by a broken one: the calls of the
complete ones, in order, and the save of the broken one. -/
theorem parseLoop_stream {w : WData} (rs : List Reply) {p : Bytes} {index : Int} {fuel : Nat}
    (hat : w.At index (rs.flatMap Reply.enc ++ p)) (hrs : ∀ r ∈ rs, Readable r)
    (hp : Carried p) (hw : w.len < 2 ^ 30) (hfuel : rs.length + 1 < fuel) :
    parseLoop w fuel index = (rs.flatMap replyActs ++ carryActs p, .done) := by
  induction rs generalizing index fuel with
  | nil =>
    obtain ⟨fuel, rfl⟩ : ∃ n, fuel = n + 2 := ⟨fuel - 2, by
      simp only [List.length_nil] at hfuel
      omega⟩
    rw [List.flatMap_nil, List.nil_append] at hat
    obtain ⟨hfit, hcopy, hpre⟩ := hp
    by_cases hne : p = []
    · subst hne
      have hlen := hat.2.1
      simp only [List.length_nil, Int.natCast_zero] at hlen
      rw [parseLoop, if_neg (by omega)]
      rfl
    · -- the part of a reply that is left is saved, and the loop ends
      obtain ⟨r, hr, hsize, hpre, hlt⟩ := hpre hne
      obtain ⟨b, p', rfl⟩ := List.exists_cons_of_ne_nil hne
      have hin := hat.lt_len
      have hnn := hat.1
      rw [parseLoop, if_pos ⟨hnn, hin⟩, parseReply_broken hat hpre hne hlt hr hsize hw,
        incomplete_save hat hfit hcopy]
      simp only
      rw [parseLoop, if_neg (by omega)]
      simp [carryActs]
  | cons r rs ih =>
    obtain ⟨fuel, rfl⟩ : ∃ n, fuel = n + 1 := ⟨fuel - 1, by omega⟩
    rw [List.flatMap_cons, List.append_assoc] at hat
    have hnn := hat.1
    have hin : index < w.len := by
      have hlen := hat.2.1
      have hpos := List.length_pos_iff.mpr r.enc_ne_nil
      simp only [List.length_append] at hlen
      omega
    -- a whole reply, and the loop goes on behind it
    have hnext := ih hat.append (fun r' h => hrs r' (List.mem_cons_of_mem _ h))
      (by simpa using hfuel)
    rw [parseLoop, if_pos ⟨hnn, hin⟩,
      parseReply_complete hat (hrs r List.mem_cons_self) (by omega)]
    simp only
    rw [hnext, List.flatMap_cons, List.append_assoc]

end Parser

end Iceberg
