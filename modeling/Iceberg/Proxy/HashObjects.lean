import Iceberg.Proxy.ParserLemmas
import Mathlib.Data.List.Perm.Subperm

/-!
# The object made of a hash

`parseArray` tells fields from values by the parity of a countdown, and assigns `item_key`
and `item_value` for items of positive length only. For a hash without empty strings the
object has exactly its pairs. An empty value leaves its field out; an empty field leaves
whatever `item_key` is from the pairs before.

The JSON library is a parameter: its objects, the empty one, `json_object_set` of a
`json_string`, and what can be looked up in them. It promises something for strings that are
valid UTF-8 only.
-/

namespace Iceberg

open Resp Decimal

/-- Valid UTF-8, which is what the JSON library takes. -/
def Utf8 (s : Bytes) : Prop := (ByteArray.mk s.toArray).IsValidUTF8

/-- A JSON library, as far as `parser.c` uses it. -/
structure JsonLibrary where
  Object : Type
  object : Object
  set : Object → Bytes → Bytes → Object
  get : Object → Bytes → Option Bytes
  get_object : ∀ key, get object key = none
  get_set : ∀ o key value key', Utf8 key → Utf8 value →
    get (set o key value) key' = if key' = key then some value else get o key'

namespace JsonLibrary

/-- The object that some `json_object_set` calls build from an empty one. -/
def build (J : JsonLibrary) (sets : JsonSets) : J.Object :=
  sets.foldl (fun o s => J.set o s.1 s.2) J.object

/-- Objects as tables. -/
def table : JsonLibrary where
  Object := Bytes → Option Bytes
  object := fun _ => none
  set o key value := fun key' => if key' = key then some value else o key'
  get o key := o key
  get_object := fun _ => rfl
  get_set := fun _ _ _ _ _ _ => rfl

/-- With distinct keys, what has been set is what can be looked up. -/
theorem get_foldl (J : JsonLibrary) (sets : JsonSets) (o : J.Object) (key : Bytes)
    (hutf : ∀ s ∈ sets, Utf8 s.1 ∧ Utf8 s.2) (hdistinct : (sets.map Prod.fst).Nodup) :
    J.get (sets.foldl (fun o s => J.set o s.1 s.2) o) key
      = (sets.lookup key).or (J.get o key) := by
  induction sets generalizing o with
  | nil => rfl
  | cons s sets ih =>
    obtain ⟨hs, hsets⟩ := List.forall_mem_cons.mp hutf
    rw [List.map_cons, List.nodup_cons] at hdistinct
    rw [List.foldl_cons, ih _ hsets hdistinct.2, J.get_set _ _ _ _ hs.1 hs.2]
    obtain ⟨field, value⟩ := s
    rcases Decidable.em (key = field) with rfl | hne
    · -- the key is not set again
      have hnone : sets.lookup key = none := by
        rw [List.lookup_eq_none_iff]
        intro p hp
        have hmem : p.1 ∈ sets.map Prod.fst := List.mem_map_of_mem hp
        have hother : key ≠ p.1 := fun h => hdistinct.1 (h ▸ hmem)
        simpa using hother
      simp [hnone]
    · have hbeq : (key == field) = false := by simpa using hne
      rw [if_neg hne, List.lookup_cons, hbeq]

/-- A key that is never set cannot be looked up. -/
theorem get_foldl_notMem (J : JsonLibrary) (sets : JsonSets) (o : J.Object) (key : Bytes)
    (hutf : ∀ s ∈ sets, Utf8 s.1 ∧ Utf8 s.2) (hkey : key ∉ sets.map Prod.fst) :
    J.get (sets.foldl (fun o s => J.set o s.1 s.2) o) key = J.get o key := by
  induction sets generalizing o with
  | nil => rfl
  | cons s sets ih =>
    obtain ⟨hs, hsets⟩ := List.forall_mem_cons.mp hutf
    rw [List.map_cons, List.mem_cons, not_or] at hkey
    rw [List.foldl_cons, ih _ hsets hkey.2, J.get_set _ _ _ _ hs.1 hs.2, if_neg hkey.1]

end JsonLibrary

namespace Parser

/-- Whatever holds of all strings of a hash holds of the strings in its object. -/
theorem forall_of_storeItems {P : Bytes → Prop} {pairs : List (Bytes × Bytes)}
    {object sets : JsonSets} {itemKey : CPtr}
    (hpairs : ∀ p ∈ pairs, P (cstr p.1) ∧ P (cstr p.2))
    (hobject : ∀ s ∈ object, P s.1 ∧ P s.2) (hkey : ∀ k, itemKey = .str k → P k)
    (h : storeItems (Reply.items pairs) object itemKey = some sets) :
    ∀ s ∈ sets, P s.1 ∧ P s.2 := by
  induction pairs generalizing object itemKey with
  | nil =>
    obtain rfl : object = sets := Option.some.inj h
    exact hobject
  | cons p pairs ih =>
    obtain ⟨hp, hrest⟩ := List.forall_mem_cons.mp hpairs
    -- the key of the next value is the old one, or the field
    have hnext : ∀ k, keyAfter p.1 itemKey = .str k → P k := by
      intro k hk
      unfold keyAfter at hk
      split at hk
      · obtain rfl := CPtr.str.inj hk
        exact hp.1
      · exact hkey k hk
    rw [storeItems_pair] at h
    split at h
    · -- a value that is not empty is set under that key
      cases hk : keyAfter p.1 itemKey with
      | str key =>
        rw [hk] at h
        refine ih hrest ?_ (fun k hk' => CPtr.noConfusion hk') h
        intro s hs
        rcases List.mem_append.mp hs with hs | hs
        · exact hobject s hs
        · obtain rfl := List.mem_singleton.mp hs
          exact ⟨hnext key hk, hp.2⟩
      | uninit =>
        rw [hk] at h
        exact absurd h (by simp)
      | freed =>
        rw [hk] at h
        exact absurd h (by simp)
    · -- an empty value is skipped
      exact ih hrest hobject hnext h

/-- At most one call for each pair, and none for a pair with an empty value. -/
theorem length_storeItems {pairs : List (Bytes × Bytes)} {object sets : JsonSets}
    {itemKey : CPtr} (h : storeItems (Reply.items pairs) object itemKey = some sets) :
    sets.length = object.length + pairs.countP fun p => decide (p.2 ≠ []) := by
  induction pairs generalizing object itemKey with
  | nil =>
    obtain rfl : object = sets := Option.some.inj h
    rfl
  | cons p pairs ih =>
    rw [storeItems_pair] at h
    rw [List.countP_cons]
    split at h
    · have hne : p.2 ≠ [] := List.ne_nil_of_length_pos ‹_›
      cases hk : keyAfter p.1 itemKey with
      -- one call for a value that is not empty
      | str key =>
        rw [hk] at h
        rw [ih h, if_pos (decide_eq_true hne), List.length_append, List.length_singleton]
        omega
      | uninit =>
        rw [hk] at h
        exact absurd h (by simp)
      | freed =>
        rw [hk] at h
        exact absurd h (by simp)
    · -- none for an empty one
      have hnil : p.2 = [] := List.eq_nil_of_length_eq_zero (by omega)
      rw [ih h, if_neg (by simp [hnil])]
      rfl

/-- With no string left in `item_key`, values without empty ones need fields without empty
ones. -/
theorem fields_ne_nil {pairs : List (Bytes × Bytes)} {object sets : JsonSets} {itemKey : CPtr}
    (hkey : ∀ k, itemKey ≠ .str k) (hvalues : ∀ p ∈ pairs, p.2 ≠ [])
    (h : storeItems (Reply.items pairs) object itemKey = some sets) :
    ∀ p ∈ pairs, p.1 ≠ [] := by
  induction pairs generalizing object itemKey with
  | nil => simp
  | cons p pairs ih =>
    obtain ⟨hp, hrest⟩ := List.forall_mem_cons.mp hvalues
    rw [storeItems_pair, if_pos (List.length_pos_iff.mpr hp)] at h
    rcases Decidable.em (p.1 = []) with hnil | hne
    · -- the value is stored under a key that is not there
      have hsame : keyAfter p.1 itemKey = itemKey := by simp [keyAfter, hnil]
      rw [hsame] at h
      cases itemKey with
      | str key => exact absurd rfl (hkey key)
      | uninit => exact absurd h (by simp)
      | freed => exact absurd h (by simp)
    · have hstr : keyAfter p.1 itemKey = .str (cstr p.1) := by
        rw [keyAfter, if_pos (List.length_pos_iff.mpr hne)]
      rw [hstr] at h
      exact List.forall_mem_cons.mpr ⟨hne, ih (fun _ => CPtr.noConfusion) hrest h⟩

/-! ## Decoding a hash -/

/-- **The hash is decoded.** `parseArray` consumes exactly the encoding of the hash and hands
an object to `popHandle` in which exactly its fields can be looked up, each with its value. -/
def Decoded (J : JsonLibrary) (w : WData) (start : Int) (pairs : List (Bytes × Bytes)) : Prop :=
  ∃ sets, parseArray w start
      = .ret [.popHandle (.object sets)] (start + (Reply.hash pairs).enc.length)
    ∧ ∀ field, J.get (J.build sets) field = pairs.lookup field

/-- Without zero bytes, the members of the object are the pairs of the hash. -/
theorem pairSets_of_nulFree {pairs : List (Bytes × Bytes)}
    (hnul : ∀ p ∈ pairs, Byte.nul ∉ p.1 ∧ Byte.nul ∉ p.2) : pairSets pairs = pairs := by
  unfold pairSets
  conv => rhs; rw [← List.map_id pairs]
  apply List.map_congr_left
  intro p hp
  rw [cstr_of_nulFree (hnul p hp).1, cstr_of_nulFree (hnul p hp).2]
  rfl

/-- A field of the hash is found in it. -/
theorem lookup_ne_none {pairs : List (Bytes × Bytes)} {p : Bytes × Bytes} (hp : p ∈ pairs) :
    pairs.lookup p.1 ≠ none := by
  rw [Ne, List.lookup_eq_none_iff]
  intro hall
  simpa using hall p hp

/-- **When a hash is decoded.** Distinct fields, strings that JSON can hold: exactly when no
field and no value is empty. -/
theorem decoded_iff (J : JsonLibrary) (w : WData) (start : Int) (pairs : List (Bytes × Bytes))
    (t : Bytes) (hat : w.At start ((Reply.hash pairs).enc ++ t)) (hint : w.len < 2 ^ 31)
    (hdistinct : (pairs.map Prod.fst).Nodup)
    (hnul : ∀ p ∈ pairs, Byte.nul ∉ p.1 ∧ Byte.nul ∉ p.2)
    (hutf : ∀ p ∈ pairs, Utf8 p.1 ∧ Utf8 p.2) :
    Decoded J w start pairs ↔ ∀ p ∈ pairs, p.1 ≠ [] ∧ p.2 ≠ [] := by
  have hrun := parseArray_complete hat hint
  constructor
  · -- the object has every field, so nothing can have been skipped
    rintro ⟨sets, hparse, hget⟩
    -- the calls are those of the loop over the items
    have hstore : storeItems (Reply.items pairs) [] .uninit = some sets := by
      rw [hrun] at hparse
      cases hs : storeItems (Reply.items pairs) [] .uninit with
      | none =>
        rw [hs] at hparse
        exact absurd hparse (by simp [stored])
      | some sets' =>
        rw [hs] at hparse
        simp only [stored, Res.ret.injEq, List.cons.injEq, Act.popHandle.injEq,
          Payload.object.injEq, and_true] at hparse
        rw [hparse.1]
    have hvalid : ∀ s ∈ sets, Utf8 s.1 ∧ Utf8 s.2 := by
      refine forall_of_storeItems (fun p hp => ?_) (by simp) (fun _ => CPtr.noConfusion) hstore
      rw [cstr_of_nulFree (hnul p hp).1, cstr_of_nulFree (hnul p hp).2]
      exact hutf p hp
    -- every field has been set, so there are as many calls as pairs
    have hfields : pairs.map Prod.fst ⊆ sets.map Prod.fst := by
      intro field hfield
      obtain ⟨p, hp, rfl⟩ := List.mem_map.mp hfield
      by_contra hnot
      have hnone := J.get_foldl_notMem sets J.object p.1 hvalid hnot
      rw [J.get_object] at hnone
      exact lookup_ne_none hp ((hget p.1).symm.trans hnone)
    have hle : pairs.length ≤ sets.length := by
      have := (List.subperm_of_subset hdistinct hfields).length_le
      simpa using this
    -- and each value that is not empty makes one call
    have hcount : pairs.countP (fun p => decide (p.2 ≠ [])) = pairs.length := by
      have hlen := length_storeItems hstore
      have hmost := List.countP_le_length (p := fun p : Bytes × Bytes => decide (p.2 ≠ []))
        (l := pairs)
      rw [List.length_nil] at hlen
      omega
    have hvalues : ∀ p ∈ pairs, p.2 ≠ [] := fun p hp =>
      of_decide_eq_true (List.countP_eq_length.mp hcount p hp)
    exact fun p hp =>
      ⟨fields_ne_nil (fun _ => CPtr.noConfusion) hvalues hstore p hp, hvalues p hp⟩
  · -- no item is empty, and the object is built pair by pair
    intro hne
    have hitems : ∀ item ∈ Reply.items pairs, item ≠ [] := by
      intro item hitem
      obtain ⟨p, hp, hmem⟩ := List.mem_flatMap.mp hitem
      simp only [List.mem_cons, List.not_mem_nil, or_false] at hmem
      rcases hmem with rfl | rfl
      · exact (hne p hp).1
      · exact (hne p hp).2
    refine ⟨pairs, ?_, fun field => ?_⟩
    · rw [hrun, storeItems_pairs pairs [] .uninit hitems, pairSets_of_nulFree hnul]
      rfl
    · rw [JsonLibrary.build, J.get_foldl pairs J.object field hutf hdistinct, J.get_object]
      cases pairs.lookup field <;> rfl

/-- The hash `{f: v, g: é}`, read into tables. -/
theorem decoded_iff_two :
    Decoded .table ⟨(Reply.hash [([102], [118]), ([103], [195, 169])]).enc, fun _ => 0⟩ 0
        [([102], [118]), ([103], [195, 169])]
      ↔ ∀ p ∈ [(([102], [118]) : Bytes × Bytes), ([103], [195, 169])], p.1 ≠ [] ∧ p.2 ≠ [] :=
  decoded_iff .table ⟨(Reply.hash [([102], [118]), ([103], [195, 169])]).enc, fun _ => 0⟩ 0
    [([102], [118]), ([103], [195, 169])] []
    (by rw [List.append_nil]; exact WData.at_zero _) (by decide) (by decide) (by decide)
    (by
      intro p hp
      rcases List.mem_pair.mp hp with rfl | rfl
      · exact ⟨⟨['f'], by decide⟩, ⟨['v'], by decide⟩⟩
      · exact ⟨⟨['g'], by decide⟩, ⟨['é'], by decide⟩⟩)

/-- **An empty value is left out.** The object for the hash `{f: ""}` has no fields. -/
theorem not_decoded_empty :
    ¬Decoded .table ⟨(Reply.hash [([102], [])]).enc, fun _ => 0⟩ 0 [([102], [])] := by
  rintro ⟨sets, hparse, hget⟩
  have hrun : parseArray ⟨(Reply.hash [([102], [])]).enc, fun _ => 0⟩ 0
      = .ret [.popHandle (.object [])] 17 := by decide
  rw [hrun] at hparse
  simp only [Res.ret.injEq, List.cons.injEq, Act.popHandle.injEq, Payload.object.injEq,
    and_true] at hparse
  obtain ⟨rfl, -⟩ := hparse
  exact absurd (hget [102]) (by simp [JsonLibrary.build, JsonLibrary.table])

end Parser

end Iceberg
