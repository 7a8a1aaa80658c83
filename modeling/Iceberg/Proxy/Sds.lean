import Iceberg.Proxy.Basic

/-!
# Splitting a line into arguments (`sds.c`)

`sdssplitargs`, on the bytes of a C string without its terminator: where the source looks at
`*p` for the terminating zero, the list is empty. Redis reads inline requests with it.

The lemmas measure what comes out of a token against what goes in: quotes and escapes are
lost on the way, so only a token without them comes out as long as it went in.
-/

namespace Iceberg

namespace Sds

abbrev quote : UInt8 := 34
abbrev apostrophe : UInt8 := 39
abbrev backslash : UInt8 := 92

/-- `isspace` in the C locale. -/
def isspace (c : UInt8) : Bool := c == Byte.space || (9 ≤ c && c ≤ 13)

/-- `is_hex_digit`. -/
def isHexDigit (c : UInt8) : Bool :=
  (48 ≤ c && c ≤ 57) || (97 ≤ c && c ≤ 102) || (65 ≤ c && c ≤ 70)

/-- `hex_digit_to_int`. -/
def hexDigitToInt (c : UInt8) : UInt8 :=
  if 48 ≤ c && c ≤ 57 then c - 48
  else if 97 ≤ c && c ≤ 102 then c - 87
  else if 65 ≤ c && c ≤ 70 then c - 55
  else 0

/-- The `switch` on the byte behind a backslash in double quotes. -/
def unescape (c : UInt8) : UInt8 :=
  if c = 110 then 10 else if c = 114 then 13 else if c = 116 then 9
  else if c = 98 then 8 else if c = 97 then 7 else c

/-- A closing quote must be followed by a space or nothing at all. -/
def closes (p : Bytes) : Bool :=
  match p with
  | [] => true
  | c :: _ => isspace c

/-- A token inside double quotes (`inq`): the token and the rest of the line, or `none` for
the jump to `err`. -/
def inq (current : Bytes) : Bytes → Option (Bytes × Bytes)
  | [] => none
  | b :: p =>
    if b = backslash then
      match p with
      | [] => inq (current ++ [b]) []
      | [c] => inq (current ++ [unescape c]) []
      | [c, h] => inq (current ++ [unescape c]) [h]
      | c :: h :: l :: p =>
        if c = 120 ∧ isHexDigit h ∧ isHexDigit l then
          inq (current ++ [hexDigitToInt h * 16 + hexDigitToInt l]) p
        else inq (current ++ [unescape c]) (h :: l :: p)
    else if b = quote then if closes p then some (current, p) else none
    else inq (current ++ [b]) p

/-- A token inside single quotes (`insq`). -/
def insq (current : Bytes) : Bytes → Option (Bytes × Bytes)
  | [] => none
  | b :: p =>
    if b = backslash then
      match p with
      | [] => insq (current ++ [b]) []
      | c :: p =>
        if c = apostrophe then insq (current ++ [apostrophe]) p
        else insq (current ++ [b]) (c :: p)
    else if b = apostrophe then if closes p then some (current, p) else none
    else insq (current ++ [b]) p

/-- The bytes that end a token outside quotes. -/
def endsToken (b : UInt8) : Bool := b == 32 || b == 10 || b == 13 || b == 9

/-- A token outside quotes. The byte that ends it is skipped. -/
def token (current : Bytes) : Bytes → Option (Bytes × Bytes)
  | [] => some (current, [])
  | b :: p =>
    if endsToken b then some (current, p)
    else if b = quote then inq current p
    else if b = apostrophe then insq current p
    else token (current ++ [b]) p

/-- The outer loop; `vector` are the tokens so far. -/
def splitLoop : Nat → List Bytes → Bytes → Option (List Bytes)
  | 0, _, _ => none
  | fuel + 1, vector, p =>
    match p.dropWhile isspace with
    | [] => some vector
    | b :: p =>
      match token [] (b :: p) with
      | none => none
      | some (current, p) => splitLoop fuel (vector ++ [current]) p

/-- `sdssplitargs`. Every round of its loop takes at least one byte of the line. -/
def sdssplitargs (line : Bytes) : Option (List Bytes) :=
  splitLoop (line.length + 1) [] (cstr line)

example : sdssplitargs [97, 32, 34, 98, 32, 92, 110, 34, 13] = some [[97], [98, 32, 10]] := by
  decide

/-- In double quotes at least the closing quote is lost. -/
theorem length_inq {current p out rest : Bytes} (h : inq current p = some (out, rest)) :
    out.length + 1 ≤ current.length + p.length := by
  fun_induction inq current p
  case case1 | case8 => exact absurd h (by simp)
  case case7 =>
    obtain ⟨rfl, rfl⟩ := Prod.mk.inj (Option.some.inj h)
    simp only [List.length_cons]
    omega
  case case2 ih | case3 ih | case4 ih | case5 ih | case6 ih | case9 ih =>
    have := ih h
    simp only [List.length_append, List.length_cons, List.length_nil] at this ⊢
    omega

/-- In single quotes as well. -/
theorem length_insq {current p out rest : Bytes} (h : insq current p = some (out, rest)) :
    out.length + 1 ≤ current.length + p.length := by
  fun_induction insq current p
  case case1 | case6 => exact absurd h (by simp)
  case case5 =>
    obtain ⟨rfl, rfl⟩ := Prod.mk.inj (Option.some.inj h)
    simp only [List.length_cons]
    omega
  case case2 ih | case3 ih | case4 ih | case7 ih =>
    have := ih h
    simp only [List.length_append, List.length_cons, List.length_nil] at this ⊢
    omega

/-- No token is longer than what it is read from. -/
theorem token_le {current p out rest : Bytes} (h : token current p = some (out, rest)) :
    out.length ≤ current.length + p.length := by
  fun_induction token current p
  case case1 | case2 =>
    obtain ⟨rfl, rfl⟩ := Prod.mk.inj (Option.some.inj h)
    omega
  case case3 =>
    have := length_inq h
    simp only [List.length_cons]
    omega
  case case4 =>
    have := length_insq h
    simp only [List.length_cons]
    omega
  case case5 ih =>
    have := ih h
    simp only [List.length_append, List.length_cons, List.length_nil] at this ⊢
    omega

/-- The bytes that a token outside quotes takes as they are. -/
def Taken (b : UInt8) : Prop := endsToken b = false ∧ b ≠ quote ∧ b ≠ apostrophe

instance (b : UInt8) : Decidable (Taken b) :=
  inferInstanceAs (Decidable (endsToken b = false ∧ b ≠ quote ∧ b ≠ apostrophe))

/-- A token of plain bytes up to the byte that ends it. -/
theorem token_taken {current s : Bytes} {e : UInt8} {rest : Bytes}
    (hs : ∀ b ∈ s, Taken b) (he : endsToken e = true) :
    token current (s ++ e :: rest) = some (current ++ s, rest) := by
  induction s generalizing current with
  | nil => simp [token, he]
  | cons b s ih =>
    obtain ⟨⟨hend, hquote, hapostrophe⟩, hs⟩ := List.forall_mem_cons.mp hs
    rw [List.cons_append, token, if_neg (by simp [hend]), if_neg hquote, if_neg hapostrophe,
      ih hs, List.append_assoc]
    rfl

/-- **A token never grows**, and keeps its length only when all bytes are plain. -/
theorem token_length {current s out rest : Bytes} {e : UInt8} (he : endsToken e = true)
    (h : token current (s ++ [e]) = some (out, rest)) :
    out.length ≤ current.length + s.length
      ∧ (out.length = current.length + s.length → ∀ b ∈ s, Taken b) := by
  induction s generalizing current with
  | nil =>
    rw [List.nil_append, token, if_pos he] at h
    obtain ⟨rfl, rfl⟩ := Prod.mk.inj (Option.some.inj h)
    exact ⟨Nat.le_refl _, by simp⟩
  | cons b s ih =>
    rw [List.cons_append, token] at h
    simp only [List.length_cons]
    split at h
    · obtain ⟨rfl, rfl⟩ := Prod.mk.inj (Option.some.inj h)
      exact ⟨by omega, by omega⟩
    split at h
    · -- a quote of either kind costs a byte
      have hlen := length_inq h
      simp only [List.length_append, List.length_cons, List.length_nil] at hlen
      exact ⟨by omega, by omega⟩
    split at h
    · have hlen := length_insq h
      simp only [List.length_append, List.length_cons, List.length_nil] at hlen
      exact ⟨by omega, by omega⟩
    · -- an ordinary byte is taken as it is
      rename_i hend hquote hapostrophe
      obtain ⟨hle, hall⟩ := ih h
      simp only [List.length_append, List.length_cons, List.length_nil] at hle hall
      refine ⟨by omega, fun heq => ?_⟩
      refine List.forall_mem_cons.mpr ⟨⟨by simpa using hend, hquote, hapostrophe⟩, ?_⟩
      exact hall (by omega)

end Sds

end Iceberg
