import Iceberg.Proxy.Md5
import Iceberg.Spec.Rfc1321

/-!
# The code computes MD5

`transform` is the compression of the specification: line `i` of the code is step `i`, with
the registers under rotating names. A context holds a message (`Holds`) when its state is
that of the whole blocks, the used part of its buffer the bytes behind them, and its counts
the length in bits; `update` appends to the message that is held.
-/

namespace Iceberg.Md5

open Rfc1321 (Registers)

/-! ## One block -/

/-- The names under which line `i` knows the registers. -/
def names (i : Nat) : Var × Var × Var × Var :=
  match i % 4 with
  | 0 => (.a, .b, .c, .d)
  | 1 => (.d, .a, .b, .c)
  | 2 => (.c, .d, .a, .b)
  | _ => (.b, .c, .d, .a)

/-- The line for step `i`. -/
def lineOf (i : Nat) : Op :=
  let (va, vb, vc, vd) := names i
  { fn := match i / 16 with
      | 0 => .F
      | 1 => .G
      | 2 => .H
      | _ => .I
    a := va, b := vb, c := vc, d := vd
    k := Rfc1321.wordIndex i, s := Rfc1321.shift i, ac := Rfc1321.table.getD i 0 }

theorem ops_eq : ops = (List.range 64).map lineOf := by
  decide +kernel

/-- The variables as the registers of step `i`. -/
def view (i : Nat) (v : State) : Registers :=
  let (va, vb, vc, vd) := names i
  { A := v.get va, B := v.get vb, C := v.get vc, D := v.get vd }

/-- The function of line `i` is that of step `i`. -/
theorem fn_lineOf (i : Nat) (x y z : UInt32) :
    (lineOf i).fn.apply x y z = Rfc1321.aux i x y z := by
  unfold lineOf Rfc1321.aux
  match i / 16 with
  | 0 | 1 | 2 => rfl
  | _ + 3 => rfl

/-- What a line does to the variables, for any four of them. -/
theorem exec_lineOf (X : Nat → UInt32) (i : Nat) (v : State) :
    (lineOf i).exec X v = v.set ((view i v).B + Rfc1321.rotate ((view i v).A
      + Rfc1321.aux i (view i v).B (view i v).C (view i v).D + X (Rfc1321.wordIndex i)
      + Rfc1321.table.getD i 0) (Rfc1321.shift i)) (names i).1 := by
  -- the register that is written is read once more, by the rotation
  have hset : ∀ (v : State) (x y : UInt32) (r : Var), (v.set x r).set y r = v.set y r := by
    intro v x y r
    cases r <;> rfl
  have hself : ∀ (v : State) (x : UInt32) (r : Var), (v.set x r).get r = x := by
    intro v x r
    cases r <;> rfl
  have hother : ∀ (v : State) (x : UInt32), (v.set x (names i).1).get (names i).2.1
      = v.get (names i).2.1 := by
    intro v x
    unfold names
    split <;> rfl
  -- the parts of a line are those of the specification's tables
  have hparts : (lineOf i).a = (names i).1 ∧ (lineOf i).b = (names i).2.1
      ∧ (lineOf i).c = (names i).2.2.1 ∧ (lineOf i).d = (names i).2.2.2
      ∧ (lineOf i).k = Rfc1321.wordIndex i ∧ (lineOf i).s = Rfc1321.shift i
      ∧ (lineOf i).ac = Rfc1321.table.getD i 0 := ⟨rfl, rfl, rfl, rfl, rfl, rfl, rfl⟩
  obtain ⟨ha, hb, hc, hd, hk, hs, hac⟩ := hparts
  simp only [Op.exec, fn_lineOf, ha, hb, hc, hd, hk, hs, hac, hself, hset, hother]
  congr 1
  rw [UInt32.add_comm, rotateLeft]
  simp only [view, Rfc1321.rotate, UInt32.add_assoc]

/-- **One line** is one step, and shifts the names on by one. -/
theorem view_exec (X : Nat → UInt32) (i : Nat) (v : State) :
    view (i + 1) ((lineOf i).exec X v) = Rfc1321.step X (view i v) i := by
  rw [exec_lineOf]
  have hcases : i % 4 = 0 ∨ i % 4 = 1 ∨ i % 4 = 2 ∨ i % 4 = 3 := by omega
  rcases hcases with h | h | h | h
  · have hnext : (i + 1) % 4 = 1 := by omega
    simp only [view, names, h, hnext]
    rfl
  · have hnext : (i + 1) % 4 = 2 := by omega
    simp only [view, names, h, hnext]
    rfl
  · have hnext : (i + 1) % 4 = 3 := by omega
    simp only [view, names, h, hnext]
    rfl
  · have hnext : (i + 1) % 4 = 0 := by omega
    simp only [view, names, h, hnext]
    rfl

/-- The lines do what the steps do, under the names that each line uses. Induction on their
number. -/
theorem view_ops (X : Nat → UInt32) (n : Nat) (v : State) :
    view n (((List.range n).map lineOf).foldl (fun v op => op.exec X v) v)
      = (List.range n).foldl (Rfc1321.step X) (view 0 v) := by
  induction n with
  | zero => rfl
  | succ n ih =>
    rw [List.range_succ, List.map_append, List.foldl_append, List.foldl_append, ← ih]
    exact view_exec X n _

/-! ## Words and bytes -/

/-- Or-ing a byte in above all bits of `x` is adding it. -/
theorem toNat_or_shiftLeft {x y : UInt32} {n : Nat} (hx : x.toNat < 2 ^ n)
    (hy : y.toNat < 256) (hn : n ≤ 24) :
    (x ||| (y <<< UInt32.ofNat n)).toNat = x.toNat + y.toNat * 2 ^ n := by
  have hpow : 2 ^ n ≤ 2 ^ 24 := Nat.pow_le_pow_right (by decide) hn
  have hshift : (UInt32.ofNat n).toNat % 32 = n := by
    rw [UInt32.toNat_ofNat_of_lt' (by simp only [UInt32.size]; omega)]
    omega
  have hfit : y.toNat * 2 ^ n < 2 ^ 32 := by
    calc y.toNat * 2 ^ n < 256 * 2 ^ n := Nat.mul_lt_mul_of_pos_right hy (Nat.two_pow_pos n)
      _ ≤ 256 * 2 ^ 24 := Nat.mul_le_mul_left _ hpow
      _ = 2 ^ 32 := rfl
  rw [UInt32.toNat_or, UInt32.toNat_shiftLeft, hshift, Nat.shiftLeft_eq, Nat.mod_eq_of_lt hfit,
    ← Nat.shiftLeft_eq, Nat.or_comm, ← Nat.shiftLeft_add_eq_or_of_lt hx, Nat.shiftLeft_eq]
  omega

/-- A word is made of four bytes, the lowest first. -/
theorem decodeWord_eq (block : Bytes) (k : Nat) :
    decodeWord block (4 * k) = Rfc1321.word block k := by
  have hbyte : ∀ b : UInt8, b.toUInt32.toNat = b.toNat ∧ b.toUInt32.toNat < 256 := by
    intro b
    have := b.toNat_lt
    rw [UInt8.toNat_toUInt32]
    omega
  rw [← UInt32.toNat_inj, decodeWord, Rfc1321.word]
  generalize block.getD (4 * k) 0 = b₀
  generalize block.getD (4 * k + 1) 0 = b₁
  generalize block.getD (4 * k + 2) 0 = b₂
  generalize block.getD (4 * k + 3) 0 = b₃
  obtain ⟨h₀, hlt₀⟩ := hbyte b₀
  obtain ⟨h₁, hlt₁⟩ := hbyte b₁
  obtain ⟨h₂, hlt₂⟩ := hbyte b₂
  obtain ⟨h₃, hlt₃⟩ := hbyte b₃
  -- each byte comes above the bytes that are there, so `or` is a sum
  have hone := toNat_or_shiftLeft (n := 8) (x := b₀.toUInt32) hlt₀ hlt₁ (by decide)
  have htwo := toNat_or_shiftLeft (n := 16) (x := b₀.toUInt32 ||| b₁.toUInt32 <<< UInt32.ofNat 8)
    (by omega) hlt₂ (by decide)
  have hthree := toNat_or_shiftLeft (n := 24)
    (x := b₀.toUInt32 ||| b₁.toUInt32 <<< UInt32.ofNat 8 ||| b₂.toUInt32 <<< UInt32.ofNat 16)
    (by omega) hlt₃ (by decide)
  rw [UInt32.toNat_ofNat']
  have hsum : (b₀.toUInt32 ||| b₁.toUInt32 <<< 8 ||| b₂.toUInt32 <<< 16
      ||| b₃.toUInt32 <<< 24).toNat = _ := hthree
  rw [hsum]
  omega

/-- A word is written as four bytes, the lowest first. -/
theorem encodeWord_eq (w : UInt32) : encodeWord w = Rfc1321.littleEndian 4 w.toNat := by
  have hbyte : ∀ x : UInt32, (x &&& 0xFF).toUInt8 = UInt8.ofNat (x.toNat % 256) := by
    intro x
    rw [← UInt8.toNat_inj, UInt32.toNat_toUInt8, UInt32.toNat_and, UInt8.toNat_ofNat']
    have hmask : x.toNat &&& (0xFF : UInt32).toNat = x.toNat % 256 :=
      Nat.and_two_pow_sub_one_eq_mod x.toNat 8
    rw [hmask]
  have hshift : ∀ n : Nat, n < 32 → (w >>> UInt32.ofNat n).toNat = w.toNat / 2 ^ n := by
    intro n hn
    rw [UInt32.toNat_shiftRight, UInt32.toNat_ofNat_of_lt' (by simp only [UInt32.size]; omega),
      Nat.mod_eq_of_lt hn, Nat.shiftRight_eq_div_pow]
  have h8 : (w >>> 8).toNat = w.toNat / 2 ^ 8 := hshift 8 (by decide)
  have h16 : (w >>> 16).toNat = w.toNat / 2 ^ 16 := hshift 16 (by decide)
  have h24 : (w >>> 24).toNat = w.toNat / 2 ^ 24 := hshift 24 (by decide)
  simp only [encodeWord, Rfc1321.littleEndian, hbyte, h8, h16, h24, Nat.div_div_eq_div_mul]
  rfl

/-- The two counts are the length in bits. -/
theorem littleEndian_counts (n : Nat) :
    Rfc1321.littleEndian 4 (n % 2 ^ 32) ++ Rfc1321.littleEndian 4 (n / 2 ^ 32 % 2 ^ 32)
      = Rfc1321.littleEndian 8 n := by
  have hlow := Rfc1321.littleEndian_mod 4 n
  have hhigh := Rfc1321.littleEndian_mod 4 (n / 2 ^ 32)
  have hsplit := Rfc1321.littleEndian_add 4 4 n
  have hpow : 256 ^ 4 = 2 ^ 32 := rfl
  rw [hpow] at hlow hhigh hsplit
  rw [hlow, hhigh, hsplit]

/-- The code's compression is that of the specification. -/
theorem view_transform (state : State) (block : Bytes) :
    view 0 (transform state block) = Rfc1321.compress (view 0 state) block := by
  have hview : ∀ v, view 0 v = ⟨v.a, v.b, v.c, v.d⟩ := fun _ => rfl
  have hend : ∀ v, view 64 v = view 0 v := fun _ => rfl
  have hwords : (fun k => decodeWord block (4 * k)) = Rfc1321.word block :=
    funext (decodeWord_eq block)
  have hrun := view_ops (Rfc1321.word block) 64 state
  rw [← ops_eq, hend] at hrun
  simp only [hview] at hrun
  simp only [Rfc1321.compress, transform, hwords, hview, ← hrun]

/-! ## The context -/

/-- The context holds a message. -/
structure Holds (ctx : Ctx) (msg : Bytes) : Prop where
  count0 : ctx.count0.toNat = 8 * msg.length % 2 ^ 32
  count1 : ctx.count1.toNat = 8 * msg.length / 2 ^ 32 % 2 ^ 32
  state : view 0 ctx.state = BlockHash.absorbed Rfc1321.compress 64 Rfc1321.start msg
  length_buffer : ctx.buffer.length = 64
  buffer : ctx.buffer.take (msg.length % 64) = BlockHash.pending 64 msg

theorem holds_init {buffer : Bytes} (h : buffer.length = 64) : Holds (init buffer) [] :=
  ⟨rfl, rfl, by rw [BlockHash.absorbed_nil]; rfl, h, by simp⟩

/-- `index` says how many bytes are pending: the count is in bits. -/
theorem Holds.index {ctx : Ctx} {msg : Bytes} (h : Holds ctx msg) :
    ctx.index = msg.length % 64 := by
  have hmask : ∀ x : Nat, x &&& (0x3F : UInt32).toNat = x % 64 := fun x =>
    Nat.and_two_pow_sub_one_eq_mod x 6
  have hshift : (ctx.count0 >>> 3).toNat = ctx.count0.toNat / 2 ^ 3 := by
    rw [UInt32.toNat_shiftRight]
    exact Nat.shiftRight_eq_div_pow _ _
  rw [Ctx.index, UInt32.toNat_and, hmask, hshift, h.count0]
  omega

/-- The counts of a message that grows by `n` bytes. -/
theorem counts_add {count0 count1 : UInt32} {m n : Nat} (hn : n < 2 ^ 32)
    (h0 : count0.toNat = 8 * m % 2 ^ 32) (h1 : count1.toNat = 8 * m / 2 ^ 32 % 2 ^ 32) :
    let inputlen := UInt32.ofNat n
    (count0 + (inputlen <<< 3)).toNat = 8 * (m + n) % 2 ^ 32
      ∧ ((if count0 + (inputlen <<< 3) < inputlen <<< 3 then count1 + 1 else count1)
          + (inputlen >>> 29)).toNat = 8 * (m + n) / 2 ^ 32 % 2 ^ 32 := by
  intro inputlen
  have hlen : inputlen.toNat = n := UInt32.toNat_ofNat_of_lt' hn
  -- the two shifts as a product and a quotient
  have hleft : (inputlen <<< 3).toNat = 8 * n % 2 ^ 32 := by
    rw [UInt32.toNat_shiftLeft, hlen, Nat.shiftLeft_eq]
    exact congrArg (· % 2 ^ 32) (Nat.mul_comm n (2 ^ 3))
  have hright : (inputlen >>> 29).toNat = n / 2 ^ 29 := by
    rw [UInt32.toNat_shiftRight, hlen]
    exact Nat.shiftRight_eq_div_pow _ _
  have hsum : (count0 + (inputlen <<< 3)).toNat = 8 * (m + n) % 2 ^ 32 := by
    rw [UInt32.toNat_add, h0, hleft]
    omega
  refine ⟨hsum, ?_⟩
  -- the low word has wrapped around, or it has not
  by_cases hcarry : count0 + (inputlen <<< 3) < inputlen <<< 3
  · have hlt : 8 * (m + n) % 2 ^ 32 < 8 * n % 2 ^ 32 := by
      rw [← hsum, ← hleft]
      exact hcarry
    rw [if_pos hcarry, UInt32.toNat_add, UInt32.toNat_add, h1, hright]
    have hone : (1 : UInt32).toNat = 1 := rfl
    omega
  · have hge : 8 * n % 2 ^ 32 ≤ 8 * (m + n) % 2 ^ 32 := by
      rw [← hsum, ← hleft]
      exact Nat.not_lt.mp hcarry
    rw [if_neg hcarry, UInt32.toNat_add, h1, hright]
    omega

/-- The block loop absorbs what lies behind `i`. -/
theorem transformLoop_eq (input : Bytes) {fuel : Nat} (state : State) {i : Nat}
    (hfuel : input.length < i + 64 * (fuel + 1)) :
    view 0 (transformLoop input fuel state i).1
        = BlockHash.absorbed Rfc1321.compress 64 (view 0 state) (input.drop i)
      ∧ input.drop (transformLoop input fuel state i).2 = BlockHash.pending 64 (input.drop i) := by
  induction fuel generalizing state i with
  | zero =>
    have hshort : (input.drop i).length < 64 := by
      rw [List.length_drop]
      omega
    obtain ⟨hstate, hrest⟩ := BlockHash.absorbed_of_lt Rfc1321.compress 64 hshort (view 0 state)
    exact ⟨hstate.symm, hrest.symm⟩
  | succ fuel ih =>
    rw [transformLoop]
    by_cases hmore : i + 64 ≤ input.length
    · have hlong : 64 ≤ (input.drop i).length := by
        rw [List.length_drop]
        omega
      obtain ⟨hstate, hrest⟩ :=
        BlockHash.absorbed_of_le Rfc1321.compress 64 (by decide) hlong (view 0 state)
      rw [if_pos hmore, hstate, hrest, List.drop_drop, ← view_transform]
      exact ih _ (by omega)
    · have hshort : (input.drop i).length < 64 := by
        rw [List.length_drop]
        omega
      obtain ⟨hstate, hrest⟩ :=
        BlockHash.absorbed_of_lt Rfc1321.compress 64 hshort (view 0 state)
      rw [if_neg hmore]
      exact ⟨hstate.symm, hrest.symm⟩

theorem length_memcpy {dst src : Bytes} {index : Nat} (h : index + src.length ≤ dst.length) :
    (memcpy dst index src).length = dst.length := by
  simp only [memcpy, List.length_append, List.length_take, List.length_drop]
  omega

/-- The used part of the buffer behind a copy. -/
theorem take_memcpy (dst src : Bytes) {index : Nat} (h : index ≤ dst.length) :
    (memcpy dst index src).take (index + src.length) = dst.take index ++ src := by
  have hlen : (dst.take index ++ src).length = index + src.length := by
    rw [List.length_append, List.length_take, Nat.min_eq_left h]
  rw [memcpy, ← hlen, List.take_left]

/-- **Update** appends to the message. -/
theorem Holds.update {ctx : Ctx} {msg : Bytes} (h : Holds ctx msg) (input : Bytes)
    (hlen : input.length < 2 ^ 32) : Holds (update ctx input) (msg ++ input) := by
  obtain ⟨hcount0, hcount1⟩ := counts_add hlen h.count0 h.count1
  rw [← List.length_append] at hcount0 hcount1
  have hindex := h.index
  have hbuf := h.length_buffer
  have hmod : msg.length % 64 < 64 := Nat.mod_lt _ (by decide)
  by_cases hfull : 64 - ctx.index ≤ input.length
  · -- the bytes in the buffer are completed to a block
    have htake : (input.take (64 - ctx.index)).length = 64 - ctx.index := by
      rw [List.length_take, Nat.min_eq_left hfull]
    -- the copy fills the buffer
    have hwhole : (memcpy ctx.buffer ctx.index (input.take (64 - ctx.index))).length = 64 := by
      rw [length_memcpy (by omega), hbuf]
    have hblock : memcpy ctx.buffer ctx.index (input.take (64 - ctx.index))
        = BlockHash.pending 64 msg ++ input.take (64 - ctx.index) := by
      have hall := take_memcpy ctx.buffer (input.take (64 - ctx.index))
        (by omega : ctx.index ≤ ctx.buffer.length)
      rw [htake, Nat.add_sub_cancel' (by omega), List.take_of_length_le (Nat.le_of_eq hwhole)]
        at hall
      rw [hall, hindex, h.buffer]
    obtain ⟨habsorbed, hpending⟩ := BlockHash.absorbed_append_of_complete Rfc1321.compress
      (by omega : msg.length % 64 + (64 - ctx.index) = 64) hfull (by decide) Rfc1321.start
    -- the loop takes the whole blocks behind it
    obtain ⟨hstate, hrest⟩ := transformLoop_eq input
      (transform ctx.state (memcpy ctx.buffer ctx.index (input.take (64 - ctx.index))))
      (by omega : input.length < 64 - ctx.index + 64 * (input.length + 1))
    rw [view_transform, hblock, h.state, ← habsorbed] at hstate
    rw [← hpending, hblock] at hrest
    have hlast : (BlockHash.pending 64 (msg ++ input)).length = (msg ++ input).length % 64 :=
      BlockHash.length_pending 64 _
    rw [hblock] at hwhole
    unfold Md5.update
    simp only [if_pos hfull, hblock, hrest]
    refine ⟨hcount0, hcount1, hstate, ?_, ?_⟩
    · simp only
      rw [length_memcpy (by omega), hwhole]
    · simp only
      rw [← hlast]
      have := take_memcpy (BlockHash.pending 64 msg ++ input.take (64 - ctx.index))
        (BlockHash.pending 64 (msg ++ input)) (Nat.zero_le _)
      simpa using this
  · -- the bytes fit into the buffer
    obtain ⟨habsorbed, hpending⟩ := BlockHash.absorbed_append_of_lt Rfc1321.compress
      (by omega : msg.length % 64 + input.length < 64) Rfc1321.start
    have hnext : (msg ++ input).length % 64 = msg.length % 64 + input.length := by
      rw [List.length_append]
      omega
    unfold Md5.update
    simp only [if_neg hfull]
    refine ⟨hcount0, hcount1, by rw [habsorbed]; exact h.state, ?_, ?_⟩
    · simp only
      rw [length_memcpy (by omega), hbuf]
    · simp only
      rw [hnext, hpending, ← h.buffer, hindex, take_memcpy _ _ (by omega)]

/-! ## The digest -/

/-- The front of the padding is a one bit and zeros. -/
theorem take_padding {n : Nat} (hpos : 0 < n) (hle : n ≤ 64) :
    padding.take n = 0x80 :: List.replicate (n - 1) 0 := by
  obtain ⟨n, rfl⟩ : ∃ k, n = k + 1 := ⟨n - 1, by omega⟩
  rw [padding, List.take_succ_cons, List.take_replicate, Nat.min_eq_left (by omega)]
  rfl

/-- **Final** pads the message and returns its digest. -/
theorem Holds.final {ctx : Ctx} {msg : Bytes} (h : Holds ctx msg) :
    final ctx = Rfc1321.md5 msg := by
  have hindex := h.index
  have hmod : msg.length % 64 < 64 := Nat.mod_lt _ (by decide)
  obtain ⟨padlen, hpadlen⟩ : ∃ n, n = if ctx.index < 56 then 56 - ctx.index else 120 - ctx.index :=
    ⟨_, rfl⟩
  -- the padding reaches up to the last eight bytes of a block
  have hrange : 0 < padlen ∧ padlen ≤ 64 ∧ padlen - 1 = (119 - msg.length % 64) % 64 := by
    rw [hpadlen]
    split <;> omega
  have hbits : encodeWord ctx.count0 ++ encodeWord ctx.count1
      = Rfc1321.littleEndian 8 (8 * msg.length) := by
    rw [encodeWord_eq, encodeWord_eq, h.count0, h.count1, littleEndian_counts]
  have hpad : msg ++ padding.take padlen ++ Rfc1321.littleEndian 8 (8 * msg.length)
      = Rfc1321.pad msg := by
    rw [take_padding hrange.1 hrange.2.1, hrange.2.2]
    rfl
  -- two updates: the padding, then the length
  have hfirst := h.update (padding.take padlen) (by
    rw [List.length_take]
    omega)
  have hsecond := hfirst.update (Rfc1321.littleEndian 8 (8 * msg.length)) (by
    rw [Rfc1321.length_littleEndian]
    decide)
  rw [hpad] at hsecond
  have hdigest : Md5.final ctx
      = (let ctx := Md5.update (Md5.update ctx (padding.take padlen))
          (encodeWord ctx.count0 ++ encodeWord ctx.count1)
        encodeWord ctx.state.a ++ encodeWord ctx.state.b ++ encodeWord ctx.state.c
          ++ encodeWord ctx.state.d) := by
    rw [hpadlen]
    rfl
  rw [hdigest, hbits, Rfc1321.md5, ← hsecond.state]
  simp only [encodeWord_eq]
  rfl

end Iceberg.Md5
