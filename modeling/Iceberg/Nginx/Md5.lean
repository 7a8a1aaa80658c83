import Iceberg.Proxy.Md5Lemmas

/-!
# The digest of the consistent hash (`md5.c`, `conhash_util.c`)

The server's second implementation of MD5, which the consistent hash uses. It writes the table
with complements, copies no block that it can read in place, and pads in one call. The state has
the fields of the other one's context, so what a context holds is said in the same words.
-/

namespace Iceberg.Nginx

open Iceberg.Md5 (Var Fn Op Ctx)

/-! ## One block -/

/-- `T_MASK`. -/
def tMask : UInt32 := ~~~0

/-- `T1` to `T64`. -/
def md5Table : List UInt32 :=
  [tMask ^^^ 0x28955b87, tMask ^^^ 0x173848a9, 0x242070db, tMask ^^^ 0x3e423111,
   tMask ^^^ 0x0a83f050, 0x4787c62a, tMask ^^^ 0x57cfb9ec, tMask ^^^ 0x02b96afe,
   0x698098d8, tMask ^^^ 0x74bb0850, tMask ^^^ 0x0000a44e, tMask ^^^ 0x76a32841,
   0x6b901122, tMask ^^^ 0x02678e6c, tMask ^^^ 0x5986bc71, 0x49b40821,
   tMask ^^^ 0x09e1da9d, tMask ^^^ 0x3fbf4cbf, 0x265e5a51, tMask ^^^ 0x16493855,
   tMask ^^^ 0x29d0efa2, 0x02441453, tMask ^^^ 0x275e197e, tMask ^^^ 0x182c0437,
   0x21e1cde6, tMask ^^^ 0x3cc8f829, tMask ^^^ 0x0b2af278, 0x455a14ed,
   tMask ^^^ 0x561c16fa, tMask ^^^ 0x03105c07, 0x676f02d9, tMask ^^^ 0x72d5b375,
   tMask ^^^ 0x0005c6bd, tMask ^^^ 0x788e097e, 0x6d9d6122, tMask ^^^ 0x021ac7f3,
   tMask ^^^ 0x5b4115bb, 0x4bdecfa9, tMask ^^^ 0x0944b49f, tMask ^^^ 0x4140438f,
   0x289b7ec6, tMask ^^^ 0x155ed805, tMask ^^^ 0x2b10cf7a, 0x04881d05,
   tMask ^^^ 0x262b2fc6, tMask ^^^ 0x1924661a, 0x1fa27cf8, tMask ^^^ 0x3b53a99a,
   tMask ^^^ 0x0bd6ddbb, 0x432aff97, tMask ^^^ 0x546bdc58, tMask ^^^ 0x036c5fc6,
   0x655b59c3, tMask ^^^ 0x70f3336d, tMask ^^^ 0x00100b82, tMask ^^^ 0x7a7ba22e,
   0x6fa87e4f, tMask ^^^ 0x01d3191f, tMask ^^^ 0x5cfebceb, 0x4e0811a1,
   tMask ^^^ 0x08ac817d, tMask ^^^ 0x42c50dca, 0x2ad7d2bb, tMask ^^^ 0x14792c6e]

/-- `Ti`, counted from one. -/
def md5T (i : Nat) : UInt32 := md5Table.getD (i - 1) 0

/-- A line `SET(a, b, c, d, k, s, Ti)` in the round of `fn`. -/
def setLine (fn : Fn) (va vb vc vd : Var) (k : Nat) (s : UInt32) (i : Nat) : Op :=
  ⟨fn, va, vb, vc, vd, k, s, md5T i⟩

/-- The two statements that a line expands to. -/
def execSet (op : Op) (X : Nat → UInt32) (v : Md5.State) : Md5.State :=
  let t := v.get op.a + op.fn.apply (v.get op.b) (v.get op.c) (v.get op.d) + X op.k + op.ac
  v.set (Md5.rotateLeft t op.s + v.get op.b) op.a

/-- The lines of `md5_process`. -/
def setLines : List Op :=
  [setLine .F .a .b .c .d 0 7 1,
   setLine .F .d .a .b .c 1 12 2,
   setLine .F .c .d .a .b 2 17 3,
   setLine .F .b .c .d .a 3 22 4,
   setLine .F .a .b .c .d 4 7 5,
   setLine .F .d .a .b .c 5 12 6,
   setLine .F .c .d .a .b 6 17 7,
   setLine .F .b .c .d .a 7 22 8,
   setLine .F .a .b .c .d 8 7 9,
   setLine .F .d .a .b .c 9 12 10,
   setLine .F .c .d .a .b 10 17 11,
   setLine .F .b .c .d .a 11 22 12,
   setLine .F .a .b .c .d 12 7 13,
   setLine .F .d .a .b .c 13 12 14,
   setLine .F .c .d .a .b 14 17 15,
   setLine .F .b .c .d .a 15 22 16,
   -- round 2
   setLine .G .a .b .c .d 1 5 17,
   setLine .G .d .a .b .c 6 9 18,
   setLine .G .c .d .a .b 11 14 19,
   setLine .G .b .c .d .a 0 20 20,
   setLine .G .a .b .c .d 5 5 21,
   setLine .G .d .a .b .c 10 9 22,
   setLine .G .c .d .a .b 15 14 23,
   setLine .G .b .c .d .a 4 20 24,
   setLine .G .a .b .c .d 9 5 25,
   setLine .G .d .a .b .c 14 9 26,
   setLine .G .c .d .a .b 3 14 27,
   setLine .G .b .c .d .a 8 20 28,
   setLine .G .a .b .c .d 13 5 29,
   setLine .G .d .a .b .c 2 9 30,
   setLine .G .c .d .a .b 7 14 31,
   setLine .G .b .c .d .a 12 20 32,
   -- round 3
   setLine .H .a .b .c .d 5 4 33,
   setLine .H .d .a .b .c 8 11 34,
   setLine .H .c .d .a .b 11 16 35,
   setLine .H .b .c .d .a 14 23 36,
   setLine .H .a .b .c .d 1 4 37,
   setLine .H .d .a .b .c 4 11 38,
   setLine .H .c .d .a .b 7 16 39,
   setLine .H .b .c .d .a 10 23 40,
   setLine .H .a .b .c .d 13 4 41,
   setLine .H .d .a .b .c 0 11 42,
   setLine .H .c .d .a .b 3 16 43,
   setLine .H .b .c .d .a 6 23 44,
   setLine .H .a .b .c .d 9 4 45,
   setLine .H .d .a .b .c 12 11 46,
   setLine .H .c .d .a .b 15 16 47,
   setLine .H .b .c .d .a 2 23 48,
   -- round 4
   setLine .I .a .b .c .d 0 6 49,
   setLine .I .d .a .b .c 7 10 50,
   setLine .I .c .d .a .b 14 15 51,
   setLine .I .b .c .d .a 5 21 52,
   setLine .I .a .b .c .d 12 6 53,
   setLine .I .d .a .b .c 3 10 54,
   setLine .I .c .d .a .b 10 15 55,
   setLine .I .b .c .d .a 1 21 56,
   setLine .I .a .b .c .d 8 6 57,
   setLine .I .d .a .b .c 15 10 58,
   setLine .I .c .d .a .b 6 15 59,
   setLine .I .b .c .d .a 13 21 60,
   setLine .I .a .b .c .d 4 6 61,
   setLine .I .d .a .b .c 11 10 62,
   setLine .I .c .d .a .b 2 15 63,
   setLine .I .b .c .d .a 9 21 64]

/-- `xbuf[i]` of a block; a little-endian machine reads the same word in place. -/
def xWord (data : Bytes) (i : Nat) : UInt32 :=
  (data.getD (4 * i) 0).toUInt32 + ((data.getD (4 * i + 1) 0).toUInt32 <<< 8)
    + ((data.getD (4 * i + 2) 0).toUInt32 <<< 16) + ((data.getD (4 * i + 3) 0).toUInt32 <<< 24)

/-- `md5_process`. -/
def md5Process (abcd : Md5.State) (data : Bytes) : Md5.State :=
  let v := setLines.foldl (fun v op => execSet op (xWord data) v) abcd
  { a := abcd.a + v.a, b := abcd.b + v.b, c := abcd.c + v.c, d := abcd.d + v.d }

/-! ## The state -/

/-- `md5_init`, on a state whose buffer holds `buf`. -/
def md5Init (buf : Bytes) : Ctx :=
  { count0 := 0
    count1 := 0
    state := { a := 0x67452301, b := tMask ^^^ 0x10325476, c := tMask ^^^ 0x67452301
               d := 0x10325476 }
    buffer := buf }

/-- The full blocks from `p` on, and what is left behind them. -/
def fullBlocks : Nat → Md5.State → Bytes → Md5.State × Bytes
  | 0, abcd, p => (abcd, p)
  | fuel + 1, abcd, p =>
    if 64 ≤ p.length then fullBlocks fuel (md5Process abcd (p.take 64)) (p.drop 64) else (abcd, p)

/-- The part of `md5_append` behind the initial partial block. -/
def appendBlocks (pms : Ctx) (p : Bytes) : Ctx :=
  let (abcd, p) := fullBlocks p.length pms.state p
  { pms with
    state := abcd
    buffer := if p.length ≠ 0 then Md5.memcpy pms.buffer 0 p else pms.buffer }

/-- `md5_append`, which reads `nbytes` bytes of `data`. -/
def md5Append (pms : Ctx) (data : Bytes) (nbytes : Int) : Ctx :=
  let data := data.take nbytes.toNat
  let offset := ((pms.count0 >>> 3) &&& 63).toNat
  let nbits := UInt32.ofNat nbytes.toNat <<< 3
  if nbytes ≤ 0 then pms
  else
    let count1 := pms.count1 + (UInt32.ofNat nbytes.toNat >>> 29)
    let count0 := pms.count0 + nbits
    let count1 := if count0 < nbits then count1 + 1 else count1
    let pms := { pms with count0 := count0, count1 := count1 }
    if offset ≠ 0 then
      let copy := if offset + data.length > 64 then 64 - offset else data.length
      let buf := Md5.memcpy pms.buffer offset (data.take copy)
      if offset + copy < 64 then { pms with buffer := buf }
      else
        appendBlocks { pms with buffer := buf, state := md5Process pms.state buf } (data.drop copy)
    else appendBlocks pms data

/-- `(md5_byte_t)(w[i >> 2] >> ((i & 3) << 3))`. -/
def byteAt (w : Nat → UInt32) (i : Nat) : UInt8 :=
  (w (i >>> 2) >>> UInt32.ofNat ((i &&& 3) <<< 3)).toUInt8

/-- `md5_finish`: the digest. -/
def md5Finish (pms : Ctx) : Bytes :=
  let count : Nat → UInt32
    | 0 => pms.count0
    | _ => pms.count1
  let data := (List.range 8).map (byteAt count)
  let padlen : UInt32 := (((55 : UInt32) - (pms.count0 >>> 3)) &&& 63) + 1
  let pms := md5Append pms Md5.padding padlen.toNat
  let pms := md5Append pms data 8
  let abcd : Nat → UInt32
    | 0 => pms.state.a
    | 1 => pms.state.b
    | 2 => pms.state.c
    | _ => pms.state.d
  (List.range 16).map (byteAt abcd)

/-- `conhash_md5_digest`; `buf` is what the buffer of the state holds before. -/
def conhashMd5Digest (buf instr : Bytes) : Bytes :=
  let instr := cstr instr
  md5Finish (md5Append (md5Init buf) instr ((instr.length : Int).bmod (2 ^ 32)))

/-! ## It is MD5 -/

theorem setLines_eq : setLines = Md5.ops := by decide +kernel

/-- A line of the library does what the step of the other one does. -/
theorem execSet_eq {op : Op} (h : op.b ≠ op.a) (X : Nat → UInt32) (v : Md5.State) :
    execSet op X v = op.exec X v := by
  have hset : ∀ (v : Md5.State) (x y : UInt32) (r : Var), (v.set x r).set y r = v.set y r := by
    intro v x y r
    cases r <;> rfl
  have hself : ∀ (v : Md5.State) (x : UInt32) (r : Var), (v.set x r).get r = x := by
    intro v x r
    cases r <;> rfl
  have hother : ∀ (v : Md5.State) (x : UInt32), (v.set x op.a).get op.b = v.get op.b := by
    intro v x
    cases ha : op.a <;> cases hb : op.b <;> first | rfl | exact absurd (hb.trans ha.symm) h
  simp only [execSet, Op.exec, hset, hself, hother, UInt32.add_assoc]

/-- Adding a byte above all bits of `x` is or-ing it in. -/
theorem add_shiftLeft_eq_or {x : UInt32} {b : UInt8} {n : Nat} (hx : x.toNat < 2 ^ n)
    (hn : n ≤ 24) :
    x + (b.toUInt32 <<< UInt32.ofNat n) = x ||| (b.toUInt32 <<< UInt32.ofNat n) := by
  have hb : b.toUInt32.toNat < 256 := by
    rw [UInt8.toNat_toUInt32]
    exact b.toNat_lt
  have hzero : (0 : UInt32).toNat < 2 ^ n := Nat.two_pow_pos n
  have hor := Md5.toNat_or_shiftLeft hx hb hn
  have hshift := Md5.toNat_or_shiftLeft hzero hb hn
  rw [UInt32.zero_or] at hshift
  have hlt := (x ||| (b.toUInt32 <<< UInt32.ofNat n)).toNat_lt
  apply UInt32.toNat_inj.mp
  rw [UInt32.toNat_add, hshift, hor]
  rw [hor] at hlt
  have hz : (0 : UInt32).toNat = 0 := rfl
  omega

/-- A word is made of four bytes, the lowest first. -/
theorem xWord_eq (data : Bytes) (i : Nat) : xWord data i = Md5.decodeWord data (4 * i) := by
  have hbyte : ∀ b : UInt8, b.toUInt32.toNat < 256 := by
    intro b
    rw [UInt8.toNat_toUInt32]
    exact b.toNat_lt
  rw [xWord, Md5.decodeWord]
  generalize data.getD (4 * i) 0 = b₀
  generalize data.getD (4 * i + 1) 0 = b₁
  generalize data.getD (4 * i + 2) 0 = b₂
  generalize data.getD (4 * i + 3) 0 = b₃
  have h₁ := Md5.toNat_or_shiftLeft (n := 8) (x := b₀.toUInt32) (hbyte b₀) (hbyte b₁) (by decide)
  have hlt₀ := hbyte b₀
  have hlt₁ := hbyte b₁
  have hlt₂ := hbyte b₂
  have h₂ := Md5.toNat_or_shiftLeft (n := 16) (x := b₀.toUInt32 ||| b₁.toUInt32 <<< UInt32.ofNat 8)
    (by omega) (hbyte b₂) (by decide)
  -- each byte comes above the bytes that are there, so a sum is an `or`
  have hone : b₀.toUInt32 + (b₁.toUInt32 <<< 8) = b₀.toUInt32 ||| (b₁.toUInt32 <<< 8) :=
    add_shiftLeft_eq_or (n := 8) hlt₀ (by decide)
  have htwo : (b₀.toUInt32 ||| b₁.toUInt32 <<< 8) + (b₂.toUInt32 <<< 16)
      = b₀.toUInt32 ||| b₁.toUInt32 <<< 8 ||| b₂.toUInt32 <<< 16 :=
    add_shiftLeft_eq_or (n := 16) (h₁ ▸ by omega) (by decide)
  have hthree : (b₀.toUInt32 ||| b₁.toUInt32 <<< 8 ||| b₂.toUInt32 <<< 16)
        + (b₃.toUInt32 <<< 24)
      = b₀.toUInt32 ||| b₁.toUInt32 <<< 8 ||| b₂.toUInt32 <<< 16 ||| b₃.toUInt32 <<< 24 :=
    add_shiftLeft_eq_or (n := 24) (h₂ ▸ h₁ ▸ by omega) (by decide)
  rw [hone, htwo, hthree]

/-- **A block** is compressed as by the other library: line by line the same operations. -/
theorem md5Process_eq (abcd : Md5.State) (data : Bytes) :
    md5Process abcd data = Md5.transform abcd data := by
  have hlines : ∀ (l : List Op) (v : Md5.State), (∀ op ∈ l, op.b ≠ op.a) →
      l.foldl (fun v op => execSet op (xWord data) v) v
        = l.foldl (fun v op => op.exec (fun k => Md5.decodeWord data (4 * k)) v) v := by
    intro l v h
    have hwords : xWord data = fun k => Md5.decodeWord data (4 * k) := funext (xWord_eq data)
    induction l generalizing v with
    | nil => rfl
    | cons op l ih =>
      rw [List.foldl_cons, List.foldl_cons, execSet_eq (h op List.mem_cons_self), hwords]
      rw [hwords] at ih
      exact ih _ fun op hop => h op (List.mem_cons_of_mem _ hop)
  have hrun := hlines Md5.ops abcd (by decide +kernel)
  simp only [md5Process, setLines_eq, hrun, Md5.transform]

/-- **The loop over full blocks** absorbs them, and leaves the pending bytes. Induction on the
rounds. -/
theorem fullBlocks_eq {fuel : Nat} (abcd : Md5.State) {p : Bytes}
    (hfuel : p.length < 64 * (fuel + 1)) :
    Md5.view 0 (fullBlocks fuel abcd p).1
        = BlockHash.absorbed Rfc1321.compress 64 (Md5.view 0 abcd) p
      ∧ (fullBlocks fuel abcd p).2 = BlockHash.pending 64 p := by
  induction fuel generalizing abcd p with
  | zero =>
    have hshort : p.length < 64 := by omega
    obtain ⟨hstate, hrest⟩ :=
      BlockHash.absorbed_of_lt Rfc1321.compress 64 hshort (Md5.view 0 abcd)
    exact ⟨hstate.symm, hrest.symm⟩
  | succ fuel ih =>
    rw [fullBlocks]
    -- a whole block is absorbed, and the loop goes on behind it
    by_cases hmore : 64 ≤ p.length
    · obtain ⟨hstate, hrest⟩ :=
        BlockHash.absorbed_of_le Rfc1321.compress 64 (by decide) hmore (Md5.view 0 abcd)
      have hdrop : (p.drop 64).length < 64 * (fuel + 1) := by
        rw [List.length_drop]
        omega
      rw [if_pos hmore, hstate, hrest, ← Md5.view_transform, ← md5Process_eq]
      exact ih _ hdrop
    · obtain ⟨hstate, hrest⟩ := BlockHash.absorbed_of_lt Rfc1321.compress 64
        (Nat.lt_of_not_le hmore) (Md5.view 0 abcd)
      rw [if_neg hmore]
      exact ⟨hstate.symm, hrest.symm⟩

/-- The blocks behind a whole number of blocks. -/
theorem holds_appendBlocks {pms : Ctx} {msg p : Bytes}
    (hcount0 : pms.count0.toNat = 8 * (msg ++ p).length % 2 ^ 32)
    (hcount1 : pms.count1.toNat = 8 * (msg ++ p).length / 2 ^ 32 % 2 ^ 32)
    (hstate : Md5.view 0 pms.state
      = BlockHash.absorbed Rfc1321.compress 64 Rfc1321.start msg)
    (hbuffer : pms.buffer.length = 64) (hwhole : msg.length % 64 = 0) :
    Md5.Holds (appendBlocks pms p) (msg ++ p) := by
  obtain ⟨habsorbed, hpending⟩ :=
    BlockHash.absorbed_append_of_whole Rfc1321.compress hwhole (by decide) p Rfc1321.start
  obtain ⟨hblocks, hrest⟩ := fullBlocks_eq pms.state (by omega : p.length < 64 * (p.length + 1))
  rw [hstate, ← habsorbed] at hblocks
  rw [← hpending] at hrest
  have hlast : (BlockHash.pending 64 (msg ++ p)).length = (msg ++ p).length % 64 :=
    BlockHash.length_pending 64 _
  have hmod : (msg ++ p).length % 64 < 64 := Nat.mod_lt _ (by decide)
  -- what is left of the input goes to the start of the buffer
  refine ⟨hcount0, hcount1, hblocks, ?_, ?_⟩
  · show (if _ ≠ 0 then _ else _ : Bytes).length = 64
    rw [hrest]
    split
    · rw [Md5.length_memcpy (by omega), hbuffer]
    · exact hbuffer
  · show (if _ ≠ 0 then _ else _ : Bytes).take _ = _
    rw [hrest]
    split
    · have htake := Md5.take_memcpy pms.buffer (BlockHash.pending 64 (msg ++ p)) (Nat.zero_le _)
      rw [Nat.zero_add, hlast] at htake
      exact htake
    · next hnone =>
      rw [not_not] at hnone
      rw [← hlast, hnone, List.eq_nil_of_length_eq_zero hnone, List.take_zero]

/-- **`md5_append`** appends to the message. -/
theorem holds_append {pms : Ctx} {msg : Bytes} (h : Md5.Holds pms msg) (input : Bytes)
    (nbytes : Int) (hlen : nbytes = input.length) (hshort : input.length < 2 ^ 32) :
    Md5.Holds (md5Append pms input nbytes) (msg ++ input) := by
  have hnat : nbytes.toNat = input.length := by omega
  have hall : input.take nbytes.toNat = input := List.take_of_length_le (by omega)
  have hoffset : ((pms.count0 >>> 3) &&& 63).toNat = msg.length % 64 := h.index
  have hmod : msg.length % 64 < 64 := Nat.mod_lt _ (by decide)
  have hbuf := h.length_buffer
  obtain ⟨hcount0, hcount1⟩ := Md5.counts_add hshort h.count0 h.count1
  rw [← List.length_append] at hcount0 hcount1
  -- the carry is added last
  have hcarry : ∀ c k : UInt32, ∀ P : Prop, [Decidable P] →
      (if P then c + 1 else c) + k = if P then c + k + 1 else c + k := by
    intro c k P _
    split
    · rw [UInt32.add_assoc, UInt32.add_comm 1 k, ← UInt32.add_assoc]
    · rfl
  rw [hcarry] at hcount1
  rw [md5Append, hall, hnat, hoffset]
  by_cases hnone : nbytes ≤ 0
  · -- nothing to append
    have hnil : input = [] := List.eq_nil_of_length_eq_zero (by omega)
    rw [if_pos hnone, hnil, List.append_nil]
    exact h
  · rw [if_neg hnone]
    by_cases hstarted : msg.length % 64 ≠ 0
    · simp only [if_pos hstarted]
      by_cases hfull : 64 ≤ msg.length % 64 + input.length
      · -- the bytes in the buffer are completed to a block
        have hcopy : (if msg.length % 64 + input.length > 64 then 64 - msg.length % 64
            else input.length) = 64 - msg.length % 64 := by
          split <;> omega
        have hdone : ¬msg.length % 64 + (64 - msg.length % 64) < 64 := by omega
        rw [hcopy, if_neg hdone]
        have htake : (input.take (64 - msg.length % 64)).length = 64 - msg.length % 64 := by
          rw [List.length_take]
          omega
        -- the buffer is then the pending bytes and the first ones of the input
        have hblock : Md5.memcpy pms.buffer (msg.length % 64)
              (input.take (64 - msg.length % 64))
            = BlockHash.pending 64 msg ++ input.take (64 - msg.length % 64) := by
          have hfits : msg.length % 64 + (input.take (64 - msg.length % 64)).length
              ≤ pms.buffer.length := by omega
          have hwhole := Md5.length_memcpy hfits
          have hcopied := Md5.take_memcpy pms.buffer (input.take (64 - msg.length % 64))
            (by omega : msg.length % 64 ≤ pms.buffer.length)
          rw [htake, Nat.add_sub_cancel' (by omega), List.take_of_length_le (by omega)] at hcopied
          rw [hcopied, h.buffer]
        obtain ⟨habsorbed, -⟩ := BlockHash.absorbed_append_of_complete Rfc1321.compress
          (by omega : msg.length % 64 + (64 - msg.length % 64) = 64) (Nat.le_of_eq htake.symm)
          (by decide) Rfc1321.start
        rw [List.take_take, Nat.min_self, List.drop_eq_nil_of_le (by omega),
          BlockHash.absorbed_nil] at habsorbed
        -- the rest is appended behind a whole number of blocks
        have hsplit : msg ++ input
            = (msg ++ input.take (64 - msg.length % 64)) ++ input.drop (64 - msg.length % 64) := by
          rw [List.append_assoc, List.take_append_drop]
        rw [hsplit] at hcount0 hcount1 ⊢
        apply holds_appendBlocks hcount0 hcount1
        · show Md5.view 0 (md5Process pms.state _) = _
          rw [md5Process_eq, Md5.view_transform, hblock, h.state, habsorbed]
        · show (Md5.memcpy _ _ _).length = 64
          rw [Md5.length_memcpy (by omega), hbuf]
        · rw [List.length_append, htake]
          omega
      · -- the bytes fit into the buffer
        have hcopy : (if msg.length % 64 + input.length > 64 then 64 - msg.length % 64
            else input.length) = input.length := by
          split <;> omega
        rw [hcopy, if_pos (by omega), List.take_length]
        obtain ⟨habsorbed, hpending⟩ := BlockHash.absorbed_append_of_lt Rfc1321.compress
          (by omega : msg.length % 64 + input.length < 64) Rfc1321.start
        have hnext : (msg ++ input).length % 64 = msg.length % 64 + input.length := by
          rw [List.length_append]
          omega
        refine ⟨hcount0, hcount1, h.state.trans habsorbed.symm, ?_, ?_⟩
        · show (Md5.memcpy _ _ _).length = 64
          rw [Md5.length_memcpy (by omega), hbuf]
        · show (Md5.memcpy _ _ _).take _ = _
          rw [hnext, hpending, ← h.buffer, Md5.take_memcpy _ _ (by omega)]
    · -- nothing is pending, and the input starts a block of its own
      rw [not_not] at hstarted
      simp only [hstarted, ne_eq, not_true_eq_false, if_false]
      exact holds_appendBlocks hcount0 hcount1 h.state hbuf hstarted

/-- The bytes of a word, by shifts and casts. -/
theorem encodeWord_eq_shifts (x : UInt32) :
    [(x >>> 0).toUInt8, (x >>> 8).toUInt8, (x >>> 16).toUInt8, (x >>> 24).toUInt8]
      = Md5.encodeWord x := by
  have hmask : ∀ y : UInt32, (y &&& 0xFF).toUInt8 = y.toUInt8 := by
    intro y
    apply UInt8.toNat_inj.mp
    have hand : y.toNat &&& (0xFF : UInt32).toNat = y.toNat % 2 ^ 8 :=
      Nat.and_two_pow_sub_one_eq_mod y.toNat 8
    rw [UInt32.toNat_toUInt8, UInt32.toNat_toUInt8, UInt32.toNat_and, hand, Nat.mod_mod]
  rw [Md5.encodeWord, hmask, hmask, hmask, hmask, UInt32.shiftRight_zero]

/-- **`md5_finish`** pads the message and returns its digest. -/
theorem md5Finish_eq {pms : Ctx} {msg : Bytes} (h : Md5.Holds pms msg) :
    md5Finish pms = Rfc1321.md5 msg := by
  have hmod : msg.length % 64 < 64 := Nat.mod_lt _ (by decide)
  let padlen : UInt32 := (((55 : UInt32) - (pms.count0 >>> 3)) &&& 63) + 1
  -- the padding the code takes is that of the specification
  have hpadlen : padlen.toNat = (119 - msg.length % 64) % 64 + 1 := by
    have hmask : ∀ x : UInt32, (x &&& 63).toNat = x.toNat % 64 := by
      intro x
      rw [UInt32.toNat_and]
      exact Nat.and_two_pow_sub_one_eq_mod x.toNat 6
    have hshift : (pms.count0 >>> 3).toNat = pms.count0.toNat / 2 ^ 3 := by
      rw [UInt32.toNat_shiftRight]
      exact Nat.shiftRight_eq_div_pow _ _
    have hconst : (55 : UInt32).toNat = 55 ∧ (1 : UInt32).toNat = 1 := ⟨rfl, rfl⟩
    show ((_ &&& 63) + 1 : UInt32).toNat = _
    rw [UInt32.toNat_add, hmask, UInt32.toNat_sub, hshift, h.count0, hconst.1, hconst.2]
    omega
  have hbits : Md5.encodeWord pms.count0 ++ Md5.encodeWord pms.count1
      = Rfc1321.littleEndian 8 (8 * msg.length) := by
    rw [Md5.encodeWord_eq, Md5.encodeWord_eq, h.count0, h.count1, Md5.littleEndian_counts]
  have hpad : msg ++ Md5.padding.take padlen.toNat ++ Rfc1321.littleEndian 8 (8 * msg.length)
      = Rfc1321.pad msg := by
    rw [Md5.take_padding (by omega) (by omega), hpadlen]
    rfl
  -- the two calls of `md5_append`: the padding, then the length
  have hfirst : Md5.Holds (md5Append pms Md5.padding padlen.toNat)
      (msg ++ Md5.padding.take padlen.toNat) := by
    have hlength : (Md5.padding.take padlen.toNat).length = padlen.toNat := by
      rw [List.length_take]
      exact Nat.min_eq_left (by rw [hpadlen]; show _ ≤ 64; omega)
    have happend := holds_append h (Md5.padding.take padlen.toNat) padlen.toNat
      (by rw [hlength]) (by omega)
    rwa [md5Append, Int.toNat_natCast, List.take_take, Nat.min_self] at happend
  have hsecond := holds_append hfirst (Rfc1321.littleEndian 8 (8 * msg.length)) 8
    (by rw [Rfc1321.length_littleEndian]; rfl) (by rw [Rfc1321.length_littleEndian]; decide)
  rw [hpad] at hsecond
  have hdata : Md5.encodeWord pms.count0 ++ Md5.encodeWord pms.count1
      = [(pms.count0 >>> 0).toUInt8, (pms.count0 >>> 8).toUInt8, (pms.count0 >>> 16).toUInt8,
          (pms.count0 >>> 24).toUInt8]
        ++ [(pms.count1 >>> 0).toUInt8, (pms.count1 >>> 8).toUInt8, (pms.count1 >>> 16).toUInt8,
          (pms.count1 >>> 24).toUInt8] := by
    rw [encodeWord_eq_shifts, encodeWord_eq_shifts]
  rw [← hbits, hdata] at hsecond
  -- what the loop over the digest writes
  have hdigest : md5Finish pms
      = (let abcd := (md5Append (md5Append pms Md5.padding padlen.toNat)
          ([(pms.count0 >>> 0).toUInt8, (pms.count0 >>> 8).toUInt8, (pms.count0 >>> 16).toUInt8,
            (pms.count0 >>> 24).toUInt8]
          ++ [(pms.count1 >>> 0).toUInt8, (pms.count1 >>> 8).toUInt8,
            (pms.count1 >>> 16).toUInt8, (pms.count1 >>> 24).toUInt8]) 8).state
        [(abcd.a >>> 0).toUInt8, (abcd.a >>> 8).toUInt8, (abcd.a >>> 16).toUInt8,
          (abcd.a >>> 24).toUInt8]
        ++ [(abcd.b >>> 0).toUInt8, (abcd.b >>> 8).toUInt8, (abcd.b >>> 16).toUInt8,
          (abcd.b >>> 24).toUInt8]
        ++ [(abcd.c >>> 0).toUInt8, (abcd.c >>> 8).toUInt8, (abcd.c >>> 16).toUInt8,
          (abcd.c >>> 24).toUInt8]
        ++ [(abcd.d >>> 0).toUInt8, (abcd.d >>> 8).toUInt8, (abcd.d >>> 16).toUInt8,
          (abcd.d >>> 24).toUInt8]) := rfl
  rw [hdigest, Rfc1321.md5, ← hsecond.state]
  simp only [encodeWord_eq_shifts, Md5.encodeWord_eq]
  rfl

/-- The first context holds the empty message. -/
theorem holds_md5Init {buf : Bytes} (h : buf.length = 64) : Md5.Holds (md5Init buf) [] := by
  have hinit : md5Init buf = Md5.init buf := by
    have hb : tMask ^^^ 0x10325476 = 0xEFCDAB89 := by decide
    have hc : tMask ^^^ 0x67452301 = 0x98BADCFE := by decide
    rw [md5Init, hb, hc]
    rfl
  rw [hinit]
  exact Md5.holds_init h

/-- After one call for each piece the context stands for all of them. -/
theorem holds_foldl {pms : Ctx} {msg : Bytes} (h : Md5.Holds pms msg) (pieces : List Bytes)
    (hshort : ∀ piece ∈ pieces, piece.length < 2 ^ 28) :
    Md5.Holds (pieces.foldl (fun pms piece => md5Append pms piece piece.length) pms)
      (msg ++ pieces.flatten) := by
  induction pieces generalizing pms msg with
  | nil =>
    rw [List.flatten_nil, List.append_nil]
    exact h
  | cons piece pieces ih =>
    have hpiece : piece.length < 2 ^ 28 := hshort piece List.mem_cons_self
    have hfirst : Md5.Holds (md5Append pms piece piece.length) (msg ++ piece) :=
      holds_append h piece _ rfl (by omega)
    have hrest := ih hfirst fun later hlater => hshort later (List.mem_cons_of_mem piece hlater)
    rw [List.flatten_cons, ← List.append_assoc]
    exact hrest

/-- **The digest of a message that comes in pieces** is that of the whole, wherever it is cut and
whatever the buffer held. -/
theorem md5Finish_pieces {buf : Bytes} (hbuf : buf.length = 64) (pieces : List Bytes)
    (hshort : ∀ piece ∈ pieces, piece.length < 2 ^ 28) :
    md5Finish (pieces.foldl (fun pms piece => md5Append pms piece piece.length) (md5Init buf))
      = Rfc1321.md5 pieces.flatten :=
  md5Finish_eq (holds_foldl (holds_md5Init hbuf) pieces hshort)

theorem md5Finish_abc :
    md5Finish ([[97], [98, 99]].foldl (fun pms piece => md5Append pms piece piece.length)
        (md5Init (List.replicate 64 0)))
      = Rfc1321.md5 [97, 98, 99] :=
  md5Finish_pieces (by decide) [[97], [98, 99]] (by decide)

/-- **The digest of the consistent hash** is MD5, and does not depend on what the buffer held. -/
theorem conhashMd5Digest_eq {buf instr : Bytes} (hbuf : buf.length = 64)
    (hlen : (cstr instr).length < 2 ^ 28) :
    conhashMd5Digest buf instr = Rfc1321.md5 (cstr instr) := by
  have hint : ((cstr instr).length : Int).bmod (2 ^ 32) = (cstr instr).length := by
    rw [Int.bmod_eq_of_le] <;> omega
  rw [conhashMd5Digest, hint]
  exact md5Finish_eq (holds_append (holds_md5Init hbuf) (cstr instr) _ rfl (by omega))

end Iceberg.Nginx
