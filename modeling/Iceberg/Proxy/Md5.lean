import Iceberg.Proxy.Basic

/-!
# The hash of a key (`md5.c`, `myhash.c`)

The proxy and the storage server compile the same two files. `MD5Update` is called with the
bytes of the key, with padding and with the length; the buffer of the context is never
cleared, so it starts with whatever is on the stack.
-/

namespace Iceberg.Md5

/-! ## One block -/

/-- The variables `a`, `b`, `c` and `d` of `MD5Transform`, or the four words of `state`. -/
structure State where
  a : UInt32
  b : UInt32
  c : UInt32
  d : UInt32
  deriving DecidableEq

inductive Var where
  | a | b | c | d
  deriving DecidableEq

def State.get (v : State) : Var → UInt32
  | .a => v.a
  | .b => v.b
  | .c => v.c
  | .d => v.d

def State.set (v : State) (x : UInt32) : Var → State
  | .a => { v with a := x }
  | .b => { v with b := x }
  | .c => { v with c := x }
  | .d => { v with d := x }

/-- The four round functions of `md5.h`. -/
inductive Fn where
  | F | G | H | I
  deriving DecidableEq

def Fn.apply : Fn → UInt32 → UInt32 → UInt32 → UInt32
  | F, x, y, z => (x &&& y) ||| (~~~x &&& z)
  | G, x, y, z => (x &&& z) ||| (y &&& ~~~z)
  | H, x, y, z => x ^^^ y ^^^ z
  | I, x, y, z => y ^^^ (x ||| ~~~z)

/-- `ROTATE_LEFT`. -/
def rotateLeft (x n : UInt32) : UInt32 := (x <<< n) ||| (x >>> (32 - n))

/-- A line of `MD5Transform`: the function, the variables, the index into `x`, the shift and
the constant. -/
structure Op where
  fn : Fn
  a : Var
  b : Var
  c : Var
  d : Var
  k : Nat
  s : UInt32
  ac : UInt32
  deriving DecidableEq

def FF (va vb vc vd : Var) (k : Nat) (s ac : UInt32) : Op := ⟨.F, va, vb, vc, vd, k, s, ac⟩
def GG (va vb vc vd : Var) (k : Nat) (s ac : UInt32) : Op := ⟨.G, va, vb, vc, vd, k, s, ac⟩
def HH (va vb vc vd : Var) (k : Nat) (s ac : UInt32) : Op := ⟨.H, va, vb, vc, vd, k, s, ac⟩
def II (va vb vc vd : Var) (k : Nat) (s ac : UInt32) : Op := ⟨.I, va, vb, vc, vd, k, s, ac⟩

/-- The three statements that a line expands to. -/
def Op.exec (op : Op) (x : Nat → UInt32) (v : State) : State :=
  let v := v.set (v.get op.a + (op.fn.apply (v.get op.b) (v.get op.c) (v.get op.d)
    + x op.k + op.ac)) op.a
  let v := v.set (rotateLeft (v.get op.a) op.s) op.a
  v.set (v.get op.a + v.get op.b) op.a

/-- The lines of `MD5Transform`. -/
def ops : List Op :=
  [FF .a .b .c .d 0 7 0xd76aa478,
   FF .d .a .b .c 1 12 0xe8c7b756,
   FF .c .d .a .b 2 17 0x242070db,
   FF .b .c .d .a 3 22 0xc1bdceee,
   FF .a .b .c .d 4 7 0xf57c0faf,
   FF .d .a .b .c 5 12 0x4787c62a,
   FF .c .d .a .b 6 17 0xa8304613,
   FF .b .c .d .a 7 22 0xfd469501,
   FF .a .b .c .d 8 7 0x698098d8,
   FF .d .a .b .c 9 12 0x8b44f7af,
   FF .c .d .a .b 10 17 0xffff5bb1,
   FF .b .c .d .a 11 22 0x895cd7be,
   FF .a .b .c .d 12 7 0x6b901122,
   FF .d .a .b .c 13 12 0xfd987193,
   FF .c .d .a .b 14 17 0xa679438e,
   FF .b .c .d .a 15 22 0x49b40821,
   -- round 2
   GG .a .b .c .d 1 5 0xf61e2562,
   GG .d .a .b .c 6 9 0xc040b340,
   GG .c .d .a .b 11 14 0x265e5a51,
   GG .b .c .d .a 0 20 0xe9b6c7aa,
   GG .a .b .c .d 5 5 0xd62f105d,
   GG .d .a .b .c 10 9 0x2441453,
   GG .c .d .a .b 15 14 0xd8a1e681,
   GG .b .c .d .a 4 20 0xe7d3fbc8,
   GG .a .b .c .d 9 5 0x21e1cde6,
   GG .d .a .b .c 14 9 0xc33707d6,
   GG .c .d .a .b 3 14 0xf4d50d87,
   GG .b .c .d .a 8 20 0x455a14ed,
   GG .a .b .c .d 13 5 0xa9e3e905,
   GG .d .a .b .c 2 9 0xfcefa3f8,
   GG .c .d .a .b 7 14 0x676f02d9,
   GG .b .c .d .a 12 20 0x8d2a4c8a,
   -- round 3
   HH .a .b .c .d 5 4 0xfffa3942,
   HH .d .a .b .c 8 11 0x8771f681,
   HH .c .d .a .b 11 16 0x6d9d6122,
   HH .b .c .d .a 14 23 0xfde5380c,
   HH .a .b .c .d 1 4 0xa4beea44,
   HH .d .a .b .c 4 11 0x4bdecfa9,
   HH .c .d .a .b 7 16 0xf6bb4b60,
   HH .b .c .d .a 10 23 0xbebfbc70,
   HH .a .b .c .d 13 4 0x289b7ec6,
   HH .d .a .b .c 0 11 0xeaa127fa,
   HH .c .d .a .b 3 16 0xd4ef3085,
   HH .b .c .d .a 6 23 0x4881d05,
   HH .a .b .c .d 9 4 0xd9d4d039,
   HH .d .a .b .c 12 11 0xe6db99e5,
   HH .c .d .a .b 15 16 0x1fa27cf8,
   HH .b .c .d .a 2 23 0xc4ac5665,
   -- round 4
   II .a .b .c .d 0 6 0xf4292244,
   II .d .a .b .c 7 10 0x432aff97,
   II .c .d .a .b 14 15 0xab9423a7,
   II .b .c .d .a 5 21 0xfc93a039,
   II .a .b .c .d 12 6 0x655b59c3,
   II .d .a .b .c 3 10 0x8f0ccc92,
   II .c .d .a .b 10 15 0xffeff47d,
   II .b .c .d .a 1 21 0x85845dd1,
   II .a .b .c .d 8 6 0x6fa87e4f,
   II .d .a .b .c 15 10 0xfe2ce6e0,
   II .c .d .a .b 6 15 0xa3014314,
   II .b .c .d .a 13 21 0x4e0811a1,
   II .a .b .c .d 4 6 0xf7537e82,
   II .d .a .b .c 11 10 0xbd3af235,
   II .c .d .a .b 2 15 0x2ad7d2bb,
   II .b .c .d .a 9 21 0xeb86d391
  ]

/-- `MD5Decode`: the word that starts at byte `j`. -/
def decodeWord (input : Bytes) (j : Nat) : UInt32 :=
  (input.getD j 0).toUInt32 ||| ((input.getD (j + 1) 0).toUInt32 <<< 8)
    ||| ((input.getD (j + 2) 0).toUInt32 <<< 16) ||| ((input.getD (j + 3) 0).toUInt32 <<< 24)

/-- `MD5Transform`. -/
def transform (state : State) (block : Bytes) : State :=
  let x := fun k => decodeWord block (4 * k)
  let v := ops.foldl (fun v op => op.exec x v) state
  { a := state.a + v.a, b := state.b + v.b, c := state.c + v.c, d := state.d + v.d }

/-! ## The context -/

/-- `MD5_CTX`. -/
structure Ctx where
  count0 : UInt32
  count1 : UInt32
  state : State
  buffer : Bytes

/-- `MD5Init`, on a context whose buffer holds `buffer`. -/
def init (buffer : Bytes) : Ctx :=
  { count0 := 0
    count1 := 0
    state := { a := 0x67452301, b := 0xEFCDAB89, c := 0x98BADCFE, d := 0x10325476 }
    buffer := buffer }

/-- `memcpy(&dst[index], src, src.length)`. -/
def memcpy (dst : Bytes) (index : Nat) (src : Bytes) : Bytes :=
  dst.take index ++ src ++ dst.drop (index + src.length)

/-- The loop of `MD5Update` over the whole blocks of `input` from `i` on. -/
def transformLoop (input : Bytes) : Nat → State → Nat → State × Nat
  | 0, state, i => (state, i)
  | fuel + 1, state, i =>
    if i + 64 ≤ input.length then
      transformLoop input fuel (transform state ((input.drop i).take 64)) (i + 64)
    else (state, i)

/-- `(context->count[0] >> 3) & 0x3F`. -/
def Ctx.index (ctx : Ctx) : Nat := ((ctx.count0 >>> 3) &&& 0x3F).toNat

/-- `MD5Update` with `inputlen = input.length`. -/
def update (ctx : Ctx) (input : Bytes) : Ctx :=
  let inputlen := UInt32.ofNat input.length
  let index := ctx.index
  let partlen := 64 - index
  let count0 := ctx.count0 + (inputlen <<< 3)
  let count1 := if count0 < inputlen <<< 3 then ctx.count1 + 1 else ctx.count1
  let count1 := count1 + (inputlen >>> 29)
  if partlen ≤ input.length then
    let buffer := memcpy ctx.buffer index (input.take partlen)
    let (state, i) := transformLoop input input.length (transform ctx.state buffer) partlen
    { count0 := count0, count1 := count1, state := state
      buffer := memcpy buffer 0 (input.drop i) }
  else
    { ctx with
      count0 := count0, count1 := count1
      buffer := memcpy ctx.buffer index input }

/-- `MD5Encode` of one word. -/
def encodeWord (w : UInt32) : Bytes :=
  [(w &&& 0xFF).toUInt8, ((w >>> 8) &&& 0xFF).toUInt8, ((w >>> 16) &&& 0xFF).toUInt8,
   ((w >>> 24) &&& 0xFF).toUInt8]

/-- `PADDING`. -/
def padding : Bytes := 0x80 :: List.replicate 63 0

/-- `MD5Final`: the digest. -/
def final (ctx : Ctx) : Bytes :=
  let index := ctx.index
  let padlen := if index < 56 then 56 - index else 120 - index
  let bits := encodeWord ctx.count0 ++ encodeWord ctx.count1
  let ctx := update ctx (padding.take padlen)
  let ctx := update ctx bits
  encodeWord ctx.state.a ++ encodeWord ctx.state.b ++ encodeWord ctx.state.c
    ++ encodeWord ctx.state.d

/-- `hash` of `myhash.c`; `buffer` is what the context's buffer holds before. -/
def hash (buffer : Bytes) (src : Bytes) (slot : Nat) : Nat :=
  let digest := final (update (init buffer) (cstr src))
  digest.foldl (fun total b => total + b.toNat) 0 % slot

end Iceberg.Md5
