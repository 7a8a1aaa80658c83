import Iceberg.Lib.BlockHash
import Mathlib.Data.List.GetD

/-!
# MD5 as RFC 1321 describes it

The message is padded to whole blocks of 64 bytes, and the blocks are compressed one after
another into four registers. The 64 steps of a block are given by formulas: which of the
four functions, which word of the block, which shift, and the table `T` of the sine.
-/

namespace Rfc1321

abbrev Bytes := List UInt8

/-- The registers `A`, `B`, `C` and `D`. -/
structure Registers where
  A : UInt32
  B : UInt32
  C : UInt32
  D : UInt32
  deriving DecidableEq

/-- The auxiliary function of a step. -/
def aux (i : Nat) (x y z : UInt32) : UInt32 :=
  match i / 16 with
  | 0 => (x &&& y) ||| (~~~x &&& z)
  | 1 => (x &&& z) ||| (y &&& ~~~z)
  | 2 => x ^^^ y ^^^ z
  | _ => y ^^^ (x ||| ~~~z)

/-- The word that a step uses. -/
def wordIndex (i : Nat) : Nat :=
  match i / 16 with
  | 0 => i % 16
  | 1 => (5 * i + 1) % 16
  | 2 => (3 * i + 5) % 16
  | _ => 7 * i % 16

/-- The shift of a step. -/
def shift (i : Nat) : UInt32 :=
  match i / 16 with
  | 0 => [7, 12, 17, 22].getD (i % 4) 0
  | 1 => [5, 9, 14, 20].getD (i % 4) 0
  | 2 => [4, 11, 16, 23].getD (i % 4) 0
  | _ => [6, 10, 15, 21].getD (i % 4) 0

/-- `T[i + 1]`, the integer part of `4294967296 * abs(sin(i + 1))`. -/
def table : List UInt32 :=
  [0xd76aa478, 0xe8c7b756, 0x242070db, 0xc1bdceee, 0xf57c0faf, 0x4787c62a,
   0xa8304613, 0xfd469501, 0x698098d8, 0x8b44f7af, 0xffff5bb1, 0x895cd7be,
   0x6b901122, 0xfd987193, 0xa679438e, 0x49b40821, 0xf61e2562, 0xc040b340,
   0x265e5a51, 0xe9b6c7aa, 0xd62f105d, 0x02441453, 0xd8a1e681, 0xe7d3fbc8,
   0x21e1cde6, 0xc33707d6, 0xf4d50d87, 0x455a14ed, 0xa9e3e905, 0xfcefa3f8,
   0x676f02d9, 0x8d2a4c8a, 0xfffa3942, 0x8771f681, 0x6d9d6122, 0xfde5380c,
   0xa4beea44, 0x4bdecfa9, 0xf6bb4b60, 0xbebfbc70, 0x289b7ec6, 0xeaa127fa,
   0xd4ef3085, 0x04881d05, 0xd9d4d039, 0xe6db99e5, 0x1fa27cf8, 0xc4ac5665,
   0xf4292244, 0x432aff97, 0xab9423a7, 0xfc93a039, 0x655b59c3, 0x8f0ccc92,
   0xffeff47d, 0x85845dd1, 0x6fa87e4f, 0xfe2ce6e0, 0xa3014314, 0x4e0811a1,
   0xf7537e82, 0xbd3af235, 0x2ad7d2bb, 0xeb86d391]

def rotate (x n : UInt32) : UInt32 := (x <<< n) ||| (x >>> (32 - n))

/-- Step `i` on the words `X` of a block. The register that it changes comes second
afterwards, so that every step reads `A`, `B`, `C`, `D` in this order. -/
def step (X : Nat → UInt32) (r : Registers) (i : Nat) : Registers :=
  { A := r.D
    B := r.B + rotate (r.A + aux i r.B r.C r.D + X (wordIndex i) + table.getD i 0) (shift i)
    C := r.B
    D := r.C }

/-- A word is four bytes, the low-order byte first. -/
def word (block : Bytes) (k : Nat) : UInt32 :=
  UInt32.ofNat ((block.getD (4 * k) 0).toNat + (block.getD (4 * k + 1) 0).toNat * 2 ^ 8
    + (block.getD (4 * k + 2) 0).toNat * 2 ^ 16 + (block.getD (4 * k + 3) 0).toNat * 2 ^ 24)

def compress (r : Registers) (block : Bytes) : Registers :=
  let r' := (List.range 64).foldl (step (word block)) r
  { A := r.A + r'.A, B := r.B + r'.B, C := r.C + r'.C, D := r.D + r'.D }

def start : Registers :=
  { A := 0x67452301, B := 0xefcdab89, C := 0x98badcfe, D := 0x10325476 }

/-- The `n` low-order bytes of a number, the low-order byte first. -/
def littleEndian : Nat → Nat → Bytes
  | 0, _ => []
  | n + 1, x => UInt8.ofNat (x % 256) :: littleEndian n (x / 256)

@[simp] theorem length_littleEndian (n x : Nat) : (littleEndian n x).length = n := by
  induction n generalizing x with
  | zero => rfl
  | succ n ih => simp [littleEndian, ih]

/-- Higher bytes do not count. -/
theorem littleEndian_mod (n x : Nat) : littleEndian n (x % 256 ^ n) = littleEndian n x := by
  induction n generalizing x with
  | zero => rfl
  | succ n ih =>
    have hpow : 256 ^ (n + 1) = 256 * 256 ^ n := by ring
    have hlow : x % 256 ^ (n + 1) % 256 = x % 256 := Nat.mod_mod_of_dvd _ ⟨_, hpow⟩
    have hhigh : x % 256 ^ (n + 1) / 256 = x / 256 % 256 ^ n := by
      rw [hpow, Nat.mod_mul_right_div_self]
    rw [littleEndian, littleEndian, hlow, hhigh, ih]

/-- The lower bytes come first. -/
theorem littleEndian_add (m n x : Nat) :
    littleEndian (m + n) x = littleEndian m x ++ littleEndian n (x / 256 ^ m) := by
  induction m generalizing x with
  | zero => simp [littleEndian]
  | succ m ih =>
    have hpow : x / 256 ^ (m + 1) = x / 256 / 256 ^ m := by
      rw [Nat.div_div_eq_div_mul, Nat.pow_succ, Nat.mul_comm]
    rw [Nat.add_right_comm, littleEndian, littleEndian, ih, hpow, List.cons_append]

/-- One `1` bit, as many `0` bits as it takes to 448 modulo 512, and the length in bits. -/
def pad (msg : Bytes) : Bytes :=
  msg ++ 0x80 :: List.replicate ((119 - msg.length % 64) % 64) 0
    ++ littleEndian 8 (8 * msg.length)

/-- The digest. -/
def md5 (msg : Bytes) : Bytes :=
  let r := BlockHash.absorbed compress 64 start (pad msg)
  littleEndian 4 r.A.toNat ++ littleEndian 4 r.B.toNat ++ littleEndian 4 r.C.toNat
    ++ littleEndian 4 r.D.toNat

theorem length_pad (msg : Bytes) : (pad msg).length % 64 = 0 := by
  simp only [pad, List.length_append, List.length_cons, List.length_replicate,
    length_littleEndian]
  omega

end Rfc1321
