import Mathlib.Analysis.SpecialFunctions.Pow.NthRootLemmas
import Mathlib.Data.Nat.Prime.Basic
import Terllama.Base.Blockwise
import Terllama.Base.Bytes

/-!
# SHA-256

The hash function of FIPS 180-4, over messages of bits and words of 32 bits, as the standard states
it: the functions of section 4.1.2, the constants of 4.2.2 and 5.3.3 by what they are (the first bits
of the fractional parts of roots of primes), the padding of 5.1.1, the parsing of 5.2.1 and the
computation of 6.2.2. A string of bytes is the message of its bits, the high bit of a byte first.
-/

namespace Terllama

/-! ## Bit strings -/

/-- The `w` low bits of a number, the highest first. -/
def bitsOf (w n : Nat) : List Bool := (List.range w).map fun i => n.testBit (w - 1 - i)

/-- The number that a bit string writes. -/
def natOfBits (bits : List Bool) : Nat := bits.foldl (fun n b => 2 * n + b.toNat) 0

/-- The bits of a string of bytes. -/
def bytesBits (bs : Bytes) : List Bool := bs.flatMap fun b => bitsOf 8 b.toNat

/-- A bit string in lower-case hexadecimal. -/
def hexText (bits : List Bool) : Bytes :=
  (chunks 4 bits).map fun nibble => (str "0123456789abcdef").getD (natOfBits nibble) 0

@[simp] theorem length_bitsOf (w n : Nat) : (bitsOf w n).length = w := by
  rw [bitsOf, List.length_map, List.length_range]

theorem bitsOf_append (v w n : Nat) : bitsOf (v + w) n = bitsOf v (n / 2 ^ w) ++ bitsOf w n := by
  rw [bitsOf, List.range_add, List.map_append, List.map_map]
  congr 1
  · refine List.map_congr_left fun i hi => ?_
    have hlt := List.mem_range.1 hi
    rw [Nat.testBit_div_two_pow]
    congr 1
    omega
  · refine List.map_congr_left fun i _ => ?_
    rw [Function.comp_apply]
    congr 1
    omega

theorem bitsOf_mod (w n : Nat) : bitsOf w (n % 2 ^ w) = bitsOf w n := by
  refine List.map_congr_left fun i hi => ?_
  have hlt : w - 1 - i < w := by
    have := List.mem_range.1 hi
    omega
  rw [Nat.testBit_mod_two_pow, decide_eq_true hlt, Bool.true_and]

theorem bitsOf_zero (w : Nat) : bitsOf w 0 = List.replicate w false := by
  refine List.ext_getElem ?_ fun i hi hi' => ?_
  · rw [length_bitsOf, List.length_replicate]
  · simp only [bitsOf, List.getElem_map, Nat.zero_testBit, List.getElem_replicate]

/-- A number in pieces of `m` bits, the highest first. -/
theorem bitsOf_mul (m k n : Nat) :
    bitsOf (k * m) n = (List.range k).flatMap fun i => bitsOf m (n / 2 ^ ((k - 1 - i) * m)) := by
  induction k generalizing n with
  | zero => rw [Nat.zero_mul]; rfl
  | succ k ih =>
    have hlow : k + 1 - 1 - k = 0 := by omega
    rw [Nat.succ_mul, bitsOf_append, ih, List.range_succ, List.flatMap_append, List.flatMap_singleton,
      hlow, Nat.zero_mul, Nat.pow_zero, Nat.div_one]
    refine congrArg (· ++ _) ?_
    rw [List.flatMap_def, List.flatMap_def]
    refine congrArg List.flatten (List.map_congr_left fun i hi => ?_)
    have hlt := List.mem_range.1 hi
    have hexp : m + (k - 1 - i) * m = (k + 1 - 1 - i) * m := by
      rw [Nat.add_comm, ← Nat.succ_mul]
      congr 1
      omega
    rw [Nat.div_div_eq_div_mul, ← Nat.pow_add, hexp]

theorem natOfBits_foldl (bits : List Bool) (n : Nat) :
    bits.foldl (fun n b => 2 * n + b.toNat) n = n * 2 ^ bits.length + natOfBits bits := by
  induction bits generalizing n with
  | nil => rw [List.foldl_nil, List.length_nil, Nat.pow_zero, Nat.mul_one]; rfl
  | cons b bits ih =>
    have hcons : natOfBits (b :: bits) = (2 * 0 + b.toNat) * 2 ^ bits.length + natOfBits bits :=
      ih (2 * 0 + b.toNat)
    rw [List.foldl_cons, ih, hcons, List.length_cons, Nat.pow_succ]
    ring

theorem natOfBits_append (xs ys : List Bool) :
    natOfBits (xs ++ ys) = natOfBits xs * 2 ^ ys.length + natOfBits ys := by
  rw [natOfBits, List.foldl_append, natOfBits_foldl]
  rfl

@[simp] theorem natOfBits_bitsOf (w n : Nat) : natOfBits (bitsOf w n) = n % 2 ^ w := by
  induction w generalizing n with
  | zero => rw [Nat.pow_zero, Nat.mod_one]; rfl
  | succ w ih =>
    have hone : ∀ m : Nat, natOfBits (bitsOf 1 m) = m % 2 := by
      intro m
      have hbit : bitsOf 1 m = [m.testBit 0] := rfl
      rw [hbit, Nat.testBit_zero]
      rcases Nat.mod_two_eq_zero_or_one m with h | h
      · rw [h]; rfl
      · rw [h]; rfl
    rw [bitsOf_append, natOfBits_append, ih, length_bitsOf, hone, Nat.pow_one, Nat.pow_succ',
      Nat.mod_mul]
    ring

theorem length_bytesBits (bs : Bytes) : (bytesBits bs).length = bs.length * 8 :=
  length_flatMap_eq fun b _ => length_bitsOf 8 b.toNat

/-- The text of numbers of `k * 4` bits. -/
theorem hexText_flatMap_bitsOf (k : Nat) (ns : List Nat) :
    hexText (ns.flatMap (bitsOf (k * 4))) = ns.flatMap fun n => (List.range k).map fun i =>
      (str "0123456789abcdef").getD (n / 2 ^ ((k - 1 - i) * 4) % 16) 0 := by
  have hnibbles : ns.flatMap (bitsOf (k * 4)) =
      (ns.flatMap fun n => (List.range k).map fun i => n / 2 ^ ((k - 1 - i) * 4)).flatMap
        (bitsOf 4) := by
    rw [List.flatMap_assoc]
    refine congrArg (List.flatMap · ns) (funext fun n => ?_)
    rw [bitsOf_mul, List.flatMap_map]
  have hdigit : ∀ n, natOfBits (bitsOf 4 n) = n % 16 := natOfBits_bitsOf 4
  rw [hexText, hnibbles, chunks_flatMap_one (fun n _ => length_bitsOf 4 n) (Nat.succ_pos 3),
    List.map_map, List.map_flatMap]
  refine congrArg (List.flatMap · ns) (funext fun n => ?_)
  rw [List.map_map]
  refine List.map_congr_left fun i _ => ?_
  rw [Function.comp_apply, Function.comp_apply, hdigit]

namespace Sha256

/-! ## Words -/

/-- A word of 32 bits. -/
abbrev Word := BitVec 32

/-- Eight words: a hash value, or the working variables. -/
structure Eight (W : Type) where
  a : W
  b : W
  c : W
  d : W
  e : W
  f : W
  g : W
  h : W
  deriving DecidableEq, Repr

section
variable {V W X : Type}

def Eight.map (t : V → W) (v : Eight V) : Eight W :=
  ⟨t v.a, t v.b, t v.c, t v.d, t v.e, t v.f, t v.g, t v.h⟩

def Eight.zipWith (t : V → W → X) (v : Eight V) (w : Eight W) : Eight X :=
  ⟨t v.a w.a, t v.b w.b, t v.c w.c, t v.d w.d, t v.e w.e, t v.f w.f, t v.g w.g, t v.h w.h⟩

def Eight.toList (v : Eight V) : List V := [v.a, v.b, v.c, v.d, v.e, v.f, v.g, v.h]

end

/-- `Ch`. -/
def ch (x y z : Word) : Word := (x &&& y) ^^^ (~~~x &&& z)

/-- `Maj`. -/
def maj (x y z : Word) : Word := (x &&& y) ^^^ (x &&& z) ^^^ (y &&& z)

/-- `Σ₀`. -/
def bigSigma0 (x : Word) : Word := x.rotateRight 2 ^^^ x.rotateRight 13 ^^^ x.rotateRight 22

/-- `Σ₁`. -/
def bigSigma1 (x : Word) : Word := x.rotateRight 6 ^^^ x.rotateRight 11 ^^^ x.rotateRight 25

/-- `σ₀`. -/
def sigma0 (x : Word) : Word := x.rotateRight 7 ^^^ x.rotateRight 18 ^^^ x >>> 3

/-- `σ₁`. -/
def sigma1 (x : Word) : Word := x.rotateRight 17 ^^^ x.rotateRight 19 ^^^ x >>> 10

/-! ## Constants -/

/-- The first sixty-four primes. -/
def primes : List Nat := (List.range 312).filter fun p => p.Prime

/-- The first 32 bits of the fractional part of the `n`-th root of `p`. -/
def rootFraction (n p : Nat) : Word := BitVec.ofNat 32 (Nat.nthRoot n (p * 2 ^ (32 * n)))

/-- The constants `K₀`, …, `K₆₃`. -/
def constants : List Word := primes.map (rootFraction 3)

/-- The initial hash value `H⁽⁰⁾`. -/
def initial : Eight Word :=
  let root i := rootFraction 2 (primes.getD i 0)
  ⟨root 0, root 1, root 2, root 3, root 4, root 5, root 6, root 7⟩

/-- Below 18², trial division up to 17 decides. -/
theorem prime_iff_of_lt {p : Nat} (h : p < 324) :
    p.Prime ↔ 2 ≤ p ∧ ∀ d < 18, 2 ≤ d → d < p → ¬ d ∣ p := by
  rw [Nat.prime_def_le_sqrt]
  refine and_congr_right fun htwo => ⟨fun hp d _ hd hlt hdvd => ?_, fun hp d hd hle => ?_⟩
  · obtain ⟨e, rfl⟩ := hdvd
    rcases Nat.le_total d e with hde | hed
    · exact hp d hd (Nat.le_sqrt.2 (Nat.mul_le_mul_left d hde)) (Nat.dvd_mul_right d e)
    · have he : 2 ≤ e := by
        by_contra hsmall
        have hone : e = 0 ∨ e = 1 := by omega
        rcases hone with rfl | rfl
        · omega
        · omega
      exact hp e he (Nat.le_sqrt.2 (Nat.mul_le_mul_right e hed)) (Nat.dvd_mul_left e d)
  · have hsqrt : p.sqrt < 18 := Nat.sqrt_lt.2 h
    refine hp d (by omega) hd ?_
    have hsq := (Nat.mul_le_mul hle hle).trans (Nat.sqrt_le p)
    nlinarith

theorem primes_eq : primes = [2, 3, 5, 7, 11, 13, 17, 19, 23, 29, 31, 37, 41, 43, 47, 53, 59, 61,
    67, 71, 73, 79, 83, 89, 97, 101, 103, 107, 109, 113, 127, 131, 137, 139, 149, 151, 157, 163, 167,
    173, 179, 181, 191, 193, 197, 199, 211, 223, 227, 229, 233, 239, 241, 251, 257, 263, 269, 271,
    277, 281, 283, 293, 307, 311] := by
  have htrial : primes =
      (List.range 312).filter fun p => decide (2 ≤ p ∧ ∀ d < 18, 2 ≤ d → d < p → ¬ d ∣ p) := by
    refine List.filter_congr fun p hp => decide_eq_decide.2 (prime_iff_of_lt ?_)
    have hlt := List.mem_range.1 hp
    omega
  rw [htrial]
  decide +kernel

/-- A root between two numbers. -/
theorem rootFraction_eq {n p r : Nat} (hn : n ≠ 0) (hle : r ^ n ≤ p * 2 ^ (32 * n))
    (hlt : p * 2 ^ (32 * n) < (r + 1) ^ n) : rootFraction n p = BitVec.ofNat 32 r := by
  have hle := (Nat.le_nthRoot_iff hn).2 hle
  have hlt := (Nat.nthRoot_lt_iff hn).2 hlt
  have hroot : Nat.nthRoot n (p * 2 ^ (32 * n)) = r := by omega
  rw [rootFraction, hroot]

theorem map_rootFraction {n : Nat} (hn : n ≠ 0) {ps rs : List Nat}
    (h : List.Forall₂ (fun p r => r ^ n ≤ p * 2 ^ (32 * n) ∧ p * 2 ^ (32 * n) < (r + 1) ^ n) ps rs) :
    ps.map (rootFraction n) = rs.map (BitVec.ofNat 32) := by
  induction h with
  | nil => rfl
  | cons hroot _ ih =>
    rw [List.map_cons, List.map_cons, ih, rootFraction_eq hn hroot.1 hroot.2]

/-! ## Padding and parsing -/

/-- The number of zero bits in the padding of a message of `len` bits. -/
def zeroBits (len : Nat) : Nat := (447 + 512 - len % 512) % 512

/-- It is the least one with `len + 1 + k ≡ 448 (mod 512)`. -/
theorem zeroBits_least (len : Nat) :
    (len + 1 + zeroBits len) % 512 = 448 ∧
      ∀ k, (len + 1 + k) % 512 = 448 → zeroBits len ≤ k := by
  unfold zeroBits
  refine ⟨by omega, fun k hk => ?_⟩
  omega

/-- The padded message. -/
def pad (message : List Bool) : List Bool :=
  message ++ true :: List.replicate (zeroBits message.length) false ++ bitsOf 64 message.length

/-- The `j`-th word of a block of 512 bits. -/
def blockWord (block : List Bool) (j : Nat) : Word :=
  BitVec.ofNat 32 (natOfBits ((block.drop (j * 32)).take 32))

/-! ## The computation -/

/-- The message schedule `Wₜ` of the words of a block. -/
def schedule (m : Nat → Word) (t : Nat) : Word :=
  if _ : t < 16 then m t
  else sigma1 (schedule m (t - 2)) + schedule m (t - 7) + sigma0 (schedule m (t - 15)) +
    schedule m (t - 16)

/-- One of the sixty-four rounds. -/
def round (k w : Word) (v : Eight Word) : Eight Word :=
  let t1 := v.h + bigSigma1 v.e + ch v.e v.f v.g + k + w
  let t2 := bigSigma0 v.a + maj v.a v.b v.c
  ⟨t1 + t2, v.a, v.b, v.c, v.d + t1, v.e, v.f, v.g⟩

/-- The hash value after a block. -/
def compress (hash : Eight Word) (m : Nat → Word) : Eight Word :=
  hash.zipWith (· + ·)
    ((List.range 64).foldl (fun v t => round (constants.getD t 0) (schedule m t) v) hash)

/-- The final hash value. -/
def hash (message : List Bool) : Eight Word :=
  (chunks 512 (pad message)).foldl (fun h block => compress h (blockWord block)) initial

/-- The message digest. -/
def digest (message : List Bool) : List Bool :=
  (hash message).toList.flatMap fun w => bitsOf 32 w.toNat

/-! ## Messages of bytes -/

/-- The number of zero bytes in the padding of a message of `len` bytes. -/
def zeroBytes (len : Nat) : Nat := (119 - len % 64) % 64

/-- A length in eight bytes, the highest first. -/
def lengthBytes (len : Nat) : Bytes :=
  (List.range 8).map fun i => UInt8.ofNat (len / 2 ^ ((8 - 1 - i) * 8))

/-- The padded message, in bytes. -/
def padBytes (bs : Bytes) : Bytes :=
  bs ++ 0x80 :: List.replicate (zeroBytes bs.length) 0 ++ lengthBytes (bs.length * 8)

theorem bytesBits_append (xs ys : Bytes) : bytesBits (xs ++ ys) = bytesBits xs ++ bytesBits ys :=
  List.flatMap_append

theorem bytesBits_cons (b : UInt8) (bs : Bytes) :
    bytesBits (b :: bs) = bitsOf 8 b.toNat ++ bytesBits bs :=
  List.flatMap_cons

theorem bytesBits_zeros (n : Nat) :
    bytesBits (List.replicate n 0) = List.replicate (n * 8) false := by
  induction n with
  | zero => rw [Nat.zero_mul]; rfl
  | succ n ih =>
    have hzero : bitsOf 8 (0 : UInt8).toNat = List.replicate 8 false := bitsOf_zero 8
    rw [List.replicate_succ, bytesBits_cons, ih, hzero, List.replicate_append_replicate,
      Nat.succ_mul, Nat.add_comm]

theorem bytesBits_lengthBytes (len : Nat) : bytesBits (lengthBytes len) = bitsOf 64 len := by
  have hpieces := bitsOf_mul 8 8 len
  rw [bytesBits, lengthBytes, List.flatMap_map]
  refine Eq.trans ?_ hpieces.symm
  refine congrArg (List.flatMap · (List.range 8)) (funext fun i => ?_)
  rw [UInt8.toNat_ofNat', bitsOf_mod]

/-- Padding a message of bytes. -/
theorem pad_bytesBits (bs : Bytes) : pad (bytesBits bs) = bytesBits (padBytes bs) := by
  have hmark : bitsOf 8 (0x80 : UInt8).toNat = true :: List.replicate 7 false := by decide
  have hzeros : zeroBits (bs.length * 8) = 7 + zeroBytes bs.length * 8 := by
    unfold zeroBits zeroBytes
    omega
  rw [pad, padBytes, length_bytesBits, bytesBits_append, bytesBits_append, bytesBits_cons,
    bytesBits_lengthBytes, bytesBits_zeros, hmark, hzeros, List.cons_append,
    List.replicate_append_replicate]

/-- The blocks of a message of bytes. -/
theorem chunks_bytesBits (bs : Bytes) : chunks 512 (bytesBits bs) = (chunks 64 bs).map bytesBits :=
  chunks_flatMap (fun b _ => length_bitsOf 8 b.toNat) (Nat.succ_pos 7) 64

/-- A word of a block of bytes. -/
theorem blockWord_bytesBits {block : Bytes} {j : Nat} (h : j * 4 + 4 ≤ block.length) :
    blockWord (bytesBits block) j = BitVec.ofNat 32
      ((((block.getD (j * 4) 0).toNat * 256 + (block.getD (j * 4 + 1) 0).toNat) * 256 +
        (block.getD (j * 4 + 2) 0).toNat) * 256 + (block.getD (j * 4 + 3) 0).toNat) := by
  have hbits : ∀ b : UInt8, natOfBits (bitsOf 8 b.toNat) = b.toNat := fun b =>
    (natOfBits_bitsOf 8 b.toNat).trans (Nat.mod_eq_of_lt b.toNat_lt)
  have hlen : ∀ l : Bytes, ∀ b ∈ l, (bitsOf 8 b.toNat).length = 8 := fun _ b _ =>
    length_bitsOf 8 b.toNat
  have hdrop : (bytesBits block).drop (j * 32) = bytesBits (block.drop (j * 4)) := by
    rw [show j * 32 = j * 4 * 8 by omega]
    exact drop_flatMap (hlen block) (j * 4)
  have htake : ∀ l : Bytes, (bytesBits l).take 32 = bytesBits (l.take 4) := fun l =>
    take_flatMap (hlen l) 4
  have hfour : (block.drop (j * 4)).take 4 = [block.getD (j * 4) 0, block.getD (j * 4 + 1) 0,
      block.getD (j * 4 + 2) 0, block.getD (j * 4 + 3) 0] := by
    refine List.ext_getElem ?_ fun i hi hi' => ?_
    · rw [List.length_take, List.length_drop]
      exact Nat.min_eq_left (by omega)
    · have hcases : i = 0 ∨ i = 1 ∨ i = 2 ∨ i = 3 := by
        simp only [List.length_cons, List.length_nil] at hi'
        omega
      rw [List.getElem_take, List.getElem_drop]
      rcases hcases with rfl | rfl | rfl | rfl
      · simp [List.getD_eq_getElem?_getD, List.getElem?_eq_getElem (by omega : j * 4 < block.length)]
      · simp [List.getD_eq_getElem?_getD,
          List.getElem?_eq_getElem (by omega : j * 4 + 1 < block.length)]
      · simp [List.getD_eq_getElem?_getD,
          List.getElem?_eq_getElem (by omega : j * 4 + 2 < block.length)]
      · simp [List.getD_eq_getElem?_getD,
          List.getElem?_eq_getElem (by omega : j * 4 + 3 < block.length)]
  rw [blockWord, hdrop, htake, hfour]
  simp only [bytesBits_cons, natOfBits_append, hbits, length_bitsOf, List.length_append]
  refine congrArg (BitVec.ofNat 32) ?_
  have hnil : bytesBits [] = [] := rfl
  rw [hnil, List.length_nil]
  have hzero : natOfBits [] = 0 := rfl
  rw [hzero]
  ring

end Sha256

end Terllama
