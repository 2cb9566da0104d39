import Mathlib.Data.Bool.AllAny
import Terllama.Base.Sha256
import Terllama.Base.Stream

/-!
# The digest of a file

`sha256_file` of `distributed/node.cpp`. It reads the file in pieces of 65536 bytes, hashes the whole
blocks of what it holds and carries the rest. `sha256_file_digest` is that the text it returns is the
SHA-256 digest of the file.
-/

namespace Terllama

open Sha256

/-! ## Blocks -/

/-- `kShaK`. -/
def kShaK : List UInt32 := [
  0x428a2f98, 0x71374491, 0xb5c0fbcf, 0xe9b5dba5, 0x3956c25b, 0x59f111f1,
  0x923f82a4, 0xab1c5ed5, 0xd807aa98, 0x12835b01, 0x243185be, 0x550c7dc3,
  0x72be5d74, 0x80deb1fe, 0x9bdc06a7, 0xc19bf174, 0xe49b69c1, 0xefbe4786,
  0x0fc19dc6, 0x240ca1cc, 0x2de92c6f, 0x4a7484aa, 0x5cb0a9dc, 0x76f988da,
  0x983e5152, 0xa831c66d, 0xb00327c8, 0xbf597fc7, 0xc6e00bf3, 0xd5a79147,
  0x06ca6351, 0x14292967, 0x27b70a85, 0x2e1b2138, 0x4d2c6dfc, 0x53380d13,
  0x650a7354, 0x766a0abb, 0x81c2c92e, 0x92722c85, 0xa2bfe8a1, 0xa81a664b,
  0xc24b8b70, 0xc76c51a3, 0xd192e819, 0xd6990624, 0xf40e3585, 0x106aa070,
  0x19a4c116, 0x1e376c08, 0x2748774c, 0x34b0bcb5, 0x391c0cb3, 0x4ed8aa4a,
  0x5b9cca4f, 0x682e6ff3, 0x748f82ee, 0x78a5636f, 0x84c87814, 0x8cc70208,
  0x90befffa, 0xa4506ceb, 0xbef9a3f7, 0xc67178f2]

/-- The `h` that `sha256_file` starts with. -/
def shaInitial : Eight UInt32 :=
  ⟨0x6a09e667, 0xbb67ae85, 0x3c6ef372, 0xa54ff53a, 0x510e527f, 0x9b05688c, 0x1f83d9ab, 0x5be0cd19⟩

/-- `rotr32`. -/
def rotr32 (x n : UInt32) : UInt32 := (x >>> n) ||| (x <<< (32 - n))

/-- `w[t]` of the first loop of `process_block`. -/
def inputWord (p : Bytes) (t : Nat) : UInt32 :=
  (p.getD (t * 4) 0).toUInt32 <<< 24 ||| (p.getD (t * 4 + 1) 0).toUInt32 <<< 16 |||
    (p.getD (t * 4 + 2) 0).toUInt32 <<< 8 ||| (p.getD (t * 4 + 3) 0).toUInt32

/-- `w[t]` of the second loop. -/
def nextWord (w : List UInt32) (t : Nat) : UInt32 :=
  let s0 := rotr32 (w.getD (t - 15) 0) 7 ^^^ rotr32 (w.getD (t - 15) 0) 18 ^^^
    (w.getD (t - 15) 0 >>> 3)
  let s1 := rotr32 (w.getD (t - 2) 0) 17 ^^^ rotr32 (w.getD (t - 2) 0) 19 ^^^
    (w.getD (t - 2) 0 >>> 10)
  w.getD (t - 16) 0 + s0 + w.getD (t - 7) 0 + s1

/-- `w` after the two loops. -/
def messageWords (p : Bytes) : List UInt32 :=
  (List.range' 16 48).foldl (fun w t => w ++ [nextWord w t]) ((List.range 16).map (inputWord p))

/-- A pass of the third loop, over the working variables `a`, …, `hh`. -/
def shaRound (w : List UInt32) (v : Eight UInt32) (t : Nat) : Eight UInt32 :=
  let s1 := rotr32 v.e 6 ^^^ rotr32 v.e 11 ^^^ rotr32 v.e 25
  let ch := (v.e &&& v.f) ^^^ (~~~v.e &&& v.g)
  let t1 := v.h + s1 + ch + kShaK.getD t 0 + w.getD t 0
  let s0 := rotr32 v.a 2 ^^^ rotr32 v.a 13 ^^^ rotr32 v.a 22
  let maj := (v.a &&& v.b) ^^^ (v.a &&& v.c) ^^^ (v.b &&& v.c)
  let t2 := s0 + maj
  ⟨t1 + t2, v.a, v.b, v.c, v.d + t1, v.e, v.f, v.g⟩

/-- `process_block`, of the 64 bytes at `p`. -/
def processBlock (h : Eight UInt32) (p : Bytes) : Eight UInt32 :=
  h.zipWith (· + ·) ((List.range 64).foldl (shaRound (messageWords p)) h)

/-- The loop over the whole blocks of `carry`. -/
def processBlocks (h : Eight UInt32) (carry : Bytes) : Eight UInt32 :=
  (List.range (carry.length / 64)).foldl
    (fun h i => processBlock h ((carry.drop (i * 64)).take 64)) h

/-! ## `sha256_file` -/

/-- What `sha256_file` keeps between two reads. -/
structure ShaState where
  h : Eight UInt32 := shaInitial
  total : UInt64 := 0
  carry : Bytes := []
  deriving DecidableEq, Repr

/-- `f.read(buf, n)`: the `f.gcount()` bytes that were read. -/
def readCount (n : Nat) (f : InStream) : Bytes × InStream :=
  if f.fail then ([], f)
  else (f.rest.take n, ⟨f.rest.drop n, (f.rest.take n).length < n⟩)

/-- The body of the loop after a read. -/
def ShaState.update (s : ShaState) (got : Bytes) : ShaState :=
  let carry := s.carry ++ got
  { h := processBlocks s.h carry
    total := s.total + UInt64.ofNat got.length
    carry := carry.drop (carry.length / 64 * 64) }

theorem readCount_rest_lt {n : Nat} {f : InStream} (h : (readCount n f).1.length ≠ 0) :
    (readCount n f).2.rest.length < f.rest.length := by
  unfold readCount at h ⊢
  split
  · rename_i hfail
    rw [if_pos hfail] at h
    exact absurd rfl h
  · rename_i hfail
    rw [if_neg hfail] at h
    dsimp only at h ⊢
    rw [List.length_take] at h
    rw [List.length_drop]
    omega

/-- The read loop. -/
def readLoop (f : InStream) (s : ShaState) : ShaState :=
  if _ : (readCount 65536 f).1.length = 0 then s
  else if (readCount 65536 f).1.length < 65536 then s.update (readCount 65536 f).1
  else readLoop (readCount 65536 f).2 (s.update (readCount 65536 f).1)
termination_by f.rest.length
decreasing_by exact readCount_rest_lt ‹_›

/-- `while (carry.size() % 64 != 56) carry.push_back(0)`. -/
def pushZeros (carry : Bytes) : Bytes :=
  if carry.length % 64 ≠ 56 then pushZeros (carry ++ [0]) else carry
termination_by (120 - carry.length % 64) % 64
decreasing_by
  rw [List.length_append, List.length_singleton]
  omega

/-- What follows the read loop, up to the last block. -/
def ShaState.finish (s : ShaState) : Eight UInt32 :=
  let bitlen := s.total * 8
  let carry := pushZeros (s.carry ++ [0x80])
  let length : List UInt64 := [7, 6, 5, 4, 3, 2, 1, 0]
  let carry := carry ++ length.map fun t => (bitlen >>> (t * 8)).toUInt8
  processBlocks s.h carry

/-- `hexc` of the eight words. -/
def shaHex (h : Eight UInt32) : Bytes :=
  let shifts : List UInt32 := [28, 24, 20, 16, 12, 8, 4, 0]
  h.toList.flatMap fun w => shifts.map fun s =>
    (str "0123456789abcdef").getD ((w >>> s) &&& 0xF).toNat 0

/-- `sha256_file`, of the content of the file that it opens. -/
def sha256File (file : Option Bytes) : Bytes :=
  match file with
  | none => []
  | some content => shaHex (readLoop (InStream.open content) {}).finish

/-! ## One block -/

theorem toBitVec_rotr32 (x : UInt32) {n : UInt32} (hpos : 0 < n.toNat) (hlt : n.toNat < 32) :
    (rotr32 x n).toBitVec = x.toBitVec.rotateRight n.toNat := by
  have hright : (n.toBitVec % 32).toNat = n.toNat := by
    rw [BitVec.toNat_umod, UInt32.toNat_toBitVec]
    exact Nat.mod_eq_of_lt hlt
  have hleft : ((32 - n).toBitVec % 32).toNat = 32 - n.toNat := by
    have hsub : (32 - n).toNat = 32 - n.toNat := UInt32.toNat_sub_of_le _ _ hlt.le
    rw [BitVec.toNat_umod, UInt32.toNat_toBitVec, hsub]
    exact Nat.mod_eq_of_lt (Nat.sub_lt (Nat.succ_pos 31) hpos)
  rw [rotr32, UInt32.toBitVec_or, UInt32.toBitVec_shiftRight, UInt32.toBitVec_shiftLeft,
    BitVec.ushiftRight_eq', BitVec.shiftLeft_eq', hright, hleft, BitVec.rotateRight_def,
    Nat.mod_eq_of_lt hlt]

theorem toBitVec_rotr32_three (x : UInt32) {l m n : UInt32}
    (hl : 0 < l.toNat ∧ l.toNat < 32) (hm : 0 < m.toNat ∧ m.toNat < 32)
    (hn : 0 < n.toNat ∧ n.toNat < 32) :
    (rotr32 x l ^^^ rotr32 x m ^^^ rotr32 x n).toBitVec =
      x.toBitVec.rotateRight l.toNat ^^^ x.toBitVec.rotateRight m.toNat ^^^
        x.toBitVec.rotateRight n.toNat := by
  rw [UInt32.toBitVec_xor, UInt32.toBitVec_xor, toBitVec_rotr32 x hl.1 hl.2,
    toBitVec_rotr32 x hm.1 hm.2, toBitVec_rotr32 x hn.1 hn.2]

theorem toBitVec_rotr32_shift (x : UInt32) {l m s : UInt32}
    (hl : 0 < l.toNat ∧ l.toNat < 32) (hm : 0 < m.toNat ∧ m.toNat < 32) (hs : s.toNat < 32) :
    (rotr32 x l ^^^ rotr32 x m ^^^ (x >>> s)).toBitVec =
      x.toBitVec.rotateRight l.toNat ^^^ x.toBitVec.rotateRight m.toNat ^^^
        x.toBitVec >>> s.toNat := by
  have hshift : (s.toBitVec % 32).toNat = s.toNat := by
    rw [BitVec.toNat_umod, UInt32.toNat_toBitVec]
    exact Nat.mod_eq_of_lt hs
  rw [UInt32.toBitVec_xor, UInt32.toBitVec_xor, toBitVec_rotr32 x hl.1 hl.2,
    toBitVec_rotr32 x hm.1 hm.2, UInt32.toBitVec_shiftRight, BitVec.ushiftRight_eq', hshift]

theorem toBitVec_bigSigma0 (x : UInt32) :
    (rotr32 x 2 ^^^ rotr32 x 13 ^^^ rotr32 x 22).toBitVec = bigSigma0 x.toBitVec :=
  toBitVec_rotr32_three x (by decide) (by decide) (by decide)

theorem toBitVec_bigSigma1 (x : UInt32) :
    (rotr32 x 6 ^^^ rotr32 x 11 ^^^ rotr32 x 25).toBitVec = bigSigma1 x.toBitVec :=
  toBitVec_rotr32_three x (by decide) (by decide) (by decide)

theorem toBitVec_sigma0 (x : UInt32) :
    (rotr32 x 7 ^^^ rotr32 x 18 ^^^ (x >>> 3)).toBitVec = sigma0 x.toBitVec :=
  toBitVec_rotr32_shift x (by decide) (by decide) (by decide)

theorem toBitVec_sigma1 (x : UInt32) :
    (rotr32 x 17 ^^^ rotr32 x 19 ^^^ (x >>> 10)).toBitVec = sigma1 x.toBitVec :=
  toBitVec_rotr32_shift x (by decide) (by decide) (by decide)

/-- A byte moved up. -/
theorem toNat_byte_shiftLeft (b : UInt8) {s : UInt32} (hs : s.toNat ≤ 24) :
    (b.toUInt32 <<< s).toNat = b.toNat * 2 ^ s.toNat := by
  have hb := b.toNat_lt
  have hpow : 2 ^ s.toNat ≤ 2 ^ 24 := Nat.pow_le_pow_right Nat.two_pos hs
  have hmod : s.toNat % 32 = s.toNat := Nat.mod_eq_of_lt (by omega)
  rw [UInt32.toNat_shiftLeft, UInt8.toNat_toUInt32, Nat.shiftLeft_eq, hmod]
  refine Nat.mod_eq_of_lt ?_
  calc b.toNat * 2 ^ s.toNat ≤ b.toNat * 2 ^ 24 := Nat.mul_le_mul_left _ hpow
    _ < 2 ^ 32 := by omega

/-- Bits that do not overlap add up. -/
theorem mul_or {x y k p : Nat} (hp : 2 ^ k = p) (h : y < p) : x * p ||| y = x * p + y := by
  subst hp
  rw [← Nat.shiftLeft_eq, Nat.shiftLeft_add_eq_or_of_lt h]

theorem four_bytes_or {b0 b1 b2 b3 : Nat} (h1 : b1 < 256) (h2 : b2 < 256) (h3 : b3 < 256) :
    b0 * 16777216 ||| b1 * 65536 ||| b2 * 256 ||| b3 =
      ((b0 * 256 + b1) * 256 + b2) * 256 + b3 := by
  have k2 : b2 * 256 < 65536 := Nat.mul_lt_mul_of_pos_right h2 (Nat.succ_pos 255)
  have k1 : b1 * 65536 < 16777216 := Nat.mul_lt_mul_of_pos_right h1 (Nat.succ_pos 65535)
  have s1 : b0 * 16777216 + b1 * 65536 = (b0 * 256 + b1) * 65536 := by ring
  have s2 : (b0 * 256 + b1) * 65536 + b2 * 256 = ((b0 * 256 + b1) * 256 + b2) * 256 := by ring
  have p24 : 2 ^ 24 = 16777216 := by norm_num
  have p16 : 2 ^ 16 = 65536 := by norm_num
  have p8 : 2 ^ 8 = 256 := by norm_num
  rw [mul_or p24 k1, s1, mul_or p16 k2, s2, mul_or p8 h3]

/-- The bytes of a word, the highest first. -/
theorem toBitVec_inputWord (p : Bytes) (t : Nat) :
    (inputWord p t).toBitVec = BitVec.ofNat 32
      ((((p.getD (t * 4) 0).toNat * 256 + (p.getD (t * 4 + 1) 0).toNat) * 256 +
        (p.getD (t * 4 + 2) 0).toNat) * 256 + (p.getD (t * 4 + 3) 0).toNat) := by
  have h24 := toNat_byte_shiftLeft (p.getD (t * 4) 0) (s := 24) (by decide)
  have h16 := toNat_byte_shiftLeft (p.getD (t * 4 + 1) 0) (s := 16) (by decide)
  have h8 := toNat_byte_shiftLeft (p.getD (t * 4 + 2) 0) (s := 8) (by decide)
  have hlit : ∀ (s : UInt32) (k : Nat), 2 ^ s.toNat = k → 2 ^ s.toNat = k := fun s k h => h
  rw [hlit 24 16777216 rfl] at h24
  rw [hlit 16 65536 rfl] at h16
  rw [hlit 8 256 rfl] at h8
  refine BitVec.eq_of_toNat_eq ?_
  rw [UInt32.toNat_toBitVec, inputWord, UInt32.toNat_or, UInt32.toNat_or, UInt32.toNat_or, h24, h16,
    h8, UInt8.toNat_toUInt32, four_bytes_or (UInt8.toNat_lt _) (UInt8.toNat_lt _)
      (UInt8.toNat_lt _), BitVec.toNat_ofNat]
  refine (Nat.mod_eq_of_lt ?_).symm
  have h0 := (p.getD (t * 4) 0).toNat_lt
  have h1 := (p.getD (t * 4 + 1) 0).toNat_lt
  have h2 := (p.getD (t * 4 + 2) 0).toNat_lt
  have h3 := (p.getD (t * 4 + 3) 0).toNat_lt
  omega

section
variable {w : List UInt32} {m : Nat → Word}

/-- `w` holds the first `n` words of the schedule. -/
def Schedules (m : Nat → Word) (w : List UInt32) (n : Nat) : Prop :=
  w.map UInt32.toBitVec = (List.range n).map (schedule m)

theorem Schedules.getD {n t : Nat} (h : Schedules m w n) (ht : t < n) :
    (w.getD t 0).toBitVec = schedule m t := by
  have hlen : w.length = n := by
    have hlen := congrArg List.length h
    rwa [List.length_map, List.length_map, List.length_range] at hlen
  have hlook : (w.map UInt32.toBitVec)[t]? = ((List.range n).map (schedule m))[t]? :=
    congrArg (·[t]?) h
  rw [List.getElem?_map, List.getElem?_map, List.getElem?_range ht,
    List.getElem?_eq_getElem (hlen ▸ ht)] at hlook
  rw [List.getD_eq_getElem?_getD, List.getElem?_eq_getElem (hlen ▸ ht)]
  exact Option.some.inj hlook

/-- A pass of the second loop. -/
theorem Schedules.next {n : Nat} (h : Schedules m w n) (hn : 16 ≤ n) :
    Schedules m (w ++ [nextWord w n]) (n + 1) := by
  have hword : (nextWord w n).toBitVec = schedule m n := by
    rw [nextWord, schedule, dif_neg (Nat.not_lt.2 hn), ← h.getD (Nat.sub_lt (by omega) (by omega)),
      ← h.getD (Nat.sub_lt (by omega) (by omega)), ← h.getD (Nat.sub_lt (by omega) (by omega)),
      ← h.getD (Nat.sub_lt (by omega) (by omega)), ← toBitVec_sigma0, ← toBitVec_sigma1]
    rw [UInt32.toBitVec_add, UInt32.toBitVec_add, UInt32.toBitVec_add]
    ac_rfl
  rw [Schedules, List.map_append, h, List.range_succ, List.map_append, List.map_singleton,
    List.map_singleton, hword]

theorem messageWords_schedules {p : Bytes} (hm : ∀ t < 16, (inputWord p t).toBitVec = m t) :
    Schedules m (messageWords p) 64 := by
  have hfirst : Schedules m ((List.range 16).map (inputWord p)) 16 := by
    rw [Schedules, List.map_map]
    refine List.map_congr_left fun t ht => ?_
    have hlt := List.mem_range.1 ht
    rw [Function.comp_apply, hm t hlt, schedule, dif_pos hlt]
  have hloop : ∀ n, Schedules m ((List.range' 16 n).foldl (fun w t => w ++ [nextWord w t])
      ((List.range 16).map (inputWord p))) (16 + n) := by
    intro n
    induction n with
    | zero => exact hfirst
    | succ n ih =>
      rw [List.range'_concat, List.foldl_append, Nat.one_mul]
      exact ih.next (Nat.le_add_right 16 n)
  exact hloop 48

end

/-! ## The constants -/

/-- A number of 35 bits whose low word is `k` and whose high one is the whole part of the cube root
of `p`. -/
def cubeRoot (p : Nat) (k : UInt32) : Nat :=
  ((List.range 7).countP fun i => (i + 1) ^ 3 ≤ p) * 2 ^ 32 + k.toNat

/-- `kShaK` is the table of the standard. -/
theorem constants_eq : constants = kShaK.map UInt32.toBitVec := by
  have hroots : List.Forall₂
      (fun p r => r ^ 3 ≤ p * 2 ^ (32 * 3) ∧ p * 2 ^ (32 * 3) < (r + 1) ^ 3) primes
      (primes.zipWith cubeRoot kShaK) := by
    rw [primes_eq]
    decide +kernel
  have hlow : (primes.zipWith cubeRoot kShaK).map (BitVec.ofNat 32) = kShaK.map UInt32.toBitVec := by
    rw [primes_eq]
    decide +kernel
  exact (map_rootFraction (Nat.succ_ne_zero 2) hroots).trans hlow

/-- The same for square roots. -/
def squareRoot (p : Nat) (k : UInt32) : Nat :=
  ((List.range 7).countP fun i => (i + 1) ^ 2 ≤ p) * 2 ^ 32 + k.toNat

theorem initial_eq : initial = shaInitial.map UInt32.toBitVec := by
  have hroots : List.Forall₂
      (fun p r => r ^ 2 ≤ p * 2 ^ (32 * 2) ∧ p * 2 ^ (32 * 2) < (r + 1) ^ 2) (primes.take 8)
      ((primes.take 8).zipWith squareRoot shaInitial.toList) := by
    rw [primes_eq]
    decide +kernel
  have hlow : ((primes.take 8).zipWith squareRoot shaInitial.toList).map (BitVec.ofNat 32) =
      (shaInitial.map UInt32.toBitVec).toList := by
    rw [primes_eq]
    decide +kernel
  have hlist := (map_rootFraction (Nat.succ_ne_zero 1) hroots).trans hlow
  have htake : (primes.take 8).map (rootFraction 2) = initial.toList := by
    rw [initial, primes_eq]
    rfl
  rw [htake] at hlist
  cases hinitial : initial
  rw [hinitial] at hlist
  simp only [Eight.toList, List.cons.injEq, and_true] at hlist
  obtain ⟨ha, hb, hc, hd, he, hf, hg, hh⟩ := hlist
  rw [ha, hb, hc, hd, he, hf, hg, hh]

/-! ## The compression -/

section
variable {w : List UInt32} {m : Nat → Word}

theorem shaRound_eq (h : Schedules m w 64) {t : Nat} (ht : t < 64) (v : Eight UInt32) :
    (shaRound w v t).map UInt32.toBitVec =
      Sha256.round (constants.getD t 0) (schedule m t) (v.map UInt32.toBitVec) := by
  have hconst : constants.getD t 0 = (kShaK.getD t 0).toBitVec := by
    rw [constants_eq, List.getD_eq_getElem?_getD, List.getD_eq_getElem?_getD, List.getElem?_map]
    cases kShaK[t]? with
    | none => rfl
    | some k => rfl
  rw [hconst, ← h.getD ht]
  simp only [shaRound, Eight.map, Sha256.round, UInt32.toBitVec_add, toBitVec_bigSigma0,
    toBitVec_bigSigma1]
  rfl

theorem foldl_shaRound (h : Schedules m w 64) {n : Nat} (hn : n ≤ 64) (v : Eight UInt32) :
    ((List.range n).foldl (shaRound w) v).map UInt32.toBitVec =
      (List.range n).foldl (fun v t => Sha256.round (constants.getD t 0) (schedule m t) v)
        (v.map UInt32.toBitVec) := by
  induction n with
  | zero => rfl
  | succ n ih =>
    rw [List.range_succ, List.foldl_append, List.foldl_append, ← ih (Nat.le_of_succ_le hn)]
    exact shaRound_eq h hn _

end

theorem map_zipWith_add (v w : Eight UInt32) :
    (v.zipWith (· + ·) w).map UInt32.toBitVec =
      (v.map UInt32.toBitVec).zipWith (· + ·) (w.map UInt32.toBitVec) := rfl

/-- `process_block` is the compression of a block. -/
theorem processBlock_eq (h : Eight UInt32) {p : Bytes} (hp : p.length = 64) :
    (processBlock h p).map UInt32.toBitVec =
      compress (h.map UInt32.toBitVec) (blockWord (bytesBits p)) := by
  have hwords : ∀ t < 16, (inputWord p t).toBitVec = blockWord (bytesBits p) t := fun t ht => by
    rw [toBitVec_inputWord, blockWord_bytesBits (by omega)]
  rw [processBlock, map_zipWith_add, foldl_shaRound (messageWords_schedules hwords) (le_refl 64)]
  rfl

/-- The blocks of a message of bytes. -/
theorem foldl_processBlock (blocks : List Bytes) (hblocks : ∀ p ∈ blocks, p.length = 64)
    (h : Eight UInt32) :
    (blocks.foldl processBlock h).map UInt32.toBitVec =
      (blocks.map bytesBits).foldl (fun h block => compress h (blockWord block))
        (h.map UInt32.toBitVec) := by
  induction blocks generalizing h with
  | nil => rfl
  | cons p blocks ih =>
    rw [List.foldl_cons, ih fun q hq => hblocks q (List.mem_cons_of_mem p hq), List.map_cons,
      List.foldl_cons, processBlock_eq h (hblocks p List.mem_cons_self)]

/-! ## The pieces of a file -/

theorem processBlocks_eq (h : Eight UInt32) (carry : Bytes) :
    processBlocks h carry = (chunks 64 carry).foldl processBlock h := by
  rw [processBlocks, chunks, List.foldl_map]

/-- The state after the bytes that were read: their whole blocks are hashed, and the rest carried. -/
structure Absorbed (done : Bytes) (s : ShaState) : Prop where
  h : s.h = (chunks 64 done).foldl processBlock shaInitial
  total : s.total = UInt64.ofNat done.length
  carry : s.carry = leftover 64 done

theorem Absorbed.update {done : Bytes} {s : ShaState} (h : Absorbed done s) (got : Bytes) :
    Absorbed (done ++ got) (s.update got) where
  h := by
    have hupdate : (s.update got).h = processBlocks s.h (s.carry ++ got) := rfl
    rw [hupdate, processBlocks_eq, h.h, h.carry, chunks_append 64 done got, List.foldl_append]
  total := by
    have hupdate : (s.update got).total = s.total + UInt64.ofNat got.length := rfl
    rw [hupdate, h.total, List.length_append, UInt64.ofNat_add]
  carry := by
    rw [leftover_append, ← h.carry]
    rfl

/-- The loop reads the file to its end, whichever reads are full. -/
theorem readLoop_absorbed (f : InStream) (hf : f.fail = false) {done : Bytes} {s : ShaState}
    (h : Absorbed done s) : Absorbed (done ++ f.rest) (readLoop f s) := by
  have hread : (readCount 65536 f).1 = f.rest.take 65536 := by
    rw [readCount, hf, if_neg Bool.false_ne_true]
  have hnext : (readCount 65536 f).2 =
      ⟨f.rest.drop 65536, (f.rest.take 65536).length < 65536⟩ := by
    rw [readCount, hf, if_neg Bool.false_ne_true]
  induction hn : f.rest.length using Nat.strong_induction_on generalizing f done s with
  | _ n ih =>
    rw [readLoop]
    split
    · rename_i hzero
      rw [hread] at hzero
      have hnil : f.rest = [] := by
        rcases List.take_eq_nil_iff.1 (List.length_eq_zero_iff.1 hzero) with h | h
        · cases h
        · exact h
      rw [hnil, List.append_nil]
      exact h
    · rename_i hsome
      split
      · rename_i hshort
        rw [hread] at hshort ⊢
        have hall : f.rest.take 65536 = f.rest := by
          rw [List.length_take] at hshort
          exact List.take_of_length_le (by omega)
        rw [hall]
        exact h.update f.rest
      · rename_i hfull
        have hdrop := readCount_rest_lt hsome
        rw [hread] at hfull ⊢
        have hok : (readCount 65536 f).2.fail = false := by
          rw [hnext]
          exact decide_eq_false hfull
        have hstep := ih _ (hn ▸ hdrop) (readCount 65536 f).2 hok (h.update (f.rest.take 65536))
          (by rw [readCount, hok, if_neg Bool.false_ne_true])
          (by rw [readCount, hok, if_neg Bool.false_ne_true]) rfl
        rw [hnext] at hstep ⊢
        rw [List.append_assoc, List.take_append_drop] at hstep
        exact hstep

/-! ## The padding -/

theorem pushZeros_eq (carry : Bytes) :
    pushZeros carry = carry ++ List.replicate ((120 - carry.length % 64) % 64) 0 := by
  induction carry using pushZeros.induct with
  | case1 carry hmore ih =>
    have hcount : (120 - carry.length % 64) % 64 =
        (120 - (carry ++ [0]).length % 64) % 64 + 1 := by
      rw [List.length_append, List.length_singleton]
      omega
    rw [pushZeros, if_pos hmore, ih, hcount, List.replicate_succ, List.append_assoc]
    rfl
  | case2 carry hdone =>
    have hcount : (120 - carry.length % 64) % 64 = 0 := by omega
    rw [pushZeros, if_neg hdone, hcount, List.replicate_zero, List.append_nil]

/-- A byte of the length. -/
theorem toUInt8_shiftRight (x : UInt64) {t : UInt64} (ht : t.toNat < 8) :
    (x >>> (t * 8)).toUInt8 = UInt8.ofNat (x.toNat / 2 ^ (t.toNat * 8)) := by
  have hshift : (t * 8).toNat % 64 = t.toNat * 8 := by
    rw [UInt64.toNat_mul]
    have height : (8 : UInt64).toNat = 8 := rfl
    rw [height]
    omega
  refine UInt8.toNat.inj ?_
  rw [UInt64.toNat_toUInt8, UInt64.toNat_shiftRight, hshift, Nat.shiftRight_eq_div_pow,
    UInt8.toNat_ofNat']

theorem map_toUInt8_shiftRight (x : UInt64) :
    ([7, 6, 5, 4, 3, 2, 1, 0] : List UInt64).map (fun t => (x >>> (t * 8)).toUInt8) =
      lengthBytes x.toNat := by
  have hsmall : ∀ t ∈ ([7, 6, 5, 4, 3, 2, 1, 0] : List UInt64), t.toNat < 8 :=
    List.all_iff_forall_prop.1 rfl
  exact List.map_congr_left fun t ht => toUInt8_shiftRight x (hsmall t ht)

/-- The last blocks. -/
theorem Absorbed.finish {content : Bytes} {s : ShaState} (h : Absorbed content s)
    (hlen : content.length < 2 ^ 61) :
    s.finish = (chunks 64 (padBytes content)).foldl processBlock shaInitial := by
  have hbits : (s.total * 8).toNat = content.length * 8 := by
    have height : (8 : UInt64).toNat = 8 := rfl
    rw [h.total, UInt64.toNat_mul, UInt64.toNat_ofNat', height]
    omega
  have hzeros : (120 - (s.carry ++ [0x80]).length % 64) % 64 = zeroBytes content.length := by
    rw [h.carry, List.length_append, length_leftover, List.length_singleton, zeroBytes]
    omega
  rw [ShaState.finish, map_toUInt8_shiftRight, hbits, pushZeros_eq, hzeros, processBlocks_eq, h.h, h.carry,
    List.append_assoc, List.append_assoc, ← List.foldl_append, ← chunks_append, padBytes,
    List.append_assoc]
  rfl

/-! ## The digest -/

theorem shaHex_eq (h : Eight UInt32) :
    shaHex h = hexText ((h.map UInt32.toBitVec).toList.flatMap fun w => bitsOf 32 w.toNat) := by
  have hdigit : ∀ (w s : UInt32), s.toNat < 32 →
      ((w >>> s) &&& 0xF).toNat = w.toNat / 2 ^ s.toNat % 16 := by
    intro w s hs
    have hmask : (0xF : UInt32).toNat = 2 ^ 4 - 1 := rfl
    rw [UInt32.toNat_and, UInt32.toNat_shiftRight, Nat.mod_eq_of_lt hs, hmask,
      Nat.and_two_pow_sub_one_eq_mod, Nat.shiftRight_eq_div_pow]
  have hwords : ((h.map UInt32.toBitVec).toList.flatMap fun w => bitsOf 32 w.toNat) =
      (h.toList.map UInt32.toNat).flatMap (bitsOf (8 * 4)) := rfl
  rw [hwords, hexText_flatMap_bitsOf, List.flatMap_map, shaHex]
  refine congrArg (List.flatMap · h.toList) (funext fun w => ?_)
  have hsmall : ∀ s ∈ ([28, 24, 20, 16, 12, 8, 4, 0] : List UInt32), s.toNat < 32 :=
    List.all_iff_forall_prop.1 rfl
  have hnibbles : ([28, 24, 20, 16, 12, 8, 4, 0] : List UInt32).map
      (fun s => (str "0123456789abcdef").getD ((w >>> s) &&& 0xF).toNat 0) =
        ([28, 24, 20, 16, 12, 8, 4, 0] : List UInt32).map fun s =>
          (str "0123456789abcdef").getD (w.toNat / 2 ^ s.toNat % 16) 0 :=
    List.map_congr_left fun s hs => by rw [hdigit w s (hsmall s hs)]
  exact hnibbles

/-- `sha256_file` returns the SHA-256 digest of the file in hexadecimal. -/
theorem sha256_file_digest (content : Bytes) (h : content.length < 2 ^ 61) :
    sha256File (some content) = hexText (digest (bytesBits content)) := by
  have hstart : Absorbed [] {} := ⟨rfl, rfl, rfl⟩
  have hread : Absorbed content (readLoop (InStream.open content) {}) :=
    readLoop_absorbed (InStream.open content) rfl hstart
  have hblocks : ∀ p ∈ chunks 64 (padBytes content), p.length = 64 := fun p hp =>
    (mem_chunks hp).1
  rw [sha256File, hread.finish h, shaHex_eq, foldl_processBlock _ hblocks, ← chunks_bytesBits, ← initial_eq,
    ← pad_bytesBits]
  rfl

/-- The digest of three letters. -/
theorem sha256_file_digest_abc :
    hexText (digest (bytesBits (str "abc"))) =
      str "ba7816bf8f01cfea414140de5dae2223b00361a396177a9cb410ff61f20015ad" := by
  rw [← sha256_file_digest (str "abc") (by decide)]
  decide +kernel

end Terllama
