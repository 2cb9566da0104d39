import Terllama.Base.FloatInt
import Terllama.Base.Guard
import Terllama.Core.KVCache
import Terllama.Model

/-!
# Rotary embedding and attention

`build_rope_cache`, `apply_rope` and `attention` of `src/core/inference.cpp`, with every index into
the rotary tables, the key and value buffers, the scores and the rows of the heads. The index
expressions are `int` expressions. The projections are given by what they leave in their buffers, and
the arithmetic of floats by its operations: neither has a part in where a loop reads.

Only the cache tests the position (`KVCache.append`). `attend_ensures` says what the rest of the pass
relies on.
-/

namespace Terllama

/-! ## The rotary tables -/

/-- `RoPECache`. -/
structure RoPECache where
  sin : List F32
  cos : List F32
  maxSeqLen : Int
  headDim : Int
  deriving DecidableEq, Repr

/-- The floating-point entries of the tables, from the base, the width of a head, the position and
the index in it. -/
structure TrigOps where
  sin : F32 → Int → Nat → Nat → F32
  cos : F32 → Int → Nat → Nat → F32

/-- The loops of `build_rope_cache` over one of its tables. -/
def ropeTable (entry : Nat → Nat → F32) (maxSeqLen half : Int) : Exec (List F32) := do
  let n ← i32 (maxSeqLen * half)
  if n < 0 then raise "vector::_M_default_append"
  else
    (List.range maxSeqLen.toNat).foldlM (fun table pos =>
      (List.range half.toNat).foldlM (fun table j =>
        writeAt table (pos * half.toNat + j) [entry pos j]) table) (List.replicate n.toNat 0)

/-- `build_rope_cache`. -/
def buildRopeCache (trig : TrigOps) (maxSeqLen headDim : Int) (theta : F32) : Exec RoPECache := do
  let sin ← ropeTable (trig.sin theta headDim) maxSeqLen (headDim.tdiv 2)
  let cos ← ropeTable (trig.cos theta headDim) maxSeqLen (headDim.tdiv 2)
  return { sin, cos, maxSeqLen, headDim }

/-! ## The operations -/

/-- The arithmetic of floats. -/
structure FloatOps where
  add : F32 → F32 → F32
  sub : F32 → F32 → F32
  mul : F32 → F32 → F32
  div : F32 → F32 → F32
  sqrt : F32 → F32
  exp : F32 → F32
  less : F32 → F32 → Bool

/-- What the projections of a layer leave in the buffers of the queries, the keys and the values,
after the norms of the heads. -/
structure ProjectionOps where
  query : Nat → List F32 → List F32
  key : Nat → List F32 → List F32
  value : Nat → List F32 → List F32

/-- The quotient of two `int`s. -/
def div32 (a b : Int) : Exec Int :=
  if b = 0 then undefined "division by zero" else i32 (a.tdiv b)

/-- `scratch_resize`: the buffer grows, and keeps what it held. -/
def scratchResize (buf : List F32) (n : Nat) : Exec (List F32) :=
  if buf.length < n then
    if n ≤ vectorMaxSize 4 then .ok (vectorResize buf n 0) else raise "vector::_M_default_append"
  else .ok buf

/-! ## The rotation -/

section
variable (fl : FloatOps)

/-- The loop over the pairs of the head at `off`. -/
def rotateHead (rope : RoPECache) (base : Int) (half : Nat) (off : Int) (buf : List F32) :
    Exec (List F32) :=
  (List.range half).foldlM (fun buf (j : Nat) => do
    let x0 ← loadAt buf (off + 2 * j)
    let x1 ← loadAt buf (off + (2 * j + 1))
    let cos ← loadAt rope.cos (base + j)
    let sin ← loadAt rope.sin (base + j)
    let buf ← storeAt buf (off + 2 * j) (fl.sub (fl.mul x0 cos) (fl.mul x1 sin))
    storeAt buf (off + (2 * j + 1)) (fl.add (fl.mul x0 sin) (fl.mul x1 cos))) buf

/-- The loop over the heads of a buffer. -/
def rotateHeads (rope : RoPECache) (base : Int) (nHeads headDim : Int) (buf : List F32) :
    Exec (List F32) :=
  (List.range nHeads.toNat).foldlM (fun buf (h : Nat) => do
    let off ← i32 (h * headDim)
    rotateHead fl rope base (headDim.tdiv 2).toNat off buf) buf

/-- `apply_rope`. -/
def applyRope (q k : List F32) (seqPos nHeads nKvHeads headDim : Int) (rope : RoPECache) :
    Exec (List F32 × List F32) := do
  let base ← i32 (seqPos * headDim.tdiv 2)
  let q ← rotateHeads fl rope base nHeads headDim q
  let k ← rotateHeads fl rope base nKvHeads headDim k
  return (q, k)

/-! ## The scores -/

/-- The sum of the products of two runs of `n` elements. -/
def dotRows (a b : List F32) (offA offB : Int) (n : Nat) : Exec F32 :=
  (List.range n).foldlM (fun s (j : Nat) => do
    let x ← loadAt a (offA + j)
    let y ← loadAt b (offB + j)
    return fl.add s (fl.mul x y)) 0

/-- The row of a position and a group of heads in a buffer of the cache: `kh * HD + t * KV * HD`. -/
def cacheRow (cfg : ModelConfig) (kh : Int) (t : Nat) : Exec Int := do
  let head ← i32 (kh * cfg.headDim)
  let row ← i32 (t * cfg.numKeyValueHeads)
  let row ← i32 (row * cfg.headDim)
  return head + row

/-- The loop over the positions that scores the keys for head `h`. -/
def headScores (cfg : ModelConfig) (g : Int) (q keys : List F32) (kvLen : Int) (scores : List F32)
    (h : Nat) : Exec (List F32) := do
  let kh ← div32 h g
  let qOff ← i32 (h * cfg.headDim)
  let sOff ← i32 (h * kvLen)
  (List.range kvLen.toNat).foldlM (fun scores (t : Nat) => do
    let row ← cacheRow cfg kh t
    let s ← dotRows fl q keys qOff row cfg.headDim.toNat
    storeAt scores (sOff + t) (fl.div s (fl.sqrt (F32.ofInt cfg.headDim)))) scores

/-- `*std::max_element` of the scores of a head, which reads the first one even where there is
none. -/
def maxScore (scores : List F32) (off kvLen : Int) : Exec F32 := do
  let first ← loadAt scores off
  (List.range kvLen.toNat).foldlM (fun best (t : Nat) => do
    let s ← loadAt scores (off + t)
    return if fl.less best s then s else best) first

/-- The softmax of the scores of head `h`. -/
def softmaxHead (kvLen : Int) (scores : List F32) (h : Nat) : Exec (List F32) := do
  let off ← i32 (h * kvLen)
  let maxv ← maxScore fl scores off kvLen
  let (scores, sum) ← (List.range kvLen.toNat).foldlM (fun (p : List F32 × F32) (t : Nat) => do
    let s ← loadAt p.1 (off + t)
    let scores ← storeAt p.1 (off + t) (fl.exp (fl.sub s maxv))
    return (scores, fl.add p.2 (fl.exp (fl.sub s maxv)))) (scores, 0)
  (List.range kvLen.toNat).foldlM (fun scores (t : Nat) => do
    let s ← loadAt scores (off + t)
    storeAt scores (off + t) (fl.div s sum)) scores

/-- The loops that weight the values for head `h`. -/
def headOutput (cfg : ModelConfig) (g : Int) (values scores : List F32) (kvLen : Int)
    (out : List F32) (h : Nat) : Exec (List F32) := do
  let kh ← div32 h g
  let oOff ← i32 (h * cfg.headDim)
  let sOff ← i32 (h * kvLen)
  (List.range kvLen.toNat).foldlM (fun out (t : Nat) => do
    let row ← cacheRow cfg kh t
    (List.range cfg.headDim.toNat).foldlM (fun out (j : Nat) => do
      let o ← loadAt out (oOff + j)
      let s ← loadAt scores (sOff + t)
      let v ← loadAt values (row + j)
      storeAt out (oOff + j) (fl.add o (fl.mul s v))) out) out

/-! ## The pass -/

/-- `attention` up to the cache: the rotated queries and keys, and the values. -/
def attentionRows (proj : ProjectionOps) (cfg : ModelConfig) (rope : RoPECache) (seqPos : Int)
    (layer : Nat) (x : List F32) : Exec (Int × List F32 × List F32 × List F32) := do
  let g ← div32 cfg.numAttentionHeads cfg.numKeyValueHeads
  let nq := sizeT (cfg.numAttentionHeads * cfg.headDim)
  let nkv := sizeT (cfg.numKeyValueHeads * cfg.headDim)
  let _ ← scratchResize [] nq
  let _ ← scratchResize [] nkv
  let q := vectorResize (proj.query layer x) nq 0
  let k := vectorResize (proj.key layer x) nkv 0
  let v := vectorResize (proj.value layer x) nkv 0
  let (q, k) ← applyRope fl q k seqPos cfg.numAttentionHeads cfg.numKeyValueHeads cfg.headDim rope
  return (g, q, k, v)

/-- `attention` behind the cache. `scratch` is the buffer of the scores that the thread kept. -/
def attend (cfg : ModelConfig) (g : Int) (q scratch : List F32) (layer : Nat) (kv : KVCache F32) :
    Exec (List F32) := do
  let kvLen ← kv.length layer
  let keys ← load kv.kCache layer
  let values ← load kv.vCache layer
  let scores ← scratchResize scratch (sizeT (cfg.numAttentionHeads * kvLen))
  let heads := List.range cfg.numAttentionHeads.toNat
  let scores ← heads.foldlM (headScores fl cfg g q keys kvLen) scores
  let scores ← heads.foldlM (softmaxHead fl kvLen) scores
  let n := sizeT (cfg.numAttentionHeads * cfg.headDim)
  let _ ← scratchResize [] n
  heads.foldlM (headOutput fl cfg g values scores kvLen) (List.replicate n 0)

/-- `attention` on the normed state `x`: what goes into the output projection, and the cache, which
keeps what was appended even where the rest throws. -/
def attention (proj : ProjectionOps) (cfg : ModelConfig) (rope : RoPECache) (scratch : List F32)
    (seqPos : Int) (layer : Nat) (x : List F32) (kv : KVCache F32) :
    Exec (List F32) × KVCache F32 :=
  match attentionRows fl proj cfg rope seqPos layer x with
  | .error e => (.error e, kv)
  | .ok (g, q, k, v) =>
    match kv.append layer k v seqPos with
    | .error e => (.error e, kv)
    | .ok kv => (attend fl cfg g q scratch layer kv, kv)

end

/-! ## What the loops rely on -/

section
variable {buf : List F32}

theorem ensures_loadAt {i : Int} (h₀ : 0 ≤ i) (h : i < buf.length) :
    Ensures (loadAt buf i) fun _ => True := by
  have hlt : i.toNat < buf.length := by omega
  rw [loadAt, if_neg (by omega), load_getD hlt 0]
  trivial

theorem ensures_storeAt {i : Int} (h₀ : 0 ≤ i) (h : i < buf.length) (a : F32) :
    Ensures (storeAt buf i a) fun buf' => buf'.length = buf.length := by
  obtain ⟨buf', hbuf', hlen⟩ := @writeAt_inside _ buf i.toNat [a] (by
    rw [List.length_singleton]
    omega)
  rw [storeAt, if_neg (by omega), hbuf']
  exact hlen

theorem ensures_scratchResize (n : Nat) :
    Ensures (scratchResize buf n) fun buf' => n ≤ buf'.length := by
  unfold scratchResize
  split
  · split
    · exact (vectorResize_length _ _ _).ge
    · exact ensures_raise _ _
  · rename_i h
    exact not_lt.1 h

theorem ensures_div32 {a b : Int} (hb : b ≠ 0) (h : IsI32 (a.tdiv b)) :
    Ensures (div32 a b) fun r => r = a.tdiv b := by
  rw [div32, if_neg hb]
  exact ensures_i32.2 ⟨h, rfl⟩

theorem ensures_int {n : Int} (h : IsI32 n) : Ensures (i32 n) fun m => m = n :=
  ensures_i32.2 ⟨h, rfl⟩

/-- Twice the half of a width with a positive half. -/
theorem two_mul_half_le {n : Int} (h : 0 < n.tdiv 2) : 2 * n.tdiv 2 ≤ n := by
  rw [Int.tdiv_eq_ediv] at h ⊢
  split at h
  · rename_i hpos
    rw [if_pos hpos]
    omega
  · rename_i hneg
    have hsign : Int.sign 2 = 1 := rfl
    rw [hsign] at h
    omega

/-- A value between zero and an `int` is one. -/
theorem isI32_of_le {m n : Int} (h₀ : 0 ≤ m) (h : m ≤ n) (hn : IsI32 n) : IsI32 m :=
  ⟨by omega, h.trans hn.2⟩

end

/-! ## The rotation inside its tables -/

section
variable {fl : FloatOps} {rope : RoPECache} {maxSeq hd : Int}

/-- Tables of `maxSeq` rows for heads of this width. -/
structure RoPECache.Sized (rope : RoPECache) (maxSeq hd : Int) : Prop where
  rows : IsI32 (maxSeq * hd.tdiv 2) ∧ 0 ≤ maxSeq * hd.tdiv 2
  sin : (rope.sin.length : Int) = maxSeq * hd.tdiv 2
  cos : (rope.cos.length : Int) = maxSeq * hd.tdiv 2

theorem ropeTable_length {entry : Nat → Nat → F32} {half : Int} {table : List F32}
    (h : ropeTable entry maxSeq half = .ok table) :
    (IsI32 (maxSeq * half) ∧ 0 ≤ maxSeq * half) ∧ (table.length : Int) = maxSeq * half := by
  obtain ⟨n, hn, h⟩ := bind_eq_ok.1 h
  obtain ⟨rfl, hrange⟩ := i32_eq_ok.1 hn
  split at h
  · cases h
  rename_i hneg
  refine ⟨⟨hrange, not_lt.1 hneg⟩, ?_⟩
  have hwrites : table.length = (maxSeq * half).toNat := by
    refine foldlM_range_partial (I := fun _ (t : List F32) => t.length = (maxSeq * half).toNat)
      List.length_replicate (fun i hi t t' ht hrow => ?_) h
    refine foldlM_range_partial (I := fun _ (t : List F32) => t.length = (maxSeq * half).toNat) ht
      (fun j hj t t' ht hwrite => ?_) hrow
    have hin : i * half.toNat + j < t.length := (writeAt_singleton_eq_ok hwrite).1
    obtain ⟨t'', ht'', hlen⟩ := @writeAt_inside _ t (i * half.toNat + j) [entry i j] hin
    cases hwrite.symm.trans ht''
    exact hlen.trans ht
  omega

theorem buildRopeCache_sized {trig : TrigOps} {theta : F32}
    (h : buildRopeCache trig maxSeq hd theta = .ok rope) : rope.Sized maxSeq hd := by
  obtain ⟨sin, hsin, h⟩ := bind_eq_ok.1 h
  obtain ⟨cos, hcos, h⟩ := bind_eq_ok.1 h
  cases h
  obtain ⟨hrows, hsin⟩ := ropeTable_length hsin
  exact ⟨hrows, hsin, (ropeTable_length hcos).2⟩

/-- The rotation of one head, inside its row and at a position of the tables. -/
theorem rotateHead_ensures (hrope : rope.Sized maxSeq hd) {pos off : Int} (hpos : 0 ≤ pos)
    (hmax : pos < maxSeq) (hoff : 0 ≤ off) {buf : List F32} (hbuf : off + hd ≤ buf.length) :
    Ensures (rotateHead fl rope (pos * hd.tdiv 2) (hd.tdiv 2).toNat off buf) fun buf' =>
      buf'.length = buf.length := by
  refine @ensures_foldlM_range _ _ (fun _ (b : List F32) => b.length = buf.length) _ _ rfl fun j hj b hb => ?_
  have hpair : 2 * (j : Int) + 1 < hd := by
    have hhalf := @two_mul_half_le hd (by omega)
    omega
  have hrow : pos * hd.tdiv 2 + j < maxSeq * hd.tdiv 2 := by
    have hnext : (pos + 1) * hd.tdiv 2 ≤ maxSeq * hd.tdiv 2 :=
      Int.mul_le_mul_of_nonneg_right hmax (by omega)
    rw [Int.add_mul, Int.one_mul] at hnext
    omega
  have hbase : 0 ≤ pos * hd.tdiv 2 := Int.mul_nonneg hpos (by omega)
  refine (ensures_loadAt (by omega) (by omega)).bind fun x0 _ => ?_
  refine (ensures_loadAt (by omega) (by omega)).bind fun x1 _ => ?_
  refine (ensures_loadAt (by omega) (by rw [hrope.cos]; omega)).bind fun c _ => ?_
  refine (ensures_loadAt (by omega) (by rw [hrope.sin]; omega)).bind fun s _ => ?_
  refine (ensures_storeAt (by omega) (by omega) _).bind fun b' hb' => ?_
  exact (ensures_storeAt (by omega) (by omega) _).mono fun b'' hb'' => by rw [hb'', hb', hb]

/-- The rotation of all heads of a buffer. -/
theorem rotateHeads_ensures (hrope : rope.Sized maxSeq hd) {pos n : Int} (hpos : 0 ≤ pos)
    (hmax : pos < maxSeq) (hhd : 0 < n → 0 ≤ hd) (hoff : ∀ h : Nat, (h : Int) < n → IsI32 (h * hd))
    {buf : List F32} (hbuf : 0 < n → n * hd ≤ buf.length) :
    Ensures (rotateHeads fl rope (pos * hd.tdiv 2) n hd buf) fun buf' =>
      buf'.length = buf.length := by
  refine @ensures_foldlM_range _ _ (fun _ (b : List F32) => b.length = buf.length) _ _ rfl fun h hh b hb => ?_
  have hn : (h : Int) < n := by omega
  have hrow : (h : Int) * hd + hd ≤ n * hd := by
    have hnext : ((h : Int) + 1) * hd ≤ n * hd :=
      Int.mul_le_mul_of_nonneg_right hn (hhd (by omega))
    rwa [Int.add_mul, Int.one_mul] at hnext
  have hstart : 0 ≤ (h : Int) * hd := Int.mul_nonneg (by omega) (hhd (by omega))
  have hfits := hbuf (by omega)
  refine (ensures_int (hoff h hn)).bind fun off ho => ?_
  subst ho
  exact (rotateHead_ensures hrope hpos hmax hstart (by rw [hb]; omega)).mono
    fun b' hb' => hb'.trans hb

end

/-! ## The scores inside the cache -/

/-- What head `h` relies on at position `pos`: there is a group it belongs to, its offsets are
`int`s, and the row of its group at this position lies in the cache. -/
structure HeadFits (cfg : ModelConfig) (maxSeq pos : Int) (h : Nat) : Prop where
  group : cfg.numAttentionHeads.tdiv cfg.numKeyValueHeads ≠ 0
  offset : IsI32 (h * cfg.headDim)
  score : IsI32 (h * (pos + 1))
  row : cfg.headDim = 0 ∨ 0 < cfg.headDim ∧ 0 < cfg.numKeyValueHeads ∧
    (h : Int).tdiv (cfg.numAttentionHeads.tdiv cfg.numKeyValueHeads) +
      pos * cfg.numKeyValueHeads < maxSeq * cfg.numKeyValueHeads

/-- The sizes of the buffers of a cache are `int`s. -/
structure CacheSizes (cfg : ModelConfig) (maxSeq : Int) : Prop where
  heads : IsI32 (maxSeq * cfg.numKeyValueHeads)
  size : IsI32 (maxSeq * cfg.numKeyValueHeads * cfg.headDim)
  nonneg : 0 ≤ maxSeq * cfg.numKeyValueHeads * cfg.headDim

section
variable {fl : FloatOps} {cfg : ModelConfig} {maxSeq pos : Int} {h t : Nat}

/-- The group of a head of this model is a small number. -/
theorem HeadFits.group_range (hf : HeadFits cfg maxSeq pos h) (hpos : 0 ≤ pos) :
    IsI32 ((h : Int).tdiv (cfg.numAttentionHeads.tdiv cfg.numKeyValueHeads)) := by
  have hle : (h : Int) ≤ h * (pos + 1) := by nlinarith
  have habs := Int.natAbs_tdiv_le_natAbs (h : Int)
    (cfg.numAttentionHeads.tdiv cfg.numKeyValueHeads)
  have hmax := hf.score.2
  constructor <;> omega

/-- The row of the cache that a head reads at an earlier position. -/
theorem cacheRow_ensures (hf : HeadFits cfg maxSeq pos h) (hsizes : CacheSizes cfg maxSeq)
    (hh : (h : Int) < cfg.numAttentionHeads) (hpos : 0 ≤ pos) (hmax : pos < maxSeq)
    (ht : (t : Int) ≤ pos) :
    Ensures (cacheRow cfg ((h : Int).tdiv
      (cfg.numAttentionHeads.tdiv cfg.numKeyValueHeads)) t) fun row =>
        ∀ j : Nat, (j : Int) < cfg.headDim →
          0 ≤ row + j ∧ row + j < maxSeq * cfg.numKeyValueHeads * cfg.headDim := by
  generalize hkh : (h : Int).tdiv (cfg.numAttentionHeads.tdiv cfg.numKeyValueHeads) = kh at *
  have hrow := hf.row
  rw [hkh] at hrow
  rcases hrow with hzero | ⟨hhd, hkv, hlt⟩
  · -- rows without elements
    have hkv : IsI32 (t * cfg.numKeyValueHeads) := by
      obtain ⟨hlo, hhi⟩ := hsizes.heads
      rcases le_total 0 cfg.numKeyValueHeads with hsign | hsign
      · exact ⟨by nlinarith, by nlinarith⟩
      · exact ⟨by nlinarith, by nlinarith⟩
    unfold cacheRow
    rw [hzero, Int.mul_zero, Int.mul_zero]
    refine (ensures_int (by decide)).bind fun head _ => (ensures_int hkv).bind fun row _ => ?_
    rw [Int.mul_zero]
    exact (ensures_int (by decide)).bind fun row _ => fun j hj => absurd hj (by omega)
  · have hgroup : 0 < cfg.numAttentionHeads.tdiv cfg.numKeyValueHeads := by
      have hnonneg : 0 ≤ cfg.numAttentionHeads.tdiv cfg.numKeyValueHeads :=
        Int.tdiv_nonneg (by omega) hkv.le
      have hne := hf.group
      omega
    have hkh₀ : 0 ≤ kh := hkh ▸ Int.tdiv_nonneg (by omega) hgroup.le
    have hkhh : kh ≤ h := hkh ▸ Int.tdiv_le_self _ (by omega)
    have htkv : 0 ≤ (t : Int) * cfg.numKeyValueHeads := Int.mul_nonneg (by omega) hkv.le
    have hbelow : kh + t * cfg.numKeyValueHeads + 1 ≤ maxSeq * cfg.numKeyValueHeads := by
      have hle : (t : Int) * cfg.numKeyValueHeads ≤ pos * cfg.numKeyValueHeads :=
        Int.mul_le_mul_of_nonneg_right ht hkv.le
      omega
    have hall : (kh + t * cfg.numKeyValueHeads + 1) * cfg.headDim ≤
        maxSeq * cfg.numKeyValueHeads * cfg.headDim :=
      Int.mul_le_mul_of_nonneg_right hbelow hhd.le
    have hhead : 0 ≤ kh * cfg.headDim := Int.mul_nonneg hkh₀ hhd.le
    have htail : 0 ≤ (t : Int) * cfg.numKeyValueHeads * cfg.headDim := Int.mul_nonneg htkv hhd.le
    rw [Int.add_mul, Int.add_mul, Int.one_mul] at hall
    have hoff : kh * cfg.headDim ≤ h * cfg.headDim := Int.mul_le_mul_of_nonneg_right hkhh hhd.le
    unfold cacheRow
    refine (ensures_int (isI32_of_le hhead hoff hf.offset)).bind fun head hd => ?_
    refine (ensures_int (isI32_of_le htkv (by omega) hsizes.heads)).bind fun row hr => ?_
    subst hd hr
    refine (ensures_int (isI32_of_le htail (by omega) hsizes.size)).bind fun row hr => ?_
    subst hr
    exact fun j hj => ⟨by omega, by omega⟩

theorem dotRows_ensures {a b : List F32} {offA offB : Int} {n : Nat}
    (ha : ∀ j : Nat, j < n → 0 ≤ offA + j ∧ offA + j < a.length)
    (hb : ∀ j : Nat, j < n → 0 ≤ offB + j ∧ offB + j < b.length) :
    Ensures (dotRows fl a b offA offB n) fun _ => True := by
  refine @ensures_foldlM_range _ _ (fun _ _ => True) _ _ trivial fun j hj s _ => ?_
  refine (ensures_loadAt (ha j hj).1 (ha j hj).2).bind fun x _ => ?_
  exact (ensures_loadAt (hb j hj).1 (hb j hj).2).bind fun y _ => trivial

/-- The buffers that the loops over the heads work on at position `pos`. -/
structure AttendBuffers (cfg : ModelConfig) (maxSeq pos : Int) (q keys values : List F32) : Prop where
  pos_nonneg : 0 ≤ pos
  pos_lt : pos < maxSeq
  sizes : CacheSizes cfg maxSeq
  heads : ∀ h < cfg.numAttentionHeads.toNat, HeadFits cfg maxSeq pos h
  query : 0 < cfg.numAttentionHeads → cfg.numAttentionHeads * cfg.headDim ≤ q.length
  keys : (keys.length : Int) = maxSeq * cfg.numKeyValueHeads * cfg.headDim
  values : (values.length : Int) = maxSeq * cfg.numKeyValueHeads * cfg.headDim

/-- An element of a row of `n` in a buffer of `count` rows. -/
theorem row_inside {h count n i : Int} (hh : h < count) (h₀ : 0 ≤ h) (hi₀ : 0 ≤ i) (hi : i < n) :
    0 ≤ h * n + i ∧ h * n + i < count * n := by
  have hnext : (h + 1) * n ≤ count * n := Int.mul_le_mul_of_nonneg_right hh (by omega)
  have hstart : 0 ≤ h * n := Int.mul_nonneg h₀ (by omega)
  rw [Int.add_mul, Int.one_mul] at hnext
  omega

variable {q keys values scores : List F32}

/-- The scores of a head. -/
theorem headScores_ensures (hb : AttendBuffers cfg maxSeq pos q keys values)
    (hh : h < cfg.numAttentionHeads.toNat)
    (hscores : cfg.numAttentionHeads * (pos + 1) ≤ scores.length) :
    Ensures (headScores fl cfg (cfg.numAttentionHeads.tdiv cfg.numKeyValueHeads) q keys (pos + 1)
      scores h) fun scores' => scores'.length = scores.length := by
  have hf := hb.heads h hh
  have hpos := hb.pos_nonneg
  have hlt : (h : Int) < cfg.numAttentionHeads := by omega
  unfold headScores
  refine (ensures_div32 hf.group (hf.group_range hpos)).bind fun kh hkh => ?_
  refine (ensures_int hf.offset).bind fun qOff hq => ?_
  refine (ensures_int hf.score).bind fun sOff hs => ?_
  subst hkh hq hs
  refine @ensures_foldlM_range _ _ (fun _ (s : List F32) => s.length = scores.length) _ _ rfl
    fun t ht s hs => ?_
  have htle : (t : Int) ≤ pos := by omega
  refine (cacheRow_ensures hf hb.sizes hlt hpos hb.pos_lt htle).bind fun row hrow => ?_
  have hquery : ∀ j : Nat, j < cfg.headDim.toNat →
      0 ≤ (h : Int) * cfg.headDim + j ∧ (h : Int) * cfg.headDim + j < q.length := by
    intro j hj
    obtain ⟨hlo, hhi⟩ := @row_inside h cfg.numAttentionHeads cfg.headDim j hlt (by omega) (by omega)
      (by omega)
    exact ⟨hlo, hhi.trans_le (hb.query (by omega))⟩
  have hkeys : ∀ j : Nat, j < cfg.headDim.toNat → 0 ≤ row + j ∧ row + j < keys.length := by
    intro j hj
    rw [hb.keys]
    exact hrow j (by omega)
  refine (dotRows_ensures hquery hkeys).bind fun x _ => ?_
  obtain ⟨hlo, hhi⟩ := @row_inside h cfg.numAttentionHeads (pos + 1) t hlt (by omega) (by omega)
    (by omega)
  exact (ensures_storeAt hlo (by omega) _).mono fun s' hs' => hs'.trans hs

/-- The softmax of a head. -/
theorem softmaxHead_ensures (hb : AttendBuffers cfg maxSeq pos q keys values)
    (hh : h < cfg.numAttentionHeads.toNat)
    (hscores : cfg.numAttentionHeads * (pos + 1) ≤ scores.length) :
    Ensures (softmaxHead fl (pos + 1) scores h) fun scores' => scores'.length = scores.length := by
  have hf := hb.heads h hh
  have hpos := hb.pos_nonneg
  have hin : ∀ t : Nat, (t : Int) ≤ pos →
      0 ≤ (h : Int) * (pos + 1) + t ∧ (h : Int) * (pos + 1) + t < scores.length := by
    intro t ht
    obtain ⟨hlo, hhi⟩ := @row_inside h cfg.numAttentionHeads (pos + 1) t (by omega) (by omega)
      (by omega) (by omega)
    exact ⟨hlo, hhi.trans_le hscores⟩
  unfold softmaxHead
  refine (ensures_int hf.score).bind fun off ho => ?_
  subst ho
  have hmax : Ensures (maxScore fl scores ((h : Int) * (pos + 1)) (pos + 1)) fun _ => True := by
    obtain ⟨hlo, hhi⟩ := hin 0 hpos
    refine (ensures_loadAt (by omega) (by omega)).bind fun first _ => ?_
    refine @ensures_foldlM_range _ _ (fun _ _ => True) _ _ trivial fun t ht best _ => ?_
    obtain ⟨hlo, hhi⟩ := hin t (by omega)
    exact (ensures_loadAt hlo hhi).bind fun s _ => trivial
  refine hmax.bind fun maxv _ => ?_
  have hsum : Ensures ((List.range (pos + 1).toNat).foldlM (fun (p : List F32 × F32) (t : Nat) => do
      let s ← loadAt p.1 ((h : Int) * (pos + 1) + t)
      let scores ← storeAt p.1 ((h : Int) * (pos + 1) + t) (fl.exp (fl.sub s maxv))
      return (scores, fl.add p.2 (fl.exp (fl.sub s maxv)))) (scores, 0))
      fun p => p.1.length = scores.length := by
    refine @ensures_foldlM_range _ _ (fun _ (p : List F32 × F32) => p.1.length = scores.length) _ _
      rfl fun t ht p hp => ?_
    obtain ⟨hlo, hhi⟩ := hin t (by omega)
    refine (ensures_loadAt hlo (hhi.trans_eq (by rw [hp]))).bind fun s _ => ?_
    exact (ensures_storeAt hlo (hhi.trans_eq (by rw [hp])) _).bind fun s' hs' => hs'.trans hp
  refine hsum.bind fun p hp => ?_
  refine @ensures_foldlM_range _ _ (fun _ (s : List F32) => s.length = scores.length) _ _ hp
    fun t ht s hs => ?_
  obtain ⟨hlo, hhi⟩ := hin t (by omega)
  refine (ensures_loadAt hlo (hhi.trans_eq (by rw [hs]))).bind fun x _ => ?_
  exact (ensures_storeAt hlo (hhi.trans_eq (by rw [hs])) _).mono fun s' hs' => hs'.trans hs

/-- The weighted values of a head. -/
theorem headOutput_ensures (hb : AttendBuffers cfg maxSeq pos q keys values)
    (hh : h < cfg.numAttentionHeads.toNat)
    (hscores : cfg.numAttentionHeads * (pos + 1) ≤ scores.length) {out : List F32}
    (hout : cfg.numAttentionHeads * cfg.headDim ≤ out.length) :
    Ensures (headOutput fl cfg (cfg.numAttentionHeads.tdiv cfg.numKeyValueHeads) values scores
      (pos + 1) out h) fun out' => out'.length = out.length := by
  have hf := hb.heads h hh
  have hpos := hb.pos_nonneg
  have hlt : (h : Int) < cfg.numAttentionHeads := by omega
  unfold headOutput
  refine (ensures_div32 hf.group (hf.group_range hpos)).bind fun kh hkh => ?_
  refine (ensures_int hf.offset).bind fun oOff ho => ?_
  refine (ensures_int hf.score).bind fun sOff hs => ?_
  subst hkh ho hs
  refine @ensures_foldlM_range _ _ (fun _ (o : List F32) => o.length = out.length) _ _ rfl
    fun t ht o ho => ?_
  refine (cacheRow_ensures hf hb.sizes hlt hpos hb.pos_lt (by omega)).bind fun row hrow => ?_
  refine @ensures_foldlM_range _ _ (fun _ (o : List F32) => o.length = out.length) _ _ ho
    fun j hj o ho => ?_
  obtain ⟨hlo, hhi⟩ := @row_inside h cfg.numAttentionHeads cfg.headDim j hlt (by omega) (by omega)
    (by omega)
  obtain ⟨hslo, hshi⟩ := @row_inside h cfg.numAttentionHeads (pos + 1) t hlt (by omega) (by omega)
    (by omega)
  obtain ⟨hvlo, hvhi⟩ := hrow j (by omega)
  refine (ensures_loadAt hlo (by omega)).bind fun x _ => ?_
  refine (ensures_loadAt hslo (by omega)).bind fun s _ => ?_
  refine (ensures_loadAt hvlo (hvhi.trans_eq hb.values.symm)).bind fun v _ => ?_
  exact (ensures_storeAt hlo (by omega) _).mono fun o' ho' => ho'.trans ho

end

/-! ## The cache of a configuration -/

/-- A cache with the buffers of a configuration. -/
structure KVCache.Sized (kv : KVCache F32) (cfg : ModelConfig) : Prop where
  maxSeq_eq : kv.maxSeq = cfg.maxPositionEmbeddings
  nKvHeads_eq : kv.nKvHeads = cfg.numKeyValueHeads
  headDim_eq : kv.headDim = cfg.headDim
  lens : kv.seqLens.length = cfg.numHiddenLayers.toNat
  keyLayers : kv.kCache.length = cfg.numHiddenLayers.toNat
  valueLayers : kv.vCache.length = cfg.numHiddenLayers.toNat
  keys : ∀ buf ∈ kv.kCache, (buf.length : Int) =
    cfg.maxPositionEmbeddings * cfg.numKeyValueHeads * cfg.headDim
  values : ∀ buf ∈ kv.vCache, (buf.length : Int) =
    cfg.maxPositionEmbeddings * cfg.numKeyValueHeads * cfg.headDim
  sizes : 0 < cfg.numHiddenLayers → CacheSizes cfg cfg.maxPositionEmbeddings

theorem kvBufferSize_sized {cfg : ModelConfig} (h : CacheSizes cfg cfg.maxPositionEmbeddings) :
    kvBufferSize cfg.maxPositionEmbeddings cfg.numKeyValueHeads cfg.headDim =
      .ok (cfg.maxPositionEmbeddings * cfg.numKeyValueHeads * cfg.headDim).toNat := by
  have hneg : ¬ cfg.maxPositionEmbeddings * cfg.numKeyValueHeads * cfg.headDim < 0 :=
    not_lt.2 h.nonneg
  rw [kvBufferSize, i32_ok h.heads.1 h.heads.2, ok_bind, i32_ok h.size.1 h.size.2, ok_bind,
    if_neg hneg]
  rfl

/-- The sizes of a cache are those of another one. -/
theorem KVCache.create_again {cfg : ModelConfig} {kv : KVCache F32} (h : kv.Sized cfg)
    (hlayers : 0 ≤ cfg.numHiddenLayers) : ∃ kv', KVCache.create cfg.maxPositionEmbeddings
      cfg.numHiddenLayers cfg.numKeyValueHeads cfg.headDim cfg.hiddenSize =
        .ok (kv' : KVCache F32) := by
  have hbufs : (List.range cfg.numHiddenLayers.toNat).mapM (fun _ => do
      let n ← kvBufferSize cfg.maxPositionEmbeddings cfg.numKeyValueHeads cfg.headDim
      return List.replicate n (0 : F32)) = .ok ((List.range cfg.numHiddenLayers.toNat).map fun _ =>
        List.replicate
          (cfg.maxPositionEmbeddings * cfg.numKeyValueHeads * cfg.headDim).toNat (0 : F32)) := by
    refine mapM_ok fun layer hlayer => ?_
    rw [List.mem_range] at hlayer
    rw [kvBufferSize_sized (h.sizes (by omega)), ok_bind]
    rfl
  unfold KVCache.create
  rw [if_neg (by omega), hbufs]
  exact ⟨_, rfl⟩

/-- The cache that the constructor returns. -/
theorem KVCache.create_sized {cfg : ModelConfig} {kv : KVCache F32}
    (h : KVCache.create cfg.maxPositionEmbeddings cfg.numHiddenLayers cfg.numKeyValueHeads
      cfg.headDim cfg.hiddenSize = .ok kv) : kv.Sized cfg := by
  unfold KVCache.create at h
  split at h
  · cases h
  rename_i hlayers
  obtain ⟨bufs, hbufs, h⟩ := Terllama.bind_eq_ok.1 h
  cases h
  have hall := forall₂_of_mapM_ok hbufs
  have hlen : bufs.length = cfg.numHiddenLayers.toNat := by
    rw [← hall.length_eq, List.length_range]
  have hsize : ∀ buf ∈ bufs, IsI32 (cfg.maxPositionEmbeddings * cfg.numKeyValueHeads) ∧
      IsI32 (cfg.maxPositionEmbeddings * cfg.numKeyValueHeads * cfg.headDim) ∧
      (buf.length : Int) = cfg.maxPositionEmbeddings * cfg.numKeyValueHeads * cfg.headDim := by
    intro buf hbuf
    obtain ⟨i, -, hi⟩ := exists_mem_of_forall₂ hall.flip hbuf
    obtain ⟨n, hn, hi⟩ := Terllama.bind_eq_ok.1 hi
    cases hi
    rw [List.length_replicate]
    exact kvBufferSize_ok hn
  refine ⟨rfl, rfl, rfl, List.length_replicate, hlen, hlen, fun buf hbuf => (hsize buf hbuf).2.2,
    fun buf hbuf => (hsize buf hbuf).2.2, fun hpos => ?_⟩
  obtain ⟨buf, hmem⟩ := List.exists_mem_of_length_pos (by omega : 0 < bufs.length)
  obtain ⟨hheads, hrow, hlength⟩ := hsize _ hmem
  exact ⟨hheads, hrow, hlength ▸ Int.natCast_nonneg _⟩

section
variable {cfg : ModelConfig} {maxSeq pos : Int}

/-- The row of a position in the cache. -/
theorem CacheSizes.row (h : CacheSizes cfg maxSeq) (hmax : 0 < maxSeq) :
    0 ≤ cfg.numKeyValueHeads * cfg.headDim ∧ IsI32 (cfg.numKeyValueHeads * cfg.headDim) := by
  have hsize := h.size
  have hnonneg := h.nonneg
  rw [Int.mul_assoc] at hsize hnonneg
  have h₀ : 0 ≤ cfg.numKeyValueHeads * cfg.headDim := by
    by_contra hneg
    have hlt := Int.mul_neg_of_pos_of_neg hmax (not_le.1 hneg)
    omega
  refine ⟨h₀, isI32_of_le h₀ ?_ hsize⟩
  nlinarith

/-- The buffers of one layer after its row was stored. -/
theorem storeRow_ok {bufs : List (List F32)} {layer : Nat} {row : List F32} {n size : Int}
    (hlayer : layer < bufs.length) (hall : ∀ buf ∈ bufs, (buf.length : Int) = size)
    (hrow : (row.length : Int) = n) (hpos : 0 ≤ pos) (hend : pos * n + n ≤ size)
    (hsize : IsI32 size) :
    ∃ bufs', storeRow bufs layer row n pos = .ok bufs' ∧ bufs'.length = bufs.length ∧
      ∀ buf ∈ bufs', (buf.length : Int) = size := by
  have hoff : 0 ≤ pos * n := Int.mul_nonneg hpos (by omega)
  have hbuf := hall _ (List.getElem_mem hlayer)
  have hload : load bufs layer = .ok bufs[layer] := load_eq (List.getElem?_eq_getElem hlayer)
  obtain ⟨buf', hbuf', hlen⟩ := @writeAt_inside _ bufs[layer] (pos * n).toNat row (by omega)
  obtain ⟨hlo, hhi⟩ := isI32_of_le hoff (by omega) hsize
  refine ⟨bufs.set layer buf', ?_, List.length_set, fun buf hmem => ?_⟩
  · rw [storeRow, i32_ok hlo hhi, ok_bind, hload, ok_bind, hbuf', ok_bind]
    rfl
  · rcases List.mem_or_eq_of_mem_set hmem with hmem | rfl
    · exact hall buf hmem
    · rw [hlen, hbuf]

/-- What `append` leaves of a cache at a position of its range. -/
theorem KVCache.append_sized {kv : KVCache F32} (hkv : kv.Sized cfg) {layer : Nat}
    (hlayer : (layer : Int) < cfg.numHiddenLayers) (hpos : 0 ≤ pos)
    (hmax : pos < cfg.maxPositionEmbeddings) {k v : List F32}
    (hk : (k.length : Int) = cfg.numKeyValueHeads * cfg.headDim)
    (hv : (v.length : Int) = cfg.numKeyValueHeads * cfg.headDim) :
    ∃ kv', kv.append layer k v pos = .ok kv' ∧ kv'.Sized cfg ∧
      kv'.seqLens[layer]? = some (pos + 1) := by
  have hsizes := hkv.sizes (by omega)
  obtain ⟨hrow₀, hrow⟩ := hsizes.row (by omega)
  have hend : pos * (cfg.numKeyValueHeads * cfg.headDim) + cfg.numKeyValueHeads * cfg.headDim ≤
      cfg.maxPositionEmbeddings * cfg.numKeyValueHeads * cfg.headDim := by
    have hnext : (pos + 1) * (cfg.numKeyValueHeads * cfg.headDim) ≤
        cfg.maxPositionEmbeddings * (cfg.numKeyValueHeads * cfg.headDim) :=
      Int.mul_le_mul_of_nonneg_right hmax hrow₀
    rw [Int.add_mul, Int.one_mul, ← Int.mul_assoc cfg.maxPositionEmbeddings] at hnext
    exact hnext
  have htakes : KVCache.takes kv.maxSeq pos = true := by
    have hneg : ¬ pos < 0 := by omega
    have hge : ¬ pos ≥ cfg.maxPositionEmbeddings := by omega
    simp [KVCache.takes, hkv.maxSeq_eq, hneg, hge]
  have hslice : ∀ w : List F32, (w.length : Int) = cfg.numKeyValueHeads * cfg.headDim →
      ptrRange w (cfg.numKeyValueHeads * cfg.headDim) = .ok w := by
    intro w hw
    rw [ptrRange, if_pos hrow₀, slice_ok (by omega), List.drop_zero, List.take_of_length_le (by omega)]
  have hkeys : layer < kv.kCache.length := by
    rw [hkv.keyLayers]
    omega
  have hvalues : layer < kv.vCache.length := by
    rw [hkv.valueLayers]
    omega
  have hlens : layer < kv.seqLens.length := by
    rw [hkv.lens]
    omega
  obtain ⟨kc, hkc, hklen, hkall⟩ := storeRow_ok hkeys hkv.keys hk hpos hend hsizes.size
  obtain ⟨vc, hvc, hvlen, hvall⟩ := storeRow_ok hvalues hkv.values hv hpos hend hsizes.size
  refine ⟨{ kv with kCache := kc, vCache := vc, seqLens := kv.seqLens.set layer (pos + 1) }, ?_, ?_,
    List.getElem?_set_self hlens⟩
  · rw [KVCache.append, hkv.nKvHeads_eq, hkv.headDim_eq, i32_ok hrow.1 hrow.2, ok_bind, htakes, Bool.not_true,
      if_neg Bool.false_ne_true, hslice k hk, ok_bind, hkc, ok_bind, hslice v hv, ok_bind, hvc, ok_bind,
      load_getD hlens 0, ok_bind]
    rfl
  · exact ⟨hkv.maxSeq_eq, hkv.nKvHeads_eq, hkv.headDim_eq, by rw [List.length_set, hkv.lens],
      hklen.trans hkv.keyLayers, hvlen.trans hkv.valueLayers, hkall, hvall, hkv.sizes⟩

end

/-! ## The pass at a position of the cache -/

/-- What the pass relies on at a position: it is one of the cache, the heads can be divided into
groups, and each head fits. -/
structure PositionFits (cfg : ModelConfig) (pos : Int) : Prop where
  nonneg : 0 ≤ pos
  lt : pos < cfg.maxPositionEmbeddings
  groups : cfg.numKeyValueHeads ≠ 0
  quotient : IsI32 (cfg.numAttentionHeads.tdiv cfg.numKeyValueHeads)
  heads : ∀ h < cfg.numAttentionHeads.toNat, HeadFits cfg cfg.maxPositionEmbeddings pos h

section
variable {fl : FloatOps} {proj : ProjectionOps} {cfg : ModelConfig} {rope : RoPECache} {pos : Int}

/-- The rows of the heads are those of the last one and one more. -/
theorem PositionFits.rows (hf : PositionFits cfg pos)
    (hsizes : CacheSizes cfg cfg.maxPositionEmbeddings) (hH : 0 < cfg.numAttentionHeads) :
    0 ≤ cfg.headDim ∧ cfg.numAttentionHeads * cfg.headDim < 18446744073709551616 ∧
      cfg.numAttentionHeads * (pos + 1) < 18446744073709551616 := by
  obtain ⟨H, hHn⟩ := Int.eq_ofNat_of_zero_le hH.le
  have hlast := hf.heads (H - 1) (by omega)
  have hmax := hf.lt
  have hpos := hf.nonneg
  have hcast : ((H - 1 : Nat) : Int) = cfg.numAttentionHeads - 1 := by omega
  have hoffset := hlast.offset
  have hscore := hlast.score
  rw [hcast, Int.sub_mul, Int.one_mul] at hoffset hscore
  have hoffsetMax := hoffset.2
  have hscoreMax := hscore.2
  have hhd₀ : 0 ≤ cfg.headDim := by
    rcases hlast.row with h | h
    · exact h.ge
    · exact h.1.le
  have hhd : cfg.headDim ≤ 2147483647 := by
    rcases hlast.row with h | ⟨h, hkv, -⟩
    · omega
    · have hrow := (hsizes.row (by omega)).2.2
      nlinarith
  have hseq : pos + 1 ≤ 2147483648 := by
    obtain ⟨hlo, hhi⟩ := hsizes.heads
    rcases lt_or_gt_of_ne hf.groups with hneg | hpos'
    · nlinarith
    · nlinarith
  exact ⟨hhd₀, by omega, by omega⟩

theorem sizeT_ge {n : Int} (h : n < 18446744073709551616) : n ≤ sizeT n := by
  unfold sizeT
  omega

/-- The rows that go into the cache. -/
theorem attentionRows_ensures (hf : PositionFits cfg pos)
    (hrope : rope.Sized cfg.maxPositionEmbeddings cfg.headDim)
    (hsizes : CacheSizes cfg cfg.maxPositionEmbeddings) (layer : Nat) (x : List F32) :
    Ensures (attentionRows fl proj cfg rope pos layer x) fun r =>
      r.1 = cfg.numAttentionHeads.tdiv cfg.numKeyValueHeads ∧
      (0 < cfg.numAttentionHeads → cfg.numAttentionHeads * cfg.headDim ≤ r.2.1.length) ∧
      (r.2.2.1.length : Int) = cfg.numKeyValueHeads * cfg.headDim ∧
      (r.2.2.2.length : Int) = cfg.numKeyValueHeads * cfg.headDim := by
  have hpos := hf.nonneg
  have hmax := hf.lt
  obtain ⟨hkv₀, hkv⟩ := hsizes.row (by omega)
  have hhalf : 0 ≤ cfg.headDim.tdiv 2 := by
    have hnonneg := hrope.rows.2
    by_contra hneg
    have hlt := Int.mul_neg_of_pos_of_neg (by omega : 0 < cfg.maxPositionEmbeddings) (not_le.1 hneg)
    omega
  have hbase : IsI32 (pos * cfg.headDim.tdiv 2) :=
    isI32_of_le (Int.mul_nonneg hpos hhalf) (Int.mul_le_mul_of_nonneg_right hmax.le hhalf)
      hrope.rows.1
  have hkvlen : (sizeT (cfg.numKeyValueHeads * cfg.headDim) : Int) =
      cfg.numKeyValueHeads * cfg.headDim := by
    rw [sizeT_of_nonneg hkv₀ (by have := hkv.2; omega), Int.toNat_of_nonneg hkv₀]
  have hquery : 0 < cfg.numAttentionHeads → cfg.numAttentionHeads * cfg.headDim ≤
      sizeT (cfg.numAttentionHeads * cfg.headDim) := fun hH =>
    sizeT_ge (hf.rows hsizes hH).2.1
  unfold attentionRows
  refine (ensures_div32 hf.groups hf.quotient).bind fun g hg => ?_
  refine (ensures_scratchResize _).bind fun _ _ => ?_
  refine (ensures_scratchResize _).bind fun _ _ => ?_
  unfold applyRope
  rw [bind_assoc]
  refine (ensures_int hbase).bind fun base hbase => ?_
  subst hbase
  rw [bind_assoc]
  refine (rotateHeads_ensures hrope hpos hmax (fun hH => (hf.rows hsizes hH).1)
    (fun h hh => (hf.heads h (by omega)).offset) fun hH => ?_).bind fun q hq => ?_
  · rw [vectorResize_length]
    exact hquery hH
  rw [bind_assoc]
  refine (rotateHeads_ensures hrope hpos hmax (fun hK => ?_) (fun h hh => ?_) fun _ => ?_).bind
    fun k hk => ?_
  · by_contra hneg
    have hlt := Int.mul_neg_of_pos_of_neg hK (not_le.1 hneg)
    omega
  · have hhd : 0 ≤ cfg.headDim := by
      by_contra hneg
      have hlt := Int.mul_neg_of_pos_of_neg (by omega : 0 < cfg.numKeyValueHeads) (not_le.1 hneg)
      omega
    exact isI32_of_le (Int.mul_nonneg (by omega) hhd)
      (Int.mul_le_mul_of_nonneg_right hh.le hhd) hkv
  · rw [vectorResize_length, hkvlen]
  refine ⟨hg, fun hH => ?_, ?_, ?_⟩
  · dsimp only
    rw [hq, vectorResize_length]
    exact hquery hH
  · dsimp only
    rw [hk, vectorResize_length, hkvlen]
  · dsimp only
    rw [vectorResize_length, hkvlen]

/-- The loops behind the cache, where it holds the positions up to this one. -/
theorem attend_ensures (hf : PositionFits cfg pos) {kv : KVCache F32} (hkv : kv.Sized cfg)
    {layer : Nat} (hlayer : (layer : Int) < cfg.numHiddenLayers)
    (hlen : kv.seqLens[layer]? = some (pos + 1)) {q : List F32}
    (hq : 0 < cfg.numAttentionHeads → cfg.numAttentionHeads * cfg.headDim ≤ q.length)
    (scratch : List F32) :
    Ensures (attend fl cfg (cfg.numAttentionHeads.tdiv cfg.numKeyValueHeads) q scratch layer kv)
      fun _ => True := by
  have hsizes := hkv.sizes (by omega)
  have hkeys : layer < kv.kCache.length := by
    rw [hkv.keyLayers]
    omega
  have hvalues : layer < kv.vCache.length := by
    rw [hkv.valueLayers]
    omega
  have hb : AttendBuffers cfg cfg.maxPositionEmbeddings pos q kv.kCache[layer] kv.vCache[layer] :=
    ⟨hf.nonneg, hf.lt, hsizes, hf.heads, hq, hkv.keys _ (List.getElem_mem hkeys),
      hkv.values _ (List.getElem_mem hvalues)⟩
  unfold attend KVCache.length
  rw [load_eq hlen, ok_bind, load_eq (List.getElem?_eq_getElem hkeys), ok_bind,
    load_eq (List.getElem?_eq_getElem hvalues), ok_bind]
  refine (ensures_scratchResize _).bind fun scores hscores => ?_
  have hsize : 0 < cfg.numAttentionHeads → cfg.numAttentionHeads * (pos + 1) ≤ scores.length := by
    intro hH
    have hge := sizeT_ge (hf.rows hsizes hH).2.2
    omega
  have hfirst := @ensures_foldlM_range _ (headScores fl cfg
    (cfg.numAttentionHeads.tdiv cfg.numKeyValueHeads) q kv.kCache[layer] (pos + 1))
    (fun _ (s : List F32) => s.length = scores.length) cfg.numAttentionHeads.toNat scores rfl
    fun h hh s hs => (headScores_ensures hb hh (by rw [hs]; exact hsize (by omega))).mono
      fun s' hs' => hs'.trans hs
  refine hfirst.bind fun s₁ hs₁ => ?_
  have hsecond := @ensures_foldlM_range _ (softmaxHead fl (pos + 1))
    (fun _ (s : List F32) => s.length = scores.length) cfg.numAttentionHeads.toNat s₁ hs₁
    fun h hh s hs => (softmaxHead_ensures hb hh (by rw [hs]; exact hsize (by omega))).mono
      fun s' hs' => hs'.trans hs
  refine hsecond.bind fun s₂ hs₂ => ?_
  refine (ensures_scratchResize _).bind fun _ _ => ?_
  have hout := @ensures_foldlM_range _ (headOutput fl cfg
    (cfg.numAttentionHeads.tdiv cfg.numKeyValueHeads) kv.vCache[layer] s₂ (pos + 1))
    (fun _ (o : List F32) => o.length = sizeT (cfg.numAttentionHeads * cfg.headDim))
    cfg.numAttentionHeads.toNat
    (List.replicate (sizeT (cfg.numAttentionHeads * cfg.headDim)) 0) List.length_replicate
    fun h hh o ho => (headOutput_ensures hb hh (by rw [hs₂]; exact hsize (by omega))
      (by rw [ho]; exact sizeT_ge (hf.rows hsizes (by omega)).2.1)).mono fun o' ho' => ho'.trans ho
  exact hout.mono fun _ _ => trivial

/-- The attention pass of a layer at a position that fits stays inside its buffers, and leaves the
cache with its sizes. -/
theorem attention_ensures (hf : PositionFits cfg pos)
    (hrope : rope.Sized cfg.maxPositionEmbeddings cfg.headDim) {kv : KVCache F32}
    (hkv : kv.Sized cfg) {layer : Nat} (hlayer : (layer : Int) < cfg.numHiddenLayers)
    (scratch x : List F32) :
    Ensures (attention fl proj cfg rope scratch pos layer x kv).1 (fun _ => True) ∧
      (attention fl proj cfg rope scratch pos layer x kv).2.Sized cfg := by
  have hrows := @attentionRows_ensures fl proj cfg rope pos hf hrope (hkv.sizes (by omega)) layer x
  unfold attention
  cases hresult : attentionRows fl proj cfg rope pos layer x with
  | error e =>
    rw [hresult] at hrows
    cases e with
    | exception what => exact ⟨ensures_raise what _, hkv⟩
    | undefined why => exact absurd hrows (not_ensures_undefined why _)
  | ok r =>
    rw [hresult] at hrows
    obtain ⟨g, q, k, v⟩ := r
    obtain ⟨hg, hq, hk, hv⟩ := hrows
    dsimp only at hg hq hk hv ⊢
    obtain ⟨kv', happend, hkv', hlen⟩ :=
      KVCache.append_sized hkv hlayer hf.nonneg hf.lt hk hv
    rw [happend, hg]
    exact ⟨attend_ensures hf hkv' hlayer hlen hq scratch, hkv'⟩

end

end Terllama
