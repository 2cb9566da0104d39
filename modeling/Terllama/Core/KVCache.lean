import Mathlib.Tactic
import Terllama.Base.Buffer
import Terllama.Base.Bytes

/-!
# The KV cache

`KVCache` of `src/core/inference.cpp`: for each layer a flat buffer of keys and one of values, with a
row of `n_kv_heads * head_dim` numbers for each position, and the number of positions in use. The
products that give the sizes and the offsets are `int` products.
-/

namespace Terllama

/-- `KVCache`. -/
structure KVCache (K : Type) where
  maxSeq : Int
  nLayers : Int
  nKvHeads : Int
  headDim : Int
  hiddenSize : Int
  kCache : List (List K)
  vCache : List (List K)
  seqLens : List Int
  deriving DecidableEq, Repr

/-- The zero of the words of a cache. -/
instance : Zero F32 := ⟨0⟩

section
variable {K : Type} [Zero K]

/-- The size of a new buffer of a layer. -/
def kvBufferSize (maxSeq nKv hd : Int) : Exec Nat := do
  let n ← i32 (maxSeq * nKv)
  let n ← i32 (n * hd)
  if n < 0 then raise "vector::_M_default_append" else return n.toNat

theorem kvBufferSize_ok {maxSeq nKv hd : Int} {n : Nat} (h : kvBufferSize maxSeq nKv hd = .ok n) :
    IsI32 (maxSeq * nKv) ∧ IsI32 (maxSeq * nKv * hd) ∧ (n : Int) = maxSeq * nKv * hd := by
  obtain ⟨a, ha, h⟩ := bind_eq_ok.1 h
  obtain ⟨b, hb, h⟩ := bind_eq_ok.1 h
  obtain ⟨rfl, hheads⟩ := i32_eq_ok.1 ha
  obtain ⟨rfl, hsize⟩ := i32_eq_ok.1 hb
  split at h
  · cases h
  rename_i hneg
  cases h
  exact ⟨hheads, hsize, by omega⟩

/-- The constructor of `KVCache`. -/
def KVCache.create (maxSeq nLayers nKv hd hs : Int) : Exec (KVCache K) := do
  if nLayers < 0 then raise "cannot create std::vector larger than max_size()"
  let bufs ← (List.range nLayers.toNat).mapM fun _ => do
    let n ← kvBufferSize maxSeq nKv hd
    return List.replicate n (0 : K)
  return {
    maxSeq := maxSeq
    nLayers := nLayers
    nKvHeads := nKv
    headDim := hd
    hiddenSize := hs
    kCache := bufs
    vCache := bufs
    seqLens := List.replicate nLayers.toNat 0 }

end

section
variable {K : Type}

/-- `append` takes this position. -/
def KVCache.takes (maxSeq seqPos : Int) : Bool := !(seqPos < 0 || seqPos ≥ maxSeq)

/-- The buffer of a layer with a row stored at a position. -/
def storeRow (bufs : List (List K)) (layer : Nat) (row : List K) (n seqPos : Int) :
    Exec (List (List K)) := do
  let off ← i32 (seqPos * n)
  let buf ← load bufs layer
  let buf ← writeAt buf off.toNat row
  return bufs.set layer buf

/-- `KVCache::append`; `k` and `v` point to the rows of `n_kv_heads * head_dim` numbers. -/
def KVCache.append (c : KVCache K) (layer : Nat) (k v : List K) (seqPos : Int) :
    Exec (KVCache K) := do
  let n ← i32 (c.nKvHeads * c.headDim)
  if !KVCache.takes c.maxSeq seqPos then return c
  else
    let kRow ← ptrRange k n
    let kCache ← storeRow c.kCache layer kRow n seqPos
    let vRow ← ptrRange v n
    let vCache ← storeRow c.vCache layer vRow n seqPos
    let _ ← load c.seqLens layer
    return { c with kCache, vCache, seqLens := c.seqLens.set layer (seqPos + 1) }

/-- `KVCache::length`. -/
def KVCache.length (c : KVCache K) (layer : Nat) : Exec Int := load c.seqLens layer

end

end Terllama
