import Terllama.Base.Buffer
import Terllama.Base.Memo
import Terllama.Base.Runs
import Terllama.Model

/-!
# The layer indices of a transformer block

`cached_attn_idx` and `cached_mlp_idx` of `src/core/inference.cpp` look the projections of a layer up
once and keep their indices in a cache of the thread, under the address of the vector of layers. The
two tables simulate one `Memo`, and `indices_current_iff` says in which histories of vectors and
blocks the indices are those of the vector at hand.
-/

namespace Terllama

/-! ## The cache -/

/-- `find_layer_index`. -/
def findLayerIndex (layers : List LayerData) (name : String) : Exec Int :=
  match (layers.take (toInt32 layers.length).toNat).findIdx? fun ld => ld.name == str name with
  | some i => .ok i
  | none => raise ("Layer not found in model file: " ++ name)

/-- `TblkIndexCache::Attn`. -/
structure AttnIdx where
  q : Int := -1
  k : Int := -1
  v : Int := -1
  o : Int := -1
  deriving DecidableEq, Repr

/-- `TblkIndexCache::Mlp`. -/
structure MlpIdx where
  g : Int := -1
  u : Int := -1
  d : Int := -1
  deriving DecidableEq, Repr

/-- `TblkIndexCache`; the owner is the address of a vector of layers. -/
structure TblkIndexCache where
  owner : Option Nat := none
  attn : List AttnIdx := []
  mlp : List MlpIdx := []
  deriving DecidableEq, Repr

/-- The four indices that `cached_attn_idx` looks up. -/
def attnIndices (layers : List LayerData) (layerIdx : Nat) : Exec AttnIdx := do
  let base := "model.layers." ++ toString layerIdx ++ "."
  let q ← findLayerIndex layers (base ++ "self_attn.q_proj")
  let k ← findLayerIndex layers (base ++ "self_attn.k_proj")
  let v ← findLayerIndex layers (base ++ "self_attn.v_proj")
  let o ← findLayerIndex layers (base ++ "self_attn.o_proj")
  return ⟨q, k, v, o⟩

/-- The three indices that `cached_mlp_idx` looks up. -/
def mlpIndices (layers : List LayerData) (layerIdx : Nat) : Exec MlpIdx := do
  let base := "model.layers." ++ toString layerIdx ++ "."
  let g ← findLayerIndex layers (base ++ "mlp.gate_proj")
  let u ← findLayerIndex layers (base ++ "mlp.up_proj")
  let d ← findLayerIndex layers (base ++ "mlp.down_proj")
  return ⟨g, u, d⟩

/-- The cache of another vector is cleared. -/
def TblkIndexCache.own (c : TblkIndexCache) (addr : Nat) : TblkIndexCache :=
  if c.owner ≠ some addr then { owner := some addr } else c

/-- `resize` of both tables, with entries that are not resolved. -/
def TblkIndexCache.grow (c : TblkIndexCache) (n : Nat) : TblkIndexCache :=
  { c with
    attn := vectorResize c.attn n {}
    mlp := vectorResize c.mlp n {} }

/-- `cached_attn_idx`, of the vector at an address; the layers of a block are counted from 0. -/
def cachedAttnIdx (addr : Nat) (layers : List LayerData) (layerIdx : Nat) (c : TblkIndexCache) :
    Exec AttnIdx × TblkIndexCache :=
  let c := c.own addr
  let c := if c.attn.length ≤ layerIdx then c.grow (layerIdx + 1) else c
  let a := c.attn.getD layerIdx {}
  if a.q < 0 then
    match attnIndices layers layerIdx with
    | .error e => (.error e, c)
    | .ok a => (.ok a, { c with attn := c.attn.set layerIdx a })
  else (.ok a, c)

/-- `cached_mlp_idx`. -/
def cachedMlpIdx (addr : Nat) (layers : List LayerData) (layerIdx : Nat) (c : TblkIndexCache) :
    Exec MlpIdx × TblkIndexCache :=
  let (owned, c) :=
    if c.owner ≠ some addr then cachedAttnIdx addr layers layerIdx c else (.ok {}, c)
  match owned with
  | .error e => (.error e, c)
  | .ok _ =>
    let c := if c.mlp.length ≤ layerIdx then c.grow (layerIdx + 1) else c
    let m := c.mlp.getD layerIdx {}
    if m.g < 0 then
      match mlpIndices layers layerIdx with
      | .error e => (.error e, c)
      | .ok m => (.ok m, { c with mlp := c.mlp.set layerIdx m })
    else (.ok m, c)

/-- The indices that `transformer_block` works with. It gets to those of the standard feed-forward
part where nothing before it throws and the layer is not a MoTE layer. -/
def blockIndices (addr : Nat) (layers : List LayerData) (layerIdx : Nat) (standard : Bool)
    (c : TblkIndexCache) : (Exec AttnIdx × Option (Exec MlpIdx)) × TblkIndexCache :=
  match cachedAttnIdx addr layers layerIdx c with
  | (.error e, c) => ((.error e, none), c)
  | (.ok a, c) =>
    if standard then
      let (m, c) := cachedMlpIdx addr layers layerIdx c
      ((.ok a, some m), c)
    else ((.ok a, none), c)

/-! ## Histories of a thread -/

/-- What happens to the vectors of layers, and a block that the thread runs on one of them. -/
inductive TblkEvent where
  /-- A vector is made at an address that is free. -/
  | create (addr : Nat) (layers : List LayerData)
  | destroy (addr : Nat)
  /-- A vector is assigned to the one at an address. -/
  | replace (addr : Nat) (layers : List LayerData)
  | block (addr : Nat) (layerIdx : Nat) (standard : Bool)

/-- The live vectors by their addresses, and the cache of the thread. -/
structure TblkState where
  vectors : Nat → Option (List LayerData)
  cache : TblkIndexCache := {}

/-- The vectors after an event; `none` where it cannot happen. -/
def stepVectors (vectors : Nat → Option (List LayerData)) :
    TblkEvent → Option (Nat → Option (List LayerData))
  | .create addr layers =>
    match vectors addr with
    | none => some (Function.update vectors addr (some layers))
    | some _ => none
  | .destroy addr => (vectors addr).map fun _ => Function.update vectors addr none
  | .replace addr layers =>
    (vectors addr).map fun _ => Function.update vectors addr (some layers)
  | .block addr _ _ => (vectors addr).map fun _ => vectors

/-- The cache after an event. -/
def stepCache (s : TblkState) : TblkEvent → TblkIndexCache
  | .block addr layerIdx standard =>
    (blockIndices addr ((s.vectors addr).getD []) layerIdx standard s.cache).2
  | _ => s.cache

/-- An event of the thread. -/
def stepTblk (s : TblkState) (e : TblkEvent) : Option TblkState :=
  (stepVectors s.vectors e).map fun vectors => ⟨vectors, stepCache s e⟩

/-- A block works with the indices that `find_layer_index` returns on its vector. -/
def IndicesCurrent (s : TblkState) : TblkEvent → Prop
  | .block addr layerIdx standard =>
    let layers := (s.vectors addr).getD []
    let found := (blockIndices addr layers layerIdx standard s.cache).1
    found.1 = attnIndices layers layerIdx ∧ ∀ m, found.2 = some m → m = mlpIndices layers layerIdx
  | _ => True

/-- The two tables of the cache. -/
inductive BlockPart where
  | attn
  | mlp
  deriving DecidableEq, Repr

/-- A lookup of the indices of a part of a layer. -/
abbrev IndexLookup := Lookup Nat (BlockPart × Nat) Fault (List Int)

def AttnIdx.toList (a : AttnIdx) : List Int := [a.q, a.k, a.v, a.o]

def MlpIdx.toList (m : MlpIdx) : List Int := [m.g, m.u, m.d]

def attnLookup (addr : Nat) (layers : List LayerData) (layerIdx : Nat) : IndexLookup :=
  ⟨addr, (.attn, layerIdx), (attnIndices layers layerIdx).map AttnIdx.toList⟩

def mlpLookup (addr : Nat) (layers : List LayerData) (layerIdx : Nat) : IndexLookup :=
  ⟨addr, (.mlp, layerIdx), (mlpIndices layers layerIdx).map MlpIdx.toList⟩

/-- The lookups of a block. -/
def blockLookups (addr : Nat) (layers : List LayerData) (layerIdx : Nat) (standard : Bool) :
    List IndexLookup :=
  attnLookup addr layers layerIdx ::
    if standard ∧ (attnIndices layers layerIdx).isOk then [mlpLookup addr layers layerIdx] else []

/-- The lookups of the blocks of a history. -/
def lookupsOf (vectors : Nat → Option (List LayerData)) : List TblkEvent → List IndexLookup
  | [] => []
  | e :: es =>
    match stepVectors vectors e with
    | none => []
    | some vectors' =>
      match e with
      | .block addr layerIdx standard =>
        blockLookups addr ((vectors addr).getD []) layerIdx standard ++ lookupsOf vectors' es
      | _ => lookupsOf vectors' es

/-! ## The cache as a memo -/

/-- What an entry of a table holds; the first index of one that is not resolved is negative. -/
def resolved {α : Type} (toList : α → List Int) (a : α) : Option (List Int) :=
  if (toList a).headD (-1) < 0 then none else some (toList a)

/-- The memo that the two tables stand for. -/
structure Tracks (c : TblkIndexCache) (m : Memo Nat (BlockPart × Nat) (List Int)) : Prop where
  owner : m.owner = c.owner
  sizes : c.attn.length = c.mlp.length
  attn : ∀ i, m.table (.attn, i) = resolved AttnIdx.toList (c.attn.getD i {})
  mlp : ∀ i, m.table (.mlp, i) = resolved MlpIdx.toList (c.mlp.getD i {})

section
variable {c : TblkIndexCache} {m : Memo Nat (BlockPart × Nat) (List Int)} {addr layerIdx : Nat}
  {layers : List LayerData}

theorem tracks_start (owner : Option Nat) : Tracks { owner } { owner } :=
  ⟨rfl, rfl, fun _ => rfl, fun _ => rfl⟩

theorem Tracks.own (h : Tracks c m) (addr : Nat) : Tracks (c.own addr) (m.at addr) := by
  unfold TblkIndexCache.own Memo.at
  rw [h.owner]
  by_cases howner : c.owner = some addr
  · rw [if_pos howner, if_neg (not_not.2 howner)]
    exact h
  · rw [if_neg howner, if_pos howner]
    exact tracks_start (some addr)

theorem getD_vectorResize {α : Type} {l : List α} {n : Nat} (h : l.length ≤ n) (i : Nat) (d : α) :
    (vectorResize l n d).getD i d = l.getD i d := by
  rw [vectorResize, List.take_of_length_le h, List.getD_eq_getElem?_getD,
    List.getD_eq_getElem?_getD]
  rcases Nat.lt_or_ge i l.length with hlt | hge
  · rw [List.getElem?_append_left hlt]
  · rw [List.getElem?_append_right hge, List.getElem?_eq_none hge, List.getElem?_replicate]
    split
    · rfl
    · rfl

theorem Tracks.grow (h : Tracks c m) {n : Nat} (hn : c.attn.length ≤ n) : Tracks (c.grow n) m where
  owner := h.owner
  sizes := by rw [TblkIndexCache.grow, vectorResize_length, vectorResize_length]
  attn i := by rw [h.attn, TblkIndexCache.grow, getD_vectorResize hn]
  mlp i := by rw [h.mlp, TblkIndexCache.grow, getD_vectorResize (h.sizes ▸ hn)]

/-- The cache where the layer has its entries. -/
theorem Tracks.grown (h : Tracks c m) (layerIdx : Nat) :
    Tracks (if c.attn.length ≤ layerIdx then c.grow (layerIdx + 1) else c) m ∧
      layerIdx < (if c.attn.length ≤ layerIdx then c.grow (layerIdx + 1) else c).attn.length := by
  split
  · rename_i hle
    refine ⟨h.grow (Nat.le_succ_of_le hle), ?_⟩
    rw [TblkIndexCache.grow, vectorResize_length]
    exact Nat.lt_succ_self layerIdx
  · rename_i hlt
    exact ⟨h, Nat.not_le.1 hlt⟩

theorem resolved_set {α : Type} {toList : α → List Int} {l : List α} {i : Nat} {a d : α}
    (hi : i < l.length) (ha : ¬ (toList a).headD (-1) < 0) (j : Nat) :
    resolved toList ((l.set i a).getD j d) =
      if j = i then some (toList a) else resolved toList (l.getD j d) := by
  rw [List.getD_eq_getElem?_getD, List.getD_eq_getElem?_getD, List.getElem?_set]
  by_cases hj : j = i
  · subst hj
    rw [if_pos rfl, if_pos hi, if_pos rfl]
    exact if_neg ha
  · rw [if_neg (Ne.symm hj), if_neg hj]

theorem Tracks.setAttn (h : Tracks c m) {a : AttnIdx} (hi : layerIdx < c.attn.length)
    (ha : ¬ a.q < 0) :
    Tracks { c with attn := c.attn.set layerIdx a }
      ⟨m.owner, Function.update m.table (.attn, layerIdx) (some a.toList)⟩ where
  owner := h.owner
  sizes := by rw [List.length_set, h.sizes]
  attn j := by
    have hset := resolved_set (d := {}) hi (show ¬ (AttnIdx.toList a).headD (-1) < 0 from ha) j
    dsimp only
    rw [hset, ← h.attn]
    by_cases hj : j = layerIdx
    · rw [hj, Function.update_self, if_pos rfl]
    · rw [Function.update_of_ne (fun heq => hj (congrArg Prod.snd heq)), if_neg hj]
  mlp j := by
    have hne : (BlockPart.mlp, j) ≠ (BlockPart.attn, layerIdx) := by simp
    dsimp only
    rw [Function.update_of_ne hne]
    exact h.mlp j

theorem Tracks.setMlp (h : Tracks c m) {v : MlpIdx} (hi : layerIdx < c.mlp.length)
    (hv : ¬ v.g < 0) :
    Tracks { c with mlp := c.mlp.set layerIdx v }
      ⟨m.owner, Function.update m.table (.mlp, layerIdx) (some v.toList)⟩ where
  owner := h.owner
  sizes := by rw [List.length_set, h.sizes]
  attn j := by
    have hne : (BlockPart.attn, j) ≠ (BlockPart.mlp, layerIdx) := by simp
    dsimp only
    rw [Function.update_of_ne hne]
    exact h.attn j
  mlp j := by
    have hset := resolved_set (d := {}) hi (show ¬ (MlpIdx.toList v).headD (-1) < 0 from hv) j
    dsimp only
    rw [hset, ← h.mlp]
    by_cases hj : j = layerIdx
    · rw [hj, Function.update_self, if_pos rfl]
    · rw [Function.update_of_ne (fun heq => hj (congrArg Prod.snd heq)), if_neg hj]

/-! ## The indices that are looked up -/

theorem findLayerIndex_nonneg {name : String} {i : Int} (h : findLayerIndex layers name = .ok i) :
    ¬ i < 0 := by
  unfold findLayerIndex at h
  split at h
  · rename_i n _
    obtain rfl : (n : Int) = i := Except.ok.inj h
    exact Int.not_lt.2 (Int.natCast_nonneg n)
  · cases h

theorem attnIndices_nonneg {a : AttnIdx} (h : attnIndices layers layerIdx = .ok a) : ¬ a.q < 0 := by
  obtain ⟨q, hq, h⟩ := bind_eq_ok.1 h
  obtain ⟨k, -, h⟩ := bind_eq_ok.1 h
  obtain ⟨v, -, h⟩ := bind_eq_ok.1 h
  obtain ⟨o, -, h⟩ := bind_eq_ok.1 h
  cases h
  exact findLayerIndex_nonneg hq

theorem mlpIndices_nonneg {v : MlpIdx} (h : mlpIndices layers layerIdx = .ok v) : ¬ v.g < 0 := by
  obtain ⟨g, hg, h⟩ := bind_eq_ok.1 h
  obtain ⟨u, -, h⟩ := bind_eq_ok.1 h
  obtain ⟨d, -, h⟩ := bind_eq_ok.1 h
  cases h
  exact findLayerIndex_nonneg hg

/-! ## A lookup through the cache -/

theorem cachedAttnIdx_tracks (h : Tracks c m) (addr : Nat) (layers : List LayerData)
    (layerIdx : Nat) :
    (m.lookup (attnLookup addr layers layerIdx)).1 =
        (cachedAttnIdx addr layers layerIdx c).1.map AttnIdx.toList ∧
      Tracks (cachedAttnIdx addr layers layerIdx c).2
        (m.lookup (attnLookup addr layers layerIdx)).2 := by
  obtain ⟨hgrown, hlt⟩ := (h.own addr).grown layerIdx
  have howner := Memo.owner_at m addr
  unfold cachedAttnIdx
  dsimp only
  generalize (if (c.own addr).attn.length ≤ layerIdx then (c.own addr).grow (layerIdx + 1)
    else c.own addr) = c₁ at hgrown hlt ⊢
  have hentry : (m.at addr).table (.attn, layerIdx) =
      resolved AttnIdx.toList (c₁.attn.getD layerIdx {}) := hgrown.attn layerIdx
  by_cases hq : (c₁.attn.getD layerIdx {}).q < 0
  · have hnone : (m.at addr).table (attnLookup addr layers layerIdx).key = none :=
      hentry.trans (if_pos hq)
    rw [if_pos hq]
    cases hfound : attnIndices layers layerIdx with
    | error e =>
      have hfresh : (attnLookup addr layers layerIdx).fresh = .error e := by
        rw [attnLookup, hfound]
        rfl
      rw [Memo.lookup_error hnone hfresh]
      exact ⟨rfl, hgrown⟩
    | ok a =>
      have hfresh : (attnLookup addr layers layerIdx).fresh = .ok a.toList := by
        rw [attnLookup, hfound]
        rfl
      rw [Memo.lookup_miss hnone hfresh]
      refine ⟨rfl, ?_⟩
      have hset := hgrown.setAttn hlt (attnIndices_nonneg hfound)
      rwa [howner] at hset
  · have hsome : (m.at addr).table (attnLookup addr layers layerIdx).key =
        some (c₁.attn.getD layerIdx {}).toList :=
      hentry.trans (if_neg hq)
    rw [if_neg hq, Memo.lookup_hit hsome]
    exact ⟨rfl, hgrown⟩

theorem cachedMlpIdx_tracks (h : Tracks c m) (howner : c.owner = some addr)
    (layers : List LayerData) (layerIdx : Nat) :
    (m.lookup (mlpLookup addr layers layerIdx)).1 =
        (cachedMlpIdx addr layers layerIdx c).1.map MlpIdx.toList ∧
      Tracks (cachedMlpIdx addr layers layerIdx c).2
        (m.lookup (mlpLookup addr layers layerIdx)).2 := by
  obtain ⟨hgrown, hlt⟩ := h.grown layerIdx
  have hat : m.at addr = m := Memo.at_of_owner (h.owner.trans howner)
  unfold cachedMlpIdx
  rw [h.sizes] at hgrown hlt
  rw [if_neg (not_not.2 howner)]
  dsimp only
  generalize (if c.mlp.length ≤ layerIdx then c.grow (layerIdx + 1) else c) = c₁ at hgrown hlt ⊢
  have hentry : (m.at addr).table (.mlp, layerIdx) =
      resolved MlpIdx.toList (c₁.mlp.getD layerIdx {}) := by
    rw [hat]
    exact hgrown.mlp layerIdx
  by_cases hg : (c₁.mlp.getD layerIdx {}).g < 0
  · have hnone : (m.at addr).table (mlpLookup addr layers layerIdx).key = none :=
      hentry.trans (if_pos hg)
    rw [if_pos hg]
    cases hfound : mlpIndices layers layerIdx with
    | error e =>
      have hfresh : (mlpLookup addr layers layerIdx).fresh = .error e := by
        rw [mlpLookup, hfound]
        rfl
      rw [Memo.lookup_error hnone hfresh]
      exact ⟨rfl, hat.symm ▸ hgrown⟩
    | ok v =>
      have hfresh : (mlpLookup addr layers layerIdx).fresh = .ok v.toList := by
        rw [mlpLookup, hfound]
        rfl
      rw [Memo.lookup_miss hnone hfresh]
      refine ⟨rfl, ?_⟩
      have hset := hgrown.setMlp (hgrown.sizes ▸ hlt) (mlpIndices_nonneg hfound)
      rw [h.owner, howner] at hset
      rw [show (mlpLookup addr layers layerIdx).addr = addr from rfl, hat]
      exact hset
  · have hsome : (m.at addr).table (mlpLookup addr layers layerIdx).key =
        some (c₁.mlp.getD layerIdx {}).toList :=
      hentry.trans (if_neg hg)
    rw [if_neg hg, Memo.lookup_hit hsome]
    exact ⟨rfl, hat.symm ▸ hgrown⟩

/-! ## A block and a history -/

theorem map_inj_iff {α β : Type} {f : α → β} (hf : Function.Injective f) {x y : Exec α} :
    x.map f = y.map f ↔ x = y := by
  refine ⟨fun h => ?_, fun h => by rw [h]⟩
  cases x with
  | error e =>
    cases y with
    | error e' => exact congrArg Except.error (Except.error.inj h)
    | ok b => cases h
  | ok a =>
    cases y with
    | error e' => cases h
    | ok b => exact congrArg Except.ok (hf (Except.ok.inj h))

theorem AttnIdx.toList_injective : Function.Injective AttnIdx.toList := by
  rintro ⟨q, k, v, o⟩ ⟨q', k', v', o'⟩ h
  simp only [AttnIdx.toList, List.cons.injEq, and_true] at h
  obtain ⟨rfl, rfl, rfl, rfl⟩ := h
  rfl

theorem MlpIdx.toList_injective : Function.Injective MlpIdx.toList := by
  rintro ⟨g, u, d⟩ ⟨g', u', d'⟩ h
  simp only [MlpIdx.toList, List.cons.injEq, and_true] at h
  obtain ⟨rfl, rfl, rfl⟩ := h
  rfl

/-- What a lookup finds in a vector. -/
def partIndices (layers : List LayerData) : BlockPart × Nat → Exec (List Int)
  | (.attn, i) => (attnIndices layers i).map AttnIdx.toList
  | (.mlp, i) => (mlpIndices layers i).map MlpIdx.toList

/-- What the cache holds for the vector at an address are its indices. -/
def TblkIndexCache.Current (c : TblkIndexCache) (addr : Nat) (layers : List LayerData) : Prop :=
  ∃ m, Tracks c m ∧ m.Knows addr (partIndices layers)

/-- The entries of the two tables. -/
def TblkIndexCache.entries (c : TblkIndexCache) : BlockPart × Nat → Option (List Int)
  | (.attn, i) => resolved AttnIdx.toList (c.attn.getD i {})
  | (.mlp, i) => resolved MlpIdx.toList (c.mlp.getD i {})

/-- A block looks its indices up through the memo. -/
theorem blockIndices_tracks (h : Tracks c m) (addr : Nat) (layers : List LayerData)
    (layerIdx : Nat) (standard : Bool) :
    ∃ m', ((blockIndices addr layers layerIdx standard c).1.1 = attnIndices layers layerIdx →
        Tracks (blockIndices addr layers layerIdx standard c).2 m') ∧
      ∀ ls, m.AllFresh (blockLookups addr layers layerIdx standard ++ ls) ↔
        ((blockIndices addr layers layerIdx standard c).1.1 = attnIndices layers layerIdx ∧
          ∀ v, (blockIndices addr layers layerIdx standard c).1.2 = some v →
            v = mlpIndices layers layerIdx) ∧ m'.AllFresh ls := by
  obtain ⟨hresult, htracks⟩ := cachedAttnIdx_tracks h addr layers layerIdx
  have howner : (cachedAttnIdx addr layers layerIdx c).2.owner = some addr := by
    rw [← htracks.owner, Memo.owner_lookup]
    rfl
  have hright : (m.lookup (attnLookup addr layers layerIdx)).1 =
      (attnLookup addr layers layerIdx).fresh ↔
        (cachedAttnIdx addr layers layerIdx c).1 = attnIndices layers layerIdx := by
    rw [hresult]
    exact map_inj_iff AttnIdx.toList_injective
  unfold blockIndices blockLookups
  simp only [List.cons_append, Memo.AllFresh, hright]
  rcases hcached : cachedAttnIdx addr layers layerIdx c with ⟨e | a, c₁⟩
  · rw [hcached] at htracks
    refine ⟨_, fun _ => htracks, fun ls => ?_⟩
    dsimp only
    constructor
    · rintro ⟨hattn, hrest⟩
      rw [← hattn] at hrest
      refine ⟨⟨hattn, fun v hv => ?_⟩, by simpa [Except.isOk, Except.toBool] using hrest⟩
      cases hv
    · rintro ⟨⟨hattn, -⟩, hrest⟩
      refine ⟨hattn, ?_⟩
      rw [← hattn]
      simpa [Except.isOk, Except.toBool] using hrest
  · rw [hcached] at htracks howner
    cases standard with
    | false =>
      refine ⟨_, fun _ => htracks, fun ls => ?_⟩
      simp
    | true =>
      obtain ⟨hresult, hlast⟩ := cachedMlpIdx_tracks htracks howner layers layerIdx
      have hright : ((m.lookup (attnLookup addr layers layerIdx)).2.lookup
          (mlpLookup addr layers layerIdx)).1 = (mlpLookup addr layers layerIdx).fresh ↔
            (cachedMlpIdx addr layers layerIdx c₁).1 = mlpIndices layers layerIdx := by
        rw [hresult]
        exact map_inj_iff MlpIdx.toList_injective
      refine ⟨_, fun _ => hlast, fun ls => ?_⟩
      simp only [if_true, Option.some.injEq, forall_eq', and_assoc]
      refine and_congr_right fun hattn => ?_
      rw [← hattn]
      simp [Except.isOk, Except.toBool, Memo.AllFresh, hright]

/-- Through a whole history. -/
theorem eachStep_indicesCurrent_iff (h : Tracks c m) (es : List TblkEvent)
    (vectors : Nat → Option (List LayerData)) :
    EachStep stepTblk IndicesCurrent es ⟨vectors, c⟩ ↔ m.AllFresh (lookupsOf vectors es) := by
  induction es generalizing vectors c m with
  | nil => exact Iff.rfl
  | cons e es ih =>
    rw [EachStep, lookupsOf]
    cases hvectors : stepVectors vectors e with
    | none =>
      have hstop : stepTblk ⟨vectors, c⟩ e = none := by rw [stepTblk, hvectors]; rfl
      exact iff_of_true (fun s' hs' => nomatch hstop.symm.trans hs') trivial
    | some vectors' =>
      have hstep : stepTblk ⟨vectors, c⟩ e = some ⟨vectors', stepCache ⟨vectors, c⟩ e⟩ := by
        rw [stepTblk, hvectors]
        rfl
      rw [hstep]
      simp only [Option.some.injEq, forall_eq']
      cases e with
      | create addr layers => exact (and_iff_right trivial).trans (ih h vectors')
      | destroy addr => exact (and_iff_right trivial).trans (ih h vectors')
      | replace addr layers => exact (and_iff_right trivial).trans (ih h vectors')
      | block addr layerIdx standard =>
        obtain ⟨m', htracks, hfresh⟩ :=
          blockIndices_tracks h addr ((vectors addr).getD []) layerIdx standard
        refine Iff.trans (and_congr_right fun hcurrent => ?_) (hfresh _).symm
        exact ih (htracks hcurrent.1) vectors'

end

/-! ## When the indices are current -/

/-- The blocks of a thread always work with the indices of the vector at hand, in every history of
vectors that starts with a new thread, exactly where what is looked up for a layer at an address is
found again as long as the thread stays at that address. -/
theorem indices_current_iff (vectors : Nat → Option (List LayerData)) (es : List TblkEvent) :
    EachStep stepTblk IndicesCurrent es ⟨vectors, {}⟩ ↔ Coherent (lookupsOf vectors es) :=
  (eachStep_indicesCurrent_iff (tracks_start none) es vectors).trans (allFresh_iff _)

/-- A vector with the projections of layer 0 in this order. -/
def projLayers (names : List String) : List LayerData :=
  names.map fun name => { name := str ("model.layers.0." ++ name) }

/-- The attention projections alone. -/
def qkvo : List LayerData :=
  projLayers ["self_attn.q_proj", "self_attn.k_proj", "self_attn.v_proj", "self_attn.o_proj"]

/-- The attention projections behind one of the feed-forward part. -/
def gateQkvo : List LayerData :=
  projLayers ["mlp.gate_proj", "self_attn.q_proj", "self_attn.k_proj", "self_attn.v_proj",
    "self_attn.o_proj"]

/-- Another model is loaded where the vector of the last one was. -/
theorem indices_stale :
    ¬ EachStep stepTblk IndicesCurrent [.create 0 qkvo, .block 0 0 false, .destroy 0,
      .create 0 gateQkvo, .block 0 0 false] ⟨fun _ => none, {}⟩ := by
  intro h
  have hlast := (h _ rfl).2 _ rfl |>.2 _ rfl |>.2 _ rfl |>.2 _ rfl |>.1.1
  revert hlast
  decide +kernel

end Terllama
