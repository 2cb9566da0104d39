import Terllama.Core.ForwardSteps

/-!
# A block of the forward pass

`attention`, `mlp_forward` and `transformer_block` against the reference transformer. The cache is
described by the rows that each layer holds (`Stores`): a block at position `pos` needs those of the
positions before it and adds its own.
-/

namespace Terllama

namespace Forward

section
variable {α : Type} [Zero α] {fl : Arith α} {d : Shape} {cfg : ModelConfig}

/-! ## The cache -/

/-- Each layer of the cache holds the keys and values of its first positions. -/
def Stores (d : Shape) (kv : KVCache α) (len : Nat → Nat) (keys values : Nat → Nat → Nat → α) :
    Prop :=
  ∃ ops, kv.Holds d.layers d.positions d.rowDim ops ∧
    (∀ op ∈ ops, KVAppend.Fits op d.layers d.rowDim) ∧
    ∀ layer < d.layers, lastLength d.positions ops layer = len layer ∧ ∀ t < len layer,
      lastRow KVAppend.k d.rowDim ops layer t = (List.range d.rowDim).map (keys layer t) ∧
      lastRow KVAppend.v d.rowDim ops layer t = (List.range d.rowDim).map (values layer t)

section
variable {kv : KVCache α} {len : Nat → Nat} {keys values : Nat → Nat → Nat → α} {layer pos : Nat}

theorem rowDim_le (h : d.Attends) (hpos : pos < d.positions) : d.rowDim ≤ 2147483647 :=
  (Nat.le_mul_of_pos_left d.rowDim (Nat.zero_lt_of_lt hpos)).trans h.cache_le

/-- The rows of a layer, side by side in one buffer. -/
theorem layerRows_cells {side : KVAppend α → List α} {ops : List (KVAppend α)} {m n : Nat}
    (hops : ∀ op ∈ ops, n ≤ (side op).length) {t : Nat} (ht : t < m) {x : Nat → α}
    (hrow : lastRow side n ops layer t = (List.range n).map x) :
    Cells (layerRows side m n ops layer) (t * n) n x := by
  intro i hi
  rw [layerRows, getElem?_flatMap (fun t _ => lastRow_length hops layer t) ht hi, hrow,
    List.getElem?_map, List.getElem?_range hi, Option.map_some]

/-- What a layer of the cache gives to read. -/
theorem Stores.read (h : Stores d kv len keys values) (hlayer : layer < d.layers)
    (hlen : len layer ≤ d.positions) :
    kv.length layer = .ok (len layer : Int) ∧ ∃ ks vs, load kv.kCache layer = .ok ks ∧
      load kv.vCache layer = .ok vs ∧
      (∀ t < len layer, Cells ks (t * d.rowDim) d.rowDim (keys layer t)) ∧
      ∀ t < len layer, Cells vs (t * d.rowDim) d.rowDim (values layer t) := by
  obtain ⟨ops, hholds, hops, hrows⟩ := h
  obtain ⟨hlast, hrows⟩ := hrows layer hlayer
  have hkey : ∀ op ∈ ops, d.rowDim ≤ op.k.length := fun op hop => by
    exact_mod_cast (hops op hop).key
  have hvalue : ∀ op ∈ ops, d.rowDim ≤ op.v.length := fun op hop => by
    exact_mod_cast (hops op hop).value
  refine ⟨load_eq ?_, layerRows KVAppend.k d.positions d.rowDim ops layer,
    layerRows KVAppend.v d.positions d.rowDim ops layer, load_eq ?_, load_eq ?_, fun t ht => ?_,
    fun t ht => ?_⟩
  · rw [hholds.lens, List.getElem?_map, List.getElem?_range hlayer, Option.map_some, hlast]
  · rw [hholds.keys, List.getElem?_map, List.getElem?_range hlayer, Option.map_some]
  · rw [hholds.values, List.getElem?_map, List.getElem?_range hlayer, Option.map_some]
  · exact layerRows_cells hkey (ht.trans_le hlen) (hrows t ht).1
  · exact layerRows_cells hvalue (ht.trans_le hlen) (hrows t ht).2

theorem Stores.congr (h : Stores d kv len keys values) {len' : Nat → Nat}
    (hlen : ∀ layer < d.layers, len layer = len' layer) : Stores d kv len' keys values := by
  obtain ⟨ops, hholds, hops, hrows⟩ := h
  refine ⟨ops, hholds, hops, fun layer hlayer => ?_⟩
  rw [← hlen layer hlayer]
  exact hrows layer hlayer

/-- `append` adds the rows of the next position of a layer. -/
theorem Stores.append (h : Stores d kv len keys values) (hshape : d.Attends)
    (hlayer : layer < d.layers) (hlen : len layer = pos) (hpos : pos < d.positions) {k v : List α}
    (hk : Cells k 0 d.rowDim (keys layer pos)) (hv : Cells v 0 d.rowDim (values layer pos)) :
    ∃ kv', kv.append layer k v pos = .ok kv' ∧
      Stores d kv' (Function.update len layer (pos + 1)) keys values := by
  obtain ⟨ops, hholds, hops, hrows⟩ := h
  have hfits : KVAppend.Fits ⟨layer, k, v, pos⟩ d.layers d.rowDim :=
    ⟨by exact_mod_cast hlayer, by exact_mod_cast hk.le_length, by exact_mod_cast hv.le_length⟩
  obtain ⟨kv', hrun, hholds'⟩ := hholds.append hshape.cache_le (rowDim_le hshape hpos) hops hfits
  refine ⟨kv', hrun, _, hholds', List.forall_mem_cons.2 ⟨hfits, hops⟩, fun l hl => ?_⟩
  obtain ⟨hlast, hrows⟩ := hrows l hl
  rw [lastLength]
  by_cases heq : l = layer
  · subst heq
    have hrange : (0 : Int) ≤ pos ∧ (pos : Int) < d.positions := by omega
    rw [Function.update_self, if_pos ⟨rfl, hrange⟩]
    refine ⟨by push_cast; rfl, fun t ht => ?_⟩
    rw [lastRow, lastRow]
    by_cases hlatest : t = pos
    · subst hlatest
      rw [if_pos ⟨rfl, rfl⟩, if_pos ⟨rfl, rfl⟩]
      exact ⟨hk.take_eq, hv.take_eq⟩
    · have hne : ¬ ((pos : Int) = t) := by omega
      rw [if_neg fun h => hne h.2, if_neg fun h => hne h.2]
      exact hrows t (by omega)
  · have hne : ¬ layer = l := fun h => heq h.symm
    rw [Function.update_of_ne heq, if_neg fun h => hne h.1]
    refine ⟨hlast, fun t ht => ?_⟩
    rw [lastRow, lastRow, if_neg fun h => hne h.1, if_neg fun h => hne h.1]
    exact hrows t ht

end

/-! ## Attention -/

/-- The projections of the attention are those of a block. -/
structure AttnMaps (fl : Arith α) (d : Shape) (proj : AttnLayers) (b : Block α) : Prop where
  q : Maps fl proj.q d.queryDim d.hidden b.q
  k : Maps fl proj.k d.rowDim d.hidden b.k
  v : Maps fl proj.v d.rowDim d.hidden b.v
  o : Maps fl proj.o d.hidden d.queryDim b.o

/-- The norms of a block have the widths that the pass reads. -/
structure NormsFit (d : Shape) (norms : NormWeights) : Prop where
  input : d.hidden ≤ norms.inputLayernorm.length
  post : d.hidden ≤ norms.postAttentionLayernorm.length
  attnSub : norms.attnSubNorm = [] ∨ d.hidden ≤ norms.attnSubNorm.length
  ffnSub : norms.ffnSubNorm = [] ∨ d.hidden ≤ norms.ffnSubNorm.length
  q : norms.qNorm = [] ∨ norms.qNorm.length = d.headDim
  k : norms.kNorm = [] ∨ norms.kNorm.length = d.headDim

variable {b : Block α} {rope : RoPECache α} {proj : AttnLayers} {pos : Nat}

/-- The hidden vector, the activations and the vocabulary have sizes of `int`s. -/
structure Shape.IntSized (d : Shape) : Prop where
  hidden_le : d.hidden ≤ 2147483647
  inner_le : d.inner ≤ 2147483647
  vocab_le : d.vocab ≤ 2147483647

/-- The projections of the feed-forward part are those of a block. -/
structure MlpMaps (fl : Arith α) (d : Shape) (gate up down : LayerData) (b : Block α) : Prop where
  gate : Maps fl gate d.inner d.hidden b.gate
  up : Maps fl up d.inner d.hidden b.up
  down : Maps fl down d.hidden d.inner b.down

/-- The layers and the norms of a block of the model are those of `b`, and it is no MoTE block. -/
structure BlockFits (fl : Arith α) (d : Shape) (m : Model α) (layer : Nat) (b : Block α) : Prop where
  norms : m.layerNorms[layer]? = some b.norms
  normsFit : NormsFit d b.norms
  standard : moteLayerOf m.moteLayers layer = none
  attn : ∃ ia proj, attnIndices m.layers layer = .ok ia ∧ attnLayers m.layers ia = .ok proj ∧
    AttnMaps fl d proj b
  mlp : ∃ im gate up down, mlpIndices m.layers layer = .ok im ∧
    load m.layers im.g.toNat = .ok gate ∧ load m.layers im.u.toNat = .ok up ∧
    load m.layers im.d.toNat = .ok down ∧ MlpMaps fl d gate up down b

/-- The names of the projections of a block. -/
def projNames : List String :=
  ["self_attn.q_proj", "self_attn.k_proj", "self_attn.v_proj", "self_attn.o_proj",
    "mlp.gate_proj", "mlp.up_proj", "mlp.down_proj"]

/-- A layer of the vector, found by the name of a projection of a block. -/
def FoundAs (m : Model α) (layer : Nat) (name : String) (i : Int) (ld : LayerData) : Prop :=
  findLayerIndex m.layers ("model.layers." ++ toString layer ++ "." ++ name) = .ok i ∧
    load m.layers i.toNat = .ok ld

/-- The layers that a block of the model looks up. -/
def BlockUses (m : Model α) (layer : Nat) (ld : LayerData) : Prop :=
  ∃ name ∈ projNames, ∃ i, FoundAs m layer name i ld

section
variable {m : Model α} {layer : Nat} {ia : AttnIdx} {im : MlpIdx} {gate up down ld : LayerData}

omit [Zero α] in
/-- The projections of the attention, by their names. -/
theorem attn_found (hia : attnIndices m.layers layer = .ok ia)
    (hproj : attnLayers m.layers ia = .ok proj) :
    FoundAs m layer "self_attn.q_proj" ia.q proj.q ∧ FoundAs m layer "self_attn.k_proj" ia.k proj.k ∧
      FoundAs m layer "self_attn.v_proj" ia.v proj.v ∧
      FoundAs m layer "self_attn.o_proj" ia.o proj.o := by
  obtain ⟨q, hq, hia⟩ := Terllama.bind_eq_ok.1 hia
  obtain ⟨k, hk, hia⟩ := Terllama.bind_eq_ok.1 hia
  obtain ⟨v, hv, hia⟩ := Terllama.bind_eq_ok.1 hia
  obtain ⟨o, ho, hia⟩ := Terllama.bind_eq_ok.1 hia
  cases hia
  obtain ⟨lq, hlq, hproj⟩ := Terllama.bind_eq_ok.1 hproj
  obtain ⟨lk, hlk, hproj⟩ := Terllama.bind_eq_ok.1 hproj
  obtain ⟨lv, hlv, hproj⟩ := Terllama.bind_eq_ok.1 hproj
  obtain ⟨lo, hlo, hproj⟩ := Terllama.bind_eq_ok.1 hproj
  cases hproj
  exact ⟨⟨hq, hlq⟩, ⟨hk, hlk⟩, ⟨hv, hlv⟩, ⟨ho, hlo⟩⟩

omit [Zero α] in
/-- The projections of the feed-forward part, by their names. -/
theorem mlp_found (him : mlpIndices m.layers layer = .ok im)
    (hgate : load m.layers im.g.toNat = .ok gate) (hup : load m.layers im.u.toNat = .ok up)
    (hdown : load m.layers im.d.toNat = .ok down) :
    FoundAs m layer "mlp.gate_proj" im.g gate ∧ FoundAs m layer "mlp.up_proj" im.u up ∧
      FoundAs m layer "mlp.down_proj" im.d down := by
  obtain ⟨g, hg, him⟩ := Terllama.bind_eq_ok.1 him
  obtain ⟨u, hu, him⟩ := Terllama.bind_eq_ok.1 him
  obtain ⟨dn, hd, him⟩ := Terllama.bind_eq_ok.1 him
  cases him
  exact ⟨⟨hg, hgate⟩, ⟨hu, hup⟩, ⟨hd, hdown⟩⟩

omit [Zero α] in
/-- A block uses no other layers than these. -/
theorem BlockUses.cases (h : BlockUses m layer ld) (hia : attnIndices m.layers layer = .ok ia)
    (hproj : attnLayers m.layers ia = .ok proj) (him : mlpIndices m.layers layer = .ok im)
    (hgate : load m.layers im.g.toNat = .ok gate) (hup : load m.layers im.u.toNat = .ok up)
    (hdown : load m.layers im.d.toNat = .ok down) :
    ld ∈ [proj.q, proj.k, proj.v, proj.o, gate, up, down] := by
  obtain ⟨name, hname, i, hi, hld⟩ := h
  have hsame : ∀ {j : Int} {ld' : LayerData}, FoundAs m layer name j ld' → ld = ld' := fun hj => by
    cases hi.symm.trans hj.1
    exact Except.ok.inj (hld.symm.trans hj.2)
  obtain ⟨hq, hk, hv, ho⟩ := attn_found hia hproj
  obtain ⟨hg, hu, hd⟩ := mlp_found him hgate hup hdown
  simp only [projNames, List.mem_cons, List.not_mem_nil, or_false] at hname ⊢
  rcases hname with rfl | rfl | rfl | rfl | rfl | rfl | rfl
  · exact .inl (hsame hq)
  · exact .inr (.inl (hsame hk))
  · exact .inr (.inr (.inl (hsame hv)))
  · exact .inr (.inr (.inr (.inl (hsame ho))))
  · exact .inr (.inr (.inr (.inr (.inl (hsame hg)))))
  · exact .inr (.inr (.inr (.inr (.inr (.inl (hsame hu))))))
  · exact .inr (.inr (.inr (.inr (.inr (.inr (hsame hd))))))

end

end

end Forward

end Terllama
