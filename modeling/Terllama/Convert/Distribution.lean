import Terllama.Convert.MoteBuilder
import Terllama.Kernel.PlaneLayer

/-!
# The distribution of bitplane terms

`distribute_als_terms` of `src/mote_builder.cpp` deals the terms of a layer to `K` experts, term `t`
to expert `t % K`. Every term goes to one expert (`sum_dealt`), so the experts together compute what
the layer does (`distributeAlsTerms_lossless`).
-/

namespace Terllama

/-- The terms among the first `t` that expert `e` of `n` gets. -/
def dealtTerms (terms : List BitplaneTerm) (n e t : Nat) : List BitplaneTerm :=
  ((List.range t).filter fun i => i % n = e).map fun i => terms.getD i default

/-- An expert layer with the terms it has after `t` of them are dealt. -/
def dealtExpert (src : LayerData) (n t e : Nat) : LayerData :=
  { outFeatures := src.outFeatures, inFeatures := src.inFeatures,
    terms := dealtTerms src.terms n e t }

/-- Each further term goes to one expert. -/
theorem dealtTerms_succ (terms : List BitplaneTerm) (n e t : Nat) :
    dealtTerms terms n e (t + 1) =
      dealtTerms terms n e t ++ if t % n = e then [terms.getD t default] else [] := by
  rw [dealtTerms, List.range_succ, List.filter_append, List.map_append, ← dealtTerms]
  by_cases h : t % n = e <;> simp [h]

/-- The pass over term `t`. -/
theorem dealtExperts_modify (src : LayerData) (n t : Nat) :
    ((List.range n).map (dealtExpert src n t)).modify (t % n)
        (fun et => { et with terms := et.terms ++ [src.terms.getD t default] }) =
      (List.range n).map (dealtExpert src n (t + 1)) := by
  refine List.ext_getElem (by simp) fun e h₁ h₂ => ?_
  rw [List.getElem_modify]
  simp only [List.getElem_map, List.getElem_range, dealtExpert, dealtTerms_succ]
  split
  · rfl
  · rw [List.append_nil]

/-- The experts of a layer: expert `e` has the terms `t` with `t % n = e`. -/
theorem distributeAlsTerms_ok {src : LayerData} {n : Nat} (hterms : src.numTerms = src.terms.length)
    (hle : src.terms.length ≤ 32) (hn : 1 ≤ n) (hn' : n ≤ 2147483647) :
    distributeAlsTerms src n = .ok ((List.range n).map fun e =>
      { dealtExpert src n src.terms.length e with
        numTerms := (dealtTerms src.terms n e src.terms.length).length }) := by
  have hsize : sizeT (n : Int) = n := by
    rw [sizeT_of_nonneg (by omega) (by omega), Int.toNat_natCast]
  have hresize : resizeExperts n { outFeatures := src.outFeatures, inFeatures := src.inFeatures } =
      .ok ((List.range n).map (dealtExpert src n 0)) := by
    rw [resizeExperts, hsize, if_pos (by unfold vectorMaxSize sizeofLayerData; omega)]
    refine congrArg Except.ok ?_
    have hempty : dealtExpert src n 0 = fun _ =>
        { outFeatures := src.outFeatures, inFeatures := src.inFeatures } := rfl
    rw [hempty, List.map_const', List.length_range]
  have hdeal : ∃ experts, (List.range src.terms.length).foldlM (fun experts t => do
      if (n : Int) = 0 then undefined "division by zero"
      else
        let st ← load src.terms t
        return experts.modify (t % n) fun et =>
          { et with terms := et.terms ++ [st] }) ((List.range n).map (dealtExpert src n 0)) =
        .ok experts ∧ experts = (List.range n).map (dealtExpert src n src.terms.length) := by
    refine foldlM_range_total (I := fun t experts =>
      experts = (List.range n).map (dealtExpert src n t)) rfl ?_
    rintro t ht experts rfl
    refine ⟨_, ?_, dealtExperts_modify src n t⟩
    rw [if_neg (by omega), load_getD ht default, ok_bind]
    rfl
  obtain ⟨experts, hdeal, rfl⟩ := hdeal
  rw [distributeAlsTerms, hresize, ok_bind, hterms]
  simp only [Int.toNat_natCast]
  rw [hdeal, ok_bind]
  refine congrArg Except.ok ?_
  rw [List.map_map]
  refine List.map_congr_left fun e _ => ?_
  have hlen : (dealtTerms src.terms n e src.terms.length).length ≤ src.terms.length := by
    rw [dealtTerms, List.length_map]
    exact (List.length_filter_le _ _).trans List.length_range.le
  have hcount : toInt32 (dealtTerms src.terms n e src.terms.length).length =
      (dealtTerms src.terms n e src.terms.length).length := toInt32_of_lt (by omega)
  simp only [Function.comp_apply, dealtExpert, hcount]

section
variable {K : Type} [Field K]

/-- A row of the active terms among a list. -/
theorem planeTermsDot_append (a b : List BitplaneTerm) (cols : Nat) (x : List K) (row : Nat) :
    planeTermsDot (a ++ b) cols x row = planeTermsDot a cols x row + planeTermsDot b cols x row := by
  rw [planeTermsDot, List.map_append, List.sum_append]
  rfl

/-- The terms that are dealt add up to the terms of the layer, each counted once. -/
theorem sum_dealt (keep : BitplaneTerm → Bool) (terms : List BitplaneTerm) {n : Nat} (hn : 1 ≤ n)
    (cols : Nat) (x : List K) (row : Nat) {t : Nat} (ht : t ≤ terms.length) :
    ∑ e ∈ Finset.range n, planeTermsDot ((dealtTerms terms n e t).filter keep) cols x row =
      planeTermsDot ((terms.take t).filter keep) cols x row := by
  induction t with
  | zero => simp [dealtTerms, planeTermsDot]
  | succ t ih =>
    have hslot : t % n ∈ Finset.range n := Finset.mem_range.2 (Nat.mod_lt t hn)
    have hterm : ∀ e, planeTermsDot ((dealtTerms terms n e (t + 1)).filter keep) cols x row =
        planeTermsDot ((dealtTerms terms n e t).filter keep) cols x row +
          if t % n = e then planeTermsDot ([terms.getD t default].filter keep) cols x row
          else 0 := by
      intro e
      rw [dealtTerms_succ, List.filter_append, planeTermsDot_append]
      split
      · rfl
      · simp [planeTermsDot]
    rw [Finset.sum_congr rfl fun e _ => hterm e, Finset.sum_add_distrib, ih (by omega),
      Finset.sum_ite_eq, if_pos hslot, List.take_add_one, List.getElem?_eq_getElem (by omega),
      List.filter_append, planeTermsDot_append, List.getD_eq_getElem _ _ (by omega)]
    rfl

variable [LinearOrder K]

/-- The experts that `distribute_als_terms` makes of a layer of up to 32 bitplane terms, for any
number of experts, compute the layer together: in each row, their outputs add up to its output. -/
theorem distributeAlsTerms_lossless (m : Machine K) {src : LayerData} {rows cols n : Nat}
    (h : src.PlaneLayer rows cols) (hn : 1 ≤ n) (hn' : n ≤ 2147483647) :
    ∃ experts, distributeAlsTerms src n = .ok experts ∧ experts.length = n ∧
      ∀ x, m.CanRead cols x → ∃ outs y,
        experts.mapM (fun expert => ternaryLinear m expert x .unknown) = .ok outs ∧
        ternaryLinear m src x .unknown = .ok y ∧ y.length = rows ∧
        (∀ out ∈ outs, out.length = rows) ∧
        ∀ row < rows, (outs.map fun out => out.getD row 0).sum = y.getD row 0 := by
  have hexperts := distributeAlsTerms_ok h.numTerms h.terms_le hn hn'
  refine ⟨_, hexperts, by rw [List.length_map, List.length_range], fun x hx => ?_⟩
  have hplane : ∀ e, ({ dealtExpert src n src.terms.length e with
      numTerms := (dealtTerms src.terms n e src.terms.length).length } : LayerData).PlaneLayer
        rows cols := by
    intro e
    have hlen : (dealtTerms src.terms n e src.terms.length).length ≤ src.terms.length := by
      rw [dealtTerms, List.length_map]
      exact (List.length_filter_le _ _).trans List.length_range.le
    refine ⟨h.outFeatures, h.inFeatures, rfl, hlen.trans h.terms_le, fun term hterm => ?_⟩
    obtain ⟨i, hi, rfl⟩ := List.mem_map.1 hterm
    have hi := List.mem_range.1 (List.mem_of_mem_filter hi)
    rw [List.getD_eq_getElem _ _ hi]
    exact h.words _ (List.getElem_mem hi)
  refine ⟨(List.range n).map fun e => (List.range rows).map (planeTermsDot
    ((dealtTerms src.terms n e src.terms.length).filter fun term => term.alphaExp ≠ -128) cols x),
    _, ?_, ternaryLinear_planes h hx, by simp, ?_, fun row hrow => ?_⟩
  · rw [List.mapM_map]
    exact mapM_ok fun e _ => ternaryLinear_planes (hplane e) hx
  · intro out hout
    obtain ⟨e, -, rfl⟩ := List.mem_map.1 hout
    rw [List.length_map, List.length_range]
  · have hsum := sum_dealt (fun term => decide (term.alphaExp ≠ -128)) src.terms hn cols x row
      le_rfl
    rw [List.take_length] at hsum
    rw [getD_map_range _ hrow, LayerData.activeTerms, ← hsum, List.map_map]
    refine congrArg List.sum (List.map_congr_left fun e _ => ?_)
    exact getD_map_range _ hrow 0

end

/-- A layer of two terms, one of them marked empty. -/
def twoTerms : LayerData where
  outFeatures := 1
  inFeatures := 1
  numTerms := 2
  terms := [⟨1, 1, [0x10000]⟩, ⟨-128, 1, [0x10000]⟩]

theorem twoTerms_plane : twoTerms.PlaneLayer 1 1 where
  outFeatures := rfl
  inFeatures := rfl
  numTerms := rfl
  terms_le := by decide
  words := by simp [twoTerms, wordsPerRow]

theorem distributeAlsTerms_twoTerms : twoTerms.PlaneLayer 1 1 ∧
    ∃ experts, distributeAlsTerms twoTerms (3 : Nat) = .ok experts ∧ experts.length = 3 ∧
      ∀ x, ratMachine.CanRead 1 x → ∃ outs y,
        experts.mapM (fun expert => ternaryLinear ratMachine expert x .unknown) = .ok outs ∧
        ternaryLinear ratMachine twoTerms x .unknown = .ok y ∧ y.length = 1 ∧
        (∀ out ∈ outs, out.length = 1) ∧
        ∀ row < 1, (outs.map fun out => out.getD row 0).sum = y.getD row 0 :=
  ⟨twoTerms_plane, distributeAlsTerms_lossless ratMachine twoTerms_plane (by decide) (by decide)⟩

end Terllama
