import Terllama.Base.Rational
import Terllama.Convert.Pack

/-!
# The ternary decomposition of a weight matrix

`als_decompose` of `src/convert/als_decompose.cpp`: a greedy choice of power-of-two scaled ternary
terms (`greedyTerms`), a refinement that solves each term again (`refineTerms`), and the joint
least-squares scales of each block of columns (`fitBlockScales`), which an LU factorization solves.
The code is written over the floating-point operations it uses (`DecomposeOps`), so that nothing
here depends on how they round. `alsDecompose_shape` is what every caller needs: the terms it
returns have the shape that the packer expects.
-/

namespace Terllama

/-- The operations of `als_decompose.cpp` on `float` (`F`) and `double` (`D`). A conversion to an
integer type is undefined outside its range. -/
structure DecomposeOps (F D : Type) where
  zeroF : F
  /-- `1e-8f`. -/
  tinyF : F
  absF : F → F
  ltF : F → F → Bool
  subF : F → F → F
  mulF : F → F → F
  divF : F → F → F
  /-- `(float)v` for a ternary `v`. -/
  intF : Int → F
  /-- `std::ldexp(1.0f, k)`. -/
  ldexpF : Int → F
  widen : F → D
  narrow : D → F
  /-- A literal of type `double`. -/
  lit : ℚ → D
  absD : D → D
  floorD : D → D
  ceilD : D → D
  log2D : D → D
  sqrtD : D → D
  addD : D → D → D
  subD : D → D → D
  mulD : D → D → D
  divD : D → D → D
  ltD : D → D → Bool
  eqD : D → D → Bool
  /-- The comparison with the positive infinity. -/
  ltInfinity : D → Bool
  toInt32 : D → Exec Int
  toInt64 : D → Exec Int

section
variable {F D : Type} (ops : DecomposeOps F D)

/-! ## Linear algebra -/

/-- The search of `lu_factor` for the first row from `k` on with the largest entry in column `k`. -/
def pivotRow {n : Nat} (A : Fin n → Fin n → D) (k : Fin n) : Fin n :=
  ((List.finRange n).foldl (fun best i =>
    if k < i ∧ ops.ltD best.1 (ops.absD (A i k)) then (ops.absD (A i k), i) else best)
    (ops.absD (A k k), k)).2

/-- The exchange of two rows. -/
def swapRows {n : Nat} (A : Fin n → Fin n → D) (k l : Fin n) : Fin n → Fin n → D :=
  fun i => if i = k then A l else if i = l then A k else A i

/-- The elimination of column `k` below its diagonal entry, which leaves the multipliers there. -/
def eliminate {n : Nat} (A : Fin n → Fin n → D) (k : Fin n) : Fin n → Fin n → D :=
  let multiplier := fun i => ops.divD (A i k) (A k k)
  fun i j =>
    if k < i then
      if j = k then multiplier i
      else if k < j then ops.subD (A i j) (ops.mulD (multiplier i) (A k j)) else A i j
    else A i j

/-- `lu_factor`: the factors and the pivots, or `none` where it returns `false`. -/
def luFactor {n : Nat} (A : Fin n → Fin n → D) : Option ((Fin n → Fin n → D) × (Fin n → Fin n)) :=
  (List.finRange n).foldlM (fun state k =>
    let imax := pivotRow ops state.1 k
    let A := swapRows state.1 k imax
    if ops.eqD (A k k) (ops.lit 0) then none
    else some (eliminate ops A k, fun i => if i = k then imax else state.2 i)) (A, id)

/-- A pass of the triangular solves of `lu_solve`: entry `i` without the entries `js` times their
coefficients. -/
def substitute {n : Nat} (A : Fin n → Fin n → D) (i : Fin n) (js : List (Fin n))
    (b : Fin n → D) : D :=
  js.foldl (fun bi j => ops.subD bi (ops.mulD (A i j) (b j))) (b i)

/-- `lu_solve`. -/
def luSolve {n : Nat} (A : Fin n → Fin n → D) (ipiv : Fin n → Fin n) (b : Fin n → D) :
    Fin n → D :=
  let b := (List.finRange n).foldl (fun b j => fun i =>
    if i = j then b (ipiv j) else if i = ipiv j then b j else b i) b
  let b := (List.finRange n).foldl (fun b i =>
    if ops.eqD (b i) (ops.lit 0) then b
    else Function.update b i (substitute ops A i ((List.finRange n).filter (· < i)) b)) b
  (List.finRange n).reverse.foldl (fun b i =>
    if ops.eqD (b i) (ops.lit 0) then b
    else Function.update b i
      (ops.divD (substitute ops A i ((List.finRange n).filter (i < ·)) b) (A i i))) b

/-! ## Rounding -/

/-- `torch_round`: to the nearest integer, to an even one from the middle. -/
def torchRound (x : D) : Exec Int := do
  let xa := ops.absD x
  let fl := ops.floorD xa
  let frac := ops.subD xa fl
  let r ←
    if ops.ltD frac (ops.lit (1 / 2)) then ops.toInt64 fl
    else if ops.ltD (ops.lit (1 / 2)) frac then ops.toInt64 (ops.addD fl (ops.lit 1))
    else do
      let whole ← ops.toInt64 fl
      if whole % 2 = 0 then pure whole else ops.toInt64 (ops.addD fl (ops.lit 1))
  return if ops.ltD x (ops.lit 0) then -r else r

/-- `clamp_round_ternary`. -/
def clampRoundTernary (x : D) : Exec Int := do
  let r ← torchRound ops x
  return if r > 1 then 1 else if r < -1 then -1 else r

/-- `fro_norm64`. -/
def froNorm64 (d : List F) : D :=
  ops.sqrtD (d.foldl (fun acc x => ops.addD acc (ops.mulD (ops.widen x) (ops.widen x)))
    (ops.lit 0))

/-! ## One term -/

/-- `RawTerm`: a scale, a power of two or zero, and a ternary matrix. -/
structure RawTerm (D : Type) where
  a : D
  T : List Int
deriving DecidableEq

/-- The largest magnitude in a residual. -/
def residualMax (R : List F) : F :=
  R.foldl (fun rmax r => let v := ops.absF r; if ops.ltF rmax v then v else rmax) ops.zeroF

/-- The ternary matrix nearest to a residual at the scale `a`. -/
def ternaryOf (a : F) (R : List F) : Exec (List Int) :=
  R.mapM fun r => clampRoundTernary ops (ops.widen (ops.divF r a))

/-- `R - a * T`. -/
def residual (a : F) (T : List Int) (R : List F) : List F :=
  List.zipWith (fun r t => ops.subF r (ops.mulF a (ops.intF t))) R T

/-- `std::max` on `double`. -/
def maxD (x y : D) : D := if ops.ltD x y then y else x

/-- A pass of the search for the best exponent. The best error starts as the infinity (`none`). -/
def tryExponent (R : List F) (best : Option D × Int) (k : Int) : Exec (Option D × Int) := do
  let a := ops.ldexpF k
  let T ← ternaryOf ops a R
  let e := froNorm64 ops (residual ops a T R)
  let better := match best.1 with
    | none => ops.ltInfinity e
    | some bestE => ops.ltD e bestE
  return if better then (some e, k) else best

/-- `best_k` for a residual whose largest magnitude is `rmax`. -/
def bestExponent (R : List F) (rmax : F) : Exec Int := do
  let lo ← ops.toInt32 (ops.floorD (ops.log2D
    (maxD ops (ops.divD (ops.widen rmax) (ops.lit 3)) (ops.lit (1 / 10000000000)))))
  let hi ← ops.toInt32 (ops.ceilD (ops.log2D
    (maxD ops (ops.mulD (ops.widen rmax) (ops.lit (3 / 2))) (ops.lit (1 / 10000000000)))))
  let hi ← i32 (hi + 2)
  let best ← (List.range (hi - lo).toNat).foldlM
    (fun best (i : Nat) => tryExponent ops R best (lo + i)) (none, lo)
  return best.2

/-- The term of a residual too small to go on with. -/
def zeroTerm (n : Nat) : RawTerm D := ⟨ops.lit 0, List.replicate n 0⟩

/-- The term that `refine_terms` puts in the place of another. -/
def solveTerm (R : List F) : Exec (RawTerm D) := do
  let rmax := residualMax ops R
  if ops.ltF rmax ops.tinyF then return zeroTerm ops R.length
  else
    let a := ops.ldexpF (← bestExponent ops R rmax)
    let T ← ternaryOf ops a R
    return ⟨ops.widen a, T⟩

/-! ## All terms -/

/-- The loop of `greedy_terms`, with `numTerms` terms to go. -/
def greedyTerms : Nat → List F → Exec (List (RawTerm D))
  | 0, _ => .ok []
  | numTerms + 1, R => do
    let rmax := residualMax ops R
    if ops.ltF rmax ops.tinyF then
      let rest ← greedyTerms numTerms R
      return zeroTerm ops R.length :: rest
    else
      let a := ops.ldexpF (← bestExponent ops R rmax)
      let T ← ternaryOf ops a R
      let rest ← greedyTerms numTerms (residual ops a T R)
      return ⟨ops.widen a, T⟩ :: rest

/-- The residual of all terms but term `i`, those of scale zero left out. -/
def residualWithout (W : List F) (terms : List (RawTerm D)) (i : Nat) : List F :=
  terms.zipIdx.foldl (fun R term =>
    if term.2 = i ∨ ops.eqD term.1.a (ops.lit 0) then R
    else residual ops (ops.narrow term.1.a) term.1.T R) W

/-- `refine_terms`. -/
def refineTerms (W : List F) (numTerms maxIter : Nat) (terms : List (RawTerm D)) :
    Exec (List (RawTerm D)) :=
  (List.range maxIter).foldlM (fun terms _ =>
    (List.range numTerms).foldlM (fun terms i => do
      let term ← solveTerm ops (residualWithout ops W terms i)
      return terms.set i term) terms) terms

/-! ## The scales -/

/-- `AtA` and `Atw` of a block of columns. -/
structure Normal (D : Type) (n : Nat) where
  AtA : Fin n → Fin n → D
  Atw : Fin n → D

/-- The sums of `fit_block_scales` over the `bw` columns from `start` on. The positions it reads are
below `out_f * in_f`, the length of `W` and of every ternary matrix. -/
def blockNormal (W : List F) (terms : List (RawTerm D)) (outF inF start bw : Nat) :
    Normal D terms.length :=
  (List.range outF).foldl (fun acc r => (List.range bw).foldl (fun acc c =>
    let p := r * inF + start + c
    let w := ops.widen (W.getD p ops.zeroF)
    let col : Fin terms.length → D := fun i =>
      ops.lit (((terms.get i).T.getD p 0 : Int) : ℚ)
    { AtA := fun i j => ops.addD (acc.AtA i j) (ops.mulD (col i) (col j))
      Atw := fun i => ops.addD (acc.Atw i) (ops.mulD (col i) w) }) acc)
    ⟨fun _ _ => ops.lit 0, fun _ => ops.lit 0⟩

/-- The matrix of the normal equations with the ridge `1e-10 * max(diag(AtA))`. -/
def ridgeMatrix {n : Nat} (AtA : Fin n → Fin n → D) : Fin n → Fin n → D :=
  let diagMax := (List.finRange n).foldl
    (fun m i => if ops.ltD m (AtA i i) then AtA i i else m) (ops.lit 0)
  let ridge := ops.mulD (ops.lit (1 / 10000000000)) diagMax
  fun i j => if i = j then ops.addD (AtA i j) ridge else AtA i j

/-- The scales of all terms on one block: zero where the matrix is singular. -/
def fitBlock (W : List F) (terms : List (RawTerm D)) (outF inF start bw : Nat) :
    Fin terms.length → F :=
  let normal := blockNormal ops W terms outF inF start bw
  match luFactor ops (ridgeMatrix ops normal.AtA) with
  | none => fun _ => ops.zeroF
  | some (lu, ipiv) => fun i => ops.narrow (luSolve ops lu ipiv normal.Atw i)

/-- `fit_block_scales`: the scales of each term, one for each block. -/
def fitBlockScales (W : List F) (outF inF qk : Int) (terms : List (RawTerm D)) :
    Exec (List (List F)) := do
  let nBlocks ← ceilBlocks inF qk
  vectorAlloc (sizeT nBlocks) 24
  vectorAlloc (sizeT (terms.length * terms.length)) 8
  return (List.finRange terms.length).map fun i => (List.range nBlocks.toNat).map fun b =>
    let start := b * qk.toNat
    fitBlock ops W terms outF.toNat inF.toNat start (min (start + qk.toNat) inF.toNat - start) i

end

/-- `als_decompose`. -/
def alsDecompose {D : Type} (ops : DecomposeOps F32 D) (W : List F32) (outF inF : Int)
    (numTerms maxIter : Nat) (qk : Int) : Exec (List ALSTerm) := do
  let n := sizeT (outF * inF)
  vectorAlloc numTerms 32
  vectorAlloc n 4
  let W ← slice W 0 n
  let terms ← greedyTerms ops numTerms W
  let terms ← refineTerms ops W numTerms maxIter terms
  let perTerm ← fitBlockScales ops W outF inF qk terms
  return List.zipWith (fun scales term => ⟨scales, term.T⟩) perTerm terms

/-! ## The shape of the terms -/

section
variable {F D : Type} {ops : DecomposeOps F D}

/-- A ternary matrix of `n` elements. -/
structure RawTerm.Shape (n : Nat) (term : RawTerm D) : Prop where
  length : term.T.length = n
  isTernary : ∀ v ∈ term.T, IsTernary v

theorem clampRoundTernary_isTernary {x : D} {v : Int} (h : clampRoundTernary ops x = .ok v) :
    IsTernary v := by
  obtain ⟨r, -, h⟩ := bind_eq_ok.1 h
  cases h
  unfold IsTernary
  split
  · exact .inr (.inr rfl)
  · split
    · exact .inl rfl
    · omega

theorem ternaryOf_shape {a : F} {R : List F} {T : List Int} (s : D)
    (h : ternaryOf ops a R = .ok T) : RawTerm.Shape R.length ⟨s, T⟩ := by
  have hpasses := forall₂_of_mapM_ok h
  refine ⟨hpasses.length_eq.symm, fun v hv => ?_⟩
  obtain ⟨r, -, hr⟩ := exists_mem_of_forall₂ hpasses.flip hv
  exact clampRoundTernary_isTernary hr

theorem zeroTerm_shape (n : Nat) : (zeroTerm ops n).Shape n where
  length := List.length_replicate
  isTernary _ hv := .inr (.inl (List.eq_of_mem_replicate hv))

theorem residual_length {a : F} {T : List Int} {R : List F} (h : T.length = R.length) :
    (residual ops a T R).length = R.length := by
  rw [residual, List.length_zipWith, h, min_self]

theorem solveTerm_shape {R : List F} {term : RawTerm D} (h : solveTerm ops R = .ok term) :
    term.Shape R.length := by
  unfold solveTerm at h
  dsimp only at h
  split at h
  · cases h
    exact zeroTerm_shape _
  · obtain ⟨k, -, h⟩ := bind_eq_ok.1 h
    obtain ⟨T, hT, h⟩ := bind_eq_ok.1 h
    cases h
    exact ternaryOf_shape _ hT

theorem greedyTerms_shape {numTerms : Nat} {R : List F} {terms : List (RawTerm D)}
    (h : greedyTerms ops numTerms R = .ok terms) :
    terms.length = numTerms ∧ ∀ term ∈ terms, term.Shape R.length := by
  induction numTerms generalizing R terms with
  | zero =>
    cases h
    exact ⟨rfl, nofun⟩
  | succ numTerms ih =>
    rw [greedyTerms] at h
    dsimp only at h
    split at h
    · obtain ⟨rest, hrest, h⟩ := bind_eq_ok.1 h
      cases h
      obtain ⟨hlen, hshape⟩ := ih hrest
      exact ⟨congrArg Nat.succ hlen, List.forall_mem_cons.2 ⟨zeroTerm_shape _, hshape⟩⟩
    · obtain ⟨k, -, h⟩ := bind_eq_ok.1 h
      obtain ⟨T, hT, h⟩ := bind_eq_ok.1 h
      obtain ⟨rest, hrest, h⟩ := bind_eq_ok.1 h
      cases h
      have hfirst := ternaryOf_shape (ops.widen (ops.ldexpF k)) hT
      obtain ⟨hlen, hshape⟩ := ih hrest
      rw [residual_length hfirst.length] at hshape
      exact ⟨congrArg Nat.succ hlen, List.forall_mem_cons.2 ⟨hfirst, hshape⟩⟩

theorem residualWithout_length {W : List F} {terms : List (RawTerm D)}
    (h : ∀ term ∈ terms, term.Shape W.length) (i : Nat) :
    (residualWithout ops W terms i).length = W.length := by
  unfold residualWithout
  have hzip : ∀ p ∈ terms.zipIdx, p.1.Shape W.length := fun p hp =>
    h _ (List.fst_mem_of_mem_zipIdx hp)
  generalize terms.zipIdx = l at hzip
  suffices hgen : ∀ R : List F, R.length = W.length → (l.foldl (fun R term =>
      if term.2 = i ∨ ops.eqD term.1.a (ops.lit 0) then R
      else residual ops (ops.narrow term.1.a) term.1.T R) R).length = W.length from hgen W rfl
  induction l with
  | nil => exact fun R hR => hR
  | cons p l ih =>
    rw [List.forall_mem_cons] at hzip
    intro R hR
    rw [List.foldl_cons]
    refine ih hzip.2 _ ?_
    split
    · exact hR
    · rw [residual_length (hzip.1.length.trans hR.symm), hR]

theorem refineTerms_shape {W : List F} {numTerms maxIter : Nat} {terms terms' : List (RawTerm D)}
    (hterms : terms.length = numTerms ∧ ∀ term ∈ terms, term.Shape W.length)
    (h : refineTerms ops W numTerms maxIter terms = .ok terms') :
    terms'.length = numTerms ∧ ∀ term ∈ terms', term.Shape W.length := by
  refine foldlM_range_partial (I := fun _ (terms : List (RawTerm D)) =>
    terms.length = numTerms ∧ ∀ term ∈ terms, term.Shape W.length) hterms ?_ h
  intro _ _ terms terms' hterms hpass
  refine foldlM_range_partial (I := fun _ (terms : List (RawTerm D)) =>
    terms.length = numTerms ∧ ∀ term ∈ terms, term.Shape W.length) hterms ?_ hpass
  rintro i - terms terms' ⟨hlen, hshape⟩ hstep
  obtain ⟨term, hterm, hstep⟩ := bind_eq_ok.1 hstep
  cases hstep
  have hnew := solveTerm_shape hterm
  rw [residualWithout_length hshape] at hnew
  refine ⟨List.length_set.trans hlen, fun t ht => ?_⟩
  rcases List.mem_or_eq_of_mem_set ht with ht | rfl
  · exact hshape t ht
  · exact hnew

theorem fitBlockScales_shape {W : List F} {outF inF qk : Int} {terms : List (RawTerm D)}
    {perTerm : List (List F)} (h : fitBlockScales ops W outF inF qk terms = .ok perTerm) :
    ∃ nb, ceilBlocks inF qk = .ok nb ∧ perTerm.length = terms.length ∧
      ∀ scales ∈ perTerm, scales.length = nb.toNat := by
  obtain ⟨nb, hnb, h⟩ := bind_eq_ok.1 h
  obtain ⟨_, -, h⟩ := bind_eq_ok.1 h
  obtain ⟨_, -, h⟩ := bind_eq_ok.1 h
  cases h
  refine ⟨nb, hnb, by rw [List.length_map, List.length_finRange], fun scales hscales => ?_⟩
  obtain ⟨i, -, rfl⟩ := List.mem_map.1 hscales
  rw [List.length_map, List.length_range]

end

/-- The terms of a decomposition: as many as were asked for, each with a scale for each block of
columns and a ternary matrix of the layer's elements. -/
theorem alsDecompose_shape {D : Type} {ops : DecomposeOps F32 D} {W : List F32} {outF inF qk : Int}
    {numTerms maxIter : Nat} {terms : List ALSTerm}
    (h : alsDecompose ops W outF inF numTerms maxIter qk = .ok terms) :
    terms.length = numTerms ∧ sizeT (outF * inF) ≤ W.length ∧ ∃ nb, ceilBlocks inF qk = .ok nb ∧
      ∀ term ∈ terms, term.scales.length = nb.toNat ∧
        term.ternary.length = sizeT (outF * inF) ∧ ∀ v ∈ term.ternary, IsTernary v := by
  obtain ⟨_, -, h⟩ := bind_eq_ok.1 h
  obtain ⟨_, -, h⟩ := bind_eq_ok.1 h
  obtain ⟨W', hW, h⟩ := bind_eq_ok.1 h
  obtain ⟨greedy, hgreedy, h⟩ := bind_eq_ok.1 h
  obtain ⟨refined, hrefined, h⟩ := bind_eq_ok.1 h
  obtain ⟨perTerm, hperTerm, h⟩ := bind_eq_ok.1 h
  cases h
  obtain ⟨hle, rfl⟩ := slice_eq_ok.1 hW
  obtain ⟨hlen, hshape⟩ := refineTerms_shape (greedyTerms_shape hgreedy) hrefined
  obtain ⟨nb, hnb, hcount, hscales⟩ := fitBlockScales_shape hperTerm
  have hn : (List.take (sizeT (outF * inF)) (List.drop 0 W)).length = sizeT (outF * inF) := by
    rw [List.length_take, List.length_drop]
    omega
  refine ⟨by rw [List.length_zipWith, hcount, min_self, hlen], by omega, nb, hnb, ?_⟩
  intro term hterm
  obtain ⟨i, hi, rfl⟩ := List.getElem_of_mem hterm
  rw [List.length_zipWith] at hi
  rw [List.getElem_zipWith]
  have hraw := hshape _ (List.getElem_mem (show i < refined.length by omega))
  exact ⟨hscales _ (List.getElem_mem _), hraw.length.trans hn, hraw.isTernary⟩

/-! ## Exact doubles -/

/-- The operations with exact `double`s: a `float` result is rounded, a logarithm between two
integers stands for all others between them, and a norm is compared by its square. -/
def ratOps : DecomposeOps F32 ℚ where
  zeroF := 0
  tinyF := 0x322BCC77
  absF w := w &&& 0x7FFFFFFF
  ltF a b := a.toRat < b.toRat
  subF a b := F32.ofRat (a.toRat - b.toRat)
  mulF a b := F32.ofRat (a.toRat * b.toRat)
  divF a b := F32.ofRat (a.toRat / b.toRat)
  intF v := F32.ofRat v
  ldexpF k := F32.ofRat (2 ^ k)
  widen := F32.toRat
  narrow := F32.ofRat
  lit q := q
  absD x := |x|
  floorD x := ⌊x⌋
  ceilD x := ⌈x⌉
  log2D x := if (2 : ℚ) ^ Int.log 2 x = x then Int.log 2 x else Int.log 2 x + 1 / 2
  sqrtD x := x
  addD := (· + ·)
  subD := (· - ·)
  mulD := (· * ·)
  divD := (· / ·)
  ltD a b := a < b
  eqD a b := a = b
  ltInfinity _ := true
  toInt32 x := i32 (truncRat x)
  toInt64 x := i64 (truncRat x)

example : alsDecompose ratOps [0x3F800000, 0xBF800000] 1 2 1 5 128 =
    .ok [⟨[0x3F800000], [1, -1]⟩] := by decide +kernel

end Terllama
