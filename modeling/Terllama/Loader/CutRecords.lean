import Terllama.Loader.Directory

/-!
# Records that were cut

What the reader of `model_decomposed.bin` makes of a file that was cut short. It does not test its
stream: a vector keeps the zeros it was made with, a field of a layer the zero it was given, and a
variable without a value is used, which is undefined. So the reader throws only where it throws on
the zeros, and that is in a container of several terms: its term count is zero, or a term's length
no longer covers the term's blocks (`LosesTerms`). Everywhere else the reader returns a layer padded
with zeros, or reads on and uses a variable without a value (`readAlsLayers_cut`).
-/

namespace Terllama

/-! ## Zeros for the bytes that are missing -/

/-- The first `c` bytes of a buffer, and zeros for the others. -/
def padded (data : Bytes) (c : Nat) : Bytes :=
  data.take c ++ List.replicate (data.length - c) 0

@[simp] theorem padded_length (data : Bytes) (c : Nat) : (padded data c).length = data.length := by
  simp only [padded, List.length_append, List.length_take, List.length_replicate]
  omega

theorem getElem?_padded (data : Bytes) (c i : Nat) :
    (padded data c)[i]? = if i < c then data[i]? else data[i]?.map fun _ => 0 := by
  rw [padded, List.getElem?_append, List.length_take]
  split
  · rename_i hi
    rw [if_pos (by omega), List.getElem?_take_of_lt (by omega)]
  · rename_i hi
    rw [List.getElem?_replicate]
    split
    · rename_i hlt
      rw [if_neg (by omega), List.getElem?_eq_getElem (by omega)]
      rfl
    · rename_i hge
      rw [List.getElem?_eq_none (show data.length ≤ i by omega)]
      split <;> rfl

theorem padded_drop (data : Bytes) (c n : Nat) :
    (padded data c).drop n = padded (data.drop n) (c - n) := by
  apply List.ext_getElem?
  intro i
  simp only [List.getElem?_drop, getElem?_padded]
  congr 1
  exact propext (by omega)

theorem padded_take (data : Bytes) (c n : Nat) :
    (padded data c).take n = padded (data.take n) c := by
  apply List.ext_getElem?
  intro i
  simp only [List.getElem?_take, getElem?_padded]
  split
  · rfl
  · split <;> rfl

/-- The number that is left of a word. -/
theorem leNat_padded (data : Bytes) (c : Nat) :
    leNat (padded data c) = leNat data % 256 ^ c := by
  have hzeros : ∀ n, leNat (List.replicate n 0) = 0 := by
    intro n
    induction n with
    | zero => rfl
    | succ n ih => rw [List.replicate_succ, leNat, ih]; rfl
  induction data generalizing c with
  | nil => simp [padded, leNat]
  | cons b data ih =>
    cases c with
    | zero => simp only [padded, List.take_zero, List.nil_append, hzeros, Nat.pow_zero, Nat.mod_one]
    | succ c =>
      have hstep : padded (b :: data) (c + 1) = b :: padded data c := by
        simp only [padded, List.take_succ_cons, List.cons_append, List.length_cons,
          Nat.add_sub_add_right]
      have hb := b.toNat_lt
      have hdiv : (b.toNat + 256 * leNat data) / 256 = leNat data := by omega
      have hmod : (b.toNat + 256 * leNat data) % 256 = b.toNat := by omega
      rw [hstep, leNat, ih, leNat, Nat.pow_succ', Nat.mod_mul, hdiv, hmod]

/-- A range of a padded buffer. -/
theorem slice_padded {data : Bytes} {pos n : Nat} (h : pos + n ≤ data.length) (c : Nat) :
    slice (padded data c) pos n = .ok (padded ((data.drop pos).take n) (c - pos)) := by
  rw [slice_ok (by rwa [padded_length]), padded_drop, padded_take]

/-- A read that finds the first `c` bytes only. -/
theorem readInto_cut {data : Bytes} {c : Nat} (h : c < data.length) (rest : Bytes) :
    readInto (List.replicate data.length 0) ⟨(data ++ rest).take c, false⟩ =
      .ok (padded data c, ⟨[], true⟩) := by
  have htake : (data ++ rest).take c = data.take c := List.take_append_of_le_length h.le
  have hlen : (data.take c).length = c := List.length_take_of_le h.le
  have hgot : (data.take c).take data.length = data.take c :=
    List.take_of_length_le (by omega)
  have hrest : (data.take c).drop data.length = [] := List.drop_eq_nil_of_le (by omega)
  simp only [readInto, if_neg Bool.false_ne_true, List.length_replicate, htake, hgot, hrest, hlen,
    List.drop_replicate, decide_eq_true h, padded]
/-! ## Payloads -/

/-- The length word of the term at `pos`. -/
def termLength (data : Bytes) (pos : Nat) : Nat := leNat ((data.drop pos).take 4)

/-- What is left of it when the payload is cut after `c` bytes. -/
def lengthLeft (data : Bytes) (c pos : Nat) : Nat := termLength data pos % 256 ^ (c - pos)

/-- Where the length word of the last of `n + 1` terms stands, if that of the first is at `pos`. -/
def lastTerm (data : Bytes) : Nat → Nat → Nat
  | 0, pos => pos
  | n + 1, pos => lastTerm data n (pos + 4 + termLength data pos)

theorem le_lastTerm (data : Bytes) (n pos : Nat) : pos ≤ lastTerm data n pos := by
  induction n generalizing pos with
  | zero => exact Nat.le_refl pos
  | succ n ih => exact (Nat.le_add_right _ _).trans ((Nat.le_add_right _ _).trans (ih _))

theorem termLength_lt (data : Bytes) (pos : Nat) : termLength data pos < 4294967296 := by
  have hlt := leNat_lt ((data.drop pos).take 4)
  have hpow : 256 ^ ((data.drop pos).take 4).length ≤ 256 ^ 4 :=
    Nat.pow_le_pow_right (by decide) (List.length_take_le 4 _)
  exact hlt.trans_le hpow

theorem lengthLeft_le (data : Bytes) (c pos : Nat) :
    lengthLeft data c pos ≤ termLength data pos := Nat.mod_le _ _

/-- Nothing is left of a word behind the cut. -/
theorem lengthLeft_of_le (data : Bytes) {c pos : Nat} (h : c ≤ pos) :
    lengthLeft data c pos = 0 := by
  rw [lengthLeft, Nat.sub_eq_zero_of_le h, Nat.pow_zero, Nat.mod_one]

/-- A word before the cut keeps its value. -/
theorem lengthLeft_of_ge {data : Bytes} {c pos : Nat} (h : pos + 4 ≤ c) :
    lengthLeft data c pos = termLength data pos := by
  have hpow : 256 ^ 4 ≤ 256 ^ (c - pos) := Nat.pow_le_pow_right (by decide) (by omega)
  exact Nat.mod_eq_of_lt ((termLength_lt data pos).trans_le hpow)

/-- What is left of the length of the last of `n + 1` terms does not cover the `need` bytes of its
blocks. -/
def LosesLast (need : Nat) (data : Bytes) (c n pos : Nat) : Prop :=
  0 < need ∧ lengthLeft data c (lastTerm data n pos) < need

section
variable {data : Bytes} {outF inF : Int} {c n pos : Nat}

/-- The first term of a payload that was decoded. -/
theorem parseTerms_succ {terms : List (List BlockTerm)}
    (h : parseTerms data outF inF 128 (n + 1) pos = .ok terms) :
    pos + 4 + termLength data pos ≤ data.length ∧
      (∃ bytes blocks, bytes.length = termLength data pos ∧
        parseBlockTerms bytes outF inF 128 = .ok blocks) ∧
      ∃ rest, parseTerms data outF inF 128 n (pos + 4 + termLength data pos) = .ok rest := by
  rw [parseTerms] at h
  split at h
  · cases h
  obtain ⟨len, hlen, h⟩ := bind_eq_ok.1 h
  obtain ⟨-, rfl⟩ := slice_eq_ok.1 hlen
  dsimp only at h
  split at h
  · cases h
  rename_i hin
  obtain ⟨bytes, hbytes, h⟩ := bind_eq_ok.1 h
  obtain ⟨hinside, rfl⟩ := slice_eq_ok.1 hbytes
  obtain ⟨blocks, hblocks, h⟩ := bind_eq_ok.1 h
  obtain ⟨rest, hrest, -⟩ := bind_eq_ok.1 h
  refine ⟨not_lt.1 hin, ⟨_, blocks, ?_, hblocks⟩, rest, hrest⟩
  rw [List.length_take, List.length_drop]
  exact min_eq_left (by omega)

/-- The first term of a padded payload, with what is left of its length. -/
theorem parseTerms_padded_succ (outF inF : Int) (n : Nat) (h : pos + 4 + lengthLeft data c pos ≤ data.length) :
    ∃ bytes : Bytes, bytes.length = lengthLeft data c pos ∧
      parseTerms (padded data c) outF inF 128 (n + 1) pos = (do
        let blocks ← parseBlockTerms bytes outF inF 128
        let rest ← parseTerms (padded data c) outF inF 128 n (pos + 4 + lengthLeft data c pos)
        return blocks :: rest) := by
  have hword : ¬ pos + 4 > (padded data c).length := by
    rw [padded_length]
    omega
  have hlen : leNat (padded ((data.drop pos).take 4) (c - pos)) = lengthLeft data c pos :=
    leNat_padded _ _
  have hin : ¬ pos + 4 + lengthLeft data c pos > (padded data c).length := by
    rw [padded_length]
    omega
  refine ⟨padded ((data.drop (pos + 4)).take (lengthLeft data c pos)) (c - (pos + 4)), ?_, ?_⟩
  · rw [padded_length, List.length_take, List.length_drop]
    omega
  · rw [parseTerms, if_neg hword, slice_padded (by omega), ok_bind]
    simp only [hlen]
    rw [if_neg hin, slice_padded h, ok_bind]

/-- The terms behind the cut have no bytes, which is too few for a layer with blocks. -/
theorem parseTerms_behind (data : Bytes) (n : Nat) {sample : Bytes} {blocks : List BlockTerm}
    (hsample : sample.length < 4294967296)
    (h : parseBlockTerms sample outF inF 128 = .ok blocks) (hcut : c ≤ pos)
    (hfit : pos + 4 ≤ data.length) (hneed : 0 < tableSize outF.toNat inF.toNat) :
    parseTerms (padded data c) outF inF 128 (n + 1) pos =
      raise "ALS block data truncated in model file" := by
  have hzero := lengthLeft_of_le data hcut
  obtain ⟨bytes, hlen, hstep⟩ :=
    parseTerms_padded_succ outF inF n (show pos + 4 + lengthLeft data c pos ≤ data.length by omega)
  have hshort := (parseBlockTerms_shorter hsample h bytes (by omega)).1 (by omega)
  rw [hstep, hshort]
  rfl

/-- The terms of a layer without blocks are decoded from any payload that holds their lengths. -/
theorem parseTerms_empty (data : Bytes) (n : Nat) {sample : Bytes} {blocks : List BlockTerm}
    (hsample : sample.length < 4294967296)
    (h : parseBlockTerms sample outF inF 128 = .ok blocks) (hcut : c ≤ pos)
    (hfit : pos + 4 * n ≤ data.length) (hneed : tableSize outF.toNat inF.toNat = 0) :
    ∃ terms, parseTerms (padded data c) outF inF 128 n pos = .ok terms := by
  induction n generalizing pos with
  | zero => exact ⟨[], rfl⟩
  | succ n ih =>
    have hzero := lengthLeft_of_le data hcut
    obtain ⟨bytes, hlen, hstep⟩ :=
      parseTerms_padded_succ outF inF n
        (show pos + 4 + lengthLeft data c pos ≤ data.length by omega)
    obtain ⟨blocks', hblocks'⟩ :=
      (parseBlockTerms_shorter hsample h bytes (by omega)).2 (by omega)
    rw [hzero] at hstep
    obtain ⟨terms, hterms⟩ := ih (show c ≤ pos + 4 + 0 by omega) (by omega)
    rw [hstep, hblocks', ok_bind, hterms]
    exact ⟨_, rfl⟩

/-- The terms of a payload that was decoded hold their length words. -/
theorem parseTerms_room {terms : List (List BlockTerm)}
    (h : parseTerms data outF inF 128 n pos = .ok terms) (hpos : pos ≤ data.length) :
    pos + 4 * n ≤ data.length := by
  induction n generalizing pos terms with
  | zero => exact hpos
  | succ n ih =>
    obtain ⟨hfit, -, rest, hrest⟩ := parseTerms_succ h
    have hroom := ih hrest hfit
    omega

/-- What becomes of terms that were decoded, after a cut. -/
theorem parseTerms_padded {terms : List (List BlockTerm)}
    (h : parseTerms data outF inF 128 (n + 1) pos = .ok terms) :
    (LosesLast (tableSize outF.toNat inF.toNat) data c n pos →
      parseTerms (padded data c) outF inF 128 (n + 1) pos =
        raise "ALS block data truncated in model file") ∧
    (¬ LosesLast (tableSize outF.toNat inF.toNat) data c n pos →
      ∃ terms, parseTerms (padded data c) outF inF 128 (n + 1) pos = .ok terms) := by
  induction n generalizing pos terms with
  | zero =>
    obtain ⟨hfit, ⟨sample, blocks, hsample, hblocks⟩, -⟩ := parseTerms_succ h
    have hlt := hsample ▸ termLength_lt data pos
    have hle := lengthLeft_le data c pos
    obtain ⟨bytes, hlen, hstep⟩ :=
      parseTerms_padded_succ outF inF 0
        (show pos + 4 + lengthLeft data c pos ≤ data.length by omega)
    obtain ⟨hshort, hlong⟩ := parseBlockTerms_shorter hlt hblocks bytes (by omega)
    rw [hstep]
    constructor
    · rintro ⟨-, hlost⟩
      rw [lastTerm] at hlost
      rw [hshort (by omega)]
      rfl
    · intro hkept
      rw [LosesLast, lastTerm, not_and, not_lt] at hkept
      obtain ⟨blocks', hblocks'⟩ := hlong (by
        rcases Nat.eq_zero_or_pos (tableSize outF.toNat inF.toNat) with hz | hp
        · omega
        · have hcover := hkept hp
          omega)
      rw [hblocks']
      exact ⟨_, rfl⟩
  | succ n ih =>
    obtain ⟨hfit, ⟨sample, blocks, hsample, hblocks⟩, rest, hrest⟩ := parseTerms_succ h
    have hlt := hsample ▸ termLength_lt data pos
    have hle := lengthLeft_le data c pos
    have hroom := parseTerms_room hrest hfit
    obtain ⟨bytes, hlen, hstep⟩ :=
      parseTerms_padded_succ outF inF (n + 1)
        (show pos + 4 + lengthLeft data c pos ≤ data.length by omega)
    obtain ⟨hshort, hlong⟩ := parseBlockTerms_shorter hlt hblocks bytes (by omega)
    rw [hstep, LosesLast, lastTerm]
    by_cases hsame : lengthLeft data c pos = termLength data pos
    · -- the first term is decoded as before, and the next one stands where it stood
      have hcover : tableSize outF.toNat inF.toNat ≤ sample.length := by
        refine not_lt.1 fun hlt' => ?_
        have hraise := (parseBlockTerms_shorter hlt hblocks sample le_rfl).1 hlt'
        rw [hblocks] at hraise
        cases hraise
      obtain ⟨blocks', hblocks'⟩ := hlong (by omega)
      obtain ⟨hlost, hkept⟩ := ih hrest
      rw [hblocks', ok_bind, hsame]
      constructor
      · intro h
        rw [hlost h]
        rfl
      · intro h
        obtain ⟨terms', hterms'⟩ := hkept h
        rw [hterms']
        exact ⟨_, rfl⟩
    · -- the cut is in the first length word, and all later ones are behind it
      have hcut : c < pos + 4 := not_le.1 fun hge => hsame (lengthLeft_of_ge hge)
      have hlast := le_lastTerm data n (pos + 4 + termLength data pos)
      rw [lengthLeft_of_le data (show c ≤ lastTerm data n (pos + 4 + termLength data pos) by omega)]
      rcases Nat.eq_zero_or_pos (tableSize outF.toNat inF.toNat) with hneed | hneed
      · obtain ⟨blocks', hblocks'⟩ := hlong (by omega)
        obtain ⟨terms', hterms'⟩ := parseTerms_empty data (n + 1) hlt hblocks
          (show c ≤ pos + 4 + lengthLeft data c pos by omega) (by omega) hneed
        rw [hblocks', ok_bind, hterms']
        exact ⟨fun h => absurd h.1 (by omega), fun _ => ⟨_, rfl⟩⟩
      · refine ⟨fun _ => ?_, fun h => absurd ⟨hneed, hneed⟩ h⟩
        by_cases hfew : lengthLeft data c pos < tableSize outF.toNat inF.toNat
        · rw [hshort (by omega)]
          rfl
        · obtain ⟨blocks', hblocks'⟩ := hlong (by omega)
          have hbehind := parseTerms_behind data n hlt hblocks
            (show c ≤ pos + 4 + lengthLeft data c pos by omega) (by omega) hneed
          rw [hblocks', ok_bind, hbehind]
          rfl

/-- A cut after `c` bytes of a container of terms loses its term count, or what the last term is
decoded from. -/
def LosesTerms (need : Nat) (data : Bytes) (c : Nat) : Prop :=
  c = 0 ∨ LosesLast need data c (leNat (data.take 4) - 1) 4

/-- What becomes of a payload that was decoded, after a cut: it is rejected where it is a container
of terms that loses one, and otherwise decoded. -/
theorem parseLayerTypeData_padded {ld ld' : LayerData} {t : UInt8}
    (hout : -2147483648 ≤ ld.outFeatures ∧ ld.outFeatures ≤ 2147483647)
    (hdata : data.length < 4294967296) (h : parseLayerTypeData ld t data = .ok ld') :
    (t = 2 ∧ LosesTerms (tableSize ld.outFeatures.toNat ld.inFeatures.toNat) data c →
      ∃ what, parseLayerTypeData ld t (padded data c) = raise what) ∧
    (¬ (t = 2 ∧ LosesTerms (tableSize ld.outFeatures.toNat ld.inFeatures.toNat) data c) →
      ∃ ld'', parseLayerTypeData ld t (padded data c) = .ok ld'') := by
  unfold parseLayerTypeData at h ⊢
  split at h
  · rename_i ht
    subst ht
    refine ⟨fun hlost => absurd hlost.1 (by decide), fun _ => ?_⟩
    obtain ⟨ws, hws, -⟩ := bind_eq_ok.1 h
    unfold copyFloats at hws ⊢
    split at hws
    · rename_i hlen
      rw [padded_length, if_pos hlen]
      exact ⟨_, rfl⟩
    · cases hws
  rename_i ht
  dsimp only at h ⊢
  rw [if_neg ht]
  split at h
  · rename_i ht
    subst ht
    rw [if_pos rfl, padded_length]
    split at h
    · cases h
    rename_i hfour
    obtain ⟨head, hhead, h⟩ := bind_eq_ok.1 h
    obtain ⟨-, rfl⟩ := slice_eq_ok.1 hhead
    rw [List.drop_zero] at h
    split at h
    · cases h
    rename_i hnum
    obtain ⟨terms, hterms, -⟩ := bind_eq_ok.1 h
    have hcount : leNat (padded ((data.drop 0).take 4) (c - 0)) =
        leNat (data.take 4) % 256 ^ c := by
      rw [leNat_padded, List.drop_zero, Nat.sub_zero]
    rw [if_neg hfour, slice_padded (by omega), ok_bind, hcount]
    generalize hn : leNat (data.take 4) = num at *
    rcases Nat.eq_zero_or_pos c with rfl | hc
    · have hzero : num % 256 ^ 0 = 0 := Nat.mod_one num
      rw [hzero, if_pos (.inl rfl)]
      exact ⟨fun _ => ⟨_, rfl⟩, fun h => absurd ⟨rfl, .inl rfl⟩ h⟩
    have hsame : num % 256 ^ c = num := by
      have hpow : 256 ^ 1 ≤ 256 ^ c := Nat.pow_le_pow_right (by decide) hc
      exact Nat.mod_eq_of_lt (by omega)
    obtain ⟨n, rfl⟩ : ∃ n, num = n + 1 := ⟨num - 1, by omega⟩
    obtain ⟨hlost, hkept⟩ := parseTerms_padded (c := c) hterms
    rw [hsame, if_neg hnum]
    have hcases : LosesTerms (tableSize ld.outFeatures.toNat ld.inFeatures.toNat) data c ↔
        LosesLast (tableSize ld.outFeatures.toNat ld.inFeatures.toNat) data c n 4 := by
      rw [LosesTerms, hn]
      exact ⟨fun h => h.resolve_left (by omega), .inr⟩
    rw [hcases]
    constructor
    · rintro ⟨-, h⟩
      exact ⟨_, by rw [hlost h]; rfl⟩
    · intro h
      obtain ⟨terms', hterms'⟩ := hkept fun hlast => h ⟨rfl, hlast⟩
      have htables := tables_of_parseTerms { ld with
          hasBlocks := true, blockQk := 128, blockTerms := terms' }
        hout (by omega) (by omega) rfl hterms'
      obtain ⟨ld'', hcache, -⟩ := buildBlockContigCache_loaded rfl rfl htables
      exact ⟨ld'', by rw [hterms', ok_bind, hcache]⟩
  · rename_i ht
    refine ⟨fun hlost => absurd hlost.1 ht, fun _ => ?_⟩
    rw [if_neg ht]
    obtain ⟨blocks, hblocks, -⟩ := bind_eq_ok.1 h
    obtain ⟨hraise, hok⟩ := parseBlockTerms_shorter hdata hblocks (padded data c)
      (le_of_eq (padded_length data c))
    have hcover : tableSize ld.outFeatures.toNat ld.inFeatures.toNat ≤ (padded data c).length := by
      rw [padded_length]
      refine not_lt.1 fun hlt => ?_
      have hraise := (parseBlockTerms_shorter hdata hblocks data le_rfl).1 hlt
      rw [hblocks] at hraise
      cases hraise
    obtain ⟨blocks', hblocks'⟩ := hok hcover
    have htables := tables_of_parseBlockTerms { ld with
        hasBlocks := true, blockQk := 128, blockTerms := [blocks'] }
      hout rfl hblocks'
    obtain ⟨ld'', hcache, -⟩ := buildBlockContigCache_loaded rfl rfl htables
    exact ⟨ld'', by rw [hblocks', ok_bind, hcache]⟩

end

/-! ## Terms of the old layout -/

/-- The decoder of a term's codes throws for its dimensions only. -/
theorem quiet_decodeCombined {packed : Bytes} {outF inF : Int} {combined : List UInt32}
    (h : decodeCombined packed outF inF = .ok combined) (packed' : Bytes) :
    Quiet (decodeCombined packed' outF inF) := by
  obtain ⟨s, hs, h⟩ := bind_eq_ok.1 h
  obtain ⟨u, halloc, -⟩ := bind_eq_ok.1 h
  rw [decodeCombined, hs, ok_bind]
  dsimp only
  rw [halloc, ok_bind]
  have horWord : ∀ combined i bits, Quiet (orWord combined i bits) := fun combined i bits =>
    (quiet_load combined i).bind fun w _ => quiet_ok _
  refine quiet_foldlM (fun combined r _ => quiet_foldlM (fun combined j _ => ?_) combined) _
  refine ((quiet_load _ _).bind fun byte _ => quiet_ok _).bind fun tv _ => ?_
  split
  · exact horWord _ _ _
  · split
    · exact horWord _ _ _
    · exact quiet_ok _

theorem readInto_returns (old : Bytes) (s : InStream) : ∃ v s', readInto old s = .ok (v, s') := by
  unfold readInto
  split
  · exact ⟨_, _, rfl⟩
  · exact ⟨_, _, rfl⟩

theorem readI32_returns (s : InStream) : ∃ v s', readI32 s = .ok (v, s') := by
  obtain ⟨v, s', hread⟩ := readInto_returns [0, 0, 0, 0] s
  exact ⟨_, s', by rw [readI32, StreamM.bind_apply, hread]; rfl⟩

/-- Terms that were decoded once do not throw on another file. -/
theorem quiet_readBitplaneTerms {nElements n : Nat} {outF inF : Int} {s s' : InStream}
    {terms : List BitplaneTerm}
    (h : readBitplaneTerms nElements outF inF n s = .ok (terms, s')) (s₁ : InStream) :
    Quiet (readBitplaneTerms nElements outF inF n s₁) := by
  induction n generalizing s s' terms s₁ with
  | zero => exact quiet_ok _
  | succ n ih =>
    obtain ⟨term, s₂, hterm, h⟩ := StreamM.bind_eq_ok.1 h
    obtain ⟨rest, s₃, hrest, -⟩ := StreamM.bind_eq_ok.1 h
    obtain ⟨alphaExp, s₄, -, hterm⟩ := StreamM.bind_eq_ok.1 hterm
    obtain ⟨packed, s₅, -, hterm⟩ := StreamM.bind_eq_ok.1 hterm
    rw [StreamM.bind_apply, StreamM.liftM_apply] at hterm
    obtain ⟨p, hp, -⟩ := bind_eq_ok.1 hterm
    obtain ⟨combined, hcombined, -⟩ := bind_eq_ok.1 hp
    rw [readBitplaneTerms, StreamM.bind_apply]
    refine Quiet.bind ?_ fun p _ => ?_
    · obtain ⟨alphaExp', s₆, halpha⟩ := readI32_returns s₁
      obtain ⟨packed', s₇, hpacked⟩ :=
        readInto_returns (List.replicate (packedSize nElements) 0) s₆
      simp only [readBitplaneTerm, StreamM.bind_apply, halpha, ok_bind, hpacked,
        StreamM.liftM_apply]
      refine ((quiet_decodeCombined hcombined packed').bind fun c _ => quiet_ok _).bind
        fun q _ => quiet_ok _
    · exact (ih hrest p.2).bind fun q _ => quiet_ok _

/-! ## Records -/

theorem reads_readBitplaneTerms (nElements : Nat) (outF inF : Int) (n : Nat) :
    Reads (readBitplaneTerms nElements outF inF n) := by
  induction n with
  | zero => exact reads_pure []
  | succ n ih =>
    refine Reads.bind ?_ fun term => ih.bind fun rest => reads_pure _
    refine reads_readI32.bind fun alphaExp => (reads_readInto _).bind fun packed => ?_
    exact (reads_liftM _).bind fun combined => reads_pure _

theorem reads_readOldBody (ld : LayerData) (nElements : Nat) (x : UInt32) :
    Reads (readOldBody ld nElements x) := by
  unfold readOldBody
  split
  · refine Reads.bind ?_ fun ws => reads_pure _
    refine (reads_readU32 _).bind fun dataLen => ?_
    exact (reads_readInto _).bind fun data => reads_liftM _
  · exact (reads_readBitplaneTerms _ _ _ _).bind fun terms => reads_pure _

theorem reads_readNewBody (ld : LayerData) (x : UInt32) : Reads (readNewBody ld x) := by
  unfold readNewBody
  split
  · exact reads_liftM _
  · refine (reads_readU8 _).bind fun lenHi => ?_
    exact (reads_readInto _).bind fun data => reads_liftM _

/-- The fields of a record, and the bytes of its body. -/
structure RecordParts where
  nameLen : Bytes
  name : Bytes
  outF : Bytes
  inF : Bytes
  x : Bytes
  body : Bytes
  nameLen_length : nameLen.length = 4
  name_length : name.length = leNat nameLen
  outF_length : outF.length = 4
  inF_length : inF.length = 4
  x_length : x.length = 4

namespace RecordParts
variable (p : RecordParts)

/-- The bytes of the record. -/
def bytes : Bytes := p.nameLen ++ (p.name ++ (p.outF ++ (p.inF ++ (p.x ++ p.body))))

/-- The word after the dimensions. -/
def word : UInt32 := UInt32.ofNat (leNat p.x)

/-- The layer before its body is read. -/
def layer : LayerData :=
  { name := p.name, outFeatures := intOf p.outF, inFeatures := intOf p.inF }

/-- The reader of the body. -/
def readBody : StreamM LayerData :=
  if sniffAlsLayout p.word = 1 then
    readOldBody p.layer (sizeT (intOf p.outF * intOf p.inF)) p.word
  else readNewBody p.layer p.word

theorem bytes_length : p.bytes.length = p.name.length + 16 + p.body.length := by
  simp only [bytes, List.length_append, p.nameLen_length, p.outF_length, p.inF_length, p.x_length]
  omega

theorem reads_readBody : Reads p.readBody := by
  unfold readBody
  split
  · exact reads_readOldBody _ _ _
  · exact reads_readNewBody _ _

/-- A record's fields are read whatever its body. -/
theorem readAlsLayer_fields (rest : Bytes) :
    readAlsLayer ⟨p.nameLen ++ (p.name ++ (p.outF ++ (p.inF ++ (p.x ++ rest)))), false⟩ =
      p.readBody ⟨rest, false⟩ := by
  have hlen : (UInt32.ofNat (leNat p.nameLen)).toNat = p.name.length := by
    have hlt := leNat_lt p.nameLen
    rw [p.nameLen_length] at hlt
    rw [UInt32.toNat_ofNat', p.name_length, Nat.mod_eq_of_lt (by omega)]
  have hu32 : ∀ {a : Bytes}, a.length = 4 → ∀ var rest, readU32 var ⟨a ++ rest, false⟩ =
      .ok (UInt32.ofNat (leNat a), ⟨rest, false⟩) := by
    intro a ha var rest
    simp only [readU32, StreamM.bind_apply, readFresh_append ha, ok_bind, StreamM.pure_apply]
  have hi32 : ∀ {a : Bytes}, a.length = 4 → ∀ rest, readI32 ⟨a ++ rest, false⟩ =
      .ok (intOf a, ⟨rest, false⟩) := by
    intro a ha rest
    simp only [readI32, StreamM.bind_apply, readInto_append [0, 0, 0, 0] ha, ok_bind,
      StreamM.pure_apply, intOf]
  simp only [readAlsLayer, StreamM.bind_apply, hu32 p.nameLen_length, ok_bind, hlen,
    readInto_append _ (show p.name.length = (List.replicate p.name.length 0).length by simp),
    hi32 p.outF_length, hi32 p.inF_length, hu32 p.x_length]
  rfl

/-- A record that the reader reads whole consists of its parts. -/
theorem exists_of_readAlsLayer {s s' : InStream} {ld : LayerData}
    (h : readAlsLayer s = .ok (ld, s')) (hfail : s'.fail = false) :
    ∃ p : RecordParts, s = ⟨p.bytes ++ s'.rest, false⟩ ∧
      ∀ rest, p.readBody ⟨p.body ++ rest, false⟩ = .ok (ld, ⟨rest, false⟩) := by
  obtain ⟨nameLen, s₁, hnl, h⟩ := StreamM.bind_eq_ok.1 h
  obtain ⟨name, s₂, hname, h⟩ := StreamM.bind_eq_ok.1 h
  obtain ⟨outF, s₃, ho, h⟩ := StreamM.bind_eq_ok.1 h
  obtain ⟨inF, s₄, hi, h⟩ := StreamM.bind_eq_ok.1 h
  obtain ⟨x, s₅, hx, h⟩ := StreamM.bind_eq_ok.1 h
  obtain ⟨body, rfl, hbody⟩ : ∃ body : Bytes, s₅ = ⟨body ++ s'.rest, false⟩ ∧ ∀ rest,
      (if sniffAlsLayout x = 1 then
        readOldBody { name, outFeatures := outF, inFeatures := inF } (sizeT (outF * inF)) x
      else readNewBody { name, outFeatures := outF, inFeatures := inF } x)
        ⟨body ++ rest, false⟩ = .ok (ld, ⟨rest, false⟩) := by
    split at h
    · rename_i hsniff
      simp only [if_pos hsniff]
      exact reads_readOldBody _ _ _ _ _ _ h hfail
    · rename_i hsniff
      simp only [if_neg hsniff]
      exact reads_readNewBody _ _ _ _ _ h hfail
  obtain ⟨bx, hbx, rfl, rfl⟩ := readU32_eq_ok hx
  obtain ⟨bi, hbi, rfl, rfl⟩ := readI32_eq_ok hi rfl
  obtain ⟨bo, hbo, rfl, rfl⟩ := readI32_eq_ok ho rfl
  have hnamelen := readInto_length hname
  obtain rfl := readInto_eq_ok hname rfl
  obtain ⟨bn, hbn, rfl, rfl⟩ := readU32_eq_ok hnl
  have hlt := leNat_lt bn
  rw [hbn] at hlt
  rw [List.length_replicate, UInt32.toNat_ofNat', Nat.mod_eq_of_lt (by omega)] at hnamelen
  refine ⟨⟨bn, name, bo, bi, bx, body, hbn, hnamelen, hbo, hbi, hbx⟩, ?_, hbody⟩
  simp only [bytes, List.append_assoc]

/-- The payload of a multi-term record is cut where it loses a term. -/
structure Loses (c : Nat) : Prop where
  newLayout : sniffAlsLayout p.word = 0
  container : layerTypeOf p.word = 2
  inside : p.name.length + 17 ≤ c
  loses : LosesTerms (tableSize (intOf p.outF).toNat (intOf p.inF).toNat) (p.body.drop 1)
    (c - (p.name.length + 17))

/-- What the reader makes of a record that was cut before its body: it uses a variable that was not
read. -/
theorem readAlsLayer_cut_fields {c : Nat} (hc : c < p.name.length + 16) :
    ∃ why, readAlsLayer ⟨p.bytes.take c, false⟩ = undefined why := by
  by_cases hfour : c < 4
  · have hshort : InStream.Short ⟨p.bytes.take c, false⟩ 4 :=
      .inr (by rw [List.length_take]; exact (min_le_left _ _).trans_lt hfour)
    obtain ⟨why, hread⟩ := readU32_short hshort "name_len"
    exact ⟨why, by rw [readAlsLayer, StreamM.bind_apply, hread]; rfl⟩
  have hlen : (UInt32.ofNat (leNat p.nameLen)).toNat = p.name.length := by
    have hlt := leNat_lt p.nameLen
    rw [p.nameLen_length] at hlt
    rw [UInt32.toNat_ofNat', p.name_length, Nat.mod_eq_of_lt (by omega)]
  have htake : p.bytes.take c = p.nameLen ++
      (p.name ++ (p.outF ++ (p.inF ++ (p.x ++ p.body)))).take (c - 4) := by
    rw [bytes, List.take_append, p.nameLen_length,
      List.take_of_length_le (by rw [p.nameLen_length]; omega)]
  have hnameLen : ∀ rest, readU32 "name_len" ⟨p.nameLen ++ rest, false⟩ =
      .ok (UInt32.ofNat (leNat p.nameLen), ⟨rest, false⟩) := by
    intro rest
    simp only [readU32, StreamM.bind_apply, readFresh_append p.nameLen_length, ok_bind,
      StreamM.pure_apply]
  -- the bytes that are left do not reach past the word `x`, which has no value then
  have hshort : InStream.Short
      ⟨(p.name ++ (p.outF ++ (p.inF ++ (p.x ++ p.body)))).take (c - 4), false⟩
      ((List.replicate p.name.length (0 : UInt8)).length + (4 + (4 + 4))) := by
    refine .inr ?_
    rw [List.length_take, List.length_replicate]
    exact (min_le_left _ _).trans_lt (by omega)
  obtain ⟨name, s₁, hname, hshort⟩ := readInto_short _ hshort
  obtain ⟨outF, s₂, hout, hshort⟩ := readI32_short hshort
  obtain ⟨inF, s₃, hin, hshort⟩ := readI32_short hshort
  obtain ⟨why, hx⟩ := readU32_short hshort "x"
  refine ⟨why, ?_⟩
  simp only [readAlsLayer, StreamM.bind_apply, htake, hnameLen, ok_bind, hlen, hname, hout, hin,
    hx, undefined_bind]

/-- A body of the old layout that was read does not make the reader throw when it is cut. -/
theorem quiet_readOldBody_cut {ld ld' : LayerData} {nElements : Nat} {x : UInt32} {body : Bytes}
    {b : Nat} (hb : b < body.length)
    (h : readOldBody ld nElements x ⟨body, false⟩ = .ok (ld', ⟨[], false⟩)) :
    Quiet (readOldBody ld nElements x ⟨body.take b, false⟩) := by
  unfold readOldBody at h ⊢
  split at h
  · rename_i hx
    rw [if_pos hx]
    obtain ⟨ws, s₁, hraw, h⟩ := StreamM.bind_eq_ok.1 h
    cases h
    refine Quiet.bind ?_ fun p _ => quiet_ok _
    obtain ⟨dataLen, s₁, hlen, hraw⟩ := StreamM.bind_eq_ok.1 hraw
    obtain ⟨data, s₂, hdata, hraw⟩ := StreamM.bind_eq_ok.1 hraw
    rw [StreamM.liftM_apply] at hraw
    obtain ⟨ws', hcopy, hraw⟩ := bind_eq_ok.1 hraw
    cases hraw
    obtain rfl := readInto_eq_ok hdata rfl
    obtain ⟨bl, hbl, rfl, hbody⟩ := readU32_eq_ok hlen
    obtain rfl : body = bl ++ data := by simpa using congrArg InStream.rest hbody
    rw [readRawWeights, StreamM.bind_apply]
    by_cases hfour : b < 4
    · have hshort : InStream.Short ⟨(bl ++ data).take b, false⟩ 4 :=
        .inr (by rw [List.length_take]; exact (min_le_left _ _).trans_lt hfour)
      obtain ⟨why, hread⟩ := readU32_short hshort "data_len"
      rw [hread]
      exact quiet_undefined why
    · have htake : (bl ++ data).take b = bl ++ data.take (b - 4) := by
        rw [List.take_append, hbl, List.take_of_length_le (by omega)]
      have hread : readU32 "data_len" ⟨(bl ++ data).take b, false⟩ =
          .ok (UInt32.ofNat (leNat bl), ⟨data.take (b - 4), false⟩) := by
        simp only [htake, readU32, StreamM.bind_apply, readFresh_append hbl, ok_bind,
          StreamM.pure_apply]
      have hsize := readInto_length hdata
      rw [List.length_replicate] at hsize
      rw [List.length_append, hbl] at hb
      have hcut := readInto_cut (show b - 4 < data.length by omega) []
      rw [List.append_nil] at hcut
      unfold copyFloats at hcopy
      split at hcopy
      · rename_i hfour'
        rw [hread, ok_bind, ← hsize, StreamM.bind_apply, hcut, ok_bind, StreamM.liftM_apply,
          copyFloats, padded_length, if_pos hfour']
        exact quiet_ok _
      · cases hcopy
  · rename_i hx
    rw [if_neg hx]
    obtain ⟨terms, s₁, hterms, -⟩ := StreamM.bind_eq_ok.1 h
    exact (quiet_readBitplaneTerms hterms _).bind fun p _ => quiet_ok _

/-- What the reader makes of a body of the new layout that was cut. -/
theorem readNewBody_cut {ld ld' : LayerData} {x : UInt32} {body : Bytes} {b : Nat}
    (hout : -2147483648 ≤ ld.outFeatures ∧ ld.outFeatures ≤ 2147483647) (hb : b < body.length)
    (h : readNewBody ld x ⟨body, false⟩ = .ok (ld', ⟨[], false⟩)) :
    let lost := layerTypeOf x = 2 ∧ 1 ≤ b ∧
      LosesTerms (tableSize ld.outFeatures.toNat ld.inFeatures.toNat) (body.drop 1) (b - 1)
    (lost → ∃ what, readNewBody ld x ⟨body.take b, false⟩ = raise what) ∧
      (¬ lost → Quiet (readNewBody ld x ⟨body.take b, false⟩)) := by
  unfold readNewBody at h ⊢
  split at h
  · cases h
  rename_i htype
  rw [if_neg htype]
  obtain ⟨lenHi, s₁, hhi, h⟩ := StreamM.bind_eq_ok.1 h
  obtain ⟨data, s₂, hdata, h⟩ := StreamM.bind_eq_ok.1 h
  rw [StreamM.liftM_apply] at h
  obtain ⟨ld₁, hparse, h⟩ := bind_eq_ok.1 h
  cases h
  obtain rfl := readInto_eq_ok hdata rfl
  obtain ⟨bs, s₃, hfresh, hhi⟩ := StreamM.bind_eq_ok.1 hhi
  cases hhi
  obtain ⟨-, hone, hbody, -⟩ := readFresh_eq_ok hfresh
  obtain ⟨hi, rfl⟩ := List.length_eq_one_iff.1 hone
  obtain rfl : body = hi :: data := by simpa using hbody
  have hsize := readInto_length hdata
  rw [List.length_replicate] at hsize
  cases b with
  | zero =>
    obtain ⟨why, hread⟩ := readU8_short (s := ⟨[], false⟩) (.inr Nat.one_pos) "len_hi"
    rw [List.take_zero, StreamM.bind_apply, hread]
    exact ⟨fun hlost => absurd hlost.2.1 (by omega), fun _ => quiet_undefined why⟩
  | succ b =>
    rw [List.length_cons] at hb
    have hcut := readInto_cut (show b < data.length by omega) []
    rw [List.append_nil] at hcut
    have hlt : data.length < 4294967296 := hsize ▸ UInt32.toNat_lt _
    obtain ⟨hlost, hkept⟩ := parseLayerTypeData_padded (c := b) hout hlt hparse
    have hval : UInt8.ofNat (leNat [hi]) = hi := by simp [leNat]
    rw [hval] at hsize
    rw [List.take_succ_cons, StreamM.bind_apply, readU8_cons, ok_bind, ← hsize,
      StreamM.bind_apply, hcut, ok_bind, StreamM.liftM_apply]
    refine ⟨fun h => ?_, fun h => ?_⟩
    · obtain ⟨what, hraise⟩ := hlost ⟨h.1, h.2.2⟩
      exact ⟨what, by rw [hraise]; rfl⟩
    · obtain ⟨ld'', hok⟩ := hkept fun hl => h ⟨hl.1, by omega, hl.2⟩
      rw [hok]
      exact quiet_ok _

/-- What the reader makes of a record that was cut in its body. -/
theorem readBody_cut {ld : LayerData} {b : Nat} (hb : b < p.body.length)
    (h : p.readBody ⟨p.body, false⟩ = .ok (ld, ⟨[], false⟩)) :
    (p.Loses (p.name.length + 16 + b) →
      ∃ what, p.readBody ⟨p.body.take b, false⟩ = raise what) ∧
    (¬ p.Loses (p.name.length + 16 + b) → Quiet (p.readBody ⟨p.body.take b, false⟩)) := by
  unfold readBody at h ⊢
  split at h
  · rename_i hsniff
    rw [if_pos hsniff]
    refine ⟨fun hlost => ?_, fun _ => quiet_readOldBody_cut hb h⟩
    rw [hlost.newLayout] at hsniff
    exact absurd hsniff (by decide)
  · rename_i hsniff
    rw [if_neg hsniff]
    obtain ⟨hlost, hkept⟩ := readNewBody_cut (toInt32_range _) hb h
    refine ⟨fun hl => hlost ⟨hl.container, ?_, ?_⟩, fun hl => hkept ?_⟩
    · have hin := hl.inside
      omega
    · have hloses := hl.loses
      rwa [show p.name.length + 16 + b - (p.name.length + 17) = b - 1 by omega] at hloses
    · rintro ⟨htype, hone, hloses⟩
      refine hl ⟨?_, htype, by omega, ?_⟩
      · unfold sniffAlsLayout at hsniff ⊢
        split at hsniff
        · exact absurd rfl hsniff
        · rename_i hx
          rw [if_neg hx]
      · rwa [show p.name.length + 16 + b - (p.name.length + 17) = b - 1 by omega]

/-- The reader reads the whole record as this layer. -/
def Whole (ld : LayerData) : Prop :=
  ∀ rest, p.readBody ⟨p.body ++ rest, false⟩ = .ok (ld, ⟨rest, false⟩)

theorem readBody_name {ld : LayerData} {s s' : InStream} (h : p.readBody s = .ok (ld, s')) :
    ld.name = p.name := by
  have hheader : ld.header = p.layer.header := by
    unfold readBody at h
    split at h
    · exact readOldBody_header h
    · exact readNewBody_header h
  exact congrArg Prod.fst hheader

/-- A whole record is read from any file it starts. -/
theorem Whole.readAlsLayer {ld : LayerData} (h : p.Whole ld) (rest : Bytes) :
    readAlsLayer ⟨p.bytes ++ rest, false⟩ = .ok (ld, ⟨rest, false⟩) := by
  rw [bytes]
  simp only [List.append_assoc]
  rw [p.readAlsLayer_fields, h rest]

/-- What the reader makes of a record that was cut. -/
theorem readAlsLayer_cut {ld : LayerData} (h : p.Whole ld) {c : Nat} (hc : c < p.bytes.length) :
    (p.Loses c → ∃ what, readAlsLayer ⟨p.bytes.take c, false⟩ = raise what) ∧
    (¬ p.Loses c → Quiet (readAlsLayer ⟨p.bytes.take c, false⟩)) ∧
    ∀ ld' s', readAlsLayer ⟨p.bytes.take c, false⟩ = .ok (ld', s') →
      s'.fail = true ∧ ld'.name = ld.name := by
  rcases Nat.lt_or_ge c (p.name.length + 16) with hfields | hbody
  · obtain ⟨why, hread⟩ := p.readAlsLayer_cut_fields hfields
    rw [hread]
    refine ⟨fun hl => ?_, fun _ => quiet_undefined why, fun ld' s' h => nomatch h⟩
    have hin := hl.inside
    omega
  · obtain ⟨b, rfl⟩ := Nat.exists_eq_add_of_le hbody
    rw [bytes_length] at hc
    have htake : p.bytes.take (p.name.length + 16 + b) =
        p.nameLen ++ (p.name ++ (p.outF ++ (p.inF ++ (p.x ++ p.body.take b)))) := by
      simp only [bytes, List.take_append, p.nameLen_length, p.outF_length, p.inF_length,
        p.x_length]
      rw [List.take_of_length_le (by rw [p.nameLen_length]; omega),
        List.take_of_length_le (by omega), List.take_of_length_le (by rw [p.outF_length]; omega),
        List.take_of_length_le (by rw [p.inF_length]; omega),
        List.take_of_length_le (by rw [p.x_length]; omega)]
      congr 6
      omega
    have hwhole := h []
    rw [List.append_nil] at hwhole
    rw [htake, p.readAlsLayer_fields]
    obtain ⟨hlost, hkept⟩ := p.readBody_cut (b := b) (by omega) hwhole
    refine ⟨hlost, hkept, fun ld' s' hrun => ⟨?_, ?_⟩⟩
    · exact p.reads_readBody.fail_of_cut hwhole (show b < p.body.length by omega) hrun
    · rw [p.readBody_name hrun, p.readBody_name hwhole]

end RecordParts

/-! ## The records of a file -/

/-- The bytes of a list of records. -/
def recordBytes (records : List RecordParts) : Bytes := records.flatMap RecordParts.bytes

/-- A `model_decomposed.bin` of these records. -/
def recordFile (records : List RecordParts) : Bytes :=
  u32Bytes 0xDEADBEEF ++ (u32Bytes records.length ++ recordBytes records)

/-- The record that is cut, `c` bytes after the start of the first one, loses a term. -/
def CutLoses : List RecordParts → Nat → Prop
  | [], _ => False
  | p :: records, c =>
    if c < p.bytes.length then p.Loses c else CutLoses records (c - p.bytes.length)

/-- Records that were read whole are the file's. -/
theorem exists_of_readAlsLayers {n : Nat} {s s' : InStream} {lds : List LayerData}
    (h : readAlsLayers n s = .ok (lds, s')) (hfail : s'.fail = false) :
    ∃ records : List RecordParts, s = ⟨recordBytes records ++ s'.rest, false⟩ ∧
      List.Forall₂ RecordParts.Whole records lds := by
  induction n generalizing s lds with
  | zero =>
    cases h
    exact ⟨[], by rw [← hfail]; rfl, .nil⟩
  | succ n ih =>
    obtain ⟨ld, s₁, hld, h⟩ := StreamM.bind_eq_ok.1 h
    obtain ⟨rest, s₂, hrest, h⟩ := StreamM.bind_eq_ok.1 h
    cases h
    obtain ⟨records, rfl, hrecords⟩ := ih hrest
    obtain ⟨p, rfl, hp⟩ := RecordParts.exists_of_readAlsLayer hld rfl
    refine ⟨p :: records, ?_, .cons hp hrecords⟩
    simp only [recordBytes, List.flatMap_cons, List.append_assoc]

/-- Whole records are read one after the other. -/
theorem readAlsLayers_whole {records : List RecordParts} {lds : List LayerData}
    (h : List.Forall₂ RecordParts.Whole records lds) (rest : Bytes) :
    readAlsLayers records.length ⟨recordBytes records ++ rest, false⟩ =
      .ok (lds, ⟨rest, false⟩) := by
  induction h with
  | nil => rfl
  | @cons p ld records lds hp _ ih =>
    simp only [List.length_cons, readAlsLayers, StreamM.bind_apply, recordBytes,
      List.flatMap_cons, List.append_assoc]
    rw [hp.readAlsLayer, ok_bind]
    dsimp only
    rw [show records.flatMap RecordParts.bytes ++ rest = recordBytes records ++ rest from rfl, ih]
    rfl

/-- What the record loop makes of records that were cut. -/
theorem readAlsLayers_cut {records : List RecordParts} {lds : List LayerData}
    (h : List.Forall₂ RecordParts.Whole records lds) {c : Nat}
    (hc : c < (recordBytes records).length) :
    (CutLoses records c →
      ∃ what, readAlsLayers records.length ⟨(recordBytes records).take c, false⟩ = raise what) ∧
    (¬ CutLoses records c →
      Quiet (readAlsLayers records.length ⟨(recordBytes records).take c, false⟩)) ∧
    ∀ lds' s', readAlsLayers records.length ⟨(recordBytes records).take c, false⟩ =
      .ok (lds', s') → lds'.map LayerData.name = lds.map LayerData.name := by
  induction h generalizing c with
  | nil => exact absurd hc (Nat.not_lt_zero c)
  | @cons p ld records lds hp hrecords ih =>
    have hbytes : recordBytes (p :: records) = p.bytes ++ recordBytes records := rfl
    rw [hbytes] at hc ⊢
    simp only [List.length_cons, readAlsLayers, StreamM.bind_apply, CutLoses]
    rcases Nat.lt_or_ge c p.bytes.length with hcut | hwhole
    · rw [if_pos hcut, List.take_append_of_le_length hcut.le]
      obtain ⟨hlost, hkept, hret⟩ := p.readAlsLayer_cut hp hcut
      refine ⟨fun hl => ?_, fun hl => ?_, fun lds' s' hrun => ?_⟩
      · obtain ⟨what, hraise⟩ := hlost hl
        exact ⟨what, by rw [hraise]; rfl⟩
      · refine (hkept hl).bind fun q hq => ?_
        obtain ⟨hfail, -⟩ := hret q.1 q.2 hq
        cases records with
        | nil => exact quiet_ok _
        | cons p' records =>
          obtain ⟨why, hnext⟩ := readU32_short (.inl hfail) "name_len"
          simp only [List.length_cons, readAlsLayers, readAlsLayer, StreamM.bind_apply, hnext,
            undefined_bind]
          exact quiet_undefined why
      · obtain ⟨q, hq, hrun⟩ := bind_eq_ok.1 hrun
        obtain ⟨hfail, hname⟩ := hret q.1 q.2 hq
        cases hrecords with
        | nil =>
          cases hrun
          rw [List.map_singleton, List.map_singleton, hname]
        | cons =>
          obtain ⟨why, hnext⟩ := readU32_short (.inl hfail) "name_len"
          simp only [List.length_cons, readAlsLayers, readAlsLayer, StreamM.bind_apply, hnext,
            undefined_bind] at hrun
          cases hrun
    · rw [List.length_append] at hc
      rw [if_neg (not_lt.2 hwhole), List.take_append, List.take_of_length_le hwhole,
        hp.readAlsLayer, ok_bind]
      dsimp only
      obtain ⟨hlost, hkept, hret⟩ := ih (c := c - p.bytes.length) (by omega)
      refine ⟨fun hl => ?_, fun hl => ?_, fun lds' s' hrun => ?_⟩
      · obtain ⟨what, hraise⟩ := hlost hl
        exact ⟨what, by rw [hraise]; rfl⟩
      · exact (hkept hl).bind fun q _ => quiet_ok _
      · obtain ⟨q, hq, hrun⟩ := bind_eq_ok.1 hrun
        cases hrun
        rw [List.map_cons, List.map_cons, hret q.1 q.2 hq]

/-! ## The file -/

/-- The reader reads the whole file, as these layers, and the file consists of these records. -/
structure RecordsOf (file : Bytes) (records : List RecordParts) (lds : List LayerData) :
    Prop where
  file_eq : file = recordFile records
  count_lt : records.length < 4294967296
  whole : List.Forall₂ RecordParts.Whole records lds

/-- A file that is read whole consists of records. -/
theorem exists_recordsOf {file : Bytes} {n : UInt32} {s : InStream} {lds : List LayerData}
    (hheader : readAlsHeader (.open file) = .ok (n, s))
    (h : readAlsLayers n.toNat s = .ok (lds, ⟨[], false⟩)) :
    ∃ records, RecordsOf file records lds := by
  obtain ⟨records, rfl, hwhole⟩ := exists_of_readAlsLayers h rfl
  obtain ⟨magic, s₁, hmagic, hheader⟩ := StreamM.bind_eq_ok.1 hheader
  split at hheader
  · cases hheader
  rename_i hmagicEq
  obtain ⟨bc, hbc, hcount, rfl⟩ := readU32_eq_ok hheader
  obtain ⟨bm, hbm, hmagicVal, hopen⟩ := readU32_eq_ok hmagic
  have hword : ∀ {bs : Bytes} {v : Nat}, bs.length = 4 → v < 4294967296 →
      UInt32.ofNat (leNat bs) = UInt32.ofNat v → bs = u32Bytes v := by
    intro bs v hbs hv heq
    have hlt := leNat_lt bs
    rw [hbs] at hlt
    have hval := congrArg UInt32.toNat heq
    rw [UInt32.toNat_ofNat', UInt32.toNat_ofNat', Nat.mod_eq_of_lt (by omega),
      Nat.mod_eq_of_lt (by omega)] at hval
    rw [u32Bytes, ← hval, ← hbs, leBytes_leNat]
  have hlen : records.length = n.toNat :=
    hwhole.length_eq.trans (readAlsLayers_length h)
  have hm : bm = u32Bytes 0xDEADBEEF :=
    hword hbm (by decide) (hmagicVal.symm.trans (not_ne_iff.1 hmagicEq))
  have hc : bc = u32Bytes records.length := by
    refine hword hbc (hlen ▸ n.toNat_lt) ?_
    rw [← hcount, hlen, UInt32.ofNat_toNat]
  refine ⟨records, ?_, hlen ▸ n.toNat_lt, hwhole⟩
  have hfile : file = bm ++ (bc ++ (recordBytes records ++ [])) := congrArg InStream.rest hopen
  rw [hfile, hm, hc, List.append_nil]
  rfl

/-- What `load_decomposed_layers_als` makes of a file that was cut. -/
theorem loadDecomposedLayersAls_cut {file : Bytes} {records : List RecordParts}
    {lds : List LayerData} (h : RecordsOf file records lds) {k : Nat} (hk : k < file.length) :
    (8 ≤ k ∧ CutLoses records (k - 8) →
      ∃ what, loadDecomposedLayersAls (file.take k) = raise what) ∧
    (¬ (8 ≤ k ∧ CutLoses records (k - 8)) → Quiet (loadDecomposedLayersAls (file.take k))) ∧
    ∀ lds', loadDecomposedLayersAls (file.take k) = .ok lds' →
      lds'.map LayerData.name = lds.map LayerData.name := by
  rw [h.file_eq] at hk ⊢
  have hmagic : (u32Bytes 0xDEADBEEF).length = 4 := leBytes_length _ _
  have hcount : (u32Bytes records.length).length = 4 := leBytes_length _ _
  by_cases hfour : k < 4
  · have hshort : InStream.Short (.open ((recordFile records).take k)) 4 :=
      .inr (by rw [InStream.open, List.length_take]; exact (min_le_left _ _).trans_lt hfour)
    obtain ⟨why, hread⟩ := readU32_short hshort "magic"
    have hrun : loadDecomposedLayersAls ((recordFile records).take k) = undefined why := by
      rw [loadDecomposedLayersAls, readAlsHeader, StreamM.bind_apply, hread]
      rfl
    rw [hrun]
    exact ⟨fun hl => absurd hl.1 (by omega), fun _ => quiet_undefined why, fun _ h => nomatch h⟩
  have htake : (recordFile records).take k = u32Bytes 0xDEADBEEF ++
      (u32Bytes records.length ++ recordBytes records).take (k - 4) := by
    rw [recordFile, List.take_append, hmagic, List.take_of_length_le (by omega)]
  have hhead : readAlsHeader (.open ((recordFile records).take k)) =
      readU32 "num_layers" ⟨(u32Bytes records.length ++ recordBytes records).take (k - 4), false⟩ := by
    simp only [readAlsHeader, InStream.open, htake, StreamM.bind_apply, readU32_append, ok_bind]
    rw [if_neg (by decide)]
  by_cases height : k < 8
  · have hshort : InStream.Short
        ⟨(u32Bytes records.length ++ recordBytes records).take (k - 4), false⟩ 4 :=
      .inr (by rw [List.length_take]; exact (min_le_left _ _).trans_lt (by omega))
    obtain ⟨why, hread⟩ := readU32_short hshort "num_layers"
    have hrun : loadDecomposedLayersAls ((recordFile records).take k) = undefined why := by
      rw [loadDecomposedLayersAls, hhead, hread]
      rfl
    rw [hrun]
    exact ⟨fun hl => absurd hl.1 (by omega), fun _ => quiet_undefined why, fun _ h => nomatch h⟩
  have htake' : (u32Bytes records.length ++ recordBytes records).take (k - 4) =
      u32Bytes records.length ++ (recordBytes records).take (k - 8) := by
    rw [List.take_append, hcount, List.take_of_length_le (by omega), Nat.sub_sub]
  have hrun : loadDecomposedLayersAls ((recordFile records).take k) =
      readAlsLayers records.length ⟨(recordBytes records).take (k - 8), false⟩ >>=
        fun q => .ok q.1 := by
    rw [loadDecomposedLayersAls, hhead, htake', readU32_append, ok_bind]
    dsimp only
    rw [UInt32.toNat_ofNat', Nat.mod_eq_of_lt h.count_lt]
    rfl
  have hlen : k - 8 < (recordBytes records).length := by
    rw [recordFile, List.length_append, List.length_append, hmagic, hcount] at hk
    omega
  obtain ⟨hlost, hkept, hret⟩ := readAlsLayers_cut h.whole hlen
  rw [hrun]
  refine ⟨fun hl => ?_, fun hl => ?_, fun lds' hok => ?_⟩
  · obtain ⟨what, hraise⟩ := hlost hl.2
    exact ⟨what, by rw [hraise]; rfl⟩
  · exact (hkept fun hc => hl ⟨by omega, hc⟩).bind fun q _ => quiet_ok _
  · obtain ⟨q, hq, hok⟩ := bind_eq_ok.1 hok
    cases hok
    exact hret q.1 q.2 hq

end Terllama
