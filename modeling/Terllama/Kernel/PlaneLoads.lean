import Terllama.Base.FailsIff
import Terllama.Kernel.Bitplane

/-!
# The vector loads of the bitplane kernels

`ternary_mul_avx2` and `ternary_mul_neon` load a chunk of activations whole before the masks select
the lanes that count. A row loads at the multiples of the number of lanes below `in_f`
(`lanedKernel_failsIff`), so its last load ends at `in_f` exactly when the number of lanes divides
`in_f`, and past it otherwise. What a lane past `in_f` holds does not reach the result
(`bitplane_kernels_agree`); the load itself is outside the input.
-/

namespace Terllama

section
variable {K : Type} [Field K]

/-- The arguments of a kernel whose input is a buffer, read nowhere else. -/
def BitplaneArgs.ofBuffer (words : Nat → Nat → UInt32) (alphaExp : Nat → Int)
    (nActive outF inF : Nat) (input : List K) : BitplaneArgs K where
  word t i := .ok (words t i)
  alphaExp := alphaExp
  nActive := nActive
  outF := outF
  inF := inF
  lanes n off := loadu n input off 0
  elem j := load input j

/-! ## Where a row loads -/

/-- The chunks of the words of a row are the multiples of `n` below `in_f`. -/
theorem exists_chunk_iff {n inF : Nat} (hn : 16 / n * n = 16) (R : Nat → Prop) :
    (∃ w < wordsPerRow inF, ∃ ch < 16 / n, ch * n < min 16 (inF - w * 16) ∧ R (w * 16 + ch * n)) ↔
      ∃ k, k * n < inF ∧ R (k * n) := by
  have hpos : 0 < n := Nat.pos_of_ne_zero fun h => by simp [h] at hn
  have hchunk : ∀ w ch, (w * (16 / n) + ch) * n = w * 16 + ch * n := by
    intro w ch
    rw [Nat.add_mul, Nat.mul_assoc, hn]
  constructor
  · rintro ⟨w, -, ch, -, hlt, hR⟩
    exact ⟨w * (16 / n) + ch, by rw [hchunk]; omega, by rwa [hchunk]⟩
  · rintro ⟨k, hk, hR⟩
    have hchunks : 0 < 16 / n := Nat.pos_of_ne_zero fun h => by simp [h] at hn
    have hdiv : k = k / (16 / n) * (16 / n) + k % (16 / n) := (Nat.div_add_mod' k (16 / n)).symm
    have hmod := Nat.mod_lt k hchunks
    generalize k / (16 / n) = w at hdiv
    generalize k % (16 / n) = ch at hdiv hmod
    have hend : (ch + 1) * n ≤ 16 := hn ▸ Nat.mul_le_mul_right n hmod
    rw [Nat.succ_mul] at hend
    rw [hdiv, hchunk] at hk hR
    exact ⟨w, by unfold wordsPerRow; omega, ch, hmod, by omega, hR⟩

/-- The words are all there, and the loads of `n` activations fail at the offsets `bad` only. -/
structure BitplaneArgs.LoadFails (a : BitplaneArgs K) (n : Nat) (bad : Nat → Prop) : Prop where
  word : ∀ t i, ∃ c, a.word t i = .ok c
  lanes : ∀ off, FailsIff (a.lanes n off) readFault (bad off)

variable {a : BitplaneArgs K} {n : Nat} {bad : Nat → Prop}

theorem loadWord_failsIff (h : a.LoadFails n bad) (off rem : Nat) :
    FailsIff (loadWord a n off rem) readFault
      (∃ ch < 16 / n, ch * n < rem ∧ bad (off + ch * n)) := by
  have hload : ∀ ch ∈ List.range (16 / n),
      FailsIff (if rem > ch * n then a.lanes n (off + ch * n) else .ok fun _ => 0) readFault
        (ch * n < rem ∧ bad (off + ch * n)) := by
    intro ch _
    refine (FailsIff.ite (fun _ => h.lanes _) fun _ => failsIff_ok _).congr ?_
    rw [and_false, or_false]
  refine ((failsIff_mapM hload).bind fun vs _ => failsIff_ok _).congr ?_
  simp only [List.mem_range, or_false]

/-- A word issues its loads whatever the terms do with them. -/
theorem lanedTerms_failsIff (h : a.LoadFails n bad) (i w rem : Nat) (mask : UInt32)
    (vacc : Nat → Fin n → K) :
    FailsIff (lanedTerms a n i w rem mask vacc) readFault
      (∃ ch < 16 / n, ch * n < rem ∧ bad (w * 16 + ch * n)) := by
  have hterms : ∀ vs : Nat → Fin n → K, FailsIff ((List.range a.nActive).foldlM (fun vacc t => do
      let c ← a.word t (i * wordsPerRow a.inF + w)
      return Function.update vacc t (lanedWord vs (c &&& mask) rem (vacc t))) vacc) readFault
      False := by
    intro vs
    refine (failsIff_foldlM_range (R := fun _ => False) (fun vacc t _ => ?_) vacc).congr (by simp)
    obtain ⟨c, hc⟩ := h.word t (i * wordsPerRow a.inF + w)
    rw [hc, ok_bind]
    exact failsIff_ok _
  refine ((loadWord_failsIff h (w * 16) rem).bind fun vs _ => hterms vs).congr ?_
  rw [or_false]

/-- A row fails where one of its loads does. -/
theorem lanedRow_failsIff (h : a.LoadFails n bad) (hn : 16 / n * n = 16) (i : Nat) :
    FailsIff (lanedRow a n i) readFault (∃ k, k * n < a.inF ∧ bad (k * n)) := by
  have hfull := failsIff_foldlM_range
    (fun vacc w (_ : w < fullWords a.inF) => lanedTerms_failsIff h i w 16 0xFFFFFFFF vacc)
    (0 : Nat → Fin n → K)
  have htail : ∀ vacc : Nat → Fin n → K, FailsIff (lanedTail a n i vacc) readFault
      (a.inF % 16 > 0 ∧ ∃ ch < 16 / n, ch * n < a.inF % 16 ∧
        bad (fullWords a.inF * 16 + ch * n)) := by
    intro vacc
    refine (FailsIff.ite (fun _ => lanedTerms_failsIff h i (fullWords a.inF) (a.inF % 16) _ vacc)
      fun _ => failsIff_ok vacc).congr ?_
    rw [and_false, or_false]
  have hsum : ∀ vacc : Nat → Fin n → K, FailsIff ((List.range a.nActive).foldlM (fun result t =>
      (.ok (result + (∑ k, vacc t k) * ldexp 1 (a.alphaExp t)) : Exec K)) 0) readFault False :=
    fun vacc => (failsIff_foldlM_range (R := fun _ => False) (fun _ _ _ => failsIff_ok _) 0).congr
      (by simp)
  refine (hfull.bind fun vacc _ => (htail vacc).bind fun vacc _ => hsum vacc).congr ?_
  rw [← exists_chunk_iff hn, or_false]
  have hmin := min_word a.inF
  constructor
  · rintro (⟨w, hw, ch, hch, hlt, hbad⟩ | ⟨hrem, ch, hch, hlt, hbad⟩)
    · refine ⟨w, ?_, ch, hch, by rwa [hmin w hw], hbad⟩
      unfold fullWords at hw
      split at hw <;> omega
    · refine ⟨fullWords a.inF, ?_, ch, hch, ?_, hbad⟩
      · unfold fullWords wordsPerRow
        split <;> omega
      · unfold fullWords wordsPerRow
        split <;> omega
  · rintro ⟨w, hw, ch, hch, hlt, hbad⟩
    by_cases hword : w < fullWords a.inF
    · exact .inl ⟨w, hword, ch, hch, by rwa [hmin w hword] at hlt, hbad⟩
    · -- the only word that is not full is the last
      have hlast : w = fullWords a.inF ∧ a.inF % 16 > 0 ∧
          min 16 (a.inF - w * 16) = a.inF % 16 := by
        unfold fullWords wordsPerRow at *
        split at hword <;> split <;> omega
      obtain ⟨rfl, hrem, hlen⟩ := hlast
      exact .inr ⟨hrem, ch, hch, hlen ▸ hlt, hbad⟩

/-- A vector kernel fails where one of the loads of its rows does: those at the multiples of the
number of lanes below `in_f`. -/
theorem lanedKernel_failsIff (h : a.LoadFails n bad) (hn : 16 / n * n = 16)
    (hactive : a.nActive ≤ 32) :
    FailsIff (lanedKernel a n) readFault (0 < a.outF ∧ ∃ k, k * n < a.inF ∧ bad (k * n)) := by
  rw [lanedKernel, if_neg (by omega)]
  refine (failsIff_mapM fun i _ => lanedRow_failsIff h hn i).congr ?_
  simp only [List.mem_range]
  constructor
  · rintro ⟨i, hi, hbad⟩
    exact ⟨by omega, hbad⟩
  · rintro ⟨hout, hbad⟩
    exact ⟨0, hout, hbad⟩

/-! ## Loads and the input -/

/-- The loads at the multiples of `n` below `in_f` end inside it exactly when `n` divides it. -/
theorem chunks_inside_iff {n : Nat} (hn : 0 < n) (inF : Nat) :
    (∀ k, k * n < inF → k * n + n ≤ inF) ↔ n ∣ inF := by
  constructor
  · intro h
    have hdiv := Nat.div_add_mod' inF n
    have hmod := Nat.mod_lt inF hn
    have hlast := h (inF / n)
    exact Nat.dvd_of_mod_eq_zero (by omega)
  · rintro ⟨m, rfl⟩ k hk
    have hkm : k < m := Nat.lt_of_mul_lt_mul_left (a := n) (by rwa [Nat.mul_comm n k])
    calc k * n + n = (k + 1) * n := (Nat.succ_mul k n).symm
      _ ≤ m * n := Nat.mul_le_mul_right n hkm
      _ = n * m := Nat.mul_comm m n

/-- On a buffer of exactly `in_f` activations a kernel with `m` lanes returns when `m` divides
`in_f`, and otherwise reads past the end of the buffer. -/
theorem lanedKernel_ofBuffer {m : Nat} (hm : 16 / m * m = 16) (words : Nat → Nat → UInt32)
    (alphaExp : Nat → Int) {nActive outF : Nat} (hactive : nActive ≤ 32) (hout : 0 < outF)
    (input : List K) :
    FailsIff (lanedKernel (.ofBuffer words alphaExp nActive outF input.length input) m) readFault
      (¬ m ∣ input.length) := by
  have hpos : 0 < m := Nat.pos_of_ne_zero fun h => by simp [h] at hm
  have hfails : (BitplaneArgs.ofBuffer words alphaExp nActive outF input.length input).LoadFails m
      fun off => ¬ off + m ≤ input.length := by
    refine ⟨fun t i => ⟨words t i, rfl⟩, fun off => ?_⟩
    exact (loadu_failsIff m input off 0).congr Nat.not_le.symm
  refine (lanedKernel_failsIff hfails hm hactive).congr ?_
  rw [← chunks_inside_iff hpos]
  push Not
  exact and_iff_right hout

end

end Terllama
