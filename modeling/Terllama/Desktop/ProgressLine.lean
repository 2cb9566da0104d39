import Mathlib.Data.Int.Log
import Terllama.Base.Decimal
import Terllama.Base.FloatFormat

/-!
# Progress lines

`parse_progress_pct`, which `commands.rs` and `convert.rs` of `src-tauri/src` both have, reads a
percentage out of a line that a subprocess prints. Its loop leaves out the last byte of the line,
where the lines of the exporter have their percent sign (`parseProgressPct_iff`).
-/

namespace Terllama

/-! ## Reading a number -/

/-- The double next to a number that is not negative, an even one from the middle. -/
def roundDouble (q : ℚ) : ℚ :=
  let unit : ℚ := 2 ^ (max (Int.log 2 q) (-1022) - 52)
  let whole := ⌊q / unit⌋
  let up := q / unit - whole > 1 / 2 ∨ (q / unit - whole = 1 / 2 ∧ whole % 2 = 1)
  if q = 0 then 0 else (whole + if up then 1 else 0) * unit

/-- `str::parse::<f64>`, for a text of digits and dots: digits with a dot before, behind or among
them. A number beyond the largest double is infinite. -/
def parseF64 (s : Bytes) : Option FloatValue :=
  let whole := s.takeWhile (· != 46)
  let frac := (s.dropWhile (· != 46)).drop 1
  if (whole ++ frac).isEmpty || !(whole ++ frac).all isDigit then none
  else
    let v := roundDouble (decimalValue (whole ++ frac) / 10 ^ frac.length)
    some (if v < 2 ^ 1024 then .real v else .infinite false)

/-! ## The scanner -/

/-- The bytes of a number. -/
def isNumberByte (c : UInt8) : Bool := isDigit c || c == 46

/-- The backward loop: where the run of digits and dots before `j` begins. -/
def runStart (bytes : Bytes) : Nat → Nat
  | 0 => 0
  | j + 1 => if isNumberByte (bytes.getD j 0) then runStart bytes j else j + 1

/-- What the forward loop returns at `i`, if anything. -/
def percentAt (bytes : Bytes) (i : Nat) : Option Nat :=
  if bytes.getD i 0 = 37 then
    let j := runStart bytes i
    if j < i then
      match parseF64 ((bytes.drop j).take (i - j)) with
      | some (.real val) => if 0 ≤ val ∧ val ≤ 100 then some ⌊val⌋.toNat else none
      | _ => none
    else none
  else none

/-- `parse_progress_pct`. -/
def parseProgressPct (bytes : Bytes) : Option Nat :=
  (List.range (bytes.length - 1)).findSome? (percentAt bytes)

/-- `progress`: a line of the exporter, as a reader of lines gives it. -/
def progressLine (pct : Int) : Bytes := str "[PROGRESS] " ++ signedDecimal pct ++ str "%"

/-! ## Percentages -/

/-- The byte `k` of a line is a digit or a dot. -/
def NumberByteAt (text : Bytes) (k : Nat) : Prop := ∃ c, text[k]? = some c ∧ isNumberByte c = true

/-- From `j` to `i` stands a run of digits and dots that does not begin earlier. -/
structure MaximalRun (text : Bytes) (j i : Nat) : Prop where
  le : j ≤ i
  run : ∀ k, j ≤ k → k < i → NumberByteAt text k
  maximal : ∀ k, j = k + 1 → ¬ NumberByteAt text k

/-- At `i` stands a percent sign, and before it the number `v`, between 0 and 100. -/
structure PercentAt (text : Bytes) (i : Nat) (v : ℚ) : Prop where
  percent : text[i]? = some 37
  number : ∃ j < i, MaximalRun text j i ∧
    parseF64 ((text.drop j).take (i - j)) = some (.real v)
  range : 0 ≤ v ∧ v ≤ 100

/-- The result of a line: of its first percentage, or none. -/
def Recognised (text : Bytes) : Option Nat → Prop
  | none => ∀ i v, ¬ PercentAt text i v
  | some n => ∃ i v, PercentAt text i v ∧ n = ⌊v⌋.toNat ∧ ∀ j < i, ∀ w, ¬ PercentAt text j w

theorem getD_isNumberByte (text : Bytes) (k : Nat) :
    isNumberByte (text.getD k 0) = true ↔ NumberByteAt text k := by
  rw [List.getD_eq_getElem?_getD, NumberByteAt]
  cases text[k]? with
  | none =>
    refine iff_of_false (by decide) ?_
    rintro ⟨c, hc, -⟩
    cases hc
  | some c => simp

theorem runStart_maximal (text : Bytes) (i : Nat) : MaximalRun text (runStart text i) i := by
  induction i with
  | zero => exact ⟨le_rfl, fun k hk hlt => absurd hlt (Nat.not_lt_zero k), fun k hk => by cases hk⟩
  | succ i ih =>
    rw [runStart]
    split
    · next hbyte =>
      refine ⟨ih.le.trans (Nat.le_succ i), fun k hk hlt => ?_, ih.maximal⟩
      rcases Nat.lt_succ_iff_lt_or_eq.1 hlt with hlt | rfl
      · exact ih.run k hk hlt
      · exact (getD_isNumberByte text k).1 hbyte
    · next hbyte =>
      refine ⟨le_rfl, fun k hk hlt => absurd hlt (Nat.not_lt.2 hk), fun k hk => ?_⟩
      obtain rfl := Nat.succ_inj.1 hk
      rwa [← getD_isNumberByte]

theorem MaximalRun.unique {text : Bytes} {i j k : Nat} (hj : MaximalRun text j i)
    (hk : MaximalRun text k i) : j = k := by
  have hle : ∀ {a b : Nat}, MaximalRun text a i → MaximalRun text b i → a ≤ b := by
    intro a b ha hb
    by_contra hlt
    obtain ⟨m, rfl⟩ : ∃ m, a = m + 1 := Nat.exists_eq_add_of_le' (by omega)
    exact ha.maximal m rfl (hb.run m (by omega) (Nat.lt_of_succ_le ha.le))
  exact le_antisymm (hle hj hk) (hle hk hj)

/-- The loop returns at a percentage. -/
theorem percentAt_eq_some_iff {text : Bytes} {i n : Nat} (hi : i < text.length) :
    percentAt text i = some n ↔ ∃ v, PercentAt text i v ∧ n = ⌊v⌋.toNat := by
  have hget : text.getD i 0 = 37 ↔ text[i]? = some 37 := by
    rw [List.getD_eq_getElem?_getD, List.getElem?_eq_getElem hi]
    simp
  constructor
  · intro h
    unfold percentAt at h
    split at h
    · next hpercent =>
      dsimp only at h
      split at h
      · next hlt =>
        split at h
        · next v hparse =>
          split at h
          · next hrange =>
            refine ⟨v, ⟨hget.1 hpercent, ?_, hrange⟩, (Option.some.inj h).symm⟩
            exact ⟨runStart text i, hlt, runStart_maximal text i, hparse⟩
          · cases h
        · cases h
      · cases h
    · cases h
  · rintro ⟨v, ⟨hpercent, ⟨j, hlt, hrun, hparse⟩, hrange⟩, rfl⟩
    have hstart : runStart text i = j := (runStart_maximal text i).unique hrun
    rw [percentAt, if_pos (hget.2 hpercent), hstart]
    simp only [hlt, if_true, hparse, hrange, and_self]

theorem PercentAt.lt {text : Bytes} {i : Nat} {v : ℚ} (h : PercentAt text i v) :
    i < text.length := by
  by_contra hle
  have hpercent := h.percent
  rw [List.getElem?_eq_none (Nat.not_lt.1 hle)] at hpercent
  cases hpercent

theorem percentAt_eq_none_iff {text : Bytes} {i : Nat} (hi : i < text.length) :
    percentAt text i = none ↔ ∀ v, ¬ PercentAt text i v := by
  constructor
  · intro h v hv
    have hsome := (percentAt_eq_some_iff hi).2 ⟨v, hv, rfl⟩
    rw [h] at hsome
    cases hsome
  · intro h
    cases hresult : percentAt text i with
    | none => rfl
    | some n =>
      obtain ⟨v, hv, -⟩ := (percentAt_eq_some_iff hi).1 hresult
      exact absurd hv (h v)

/-- A loop over the numbers below `n` returns at the first one with a result. -/
theorem findSome?_range {α : Type} {f : Nat → Option α} {n : Nat} {a : α} :
    (List.range n).findSome? f = some a ↔ ∃ i < n, f i = some a ∧ ∀ j < i, f j = none := by
  induction n with
  | zero =>
    refine iff_of_false (by simp) ?_
    rintro ⟨i, hi, -⟩
    exact Nat.not_lt_zero i hi
  | succ n ih =>
    rw [List.range_succ, List.findSome?_append, Option.or_eq_some_iff, ih]
    constructor
    · rintro (⟨i, hi, h⟩ | ⟨hnone, hlast⟩)
      · exact ⟨i, Nat.lt_succ_of_lt hi, h⟩
      · rw [List.findSome?_eq_none_iff] at hnone
        refine ⟨n, Nat.lt_succ_self n, by simpa using hlast, fun j hj => ?_⟩
        exact hnone j (List.mem_range.2 hj)
    · rintro ⟨i, hi, hsome, hnone⟩
      rcases Nat.lt_succ_iff_lt_or_eq.1 hi with hi | rfl
      · exact .inl ⟨i, hi, hsome, hnone⟩
      · refine .inr ⟨?_, by simpa using hsome⟩
        rw [List.findSome?_eq_none_iff]
        exact fun j hj => hnone j (List.mem_range.1 hj)

/-- The only percentage of a line is that of its last byte. -/
def OnlyLast (text : Bytes) : Prop :=
  (∃ v, PercentAt text (text.length - 1) v) ∧
    ∀ j < text.length - 1, ∀ v, ¬ PercentAt text j v

/-- The result of a line is that of its first percentage, unless this is at the last byte. -/
theorem recognised_iff (text : Bytes) :
    Recognised text (parseProgressPct text) ↔ ¬ OnlyLast text := by
  have hlt : ∀ {i}, i < text.length - 1 → i < text.length := fun h => by omega
  cases hresult : parseProgressPct text with
  | some n =>
    obtain ⟨i, hi, hsome, hnone⟩ := findSome?_range.1 hresult
    obtain ⟨v, hv, rfl⟩ := (percentAt_eq_some_iff (hlt hi)).1 hsome
    refine iff_of_true ⟨i, v, hv, rfl, fun j hj => ?_⟩ fun h => h.2 i hi v hv
    exact (percentAt_eq_none_iff (hlt (hj.trans hi))).1 (hnone j hj)
  | none =>
    have hnone : ∀ j < text.length - 1, ∀ v, ¬ PercentAt text j v := by
      intro j hj
      rw [← percentAt_eq_none_iff (hlt hj)]
      exact List.findSome?_eq_none_iff.1 hresult j (List.mem_range.2 hj)
    constructor
    · rintro h ⟨⟨v, hv⟩, -⟩
      exact h _ v hv
    · intro h i v hv
      have hi := hv.lt
      by_cases hlast : i = text.length - 1
      · subst hlast
        exact h ⟨⟨v, hv⟩, hnone⟩
      · exact hnone i (by omega) v hv

/-! ## The lines of the exporter -/

/-- Integers below `2^53` are doubles. -/
theorem roundDouble_natCast {n : Nat} (h : n < 2 ^ 53) : roundDouble n = n := by
  rcases Nat.eq_zero_or_pos n with rfl | hpos
  · simp [roundDouble]
  have hlog : Nat.log 2 n ≤ 52 := Nat.lt_succ_iff.1 (Nat.log_lt_of_lt_pow hpos.ne' h)
  have hunit : (2 : ℚ) ^ (max (Int.log 2 (n : ℚ)) (-1022) - 52) =
      ((2 : ℚ) ^ (52 - Nat.log 2 n))⁻¹ := by
    rw [Int.log_natCast, max_eq_left (by omega), ← zpow_natCast, ← zpow_neg]
    congr 1
    omega
  have hscaled : (n : ℚ) / ((2 : ℚ) ^ (52 - Nat.log 2 n))⁻¹ =
      ((n * 2 ^ (52 - Nat.log 2 n) : ℕ) : ℚ) := by
    rw [div_inv_eq_mul]
    push_cast
    rfl
  have hne : (n : ℚ) ≠ 0 := Nat.cast_ne_zero.2 hpos.ne'
  simp only [roundDouble, hunit, hscaled, Int.floor_natCast, if_neg hne]
  rw [Int.cast_natCast, sub_self, if_neg (by norm_num), add_zero, ← hscaled,
    div_mul_cancel₀ _ (by positivity)]

theorem signedDecimal_natCast (n : Nat) : signedDecimal n = decimal n := by
  rw [signedDecimal, if_neg (by omega), Int.natAbs_natCast]

/-- The scanner sees no percent sign but at the last byte. -/
theorem parseProgressPct_progressLine (pct : Int) : parseProgressPct (progressLine pct) = none := by
  have hfront : 37 ∉ str "[PROGRESS] " ++ signedDecimal pct := by
    rw [List.mem_append, not_or]
    refine ⟨by decide, fun hmem => ?_⟩
    have hbyte := mem_signedDecimal hmem
    revert hbyte
    decide
  rw [parseProgressPct, List.findSome?_eq_none_iff]
  intro j hj
  have hlt : j < (str "[PROGRESS] " ++ signedDecimal pct).length := by
    rw [List.mem_range, progressLine, List.length_append] at hj
    exact hj
  rw [percentAt, progressLine, List.getD_eq_getElem?_getD, List.getElem?_append_left hlt,
    List.getElem?_eq_getElem hlt, Option.getD_some, if_neg]
  intro heq
  exact hfront (heq ▸ List.getElem_mem hlt)

theorem parseF64_decimal {n : Nat} (h : n < 2 ^ 53) : parseF64 (decimal n) = some (.real n) := by
  have hall : ∀ c ∈ decimal n, (c != 46) = true := by
    intro c hc
    rw [bne_iff_ne]
    rintro rfl
    exact absurd (isDigit_of_mem_decimal hc) (by decide)
  have hwhole : (decimal n).takeWhile (· != 46) = decimal n := List.takeWhile_eq_self_iff.2 hall
  have hfrac : (decimal n).dropWhile (· != 46) = [] := List.dropWhile_eq_nil_iff.2 hall
  have hdigits : (decimal n).all isDigit = true :=
    List.all_eq_true.2 fun c hc => isDigit_of_mem_decimal hc
  have hne : (decimal n).isEmpty = false := List.isEmpty_eq_false_iff.2 (decimal_ne_nil n)
  have hsmall : (n : ℚ) < 2 ^ 1024 := by
    calc (n : ℚ) < 2 ^ 53 := by exact_mod_cast h
      _ ≤ 2 ^ 1024 := pow_le_pow_right₀ (by norm_num) (by norm_num)
  simp only [parseF64, hwhole, hfrac, List.drop_nil, List.append_nil, hne, hdigits, Bool.not_true,
    Bool.or_self, Bool.false_eq_true, if_false, decimalValue_decimal, List.length_nil, pow_zero,
    div_one, roundDouble_natCast h, if_pos hsmall]

/-- The percentage of a line of the exporter is at its last byte. -/
theorem percentAt_progressLine {n : Nat} (h : n ≤ 100) :
    PercentAt (progressLine n) ((progressLine n).length - 1) n := by
  have htext : progressLine n = str "[PROGRESS] " ++ (decimal n ++ [37]) := by
    rw [progressLine, signedDecimal_natCast, List.append_assoc]
    rfl
  have hlen : (progressLine n).length - 1 = 11 + (decimal n).length := by
    rw [htext, List.length_append, List.length_append]
    exact Nat.add_sub_cancel (11 + (decimal n).length) 1
  have hpos : 0 < (decimal n).length := List.length_pos_iff.2 (decimal_ne_nil n)
  have hrest : ∀ k, (progressLine n)[11 + k]? = (decimal n ++ [37])[k]? := by
    intro k
    rw [htext, List.getElem?_append_right (Nat.le_add_right 11 k)]
    congr 1
    exact Nat.add_sub_cancel_left (n := 11) (m := k)
  rw [hlen]
  refine ⟨?_, ⟨11, by omega, ⟨by omega, fun k hk hlt => ?_, fun k hk => ?_⟩, ?_⟩, ?_⟩
  · rw [hrest, List.getElem?_append_right le_rfl, Nat.sub_self]
    rfl
  · obtain ⟨k, rfl⟩ := Nat.exists_eq_add_of_le hk
    have hk : k < (decimal n).length := by omega
    refine ⟨(decimal n)[k], ?_, ?_⟩
    · rw [hrest, List.getElem?_append_left hk, List.getElem?_eq_getElem hk]
    · rw [isNumberByte, isDigit_of_mem_decimal (List.getElem_mem hk)]
      rfl
  · obtain rfl : k = 10 := by omega
    rintro ⟨c, hc, hbyte⟩
    rw [htext, List.getElem?_append_left (by decide)] at hc
    obtain rfl : (32 : UInt8) = c := Option.some.inj hc
    exact absurd hbyte (by decide)
  · have hdrop : (progressLine n).drop 11 = decimal n ++ [37] := by
      rw [htext]
      exact List.drop_left' (by decide)
    rw [hdrop, Nat.add_sub_cancel_left, List.take_left, parseF64_decimal (by omega)]
  · exact ⟨Nat.cast_nonneg n, by exact_mod_cast h⟩

/-- A line gives the number of its first percentage, or none without one, exactly where this is not
at its last byte; and that is where the lines of the exporter have theirs. -/
theorem parseProgressPct_iff (text : Bytes) :
    (Recognised text (parseProgressPct text) ↔ ¬ OnlyLast text) ∧
    ∀ n : Nat, n ≤ 100 → PercentAt (progressLine n) ((progressLine n).length - 1) n ∧
      parseProgressPct (progressLine n) = none :=
  ⟨recognised_iff text, fun n h => ⟨percentAt_progressLine h, parseProgressPct_progressLine n⟩⟩

/-- The line of 42 percent. -/
theorem progressLine_missed :
    parseProgressPct (str "[PROGRESS] 42%") = none ∧
      ¬ Recognised (str "[PROGRESS] 42%") (parseProgressPct (str "[PROGRESS] 42%")) := by
  have htext : progressLine (42 : Nat) = str "[PROGRESS] 42%" := by decide +kernel
  have hnone := parseProgressPct_progressLine (42 : Nat)
  have hpercent := percentAt_progressLine (n := 42) (by omega)
  rw [htext] at hnone hpercent
  refine ⟨hnone, ?_⟩
  rw [hnone]
  exact fun h => h _ _ hpercent

end Terllama
