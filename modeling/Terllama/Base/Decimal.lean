import Mathlib.Data.List.TakeWhile
import Terllama.Base.Bytes
import Terllama.Base.Exec

/-!
# Decimal numbers in names

`std::to_string` writes the digits of a layer index into a tensor name and `std::stoi` reads them
back: `stoi_decimal` is the round trip for an index that fits an `int`.
-/

namespace Terllama

/-- `isdigit`, which is false for the bytes outside ASCII. -/
def isDigit (c : UInt8) : Bool := 48 ≤ c && c ≤ 57

/-- The number that decimal digits spell. -/
def decimalValue (digits : Bytes) : Nat := digits.foldl (fun v c => 10 * v + (c.toNat - 48)) 0

/-- `std::stoi` on a string of digits. -/
def stoi (digits : Bytes) : Exec Int :=
  if decimalValue digits ≤ 2147483647 then .ok (decimalValue digits) else raise "stoi"

/-- `std::to_string` of a number that is not negative. -/
def decimal (n : Nat) : Bytes := str (toString n)

/-- `std::to_string` of a signed number. -/
def signedDecimal (n : Int) : Bytes :=
  if n < 0 then str "-" ++ decimal n.natAbs else decimal n.natAbs

theorem str_append (s t : String) : str (s ++ t) = str s ++ str t := by
  simp [str]

theorem decimal_eq (n : Nat) :
    decimal n = (Nat.toDigits 10 n).map fun c => UInt8.ofNat c.toNat := by
  rw [decimal, str, Nat.toString_eq_ofList_toDigits, String.toList_ofList]

theorem decimal_ne_nil (n : Nat) : decimal n ≠ [] := by
  rw [decimal_eq, ne_eq, List.map_eq_nil_iff]
  exact Nat.toDigits_ne_nil

theorem decimal_length_le {n : Nat} (h : n < 10000000000) : (decimal n).length ≤ 10 := by
  rw [decimal_eq, List.length_map]
  exact (Nat.length_toDigits_le_iff (by decide) (by decide)).2 h

/-- A decimal digit as a byte. -/
theorem toNat_ofNat_digit {c : Char} (h : c.isDigit) :
    (UInt8.ofNat c.toNat).toNat = c.toNat ∧ 48 ≤ c.toNat ∧ c.toNat ≤ 57 := by
  have hrange : 48 ≤ c.toNat ∧ c.toNat ≤ 57 := by
    simp only [Char.isDigit, Bool.and_eq_true, decide_eq_true_eq, ge_iff_le] at h
    exact h
  rw [UInt8.toNat_ofNat']
  omega

theorem isDigit_of_mem_decimal {n : Nat} {c : UInt8} (h : c ∈ decimal n) : isDigit c = true := by
  rw [decimal_eq, List.mem_map] at h
  obtain ⟨d, hd, rfl⟩ := h
  obtain ⟨hval, hlo, hhi⟩ :=
    toNat_ofNat_digit (Nat.isDigit_of_mem_toDigits (by decide) (by decide) hd)
  simp only [isDigit, Bool.and_eq_true, decide_eq_true_eq, UInt8.le_iff_toNat_le, hval]
  exact ⟨hlo, hhi⟩

theorem mem_signedDecimal {n : Int} {c : UInt8} (h : c ∈ signedDecimal n) :
    c = 45 ∨ isDigit c = true := by
  unfold signedDecimal at h
  split at h
  · rcases List.mem_append.1 h with h | h
    · exact .inl (List.mem_singleton.1 h)
    · exact .inr (isDigit_of_mem_decimal h)
  · exact .inr (isDigit_of_mem_decimal h)

theorem decimalValue_decimal (n : Nat) : decimalValue (decimal n) = n := by
  have hfold : ∀ (l : List Char), (∀ c ∈ l, c.isDigit) → ∀ v,
      (l.map fun c => UInt8.ofNat c.toNat).foldl (fun v c => 10 * v + (c.toNat - 48)) v =
        Nat.ofDigitChars 10 l v := by
    intro l
    induction l with
    | nil => exact fun _ v => rfl
    | cons c l ih =>
      intro h v
      rw [List.forall_mem_cons] at h
      rw [List.map_cons, List.foldl_cons, ih h.2, Nat.ofDigitChars_cons,
        (toNat_ofNat_digit h.1).1]
      rfl
  rw [decimalValue, decimal_eq,
    hfold _ fun c hc => Nat.isDigit_of_mem_toDigits (by decide) (by decide) hc]
  exact Nat.ofDigitChars_ten_toDigits

/-- Different numbers have different digits. -/
theorem decimal_injective {m n : Nat} (h : decimal m = decimal n) : m = n := by
  rw [← decimalValue_decimal m, h, decimalValue_decimal]

/-- A number that is followed by another byte is read off a string. -/
theorem decimal_append_inj {m n : Nat} {c : UInt8} (hc : isDigit c = false) {s t : Bytes}
    (h : decimal m ++ c :: s = decimal n ++ c :: t) : m = n ∧ s = t := by
  have htake : ∀ k (u : Bytes), (decimal k ++ c :: u).takeWhile isDigit = decimal k := by
    intro k u
    rw [List.takeWhile_append_of_pos fun d hd => isDigit_of_mem_decimal hd, List.takeWhile_cons,
      hc]
    simp
  have hdigits : decimal m = decimal n := by rw [← htake m s, h, htake]
  rw [hdigits] at h
  have hrest := List.append_cancel_left h
  cases hrest
  exact ⟨decimal_injective hdigits, rfl⟩

theorem stoi_decimal {n : Nat} (h : n ≤ 2147483647) : stoi (decimal n) = .ok (n : Int) := by
  rw [stoi, decimalValue_decimal, if_pos h]

/-- `isspace`. -/
def isSpace (c : UInt8) : Bool := c == 32 || 9 ≤ c && c ≤ 13

/-- `std::stoll`. -/
def stoll (s : Bytes) : Exec Int :=
  let s := s.dropWhile isSpace
  let digits := (if s.head? = some 45 ∨ s.head? = some 43 then s.tail else s).takeWhile isDigit
  let n : Int := if s.head? = some 45 then -decimalValue digits else decimalValue digits
  if digits.isEmpty then raise "stoll"
  else if -9223372036854775808 ≤ n ∧ n ≤ 9223372036854775807 then .ok n
  else raise "stoll"

/-- `std::stoi` on any text; both of its exceptions have its name as their text. -/
def stoiText (s : Bytes) : Exec Int :=
  match stoll s with
  | .ok n => if IsI32 n then .ok n else raise "stoi"
  | .error _ => raise "stoi"

/-- The digits of a number begin with one. -/
theorem head_decimal (n : Nat) : ∃ c rest, decimal n = c :: rest ∧ isDigit c = true := by
  cases hd : decimal n with
  | nil => exact absurd hd (decimal_ne_nil n)
  | cons c rest =>
    refine ⟨c, rest, rfl, isDigit_of_mem_decimal (n := n) ?_⟩
    rw [hd]
    exact List.mem_cons_self

theorem takeWhile_decimal (n : Nat) : (decimal n).takeWhile isDigit = decimal n :=
  List.takeWhile_eq_self_iff.2 fun _ hc => isDigit_of_mem_decimal hc

/-- A digit is neither a space nor a sign. -/
theorem not_isSpace_of_isDigit {c : UInt8} (h : isDigit c = true) :
    isSpace c = false ∧ c ≠ 45 ∧ c ≠ 43 := by
  have hrange : 48 ≤ c.toNat ∧ c.toNat ≤ 57 := by
    simpa [isDigit, UInt8.le_iff_toNat_le] using h
  refine ⟨?_, ?_, ?_⟩
  · have hne : c ≠ 32 := by
      rintro rfl
      exact absurd hrange.1 (by decide)
    have hlt : ¬ c ≤ 13 := by
      rw [UInt8.le_iff_toNat_le]
      have h13 : (13 : UInt8).toNat = 13 := rfl
      omega
    simp [isSpace, hne, hlt]
  · rintro rfl
    exact absurd hrange.1 (by decide)
  · rintro rfl
    exact absurd hrange.1 (by decide)

theorem stoll_signedDecimal {n : Int} (hlo : -9223372036854775808 ≤ n)
    (hhi : n ≤ 9223372036854775807) : stoll (signedDecimal n) = .ok n := by
  obtain ⟨c, rest, hdigits, hc⟩ := head_decimal n.natAbs
  obtain ⟨hspace, hminus, hplus⟩ := not_isSpace_of_isDigit hc
  have htake := takeWhile_decimal n.natAbs
  have hvalue := decimalValue_decimal n.natAbs
  unfold signedDecimal
  rw [hdigits] at htake hvalue ⊢
  split
  · rename_i hneg
    have hsign : str "-" = [45] := by decide
    have hdrop : ((45 : UInt8) :: c :: rest).dropWhile isSpace = 45 :: c :: rest := by
      rw [List.dropWhile_cons_of_neg (by decide)]
    rw [hsign, List.cons_append, List.nil_append, stoll, hdrop]
    simp only [List.head?_cons, List.tail_cons, true_or, if_true, htake, hvalue]
    rw [if_neg (by simp), if_pos ⟨by omega, by omega⟩]
    congr 1
    omega
  · rename_i hpos
    have hdrop : (c :: rest).dropWhile isSpace = c :: rest := by
      rw [List.dropWhile_cons_of_neg (by rw [hspace]; exact Bool.false_ne_true)]
    rw [stoll, hdrop]
    simp only [List.head?_cons, Option.some.injEq, hminus, hplus, or_self, if_false, htake, hvalue]
    rw [if_neg (by simp), if_pos ⟨by omega, by omega⟩]
    congr 1
    omega

end Terllama
