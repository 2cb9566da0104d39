import Mathlib.Data.Bool.AllAny
import Mathlib.Data.List.Infix
import Terllama.Base.Bytes

/-!
# Text with replacement characters

`String::from_utf8_lossy`: the text of bytes that are not UTF-8 throughout. Bytes that begin no
character, or a character that does not go on, become one replacement character. ASCII bytes are
never part of another character, so that they stay as they are (`infix_of_infix_fromUtf8Lossy`) and
the text can be cut at them (`fromUtf8Lossy_append_ascii`).
-/

namespace Terllama

/-- The ranges of the bytes that follow the first byte of a character, `none` for a byte with which
no character begins. -/
def followRanges (b : UInt8) : Option (List (UInt8 × UInt8)) :=
  if b ≤ 0x7F then some []
  else if 0xC2 ≤ b ∧ b ≤ 0xDF then some [(0x80, 0xBF)]
  else if b = 0xE0 then some [(0xA0, 0xBF), (0x80, 0xBF)]
  else if b = 0xED then some [(0x80, 0x9F), (0x80, 0xBF)]
  else if 0xE1 ≤ b ∧ b ≤ 0xEF then some [(0x80, 0xBF), (0x80, 0xBF)]
  else if b = 0xF0 then some [(0x90, 0xBF), (0x80, 0xBF), (0x80, 0xBF)]
  else if b = 0xF4 then some [(0x80, 0x8F), (0x80, 0xBF), (0x80, 0xBF)]
  else if 0xF1 ≤ b ∧ b ≤ 0xF3 then some [(0x80, 0xBF), (0x80, 0xBF), (0x80, 0xBF)]
  else none

/-- How many bytes are in their ranges, and whether all the ranges are used up. -/
def matchRanges : List (UInt8 × UInt8) → Bytes → Bool × Nat
  | [], _ => (true, 0)
  | _ :: _, [] => (false, 0)
  | (lo, hi) :: rs, c :: s =>
    if lo ≤ c ∧ c ≤ hi then
      let (whole, n) := matchRanges rs s
      (whole, n + 1)
    else (false, 0)

/-- The rest of a character: whether it is whole, and its length. -/
def charRest (b : UInt8) (s : Bytes) : Bool × Nat :=
  match followRanges b with
  | none => (false, 0)
  | some rs => matchRanges rs s

/-- U+FFFD. -/
def replacementChar : Bytes := [0xEF, 0xBF, 0xBD]

/-- The text of the bytes behind `skip` ones. -/
def lossyFrom : Nat → Bytes → Bytes
  | _, [] => []
  | skip + 1, _ :: s => lossyFrom skip s
  | 0, b :: s =>
    let (whole, n) := charRest b s
    (if whole then b :: s.take n else replacementChar) ++ lossyFrom n s

/-- `String::from_utf8_lossy`. -/
def fromUtf8Lossy (s : Bytes) : Bytes := lossyFrom 0 s

theorem lossyFrom_eq (skip : Nat) (s : Bytes) : lossyFrom skip s = fromUtf8Lossy (s.drop skip) := by
  induction s generalizing skip with
  | nil => rw [List.drop_nil]; cases skip <;> rfl
  | cons b s ih =>
    cases skip with
    | zero => rfl
    | succ skip => exact ih skip

theorem fromUtf8Lossy_cons (b : UInt8) (s : Bytes) :
    fromUtf8Lossy (b :: s) =
      (if (charRest b s).1 then b :: s.take (charRest b s).2 else replacementChar) ++
        fromUtf8Lossy (s.drop (charRest b s).2) := by
  rw [← lossyFrom_eq]
  rfl

theorem fromUtf8Lossy_ascii {b : UInt8} (hb : b ≤ 0x7F) (s : Bytes) :
    fromUtf8Lossy (b :: s) = b :: fromUtf8Lossy s := by
  have hrest : charRest b s = (true, 0) := by
    rw [charRest, followRanges, if_pos hb]
    rfl
  rw [fromUtf8Lossy_cons, hrest]
  rfl

/-- Only bytes outside ASCII follow the first byte of a character. -/
theorem followRanges_lo {b : UInt8} {rs : List (UInt8 × UInt8)} (h : followRanges b = some rs) :
    ∀ r ∈ rs, 0x80 ≤ r.1 := by
  unfold followRanges at h
  repeat' split at h
  all_goals
    cases h
    try exact List.all_iff_forall_prop.1 rfl

/-- The bytes that are in their ranges. -/
theorem matchRanges_take {rs : List (UInt8 × UInt8)} (hrs : ∀ r ∈ rs, 0x80 ≤ r.1) (s : Bytes) :
    (matchRanges rs s).2 ≤ s.length ∧ ∀ c ∈ s.take (matchRanges rs s).2, 0x80 ≤ c := by
  induction rs generalizing s with
  | nil =>
    refine ⟨Nat.zero_le _, fun c hc => ?_⟩
    cases hc
  | cons r rs ih =>
    cases s with
    | nil =>
      refine ⟨le_rfl, fun c hc => ?_⟩
      cases hc
    | cons c s =>
      rw [List.forall_mem_cons] at hrs
      obtain ⟨hle, hmem⟩ := ih hrs.2 s
      rw [matchRanges]
      split
      · next hc =>
        refine ⟨Nat.succ_le_succ hle, fun d hd => ?_⟩
        rcases List.mem_cons.1 hd with rfl | hd
        · exact UInt8.le_trans hrs.1 hc.1
        · exact hmem d hd
      · refine ⟨Nat.zero_le _, fun d hd => ?_⟩
        cases hd

/-- A byte of ASCII ends a character. -/
theorem matchRanges_append {rs : List (UInt8 × UInt8)} (hrs : ∀ r ∈ rs, 0x80 ≤ r.1) {c : UInt8}
    (hc : c ≤ 0x7F) (s t : Bytes) : matchRanges rs (s ++ c :: t) = matchRanges rs s := by
  induction rs generalizing s with
  | nil => rfl
  | cons r rs ih =>
    rw [List.forall_mem_cons] at hrs
    cases s with
    | nil =>
      obtain ⟨lo, hi⟩ := r
      have hout : ¬ (lo ≤ c ∧ c ≤ hi) := by
        rintro ⟨hlo, -⟩
        exact absurd (UInt8.le_trans hrs.1 (UInt8.le_trans hlo hc)) (by decide)
      exact if_neg hout
    | cons d s => rw [List.cons_append, matchRanges, matchRanges, ih hrs.2]

theorem charRest_take (b : UInt8) (s : Bytes) :
    (charRest b s).2 ≤ s.length ∧ ∀ c ∈ s.take (charRest b s).2, 0x80 ≤ c := by
  unfold charRest
  split
  · refine ⟨Nat.zero_le _, fun c hc => ?_⟩
    cases hc
  · next rs hrs => exact matchRanges_take (followRanges_lo hrs) s

theorem charRest_append (b : UInt8) {c : UInt8} (hc : c ≤ 0x7F) (s t : Bytes) :
    charRest b (s ++ c :: t) = charRest b s := by
  unfold charRest
  split
  · rfl
  · next rs hrs => exact matchRanges_append (followRanges_lo hrs) hc s t

/-- The text is cut at a byte of ASCII. -/
theorem fromUtf8Lossy_append_ascii {c : UInt8} (hc : c ≤ 0x7F) (s t : Bytes) :
    fromUtf8Lossy (s ++ c :: t) = fromUtf8Lossy s ++ c :: fromUtf8Lossy t := by
  induction h : s.length using Nat.strong_induction_on generalizing s with
  | _ n ih =>
    subst h
    cases s with
    | nil => exact fromUtf8Lossy_ascii hc t
    | cons b s =>
      have hle := (charRest_take b s).1
      rw [List.cons_append, fromUtf8Lossy_cons, fromUtf8Lossy_cons, charRest_append b hc,
        List.take_append_of_le_length hle, List.drop_append_of_le_length hle, List.append_assoc]
      rw [ih (s.drop (charRest b s).2).length _ _ rfl]
      rw [List.length_drop, List.length_cons]
      omega

/-- The bytes that a byte outside ASCII becomes are outside ASCII. -/
theorem fromUtf8Lossy_high {b : UInt8} (hb : 0x80 ≤ b) (s : Bytes) :
    ∃ out, (∀ c ∈ out, 0x80 ≤ c) ∧ out ≠ [] ∧
      fromUtf8Lossy (b :: s) = out ++ fromUtf8Lossy (s.drop (charRest b s).2) := by
  refine ⟨_, ?_, ?_, fromUtf8Lossy_cons b s⟩
  · intro c hc
    split at hc
    · rcases List.mem_cons.1 hc with rfl | hc
      · exact hb
      · exact (charRest_take b s).2 c hc
    · exact (List.all_iff_forall_prop (p := fun c => 0x80 ≤ c)).1 rfl c hc
  · split
    · exact List.cons_ne_nil _ _
    · decide

/-- A byte is one of ASCII or not. -/
theorem ascii_or_high (b : UInt8) : b ≤ 0x7F ∨ 0x80 ≤ b := by
  rw [UInt8.le_iff_toNat_le, UInt8.le_iff_toNat_le]
  change _ ≤ 127 ∨ 128 ≤ _
  omega

/-- ASCII at the beginning of the text is at the beginning of the bytes. -/
theorem prefix_of_prefix_fromUtf8Lossy {pat s : Bytes} (hpat : ∀ c ∈ pat, c ≤ 0x7F)
    (h : pat <+: fromUtf8Lossy s) : pat <+: s := by
  induction pat generalizing s with
  | nil => exact List.nil_prefix
  | cons c pat ih =>
    rw [List.forall_mem_cons] at hpat
    cases s with
    | nil => exact h
    | cons b s =>
      rcases ascii_or_high b with hb | hb
      · rw [fromUtf8Lossy_ascii hb, List.cons_prefix_cons] at h
        rw [List.cons_prefix_cons]
        exact ⟨h.1, ih hpat.2 h.2⟩
      · obtain ⟨out, hout, hne, htext⟩ := fromUtf8Lossy_high hb s
        cases out with
        | nil => exact absurd rfl hne
        | cons o out =>
          rw [htext, List.cons_append, List.cons_prefix_cons] at h
          have hlo := hout o List.mem_cons_self
          rw [← h.1] at hlo
          exact absurd (UInt8.le_trans hlo hpat.1) (by decide)

/-- ASCII behind bytes outside it. -/
theorem infix_of_infix_append_high {pat out t : Bytes} (hpat : ∀ c ∈ pat, c ≤ 0x7F)
    (hout : ∀ c ∈ out, 0x80 ≤ c) (h : pat <:+: out ++ t) : pat <:+: t := by
  induction out with
  | nil => exact h
  | cons o out ih =>
    rw [List.forall_mem_cons] at hout
    rw [List.cons_append, List.infix_cons_iff] at h
    rcases h with h | h
    · cases pat with
      | nil => exact List.nil_infix
      | cons c pat =>
        rw [List.cons_prefix_cons] at h
        have hlo := hout.1
        rw [← h.1] at hlo
        exact absurd (UInt8.le_trans hlo (hpat c List.mem_cons_self)) (by decide)
    · exact ih hout.2 h

/-- ASCII in the text is in the bytes. -/
theorem infix_of_infix_fromUtf8Lossy {pat s : Bytes} (hpat : ∀ c ∈ pat, c ≤ 0x7F)
    (h : pat <:+: fromUtf8Lossy s) : pat <:+: s := by
  induction hn : s.length using Nat.strong_induction_on generalizing s with
  | _ n ih =>
    subst hn
    cases s with
    | nil => exact h
    | cons b s =>
      rw [List.infix_cons_iff]
      rcases ascii_or_high b with hb | hb
      · have htext := fromUtf8Lossy_ascii hb s
        rw [htext, List.infix_cons_iff, ← htext] at h
        rcases h with h | h
        · exact .inl (prefix_of_prefix_fromUtf8Lossy hpat h)
        · exact .inr (ih _ (Nat.lt_succ_self _) h rfl)
      · obtain ⟨out, hout, -, htext⟩ := fromUtf8Lossy_high hb s
        rw [htext] at h
        have hrest := infix_of_infix_append_high hpat hout h
        refine .inr ((ih _ ?_ hrest rfl).trans (List.drop_suffix _ _).isInfix)
        rw [List.length_drop, List.length_cons]
        omega

end Terllama
