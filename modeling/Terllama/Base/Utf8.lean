import Mathlib.Tactic
import Terllama.Base.Bytes

/-!
# UTF-8

The syntax of UTF-8 (`ValidUtf8`), and the automaton that the JSON library decodes it with: a class
for each byte, and a table from a state and a class to the next state. State 0 stands between
characters and state 1 for a rejected byte. `accepts_iff` holds the automaton to the syntax, with
one inversion lemma for the states that wait for the rest of a character.
-/

namespace Terllama

/-! ## The syntax -/

/-- A continuation byte. -/
def Utf8Tail (b : UInt8) : Prop := 0x80 ≤ b ∧ b ≤ 0xBF

/-- The bytes of one character, shortest form, without surrogates and up to `U+10FFFF`. -/
inductive Utf8Char : Bytes → Prop where
  | one {a : UInt8} : a ≤ 0x7F → Utf8Char [a]
  | two {a b : UInt8} : 0xC2 ≤ a → a ≤ 0xDF → Utf8Tail b → Utf8Char [a, b]
  | three {a b c : UInt8} : 0xE0 ≤ a → a ≤ 0xEF → Utf8Tail b → Utf8Tail c →
    (a = 0xE0 → 0xA0 ≤ b) → (a = 0xED → b ≤ 0x9F) → Utf8Char [a, b, c]
  | four {a b c d : UInt8} : 0xF0 ≤ a → a ≤ 0xF4 → Utf8Tail b → Utf8Tail c → Utf8Tail d →
    (a = 0xF0 → 0x90 ≤ b) → (a = 0xF4 → b ≤ 0x8F) → Utf8Char [a, b, c, d]

/-- A sequence of characters. -/
inductive ValidUtf8 : Bytes → Prop where
  | nil : ValidUtf8 []
  | cons {c s : Bytes} : Utf8Char c → ValidUtf8 s → ValidUtf8 (c ++ s)

theorem ValidUtf8.append {s t : Bytes} (hs : ValidUtf8 s) (ht : ValidUtf8 t) :
    ValidUtf8 (s ++ t) := by
  induction hs with
  | nil => exact ht
  | cons hc _ ih =>
    rw [List.append_assoc]
    exact .cons hc ih

/-! ## The automaton -/

/-- The class of a byte: the first 256 entries of the table `utf8d`. -/
def utf8Class (b : UInt8) : Nat :=
  if b ≤ 0x7F then 0
  else if b ≤ 0x8F then 1
  else if b ≤ 0x9F then 9
  else if b ≤ 0xBF then 7
  else if b ≤ 0xC1 then 8
  else if b ≤ 0xDF then 2
  else if b = 0xE0 then 10
  else if b = 0xED then 4
  else if b ≤ 0xEF then 3
  else if b = 0xF0 then 11
  else if b ≤ 0xF3 then 6
  else if b = 0xF4 then 5
  else 8

/-- The transitions: the rest of the table, a row for each state. -/
def utf8Table : List (List Nat) :=
  [[0, 1, 2, 3, 5, 8, 7, 1, 1, 1, 4, 6],
    [1, 1, 1, 1, 1, 1, 1, 1, 1, 1, 1, 1],
    [1, 0, 1, 1, 1, 1, 1, 0, 1, 0, 1, 1],
    [1, 2, 1, 1, 1, 1, 1, 2, 1, 2, 1, 1],
    [1, 1, 1, 1, 1, 1, 1, 2, 1, 1, 1, 1],
    [1, 2, 1, 1, 1, 1, 1, 1, 1, 2, 1, 1],
    [1, 1, 1, 1, 1, 1, 1, 3, 1, 3, 1, 1],
    [1, 3, 1, 1, 1, 1, 1, 3, 1, 3, 1, 1],
    [1, 3, 1, 1, 1, 1, 1, 1, 1, 1, 1, 1]]

/-- The state after a byte. -/
def utf8Next (state : Nat) (b : UInt8) : Nat := (utf8Table.getD state []).getD (utf8Class b) 1

/-- The automaton ends between characters, and rejects no byte on the way. -/
def Utf8Accepts : Nat → Bytes → Prop
  | state, [] => state = 0
  | state, b :: s => utf8Next state b ≠ 1 ∧ Utf8Accepts (utf8Next state b) s

instance Utf8Accepts.instDecidable : (state : Nat) → (s : Bytes) → Decidable (Utf8Accepts state s)
  | state, [] => inferInstanceAs (Decidable (state = 0))
  | state, b :: s =>
    have := Utf8Accepts.instDecidable (utf8Next state b) s
    inferInstanceAs (Decidable (utf8Next state b ≠ 1 ∧ Utf8Accepts (utf8Next state b) s))

/-! ## The automaton decides the syntax -/

/-- A byte as a number below 256, for a case analysis. -/
theorem forall_byte {p : UInt8 → Prop} (h : ∀ n < 256, p (UInt8.ofNat n)) (b : UInt8) : p b := by
  have hb := h b.toNat b.toNat_lt
  rwa [UInt8.ofNat_toNat] at hb

/-- The bytes that a state lets through. -/
def utf8Range : Nat → Option (UInt8 × UInt8 × Nat)
  | 2 => some (0x80, 0xBF, 0)
  | 3 => some (0x80, 0xBF, 2)
  | 4 => some (0xA0, 0xBF, 2)
  | 5 => some (0x80, 0x9F, 2)
  | 6 => some (0x90, 0xBF, 3)
  | 7 => some (0x80, 0xBF, 3)
  | 8 => some (0x80, 0x8F, 3)
  | _ => none

/-- A state that waits for the rest of a character. -/
theorem utf8Next_range {state next : Nat} {lo hi : UInt8}
    (h : utf8Range state = some (lo, hi, next)) (b : UInt8) :
    utf8Next state b = if lo ≤ b ∧ b ≤ hi then next else 1 := by
  revert b
  refine forall_byte ?_
  unfold utf8Range at h
  split at h <;> cases h <;> decide +kernel

/-- The state between characters. -/
theorem utf8Next_zero (b : UInt8) :
    utf8Next 0 b =
      if b ≤ 0x7F then 0
      else if 0xC2 ≤ b ∧ b ≤ 0xDF then 2
      else if b = 0xE0 then 4
      else if b = 0xED then 5
      else if 0xE1 ≤ b ∧ b ≤ 0xEF then 3
      else if b = 0xF0 then 6
      else if 0xF1 ≤ b ∧ b ≤ 0xF3 then 7
      else if b = 0xF4 then 8
      else 1 := by
  revert b
  exact forall_byte (by decide +kernel)

/-- What follows a state that waits for the rest of a character. -/
theorem accepts_range {state next : Nat} {lo hi : UInt8}
    (h : utf8Range state = some (lo, hi, next)) {l : Bytes} :
    Utf8Accepts state l ↔ ∃ b s, l = b :: s ∧ lo ≤ b ∧ b ≤ hi ∧ Utf8Accepts next s := by
  have hwaits : state ≠ 0 ∧ next ≠ 1 := by
    unfold utf8Range at h
    split at h <;> cases h <;> decide
  cases l with
  | nil =>
    refine iff_of_false hwaits.1 ?_
    rintro ⟨b, s, h, -⟩
    cases h
  | cons b s =>
    rw [Utf8Accepts, utf8Next_range h]
    constructor
    · intro hb
      split at hb
      · rename_i hin
        exact ⟨b, s, rfl, hin.1, hin.2, hb.2⟩
      · exact absurd rfl hb.1
    · rintro ⟨b', s', heq, hlo, hhi, hs⟩
      cases heq
      rw [if_pos ⟨hlo, hhi⟩]
      exact ⟨hwaits.2, hs⟩

/-- A character brings the automaton back between characters. -/
theorem accepts_char {c s : Bytes} (hc : Utf8Char c) (hs : Utf8Accepts 0 s) :
    Utf8Accepts 0 (c ++ s) := by
  cases hc with
  | one ha =>
    rw [List.singleton_append, Utf8Accepts, utf8Next_zero, if_pos ha]
    exact ⟨by decide, hs⟩
  | @two a b hlo hhi hb =>
    have hnext : utf8Next 0 a = 2 := by
      rw [utf8Next_zero, if_neg (by grind), if_pos ⟨hlo, hhi⟩]
    rw [List.cons_append, Utf8Accepts, hnext]
    exact ⟨by decide, (accepts_range rfl).2 ⟨b, s, rfl, hb.1, hb.2, hs⟩⟩
  | @three a b c hlo hhi hb hc he0 hed =>
    have hrest : Utf8Accepts 2 (c :: s) := (accepts_range rfl).2 ⟨c, s, rfl, hc.1, hc.2, hs⟩
    rw [List.cons_append, Utf8Accepts, utf8Next_zero, if_neg (by grind), if_neg (by grind)]
    by_cases ha : a = 0xE0
    · rw [if_pos ha]
      exact ⟨by decide, (accepts_range rfl).2 ⟨b, _, rfl, he0 ha, hb.2, hrest⟩⟩
    · rw [if_neg ha]
      by_cases ha' : a = 0xED
      · rw [if_pos ha']
        exact ⟨by decide, (accepts_range rfl).2 ⟨b, _, rfl, hb.1, hed ha', hrest⟩⟩
      · rw [if_neg ha', if_pos (by grind)]
        exact ⟨by decide, (accepts_range rfl).2 ⟨b, _, rfl, hb.1, hb.2, hrest⟩⟩
  | @four a b c d hlo hhi hb hc hd hf0 hf4 =>
    have hlast : Utf8Accepts 2 (d :: s) := (accepts_range rfl).2 ⟨d, s, rfl, hd.1, hd.2, hs⟩
    have hrest : Utf8Accepts 3 (c :: d :: s) :=
      (accepts_range rfl).2 ⟨c, _, rfl, hc.1, hc.2, hlast⟩
    rw [List.cons_append, Utf8Accepts, utf8Next_zero, if_neg (by grind), if_neg (by grind),
      if_neg (by grind), if_neg (by grind), if_neg (by grind)]
    by_cases ha : a = 0xF0
    · rw [if_pos ha]
      exact ⟨by decide, (accepts_range rfl).2 ⟨b, _, rfl, hf0 ha, hb.2, hrest⟩⟩
    · rw [if_neg ha]
      by_cases ha' : a = 0xF4
      · rw [if_neg (by grind), if_pos ha']
        exact ⟨by decide, (accepts_range rfl).2 ⟨b, _, rfl, hb.1, hf4 ha', hrest⟩⟩
      · rw [if_pos (by grind)]
        exact ⟨by decide, (accepts_range rfl).2 ⟨b, _, rfl, hb.1, hb.2, hrest⟩⟩

/-- What the automaton accepts from a first byte on starts with a character. -/
theorem exists_char {a : UInt8} {l : Bytes} (h : Utf8Accepts 0 (a :: l)) :
    ∃ c s, Utf8Char c ∧ a :: l = c ++ s ∧ Utf8Accepts 0 s := by
  have htail : ∀ {b : UInt8} {lo hi : UInt8}, lo ≤ b → b ≤ hi → 0x80 ≤ lo → hi ≤ 0xBF →
      Utf8Tail b := fun h₁ h₂ h₃ h₄ => ⟨UInt8.le_trans h₃ h₁, UInt8.le_trans h₂ h₄⟩
  obtain ⟨hne, h⟩ := h
  rw [utf8Next_zero] at hne h
  split at h
  · rename_i ha
    exact ⟨[a], l, .one ha, rfl, h⟩
  split at h
  · rename_i ha
    obtain ⟨b, s, rfl, hlo, hhi, h⟩ := (accepts_range rfl).1 h
    exact ⟨[a, b], s, .two ha.1 ha.2 ⟨hlo, hhi⟩, rfl, h⟩
  split at h
  · rename_i ha
    obtain ⟨b, s, rfl, hlo, hhi, h⟩ := (accepts_range rfl).1 h
    obtain ⟨c, s, rfl, hc, hc', h⟩ := (accepts_range rfl).1 h
    exact ⟨[a, b, c], s, .three (by grind) (by grind) (htail hlo hhi (by decide) (by decide))
      ⟨hc, hc'⟩ (fun _ => hlo) (by grind), rfl, h⟩
  split at h
  · rename_i ha
    obtain ⟨b, s, rfl, hlo, hhi, h⟩ := (accepts_range rfl).1 h
    obtain ⟨c, s, rfl, hc, hc', h⟩ := (accepts_range rfl).1 h
    exact ⟨[a, b, c], s, .three (by grind) (by grind) (htail hlo hhi (by decide) (by decide))
      ⟨hc, hc'⟩ (by grind) (fun _ => hhi), rfl, h⟩
  split at h
  · rename_i ha ha' hin
    obtain ⟨b, s, rfl, hlo, hhi, h⟩ := (accepts_range rfl).1 h
    obtain ⟨c, s, rfl, hc, hc', h⟩ := (accepts_range rfl).1 h
    exact ⟨[a, b, c], s, .three (by grind) hin.2 ⟨hlo, hhi⟩ ⟨hc, hc'⟩ (by grind) (by grind), rfl, h⟩
  split at h
  · rename_i ha
    obtain ⟨b, s, rfl, hlo, hhi, h⟩ := (accepts_range rfl).1 h
    obtain ⟨c, s, rfl, hc, hc', h⟩ := (accepts_range rfl).1 h
    obtain ⟨d, s, rfl, hd, hd', h⟩ := (accepts_range rfl).1 h
    exact ⟨[a, b, c, d], s, .four (by grind) (by grind)
      (htail hlo hhi (by decide) (by decide)) ⟨hc, hc'⟩ ⟨hd, hd'⟩ (fun _ => hlo) (by grind), rfl, h⟩
  split at h
  · rename_i hin
    obtain ⟨b, s, rfl, hlo, hhi, h⟩ := (accepts_range rfl).1 h
    obtain ⟨c, s, rfl, hc, hc', h⟩ := (accepts_range rfl).1 h
    obtain ⟨d, s, rfl, hd, hd', h⟩ := (accepts_range rfl).1 h
    exact ⟨[a, b, c, d], s, .four (by grind) (by grind) ⟨hlo, hhi⟩ ⟨hc, hc'⟩ ⟨hd, hd'⟩
      (by grind) (by grind), rfl, h⟩
  split at h
  · rename_i ha
    obtain ⟨b, s, rfl, hlo, hhi, h⟩ := (accepts_range rfl).1 h
    obtain ⟨c, s, rfl, hc, hc', h⟩ := (accepts_range rfl).1 h
    obtain ⟨d, s, rfl, hd, hd', h⟩ := (accepts_range rfl).1 h
    exact ⟨[a, b, c, d], s, .four (by grind) (by grind)
      (htail hlo hhi (by decide) (by decide)) ⟨hc, hc'⟩ ⟨hd, hd'⟩ (by grind) (fun _ => hhi), rfl, h⟩
  · rename_i h₁ h₂ h₃ h₄ h₅ h₆ h₇ h₈
    rw [if_neg h₁, if_neg h₂, if_neg h₃, if_neg h₄, if_neg h₅, if_neg h₆, if_neg h₇,
      if_neg h₈] at hne
    exact absurd rfl hne

/-- The automaton decides the syntax. -/
theorem accepts_iff (l : Bytes) : Utf8Accepts 0 l ↔ ValidUtf8 l := by
  constructor
  · intro h
    induction hn : l.length using Nat.strong_induction_on generalizing l with
    | _ n ih =>
      cases l with
      | nil => exact .nil
      | cons a l =>
        obtain ⟨c, s, hc, heq, hs⟩ := exists_char h
        have hpos : 0 < c.length := by cases hc <;> exact Nat.succ_pos _
        have hlen := congrArg List.length heq
        rw [List.length_append] at hlen
        rw [heq]
        exact .cons hc (ih s.length (by omega) s hs rfl)
  · intro h
    induction h with
    | nil => rfl
    | cons hc _ ih => exact accepts_char hc ih

instance (s : Bytes) : Decidable (ValidUtf8 s) := decidable_of_iff _ (accepts_iff s)

end Terllama
