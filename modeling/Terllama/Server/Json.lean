import Terllama.Base.Decimal
import Terllama.Base.Utf8

/-!
# JSON values and their text

The part of `third_party/json.hpp` that the server's streams use: values, objects with their members
in the order of the keys, and `dump` without an indentation. A string is written with its control
characters, quotes and backslashes escaped, and `dump` throws on one that is not UTF-8
(`dumpEscaped_isOk_iff`). The text of a value is one line (`Json.dump_oneLine`).
-/

namespace Terllama

/-- A JSON value. The members of an object are sorted by their keys. -/
inductive Json where
  | null
  | integer (n : Int)
  | string (s : Bytes)
  | array (elems : List Json)
  | object (members : List (Bytes × Json))

/-- The insertion into a `std::map`, which keeps a member that is there already. -/
def insertMember (key : Bytes) (value : Json) : List (Bytes × Json) → List (Bytes × Json)
  | [] => [(key, value)]
  | (k, v) :: members =>
    if key < k then (key, value) :: (k, v) :: members
    else if key = k then (k, v) :: members
    else (k, v) :: insertMember key value members

/-- An object from an initializer list of its members. -/
def Json.ofMembers (members : List (String × Json)) : Json :=
  .object (members.foldl (fun acc m => insertMember (str m.1) m.2 acc) [])

/-! ## Strings -/

/-- A lowercase hexadecimal digit. -/
def hexDigit (n : Nat) : UInt8 := UInt8.ofNat (if n < 10 then 48 + n else 87 + n)

/-- `hex_bytes`, with uppercase digits. -/
def hexBytes (b : UInt8) : String :=
  let digit := fun n => "0123456789ABCDEF".toList.getD n '0'
  String.ofList [digit (b.toNat / 16), digit (b.toNat % 16)]

/-- What `dump_escaped` writes at the last byte of a code point. -/
def escape (codepoint : UInt32) (byte : UInt8) : Bytes :=
  if codepoint = 0x08 then str "\\b"
  else if codepoint = 0x09 then str "\\t"
  else if codepoint = 0x0A then str "\\n"
  else if codepoint = 0x0C then str "\\f"
  else if codepoint = 0x0D then str "\\r"
  else if codepoint = 0x22 then str "\\\""
  else if codepoint = 0x5C then str "\\\\"
  else if codepoint ≤ 0x1F then
    str "\\u00" ++ [hexDigit (codepoint.toNat / 16), hexDigit (codepoint.toNat % 16)]
  else [byte]

/-- The code point of `decode` after a byte. -/
def nextCodepoint (state : Nat) (codepoint : UInt32) (byte : UInt8) : UInt32 :=
  if state ≠ 0 then (byte.toUInt32 &&& (0x3F : UInt32)) ||| (codepoint <<< (6 : UInt32))
  else ((0xFF : UInt32) >>> UInt32.ofNat (utf8Class byte)) &&& byte.toUInt32

/-- The loop of `dump_escaped` from byte `i` on, which follows `last`. -/
def dumpEscapedFrom (i : Nat) (last : UInt8) (state : Nat) (codepoint : UInt32) :
    Bytes → Exec Bytes
  | [] =>
    if state = 0 then .ok []
    else raise ("[json.exception.type_error.316] incomplete UTF-8 string; last byte: 0x" ++
      hexBytes last)
  | byte :: s =>
    let next := utf8Next state byte
    let codepoint := nextCodepoint state codepoint byte
    if next = 1 then
      raise ("[json.exception.type_error.316] invalid UTF-8 byte at index " ++ toString i ++
        ": 0x" ++ hexBytes byte)
    else do
      let rest ← dumpEscapedFrom (i + 1) byte next codepoint s
      return (if next = 0 then escape codepoint byte else [byte]) ++ rest

/-- `dump_escaped`, with `ensure_ascii` off and the strict error handler. -/
def dumpEscaped (s : Bytes) : Exec Bytes := dumpEscapedFrom 0 0 0 0 s

/-! ## Values -/

mutual

/-- `dump` without an indentation. -/
def Json.dump : Json → Exec Bytes
  | .null => .ok (str "null")
  | .integer n => .ok (signedDecimal n)
  | .string s => do return str "\"" ++ (← dumpEscaped s) ++ str "\""
  | .array elems => do return str "[" ++ (← dumpElems elems) ++ str "]"
  | .object members => do return str "\x7b" ++ (← dumpMembers members) ++ str "\x7d"

/-- The elements of an array. -/
def dumpElems : List Json → Exec Bytes
  | [] => .ok []
  | [v] => v.dump
  | v :: vs => do return (← v.dump) ++ str "," ++ (← dumpElems vs)

/-- The members of an object. -/
def dumpMembers : List (Bytes × Json) → Exec Bytes
  | [] => .ok []
  | [(key, v)] => do return str "\"" ++ (← dumpEscaped key) ++ str "\":" ++ (← v.dump)
  | (key, v) :: ms => do
    return str "\"" ++ (← dumpEscaped key) ++ str "\":" ++ (← v.dump) ++ str "," ++
      (← dumpMembers ms)

end

/-! ## What is escaped -/

/-- The loop returns exactly where the automaton accepts. -/
theorem dumpEscapedFrom_isOk_iff (i : Nat) (last : UInt8) (state : Nat) (codepoint : UInt32)
    (s : Bytes) :
    (∃ out, dumpEscapedFrom i last state codepoint s = .ok out) ↔ Utf8Accepts state s := by
  induction s generalizing i last state codepoint with
  | nil =>
    rw [dumpEscapedFrom, Utf8Accepts]
    split
    · rename_i h
      exact iff_of_true ⟨_, rfl⟩ h
    · rename_i h
      refine iff_of_false ?_ h
      rintro ⟨out, h⟩
      exact raise_ne_ok _ _ h
  | cons byte s ih =>
    rw [dumpEscapedFrom, Utf8Accepts]
    split
    · rename_i hreject
      refine iff_of_false ?_ fun h => h.1 hreject
      rintro ⟨out, h⟩
      exact raise_ne_ok _ _ h
    · rename_i haccept
      rw [← ih (i + 1) byte (utf8Next state byte) (nextCodepoint state codepoint byte)]
      constructor
      · rintro ⟨out, h⟩
        obtain ⟨rest, hrest, -⟩ := bind_eq_ok.1 h
        exact ⟨haccept, rest, hrest⟩
      · rintro ⟨-, rest, hrest⟩
        exact ⟨_, by rw [hrest]; rfl⟩

/-- `dump_escaped` throws exactly on a string that is not UTF-8. -/
theorem dumpEscaped_isOk_iff (s : Bytes) : (∃ out, dumpEscaped s = .ok out) ↔ ValidUtf8 s := by
  rw [dumpEscaped, dumpEscapedFrom_isOk_iff, accepts_iff]

/-- A string that is written as it stands: printable ASCII without quotes and backslashes. -/
def Plain (s : Bytes) : Prop := ∀ b ∈ s, 0x20 ≤ b ∧ b ≤ 0x7F ∧ b ≠ 0x22 ∧ b ≠ 0x5C

instance (s : Bytes) : Decidable (Plain s) :=
  List.decidableBAll (fun b => 0x20 ≤ b ∧ b ≤ 0x7F ∧ b ≠ 0x22 ∧ b ≠ 0x5C) s

theorem Plain.append {s t : Bytes} (hs : Plain s) (ht : Plain t) : Plain (s ++ t) :=
  List.forall_mem_append.2 ⟨hs, ht⟩

theorem escape_plain :
    ∀ byte : UInt8, 0x20 ≤ byte ∧ byte ≤ 0x7F ∧ byte ≠ 0x22 ∧ byte ≠ 0x5C →
      utf8Next 0 byte = 0 ∧ escape (nextCodepoint 0 0 byte) byte = [byte] :=
  forall_byte (by decide +kernel)

theorem dumpEscaped_plain {s : Bytes} (h : Plain s) : dumpEscaped s = .ok s := by
  have hloop : ∀ i last codepoint, dumpEscapedFrom i last 0 codepoint s = .ok s := by
    induction s with
    | nil => exact fun i last codepoint => rfl
    | cons byte s ih =>
      intro i last codepoint
      obtain ⟨hbyte, hs⟩ := List.forall_mem_cons.1 h
      obtain ⟨hnext, hescape⟩ := escape_plain byte hbyte
      have hcodepoint : nextCodepoint 0 codepoint byte = nextCodepoint 0 0 byte := rfl
      rw [dumpEscapedFrom, hnext, if_neg (by decide), ih hs, ok_bind, if_pos rfl, hcodepoint,
        hescape]
      rfl
  exact hloop 0 0 0

theorem plain_signedDecimal (n : Int) : Plain (signedDecimal n) := by
  intro b hb
  rcases mem_signedDecimal hb with rfl | hdigit
  · decide
  · simp only [isDigit, Bool.and_eq_true, decide_eq_true_eq] at hdigit
    grind

/-! ## A value is written on one line -/

/-- No newline is in the text. -/
def OneLine (s : Bytes) : Prop := (10 : UInt8) ∉ s

instance (s : Bytes) : Decidable (OneLine s) := inferInstanceAs (Decidable (10 ∉ s))

theorem OneLine.append {s t : Bytes} (hs : OneLine s) (ht : OneLine t) : OneLine (s ++ t) :=
  fun h => (List.mem_append.1 h).elim hs ht

theorem Plain.oneLine {s : Bytes} (h : Plain s) : OneLine s :=
  fun hmem => absurd (h 10 hmem).1 (by decide)

theorem hexDigit_ne_newline : ∀ n < 16, hexDigit n ≠ 10 := by
  decide

theorem oneLine_escape {codepoint : UInt32} {byte : UInt8} (h : byte = 10 → codepoint = 10) :
    OneLine (escape codepoint byte) := by
  unfold escape OneLine
  repeat' split
  · decide
  · decide
  · decide
  · decide
  · decide
  · decide
  · decide
  · rename_i hle
    have hlt : codepoint.toNat ≤ 31 := UInt32.le_iff_toNat_le.1 hle
    rw [List.mem_append, not_or, List.mem_cons, not_or, List.mem_singleton]
    exact ⟨by decide, (hexDigit_ne_newline _ (by omega)).symm,
      (hexDigit_ne_newline _ (by omega)).symm⟩
  · rename_i hne _ _ _ _ _
    rw [List.mem_singleton]
    intro hbyte
    exact hne (h hbyte.symm)

/-- Inside a character the automaton rejects a newline. -/
theorem utf8Next_newline {state : Nat} (h : utf8Next state 10 ≠ 1) : state = 0 := by
  match state with
  | 0 => rfl
  | 1 | 2 | 3 | 4 | 5 | 6 | 7 | 8 => exact absurd rfl h
  | _ + 9 => exact absurd rfl h

theorem oneLine_dumpEscapedFrom {s : Bytes} {i : Nat} {last : UInt8} {state : Nat}
    {codepoint : UInt32} {out : Bytes} (h : dumpEscapedFrom i last state codepoint s = .ok out) :
    OneLine out := by
  induction s generalizing i last state codepoint out with
  | nil =>
    rw [dumpEscapedFrom] at h
    split at h
    · cases h
      exact List.not_mem_nil
    · cases h
  | cons byte s ih =>
    rw [dumpEscapedFrom] at h
    split at h
    · cases h
    · rename_i hnext
      obtain ⟨rest, hrest, h⟩ := bind_eq_ok.1 h
      cases h
      refine OneLine.append ?_ (ih hrest)
      split
      · refine oneLine_escape fun hbyte => ?_
        subst hbyte
        cases utf8Next_newline hnext
        rfl
      · rename_i hmid
        intro hmem
        cases List.mem_singleton.1 hmem
        cases utf8Next_newline hnext
        exact hmid rfl

theorem oneLine_dumpEscaped {s out : Bytes} (h : dumpEscaped s = .ok out) : OneLine out :=
  oneLine_dumpEscapedFrom h

mutual

/-- The text of a value is one line. -/
theorem Json.dump_oneLine {j : Json} {out : Bytes} (h : j.dump = .ok out) : OneLine out := by
  match j with
  | .null =>
    cases h
    decide
  | .integer n =>
    cases h
    exact (plain_signedDecimal n).oneLine
  | .string s =>
    rw [Json.dump] at h
    obtain ⟨body, hbody, h⟩ := bind_eq_ok.1 h
    cases h
    exact ((show OneLine (str "\"") by decide).append (oneLine_dumpEscaped hbody)).append (by decide)
  | .array elems =>
    rw [Json.dump] at h
    obtain ⟨body, hbody, h⟩ := bind_eq_ok.1 h
    cases h
    exact ((show OneLine (str "[") by decide).append (dumpElems_oneLine hbody)).append (by decide)
  | .object members =>
    rw [Json.dump] at h
    obtain ⟨body, hbody, h⟩ := bind_eq_ok.1 h
    cases h
    exact ((show OneLine (str "\x7b") by decide).append (dumpMembers_oneLine hbody)).append
      (by decide)

theorem dumpElems_oneLine {elems : List Json} {out : Bytes} (h : dumpElems elems = .ok out) :
    OneLine out := by
  match elems with
  | [] =>
    cases h
    decide
  | [v] => exact v.dump_oneLine h
  | v :: w :: vs =>
    rw [dumpElems] at h
    · obtain ⟨first, hfirst, h⟩ := bind_eq_ok.1 h
      obtain ⟨rest, hrest, h⟩ := bind_eq_ok.1 h
      cases h
      exact ((v.dump_oneLine hfirst).append (by decide)).append (dumpElems_oneLine hrest)
    · exact nofun

theorem dumpMembers_oneLine {members : List (Bytes × Json)} {out : Bytes}
    (h : dumpMembers members = .ok out) : OneLine out := by
  match members with
  | [] =>
    cases h
    decide
  | [(key, v)] =>
    rw [dumpMembers] at h
    obtain ⟨k, hk, h⟩ := bind_eq_ok.1 h
    obtain ⟨body, hbody, h⟩ := bind_eq_ok.1 h
    cases h
    exact (((show OneLine (str "\"") by decide).append (oneLine_dumpEscaped hk)).append
      (by decide)).append (v.dump_oneLine hbody)
  | (key, v) :: m :: ms =>
    rw [dumpMembers] at h
    · obtain ⟨k, hk, h⟩ := bind_eq_ok.1 h
      obtain ⟨body, hbody, h⟩ := bind_eq_ok.1 h
      obtain ⟨rest, hrest, h⟩ := bind_eq_ok.1 h
      cases h
      exact (((((show OneLine (str "\"") by decide).append (oneLine_dumpEscaped hk)).append
        (by decide)).append (v.dump_oneLine hbody)).append (by decide)).append
        (dumpMembers_oneLine hrest)
    · exact nofun

end

end Terllama
