import Fiscobcos.Lib.JsonTree

/-! # Texts of flat JSON objects

The members are strings of letters and digits or `null`, so every reader of JSON gives one reading.
-/

namespace Fiscobcos.FlatJson
open Numerals JsonTree

def letterOrDigit (b : Byte) : Bool :=
  (48 ≤ b.val && b.val ≤ 57) || (65 ≤ b.val && b.val ≤ 90) || (97 ≤ b.val && b.val ≤ 122)

def Plain (s : Bytes) : Prop := ∀ b ∈ s, letterOrDigit b = true

instance (s : Bytes) : Decidable (Plain s) :=
  decidable_of_iff (s.all letterOrDigit = true) List.all_eq_true

theorem Plain.append {s t : Bytes} (hs : Plain s) (ht : Plain t) : Plain (s ++ t) := by
  intro b hb
  rcases List.mem_append.mp hb with hb | hb
  · exact hs b hb
  · exact ht b hb

def quoted (s : Bytes) : Bytes := [34] ++ s ++ [34]

def nullText : Bytes := [110, 117, 108, 108]

def memberText (m : Bytes × Bytes) : Bytes := quoted m.1 ++ [58] ++ m.2

def membersText : List (Bytes × Bytes) → Bytes
  | [] => []
  | [m] => memberText m
  | m :: ms => memberText m ++ [44] ++ membersText ms

def objectText (ms : List (Bytes × Bytes)) : Bytes := [123] ++ membersText ms ++ [125]

def PlainMember (m : Bytes × Bytes) : Prop :=
  Plain m.1 ∧ (m.2 = nullText ∨ ∃ s, Plain s ∧ m.2 = quoted s)

structure ObjectReader where
  members : Bytes → Option (List (Bytes × Bytes))
  members_text : ∀ ms, (∀ m ∈ ms, PlainMember m) → members (objectText ms) = some ms

def flatValue : Bytes → Option (Bytes × Bytes)
  | 34 :: rest =>
    match rest.span letterOrDigit with
    | (s, 34 :: rest) => some (quoted s, rest)
    | _ => none
  | 110 :: 117 :: 108 :: 108 :: rest => some (nullText, rest)
  | _ => none

def flatMember : Bytes → Option ((Bytes × Bytes) × Bytes)
  | 34 :: rest =>
    match rest.span letterOrDigit with
    | (key, 34 :: 58 :: rest) => (flatValue rest).map fun v => ((key, v.1), v.2)
    | _ => none
  | _ => none

def flatMembers : ℕ → Bytes → Option (List (Bytes × Bytes))
  | 0, _ => none
  | n + 1, text =>
    match flatMember text with
    | some (m, [125]) => some [m]
    | some (m, 44 :: rest) => (flatMembers n rest).map (m :: ·)
    | _ => none

def flatObject : Bytes → Option (List (Bytes × Bytes))
  | [123, 125] => some []
  | 123 :: rest => flatMembers rest.length rest
  | _ => none

theorem span_plain {s rest : Bytes} (hs : Plain s) :
    (s ++ 34 :: rest).span letterOrDigit = (s, 34 :: rest) := by
  have hstop : letterOrDigit 34 = false := by decide
  rw [List.span_eq_takeWhile_dropWhile, List.takeWhile_append_of_pos hs,
    List.dropWhile_append_of_pos hs]
  simp [hstop]

theorem flatValue_quoted {s : Bytes} (hs : Plain s) (rest : Bytes) :
    flatValue (quoted s ++ rest) = some (quoted s, rest) := by
  have hsplit : quoted s ++ rest = 34 :: (s ++ 34 :: rest) := by simp [quoted]
  rw [hsplit, flatValue, span_plain hs]
  rfl

theorem flatMember_text {m : Bytes × Bytes} (hm : PlainMember m) (rest : Bytes) :
    flatMember (memberText m ++ rest) = some (m, rest) := by
  obtain ⟨key, v⟩ := m
  obtain ⟨hkey, hv⟩ := hm
  have hvalue : flatValue (v ++ rest) = some (v, rest) := by
    rcases hv with rfl | ⟨s, hs, rfl⟩
    · rfl
    · exact flatValue_quoted hs rest
  have hsplit : memberText (key, v) ++ rest = 34 :: (key ++ 34 :: (58 :: (v ++ rest))) := by
    simp [memberText, quoted]
  rw [hsplit, flatMember, span_plain hkey]
  simp only [hvalue, Option.map_some]

theorem memberText_length_pos (m : Bytes × Bytes) : 0 < (memberText m).length := by
  simp [memberText, quoted]

theorem flatMembers_text {ms : List (Bytes × Bytes)} (hne : ms ≠ [])
    (hms : ∀ m ∈ ms, PlainMember m) {n : ℕ} (hn : (membersText ms).length < n) :
    flatMembers n (membersText ms ++ [125]) = some ms := by
  induction ms generalizing n with
  | nil => exact absurd rfl hne
  | cons m ms ih =>
    obtain ⟨n, rfl⟩ : ∃ k, n = k + 1 := ⟨n - 1, by omega⟩
    have hm := hms m (by simp)
    cases ms with
    | nil => simp only [flatMembers, membersText, flatMember_text hm]
    | cons m' ms =>
      have hpos := memberText_length_pos m
      simp only [membersText, List.length_append] at hn
      have htail := @ih (by simp) (fun x hx => hms x (by simp [hx])) n (by omega)
      have hsplit : membersText (m :: m' :: ms) ++ [125] =
          memberText m ++ 44 :: (membersText (m' :: ms) ++ [125]) := by
        simp [membersText]
      rw [hsplit, flatMembers, flatMember_text hm]
      simp only [htail, Option.map_some]

/-- The readings of flat objects, and of nothing else. -/
def flatReader : ObjectReader where
  members := flatObject
  members_text := by
    intro ms hms
    cases ms with
    | nil => rfl
    | cons m ms =>
      have hquote : membersText (m :: ms) ++ [125] ≠ [125] := by
        have hpos := memberText_length_pos m
        intro h
        have hlen := congrArg List.length h
        cases ms <;> simp only [membersText, List.length_append, List.length_singleton] at hlen <;>
          omega
      show flatObject (123 :: (membersText (m :: ms) ++ [125])) = _
      rw [flatObject]
      · exact flatMembers_text (by simp) hms (by simp)
      · exact hquote

end Fiscobcos.FlatJson
