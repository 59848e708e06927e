import Fiscobcos.Lib.Numerals

/-! # JSON trees and records

How Go's `encoding/json` fills a record: members are taken in order, a member goes to the field of
the same name or else to one that differs only in case, `null` leaves a plain field alone, and a
member of the wrong type makes the decoding fail. -/

namespace Fiscobcos.JsonTree
open Numerals List Option

/-- The bytes of an ASCII text. -/
def ascii (s : String) : Bytes := s.toList.map fun c => lowByte c.toNat

/-- A number as written: an integer literal, or `mantissa * 10 ^ exponent` with a
fraction or an exponent. -/
inductive Number where
  | integer (z : ℤ)
  | decimal (mantissa exponent : ℤ)

/-- Strings are byte strings; members keep their order. -/
inductive Value where
  | null
  | bool (b : Bool)
  | num (n : Number)
  | str (s : Bytes)
  | arr (vs : List Value)
  | obj (ms : List (Bytes × Value))

def Number.value : Number → ℚ
  | .integer z => z
  | .decimal m e => m * 10 ^ e

def Number.InFloatRange (n : Number) : Prop := |n.value| < 2 ^ 1024 - 2 ^ 970

instance (n : Number) : Decidable n.InFloatRange := inferInstanceAs (Decidable (_ < _))

mutual

/-- Every number in the tree is a `float64`, as an `interface{}` needs it. -/
def Value.inFloatRange : Value → Bool
  | .num n => decide n.InFloatRange
  | .arr vs => allInFloatRange vs
  | .obj ms => membersInFloatRange ms
  | _ => true

def allInFloatRange : List Value → Bool
  | [] => true
  | v :: vs => v.inFloatRange && allInFloatRange vs

def membersInFloatRange : List (Bytes × Value) → Bool
  | [] => true
  | (_, v) :: ms => v.inFloatRange && membersInFloatRange ms

end

def decodeString (v : Value) (old : Bytes) : Option Bytes :=
  match v with
  | .null => some old
  | .str s => some s
  | _ => none

def decodeInt64 (v : Value) (old : ℤ) : Option ℤ :=
  match v with
  | .null => some old
  | .num (.integer z) => if -2 ^ 63 ≤ z ∧ z < 2 ^ 63 then some z else none
  | _ => none

def decodeAny (v : Value) : Option Value := if v.inFloatRange then some v else none

/-- Letters without their case; `ſ` and the Kelvin sign count as `s` and `k`. -/
def foldBytes : Bytes → Bytes
  | 0xC5 :: 0xBF :: rest => 115 :: foldBytes rest
  | 0xE2 :: 0x84 :: 0xAA :: rest => 107 :: foldBytes rest
  | b :: rest => (if 65 ≤ b.val ∧ b.val ≤ 90 then lowByte (b.val + 32) else b) :: foldBytes rest
  | [] => []

def fieldFor (names : List Bytes) (key : Bytes) : Option Bytes :=
  if key ∈ names then some key else names.find? fun name => foldBytes name = foldBytes key

def membersFor (names : List Bytes) (name : Bytes) (ms : List (Bytes × Value)) :
    List (Bytes × Value) :=
  ms.filter fun m => fieldFor names m.1 = some name

theorem fieldFor_eq_some_iff {names : List Bytes} (hnames : ∀ name ∈ names, foldBytes name = name)
    (key name : Bytes) : fieldFor names key = some name ↔ name ∈ names ∧ foldBytes key = name := by
  rw [fieldFor]
  split_ifs with hkey
  · rw [some.injEq, hnames key hkey]
    exact ⟨fun h => ⟨h ▸ hkey, h⟩, fun h => h.2⟩
  · constructor
    · intro h
      have hmem := mem_of_find?_eq_some h
      have hfold := find?_some h
      rw [decide_eq_true_eq, hnames name hmem] at hfold
      exact ⟨hmem, hfold.symm⟩
    · intro h
      cases hfind : names.find? fun n => foldBytes n = foldBytes key with
      | none =>
        have hno := find?_eq_none.mp hfind name h.1
        rw [decide_eq_true_eq, hnames name h.1] at hno
        exact absurd h.2.symm hno
      | some n =>
        have hfold := find?_some hfind
        rw [decide_eq_true_eq, hnames n (mem_of_find?_eq_some hfind), h.2] at hfold
        rw [hfold]

structure Layout (σ : Type) where
  names : List Bytes
  store : Bytes → Value → σ → Option σ

variable {σ : Type}

def Layout.decode (L : Layout σ) : List (Bytes × Value) → σ → Option σ
  | [], s => some s
  | (key, v) :: ms, s =>
    match fieldFor L.names key with
    | none => L.decode ms s
    | some name => (L.store name v s).bind (L.decode ms)

variable {s s' : σ}

theorem Layout.decode_field (L : Layout σ) {name : Bytes} {v : Value}
    (hname : name ∈ L.names) (hs : L.store name v s = some s') (ms : List (Bytes × Value)) :
    L.decode ((name, v) :: ms) s = L.decode ms s' := by
  have hfield : fieldFor L.names name = some name := if_pos hname
  rw [Layout.decode, hfield]
  show (L.store name v s).bind (L.decode ms) = _
  rw [hs, bind_some]

def Layout.decodeValue (L : Layout σ) (v : Value) (s : σ) : Option σ :=
  match v with
  | .null => some s
  | .obj ms => L.decode ms s
  | _ => none

def Layout.decodePtr (L : Layout σ) (zero : σ) (v : Value) (s : Option σ) : Option (Option σ) :=
  match v with
  | .null => some none
  | .obj ms => (L.decode ms (s.getD zero)).map some
  | _ => none

def decodeSlice {α : Type} (elem : Value → Option α) (v : Value) : Option (List α) :=
  match v with
  | .null => some []
  | .arr vs => vs.mapM elem
  | _ => none

theorem Layout.decode_isSome (L : Layout σ) (Accepts : Bytes → Value → Prop)
    (haccepts : ∀ name v s, (L.store name v s).isSome ↔ Accepts name v)
    (ms : List (Bytes × Value)) (s : σ) : (L.decode ms s).isSome ↔
      ∀ name, ∀ m ∈ membersFor L.names name ms, Accepts name m.2 := by
  induction ms generalizing s with
  | nil => simp [Layout.decode, membersFor]
  | cons m ms ih =>
    obtain ⟨key, v⟩ := m
    have hsplit : (∀ name, ∀ m ∈ membersFor L.names name ((key, v) :: ms), Accepts name m.2) ↔
        (∀ name, fieldFor L.names key = some name → Accepts name v) ∧
        ∀ name, ∀ m ∈ membersFor L.names name ms, Accepts name m.2 := by
      simp only [membersFor, mem_filter, mem_cons, decide_eq_true_eq]
      constructor
      · intro h
        exact ⟨fun name hn => h name (key, v) ⟨.inl rfl, hn⟩,
          fun name m hm => h name m ⟨.inr hm.1, hm.2⟩⟩
      · rintro ⟨hhead, htail⟩ name m ⟨rfl | hm, hn⟩
        · exact hhead name hn
        · exact htail name m ⟨hm, hn⟩
    rw [hsplit, Layout.decode]
    cases hf : fieldFor L.names key with
    | none =>
      rw [ih s]
      exact ⟨fun h => ⟨nofun, h⟩, fun h => h.2⟩
    | some name =>
      have hhead := haccepts name v s
      show ((L.store name v s).bind (L.decode ms)).isSome ↔ _
      cases hst : L.store name v s with
      | none =>
        rw [hst] at hhead
        refine ⟨fun h => absurd h Bool.false_ne_true, fun h => ?_⟩
        exact absurd (hhead.mpr (h.1 name rfl)) Bool.false_ne_true
      | some s' =>
        rw [hst] at hhead
        have haccept := hhead.mp rfl
        rw [bind_some, ih s']
        refine ⟨fun h => ⟨fun name' hn => ?_, h⟩, fun h => h.2⟩
        cases hn
        exact haccept

variable {ms : List (Bytes × Value)}

section Parts
variable {β : Type} (L : Layout σ) (π : σ → β) (name : Bytes)
  (hother : ∀ name' v s s', name' ≠ name → L.store name' v s = some s' → π s' = π s)
include hother

theorem Layout.decode_untouched
    (hms : membersFor L.names name ms = []) (h : L.decode ms s = some s') : π s' = π s := by
  induction ms generalizing s with
  | nil =>
    cases h
    rfl
  | cons m ms ih =>
    obtain ⟨key, v⟩ := m
    rw [membersFor, filter_cons] at hms
    split_ifs at hms with hkey
    rw [decide_eq_true_eq] at hkey
    rw [Layout.decode] at h
    cases hf : fieldFor L.names key with
    | none =>
      rw [hf] at h
      exact ih hms h
    | some name' =>
      rw [hf] at h
      obtain ⟨t, ht, htail⟩ := bind_eq_some_iff.mp h
      have hne : name' ≠ name := by
        rintro rfl
        exact hkey hf
      rw [ih hms htail, hother name' v s t hne ht]

theorem Layout.decode_single {m : Bytes × Value}
    (hms : membersFor L.names name ms = [m]) (h : L.decode ms s = some s') :
    ∃ t t', π t = π s ∧ L.store name m.2 t = some t' ∧ π s' = π t' := by
  induction ms generalizing s with
  | nil => cases hms
  | cons m' ms ih =>
    obtain ⟨key, v⟩ := m'
    rw [membersFor, filter_cons] at hms
    rw [Layout.decode] at h
    split_ifs at hms with hkey
    · rw [decide_eq_true_eq] at hkey
      rw [hkey] at h
      obtain ⟨t, ht, htail⟩ := bind_eq_some_iff.mp h
      injection hms with hm hrest
      subst hm
      exact ⟨s, t, rfl, ht, L.decode_untouched π name hother hrest htail⟩
    · rw [decide_eq_true_eq] at hkey
      cases hf : fieldFor L.names key with
      | none =>
        rw [hf] at h
        exact ih hms h
      | some name' =>
        rw [hf] at h
        obtain ⟨t, ht, htail⟩ := bind_eq_some_iff.mp h
        have hne : name' ≠ name := by
          rintro rfl
          exact hkey hf
        obtain ⟨t₁, t₂, h₁, hst, h₂⟩ := ih hms htail
        exact ⟨t₁, t₂, by rw [h₁, hother name' v s t hne ht], hst, h₂⟩

theorem Layout.decode_lastOf {c : Value → List β}
    (hstore : ∀ v s s', L.store name v s = some s' → π s' = (c v).getLast?.getD (π s))
    (h : L.decode ms s = some s') :
    π s' = (((membersFor L.names name ms).flatMap fun m => c m.2).getLast?).getD (π s) := by
  induction ms generalizing s with
  | nil =>
    cases h
    rfl
  | cons m ms ih =>
    obtain ⟨key, v⟩ := m
    rw [Layout.decode] at h
    rw [membersFor, filter_cons]
    cases hf : fieldFor L.names key with
    | none =>
      rw [hf] at h
      rw [if_neg (by simp)]
      exact ih h
    | some name' =>
      rw [hf] at h
      obtain ⟨t, ht, htail⟩ := bind_eq_some_iff.mp h
      have hrest := ih htail
      by_cases hname : name' = name
      · subst hname
        rw [hstore v s t ht] at hrest
        rw [if_pos (by simp), flatMap_cons, getLast?_append, hrest, membersFor]
        cases (flatMap (fun m : Bytes × Value => c m.2) (filter
          (fun m => decide (fieldFor L.names m.1 = some name')) ms)).getLast? <;> rfl
      · rw [if_neg (by simpa using hname)]
        rwa [hother name' v s t hname ht] at hrest

theorem Layout.decode_last {g : Value → β}
    (hstore : ∀ v s s', L.store name v s = some s' → π s' = g v) (h : L.decode ms s = some s') :
    π s' = ((membersFor L.names name ms).getLast?.map fun m => g m.2).getD (π s) := by
  have hlast := L.decode_lastOf π name hother (c := fun v => [g v]) hstore h
  rwa [← map_eq_flatMap, getLast?_map] at hlast

end Parts

theorem mapM_eq_some_iff {α β : Type} {f : α → Option β} {xs : List α} {ys : List β} :
    xs.mapM f = some ys ↔ Forall₂ (fun x y => f x = some y) xs ys := by
  induction xs generalizing ys with
  | nil =>
    rw [mapM_nil, forall₂_nil_left_iff]
    exact ⟨fun h => (some.inj h).symm, fun h => h ▸ rfl⟩
  | cons x xs ih =>
    rw [mapM_cons, forall₂_cons_left_iff]
    constructor
    · intro h
      obtain ⟨y, hy, h⟩ := bind_eq_some_iff.mp h
      obtain ⟨zs, hzs, h⟩ := bind_eq_some_iff.mp h
      exact ⟨y, zs, hy, ih.mp hzs, (some.inj h).symm⟩
    · rintro ⟨y, zs, hy, hzs, rfl⟩
      rw [hy, ih.mpr hzs]
      rfl

theorem mapM_eq_none_iff {α β : Type} {f : α → Option β} {xs : List α} :
    xs.mapM f = none ↔ ∃ x ∈ xs, f x = none := by
  induction xs with
  | nil => simp
  | cons x xs ih =>
    rw [mapM_cons]
    cases hx : f x with
    | none => simp [hx]
    | some y =>
      cases hxs : xs.mapM f with
      | none => simpa [hx, hxs] using ih.mp hxs
      | some ys => simpa [hx, hxs] using ih

end Fiscobcos.JsonTree
