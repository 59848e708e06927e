import Fiscobcos.Rlp.Encode

/-! # RLP decoding stream (rlp/decode.go)

`Reads s bs s'` says that the stream went from `s` to `s'` by consuming exactly the bytes `bs`; each
operation is characterised by the bytes it consumes when it succeeds. -/

namespace Fiscobcos.Rlp
open List Option

open Fiscobcos.Numerals Fiscobcos.RlpFormat

inductive StreamError where
  | eol
  | eof
  | unexpectedEOF
  | expectedString
  | expectedList
  | canonInt
  | canonSize
  | elemTooLarge
  | valueTooLarge
  | moreThanOneValue
  | notInList
  | notAtEOL
  | uintOverflow
  | invalidBool (num : ℕ)
deriving DecidableEq, Repr

def StreamError.message : StreamError → String
  | .eol => "rlp: end of list"
  | .eof => "EOF"
  | .unexpectedEOF => "unexpected EOF"
  | .expectedString => "rlp: expected String or Byte"
  | .expectedList => "rlp: expected List"
  | .canonInt => "rlp: non-canonical integer format"
  | .canonSize => "rlp: non-canonical size information"
  | .elemTooLarge => "rlp: element is larger than containing list"
  | .valueTooLarge => "rlp: value size exceeds available input length"
  | .moreThanOneValue => "rlp: input contains more than one value"
  | .notInList => "rlp: call of ListEnd outside of any list"
  | .notAtEOL => "rlp: call of ListEnd not positioned at EOL"
  | .uintOverflow => "rlp: uint overflow"
  | .invalidBool num => "rlp: invalid boolean value: " ++ num.repr

structure ListPos where
  pos : ℕ
  size : ℕ
deriving DecidableEq, Repr

/-- `kind = none` is the source's `-1`: the header of the next value has not been read. The
innermost list is the first of `stack`. -/
structure Stream where
  input : Bytes
  remaining : ℕ
  limited : Bool
  kind : Option Kind
  size : ℕ
  byteval : Byte
  kinderr : Option StreamError
  stack : List ListPos
deriving DecidableEq, Repr

/-! Arithmetic of `uint64`. -/

def add64 (a b : ℕ) : ℕ := (a + b) % 2 ^ 64
def sub64 (a b : ℕ) : ℕ := (a + (2 ^ 64 - b)) % 2 ^ 64

namespace Stream

def reset (b : Bytes) (inputLimit : ℕ) : Stream :=
  { input := b
    remaining := if 0 < inputLimit then inputLimit else b.length
    limited := true
    kind := none
    size := 0
    byteval := 0
    kinderr := none
    stack := [] }

def chargeLimit (s : Stream) (n : ℕ) : Except StreamError Unit × Stream :=
  if s.limited then
    if n > s.remaining then (.error .valueTooLarge, s)
    else (.ok (), { s with remaining := s.remaining - n })
  else (.ok (), s)

def willRead (s : Stream) (n : ℕ) : Except StreamError Unit × Stream :=
  match s.stack with
  | [] => chargeLimit { s with kind := none } n
  | tos :: lists =>
    if n > sub64 tos.size tos.pos then (.error .elemTooLarge, { s with kind := none })
    else
      chargeLimit { s with kind := none, stack := ⟨add64 tos.pos n, tos.size⟩ :: lists } n

def readFull (s : Stream) (n : ℕ) : Except StreamError Bytes × Stream :=
  match s.willRead n with
  | (.error e, s) => (.error e, s)
  | (.ok _, s) =>
    if n ≤ s.input.length then (.ok (s.input.take n), { s with input := s.input.drop n })
    else (.error .unexpectedEOF, { s with input := [] })

def readByte (s : Stream) : Except StreamError Byte × Stream :=
  match s.willRead 1 with
  | (.error e, s) => (.error e, s)
  | (.ok _, s) =>
    match s.input with
    | [] => (.error .unexpectedEOF, s)
    | b :: rest => (.ok b, { s with input := rest })

def readUint (s : Stream) : ℕ → Except StreamError ℕ × Stream
  | 0 => (.ok 0, { s with kind := none })
  | 1 =>
    match s.readByte with
    | (.error e, s) => (.error e, s)
    | (.ok b, s) => (.ok b.val, s)
  | size =>
    match s.readFull size with
    | (.error e, s) => (.error e, s)
    | (.ok buf, s) => if buf.head? = some 0 then (.error .canonSize, s) else (.ok (beVal buf), s)

def readSize (s : Stream) (kind : Kind) (n : ℕ) : (Kind × ℕ × Option StreamError) × Stream :=
  match s.readUint n with
  | (.error e, s) => ((kind, 0, some e), s)
  | (.ok size, s) => ((kind, size, if size < 56 then some .canonSize else none), s)

/-- At top level the end of the input is reported as `io.EOF`. -/
def adjustEOF (s : Stream) (e : StreamError) : StreamError :=
  if s.stack = [] ∧ (e = .unexpectedEOF ∨ e = .valueTooLarge) then .eof else e

def readKind (s : Stream) : (Kind × ℕ × Option StreamError) × Stream :=
  match s.readByte with
  | (.error e, s) => ((.byte, 0, some (s.adjustEOF e)), s)
  | (.ok b, s) =>
    if b.val < 0x80 then ((.byte, 0, none), { s with byteval := b })
    else if b.val < 0xB8 then ((.string, b.val - 0x80, none), { s with byteval := 0 })
    else if b.val < 0xC0 then readSize { s with byteval := 0 } .string (b.val - 0xB7)
    else if b.val < 0xF8 then ((.list, b.val - 0xC0, none), { s with byteval := 0 })
    else readSize { s with byteval := 0 } .list (b.val - 0xF7)

def atEnd (s : Stream) : Bool :=
  match s.stack with
  | [] => false
  | tos :: _ => tos.pos = tos.size

def oversize (s : Stream) (size : ℕ) : Option StreamError :=
  match s.stack with
  | [] => if s.limited ∧ size > s.remaining then some .valueTooLarge else none
  | tos :: _ => if size > sub64 tos.size tos.pos then some .elemTooLarge else none

def noError (s : Stream) : Stream := { s with kinderr := none }

def remember (s : Stream) (kind : Kind) (size : ℕ) (kinderr : Option StreamError) :
    (Kind × ℕ × Option StreamError) × Stream :=
  ((kind, size, kinderr), { s with kind := some kind, size := size, kinderr := kinderr })

def readAhead (s : Stream) : (Kind × ℕ × Option StreamError) × Stream :=
  match s.readKind with
  | ((k, n, some e), s) => s.remember k n (some e)
  | ((k, n, none), s) => s.remember k n (s.oversize n)

/-- The source's `Kind`: kind, size and error of the value ahead. -/
def nextKind (s : Stream) : (Kind × ℕ × Option StreamError) × Stream :=
  match s.kind with
  | some k => ((k, s.size, s.kinderr), s)
  | none => if s.atEnd then ((.byte, 0, some .eol), s.noError) else s.noError.readAhead

def bytes (s : Stream) : Except StreamError Bytes × Stream :=
  match s.nextKind with
  | ((_, _, some e), s) => (.error e, s)
  | ((.byte, _, none), s) => (.ok [s.byteval], { s with kind := none })
  | ((.string, size, none), s) =>
    match s.readFull size with
    | (.error e, s) => (.error e, s)
    | (.ok b, s) => if isOwnCode b then (.error .canonSize, s) else (.ok b, s)
  | ((.list, _, none), s) => (.error .expectedString, s)

def uint (s : Stream) (maxbits : ℕ) : Except StreamError ℕ × Stream :=
  match s.nextKind with
  | ((_, _, some e), s) => (.error e, s)
  | ((.byte, _, none), s) =>
    if s.byteval = 0 then (.error .canonInt, s) else (.ok s.byteval.val, { s with kind := none })
  | ((.string, size, none), s) =>
    if size > maxbits / 8 then (.error .uintOverflow, s)
    else
      match s.readUint size with
      | (.error e, s) => (.error (if e = .canonSize then .canonInt else e), s)
      | (.ok v, s) => if 0 < size ∧ v < 128 then (.error .canonSize, s) else (.ok v, s)
  | ((.list, _, none), s) => (.error .expectedString, s)

def bool (s : Stream) : Except StreamError Bool × Stream :=
  match s.uint 8 with
  | (.error e, s) => (.error e, s)
  | (.ok 0, s) => (.ok false, s)
  | (.ok 1, s) => (.ok true, s)
  | (.ok num, s) => (.error (.invalidBool num), s)

def list (s : Stream) : Except StreamError ℕ × Stream :=
  match s.nextKind with
  | ((_, _, some e), s) => (.error e, s)
  | ((.list, size, none), s) =>
    (.ok size, { s with stack := ⟨0, size⟩ :: s.stack, kind := none, size := 0 })
  | (_, s) => (.error .expectedList, s)

def addPos (n : ℕ) : List ListPos → List ListPos
  | [] => []
  | l :: ls => ⟨add64 l.pos n, l.size⟩ :: ls

def listEnd (s : Stream) : Except StreamError Unit × Stream :=
  match s.stack with
  | [] => (.error .notInList, s)
  | tos :: lists =>
    if tos.pos ≠ tos.size then (.error .notAtEOL, s)
    else (.ok (), { s with stack := addPos tos.size lists, kind := none, size := 0 })

def Bounded (s : Stream) : Prop := ∀ p ∈ s.stack, p.pos ≤ p.size ∧ p.size < 2 ^ 64

structure Room (s : Stream) (n : ℕ) : Prop where
  input : n ≤ s.input.length
  list : ∀ p ∈ s.stack.head?, p.pos + n ≤ p.size
  limit : s.limited = true → n ≤ s.remaining

def bump (n : ℕ) : List ListPos → List ListPos
  | [] => []
  | p :: ps => ⟨p.pos + n, p.size⟩ :: ps

def advance (s : Stream) (n : ℕ) : Stream :=
  { s with
    input := s.input.drop n
    remaining := if s.limited then s.remaining - n else s.remaining
    kind := none
    stack := bump n s.stack }

theorem bump_bump (m n : ℕ) (ps : List ListPos) : bump n (bump m ps) = bump (m + n) ps := by
  cases ps <;> simp [bump, Nat.add_assoc]

theorem advance_advance (s : Stream) (m n : ℕ) : (s.advance m).advance n = s.advance (m + n) := by
  simp only [advance, drop_drop, bump_bump]
  split_ifs <;> simp [Nat.sub_sub]

theorem advance_input (s : Stream) (n : ℕ) : (s.advance n).input = s.input.drop n := rfl

variable {s t s' u : Stream} {m n small large : ℕ} {b : Byte} {bs as body : Bytes} {k : Kind}

theorem Room.mono (h : s.Room n) (hmn : m ≤ n) : s.Room m :=
  ⟨hmn.trans h.input, fun p hp => by have := h.list p hp; omega,
    fun hl => by have := h.limit hl; omega⟩

theorem Room.add_iff (s : Stream) (m n : ℕ) : s.Room (m + n) ↔ s.Room m ∧ (s.advance m).Room n := by
  constructor
  · intro h
    have hinput := h.input
    refine ⟨h.mono (by omega), ?_, ?_, ?_⟩
    · rw [advance_input, length_drop]
      omega
    · intro p hp
      cases hs : s.stack with
      | nil => simp [advance, hs, bump] at hp
      | cons q qs =>
        have := h.list q (by simp [hs])
        simp only [advance, hs, bump, head?_cons, mem_some_iff] at hp
        subst hp
        show q.pos + m + n ≤ q.size
        omega
    · intro hl
      have hl' : s.limited = true := hl
      have := h.limit hl'
      simp only [advance, hl', if_true]
      omega
  · intro ⟨h1, h2⟩
    have hinput := h2.input
    rw [advance_input, length_drop] at hinput
    have := h1.input
    refine ⟨by omega, ?_, ?_⟩
    · intro p hp
      cases hs : s.stack with
      | nil => simp [hs] at hp
      | cons q qs =>
        have := h2.list ⟨q.pos + m, q.size⟩ (by simp [advance, hs, bump])
        simp only [hs, head?_cons, mem_some_iff] at hp
        subst hp
        simp only at this
        omega
    · intro hl
      have h3 := h1.limit hl
      have h4 := h2.limit hl
      simp only [advance, hl, if_true] at h4
      omega

theorem Bounded.advance (hb : s.Bounded) (hr : s.Room n) : (s.advance n).Bounded := by
  intro p hp
  cases hs : s.stack with
  | nil => simp [Stream.advance, hs, bump] at hp
  | cons q qs =>
    have hq := hb q (by simp [hs])
    have hroom := hr.list q (by simp [hs])
    simp only [Stream.advance, hs, bump, mem_cons] at hp
    rcases hp with rfl | hp
    · exact ⟨hroom, hq.2⟩
    · exact hb p (by simp [hs, hp])

theorem Bounded.room_zero (hb : s.Bounded) : s.Room 0 :=
  ⟨Nat.zero_le _, fun p hp => (hb p (mem_of_mem_head? hp)).1, fun _ => Nat.zero_le _⟩

theorem sub64_of_le {a b : ℕ} (hle : b ≤ a) (ha : a < 2 ^ 64) : sub64 a b = a - b := by
  unfold sub64
  omega

theorem add64_of_lt {a b : ℕ} (h : a + b < 2 ^ 64) : add64 a b = a + b := Nat.mod_eq_of_lt h

/-- The bookkeeping of `willRead` alone, before the bytes are taken from the reader. -/
def charged (s : Stream) (n : ℕ) : Stream :=
  { s with
    remaining := if s.limited then s.remaining - n else s.remaining
    kind := none
    stack := bump n s.stack }

theorem chargeLimit_iff (s : Stream) (n : ℕ) (s' : Stream) :
    s.chargeLimit n = (.ok (), s') ↔ (s.limited = true → n ≤ s.remaining) ∧
      s' = { s with remaining := if s.limited then s.remaining - n else s.remaining } := by
  unfold chargeLimit
  by_cases hl : s.limited = true
  · by_cases hn : n > s.remaining
    · have hle : ¬ n ≤ s.remaining := by omega
      simp [hl, hn, hle]
    · have hle : n ≤ s.remaining := by omega
      simp only [hl, if_true, if_neg hn, Prod.mk.injEq, true_and, hle, implies_true]
      exact eq_comm
  · rw [if_neg hl, if_neg hl]
    constructor
    · intro h
      cases h
      exact ⟨fun h => absurd h hl, rfl⟩
    · rintro ⟨-, rfl⟩
      rfl

theorem willRead_iff (hb : s.Bounded) (n : ℕ) (s' : Stream) :
    s.willRead n = (.ok (), s') ↔ ((∀ p ∈ s.stack.head?, p.pos + n ≤ p.size) ∧
      (s.limited = true → n ≤ s.remaining)) ∧ s' = s.charged n := by
  unfold willRead charged
  cases hs : s.stack with
  | nil => simp [chargeLimit_iff, bump]
  | cons p ps =>
    have hp := hb p (by simp [hs])
    simp only [sub64_of_le hp.1 hp.2, head?_cons, mem_some_iff, forall_eq', bump]
    by_cases hn : n > p.size - p.pos
    · have hle : ¬ p.pos + n ≤ p.size := by omega
      simp [hn, hle]
    · have hle : p.pos + n ≤ p.size := by omega
      rw [if_neg hn, chargeLimit_iff, add64_of_lt (by omega)]
      simp [hle]

theorem readFull_iff (hb : s.Bounded) (n : ℕ) (bs : Bytes) (s' : Stream) :
    s.readFull n = (.ok bs, s') ↔ s.Room n ∧ bs = s.input.take n ∧ s' = s.advance n := by
  unfold readFull
  cases hw : s.willRead n with
  | mk r t =>
    cases r with
    | error e =>
      have hno : ¬ s.Room n := by
        intro hr
        have := (willRead_iff hb n _).mpr ⟨⟨hr.list, hr.limit⟩, rfl⟩
        rw [hw] at this
        cases this
      simp [hno]
    | ok u =>
      obtain ⟨⟨hlist, hlimit⟩, rfl⟩ := (willRead_iff hb n t).mp hw
      by_cases hn : n ≤ s.input.length
      · have hin : n ≤ (s.charged n).input.length := hn
        have hr : s.Room n := ⟨hn, hlist, hlimit⟩
        simp only [if_pos hin, Prod.mk.injEq, Except.ok.injEq, hr, true_and]
        exact ⟨fun h => ⟨h.1.symm, h.2.symm⟩, fun h => ⟨h.1.symm, h.2.symm⟩⟩
      · have hin : ¬ n ≤ (s.charged n).input.length := hn
        have hno : ¬ s.Room n := fun hr => hn hr.input
        simp [if_neg hin, hno]

theorem readByte_iff (hb : s.Bounded) (b : Byte) (s' : Stream) :
    s.readByte = (.ok b, s') ↔ s.Room 1 ∧ s.input.head? = some b ∧ s' = s.advance 1 := by
  unfold readByte
  cases hw : s.willRead 1 with
  | mk r t =>
    cases r with
    | error e =>
      have hno : ¬ s.Room 1 := by
        intro hr
        have := (willRead_iff hb 1 _).mpr ⟨⟨hr.list, hr.limit⟩, rfl⟩
        rw [hw] at this
        cases this
      simp [hno]
    | ok u =>
      obtain ⟨⟨hlist, hlimit⟩, rfl⟩ := (willRead_iff hb 1 t).mp hw
      have hin : (s.charged 1).input = s.input := rfl
      cases hs : s.input with
      | nil => simp [hin, hs]
      | cons c rest =>
        have hr : s.Room 1 := ⟨by simp [hs], hlist, hlimit⟩
        have hadv : s.advance 1 = { s.charged 1 with input := rest } := by
          simp [advance, charged, hs]
        simp only [hin, hs, hadv, hr, true_and, head?_cons, some.injEq, Prod.mk.injEq,
          Except.ok.injEq]
        exact ⟨fun h => ⟨h.1, h.2.symm⟩, fun h => ⟨h.1, h.2.symm⟩⟩

theorem advance_zero (s : Stream) : s.advance 0 = { s with kind := none } := by
  cases hs : s.stack <;> simp [advance, bump, hs]

theorem readUint_iff (hb : s.Bounded) (n v : ℕ) (s' : Stream) :
    s.readUint n = (.ok v, s') ↔ s.Room n ∧ v = beVal (s.input.take n) ∧
      (2 ≤ n → NoLeadingZero (s.input.take n)) ∧ s' = s.advance n := by
  match n with
  | 0 =>
    simp only [readUint, Prod.mk.injEq, Except.ok.injEq, advance_zero, hb.room_zero, true_and,
      take_zero, beVal_nil]
    constructor
    · rintro ⟨rfl, rfl⟩
      exact ⟨rfl, fun h => by omega, rfl⟩
    · rintro ⟨rfl, -, rfl⟩
      exact ⟨rfl, rfl⟩
  | 1 =>
    have hval : ∀ b : Byte, s.input.head? = some b → beVal (s.input.take 1) = b.val := by
      intro b hh
      cases hs : s.input with
      | nil => simp [hs] at hh
      | cons c rest =>
        simp only [hs, head?_cons, some.injEq] at hh
        simp [hh, beVal]
    simp only [readUint]
    cases hr : s.readByte with
    | mk r t =>
      cases r with
      | error e =>
        have hno : ¬ s.Room 1 := by
          intro hroom
          have hne : s.input ≠ [] := ne_nil_of_length_pos hroom.input
          have := (readByte_iff hb (s.input.head hne) _).mpr
            ⟨hroom, head?_eq_some_head hne, rfl⟩
          rw [hr] at this
          cases this
        simp [hno]
      | ok b =>
        obtain ⟨hroom, hhead, rfl⟩ := (readByte_iff hb b t).mp hr
        simp only [Prod.mk.injEq, Except.ok.injEq, hroom, hval b hhead, true_and]
        constructor
        · rintro ⟨rfl, rfl⟩
          exact ⟨rfl, fun h => by omega, rfl⟩
        · rintro ⟨rfl, -, rfl⟩
          exact ⟨rfl, rfl⟩
  | n + 2 =>
    simp only [readUint]
    cases hr : s.readFull (n + 2) with
    | mk r t =>
      cases r with
      | error e =>
        have hno : ¬ s.Room (n + 2) := by
          intro hroom
          have := (readFull_iff hb (n + 2) _ _).mpr ⟨hroom, rfl, rfl⟩
          rw [hr] at this
          cases this
        simp [hno]
      | ok buf =>
        obtain ⟨hroom, rfl, rfl⟩ := (readFull_iff hb (n + 2) buf t).mp hr
        have htwo : 2 ≤ n + 2 := by omega
        by_cases hz : (s.input.take (n + 2)).head? = some 0
        · have hno : ¬ NoLeadingZero (s.input.take (n + 2)) := fun h => h hz
          simp only [if_pos hz, htwo, hno]
          simp
        · have hok : NoLeadingZero (s.input.take (n + 2)) := hz
          simp only [if_neg hz, Prod.mk.injEq, Except.ok.injEq, hroom, hok, implies_true, true_and]
          exact ⟨fun h => ⟨h.1.symm, h.2.symm⟩, fun h => ⟨h.1.symm, h.2.symm⟩⟩

/-- The header of a value of kind `k` and size `n`; a single byte is header and value. -/
inductive Header : Kind → ℕ → Byte → Bytes → Prop
  | byte (b : Byte) (hb : b.val < 128) : Header .byte 0 b [b]
  | string (n : ℕ) (hn : n < 2 ^ 64) : Header .string n 0 (strHeader n)
  | list (n : ℕ) (hn : n < 2 ^ 64) : Header .list n 0 (listHeader n)

structure Has (s : Stream) (bs : Bytes) : Prop where
  room : s.Room bs.length
  input : s.input.take bs.length = bs

theorem Has.append_iff (s : Stream) (as bs : Bytes) :
    s.Has (as ++ bs) ↔ s.Has as ∧ (s.advance as.length).Has bs := by
  constructor
  · intro ⟨hroom, hin⟩
    rw [length_append] at hroom hin
    obtain ⟨h1, h2⟩ := (Room.add_iff s _ _).mp hroom
    rw [take_add] at hin
    obtain ⟨hl, hr⟩ := append_inj hin (by simpa using h1.input)
    exact ⟨⟨h1, hl⟩, ⟨h2, hr⟩⟩
  · intro ⟨h1, h2⟩
    refine ⟨?_, ?_⟩
    · rw [length_append]
      exact (Room.add_iff s _ _).mpr ⟨h1.room, h2.room⟩
    · have hin := h2.input
      rw [advance_input] at hin
      rw [length_append, take_add, h1.input, hin]

theorem Has.head (h : s.Has (b :: bs)) : s.Room 1 ∧ s.input.head? = some b := by
  refine ⟨h.room.mono (by simp), ?_⟩
  have hin := h.input
  cases hs : s.input with
  | nil => simp [hs] at hin
  | cons c rest =>
    simp only [hs, length_cons, take_succ_cons, cons.injEq] at hin
    simp [hin.1]

theorem has_singleton (hroom : s.Room 1) (hhead : s.input.head? = some b) : s.Has [b] := by
  refine ⟨hroom, ?_⟩
  cases hs : s.input with
  | nil => simp [hs] at hhead
  | cons c rest =>
    simp only [hs, head?_cons, some.injEq] at hhead
    simp [hhead]

theorem has_take (hroom : s.Room n) : s.Has (s.input.take n) := by
  have hlen : (s.input.take n).length = n := by simpa using hroom.input
  exact ⟨by rw [hlen]; exact hroom, by rw [hlen]⟩

theorem readSize_iff (s : Stream) (k k' : Kind) (m n : ℕ) (s' : Stream) :
    s.readSize k m = ((k', n, none), s') ↔ k' = k ∧ 56 ≤ n ∧ s.readUint m = (.ok n, s') := by
  unfold readSize
  cases hr : s.readUint m with
  | mk r t =>
    cases r with
    | error e => simp
    | ok size =>
      by_cases h56 : size < 56
      · have hne : ∀ n, 56 ≤ n → size ≠ n := by omega
        simp only [if_pos h56, Prod.mk.injEq, Except.ok.injEq]
        simp
        intro _ h1 h2
        exact absurd h2 (hne n h1)
      · simp only [if_neg h56, Prod.mk.injEq, Except.ok.injEq, and_true]
        constructor
        · rintro ⟨⟨rfl, rfl⟩, rfl⟩
          exact ⟨rfl, by omega, rfl, rfl⟩
        · rintro ⟨rfl, -, rfl, rfl⟩
          exact ⟨⟨rfl, rfl⟩, rfl⟩

theorem readSize_long (hb : s.Bounded) (ht : Tags small large)
    (hroom : s.Room 1) (hhead : s.input.head? = some b) (hlo : large < b.val)
    (hhi : b.val ≤ large + 8) (k k' : Kind) (n : ℕ) (s' : Stream) :
    readSize { s.advance 1 with byteval := 0 } k (b.val - large) = ((k', n, none), s') ↔
      k' = k ∧ 56 ≤ n ∧ n < 2 ^ 64 ∧ (header small large n).head? = some b ∧
        s.Has (header small large n) ∧
        s' = { s.advance (header small large n).length with byteval := 0 } := by
  have hbd : Bounded { s.advance 1 with byteval := 0 } := hb.advance hroom
  rw [readSize_iff, readUint_iff hbd]
  have htop := ht.top
  have hsame : ({ s.advance 1 with byteval := 0 } : Stream).input = (s.advance 1).input := rfl
  rw [hsame]
  constructor
  · rintro ⟨hk, h56, hr, hn, hz, rfl⟩
    have hr1 : (s.advance 1).Room (b.val - large) := ⟨hr.input, hr.list, hr.limit⟩
    have hhas := (Has.append_iff s [b] _).mpr ⟨has_singleton hroom hhead, has_take hr1⟩
    have hlen : ((s.advance 1).input.take (b.val - large)).length = b.val - large := by
      simpa using hr.input
    generalize (s.advance 1).input.take (b.val - large) = bs at hn hz hhas hlen
    subst hn
    have hlt : beVal bs < 2 ^ 64 := by
      have h1 := beVal_lt bs
      have h2 : 256 ^ bs.length ≤ 256 ^ 8 := Nat.pow_le_pow_right (by norm_num) (by omega)
      have h3 : (256 : ℕ) ^ 8 = 2 ^ 64 := by norm_num
      omega
    have hhdr : header small large (beVal bs) = b :: bs :=
      header_of_long (by omega) h56 (fun h => hz (by omega))
    refine ⟨hk, h56, hlt, by rw [hhdr]; rfl, by rw [hhdr]; exact hhas, ?_⟩
    rw [hhdr, length_cons, hlen, Nat.add_comm, ← advance_advance]
    rfl
  · rintro ⟨hk, h56, hlt, hh, hhas, rfl⟩
    have h8 := byteLen_le_eight hlt
    have hlong : header small large n = b :: minBytes n := by
      rw [header_long n h56] at hh ⊢
      simp only [head?_cons, some.injEq] at hh
      rw [hh]
    have hbval : b.val = large + byteLen n := by
      rw [header_long n h56] at hh
      simp only [head?_cons, some.injEq] at hh
      rw [← hh, lowByte_val_of_lt (by omega)]
    have hm : b.val - large = byteLen n := by omega
    rw [hlong] at hhas ⊢
    obtain ⟨-, h2⟩ := (Has.append_iff s [b] (minBytes n)).mp hhas
    have hin : (s.advance 1).input.take (byteLen n) = minBytes n := by
      have h := h2.input
      rwa [minBytes_length] at h
    have hr := h2.room
    rw [minBytes_length] at hr
    rw [hm, hin]
    refine ⟨hk, h56, ⟨hr.input, hr.list, hr.limit⟩, (beVal_minBytes n).symm,
      fun _ => minBytes_noLeadingZero n, ?_⟩
    rw [length_cons, minBytes_length, Nat.add_comm, ← advance_advance]
    rfl

theorem header_of_short (hlo : small ≤ b.val)
    (hhi : b.val < small + 56) : header small large (b.val - small) = [b] := by
  rw [header_short _ (by omega), show small + (b.val - small) = b.val by omega, lowByte_of_byte]

theorem readByte_short (hb : s.Bounded) (ht : Tags small large)
    (h56 : n < 56) (h : s.Has (header small large n)) :
    ∃ b, s.readByte = (.ok b, s.advance 1) ∧ b.val = small + n ∧ header small large n = [b] := by
  have htop := ht.top
  have hnext := ht.next
  rw [header_short n h56] at h ⊢
  obtain ⟨hroom, hhead⟩ := h.head
  exact ⟨_, (readByte_iff hb _ _).mpr ⟨hroom, hhead, rfl⟩, lowByte_val_of_lt (by omega), rfl⟩

theorem readSize_header (hb : s.Bounded) (ht : Tags small large)
    (k : Kind) (hn : n < 2 ^ 64) (h56 : 56 ≤ n) (h : s.Has (header small large n)) :
    ∃ b, s.readByte = (.ok b, s.advance 1) ∧ large < b.val ∧ b.val ≤ large + 8 ∧
      readSize { s.advance 1 with byteval := 0 } k (b.val - large) =
        ((k, n, none), { s.advance (header small large n).length with byteval := 0 }) := by
  have htop := ht.top
  have h8 := byteLen_le_eight hn
  have hpos := byteLen_pos (n := n) (by omega)
  have hval : (lowByte (large + byteLen n)).val = large + byteLen n := lowByte_val_of_lt (by omega)
  have hhas := h
  rw [header_long n h56] at h
  obtain ⟨hroom, hhead⟩ := h.head
  refine ⟨_, (readByte_iff hb _ _).mpr ⟨hroom, hhead, rfl⟩, by omega, by omega, ?_⟩
  exact (readSize_long hb ht hroom hhead (by omega) (by omega) _ _ _ _).mpr
    ⟨rfl, h56, hn, by rw [header_long n h56]; rfl, hhas, rfl⟩

theorem readKind_iff (hb : s.Bounded) (k : Kind) (n : ℕ) (s' : Stream) :
    s.readKind = ((k, n, none), s') ↔ ∃ b head, Header k n b head ∧ s.Has head ∧
      s' = { s.advance head.length with byteval := b } := by
  constructor
  · intro h
    unfold readKind at h
    cases hr : s.readByte with
    | mk r t =>
      cases r with
      | error e => simp [hr] at h
      | ok b =>
        obtain ⟨hroom, hhead, rfl⟩ := (readByte_iff hb b t).mp hr
        have hhas := has_singleton hroom hhead
        simp only [hr] at h
        split_ifs at h with h1 h2 h3 h4
        · cases h
          exact ⟨b, [b], .byte b (by omega), hhas, rfl⟩
        · simp only [Prod.mk.injEq, and_true] at h
          obtain ⟨⟨rfl, rfl⟩, rfl⟩ := h
          have hhdr : strHeader (b.val - 0x80) = [b] := header_of_short (by omega) (by omega)
          exact ⟨0, strHeader (b.val - 0x80), .string _ (by omega), by rw [hhdr]; exact hhas,
            by rw [hhdr]; rfl⟩
        · obtain ⟨rfl, -, hlt, -, hh, rfl⟩ := (readSize_long hb strTags hroom hhead (by omega)
            (by omega) _ _ _ _).mp h
          exact ⟨0, _, .string n hlt, hh, rfl⟩
        · simp only [Prod.mk.injEq, and_true] at h
          obtain ⟨⟨rfl, rfl⟩, rfl⟩ := h
          have hhdr : listHeader (b.val - 0xC0) = [b] := header_of_short (by omega) (by omega)
          exact ⟨0, listHeader (b.val - 0xC0), .list _ (by omega), by rw [hhdr]; exact hhas,
            by rw [hhdr]; rfl⟩
        · have := b.isLt
          obtain ⟨rfl, -, hlt, -, hh, rfl⟩ := (readSize_long hb listTags hroom hhead (by omega)
            (by omega) _ _ _ _).mp h
          exact ⟨0, _, .list n hlt, hh, rfl⟩
  · rintro ⟨v, head, hhdr, hhas, rfl⟩
    unfold readKind
    cases hhdr with
    | byte b hlt =>
      obtain ⟨hroom, hhead⟩ := hhas.head
      rw [(readByte_iff hb v _).mpr ⟨hroom, hhead, rfl⟩]
      simp only [if_pos (show v.val < 0x80 from hlt)]
      rfl
    | string n hn =>
      by_cases h56 : n < 56
      · obtain ⟨b, hr, hval, hone⟩ := readByte_short hb strTags h56 hhas
        rw [hr, show strHeader n = [b] from hone]
        dsimp only
        rw [if_neg (by omega), if_pos (by omega), show b.val - 0x80 = n by omega]
        rfl
      · obtain ⟨b, hr, hlo, hhi, hsize⟩ := readSize_header hb strTags .string hn (by omega) hhas
        rw [hr]
        dsimp only
        rw [if_neg (by omega), if_neg (by omega), if_pos (by omega)]
        exact hsize
    | list n hn =>
      by_cases h56 : n < 56
      · obtain ⟨b, hr, hval, hone⟩ := readByte_short hb listTags h56 hhas
        rw [hr, show listHeader n = [b] from hone]
        dsimp only
        rw [if_neg (by omega), if_neg (by omega), if_neg (by omega), if_pos (by omega),
          show b.val - 0xC0 = n by omega]
        rfl
      · obtain ⟨b, hr, hlo, hhi, hsize⟩ := readSize_header hb listTags .list hn (by omega) hhas
        rw [hr]
        dsimp only
        rw [if_neg (by omega), if_neg (by omega), if_neg (by omega), if_neg (by omega)]
        exact hsize

/-- What `Kind` checks of the size it has read: against the innermost list, and only at top level
against the limit. -/
structure Claims (s : Stream) (n : ℕ) : Prop where
  list : ∀ p ∈ s.stack.head?, p.pos + n ≤ p.size
  limit : s.stack = [] → s.limited = true → n ≤ s.remaining

def found (s : Stream) (k : Kind) (n : ℕ) (b : Byte) : Stream :=
  { s with kind := some k, size := n, byteval := b, kinderr := none }

structure Ready (s : Stream) : Prop where
  kind : s.kind = none
  bounded : s.Bounded

theorem oversize_eq_none (hb : s.Bounded) (n : ℕ) : s.oversize n = none ↔ s.Claims n := by
  unfold oversize
  cases hs : s.stack with
  | nil =>
    constructor
    · intro h
      refine ⟨by simp [hs], fun _ hl => ?_⟩
      by_contra hn
      simp [hl] at h
      omega
    · intro h
      have := h.limit hs
      simp only [ite_eq_right_iff, reduceCtorEq, imp_false, not_and]
      intro hl
      have := this hl
      omega
  | cons p ps =>
    have hp := hb p (by simp [hs])
    simp only [sub64_of_le hp.1 hp.2, ite_eq_right_iff, reduceCtorEq, imp_false]
    constructor
    · intro h
      refine ⟨fun q hq => ?_, by simp [hs]⟩
      simp only [hs, head?_cons, mem_some_iff] at hq
      subst hq
      omega
    · intro h
      have := h.list p (by simp [hs])
      omega

theorem atEnd_eq_false (hr : s.Room 1) : s.atEnd = false := by
  unfold atEnd
  cases hs : s.stack with
  | nil => rfl
  | cons p ps =>
    have := hr.list p (by simp [hs])
    simp only [decide_eq_false_iff_not]
    omega

theorem header_length_pos {head : Bytes} (h : Header k n b head) : 1 ≤ head.length := by
  cases h with
  | byte b hb => simp
  | string n hn =>
    unfold strHeader header
    split <;> simp
  | list n hn =>
    unfold listHeader header
    split <;> simp

theorem nextKind_of_none (hk : s.kind = none) : s.nextKind =
    if s.atEnd then ((.byte, 0, some .eol), s.noError) else s.noError.readAhead := by
  unfold nextKind
  rw [hk]

theorem nextKind_of_some (hk : s.kind = some k) : s.nextKind = ((k, s.size, s.kinderr), s) := by
  unfold nextKind
  rw [hk]

theorem has_noError : s.noError.Has bs ↔ s.Has bs :=
  ⟨fun h => ⟨⟨h.room.input, h.room.list, h.room.limit⟩, h.input⟩,
    fun h => ⟨⟨h.room.input, h.room.list, h.room.limit⟩, h.input⟩⟩

theorem readAhead_iff (hb : s.Bounded) (k : Kind) (n : ℕ) (s' : Stream) :
    s.noError.readAhead = ((k, n, none), s') ↔ ∃ b head, Header k n b head ∧ s.Has head ∧
      (s.advance head.length).Claims n ∧ s' = (s.advance head.length).found k n b := by
  have hkind := readKind_iff (s := s.noError) hb
  constructor
  · intro h
    unfold readAhead at h
    cases hr : s.noError.readKind with
    | mk r t =>
      obtain ⟨k', n', err⟩ := r
      cases err with
      | some e => simp [hr, remember] at h
      | none =>
        obtain ⟨b, head, hhdr, hhas, rfl⟩ := (hkind k' n' t).mp hr
        rw [has_noError] at hhas
        have hbd := hb.advance hhas.room
        simp only [hr, remember, Prod.mk.injEq] at h
        obtain ⟨⟨rfl, rfl, hover⟩, rfl⟩ := h
        refine ⟨b, head, hhdr, hhas, (oversize_eq_none hbd n').mp hover, ?_⟩
        rw [hover]
        rfl
  · rintro ⟨b, head, hhdr, hhas, hclaims, rfl⟩
    have hover := (oversize_eq_none (hb.advance hhas.room) n).mpr hclaims
    have hread := (hkind k n _).mpr ⟨b, head, hhdr, has_noError.mpr hhas, rfl⟩
    have hover' : oversize { s.noError.advance head.length with byteval := b } n = none := hover
    simp only [readAhead, hread, hover', remember]
    rfl

theorem nextKind_iff (hs : s.Ready) (k : Kind) (n : ℕ) (s' : Stream) :
    s.nextKind = ((k, n, none), s') ↔ ∃ b head, Header k n b head ∧ s.Has head ∧
      (s.advance head.length).Claims n ∧ s' = (s.advance head.length).found k n b := by
  rw [nextKind_of_none hs.kind, ← readAhead_iff hs.bounded]
  by_cases hend : s.atEnd = true
  · rw [if_pos hend]
    constructor
    · intro h
      simp at h
    · intro h
      obtain ⟨b, head, hhdr, hhas, -⟩ := (readAhead_iff hs.bounded k n s').mp h
      have := atEnd_eq_false (hhas.room.mono (header_length_pos hhdr))
      simp [hend] at this
  · rw [if_neg hend]

theorem readAhead_remembers (s : Stream) : ∃ t k n err, s.readAhead = remember t k n err := by
  unfold readAhead
  cases s.readKind with
  | mk r t =>
    obtain ⟨k, n, err⟩ := r
    cases err with
    | none => exact ⟨t, k, n, t.oversize n, rfl⟩
    | some e => exact ⟨t, k, n, some e, rfl⟩

theorem nextKind_nextKind (s : Stream) : s.nextKind.2.nextKind = s.nextKind := by
  cases hk : s.kind with
  | some k => rw [nextKind_of_some hk, nextKind_of_some hk]
  | none =>
    have h := nextKind_of_none hk
    split_ifs at h with hend
    · have hk' : s.noError.kind = none := hk
      have hend' : s.noError.atEnd = true := hend
      rw [h, nextKind_of_none hk', if_pos hend']
      rfl
    · obtain ⟨t, k, n, err, hr⟩ := readAhead_remembers s.noError
      rw [h, hr]
      rfl

def settled (s : Stream) : Stream := { s with size := 0, byteval := 0, kinderr := none }

structure Reads (s : Stream) (bs : Bytes) (s' : Stream) : Prop where
  has : s.Has bs
  moved : s'.settled = (s.advance bs.length).settled

theorem settled_advance (s : Stream) (n : ℕ) : (s.advance n).settled = s.settled.advance n := rfl

theorem settled_inj (h : s.settled = t.settled) : s.input = t.input ∧
    s.remaining = t.remaining ∧ s.limited = t.limited ∧ s.kind = t.kind ∧ s.stack = t.stack := by
  simp only [settled, Stream.mk.injEq, true_and] at h
  exact h

theorem Has.congr (h : s.settled = t.settled) (ht : t.Has bs) : s.Has bs := by
  obtain ⟨hin, hre, hli, -, hst⟩ := settled_inj h
  refine ⟨⟨?_, ?_, ?_⟩, ?_⟩
  · rw [hin]
    exact ht.room.input
  · rw [hst]
    exact ht.room.list
  · rw [hli, hre]
    exact ht.room.limit
  · rw [hin]
    exact ht.input

theorem Reads.ready (h : Reads s bs s') (hs : s.Bounded) : s'.Ready := by
  obtain ⟨-, -, -, hk, hst⟩ := settled_inj h.moved
  refine ⟨hk, ?_⟩
  have hb := hs.advance h.has.room
  unfold Bounded at hb ⊢
  rwa [hst]

theorem Reads.nil (s : Stream) (hs : s.Ready) : Reads s [] s := by
  refine ⟨⟨hs.bounded.room_zero, rfl⟩, ?_⟩
  rw [length_nil, advance_zero, ← hs.kind]

theorem Reads.trans (h1 : Reads s as t) (h2 : Reads t bs u) : Reads s (as ++ bs) u := by
  refine ⟨(Has.append_iff s as bs).mpr ⟨h1.has, Has.congr h1.moved.symm h2.has⟩, ?_⟩
  rw [h2.moved, settled_advance, h1.moved, ← settled_advance, advance_advance, length_append]

theorem Reads.input (h : Reads s bs s') : s.input = bs ++ s'.input := by
  have hin : s'.input = s.input.drop bs.length := (settled_inj h.moved).1
  rw [hin]
  conv_lhs => rw [← take_append_drop bs.length s.input, h.has.input]

theorem Reads.has_rest (h : Reads s as s') (hhas : s.Has (as ++ bs)) : s'.Has bs :=
  Has.congr h.moved ((Has.append_iff s as bs).mp hhas).2

theorem strHeader_cases (bs : Bytes) (hlen : bs.length < 2 ^ 64) :
    (∃ b : Byte, b.val < 128 ∧ bs = [b] ∧ encodeStr bs = [b]) ∨
      (isOwnCode bs = false ∧ Header .string bs.length 0 (strHeader bs.length) ∧
        encodeStr bs = strHeader bs.length ++ bs) := by
  by_cases hown : isOwnCode bs = true
  · obtain ⟨b, hb, rfl⟩ := (isOwnCode_iff bs).mp hown
    exact .inl ⟨b, hb, rfl, encodeStr_own b hb⟩
  · have hown' : isOwnCode bs = false := by simpa using hown
    exact .inr ⟨hown', .string _ hlen, encodeStr_of_not_own bs hown'⟩

theorem Has.claims (h : s.Has (as ++ bs)) : (s.advance as.length).Claims bs.length := by
  obtain ⟨-, h2⟩ := (Has.append_iff s as bs).mp h
  exact ⟨h2.room.list, fun _ => h2.room.limit⟩

theorem nextKind_byte (hs : s.Ready) (hb : b.val < 128) (h : s.Has [b]) :
    s.nextKind = ((.byte, 0, none), (s.advance 1).found .byte 0 b) := by
  have h0 : (s.advance 1).Claims 0 := Has.claims (show s.Has ([b] ++ []) by simpa using h)
  exact (nextKind_iff hs _ _ _).mpr ⟨b, [b], .byte b hb, h, h0, rfl⟩

theorem nextKind_string (hs : s.Ready) (hlen : bs.length < 2 ^ 64)
    (h : s.Has (strHeader bs.length ++ bs)) : s.nextKind = ((.string, bs.length, none),
      (s.advance (strHeader bs.length).length).found .string bs.length 0) :=
  (nextKind_iff hs _ _ _).mpr
    ⟨0, _, .string _ hlen, ((Has.append_iff s _ _).mp h).1, h.claims, rfl⟩

theorem nextKind_list (hs : s.Ready) (hlen : body.length < 2 ^ 64)
    (h : s.Has (listHeader body.length ++ body)) : s.nextKind = ((.list, body.length, none),
      (s.advance (listHeader body.length).length).found .list body.length 0) :=
  (nextKind_iff hs _ _ _).mpr
    ⟨0, _, .list _ hlen, ((Has.append_iff s _ _).mp h).1, h.claims, rfl⟩

theorem found_bounded (h : s.Bounded) : (s.found k n b).Bounded := h

theorem room_found : (s.found k n b).Room m ↔ s.Room m :=
  ⟨fun h => ⟨h.input, h.list, h.limit⟩, fun h => ⟨h.input, h.list, h.limit⟩⟩

theorem contents_complete (hs : s.Ready) {head body : Bytes}
    (hhdr : Header k body.length b head) (h : s.Has (head ++ body)) :
    ∃ t u, s.nextKind = ((k, body.length, none), t) ∧ t.readFull body.length = (.ok body, u) ∧
      Reads s (head ++ body) u := by
  obtain ⟨h1, h2⟩ := (Has.append_iff s _ _).mp h
  have hbd := found_bounded (k := k) (n := body.length) (b := b) (hs.bounded.advance h1.room)
  refine ⟨_, _, (nextKind_iff hs _ _ _).mpr ⟨b, head, hhdr, h1, h.claims, rfl⟩,
    (readFull_iff hbd body.length body _).mpr ⟨room_found.mpr h2.room, h2.input.symm, rfl⟩, h, ?_⟩
  rw [length_append, ← advance_advance]
  rfl

theorem contents_sound (hs : s.Ready)
    (hk : s.nextKind = ((k, n, none), t)) (hr : t.readFull n = (.ok body, u)) :
    ∃ b head, Header k n b head ∧ body.length = n ∧ Reads s (head ++ body) u := by
  obtain ⟨b, head, hhdr, hhas, -, rfl⟩ := (nextKind_iff hs k n t).mp hk
  have hbd := found_bounded (k := k) (n := n) (b := b) (hs.bounded.advance hhas.room)
  obtain ⟨hroom, hbody, rfl⟩ := (readFull_iff hbd n body u).mp hr
  have hrest := has_take (room_found.mp hroom)
  have hbody' : (s.advance head.length).input.take n = body := hbody.symm
  have hlen : body.length = n := by
    rw [hbody]
    simpa using hroom.input
  rw [hbody'] at hrest
  refine ⟨b, head, hhdr, hlen, (Has.append_iff s _ _).mpr ⟨hhas, hrest⟩, ?_⟩
  rw [length_append, hlen, ← advance_advance]
  rfl

theorem string_complete (hs : s.Ready) (hlen : bs.length < 2 ^ 64)
    (h : s.Has (strHeader bs.length ++ bs)) :
    ∃ t u, s.nextKind = ((.string, bs.length, none), t) ∧ t.readFull bs.length = (.ok bs, u) ∧
      Reads s (strHeader bs.length ++ bs) u :=
  contents_complete hs (.string _ hlen) h

theorem string_sound (hs : s.Ready) {c : Bytes}
    (hk : s.nextKind = ((.string, n, none), t)) (hr : t.readFull n = (.ok c, u)) :
    c.length = n ∧ n < 2 ^ 64 ∧ Reads s (strHeader n ++ c) u := by
  obtain ⟨b, head, hhdr, hclen, hreads⟩ := contents_sound hs hk hr
  cases hhdr with
  | string n hn => exact ⟨hclen, hn, hreads⟩

theorem bytes_complete (hs : s.Ready) (hlen : bs.length < 2 ^ 64)
    (h : s.Has (encodeStr bs)) : ∃ s', s.bytes = (.ok bs, s') ∧ Reads s (encodeStr bs) s' := by
  rcases strHeader_cases bs hlen with ⟨b, hb, rfl, henc⟩ | ⟨hown, -, henc⟩
  · rw [henc] at h ⊢
    refine ⟨{ (s.advance 1).found .byte 0 b with kind := none }, ?_, h, rfl⟩
    simp only [bytes, nextKind_byte hs hb h]
    rfl
  · rw [henc] at h ⊢
    obtain ⟨t, u, hk, hr, hreads⟩ := string_complete hs hlen h
    refine ⟨u, ?_, hreads⟩
    simp only [bytes, hk, hr, hown]
    rfl

theorem bytes_sound (hs : s.Ready)
    (h : s.bytes = (.ok bs, s')) : bs.length < 2 ^ 64 ∧ Reads s (encodeStr bs) s' := by
  unfold bytes at h
  cases hk : s.nextKind with
  | mk r t =>
    obtain ⟨k, n, err⟩ := r
    cases err with
    | some e => simp [hk] at h
    | none =>
      cases k with
      | byte =>
        obtain ⟨v, head, hhdr, hhas, -, rfl⟩ := (nextKind_iff hs _ n t).mp hk
        cases hhdr with
        | byte b hlt =>
          simp only [hk, Prod.mk.injEq, Except.ok.injEq] at h
          obtain ⟨rfl, rfl⟩ := h
          have hv : ((s.advance 1).found .byte 0 v).byteval = v := rfl
          refine ⟨by simp, ?_⟩
          rw [length_singleton, hv, encodeStr_own v hlt]
          exact ⟨hhas, rfl⟩
      | string =>
        simp only [hk] at h
        cases hr : t.readFull n with
        | mk r u =>
          cases r with
          | error e => simp [hr] at h
          | ok c =>
            obtain ⟨hclen, hn, hreads⟩ := string_sound hs hk hr
            simp only [hr] at h
            split_ifs at h with hown
            · simp at h
            simp only [Prod.mk.injEq, Except.ok.injEq] at h
            obtain ⟨rfl, rfl⟩ := h
            rw [encodeStr_of_not_own c (by simpa using hown), hclen]
            exact ⟨hn, hreads⟩
      | list => simp [hk] at h

theorem uint_complete (hs : s.Ready) {maxbits v : ℕ} (hlen : byteLen v ≤ maxbits / 8)
    (hmax : maxbits ≤ 64) (h : s.Has (encodeStr (minBytes v))) :
    ∃ s', s.uint maxbits = (.ok v, s') ∧ Reads s (encodeStr (minBytes v)) s' := by
  have hshort : (minBytes v).length < 2 ^ 64 := by
    rw [minBytes_length]
    omega
  rcases strHeader_cases (minBytes v) hshort with ⟨b, hb, hmin, henc⟩ | ⟨hown, -, henc⟩
  · have hval : v = b.val := by
      rw [← beVal_minBytes v, hmin]
      simp [beVal]
    have hne : b ≠ 0 := by
      rintro rfl
      exact minBytes_noLeadingZero v (by rw [hmin]; rfl)
    rw [henc] at h ⊢
    refine ⟨{ (s.advance 1).found .byte 0 b with kind := none }, ?_, h, rfl⟩
    simp only [uint, nextKind_byte hs hb h]
    rw [if_neg (show ((s.advance 1).found .byte 0 b).byteval ≠ 0 from hne), hval]
    rfl
  · rw [henc] at h ⊢
    obtain ⟨h1, h2⟩ := (Has.append_iff s _ _).mp h
    have hbd := found_bounded (k := .string) (n := (minBytes v).length) (b := 0)
      (hs.bounded.advance h1.room)
    have hv : v = beVal ((s.advance (strHeader (minBytes v).length).length).input.take
        (minBytes v).length) := by
      rw [h2.input, beVal_minBytes]
    have hz : NoLeadingZero ((s.advance (strHeader (minBytes v).length).length).input.take
        (minBytes v).length) := by
      rw [h2.input]
      exact minBytes_noLeadingZero v
    have hread := (readUint_iff hbd (minBytes v).length v _).mpr
      ⟨room_found.mpr h2.room, hv, fun _ => hz, rfl⟩
    refine ⟨((s.advance (strHeader (minBytes v).length).length).found .string
      (minBytes v).length 0).advance (minBytes v).length, ?_, h, ?_⟩
    · have hfit : ¬ (minBytes v).length > maxbits / 8 := by
        rw [minBytes_length]
        omega
      have hbig : ¬ (0 < (minBytes v).length ∧ v < 128) := by
        rintro ⟨hpos, hlt⟩
        rw [minBytes_length] at hpos
        have h0 := byteLen_eq_zero v
        have := (isOwnCode_minBytes v).mpr ⟨by omega, hlt⟩
        simp [this] at hown
      simp only [uint, nextKind_string hs hshort h, if_neg hfit, hread, if_neg hbig]
    · rw [length_append, ← advance_advance]
      rfl

theorem uint_sound (hs : s.Ready) {maxbits v : ℕ}
    (hmin : 8 ≤ maxbits) (hmax : maxbits ≤ 64) (h : s.uint maxbits = (.ok v, s')) :
    byteLen v ≤ maxbits / 8 ∧ Reads s (encodeStr (minBytes v)) s' := by
  unfold uint at h
  cases hk : s.nextKind with
  | mk r t =>
    obtain ⟨k, n, err⟩ := r
    cases err with
    | some e => simp [hk] at h
    | none =>
      obtain ⟨c, head, hhdr, hhas, -, rfl⟩ := (nextKind_iff hs k n t).mp hk
      cases hhdr with
      | byte b hlt =>
        have hval : ((s.advance 1).found .byte 0 c).byteval = c := rfl
        simp only [hk, length_singleton, hval] at h
        split_ifs at h with h0
        · simp at h
        simp only [Prod.mk.injEq, Except.ok.injEq] at h
        obtain ⟨rfl, rfl⟩ := h
        have hlen := minBytes_length c.val
        rw [minBytes_of_byte c h0] at hlen ⊢
        rw [encodeStr_own c hlt]
        simp only [length_singleton] at hlen
        exact ⟨by omega, hhas, rfl⟩
      | string n hn =>
        simp only [hk] at h
        split_ifs at h with hover
        · simp at h
        have hbd := found_bounded (k := .string) (n := n) (b := 0) (hs.bounded.advance hhas.room)
        cases hr : ((s.advance (strHeader n).length).found .string n 0).readUint n with
        | mk r t =>
          cases r with
          | error e => simp [hr] at h
          | ok w =>
            obtain ⟨hroom, hw, hz, rfl⟩ := (readUint_iff hbd n w t).mp hr
            simp only [hr] at h
            split_ifs at h with hsmall
            · simp at h
            simp only [Prod.mk.injEq, Except.ok.injEq] at h
            obtain ⟨rfl, rfl⟩ := h
            have hrest := has_take (room_found.mp hroom)
            have hlen : ((s.advance (strHeader n).length).input.take n).length = n := by
              simpa using (room_found.mp hroom).input
            have hw' : w = beVal ((s.advance (strHeader n).length).input.take n) := hw
            have hz' : 2 ≤ n → NoLeadingZero ((s.advance (strHeader n).length).input.take n) := hz
            generalize (s.advance (strHeader n).length).input.take n = bs at hw' hz' hlen hrest
            subst hw'
            -- a one-byte integer is at least 128, so it does not start with a zero byte either
            have hnz : NoLeadingZero bs := by
              match bs, hlen with
              | [], _ => simp [NoLeadingZero]
              | [b], hlen =>
                intro h0
                simp only [head?_cons, some.injEq] at h0
                subst h0
                simp [beVal, ← hlen] at hsmall
              | b :: b' :: bs, hlen => exact hz' (by rw [← hlen]; simp)
            have hmin := minBytes_beVal bs hnz
            have hown : isOwnCode bs = false := by
              by_contra hc
              rw [← hmin] at hc
              have h1 := (isOwnCode_minBytes (beVal bs)).mp (by simpa using hc)
              have h2 := byteLen_pos h1.1
              rw [byteLen_beVal bs hnz] at h2
              omega
            have hlen' := byteLen_beVal bs hnz
            rw [hmin, encodeStr_of_not_own bs hown]
            subst hlen
            refine ⟨by omega, (Has.append_iff s _ _).mpr ⟨hhas, hrest⟩, ?_⟩
            rw [length_append, ← advance_advance]
            rfl
      | list n hn => simp [hk] at h

def enter (s : Stream) (n : ℕ) : Stream := { s with stack := ⟨0, n⟩ :: s.stack }

theorem list_iff (hs : s.Ready) (n : ℕ) (s' : Stream) :
    s.list = (.ok n, s') ↔ n < 2 ^ 64 ∧ s.Has (listHeader n) ∧
      (s.advance (listHeader n).length).Claims n ∧
      s' = { (s.advance (listHeader n).length).enter n with
        size := 0, byteval := 0, kinderr := none } := by
  constructor
  · intro h
    unfold list at h
    cases hk : s.nextKind with
    | mk r t =>
      obtain ⟨k, m, err⟩ := r
      cases err with
      | some e => simp [hk] at h
      | none =>
        obtain ⟨v, head, hhdr, hhas, hclaims, rfl⟩ := (nextKind_iff hs k m t).mp hk
        cases hhdr with
        | byte b hlt => simp [hk] at h
        | string m hm => simp [hk] at h
        | list m hm =>
          simp only [hk, Prod.mk.injEq, Except.ok.injEq] at h
          obtain ⟨rfl, rfl⟩ := h
          exact ⟨hm, hhas, hclaims, rfl⟩
  · rintro ⟨hn, hhas, hclaims, rfl⟩
    have hk := (nextKind_iff hs .list n _).mpr ⟨0, _, .list n hn, hhas, hclaims, rfl⟩
    simp only [list, hk]
    rfl

theorem list_ready (hs : s.Ready) (h : s.list = (.ok n, t)) : t.Ready := by
  obtain ⟨hn, hhas, -, rfl⟩ := (list_iff hs n t).mp h
  refine ⟨rfl, fun p hp => ?_⟩
  rcases mem_cons.mp hp with rfl | hp
  · exact ⟨Nat.zero_le _, hn⟩
  · exact hs.bounded.advance hhas.room p hp

theorem addPos_eq_bump (hb : s.Bounded) (hc : s.Claims n) : addPos n s.stack = bump n s.stack := by
  cases hs : s.stack with
  | nil => rfl
  | cons p ps =>
    have h1 := hb p (by simp [hs])
    have h2 := hc.list p (by simp [hs])
    rw [addPos, bump, add64_of_lt (by omega)]

theorem listEnd_iff (hb : s.Bounded) (hc : s.Claims n)
    (hu : u.settled = ((s.enter n).advance m).settled) (u' : Stream) : u.listEnd = (.ok (), u') ↔
      m = n ∧ u' = { u with stack := bump n s.stack, kind := none, size := 0 } := by
  have hst : u.stack = ⟨0 + m, n⟩ :: s.stack := (settled_inj hu).2.2.2.2
  simp only [listEnd, hst, Nat.zero_add, addPos_eq_bump hb hc]
  by_cases hmn : m = n
  · simp [hmn]
    exact eq_comm
  · simp [hmn]

theorem Reads.list {s t u u' : Stream} (hs : s.Ready)
    (hlist : s.list = (.ok n, t)) (hbody : Reads t body u) (hend : u.listEnd = (.ok (), u')) :
    body.length = n ∧ n < 2 ^ 64 ∧ Reads s (listHeader n ++ body) u' := by
  obtain ⟨hn, hhas, hclaims, rfl⟩ := (list_iff hs n t).mp hlist
  obtain ⟨hlen, rfl⟩ := (listEnd_iff (hs.bounded.advance hhas.room) hclaims hbody.moved u').mp hend
  obtain ⟨hin, hre, hli, -, -⟩ := settled_inj hbody.moved
  refine ⟨hlen, hn, (Has.append_iff s _ _).mpr ⟨hhas, ⟨hbody.has.room.input, ?_, ?_⟩,
    hbody.has.input⟩, ?_⟩
  · rw [hlen]
    exact hclaims.list
  · exact hbody.has.room.limit
  · subst hlen
    rw [length_append, ← advance_advance]
    simp only [settled, hin, hre, hli]
    rfl

theorem list_complete (hs : s.Ready) (hlen : body.length < 2 ^ 64)
    (h : s.Has (listHeader body.length ++ body)) :
    ∃ t, s.list = (.ok body.length, t) ∧ t.Ready ∧ t.Has body ∧
      ∀ u, Reads t body u → ∃ u', u.listEnd = (.ok (), u') := by
  obtain ⟨h1, h2⟩ := (Has.append_iff s _ _).mp h
  have hb := hs.bounded.advance h1.room
  have hlist := (list_iff hs body.length _).mpr ⟨hlen, h1, h.claims, rfl⟩
  refine ⟨_, hlist, list_ready hs hlist, ⟨⟨h2.room.input, ?_, h2.room.limit⟩, h2.input⟩, ?_⟩
  · intro p hp
    simp only [enter, head?_cons, mem_some_iff] at hp
    subst hp
    simp
  · intro u hu
    exact ⟨_, (listEnd_iff hb h.claims hu.moved _).mpr ⟨rfl, rfl⟩⟩

end Stream

end Fiscobcos.Rlp
