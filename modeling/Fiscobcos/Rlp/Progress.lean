import Fiscobcos.Rlp.Stream

/-! # Progress of the stream

`pending` counts the bytes ahead, a cached header as one. An operation that succeeds lowers it. The
end of a list is reported by `Kind` alone, which has then read nothing. -/

namespace Fiscobcos.Rlp.Stream
open List Option

open Fiscobcos.Numerals Fiscobcos.RlpFormat

def pending (s : Stream) : ℕ := s.input.length + if s.kind = none then 0 else 1

def rearm (s : Stream) : Stream := { s with kind := none }

def EndsAfter (s : Stream) (n : ℕ) : Prop := ∃ p ps, s.stack = p :: ps ∧ p.pos + n = p.size

structure Past (s t : Stream) : Prop where
  kind : t.kind = none
  input : t.input.length < s.pending

def AtEol (s t : Stream) : Prop := ∃ k n, s.nextKind = ((k, n, some .eol), t)

/-- What a read of the bytes after a header does; `n` bytes at least are taken. -/
inductive Took {α : Type} (s : Stream) (n : ℕ) : Except StreamError α × Stream → Prop
  | ok {a : α} {t : Stream} (kind : t.kind = none)
      (input : t.input.length + n ≤ s.input.length) : Took s n (.ok a, t)
  | error {e : StreamError} {t : Stream} (other : e ≠ .eol) : Took s n (.error e, t)

/-- What an operation on the value ahead does. -/
inductive Outcome {α : Type} (s : Stream) : Except StreamError α × Stream → Prop
  | ok {a : α} {t : Stream} (past : Past s t) : Outcome s (.ok a, t)
  | eol {t : Stream} (ahead : AtEol s t) : Outcome s (.error .eol, t)
  | error {e : StreamError} {t : Stream} (other : e ≠ .eol) : Outcome s (.error e, t)

variable {α : Type} {s t u : Stream} {m n : ℕ} {k : Kind} {e : StreamError}

theorem pending_le (s : Stream) : s.pending ≤ s.input.length + 1 := by
  unfold pending
  split_ifs <;> omega

theorem pending_of_none (h : s.kind = none) : s.pending = s.input.length := by
  simp [pending, h]

theorem Past.lt (h : Past s t) : t.pending < s.pending := by
  rw [pending_of_none h.kind]
  exact h.input

section Reads

theorem chargeLimit_took (hk : s.kind = none) (hin : s.input = u.input) (n : ℕ) :
    Took u 0 (s.chargeLimit n) := by
  unfold chargeLimit
  split_ifs
  · exact .error nofun
  · exact .ok hk (congrArg length hin).le
  · exact .ok hk (congrArg length hin).le

theorem willRead_took (s : Stream) (n : ℕ) : Took s 0 (s.willRead n) := by
  unfold willRead
  split
  · refine chargeLimit_took ?_ ?_ n <;> rfl
  · split_ifs
    · exact .error nofun
    · refine chargeLimit_took ?_ ?_ n <;> rfl

theorem readFull_took (s : Stream) (n : ℕ) : Took s n (s.readFull n) := by
  have hw := willRead_took s n
  unfold readFull
  generalize s.willRead n = r at hw
  cases hw with
  | error other => exact .error other
  | @ok _ t kind input =>
    dsimp only
    split_ifs with hn
    · refine .ok kind ?_
      rw [length_drop]
      omega
    · exact .error nofun

theorem readByte_took (s : Stream) : Took s 1 s.readByte := by
  have hw := willRead_took s 1
  unfold readByte
  generalize s.willRead 1 = r at hw
  cases hw with
  | error other => exact .error other
  | @ok _ t kind input =>
    dsimp only
    split
    · exact .error nofun
    · rename_i b rest hin
      rw [hin] at input
      exact .ok kind input

theorem readUint_took (s : Stream) (n : ℕ) : Took s 0 (s.readUint n) := by
  unfold readUint
  split
  · exact .ok rfl le_rfl
  · have hb := readByte_took s
    generalize s.readByte = r at hb
    cases hb with
    | error other => exact .error other
    | ok kind input => exact .ok kind (by omega)
  · have hf := readFull_took s n
    generalize s.readFull n = r at hf
    cases hf with
    | error other => exact .error other
    | ok kind input =>
      dsimp only
      split_ifs
      · exact .error nofun
      · exact .ok kind (by omega)

/-- What reading a header does. -/
inductive Headed (s : Stream) : (Kind × ℕ × Option StreamError) × Stream → Prop
  | ok {k : Kind} {n : ℕ} {t : Stream} (input : t.input.length < s.input.length) :
      Headed s ((k, n, none), t)
  | error {k : Kind} {n : ℕ} {e : StreamError} {t : Stream} (other : e ≠ .eol) :
      Headed s ((k, n, some e), t)

theorem readSize_headed (hin : u.input.length < s.input.length) (k : Kind) (n : ℕ) :
    Headed s (u.readSize k n) := by
  have hu := readUint_took u n
  unfold readSize
  generalize u.readUint n = r at hu
  cases hu with
  | error other => exact .error other
  | ok kind input =>
    dsimp only
    split_ifs
    · exact .error nofun
    · exact .ok (by omega)

theorem readKind_headed (s : Stream) : Headed s s.readKind := by
  have hb := readByte_took s
  unfold readKind
  generalize s.readByte = r at hb
  cases hb with
  | @error e t other =>
    refine .error ?_
    unfold adjustEOF
    split_ifs
    · nofun
    · exact other
  | ok kind input =>
    dsimp only
    split_ifs
    · exact .ok input
    · exact .ok input
    · refine readSize_headed ?_ _ _
      exact input
    · exact .ok input
    · refine readSize_headed ?_ _ _
      exact input

theorem nextKind_input (h : s.nextKind = ((k, n, none), t)) :
    t.kind = some k ∧ t.input.length < s.pending := by
  cases hk : s.kind with
  | some k' =>
    rw [nextKind_of_some hk] at h
    simp only [Prod.mk.injEq] at h
    obtain ⟨⟨rfl, -, -⟩, rfl⟩ := h
    exact ⟨hk, by simp [pending, hk]⟩
  | none =>
    rw [nextKind_of_none hk] at h
    rw [pending_of_none hk]
    split_ifs at h
    · cases h
    · have hr := readKind_headed s.noError
      unfold readAhead at h
      generalize s.noError.readKind = r at h hr
      cases hr with
      | error other => cases h
      | ok input =>
        simp only [remember, Prod.mk.injEq] at h
        obtain ⟨⟨rfl, -, -⟩, rfl⟩ := h
        exact ⟨rfl, input⟩

theorem nextKind_pending (h : s.nextKind = ((k, n, none), t)) : t.pending ≤ s.pending := by
  have hin := (nextKind_input h).2
  have := t.pending_le
  omega

theorem nextKind_eol (hk : s.kind = none)
    (h : s.nextKind = ((k, n, some .eol), t)) : s.atEnd = true ∧ t = s.noError := by
  rw [nextKind_of_none hk] at h
  split_ifs at h with hend
  · cases h
    exact ⟨hend, rfl⟩
  · exfalso
    have hr := readKind_headed s.noError
    unfold readAhead at h
    generalize s.noError.readKind = r at h hr
    cases hr with
    | error other =>
      cases h
      exact other rfl
    | ok input =>
      simp only [remember, Prod.mk.injEq] at h
      have hover := h.1.2.2
      unfold oversize at hover
      split at hover <;> split_ifs at hover <;> cases hover

end Reads

theorem AtEol.pending (h : AtEol s t) : t.pending = s.pending := by
  obtain ⟨k, n, h⟩ := h
  cases hk : s.kind with
  | none =>
    obtain ⟨-, rfl⟩ := nextKind_eol hk h
    rfl
  | some k' =>
    rw [nextKind_of_some hk] at h
    exact congrArg Stream.pending (congrArg Prod.snd h).symm

theorem AtEol.of_peek {r : Kind × ℕ × Option StreamError} (hk : s.nextKind = (r, u))
    (h : AtEol u t) : AtEol s t := by
  obtain ⟨k, n, h⟩ := h
  have hpeek := nextKind_nextKind s
  rw [hk] at hpeek
  exact ⟨k, n, hk.trans (hpeek.symm.trans h)⟩

theorem AtEol.reads (hs : s.Ready) (h : AtEol s t) : Reads s [] t := by
  obtain ⟨k, n, hk⟩ := h
  obtain ⟨-, rfl⟩ := nextKind_eol hs.kind hk
  have hnil := Reads.nil s hs
  exact ⟨hnil.has, hnil.moved⟩

section Operations

variable {a : α} {x : Except StreamError α × Stream}

theorem Outcome.past (h : Outcome s x) (hx : x = (.ok a, t)) : Past s t := by
  subst hx
  cases h with
  | ok past => exact past

theorem Outcome.ahead (h : Outcome s x) (hx : x = (.error .eol, t)) : AtEol s t := by
  subst hx
  cases h with
  | eol ahead => exact ahead
  | error other => exact absurd rfl other

theorem Outcome.of_kind (h : s.nextKind = ((k, n, some e), t)) :
    Outcome (α := α) s (.error e, t) := by
  by_cases he : e = .eol
  · subst he
    exact .eol ⟨k, n, h⟩
  · exact .error he

theorem Past.of_took (hk : s.nextKind = ((k, n, none), u)) (kind : t.kind = none)
    (input : t.input.length + m ≤ u.input.length) : Past s t := by
  have hin := (nextKind_input hk).2
  exact ⟨kind, by omega⟩

theorem bytes_outcome (s : Stream) : Outcome s s.bytes := by
  unfold bytes
  split
  · rename_i hk
    exact .of_kind hk
  · rename_i hk
    exact .ok ⟨rfl, (nextKind_input hk).2⟩
  · rename_i size u hk
    have hf := readFull_took u size
    generalize u.readFull size = r at hf
    cases hf with
    | error other => exact .error other
    | ok kind input =>
      dsimp only
      split_ifs
      · exact .error nofun
      · exact .ok (.of_took hk kind input)
  · exact .error nofun

theorem uint_outcome (s : Stream) (maxbits : ℕ) : Outcome s (s.uint maxbits) := by
  unfold uint
  split
  · rename_i hk
    exact .of_kind hk
  · rename_i hk
    split_ifs
    · exact .error nofun
    · exact .ok ⟨rfl, (nextKind_input hk).2⟩
  · rename_i size u hk
    split_ifs
    · exact .error nofun
    · have hf := readUint_took u size
      generalize u.readUint size = r at hf
      cases hf with
      | error other =>
        refine .error ?_
        split_ifs
        · nofun
        · exact other
      | ok kind input =>
        dsimp only
        split_ifs
        · exact .error nofun
        · exact .ok (.of_took hk kind input)
  · exact .error nofun

theorem bool_outcome (s : Stream) : Outcome s s.bool := by
  have hu := uint_outcome s 8
  unfold bool
  generalize s.uint 8 = r at hu
  cases hu with
  | ok past =>
    split
    · rename_i h
      cases h
    · rename_i h
      cases h
      exact .ok past
    · rename_i h
      cases h
      exact .ok past
    · exact .error nofun
  | eol ahead => exact .eol ahead
  | error other => exact .error other

theorem list_outcome (s : Stream) : Outcome s s.list := by
  unfold list
  split
  · rename_i hk
    exact .of_kind hk
  · rename_i hk
    exact .ok ⟨rfl, (nextKind_input hk).2⟩
  · exact .error nofun

theorem listEnd_pending (h : s.listEnd = (.ok (), t)) : t.pending ≤ s.pending := by
  unfold listEnd at h
  split at h
  · cases h
  · split_ifs at h
    · cases h
    · cases h
      rw [pending_of_none rfl]
      exact Nat.le_add_right _ _

theorem listEnd_ne_eol (h : s.listEnd = (.error e, t)) : e ≠ .eol := by
  unfold listEnd at h
  split at h
  · cases h
    nofun
  · split_ifs at h <;> cases h
    nofun

theorem AtEol.bytes (h : AtEol s t) : s.bytes = (.error .eol, t) := by
  obtain ⟨k, n, hk⟩ := h
  simp only [Stream.bytes, hk]

theorem AtEol.uint (h : AtEol s t) (bits : ℕ) : s.uint bits = (.error .eol, t) := by
  obtain ⟨k, n, hk⟩ := h
  simp only [Stream.uint, hk]

theorem AtEol.list (h : AtEol s t) : s.list = (.error .eol, t) := by
  obtain ⟨k, n, hk⟩ := h
  simp only [Stream.list, hk]

end Operations

theorem rearm_of_kind (h : s.kind = none) : s.rearm = s := by
  cases s
  simp_all [rearm]

theorem listEnd_of_rearm (h : s.rearm.listEnd = (.ok (), t)) : s.listEnd = (.ok (), t) := by
  unfold listEnd rearm at h
  unfold listEnd
  cases hst : s.stack with
  | nil => simp [hst] at h
  | cons p ps =>
    simp only [hst] at h ⊢
    split_ifs at h ⊢ with hpos
    · cases h
    · exact h

theorem Reads.endsAfter {as : Bytes} (h : Reads s as t)
    (hend : s.EndsAfter (as.length + n)) : t.EndsAfter n := by
  obtain ⟨p, ps, hst, hp⟩ := hend
  have hbump : t.stack = bump as.length s.stack := (settled_inj h.moved).2.2.2.2
  rw [hst] at hbump
  exact ⟨⟨p.pos + as.length, p.size⟩, ps, hbump, by simp only; omega⟩

theorem EndsAfter.atEnd (h : s.EndsAfter 0) : s.atEnd = true := by
  obtain ⟨p, ps, hst, hp⟩ := h
  simp only [Stream.atEnd, hst, decide_eq_true_eq]
  omega

theorem EndsAfter.atEol (hs : s.Ready) (h : s.EndsAfter 0) : AtEol s s.noError := by
  refine ⟨.byte, 0, ?_⟩
  rw [nextKind_of_none hs.kind, if_pos h.atEnd]

theorem list_endsAfter (hs : s.Ready) (h : s.list = (.ok n, t)) : t.EndsAfter n := by
  obtain ⟨-, -, -, rfl⟩ := (list_iff hs n t).mp h
  exact ⟨⟨0, n⟩, _, rfl, Nat.zero_add n⟩

end Fiscobcos.Rlp.Stream
