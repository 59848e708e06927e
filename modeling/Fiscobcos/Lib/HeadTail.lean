import Fiscobcos.Lib.Checked
import Fiscobcos.Lib.Numerals

/-! # Head and tail layout

An inline part stands in the head section. A remote part leaves a 32-byte offset there and stands in
the tail section. Every part is found again from its place in the head (`placed_of_layout`). -/

namespace Fiscobcos.HeadTail
open List

open Fiscobcos.Numerals Fiscobcos.Checked

def word (n : ℕ) : Bytes := beBytes 32 n

@[simp] theorem word_length (n : ℕ) : (word n).length = 32 := beBytes_length 32 n

theorem beVal_word {n : ℕ} (h : n < 2 ^ 256) : beVal (word n) = n :=
  beVal_beBytes_of_lt 32 n (lt_of_lt_of_eq h (by norm_num))

def Sits (buf : Bytes) (i : ℕ) (bs : Bytes) : Prop :=
  ∃ before after, buf = before ++ bs ++ after ∧ before.length = i

variable {buf bs as : Bytes} {i o : ℕ}

theorem Sits.le (h : Sits buf i bs) : i + bs.length ≤ buf.length := by
  obtain ⟨before, after, rfl, rfl⟩ := h
  simp

theorem Sits.slice {ε : Type} (h : Sits buf i bs) :
    (slice buf i (i + bs.length) : Outcome ε Bytes) = .ok bs := by
  rw [slice_of_le (by omega) h.le]
  obtain ⟨before, after, rfl, rfl⟩ := h
  rw [← length_append, take_left', drop_left']
  · rfl
  · rfl

theorem sits_append : Sits buf i (as ++ bs) ↔ Sits buf i as ∧ Sits buf (i + as.length) bs := by
  constructor
  · rintro ⟨before, after, rfl, rfl⟩
    exact ⟨⟨before, bs ++ after, by simp, rfl⟩, ⟨before ++ as, after, by simp, by simp⟩⟩
  · rintro ⟨⟨before, after, rfl, rfl⟩, ⟨before', after', heq, hlen⟩⟩
    refine ⟨before, after', ?_, rfl⟩
    have hb : before ++ as = before' := by
      have h := congrArg (take (before.length + as.length)) heq
      rwa [take_left' (by simp), append_assoc, take_left' hlen] at h
    rw [← hb] at heq
    simpa using heq

theorem Sits.drop (h : Sits buf i bs) : Sits (buf.drop i) 0 bs := by
  obtain ⟨before, after, rfl, rfl⟩ := h
  refine ⟨[], after, ?_, rfl⟩
  rw [append_assoc, drop_left, nil_append]

theorem sits_self (bs : Bytes) : Sits bs 0 bs := ⟨[], [], by simp, rfl⟩

inductive Part where
  | inline (bs : Bytes)
  | remote (bs : Bytes)

def Part.headLen : Part → ℕ
  | .inline bs => bs.length
  | .remote _ => 32

def Part.bytes : Part → Bytes
  | .inline bs => bs
  | .remote bs => bs

def headsLen (ps : List Part) : ℕ := (ps.map Part.headLen).sum

def heads : ℕ → List Part → Bytes
  | _, [] => []
  | offset, .inline bs :: ps => bs ++ heads offset ps
  | offset, .remote bs :: ps => word offset ++ heads (offset + bs.length) ps

def tails : List Part → Bytes
  | [] => []
  | .inline _ :: ps => tails ps
  | .remote bs :: ps => bs ++ tails ps

def layout (ps : List Part) : Bytes := heads (headsLen ps) ps ++ tails ps

@[simp] theorem headsLen_nil : headsLen [] = 0 := rfl

@[simp] theorem headsLen_cons (p : Part) (ps : List Part) :
    headsLen (p :: ps) = p.headLen + headsLen ps := rfl

@[simp] theorem heads_length (offset : ℕ) (ps : List Part) :
    (heads offset ps).length = headsLen ps := by
  induction ps generalizing offset with
  | nil => rfl
  | cons p ps ih => cases p <;> simp [heads, ih, Part.headLen]

theorem layout_length (ps : List Part) : (layout ps).length = headsLen ps + (tails ps).length := by
  simp [layout]

def Inline (ps : List Part) : Prop := ∀ p ∈ ps, ∃ bs, p = .inline bs

theorem inline_nil : Inline [] := forall_mem_nil _

variable {ps : List Part}

theorem inline_cons (bs : Bytes) (h : Inline ps) : Inline (.inline bs :: ps) :=
  forall_mem_cons.mpr ⟨⟨bs, rfl⟩, h⟩

theorem Inline.heads (h : Inline ps) (o o' : ℕ) : heads o ps = heads o' ps := by
  induction ps with
  | nil => rfl
  | cons p ps ih =>
    obtain ⟨⟨bs, rfl⟩, hps⟩ := forall_mem_cons.mp h
    rw [HeadTail.heads, HeadTail.heads, ih hps]

theorem Inline.tails (h : Inline ps) : tails ps = [] := by
  induction ps with
  | nil => rfl
  | cons p ps ih =>
    obtain ⟨⟨bs, rfl⟩, hps⟩ := forall_mem_cons.mp h
    exact ih hps

theorem Inline.layout_length (h : Inline ps) : (layout ps).length = headsLen ps := by
  rw [HeadTail.layout_length, h.tails, length_nil, Nat.add_zero]

theorem Inline.layout (h : Inline ps) : layout ps = ps.flatMap Part.bytes := by
  rw [HeadTail.layout, h.tails, append_nil]
  generalize headsLen ps = o
  induction ps with
  | nil => rfl
  | cons p ps ih =>
    obtain ⟨⟨bs, rfl⟩, hps⟩ := forall_mem_cons.mp h
    rw [HeadTail.heads, ih hps, flatMap_cons]
    rfl

theorem headsLen_map {α : Type} {xs : List α} {f : α → Part} {n : ℕ}
    (h : ∀ x ∈ xs, (f x).headLen = n) : headsLen (xs.map f) = xs.length * n := by
  induction xs with
  | nil => simp
  | cons x xs ih =>
    obtain ⟨hx, hxs⟩ := forall_mem_cons.mp h
    rw [map_cons, headsLen_cons, hx, ih hxs, length_cons]
    ring

theorem bytes_le_layout {p : Part} (h : p ∈ ps) : p.bytes.length ≤ (layout ps).length := by
  rw [layout_length]
  induction ps with
  | nil => exact absurd h not_mem_nil
  | cons q ps ih =>
    rcases mem_cons.mp h with rfl | hmem
    · cases p <;> simp [Part.bytes, Part.headLen, tails] <;> omega
    · have hle := ih hmem
      cases q <;> simp [Part.headLen, tails] <;> omega

def At (buf : Bytes) (i : ℕ) : Part → Prop
  | .inline bs => Sits buf i bs
  | .remote bs => ∃ o, Sits buf i (word o) ∧ Sits buf o bs

theorem At.le {p : Part} (h : At buf i p) : i + p.headLen ≤ buf.length := by
  cases p with
  | inline bs => exact Sits.le h
  | remote bs =>
    obtain ⟨o, hword, -⟩ := h
    have hle := hword.le
    rwa [word_length] at hle

def Placed (buf : Bytes) : ℕ → List Part → Prop
  | _, [] => True
  | i, p :: ps => At buf i p ∧ Placed buf (i + p.headLen) ps

theorem placed_of_heads (hh : Sits buf i (heads o ps))
    (ht : Sits buf o (tails ps)) : Placed buf i ps := by
  induction ps generalizing i o with
  | nil => trivial
  | cons p ps ih =>
    cases p with
    | inline bs =>
      obtain ⟨hbs, hrest⟩ := sits_append.mp hh
      exact ⟨hbs, ih hrest ht⟩
    | remote bs =>
      obtain ⟨hword, hrest⟩ := sits_append.mp hh
      obtain ⟨hbs, htails⟩ := sits_append.mp ht
      rw [word_length] at hrest
      exact ⟨⟨o, hword, hbs⟩, ih hrest htails⟩

theorem placed_of_layout (h : Sits buf 0 (layout ps)) : Placed buf 0 ps := by
  obtain ⟨hh, ht⟩ := sits_append.mp h
  rw [heads_length, Nat.zero_add] at ht
  exact placed_of_heads hh ht

end Fiscobcos.HeadTail
