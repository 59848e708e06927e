import Fiscobcos.Rlp.Encode

/-! # Reading an encoding piece by piece (rlp/encode.go)

`encReader` hands out as many bytes as each `Read` asks for, so it can stop inside a header. -/

namespace Fiscobcos.Rlp
open EncBuf List

open Fiscobcos.Numerals Fiscobcos.RlpFormat

/-- The buffer is gone after the end; `piece` is nil unless a piece did not fit. -/
structure EncReader where
  buf : Option EncBuf
  lhpos : ℕ
  strpos : ℕ
  piece : Option Bytes

def EncBuf.reader (w : EncBuf) : EncReader := ⟨some w, 0, 0, none⟩

namespace EncReader

/-- The next piece and the reader after it. A header is encoded into the buffer's nine scratch
bytes, which are not used again before the piece has been read. -/
def next (r : EncReader) : Option Bytes × EncReader :=
  match r.buf with
  | none => (none, r)
  | some buf =>
    match r.piece with
    | some p => (some p, r)
    | none =>
      match buf.lheads[r.lhpos]? with
      | some head =>
        if 0 < head.offset - r.strpos then
          (some ((buf.str.take head.offset).drop r.strpos),
            { r with strpos := r.strpos + (head.offset - r.strpos) })
        else (some head.encode, { r with lhpos := r.lhpos + 1 })
      | none =>
        if r.strpos < buf.str.length then
          (some (buf.str.drop r.strpos), { r with strpos := buf.str.length })
        else (none, r)

/-- The loop of `Read`, with `room` bytes free behind the bytes `out` that are in the caller's
buffer. The flag says whether the error is `io.EOF`. -/
def readLoop : ℕ → EncReader → ℕ → Bytes → Option (EncReader × Bytes × Bool)
  | 0, _, _, _ => none
  | fuel + 1, r, room, out =>
    match r.next with
    | (none, r) => some ({ r with buf := none, piece := none }, out, true)
    | (some p, r) =>
      if room < p.length then
        some ({ r with piece := some (p.drop room) }, out ++ p.take room, false)
      else readLoop fuel { r with piece := none } (room - p.length) (out ++ p)

/-- A list header takes at most two rounds of the loop. -/
def rounds (r : EncReader) : ℕ :=
  match r.buf with
  | none => 1
  | some buf => 2 * (buf.lheads.length - r.lhpos) + 3

def read (r : EncReader) (len : ℕ) : Option (EncReader × Bytes × Bool) :=
  readLoop r.rounds r len []

def reads (r : EncReader) : List ℕ → Option (EncReader × List (Bytes × Bool))
  | [] => some (r, [])
  | len :: lens =>
    match r.read len with
    | none => none
    | some (r, out, eof) =>
      match reads r lens with
      | none => none
      | some (r, outs) => some (r, (out, eof) :: outs)

def pending (r : EncReader) : List Bytes :=
  match r.buf with
  | none => []
  | some buf => r.piece.toList ++ buf.writes (buf.lheads.drop r.lhpos) r.strpos

theorem pending_reader (w : EncBuf) : w.reader.pending = w.toWriter := rfl

theorem drop_of_get {α : Type} {l : List α} {n : ℕ} {x : α} (h : l[n]? = some x) :
    l.drop n = x :: l.drop (n + 1) := by
  rw [drop_eq_getElem?_toList_append, h]
  rfl

theorem drop_of_get_none {α : Type} {l : List α} {n : ℕ} (h : l[n]? = none) : l.drop n = [] :=
  drop_eq_nil_of_le (getElem?_eq_none_iff.mp h)

theorem next_nil {r : EncReader} (h : r.pending = []) : (r.next).1 = none := by
  obtain ⟨buf, lhpos, strpos, piece⟩ := r
  cases buf with
  | none => rfl
  | some buf =>
    cases piece with
    | some p => simp [pending] at h
    | none =>
      cases hget : buf.lheads[lhpos]? with
      | some head =>
        have hdrop := drop_of_get hget
        simp only [pending, hdrop, writes] at h
        split_ifs at h <;> simp at h
      | none =>
        simp only [pending, drop_of_get_none hget, writes] at h
        simp only [next, hget]
        split_ifs with hpos
        · simp [hpos] at h
        · rfl

theorem next_cons {r : EncReader} {p : Bytes} {ps : List Bytes} (h : r.pending = p :: ps) :
    ∃ r', r.next = (some p, r') ∧ r'.buf = r.buf ∧ { r' with piece := none }.pending = ps := by
  obtain ⟨buf, lhpos, strpos, piece⟩ := r
  cases buf with
  | none => cases h
  | some buf =>
    cases piece with
    | some q =>
      obtain ⟨rfl, rfl⟩ := cons.inj h
      exact ⟨_, rfl, rfl, rfl⟩
    | none =>
      cases hget : buf.lheads[lhpos]? with
      | some head =>
        have hdrop := drop_of_get hget
        simp only [pending, hdrop, writes] at h
        simp only [next, hget]
        split_ifs at h ⊢ with hpos
        · obtain ⟨rfl, rfl⟩ := cons.inj h
          have hoff : strpos + (head.offset - strpos) = head.offset := by omega
          have hzero : ¬ 0 < head.offset - head.offset := by omega
          refine ⟨_, rfl, rfl, ?_⟩
          simp only [pending, hdrop, writes, hoff, if_neg hzero]
          rfl
        · obtain ⟨rfl, rfl⟩ := cons.inj h
          exact ⟨_, rfl, rfl, rfl⟩
      | none =>
        simp only [pending, drop_of_get_none hget, writes] at h
        simp only [next, hget]
        split_ifs at h ⊢ with hpos
        · obtain ⟨rfl, rfl⟩ := cons.inj h
          refine ⟨_, rfl, rfl, ?_⟩
          simp only [pending, drop_of_get_none hget, writes, lt_irrefl, if_false]
          rfl
        · cases h

theorem writes_length_le (w : EncBuf) (heads : List ListHead) (strpos : ℕ) :
    (w.writes heads strpos).length ≤ 2 * heads.length + 1 := by
  induction heads generalizing strpos with
  | nil =>
    unfold writes
    split_ifs <;> simp
  | cons head heads ih =>
    unfold writes
    split_ifs
    · have := ih head.offset
      simp only [length_cons]
      omega
    · have := ih strpos
      simp only [length_cons]
      omega

theorem pending_length_lt (r : EncReader) : r.pending.length < r.rounds := by
  obtain ⟨buf, lhpos, strpos, piece⟩ := r
  cases buf with
  | none => exact Nat.one_pos
  | some buf =>
    have hwrites := writes_length_le buf (buf.lheads.drop lhpos) strpos
    have hpiece : piece.toList.length ≤ 1 := by cases piece <;> simp
    rw [length_drop] at hwrites
    simp only [pending, rounds, length_append]
    omega

theorem readLoop_eq (ps : List Bytes) {r : EncReader} (h : r.pending = ps) {fuel : ℕ}
    (hfuel : ps.length < fuel) (room : ℕ) (out : Bytes) : ∃ r', readLoop fuel r room out =
        some (r', out ++ ps.flatten.take room, decide (ps.flatten.length ≤ room)) ∧
      r'.pending.flatten = ps.flatten.drop room := by
  induction ps generalizing r fuel room out with
  | nil =>
    obtain ⟨fuel, rfl⟩ : ∃ f, fuel = f + 1 := ⟨fuel - 1, by omega⟩
    obtain ⟨o, r₁, hnext⟩ : ∃ o r₁, r.next = (o, r₁) := ⟨_, _, rfl⟩
    have hnone : o = none := by
      have := next_nil h
      rw [hnext] at this
      exact this
    subst hnone
    refine ⟨{ r₁ with buf := none, piece := none }, ?_, ?_⟩
    · simp only [readLoop, hnext]
      simp
    · simp [pending]
  | cons p ps ih =>
    obtain ⟨fuel, rfl⟩ : ∃ f, fuel = f + 1 := ⟨fuel - 1, by omega⟩
    obtain ⟨r₁, hnext, hbuf, hrest⟩ := next_cons h
    simp only [readLoop, hnext, flatten_cons, length_append]
    by_cases hroom : room < p.length
    · have hopen : ∃ buf, r₁.buf = some buf := by
        cases hb : r.buf with
        | none => simp [pending, hb] at h
        | some buf => exact ⟨buf, hbuf.trans hb⟩
      obtain ⟨buf, hb⟩ := hopen
      have hafter : { r₁ with piece := some (p.drop room) }.pending = p.drop room :: ps := by
        simp only [pending, hb] at hrest ⊢
        rw [← hrest]
        rfl
      rw [if_pos hroom]
      refine ⟨{ r₁ with piece := some (p.drop room) }, ?_, ?_⟩
      · rw [take_append_of_le_length (by omega), decide_eq_false (by omega)]
      · rw [hafter, flatten_cons, drop_append_of_le_length (by omega)]
    · rw [if_neg hroom]
      obtain ⟨r', hloop, hpending⟩ := ih hrest (by simpa using hfuel) (room - p.length) (out ++ p)
      refine ⟨r', ?_, ?_⟩
      · have htake : (p ++ ps.flatten).take room = p ++ ps.flatten.take (room - p.length) := by
          rw [take_append, take_of_length_le (by omega)]
        have hend : decide (ps.flatten.length ≤ room - p.length) =
            decide (p.length + ps.flatten.length ≤ room) := by
          apply decide_eq_decide.mpr
          omega
        rw [hloop, htake, hend, append_assoc]
      · have hp : p.drop room = [] := drop_of_length_le (by omega)
        rw [hpending, drop_append, hp, nil_append]

theorem read_eq (r : EncReader) (len : ℕ) : ∃ r', r.read len =
        some (r', r.pending.flatten.take len, decide (r.pending.flatten.length ≤ len)) ∧
      r'.pending.flatten = r.pending.flatten.drop len :=
  readLoop_eq r.pending rfl r.pending_length_lt len []

theorem reads_eq (r : EncReader) (lens : List ℕ) :
    ∃ r' outs, r.reads lens = some (r', outs) ∧
      (outs.map Prod.fst).flatten = r.pending.flatten.take lens.sum ∧
      outs.map Prod.snd = (range lens.length).map fun i =>
        decide (r.pending.flatten.length ≤ (lens.take (i + 1)).sum) := by
  induction lens generalizing r with
  | nil => exact ⟨r, [], rfl, by simp, rfl⟩
  | cons len lens ih =>
    obtain ⟨r₁, hread, hrest⟩ := r.read_eq len
    obtain ⟨r', outs, hreads, hbytes, hends⟩ := ih r₁
    have hcalls : r.reads (len :: lens) = some (r', (r.pending.flatten.take len,
        decide (r.pending.flatten.length ≤ len)) :: outs) := by
      simp only [reads, hread, hreads]
    refine ⟨r', _, hcalls, ?_, ?_⟩
    · rw [map_cons, flatten_cons, hbytes, hrest, sum_cons, take_add]
    · rw [map_cons, hends, hrest, length_cons, range_succ_eq_map, map_cons,
        map_map]
      congr 1
      apply map_congr_left
      intro i _
      simp only [Function.comp_apply, Nat.succ_eq_add_one, length_drop, take_succ_cons,
        sum_cons]
      apply decide_eq_decide.mpr
      omega

end EncReader

mutual

def writeItem : Item → EncBuf → EncBuf
  | .str b, w => w.encodeString b
  | .list xs, w => (writeItems xs w.list.2).listEnd w.list.1

def writeItems : List Item → EncBuf → EncBuf
  | [], w => w
  | x :: xs, w => writeItems xs (writeItem x w)

end

mutual

theorem writeItem_pieces : (x : Item) → x.encode.length < 2 ^ 64 →
    ∃ ps, (∀ w, writeItem x w = w.push ps) ∧ rendered ps = x.encode
  | .str b, h => by
    have hlen : b.length < 2 ^ 64 := lt_of_le_of_lt (length_le_encodeStr b) h
    refine ⟨[.data (encodeStr b)], fun w => ?_, ?_⟩
    · rw [writeItem, encodeString_eq w b hlen, push_data]
    · simp [rendered, Piece.bytes, Item.encode]
  | .list xs, h => by
    have hlen : (encodeAll xs).length < 2 ^ 64 := by
      simp only [Item.encode, length_append] at h
      omega
    obtain ⟨ps, hps, hxs⟩ := writeItems_pieces xs hlen
    refine ⟨.head (rendered ps).length :: ps, fun w => ?_, ?_⟩
    · rw [writeItem, hps, listEnd_push]
    · rw [Item.encode, ← hxs, listHeader, ← puthead_eq_header _ _ (by rw [hxs]; exact hlen)]
      simp [rendered, Piece.bytes]

theorem writeItems_pieces : (xs : List Item) → (encodeAll xs).length < 2 ^ 64 →
    ∃ ps, (∀ w, writeItems xs w = w.push ps) ∧ rendered ps = encodeAll xs
  | [], _ => ⟨[], fun w => by rw [writeItems, push_nil], rfl⟩
  | x :: xs, h => by
    simp only [encodeAll, length_append] at h
    obtain ⟨ps, hps, hx⟩ := writeItem_pieces x (by omega)
    obtain ⟨qs, hqs, hxs⟩ := writeItems_pieces xs (by omega)
    refine ⟨ps ++ qs, fun w => ?_, ?_⟩
    · rw [writeItems, hps, hqs, push_push]
    · rw [encodeAll, ← hx, ← hxs]
      simp [rendered]

end

/-- The three ways out of a buffer give the encoding of the items that were written, however the
reader's calls cut it. -/
theorem output_paths_agree (xs : List Item) (hlen : (encodeAll xs).length < 2 ^ 63)
    (lens : List ℕ) (hpos : ∀ len ∈ lens, 0 < len) :
    (writeItems xs .reset).toBytes = encodeAll xs ∧
    (writeItems xs .reset).toWriter.flatten = encodeAll xs ∧
    (writeItems xs .reset).size = (encodeAll xs).length ∧
    ∃ r outs, (writeItems xs .reset).reader.reads lens = some (r, outs) ∧
      (outs.map Prod.fst).flatten = (encodeAll xs).take lens.sum ∧
      ((encodeAll xs).length ≤ lens.length → (outs.map Prod.fst).flatten = encodeAll xs) ∧
      (true ∈ outs.map Prod.snd → (outs.map Prod.fst).flatten = encodeAll xs) ∧
      outs.map Prod.snd = (List.range lens.length).map fun i =>
        decide ((encodeAll xs).length ≤ (lens.take (i + 1)).sum) := by
  obtain ⟨ps, hps, hxs⟩ := writeItems_pieces xs (by omega)
  have hwriter := toWriter_push ps
  obtain ⟨r, outs, hreads, hbytes, hends⟩ := (reset.push ps).reader.reads_eq lens
  rw [EncReader.pending_reader, hwriter, hxs] at hbytes hends
  have hsum : lens.length ≤ lens.sum := length_le_sum_of_one_le lens hpos
  rw [hps, ← hxs]
  refine ⟨toBytes_push ps, hwriter, ?_, r, outs, hreads, ?_, fun hle => ?_, fun heof => ?_, ?_⟩
  · rw [push_size]
    simp [size, reset]
  · rw [hxs, hbytes]
  · rw [hxs] at hle ⊢
    rw [hbytes, take_of_length_le (by omega)]
  · rw [hends] at heof
    obtain ⟨i, -, hi⟩ := mem_map.mp heof
    have hle := of_decide_eq_true hi
    have htake : (lens.take (i + 1)).sum ≤ lens.sum := (take_sublist _ _).sum_le_sum (by simp)
    rw [hxs, hbytes, take_of_length_le (by omega)]
  · rw [hxs, hends]

theorem output_paths_agree_nested :
    ∃ r, (writeItems [.list [.list [], .str [99, 97, 116]]] .reset).reader.reads [2, 1, 5] =
      some (r, [([0xC5, 0xC0], false), ([0x83], false), ([99, 97, 116], true)]) := by
  obtain ⟨-, -, -, r, outs, hreads, -⟩ :=
    output_paths_agree [.list [.list [], .str [99, 97, 116]]] (by decide) [2, 1, 5] (by decide)
  have houts : ((writeItems [.list [.list [], .str [99, 97, 116]]] .reset).reader.reads
      [2, 1, 5]).map Prod.snd =
        some [([0xC5, 0xC0], false), ([0x83], false), ([99, 97, 116], true)] := by decide
  rw [hreads] at houts
  obtain rfl := Option.some.inj houts
  exact ⟨r, hreads⟩

end Fiscobcos.Rlp
