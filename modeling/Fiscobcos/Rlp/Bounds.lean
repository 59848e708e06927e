import Fiscobcos.Rlp.Raw
import Fiscobcos.Rlp.Reflect
import Fiscobcos.Lib.Steps

/-! # Bounds of the decoding stream (rlp/decode.go)

`InBounds L N s`: the open lists are nested and what they announce fits into the rest of the limit
`L`, of the `N` bytes supplied no more are gone than were charged, and a header read ahead announces
no more than there is room for. In a session the reader may get other bytes at any time. -/

namespace Fiscobcos.Rlp

open Fiscobcos.Numerals Fiscobcos.RlpFormat Fiscobcos.Runs

namespace Stream

def NestedAfter (m : ℕ) : List ListPos → Prop
  | [] => True
  | p :: ps => p.pos + m ≤ p.size ∧ p.size < 2 ^ 64 ∧ NestedAfter p.size ps

def leftAfter (m : ℕ) : List ListPos → ℕ
  | [] => 0
  | p :: ps => p.size - p.pos - m + leftAfter p.size ps

theorem NestedAfter.pos_le {m : ℕ} {ps : List ListPos} (h : NestedAfter m ps) :
    ∀ p ∈ ps, p.pos ≤ p.size ∧ p.size < 2 ^ 64 := by
  induction ps generalizing m with
  | nil => simp
  | cons q ps ih =>
    obtain ⟨hq, hsize, hps⟩ := h
    intro p hp
    rcases List.mem_cons.mp hp with rfl | hp
    · exact ⟨by omega, hsize⟩
    · exact ih hps p hp

theorem nestedAfter_bump {n : ℕ} {ps : List ListPos} (h : NestedAfter 0 ps)
    (hn : ∀ p ∈ ps.head?, p.pos + n ≤ p.size) : NestedAfter 0 (bump n ps) := by
  cases ps with
  | nil => trivial
  | cons p ps => exact ⟨by simpa using hn p rfl, h.2⟩

theorem leftAfter_bump {n : ℕ} {p : ListPos} {ps : List ListPos} (hn : p.pos + n ≤ p.size) :
    leftAfter 0 (bump n (p :: ps)) + n = leftAfter 0 (p :: ps) := by
  simp only [bump, leftAfter]
  omega

theorem rest_le_leftAfter {p : ListPos} {ps : List ListPos} :
    p.size - p.pos ≤ leftAfter 0 (p :: ps) := by
  simp only [leftAfter]
  omega

theorem NestedAfter.open {n : ℕ} {ps : List ListPos} (h : NestedAfter 0 ps)
    (hn : ∀ p ∈ ps.head?, p.pos + n ≤ p.size) : NestedAfter n ps := by
  cases ps with
  | nil => trivial
  | cons p ps => exact ⟨hn p rfl, h.2⟩

theorem leftAfter_open {n : ℕ} {ps : List ListPos} (hn : ∀ p ∈ ps.head?, p.pos + n ≤ p.size) :
    leftAfter 0 (⟨0, n⟩ :: ps) = max n (leftAfter 0 ps) := by
  cases ps with
  | nil => simp [leftAfter]
  | cons p ps =>
    have hp := hn p rfl
    simp only [leftAfter]
    omega

theorem closed_list {p : ListPos} {ps : List ListPos} (h : NestedAfter 0 (p :: ps))
    (hp : p.pos = p.size) :
    NestedAfter 0 (addPos p.size ps) ∧ leftAfter 0 (addPos p.size ps) = leftAfter 0 (p :: ps) := by
  cases ps with
  | nil => simp [addPos, NestedAfter, leftAfter, hp]
  | cons q qs =>
    obtain ⟨-, -, hq, hsize, hqs⟩ := h
    simp only [addPos, add64_of_lt (hq.trans_lt hsize), NestedAfter, leftAfter]
    exact ⟨⟨hq, hsize, hqs⟩, by omega⟩

def headLength (k : Kind) (n : ℕ) : ℕ := if k = .byte then 1 else headsize n

structure Announced (L : ℕ) (s : Stream) (k : Kind) (n : ℕ) : Prop where
  list : ∀ p ∈ s.stack.head?, p.pos + n ≤ p.size
  limit : s.limited = true → n ≤ s.remaining
  head : s.limited = true → headLength k n + s.remaining ≤ L
  fits : n < 2 ^ 64

structure InBounds (L N : ℕ) (s : Stream) : Prop where
  nested : NestedAfter 0 s.stack
  within : s.limited = true → leftAfter 0 s.stack ≤ s.remaining
  supplied : s.input.length ≤ N
  charged : s.limited = true → N - s.input.length + s.remaining ≤ L
  ahead : ∀ k, s.kind = some k → s.kinderr = none → Announced L s k s.size

variable {L N : ℕ} {s : Stream}

theorem InBounds.bounded (h : InBounds L N s) : s.Bounded := h.nested.pos_le

theorem InBounds.rearm (h : InBounds L N s) : InBounds L N { s with kind := none } :=
  ⟨h.nested, h.within, h.supplied, h.charged, fun k hk => by cases hk⟩

theorem InBounds.byteval (h : InBounds L N s) (b : Byte) : InBounds L N { s with byteval := b } :=
  ⟨h.nested, h.within, h.supplied, h.charged,
    fun k hk he => by
      have hann := h.ahead k hk he
      exact ⟨hann.list, hann.limit, hann.head, hann.fits⟩⟩

theorem InBounds.spend (h : InBounds L N s) {n : ℕ}
    (hlist : ∀ p ∈ s.stack.head?, p.pos + n ≤ p.size) (hlimit : s.limited = true → n ≤ s.remaining)
    {input : Bytes} (hshort : input.length ≤ s.input.length)
    (hlong : s.input.length ≤ input.length + n) :
    InBounds L N { s.charged n with input := input } where
  nested := nestedAfter_bump h.nested hlist
  within := by
    intro hl
    have hl' : s.limited = true := hl
    have hw := h.within hl'
    have hn := hlimit hl'
    show leftAfter 0 (bump n s.stack) ≤ if s.limited then s.remaining - n else s.remaining
    rw [if_pos hl']
    cases hs : s.stack with
    | nil => exact Nat.zero_le _
    | cons p ps =>
      have := @leftAfter_bump _ _ ps (hlist p (by simp [hs]))
      rw [hs] at hw
      omega
  supplied := hshort.trans h.supplied
  charged := by
    intro hl
    have hl' : s.limited = true := hl
    have hc := h.charged hl'
    have hn := hlimit hl'
    have hN := h.supplied
    show N - input.length + (if s.limited then s.remaining - n else s.remaining) ≤ L
    rw [if_pos hl']
    omega
  ahead := fun k hk => by cases hk

theorem InBounds.willRead_cases (h : InBounds L N s) (n : ℕ) :
    (∃ e, s.willRead n = (.error e, { s with kind := none })) ∨
      s.willRead n = (.ok (), s.charged n) ∧ (∀ p ∈ s.stack.head?, p.pos + n ≤ p.size) ∧
        (s.limited = true → n ≤ s.remaining) := by
  by_cases hlist : ∀ p ∈ s.stack.head?, p.pos + n ≤ p.size
  · by_cases hlimit : s.limited = true → n ≤ s.remaining
    · exact .inr ⟨(willRead_iff h.bounded n _).mpr ⟨⟨hlist, hlimit⟩, rfl⟩, hlist, hlimit⟩
    · left
      push Not at hlimit
      obtain ⟨hl, hn⟩ := hlimit
      have hw := h.within hl
      unfold willRead
      cases hs : s.stack with
      | nil =>
        refine ⟨.valueTooLarge, ?_⟩
        simp [chargeLimit, hl, hn]
      | cons p ps =>
        have hp := hlist p (by simp [hs])
        have := @rest_le_leftAfter p ps
        rw [hs] at hw
        omega
  · left
    push Not at hlist
    obtain ⟨p, hp, hn⟩ := hlist
    unfold willRead
    cases hs : s.stack with
    | nil => simp [hs] at hp
    | cons q qs =>
      obtain rfl : q = p := by simpa [hs] using hp
      have hq := h.bounded q (by simp [hs])
      have hgt : n > sub64 q.size q.pos := by
        rw [sub64_of_le hq.1 hq.2]
        omega
      refine ⟨.elemTooLarge, ?_⟩
      dsimp only
      rw [if_pos hgt]

theorem InBounds.readFull (h : InBounds L N s) (n : ℕ) : InBounds L N (s.readFull n).2 := by
  unfold Stream.readFull
  rcases h.willRead_cases n with ⟨e, hw⟩ | ⟨hw, hlist, hlimit⟩
  · rw [hw]
    exact h.rearm
  · rw [hw]
    have hin : (s.charged n).input = s.input := rfl
    dsimp only
    rw [hin]
    split_ifs with hn
    · refine h.spend hlist hlimit ?_ ?_
      · simp
      · rw [List.length_drop]
        omega
    · refine h.spend hlist hlimit (Nat.zero_le _) ?_
      rw [List.length_nil]
      omega

theorem InBounds.readByte (h : InBounds L N s) : InBounds L N s.readByte.2 := by
  unfold Stream.readByte
  rcases h.willRead_cases 1 with ⟨e, hw⟩ | ⟨hw, hlist, hlimit⟩
  · rw [hw]
    exact h.rearm
  · rw [hw]
    have hin : (s.charged 1).input = s.input := rfl
    dsimp only
    cases hs : (s.charged 1).input with
    | nil =>
      have hkeep := h.spend hlist hlimit (le_refl s.input.length) (Nat.le_add_right _ _)
      rwa [← hin] at hkeep
    | cons b rest =>
      rw [hin] at hs
      refine h.spend hlist hlimit ?_ ?_ <;> rw [hs, List.length_cons]
      exact Nat.le_succ _

theorem InBounds.readUint (h : InBounds L N s) (n : ℕ) : InBounds L N (s.readUint n).2 := by
  match n with
  | 0 => exact h.rearm
  | 1 =>
    have hr := h.readByte
    simp only [Stream.readUint]
    rcases hs : s.readByte with ⟨_ | b, t⟩ <;> rw [hs] at hr <;> exact hr
  | n + 2 =>
    have hr := h.readFull (n + 2)
    simp only [Stream.readUint]
    rcases hs : s.readFull (n + 2) with ⟨_ | buf, t⟩ <;> rw [hs] at hr
    · exact hr
    · dsimp only
      split_ifs <;> exact hr

theorem InBounds.readSize (h : InBounds L N s) (k : Kind) (n : ℕ) :
    InBounds L N (s.readSize k n).2 := by
  have hr := h.readUint n
  unfold Stream.readSize
  rcases hs : s.readUint n with ⟨_ | v, t⟩ <;> rw [hs] at hr <;> exact hr

theorem InBounds.readKind (h : InBounds L N s) : InBounds L N s.readKind.2 := by
  have hr := h.readByte
  unfold Stream.readKind
  rcases hs : s.readByte with ⟨_ | b, t⟩ <;> rw [hs] at hr
  · exact hr
  · have hzero : InBounds L N { t with byteval := 0 } := hr.byteval 0
    dsimp only
    split_ifs
    · exact hr.byteval b
    · exact hzero
    · exact hzero.readSize _ _
    · exact hzero
    · exact hzero.readSize _ _

theorem header_length {k : Kind} {n : ℕ} {b : Byte} {head : Bytes} (h : Header k n b head) :
    n < 2 ^ 64 ∧ head.length = headLength k n := by
  cases h with
  | byte b hb => exact ⟨by norm_num, rfl⟩
  | string n hn =>
    refine ⟨hn, ?_⟩
    rw [headLength, if_neg (by decide), headsize_eq_length 0x80 0xB7, puthead_string hn]
  | list n hn =>
    refine ⟨hn, ?_⟩
    rw [headLength, if_neg (by decide), headsize_eq_length 0xC0 0xF7, puthead_list hn]

theorem InBounds.readKind_head (h : InBounds L N s) {k : Kind} {n : ℕ} {t : Stream}
    (hk : s.readKind = ((k, n, none), t)) :
    n < 2 ^ 64 ∧ (t.limited = true → headLength k n + t.remaining ≤ L) := by
  obtain ⟨b, head, hhdr, hhas, rfl⟩ := (readKind_iff h.bounded k n t).mp hk
  obtain ⟨hn, hlen⟩ := header_length hhdr
  refine ⟨hn, fun hl => ?_⟩
  have hl' : s.limited = true := hl
  have hroom := hhas.room.limit hl'
  have hc := h.charged hl'
  show headLength k n + (if s.limited then s.remaining - head.length else s.remaining) ≤ L
  rw [if_pos hl']
  omega

theorem InBounds.remember (h : InBounds L N s) {k : Kind} {n : ℕ} {err : Option StreamError}
    (hok : err = none → Announced L s k n) : InBounds L N (s.remember k n err).2 := by
  refine ⟨h.nested, h.within, h.supplied, h.charged, fun k' hk he => ?_⟩
  obtain rfl : k = k' := Option.some.inj hk
  have hann := hok he
  exact ⟨hann.list, hann.limit, hann.head, hann.fits⟩

theorem InBounds.announced (h : InBounds L N s) {k : Kind} {n : ℕ} (hover : s.oversize n = none)
    (hn : n < 2 ^ 64 ∧ (s.limited = true → headLength k n + s.remaining ≤ L)) :
    Announced L s k n := by
  have hclaims := (oversize_eq_none h.bounded n).mp hover
  refine ⟨hclaims.list, fun hl => ?_, hn.2, hn.1⟩
  cases hs : s.stack with
  | nil => exact hclaims.limit hs hl
  | cons p ps =>
    have hp := hclaims.list p (by simp [hs])
    have hw := h.within hl
    have := @rest_le_leftAfter p ps
    rw [hs] at hw
    omega

theorem InBounds.readAhead (h : InBounds L N s) : InBounds L N s.readAhead.2 := by
  have hr := h.readKind
  unfold Stream.readAhead
  rcases hs : s.readKind with ⟨⟨k, n, _ | e⟩, t⟩ <;> rw [hs] at hr
  · exact hr.remember fun he => hr.announced he (h.readKind_head hs)
  · exact hr.remember fun he => by cases he

theorem InBounds.noError (h : InBounds L N s) (hk : s.kind = none) : InBounds L N s.noError := by
  refine ⟨h.nested, h.within, h.supplied, h.charged, fun k hk' => ?_⟩
  have hk'' : s.kind = some k := hk'
  rw [hk] at hk''
  cases hk''

theorem InBounds.nextKind (h : InBounds L N s) : InBounds L N s.nextKind.2 := by
  cases hk : s.kind with
  | some k =>
    rw [nextKind_of_some hk]
    exact h
  | none =>
    rw [nextKind_of_none hk]
    split_ifs
    · exact h.noError hk
    · exact (h.noError hk).readAhead

theorem InBounds.nextKind_announced (h : InBounds L N s) {k : Kind} {n : ℕ} {t : Stream}
    (hk : s.nextKind = ((k, n, none), t)) : Announced L t k n := by
  have ht := h.nextKind
  have hagain := nextKind_nextKind s
  rw [hk] at ht hagain
  dsimp only at ht hagain
  cases htk : t.kind with
  | some k' =>
    rw [nextKind_of_some htk] at hagain
    simp only [Prod.mk.injEq, and_true] at hagain
    obtain ⟨rfl, rfl, he⟩ := hagain
    exact ht.ahead k' htk he
  | none =>
    exfalso
    rw [nextKind_of_none htk] at hagain
    split_ifs at hagain
    · cases hagain
    · obtain ⟨u, k', n', err, hrem⟩ := readAhead_remembers t.noError
      rw [hrem] at hagain
      have hkind : (u.remember k' n' err).2.kind = t.kind := by rw [hagain]
      rw [htk] at hkind
      cases hkind

theorem InBounds.nextKind_limited (h : InBounds L N s) {k : Kind} {n : ℕ} {t : Stream}
    (hk : s.nextKind = ((k, n, none), t)) : t.limited = s.limited := by
  cases hkind : s.kind with
  | some k' =>
    rw [nextKind_of_some hkind] at hk
    exact congrArg (fun r => r.2.limited) hk.symm
  | none =>
    obtain ⟨b, head, -, -, -, rfl⟩ := (nextKind_iff ⟨hkind, h.bounded⟩ k n t).mp hk
    rfl

theorem InBounds.bytes (h : InBounds L N s) : InBounds L N s.bytes.2 := by
  have ht := h.nextKind
  unfold Stream.bytes
  rcases hk : s.nextKind with ⟨⟨_ | _ | _, n, _ | e⟩, t⟩ <;> rw [hk] at ht <;> try exact ht
  · exact ht.rearm
  · have hr := ht.readFull n
    dsimp only
    rcases hs : t.readFull n with ⟨_ | b, u⟩ <;> rw [hs] at hr
    · exact hr
    · dsimp only
      split_ifs <;> exact hr

theorem InBounds.raw (h : InBounds L N s) : InBounds L N s.raw.2 := by
  have ht := h.nextKind
  unfold Stream.raw
  rcases hk : s.nextKind with ⟨⟨k, n, _ | e⟩, t⟩ <;> rw [hk] at ht
  · have hr := ht.readFull n
    cases k with
    | byte => exact ht.rearm
    | string | list =>
      dsimp only
      rcases hs : t.readFull n with ⟨_ | b, u⟩ <;> rw [hs] at hr <;> exact hr
  · exact ht

theorem InBounds.uint (h : InBounds L N s) (maxbits : ℕ) : InBounds L N (s.uint maxbits).2 := by
  have ht := h.nextKind
  unfold Stream.uint
  rcases hk : s.nextKind with ⟨⟨_ | _ | _, n, _ | e⟩, t⟩ <;> rw [hk] at ht <;> try exact ht
  · dsimp only
    split_ifs
    · exact ht
    · exact ht.rearm
  · have hr := ht.readUint n
    dsimp only
    split_ifs
    · exact ht
    · rcases hs : t.readUint n with ⟨_ | v, u⟩ <;> rw [hs] at hr
      · exact hr
      · dsimp only
        split_ifs <;> exact hr

theorem InBounds.bool (h : InBounds L N s) : InBounds L N s.bool.2 := by
  have hu := h.uint 8
  unfold Stream.bool
  cases hs : s.uint 8 with
  | mk r t =>
    rw [hs] at hu
    split <;> simp_all

theorem InBounds.list (h : InBounds L N s) : InBounds L N s.list.2 := by
  have ht := h.nextKind
  unfold Stream.list
  rcases hk : s.nextKind with ⟨⟨_ | _ | _, n, _ | e⟩, t⟩ <;> rw [hk] at ht <;> try exact ht
  have hann := h.nextKind_announced hk
  refine ⟨⟨Nat.zero_le _, hann.fits, ht.nested.open hann.list⟩, fun hl => ?_, ht.supplied,
    ht.charged, fun k hk => by cases hk⟩
  have hleft := leftAfter_open hann.list
  have hw : leftAfter 0 t.stack ≤ t.remaining := ht.within hl
  have hn := hann.limit hl
  show leftAfter 0 (⟨0, n⟩ :: t.stack) ≤ t.remaining
  omega

theorem InBounds.listEnd (h : InBounds L N s) : InBounds L N s.listEnd.2 := by
  unfold Stream.listEnd
  cases hs : s.stack with
  | nil => exact h
  | cons p ps =>
    dsimp only
    split_ifs with hpos
    · exact h
    · obtain ⟨hnested, hleft⟩ := closed_list (hs ▸ h.nested) (not_not.mp hpos)
      refine ⟨hnested, fun hl => ?_, h.supplied, h.charged, fun k hk => by cases hk⟩
      have hw := h.within hl
      rw [hs] at hw
      show leftAfter 0 (addPos p.size ps) ≤ s.remaining
      omega

end Stream

structure StreamInvariant (I : Stream → Prop) : Prop where
  rearm : ∀ s, I s → I { s with kind := none }
  nextKind : ∀ s, I s → I s.nextKind.2
  readFull : ∀ s n, I s → I (s.readFull n).2
  bytes : ∀ s, I s → I s.bytes.2
  uint : ∀ s maxbits, I s → I (s.uint maxbits).2
  bool : ∀ s, I s → I s.bool.2
  list : ∀ s, I s → I s.list.2
  listEnd : ∀ s, I s → I s.listEnd.2

namespace Reflect

variable {I : Stream → Prop}

theorem wrapped_keeps {α β : Type} {typ : String} {op : Stream → Except StreamError α × Stream}
    {f : α → Except DecodeError β} (hop : ∀ s, I s → I (op s).2) :
    ∀ s, I s → I (wrapped typ op f s).2 := by
  intro s hs
  have ht := hop s hs
  unfold wrapped
  rcases hr : op s with ⟨_ | a, t⟩ <;> rw [hr] at ht <;> exact ht

theorem decodeByteArray_keeps (hI : StreamInvariant I) (typ : String) (n : ℕ) :
    ∀ s, I s → I (Rlp.decodeByteArray typ n s).2 := by
  intro s hs
  have ht := hI.nextKind s hs
  unfold Rlp.decodeByteArray
  rcases hk : s.nextKind with ⟨⟨_ | _ | _, m, _ | e⟩, t⟩ <;> rw [hk] at ht <;> try exact ht
  · have hu := hI.uint t 64 ht
    dsimp only
    split_ifs
    · exact ht
    · exact ht
    · rcases hr : t.uint 64 with ⟨_ | v, u⟩ <;> rw [hr] at hu <;> exact hu
  · have hr := hI.readFull t n ht
    dsimp only
    split_ifs
    · exact ht
    · exact ht
    · rcases hf : t.readFull n with ⟨_ | b, u⟩ <;> rw [hf] at hr
      · exact hr
      · dsimp only
        split_ifs <;> exact hr

theorem closeList_keeps (hI : StreamInvariant I) {α : Type} (wrap : StreamError → DecodeError)
    (v : α) : Run.Keeps I (closing wrap v) := by
  refine Run.lift_keeps fun s hs => ?_
  have ht := hI.listEnd s hs
  unfold closeList
  rcases hr : s.listEnd with ⟨_ | u, t⟩ <;> rw [hr] at ht <;> exact ht

theorem openList_keeps (hI : StreamInvariant I) (typ : String) :
    Run.Keeps I (.lift (openList typ)) :=
  Run.lift_keeps (wrapped_keeps hI.list)

theorem elemError_keeps {α : Type} {eol : Except DecodeError α} {context : String} :
    ∀ e s, I s → I (elemError eol context e s).2 := by
  intro e s hs
  unfold elemError
  split_ifs <;> exact hs

theorem decodeSliceElems_keeps {dec : Dec Val} (hdec : Run.Keeps I dec) (fuel i : ℕ) :
    Run.Keeps I (decodeSliceElems dec fuel i) := by
  induction fuel generalizing i with
  | zero =>
    intro s x _ hx
    cases hx
  | succ fuel ih =>
    exact Run.handle_keeps hdec elemError_keeps fun v => Run.map_keeps (ih (i + 1))

theorem decodeListSlice_keeps (hI : StreamInvariant I) {dec : Dec Val} (hdec : Run.Keeps I dec)
    (typ : String) (fuel : ℕ) : Run.Keeps I (decodeListSlice typ dec fuel) := by
  refine Run.andThen_keeps (openList_keeps hI typ) fun size => ?_
  split_ifs
  · exact closeList_keeps hI _ _
  · exact Run.andThen_keeps (decodeSliceElems_keeps hdec fuel 0) fun _ => closeList_keeps hI _ _

theorem decodeFixed_keeps (hI : StreamInvariant I) {dec : GoType → FieldTags → Dec Val}
    (hdec : ∀ typ tags, Run.Keeps I (dec typ tags)) (few typ : String)
    (context : FieldInfo → String) (fs : List FieldInfo) :
    Run.Keeps I (decodeFixed few typ context dec fs) := by
  refine Run.andThen_keeps (openList_keeps hI _) fun _ =>
    Run.andThen_keeps ?_ fun _ => closeList_keeps hI _ _
  induction fs with
  | nil => exact Run.lift_keeps fun _ hs => hs
  | cons f fs ih =>
    exact Run.handle_keeps (hdec f.typ f.tags) elemError_keeps fun v => Run.map_keeps ih

theorem makePtrDecoder_keeps (hI : StreamInvariant I) {dec : Dec Val} (hdec : Run.Keeps I dec)
    (e : GoType) (tags : FieldTags) : Run.Keeps I (makePtrDecoder e tags dec) := by
  unfold makePtrDecoder
  split_ifs
  · refine Run.andThen_keeps (Run.lift_keeps fun s hs => ?_) fun empty => ?_
    · have ht := hI.nextKind s hs
      unfold emptyAhead
      rcases hk : s.nextKind with ⟨⟨k, n, _ | e⟩, t⟩ <;> rw [hk] at ht
      · dsimp only
        split_ifs
        · exact ht
        · exact hI.rearm t ht
        · exact ht
      · exact ht
    · split_ifs
      · exact Run.lift_keeps fun _ hs => hs
      · exact Run.map_keeps hdec
  · exact Run.map_keeps hdec

theorem decodeInterface_keeps (hI : StreamInvariant I) {dec : Dec Val} (hdec : Run.Keeps I dec)
    (fuel : ℕ) : Run.Keeps I (decodeInterface dec fuel) := by
  refine Run.andThen_keeps (Run.lift_keeps fun s hs => ?_) fun kind => ?_
  · have ht := hI.nextKind s hs
    unfold kindAhead
    rcases hk : s.nextKind with ⟨⟨k, n, _ | e⟩, t⟩ <;> rw [hk] at ht <;> exact ht
  · split_ifs
    · exact Run.map_keeps (decodeListSlice_keeps hI hdec _ fuel)
    · refine Run.lift_keeps fun t ht => ?_
      have hb := hI.bytes t ht
      rcases hr : t.bytes with ⟨_ | b, u⟩ <;> rw [hr] at hb <;> exact hb

theorem decode_keeps (hI : StreamInvariant I) (D : Decls) (fuel : ℕ) (typ : GoType)
    (tags : FieldTags) : Run.Keeps I (decode D fuel typ tags) := by
  induction fuel generalizing typ tags with
  | zero =>
    intro s x _ hx
    cases hx
  | succ fuel ih =>
    have hwrapped : ∀ {α β : Type} {op : Stream → Except StreamError α × Stream} {name : String}
        {f : α → Except DecodeError β}, (∀ s, I s → I (op s).2) →
          Run.Keeps I (.lift (wrapped name op f)) := fun hop => Run.lift_keeps (wrapped_keeps hop)
    unfold decode makeDecoder
    cases typ.case with
    | bigIntPtr => exact Run.map_keeps (hwrapped hI.bytes)
    | bigInt => exact Run.map_keeps (hwrapped hI.bytes)
    | ptr e => exact makePtrDecoder_keeps hI (ih e noTags) e tags
    | uint u => exact hwrapped fun s => hI.uint s u.bits
    | bool => exact hwrapped hI.bool
    | string => exact Run.map_keeps (hwrapped hI.bytes)
    | byteSlice => exact Run.map_keeps (hwrapped hI.bytes)
    | byteArray n => exact Run.map_keeps (Run.lift_keeps (decodeByteArray_keeps hI _ n))
    | slice e =>
      dsimp only
      split_ifs
      · exact Run.map_keeps (decodeSliceElems_keeps (ih e noTags) fuel 0)
      · exact Run.map_keeps (decodeListSlice_keeps hI (ih e noTags) _ fuel)
    | array n e => exact Run.map_keeps (decodeFixed_keeps hI ih _ _ _ _)
    | struct name => exact Run.map_keeps (decodeFixed_keeps hI ih _ _ _ _)
    | iface => exact decodeInterface_keeps hI (ih .iface noTags) fuel

end Reflect

/-- What a stream reads from. The length of a `bytes.Reader` or `strings.Reader` is known. -/
structure Reader where
  bytes : Bytes
  sized : Bool
  short : sized = true → bytes.length < 2 ^ 63

namespace Stream

/-- `Reset` on any reader. Without a limit the old counter stays, and is not looked at. -/
def resetOn (s : Stream) (r : Reader) (inputLimit : UInt64) : Stream :=
  { input := r.bytes
    remaining := if 0 < inputLimit.toNat then inputLimit.toNat
      else if r.sized then r.bytes.length else s.remaining
    limited := 0 < inputLimit.toNat || r.sized
    kind := none
    size := 0
    byteval := 0
    kinderr := none
    stack := [] }

def new : Stream := ⟨[], 0, false, some .byte, 0, 0, none, []⟩

/-- The length that `Bytes` passes to `make`. -/
def bytesBuffer (s : Stream) : ℕ :=
  match s.nextKind with
  | ((.byte, _, none), _) => 1
  | ((.string, size, none), _) => size
  | _ => 0

/-- The length that `Raw` passes to `make`, a `uint64` sum. -/
def rawBuffer (s : Stream) : ℕ :=
  match s.nextKind with
  | ((.byte, _, none), _) => 1
  | ((_, size, none), _) => add64 (headsize size) size
  | _ => 0

end Stream

/-- The methods, and the parts of them that the decoders of a type use: `uintOf`, `readFull` and
the reset of `kind`. A `Decoder` of the caller is a sequence of these. -/
inductive StreamOp where
  | kind | list | listEnd | bytes | raw | uint | bool
  | decode (D : Decls) (fuel : ℕ) (typ : GoType) (tags : FieldTags)
  | uintOf (maxbits : ℕ)
  | readFull (n : ℕ)
  | rearm

/-- The stream afterwards; none while decoding has not ended. -/
def StreamOp.run (s : Stream) : StreamOp → Option Stream
  | .kind => some s.nextKind.2
  | .list => some s.list.2
  | .listEnd => some s.listEnd.2
  | .bytes => some s.bytes.2
  | .raw => some s.raw.2
  | .uint => some (s.uint 64).2
  | .bool => some s.bool.2
  | .decode D fuel typ tags => (Reflect.decode D fuel typ tags s).map Prod.snd
  | .uintOf maxbits => some (s.uint maxbits).2
  | .readFull n => some (s.readFull n).2
  | .rearm => some { s with kind := none }

/-- A stream since the last `Reset`: the limit set there, 0 for none, and how many bytes the reader
has had to give, those that are still there included. -/
structure Session where
  stream : Stream
  limit : ℕ
  supplied : ℕ

namespace Session

def reset (s : Stream) (r : Reader) (inputLimit : UInt64) : Session :=
  let t := s.resetOn r inputLimit
  ⟨t, if t.limited then t.remaining else 0, r.bytes.length⟩

def newStream (r : Reader) (inputLimit : UInt64) : Session := reset .new r inputLimit

def taken (σ : Session) : ℕ := σ.supplied - σ.stream.input.length

inductive Act where
  | op (a : StreamOp)
  | supply (input : Bytes)
  | reset (r : Reader) (inputLimit : UInt64)

/-- With `supply` the reader has other bytes to give: it had failed before, or fails from now on. -/
inductive Step : Session → Act → Session → Prop
  | op {σ : Session} {a : StreamOp} {t : Stream} (h : a.run σ.stream = some t) :
      Step σ (.op a) { σ with stream := t }
  | supply (σ : Session) (input : Bytes) : Step σ (.supply input)
      { σ with stream := { σ.stream with input := input }, supplied := σ.taken + input.length }
  | reset (σ : Session) (r : Reader) (inputLimit : UInt64) :
      Step σ (.reset r inputLimit) (reset σ.stream r inputLimit)

structure Inv (σ : Session) : Prop where
  bounds : σ.stream.InBounds σ.limit σ.supplied
  limit : σ.limit < 2 ^ 64

theorem inBounds_invariant (L N : ℕ) : StreamInvariant (Stream.InBounds L N) where
  rearm _ h := h.rearm
  nextKind _ h := h.nextKind
  readFull _ n h := h.readFull n
  bytes _ h := h.bytes
  uint _ maxbits h := h.uint maxbits
  bool _ h := h.bool
  list _ h := h.list
  listEnd _ h := h.listEnd

theorem run_inBounds {L N : ℕ} {s t : Stream} {a : StreamOp} (h : s.InBounds L N)
    (ha : a.run s = some t) : t.InBounds L N := by
  cases a with
  | decode D fuel typ tags =>
    obtain ⟨x, hx, rfl⟩ := Option.map_eq_some_iff.mp ha
    exact Reflect.decode_keeps (inBounds_invariant L N) D fuel typ tags s x h hx
  | kind => cases ha; exact h.nextKind
  | list => cases ha; exact h.list
  | listEnd => cases ha; exact h.listEnd
  | bytes => cases ha; exact h.bytes
  | raw => cases ha; exact h.raw
  | uint => cases ha; exact h.uint 64
  | bool => cases ha; exact h.bool
  | uintOf maxbits => cases ha; exact h.uint maxbits
  | readFull n => cases ha; exact h.readFull n
  | rearm => cases ha; exact h.rearm

theorem reset_inv (s : Stream) (r : Reader) (inputLimit : UInt64) : (reset s r inputLimit).Inv where
  bounds := by
    refine ⟨trivial, fun _ => Nat.zero_le _, le_rfl, fun hl => ?_, fun k hk => by cases hk⟩
    have hl' : (s.resetOn r inputLimit).limited = true := hl
    show r.bytes.length - r.bytes.length + _ ≤ if (s.resetOn r inputLimit).limited then _ else 0
    rw [if_pos hl', Nat.sub_self, Nat.zero_add]
    rfl
  limit := by
    have hlimit := inputLimit.toNat_lt
    have hshort := r.short
    show (if (decide (0 < inputLimit.toNat) || r.sized) = true then if 0 < inputLimit.toNat then
      inputLimit.toNat else if r.sized then r.bytes.length else s.remaining else 0) < 2 ^ 64
    by_cases hpos : 0 < inputLimit.toNat
    · simpa [hpos] using hlimit
    · by_cases hsized : r.sized = true
      · have := hshort hsized
        simp only [hpos, hsized, decide_false, Bool.or_true, if_true, if_false]
        omega
      · simp [hpos, hsized]

theorem Inv.step {σ σ' : Session} {a : Act} (h : σ.Inv) (hs : Step σ a σ') : σ'.Inv := by
  cases hs with
  | reset r inputLimit => exact reset_inv _ r inputLimit
  | supply input =>
    obtain ⟨hb, hlimit⟩ := h
    refine ⟨⟨hb.nested, hb.within, Nat.le_add_left _ _, fun hl => ?_, fun k hk he => ?_⟩, hlimit⟩
    · have hc := hb.charged hl
      show σ.taken + input.length - input.length + σ.stream.remaining ≤ σ.limit
      rwa [Nat.add_sub_cancel]
    · have hann := hb.ahead k hk he
      exact ⟨hann.list, hann.limit, hann.head, hann.fits⟩
  | op ha => exact ⟨run_inBounds h.bounds ha, h.limit⟩

/-- What is to hold between the calls: positions within their lists, sizes that `Kind` reports
within the list and the limit, a counter that goes down by what is charged to it, no more bytes
taken than were charged, and no buffer above the limit. -/
structure Safe (σ : Session) : Prop where
  lists : ∀ p ∈ σ.stream.stack, p.pos ≤ p.size
  announced : ∀ k n t, σ.stream.nextKind = ((k, n, none), t) →
    (∀ p ∈ t.stack.head?, p.pos + n ≤ p.size) ∧ (t.limited = true → n ≤ t.remaining)
  counter : ∀ n t, σ.stream.limited = true → σ.stream.willRead n = (.ok (), t) →
    t.remaining + n = σ.stream.remaining
  reads : σ.stream.limited = true → σ.taken + σ.stream.remaining ≤ σ.limit
  buffers : σ.stream.limited = true → σ.stream.bytesBuffer ≤ σ.limit ∧ σ.stream.rawBuffer ≤ σ.limit

theorem Inv.safe {σ : Session} (h : σ.Inv) : σ.Safe where
  lists p hp := (h.bounds.bounded p hp).1
  announced k n t hk := by
    have hann := h.bounds.nextKind_announced hk
    exact ⟨hann.list, hann.limit⟩
  counter n t hl hw := by
    obtain ⟨⟨-, hn⟩, rfl⟩ := (Stream.willRead_iff h.bounds.bounded n t).mp hw
    have hle := hn hl
    show (if σ.stream.limited then σ.stream.remaining - n else σ.stream.remaining) + n = _
    rw [if_pos hl]
    omega
  reads hl := h.bounds.charged hl
  buffers hl := by
    unfold Stream.bytesBuffer Stream.rawBuffer
    cases hk : σ.stream.nextKind with
    | mk r t =>
      obtain ⟨k, n, err⟩ := r
      cases err with
      | some e => cases k <;> simp
      | none =>
        have hann := h.bounds.nextKind_announced hk
        have hlt : t.limited = true := (h.bounds.nextKind_limited hk).trans hl
        have hn := hann.limit hlt
        have hhead := hann.head hlt
        have hlimit := h.limit
        unfold Stream.headLength at hhead
        cases k with
        | byte =>
          dsimp only
          rw [if_pos rfl] at hhead
          omega
        | string | list =>
          dsimp only
          rw [if_neg (by decide)] at hhead
          rw [Stream.add64_of_lt (by omega)]
          omega

/-- Whatever is done with the stream, and whatever its reader does. -/
theorem stream_stays_in_bounds (r : Reader) (inputLimit : UInt64) (σ : Session)
    (h : Steps.Reach Step (fun _ _ => True) (newStream r inputLimit) σ) : σ.Safe :=
  (h.invariant (reset_inv .new r inputLimit) fun _ _ _ hi _ hs => hi.step hs).safe

theorem stream_stays_in_bounds_pair :
    (Session.mk ⟨[2], 1, true, none, 0, 1, none, [⟨1, 2⟩]⟩ 3 3).Safe := by
  refine stream_stays_in_bounds ⟨[0xC2, 1, 2], true, fun _ => by decide⟩ 0 _ ?_
  have hlist : StreamOp.list.run (newStream ⟨[0xC2, 1, 2], true, fun _ => by decide⟩ 0).stream =
      some ⟨[1, 2], 2, true, none, 0, 0, none, [⟨0, 2⟩]⟩ := by decide +kernel
  have hbytes : StreamOp.bytes.run ⟨[1, 2], 2, true, none, 0, 0, none, [⟨0, 2⟩]⟩ =
      some ⟨[2], 1, true, none, 0, 1, none, [⟨1, 2⟩]⟩ := by decide +kernel
  exact ((Steps.Reach.refl _).tail (.op hlist) trivial).tail (.op hbytes) trivial

end Session

end Fiscobcos.Rlp
