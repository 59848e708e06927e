import Fiscobcos.Rlp.Decode

/-! # Raw values and slices (rlp/decode.go) -/

namespace Fiscobcos.Rlp
open Rlp.Stream

open Fiscobcos.Numerals Fiscobcos.RlpFormat Fiscobcos.Runs

/-- Header and content of a value. In a strict value a string of one byte below 128 has no
header. -/
inductive ValueCode (strict : Bool) : Kind → Bytes → Bytes → Prop
  | byte (c : Byte) (hc : c.val < 128) : ValueCode strict .byte [] [c]
  | string (content : Bytes) (hlen : content.length < 2 ^ 64)
      (hown : strict = true → isOwnCode content = false) :
      ValueCode strict .string (strHeader content.length) content
  | list (content : Bytes) (hlen : content.length < 2 ^ 64) :
      ValueCode strict .list (listHeader content.length) content

namespace Stream

/-- `Raw`: the header has been consumed, so it is written again. -/
def raw (s : Stream) : Except StreamError Bytes × Stream :=
  match s.nextKind with
  | ((_, _, some e), s) => (.error e, s)
  | ((.byte, _, none), s) => (.ok [s.byteval], { s with kind := none })
  | ((kind, size, none), s) =>
    match s.readFull size with
    | (.error e, s) => (.error e, s)
    | (.ok b, s) =>
      (.ok ((if kind = .string then puthead 0x80 0xB7 size else puthead 0xC0 0xF7 size) ++ b), s)

variable {s t s' : Stream} {k : Kind} {head content : Bytes}

theorem puthead_string {n : ℕ} (h : n < 2 ^ 64) : puthead 0x80 0xB7 n = strHeader n :=
  puthead_eq_header 0x80 0xB7 h

theorem puthead_list {n : ℕ} (h : n < 2 ^ 64) : puthead 0xC0 0xF7 n = listHeader n :=
  puthead_eq_header 0xC0 0xF7 h

theorem raw_header {c : Byte} {n : ℕ} (h : Header k n c head) (hk : k ≠ .byte)
    (hlen : content.length = n) : ValueCode false k head content ∧
      (if k = .string then puthead 0x80 0xB7 n else puthead 0xC0 0xF7 n) = head := by
  cases h with
  | byte => exact absurd rfl hk
  | string n hn =>
    subst hlen
    exact ⟨.string content hn nofun, puthead_string hn⟩
  | list n hn =>
    subst hlen
    exact ⟨.list content hn, puthead_list hn⟩

theorem raw_of_code (hs : s.Ready) (hcode : ValueCode false k head content)
    (h : s.Has (head ++ content)) :
    ∃ s', s.raw = (.ok (head ++ content), s') ∧ Reads s (head ++ content) s' := by
  have hraw : ∀ {k c}, Header k content.length c head → k ≠ .byte →
      ∃ s', s.raw = (.ok (head ++ content), s') ∧ Reads s (head ++ content) s' := by
    intro k c hhdr hk
    obtain ⟨t, u, hkind, hr, hreads⟩ := contents_complete hs hhdr h
    refine ⟨u, ?_, hreads⟩
    unfold raw
    rw [hkind]
    cases k with
    | byte => exact absurd rfl hk
    | string | list =>
      dsimp only
      rw [hr, (raw_header hhdr hk rfl).2]
  cases hcode with
  | byte c hc =>
    refine ⟨{ (s.advance 1).found .byte 0 c with kind := none }, ?_, h, rfl⟩
    simp only [raw, nextKind_byte hs hc h]
    rfl
  | string content hlen hown => exact hraw (.string _ hlen) nofun
  | list content hlen => exact hraw (.list _ hlen) nofun

theorem raw_inv (hs : s.Ready) {b : Bytes} (h : s.raw = (.ok b, s')) :
    ∃ k head content, ValueCode false k head content ∧ b = head ++ content ∧ Reads s b s' := by
  unfold raw at h
  rcases hk : s.nextKind with ⟨⟨k, n, _ | e⟩, t⟩ <;> rw [hk] at h
  · cases k with
    | byte =>
      obtain ⟨c, head, hhdr, hhas, -, rfl⟩ := (nextKind_iff hs _ n t).mp hk
      cases hhdr with
      | byte c hlt =>
        cases h
        exact ⟨.byte, [], [c], .byte c hlt, rfl, hhas, rfl⟩
    | string | list =>
      dsimp only at h
      rcases hr : t.readFull n with ⟨e | body, u⟩ <;> rw [hr] at h <;> cases h
      obtain ⟨c, head, hhdr, rfl, hreads⟩ := contents_sound hs hk hr
      obtain ⟨hcode, hhead⟩ := raw_header hhdr nofun rfl
      rw [hhead]
      exact ⟨_, head, body, hcode, rfl, hreads⟩
  · cases h

theorem raw_complete (hs : s.Ready) {x : Item} (hfit : x.Fits) (h : s.Has x.encode) :
    ∃ s', s.raw = (.ok x.encode, s') ∧ Reads s x.encode s' := by
  cases x with
  | str bs =>
    rcases strHeader_cases bs hfit with ⟨b, hb, rfl, henc⟩ | ⟨-, -, henc⟩
    · rw [Item.encode, henc] at h ⊢
      exact raw_of_code hs (.byte b hb) h
    · rw [Item.encode, henc] at h ⊢
      exact raw_of_code hs (.string bs hfit nofun) h
  | list xs => exact raw_of_code hs (.list _ hfit) h

theorem raw_outcome (s : Stream) : Outcome s s.raw := by
  unfold raw
  split
  · rename_i hk
    exact .of_kind hk
  · rename_i hk
    exact .ok ⟨rfl, (nextKind_input hk).2⟩
  · rename_i size u _ hk
    have hf := readFull_took u size
    generalize u.readFull size = r at hf
    cases hf with
    | error other => exact .error other
    | ok kind input => exact .ok (.of_took hk kind input)

theorem AtEol.raw (h : AtEol s t) : s.raw = (.error .eol, t) := by
  obtain ⟨k, n, hk⟩ := h
  simp only [Stream.raw, hk]

end Stream

/-- The loop over the elements, `i` of them so far. A round that succeeds has consumed an element,
so with more rounds than bytes the first case is not reached. -/
def decodeSliceElems {α : Type} (elemdec : Decoder α) : ℕ → ℕ → Decoder (List α)
  | 0, _ => fun s => (.ok [], s)
  | rounds + 1, i =>
    .handle elemdec (elemError (.ok []) (indexContext i)) fun v =>
      .map (v :: ·) (decodeSliceElems elemdec rounds (i + 1))

def decodeListSlice {α : Type} (typ : String) (elemdec : Decoder α) : Decoder (List α) :=
  .andThen (openList typ) fun size =>
    if size = 0 then closeList .stream []
    else .andThen (fun s => decodeSliceElems elemdec (s.input.length + 1) 0 s) (closeList .stream)

section Slices

variable {α : Type} {elemdec : Decoder α} {R : Item → α → Prop} {s t s' : Stream} {vs : List α}
  {n i : ℕ}

theorem Stream.Reads.shorter {x : Item} (h : Reads s x.encode t) :
    t.input.length < s.input.length := by
  have hpos := List.length_pos_of_ne_nil x.encode_ne_nil
  rw [h.input, List.length_append]
  omega

theorem decodeSliceElems_complete (h : Decodes elemdec R) {xs : List Item}
    (hx : List.Forall₂ R xs vs) (hlen : (encodeAll xs).length < 2 ^ 64)
    (hs : s.Ready) (hn : s.input.length < n) (hhas : s.Has (encodeAll xs))
    (hend : s.EndsAfter (encodeAll xs).length) :
    ∃ s', decodeSliceElems elemdec n i s = (.ok vs, s') ∧ Reads s (encodeAll xs) s' := by
  obtain ⟨n, rfl⟩ : ∃ k, n = k + 1 := ⟨n - 1, by omega⟩
  induction hx generalizing n i s with
  | nil =>
    have hat := EndsAfter.atEol hs hend
    exact ⟨s.noError, Total.handle_eq.mpr (.inl ⟨_, _, h.eol.mpr hat, rfl⟩), hat.reads hs⟩
  | @cons x v xs vs hxv _ ih =>
    have hp := x.payload_le
    simp only [encodeAll, List.length_append] at hlen hhas hend ⊢
    have hhead := (Has.append_iff s _ _).mp hhas
    obtain ⟨t, hd, hr⟩ := h.complete hxv (by unfold Item.Fits; omega) hs hhead.1
    have hlt := hr.shorter
    obtain ⟨k, rfl⟩ : ∃ k, n = k + 1 := ⟨n - 1, by omega⟩
    obtain ⟨u, hd', hr'⟩ := ih (by omega) (hr.ready hs.bounded) (hr.has_rest hhas)
      (hr.endsAfter hend) (n := k) (i := i + 1) (by omega)
    exact ⟨u, Total.handle_eq.mpr (.inr ⟨v, t, hd, Total.map_ok.mpr ⟨vs, hd', rfl⟩⟩), hr.trans hr'⟩

theorem decodeSliceElems_sound (h : Decodes elemdec R) (hs : s.Ready) (hn : s.input.length < n)
    (hd : decodeSliceElems elemdec n i s = (.ok vs, s')) :
    ∃ xs, List.Forall₂ R xs vs ∧ Reads s (encodeAll xs) s' := by
  induction n generalizing i s vs with
  | zero => omega
  | succ n ih =>
    rcases Total.handle_eq.mp hd with ⟨e, t, hv, he⟩ | ⟨v, t, hv, hrest⟩
    · unfold elemError at he
      split_ifs at he with hend
      · subst hend
        cases he
        exact ⟨[], .nil, (h.eol.mp hv).reads hs⟩
      · cases he
    · obtain ⟨ws, hws, rfl⟩ := Total.map_ok.mp hrest
      obtain ⟨x, hx, -, hr⟩ := h.sound hs hv
      have hlt := hr.shorter
      obtain ⟨xs, hxs, hr'⟩ := ih (hr.ready hs.bounded) (by omega) hws
      exact ⟨x :: xs, .cons hx hxs, hr.trans hr'⟩

theorem decodeSliceElems_ne_eol : decodeSliceElems elemdec n i s ≠ (.error (.stream .eol), t) := by
  induction n generalizing i s with
  | zero => nofun
  | succ n ih =>
    intro hd
    rcases Total.handle_eq.mp hd with ⟨e, u, -, he⟩ | ⟨v, u, -, hrest⟩
    · exact elemError_ne_eol (by nofun) he
    · exact ih (Total.map_error.mp hrest)

theorem decodeListSlice_decodes (h : Decodes elemdec R) (typ : String) :
    Decodes (decodeListSlice typ elemdec)
      fun x vs => ∃ xs, x = .list xs ∧ List.Forall₂ R xs vs where
  complete {x vs s} hx hfit hs hhas := by
    obtain ⟨xs, rfl, hxs⟩ := hx
    obtain ⟨t, hopen, hready, hbody, hends, hclose⟩ := openList_complete hs hfit hhas typ
    by_cases h0 : (encodeAll xs).length = 0
    · -- an empty list is not looped over
      obtain rfl := encodeAll_eq_nil h0
      cases hxs
      obtain ⟨s', hc, hreads⟩ := hclose t .stream ([] : List α)
        ((rearm_of_kind hready.kind).symm ▸ .nil t hready)
      exact ⟨s', Total.andThen_ok.mpr ⟨_, t, hopen, by rw [if_pos h0]; exact hc⟩, hreads⟩
    · obtain ⟨u, hd, hr⟩ := decodeSliceElems_complete h hxs hfit (i := 0) hready
        (Nat.lt_succ_self _) hbody hends
      have hk := (hr.ready hready.bounded).kind
      obtain ⟨s', hc, hreads⟩ := hclose u .stream vs ((rearm_of_kind hk).symm ▸ hr)
      refine ⟨s', Total.andThen_ok.mpr ⟨_, t, hopen, ?_⟩, hreads⟩
      rw [if_neg h0]
      exact Total.andThen_ok.mpr ⟨vs, u, hd, hc⟩
  sound {vs s s'} hs hd := by
    obtain ⟨n, t, hopen, hrest⟩ := Total.andThen_ok.mp hd
    have hready := openList_ready hs hopen
    split_ifs at hrest with h0
    · have hnil : Reads t (encodeAll []) t := .nil t hready
      obtain ⟨rfl, hfit, hreads⟩ := closeList_sound hs hopen hnil hrest
      exact ⟨.list [], ⟨[], rfl, .nil⟩, hfit, hreads⟩
    · obtain ⟨ws, u, hws, hclose⟩ := Total.andThen_ok.mp hrest
      obtain ⟨xs, hxs, hr⟩ := decodeSliceElems_sound h hready (Nat.lt_succ_self _) hws
      obtain ⟨rfl, hfit, hreads⟩ := closeList_sound hs hopen hr hclose
      exact ⟨.list xs, ⟨xs, rfl, hxs⟩, hfit, hreads⟩
  eol := inList_eol fun n u => by
    split_ifs
    · exact closeList_ne_eol stream_eol
    · exact andThen_close_ne_eol (fun _ => decodeSliceElems_ne_eol) stream_eol

end Slices

end Fiscobcos.Rlp
