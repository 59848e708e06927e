import Fiscobcos.Lib.Runs
import Fiscobcos.Rlp.Progress

/-! # Typed RLP decoders (rlp/decode.go, rlp/typecache.go)

`TypeInfo` holds the writer and the decoder that the source builds for a Go type. `Decodes` says
which items a decoder reads and as what; `Implements` adds the writer. -/

namespace Fiscobcos.Rlp
open Rlp.Stream

open Fiscobcos.Numerals Fiscobcos.RlpFormat Fiscobcos.Runs

inductive DecodeError where
  | stream (e : StreamError)
  | decode (msg typ : String) (ctx : List String)
deriving DecidableEq, Repr

def DecodeError.message : DecodeError → String
  | .stream e => e.message
  | .decode msg typ [] => "rlp: " ++ msg ++ " for " ++ typ
  | .decode msg typ ctx =>
    "rlp: " ++ msg ++ " for " ++ typ ++ ", decoding into " ++ String.join ctx.reverse

def wrapStreamError (err : StreamError) (typ : String) : DecodeError :=
  match err with
  | .canonInt => .decode "non-canonical integer (leading zero bytes)" typ []
  | .canonSize => .decode "non-canonical size information" typ []
  | .expectedList => .decode "expected input list" typ []
  | .expectedString => .decode "expected input string or byte" typ []
  | .uintOverflow => .decode "input string too long" typ []
  | .notAtEOL => .decode "input list has too many elements" typ []
  | err => .stream err

def addErrorContext (err : DecodeError) (ctx : String) : DecodeError :=
  match err with
  | .decode msg typ cs => .decode msg typ (cs ++ [ctx])
  | err => err

abbrev Decoder (α : Type) := Total Stream DecodeError α

def wrapped {α β : Type} (typ : String) (op : Stream → Except StreamError α × Stream)
    (f : α → Except DecodeError β) : Decoder β := fun s =>
  match op s with
  | (.error e, s) => (.error (wrapStreamError e typ), s)
  | (.ok v, s) => (f v, s)

def decodeUintAs (typ : String) : Decoder UInt64 :=
  wrapped typ (·.uint 64) fun num => .ok (.ofNat num)

def decodeUint64 : Decoder UInt64 := decodeUintAs "uint64"

def decodeBigInt : Decoder (Option ℤ) := wrapped "*big.Int" (·.bytes) fun b =>
  if b.head? = some 0 then .error (wrapStreamError .canonInt "*big.Int")
  else .ok (some (beVal b : ℤ))

/-- Byte slices and strings; the two differ in the name of the type. Nil and empty are one value. -/
def decodeContents (typ : String) : Decoder Bytes := wrapped typ (·.bytes) .ok

/-- A nil slice is `none`; the decoder never leaves one. -/
def decodeByteSlice : Decoder (Option Bytes) := .map some (decodeContents "[]uint8")

abbrev ByteArray (n : ℕ) := { bs : Bytes // bs.length = n }

def fillArray (n : ℕ) (bs : Bytes) : ByteArray n :=
  ⟨(bs ++ List.replicate n 0).take n, by simp⟩

def decodeByteArray (typ : String) (vlen : ℕ) : Decoder (ByteArray vlen) := fun s =>
  match s.nextKind with
  | ((_, _, some e), s) => (.error (.stream e), s)
  | ((.byte, _, none), s) =>
    if vlen = 0 then (.error (.decode "input string too long" typ []), s)
    else if vlen > 1 then (.error (.decode "input string too short" typ []), s)
    else
      -- the error of Uint is dropped
      match s.uint 64 with
      | (.error _, s) => (.ok (fillArray vlen [0]), s)
      | (.ok bv, s) => (.ok (fillArray vlen [lowByte bv]), s)
  | ((.string, size, none), s) =>
    if vlen < size then (.error (.decode "input string too long" typ []), s)
    else if vlen > size then (.error (.decode "input string too short" typ []), s)
    else
      match s.readFull vlen with
      | (.error e, s) => (.error (.stream e), s)
      | (.ok b, s) =>
        if isOwnCode b then (.error (wrapStreamError .canonSize typ), s)
        else (.ok (fillArray vlen b), s)
  | ((.list, _, none), s) => (.error (wrapStreamError .expectedString typ), s)

/-- Whether the value ahead is empty and so stands for a nil pointer; then it is skipped. -/
def emptyAhead (typ : String) (nilKind : Kind) : Decoder Bool := fun s =>
  match s.nextKind with
  | ((_, _, some e), s) => (.error (wrapStreamError e typ), s)
  | ((kind, size, none), s) =>
    if kind ≠ .byte ∧ size = 0 then
      if kind ≠ nilKind then
        (.error (.decode ("wrong kind of empty value (got " ++ kind.toString ++ ", want " ++
          nilKind.toString ++ ")") typ []), s)
      else (.ok true, { s with kind := none })
    else (.ok false, s)

def makeNilPtrDecoder {α : Type} (typ : String) (nilKind : Kind) (dec : Decoder α) :
    Decoder (Option α) :=
  .andThen (emptyAhead typ nilKind) fun empty =>
    if empty then fun s => (.ok none, s) else .map some dec

def makeSimplePtrDecoder {α : Type} (dec : Decoder α) : Decoder (Option α) := .map some dec

def openList (typ : String) : Decoder ℕ := wrapped typ (·.list) .ok

def closeList {α : Type} (wrap : StreamError → DecodeError) (v : α) : Decoder α := fun s =>
  match s.listEnd with
  | (.error e, s) => (.error (wrap e), s)
  | (.ok _, s) => (.ok v, s)

/-- An element that is not there has no error of its own, `eol` is the answer then. -/
def elemError {α : Type} (eol : Except DecodeError α) (context : String) (e : DecodeError)
    (s : Stream) : Except DecodeError α × Stream :=
  if e = .stream .eol then (eol, s) else (.error (addErrorContext e context), s)

def indexContext (i : ℕ) : String := "[" ++ i.repr ++ "]"

def decodeNoFields : Decoder Unit := fun s => (.ok (), s)

def decodeField {α β : Type} (typ name : String) (dec : Decoder α) (fields : Decoder β) :
    Decoder (α × β) :=
  .handle dec (elemError (.error (.decode "too few elements" typ [])) ("." ++ name))
    fun a => .map (a, ·) fields

def makeStructDecoder {β : Type} (typ : String) (fields : Decoder β) : Decoder β :=
  .andThen (openList typ) fun _ => .andThen fields (closeList (wrapStreamError · typ))

def decodeValue {α : Type} (typ : String) (dec : Decoder α) : Decoder α := fun s =>
  match dec s with
  | (.error (.decode msg t (c :: cs)), s) =>
    (.error (addErrorContext (.decode msg t (c :: cs)) ("(" ++ typ ++ ")")), s)
  | r => r

def decodeBytes {α : Type} (typ : String) (dec : Decoder α) (b : Bytes) : Except DecodeError α :=
  match decodeValue typ dec (.reset b b.length) with
  | (.error e, _) => .error e
  | (.ok v, s) => if 0 < s.input.length then .error (.stream .moreThanOneValue) else .ok v

structure Decodes {α : Type} (dec : Decoder α) (R : Item → α → Prop) : Prop where
  complete : ∀ {x v} {s : Stream}, R x v → x.Fits → s.Ready → s.Has x.encode →
    ∃ s', dec s = (.ok v, s') ∧ Stream.Reads s x.encode s'
  sound : ∀ {v} {s s' : Stream}, s.Ready → dec s = (.ok v, s') →
    ∃ x, R x v ∧ x.Fits ∧ Stream.Reads s x.encode s'
  /-- The end of a list is reported where it is, and nowhere else. -/
  eol : ∀ {s t : Stream}, dec s = (.error (.stream .eol), t) ↔ s.AtEol t

structure DecodesFields {β : Type} (dec : Decoder β) (R : List Item → β → Prop) : Prop where
  complete : ∀ {xs v} {s : Stream}, R xs v → (encodeAll xs).length < 2 ^ 64 → s.Ready →
    s.Has (encodeAll xs) → ∃ s', dec s = (.ok v, s') ∧ Stream.Reads s (encodeAll xs) s'
  sound : ∀ {v} {s s' : Stream}, s.Ready → dec s = (.ok v, s') →
    ∃ xs, R xs v ∧ Stream.Reads s (encodeAll xs) s'
  ne_eol : ∀ {s t : Stream}, dec s ≠ (.error (.stream .eol), t)

variable {α β : Type} {typ : String} {s t s' : Stream} {dec : Decoder α} {R : Item → α → Prop}
  {fields : Decoder β} {S : List Item → β → Prop} {b : Bytes} {v : α} {n : ℕ}

theorem Decodes.congr {R' : Item → α → Prop} (h : Decodes dec R) (hR : ∀ x v, R x v ↔ R' x v) :
    Decodes dec R' := by
  have heq : R = R' := by
    funext x v
    exact propext (hR x v)
  exact heq ▸ h

theorem DecodesFields.congr {S' : List Item → β → Prop} (h : DecodesFields fields S)
    (hS : ∀ xs v, S xs v ↔ S' xs v) : DecodesFields fields S' := by
  have heq : S = S' := by
    funext xs v
    exact propext (hS xs v)
  exact heq ▸ h

section Whole

theorem reset_ready (b : Bytes) (n : ℕ) : (reset b n).Ready :=
  ⟨rfl, fun _ hp => absurd hp (by simp [reset])⟩

theorem reset_has (b : Bytes) : (reset b b.length).Has b := by
  refine ⟨⟨le_rfl, by simp [reset], fun _ => ?_⟩, List.take_length⟩
  simp only [reset]
  split_ifs <;> omega

theorem decodeValue_ok : decodeValue typ dec s = (.ok v, s') ↔ dec s = (.ok v, s') := by
  unfold decodeValue
  split
  · rename_i h
    simp [h]
  · exact Iff.rfl

theorem decodeValue_eol :
    decodeValue typ dec s = (.error (.stream .eol), t) ↔ dec s = (.error (.stream .eol), t) := by
  unfold decodeValue
  split
  · rename_i h
    simp [h, addErrorContext]
  · exact Iff.rfl

theorem decodeBytes_ok_inv (h : decodeBytes typ dec b = .ok v) :
    ∃ s', dec (.reset b b.length) = (.ok v, s') ∧ s'.input = [] := by
  unfold decodeBytes at h
  cases hd : decodeValue typ dec (.reset b b.length) with
  | mk res s' =>
    rw [hd] at h
    cases res with
    | error e => cases h
    | ok w =>
      dsimp only at h
      split_ifs at h with hrest
      cases h
      exact ⟨s', decodeValue_ok.mp hd, List.eq_nil_of_length_eq_zero (by omega)⟩

theorem Decodes.decodeBytes_iff (h : Decodes dec R) (typ : String) (b : Bytes) (v : α) :
    decodeBytes typ dec b = .ok v ↔ ∃ x, R x v ∧ x.Fits ∧ b = x.encode := by
  constructor
  · intro hok
    obtain ⟨s', hd, hnil⟩ := decodeBytes_ok_inv hok
    obtain ⟨x, hx, hfit, hr⟩ := h.sound (reset_ready _ _) hd
    have hin : b = x.encode ++ s'.input := hr.input
    rw [hnil, List.append_nil] at hin
    exact ⟨x, hx, hfit, hin⟩
  · intro hx
    obtain ⟨x, hx, hfit, rfl⟩ := hx
    obtain ⟨s', hd, hr⟩ := h.complete hx hfit (reset_ready _ _) (reset_has x.encode)
    have hin : x.encode = x.encode ++ s'.input := hr.input
    have hrest : s'.input = [] := by simpa using hin
    simp [decodeBytes, decodeValue_ok.mpr hd, hrest]

theorem Decodes.decodeBytes_error (h : Decodes dec R) (typ : String) {x : Item} (hfit : x.Fits)
    (hx : ∀ v, ¬ R x v) : ∃ e, decodeBytes typ dec x.encode = .error e := by
  cases hd : decodeBytes typ dec x.encode with
  | error e => exact ⟨e, rfl⟩
  | ok v =>
    obtain ⟨y, hy, hfity, henc⟩ := (h.decodeBytes_iff typ _ v).mp hd
    obtain rfl := Item.encode_inj x y hfit hfity henc
    exact absurd hy (hx v)

theorem Decodes.at_start (h : Decodes dec R) {x : Item} (hfit : x.Fits)
    (hd : dec (.reset x.encode x.encode.length) = (.ok v, s')) : R x v ∧ s'.input = [] := by
  obtain ⟨y, hy, hfity, hr⟩ := h.sound (reset_ready _ _) hd
  have hin : x.encode ++ [] = y.encode ++ s'.input := by
    rw [List.append_nil]
    exact hr.input
  obtain ⟨rfl, hnil⟩ := Item.encode_append_inj x y hfit hfity _ _ hin
  exact ⟨hy, hnil.symm⟩

theorem decodeBytes_ne_eol (h : Decodes dec R) (typ : String) (b : Bytes) :
    decodeBytes typ dec b ≠ .error (.stream .eol) := by
  intro herr
  unfold decodeBytes at herr
  cases hd : decodeValue typ dec (.reset b b.length) with
  | mk r t =>
    rw [hd] at herr
    cases r with
    | ok v =>
      dsimp only at herr
      split_ifs at herr
      cases herr
    | error e =>
      cases herr
      -- outside all lists there is no end of a list
      obtain ⟨k, n, hk⟩ := h.eol.mp (decodeValue_eol.mp hd)
      have hend := (nextKind_eol rfl hk).1
      cases hend

theorem Decodes.value (h : Decodes dec R) (typ : String) : Decodes (decodeValue typ dec) R where
  complete hx hfit hs hhas := by
    obtain ⟨s', hd, hr⟩ := h.complete hx hfit hs hhas
    exact ⟨s', decodeValue_ok.mpr hd, hr⟩
  sound hs hd := h.sound hs (decodeValue_ok.mp hd)
  eol := decodeValue_eol.trans h.eol

/-- A result that is made from the decoded value and from what is ahead of the decoder. -/
theorem Decodes.made {dec' : Decoder β} {f : Stream → α → β} {g : Item → α → β}
    (h : Decodes dec R) (hdec : ∀ s, dec' s = ((dec s).1.map (f s), (dec s).2))
    (hf : ∀ {x v s}, R x v → x.Fits → s.Ready → s.Has x.encode → f s v = g x v) :
    Decodes dec' fun x w => ∃ v, R x v ∧ w = g x v where
  complete hx hfit hs hhas := by
    obtain ⟨v, hx, rfl⟩ := hx
    obtain ⟨s', hd, hr⟩ := h.complete hx hfit hs hhas
    exact ⟨s', by rw [hdec, hd, ← hf hx hfit hs hhas]; rfl, hr⟩
  sound {w s s'} hs hd := by
    rw [hdec] at hd
    rcases hv : dec s with ⟨e | v, t⟩ <;> rw [hv] at hd <;> cases hd
    obtain ⟨x, hx, hfit, hr⟩ := h.sound hs hv
    exact ⟨x, ⟨v, hx, hf hx hfit hs hr.has⟩, hfit, hr⟩
  eol {s t} := by
    rw [← h.eol, hdec]
    rcases dec s with ⟨e | v, u⟩ <;> simp [Except.map]

theorem map_eq (f : α → β) (dec : Decoder α) (s : Stream) :
    Total.map f dec s = ((dec s).1.map f, (dec s).2) := by
  simp only [Total.map, Total.andThen, Total.handle]
  rcases dec s with ⟨e | v, u⟩ <;> rfl

theorem Decodes.map (h : Decodes dec R) (f : α → β) :
    Decodes (.map f dec) fun x w => ∃ v, R x v ∧ w = f v :=
  h.made (f := fun _ => f) (map_eq f dec) fun _ _ _ _ => rfl

end Whole

section Leaves

theorem wrapped_ok {op : Stream → Except StreamError α × Stream}
    {f : α → Except DecodeError β} {v : β}
    (h : wrapped typ op f s = (.ok v, s')) : ∃ a, op s = (.ok a, s') ∧ f a = .ok v := by
  unfold wrapped at h
  rcases hop : op s with ⟨e | a, t⟩ <;> rw [hop] at h
  · cases h
  · obtain ⟨hf, rfl⟩ := Prod.mk.inj h
    exact ⟨a, rfl, hf⟩

theorem wrapStreamError_eol {e : StreamError} (h : wrapStreamError e typ = .stream .eol) :
    e = .eol := by
  cases e <;> simp_all [wrapStreamError]

theorem addErrorContext_eol {e : DecodeError} {ctx : String}
    (h : addErrorContext e ctx = .stream .eol) : e = .stream .eol := by
  cases e with
  | stream e => exact h
  | decode msg typ cs => cases h

theorem wrapped_eol {op : Stream → Except StreamError α × Stream} {f : α → Except DecodeError β}
    (hf : ∀ a, f a ≠ .error (.stream .eol))
    (h : wrapped typ op f s = (.error (.stream .eol), t)) : op s = (.error .eol, t) := by
  unfold wrapped at h
  rcases hop : op s with ⟨e | a, u⟩ <;> rw [hop] at h
  · simp only [Prod.mk.injEq, Except.error.injEq] at h
    rw [wrapStreamError_eol h.1, h.2]
  · exact absurd (congrArg Prod.fst h) (hf a)

theorem wrapped_eol_iff {op : Stream → Except StreamError α × Stream}
    {f : α → Except DecodeError β} (hf : ∀ a, f a ≠ .error (.stream .eol))
    (hop : ∀ s, Outcome s (op s)) (hend : ∀ {s t : Stream}, s.AtEol t → op s = (.error .eol, t)) :
    wrapped typ op f s = (.error (.stream .eol), t) ↔ s.AtEol t := by
  constructor
  · intro h
    exact (hop s).ahead (wrapped_eol hf h)
  · intro h
    simp only [wrapped, hend h]
    rfl

theorem decodeUintAs_decodes (typ : String) :
    Decodes (decodeUintAs typ) fun x v => x = .str (minBytes v.toNat) where
  complete {x v s} hx _ hs hhas := by
    subst hx
    have hlen : byteLen v.toNat ≤ 64 / 8 := byteLen_le_eight v.toNat_lt
    obtain ⟨s', hu, hr⟩ := uint_complete hs hlen le_rfl hhas
    exact ⟨s', by simp only [decodeUintAs, wrapped, hu, UInt64.ofNat_toNat], hr⟩
  sound hs hd := by
    obtain ⟨num, hu, hv⟩ := wrapped_ok hd
    obtain ⟨hlen, hr⟩ := uint_sound hs (by norm_num) le_rfl hu
    cases hv
    have hnum : (UInt64.ofNat num).toNat = num :=
      UInt64.toNat_ofNat_of_lt' ((byteLen_le num 8).mp hlen)
    refine ⟨_, rfl, ?_, hnum.symm ▸ hr⟩
    show (minBytes _).length < 2 ^ 64
    rw [hnum, minBytes_length]
    omega
  eol := wrapped_eol_iff (by nofun) (uint_outcome · 64) (·.uint 64)

theorem decodeContents_decodes (typ : String) :
    Decodes (decodeContents typ) fun x v => x = .str v where
  complete {x v s} hx hfit hs hhas := by
    subst hx
    obtain ⟨s', hb, hr⟩ := bytes_complete hs hfit hhas
    exact ⟨s', by simp only [decodeContents, wrapped, hb], hr⟩
  sound hs hd := by
    obtain ⟨b, hb, hv⟩ := wrapped_ok hd
    cases hv
    obtain ⟨hlen, hr⟩ := bytes_sound hs hb
    exact ⟨_, rfl, hlen, hr⟩
  eol := wrapped_eol_iff (by nofun) bytes_outcome AtEol.bytes

theorem decodeBigInt_decodes :
    Decodes decodeBigInt fun x z => ∃ n : ℕ, x = .str (minBytes n) ∧ z = some (n : ℤ) where
  complete {x z s} hx hfit hs hhas := by
    obtain ⟨n, rfl, rfl⟩ := hx
    obtain ⟨s', hb, hr⟩ := bytes_complete hs hfit hhas
    have hz : (minBytes n).head? ≠ some 0 := minBytes_noLeadingZero n
    exact ⟨s', by simp only [decodeBigInt, wrapped, hb, if_neg hz, beVal_minBytes], hr⟩
  sound hs hd := by
    obtain ⟨b, hb, hv⟩ := wrapped_ok hd
    obtain ⟨hlen, hr⟩ := bytes_sound hs hb
    split_ifs at hv with hz
    cases hv
    exact ⟨.str b, ⟨beVal b, by rw [minBytes_beVal b hz], rfl⟩, hlen, hr⟩
  eol := by
    refine wrapped_eol_iff (fun b => ?_) bytes_outcome AtEol.bytes
    split_ifs <;> nofun

theorem fillArray_val {bs : Bytes} (h : bs.length = n) : (fillArray n bs).val = bs := by
  simp [fillArray, ← h]

theorem isOwnCode_of_long {bs : Bytes} (h : 2 ≤ bs.length) : isOwnCode bs = false := by
  match bs, h with
  | a :: b :: bs, _ => rfl

theorem decodeByteArray_eol : decodeByteArray typ n s = (.error (.stream .eol), t) ↔ s.AtEol t := by
  constructor
  · intro h
    unfold decodeByteArray at h
    split at h
    · rename_i hk
      cases h
      exact ⟨_, _, hk⟩
    · split_ifs at h
      · cases h
      · cases h
      · split at h <;> cases h
    · rename_i u _
      split_ifs at h
      · cases h
      · cases h
      · have hf := readFull_took u n
        generalize u.readFull n = r at h hf
        cases hf with
        | error other =>
          cases h
          exact absurd rfl other
        | ok kind input =>
          dsimp only at h
          split_ifs at h <;> cases h
    · cases h
  · rintro ⟨k, m, hk⟩
    simp only [decodeByteArray, hk]

theorem decodeByteArray_decodes (typ : String) (hn : 2 ≤ n) :
    Decodes (decodeByteArray typ n) fun x v => x = .str v.val where
  complete {x v s} hx hfit hs hhas := by
    subst hx
    obtain ⟨bs, rfl⟩ := v
    have hown := isOwnCode_of_long hn
    have henc : (Item.str bs).encode = strHeader bs.length ++ bs := encodeStr_of_not_own bs hown
    rw [henc] at hhas ⊢
    obtain ⟨t, u, hk, hr, hreads⟩ := string_complete hs hfit hhas
    refine ⟨u, ?_, hreads⟩
    simp only [decodeByteArray, hk, hr, hown, lt_irrefl, if_false, Bool.false_eq_true]
    congr 2
    exact Subtype.ext (fillArray_val rfl)
  sound {v s s'} hs h := by
    simp only [decodeByteArray] at h
    rcases hk : s.nextKind with ⟨⟨k, m, _ | e⟩, t⟩ <;> rw [hk] at h
    · cases k with
      | byte =>
        simp only [if_neg (show n ≠ 0 by omega), if_pos (show n > 1 by omega)] at h
        cases h
      | string =>
        dsimp only at h
        split_ifs at h with h1 h2
        · cases h
        · cases h
        obtain rfl : m = n := by omega
        rcases hr : t.readFull m with ⟨e | c, u⟩ <;> rw [hr] at h
        · cases h
        · obtain ⟨hclen, hm, hreads⟩ := string_sound hs hk hr
          have hown : isOwnCode c = false := isOwnCode_of_long (by omega)
          simp only [hown, Bool.false_eq_true, if_false, Prod.mk.injEq, Except.ok.injEq] at h
          obtain ⟨rfl, rfl⟩ := h
          refine ⟨.str c, by rw [fillArray_val hclen], hclen.trans_lt hm, ?_⟩
          rw [Item.encode, encodeStr_of_not_own c hown, hclen]
          exact hreads
      | list => cases h
    · cases h
  eol := decodeByteArray_eol

end Leaves

section Pointers

theorem emptyAhead_ok {nilKind : Kind} {empty : Bool} :
    emptyAhead typ nilKind s = (.ok empty, t) ↔ ∃ k n u, s.nextKind = ((k, n, none), u) ∧
      ((empty = true ∧ k = nilKind ∧ k ≠ .byte ∧ n = 0 ∧ t = u.rearm) ∨
        (empty = false ∧ ¬ (k ≠ .byte ∧ n = 0) ∧ t = u)) := by
  unfold emptyAhead
  rcases s.nextKind with ⟨⟨k, n, _ | e⟩, u⟩
  · dsimp only
    split_ifs with hempty hkind
    · simp_all
    · simp only [Prod.mk.injEq, Except.ok.injEq]
      constructor
      · rintro ⟨rfl, rfl⟩
        exact ⟨k, n, u, ⟨⟨rfl, rfl, trivial⟩, rfl⟩,
          .inl ⟨rfl, not_not.mp hkind, hempty.1, hempty.2, rfl⟩⟩
      · rintro ⟨_, _, _, ⟨⟨rfl, rfl, -⟩, rfl⟩, ⟨rfl, -, -, -, rfl⟩ | ⟨-, hfull, -⟩⟩
        · exact ⟨rfl, rfl⟩
        · exact absurd hempty hfull
    · simp only [Prod.mk.injEq, Except.ok.injEq]
      constructor
      · rintro ⟨rfl, rfl⟩
        exact ⟨k, n, u, ⟨⟨rfl, rfl, trivial⟩, rfl⟩, .inr ⟨rfl, hempty, rfl⟩⟩
      · rintro ⟨_, _, _, ⟨⟨rfl, rfl, -⟩, rfl⟩, ⟨-, -, hb, h0, -⟩ | ⟨rfl, -, rfl⟩⟩
        · exact absurd ⟨hb, h0⟩ hempty
        · exact ⟨rfl, rfl⟩
  · simp

theorem emptyAhead_eol {nilKind : Kind} :
    emptyAhead typ nilKind s = (.error (.stream .eol), t) ↔ s.AtEol t := by
  unfold emptyAhead
  constructor
  · intro h
    split at h
    · rename_i e u hk
      simp only [Prod.mk.injEq, Except.error.injEq] at h
      rw [wrapStreamError_eol h.1, h.2] at hk
      exact ⟨_, _, hk⟩
    · split_ifs at h <;> cases h
  · rintro ⟨k, n, hk⟩
    simp only [hk]
    rfl

theorem nextKind_item (hs : s.Ready) (x : Item) (hfit : x.Fits) (h : s.Has x.encode) :
    ∃ k n t, s.nextKind = ((k, n, none), t) ∧ (k = .byte ∨ n = x.payload) := by
  cases x with
  | str bs =>
    rcases strHeader_cases bs hfit with ⟨b, hb, rfl, henc⟩ | ⟨hown, -, henc⟩
    · rw [Item.encode, henc] at h
      exact ⟨_, _, _, nextKind_byte hs hb h, .inl rfl⟩
    · rw [Item.encode, henc] at h
      exact ⟨_, _, _, nextKind_string hs hfit h, .inr rfl⟩
  | list xs =>
    rw [Item.encode] at h
    exact ⟨_, _, _, nextKind_list hs hfit h, .inr rfl⟩

theorem emptyAhead_full {nilKind : Kind} (hs : s.Ready) {x : Item} (hfit : x.Fits)
    (h : s.Has x.encode) (hx : x.payload ≠ 0) :
    emptyAhead typ nilKind s = (.ok false, s.nextKind.2) := by
  obtain ⟨k, n, t, hk, hkind⟩ := nextKind_item hs x hfit h
  refine emptyAhead_ok.mpr ⟨k, n, t, hk, .inr ⟨rfl, ?_, by rw [hk]⟩⟩
  rintro ⟨hb, rfl⟩
  exact hx (hkind.resolve_left hb).symm

theorem emptyAhead_string (typ : String) (hs : s.Ready) (h : s.Has (encodeStr [])) :
    ∃ t, emptyAhead typ .string s = (.ok true, t) ∧ Reads s (encodeStr []) t := by
  have hempty : s.Has (strHeader ([] : Bytes).length ++ []) := h
  have hk := nextKind_string hs (by norm_num) hempty
  exact ⟨_, emptyAhead_ok.mpr ⟨_, _, _, hk, .inl ⟨rfl, rfl, by decide, rfl, rfl⟩⟩, h, rfl⟩

theorem makeNilPtrDecoder_decodes (h : Decodes dec R) (hpeek : ∀ s, dec s.nextKind.2 = dec s)
    (hne : ∀ x v, R x v → x.payload ≠ 0) (typ : String) :
    Decodes (makeNilPtrDecoder typ .string dec)
      fun x p => (x = .str [] ∧ p = none) ∨ ∃ v, R x v ∧ p = some v where
  complete {x p s} hx hfit hs hhas := by
    rcases hx with ⟨rfl, rfl⟩ | ⟨v, hx, rfl⟩
    · obtain ⟨t, he, hr⟩ := emptyAhead_string typ hs hhas
      exact ⟨t, Total.andThen_ok.mpr ⟨true, t, he, rfl⟩, hr⟩
    · obtain ⟨s', hd, hr⟩ := h.complete hx hfit hs hhas
      refine ⟨s', Total.andThen_ok.mpr ⟨false, _, emptyAhead_full hs hfit hhas (hne x v hx), ?_⟩, hr⟩
      exact Total.map_ok.mpr ⟨v, (hpeek s).trans hd, rfl⟩
  sound {p s s'} hs hd := by
    obtain ⟨empty, t, he, hrest⟩ := Total.andThen_ok.mp hd
    obtain ⟨k, n, u, hk, ⟨rfl, rfl, -, rfl, rfl⟩ | ⟨rfl, -, rfl⟩⟩ := emptyAhead_ok.mp he
    · cases hrest
      obtain ⟨c, head, hhdr, hhas, -, rfl⟩ := (nextKind_iff hs _ _ _).mp hk
      cases hhdr with
      | string n hn => exact ⟨.str [], .inl ⟨rfl, rfl⟩, hn, hhas, rfl⟩
    · obtain ⟨v, hv, rfl⟩ := Total.map_ok.mp hrest
      have hp := hpeek s
      rw [hk, hv] at hp
      obtain ⟨x, hx, hfit, hr⟩ := h.sound hs hp.symm
      exact ⟨x, .inr ⟨v, hx, rfl⟩, hfit, hr⟩
  eol {s t} := by
    constructor
    · intro hd
      rcases Total.handle_eq.mp hd with ⟨e, u, he, hx⟩ | ⟨empty, u, he, hrest⟩
      · cases hx
        exact emptyAhead_eol.mp he
      · obtain ⟨k, n, u', hk, ⟨rfl, -⟩ | ⟨rfl, -, rfl⟩⟩ := emptyAhead_ok.mp he
        · cases hrest
        · exact .of_peek hk (h.eol.mp (Total.map_error.mp hrest))
    · intro hend
      exact Total.handle_eq.mpr (.inl ⟨_, _, emptyAhead_eol.mpr hend, rfl⟩)

end Pointers

section Lists

theorem openList_ready (hs : s.Ready) (h : openList typ s = (.ok n, t)) : t.Ready := by
  obtain ⟨m, hlist, -⟩ := wrapped_ok h
  exact list_ready hs hlist

theorem openList_eol : openList typ s = (.error (.stream .eol), t) ↔ s.AtEol t :=
  wrapped_eol_iff (by nofun) list_outcome AtEol.list

theorem closeList_ok {wrap : StreamError → DecodeError} {a c : α} :
    closeList wrap a s = (.ok c, t) ↔ c = a ∧ s.listEnd = (.ok (), t) := by
  unfold closeList
  rcases s.listEnd with ⟨e | _, u⟩
  · simp
  · simp [eq_comm]

theorem closeList_ne_eol {wrap : StreamError → DecodeError} {a : α}
    (hwrap : ∀ e, wrap e = .stream .eol → e = .eol) :
    closeList wrap a s ≠ (.error (.stream .eol), t) := by
  intro h
  unfold closeList at h
  split at h
  · rename_i hend
    simp only [Prod.mk.injEq, Except.error.injEq] at h
    exact listEnd_ne_eol hend (hwrap _ h.1)
  · cases h

theorem stream_eol (e : StreamError) (h : DecodeError.stream e = .stream .eol) : e = .eol := by
  injection h

/-- A list that is ahead can be opened, and closed once its contents are read. -/
theorem openList_complete (hs : s.Ready) {body : Bytes} (hlen : body.length < 2 ^ 64)
    (h : s.Has (listHeader body.length ++ body)) (typ : String) :
    ∃ t, openList typ s = (.ok body.length, t) ∧ t.Ready ∧ t.Has body ∧ t.EndsAfter body.length ∧
      ∀ {α : Type} (u : Stream) (wrap : StreamError → DecodeError) (a : α),
        Reads t body u.rearm → ∃ s', closeList wrap a u = (.ok a, s') ∧
          Reads s (listHeader body.length ++ body) s' := by
  obtain ⟨t, hlist, hready, hhas, hleave⟩ := list_complete hs hlen h
  refine ⟨t, ?_, hready, hhas, list_endsAfter hs hlist, fun u wrap a hr => ?_⟩
  · simp only [openList, wrapped, hlist]
  · obtain ⟨s', hend⟩ := hleave _ hr
    exact ⟨s', closeList_ok.mpr ⟨rfl, listEnd_of_rearm hend⟩, (Reads.list hs hlist hr hend).2.2⟩

theorem closeList_sound {wrap : StreamError → DecodeError} {a c : α} {u : Stream} {xs : List Item}
    (hs : s.Ready) (hopen : openList typ s = (.ok n, t)) (hbody : Reads t (encodeAll xs) u)
    (hclose : closeList wrap a u = (.ok c, s')) :
    c = a ∧ (Item.list xs).Fits ∧ Reads s (Item.list xs).encode s' := by
  obtain ⟨m, hlist, hm⟩ := wrapped_ok hopen
  cases hm
  obtain ⟨rfl, hend⟩ := closeList_ok.mp hclose
  obtain ⟨rfl, hn, hr⟩ := Reads.list hs hlist hbody hend
  exact ⟨rfl, hn, hr⟩

theorem elemError_ne_ok {d : DecodeError} {context : String} {e : DecodeError} :
    elemError (.error d) context e s ≠ (.ok v, t) := by
  unfold elemError
  split_ifs <;> nofun

theorem elemError_ne_eol {eol : Except DecodeError α} {context : String} {e : DecodeError}
    (heol : eol ≠ .error (.stream .eol)) :
    elemError eol context e s ≠ (.error (.stream .eol), t) := by
  intro h
  unfold elemError at h
  split_ifs at h with he
  · exact heol (congrArg Prod.fst h)
  · simp only [Prod.mk.injEq, Except.error.injEq] at h
    exact he (addErrorContext_eol h.1)

theorem inList_eol {body : ℕ → Decoder α} (hbody : ∀ n u, body n u ≠ (.error (.stream .eol), t)) :
    Total.andThen (openList typ) body s = (.error (.stream .eol), t) ↔ s.AtEol t := by
  rw [Total.andThen, Total.handle_eq, ← @openList_eol typ]
  constructor
  · rintro (⟨e, u, hopen, hx⟩ | ⟨n, u, -, hn⟩)
    · cases hx
      exact hopen
    · exact absurd hn (hbody n u)
  · exact fun hopen => .inl ⟨_, _, hopen, rfl⟩

theorem andThen_close_ne_eol {wrap : StreamError → DecodeError} {r : Decoder α}
    (hr : ∀ u, r s ≠ (.error (.stream .eol), u)) (hwrap : ∀ e, wrap e = .stream .eol → e = .eol) :
    Total.andThen r (closeList wrap) s ≠ (.error (.stream .eol), t) := by
  intro h
  rcases Total.handle_eq.mp h with ⟨e, u, hrs, hx⟩ | ⟨a, u, -, ha⟩
  · cases hx
    exact hr _ hrs
  · exact closeList_ne_eol hwrap ha

theorem decodeNoFields_decodes : DecodesFields decodeNoFields fun xs _ => xs = [] where
  complete {xs v s} hx _ hs _ := by
    subst hx
    exact ⟨s, rfl, .nil s hs⟩
  sound {v s s'} hs hd := by
    cases hd
    exact ⟨[], rfl, .nil s hs⟩
  ne_eol := by nofun

theorem decodeField_decodes (h : Decodes dec R) (hf : DecodesFields fields S) (typ name : String) :
    DecodesFields (decodeField typ name dec fields)
      fun xs v => ∃ x ys, xs = x :: ys ∧ R x v.1 ∧ S ys v.2 where
  complete {xs v s} hx hlen hs hhas := by
    obtain ⟨x, ys, rfl, hx, hys⟩ := hx
    have hp := x.payload_le
    simp only [encodeAll, List.length_append] at hlen hhas ⊢
    have hhead := (Has.append_iff s _ _).mp hhas
    obtain ⟨s1, hd1, hr1⟩ := h.complete hx (by unfold Item.Fits; omega) hs hhead.1
    obtain ⟨s2, hd2, hr2⟩ := hf.complete hys (by omega) (hr1.ready hs.bounded) (hr1.has_rest hhas)
    exact ⟨s2, Total.handle_eq.mpr (.inr ⟨v.1, s1, hd1, Total.map_ok.mpr ⟨v.2, hd2, rfl⟩⟩),
      hr1.trans hr2⟩
  sound {v s s'} hs hd := by
    rcases Total.handle_eq.mp hd with ⟨e, t, -, he⟩ | ⟨a, t, hd1, hrest⟩
    · exact absurd he elemError_ne_ok
    · obtain ⟨b, hd2, rfl⟩ := Total.map_ok.mp hrest
      obtain ⟨x, hx, -, hr1⟩ := h.sound hs hd1
      obtain ⟨ys, hys, hr2⟩ := hf.sound (hr1.ready hs.bounded) hd2
      exact ⟨x :: ys, ⟨x, ys, rfl, hx, hys⟩, hr1.trans hr2⟩
  ne_eol {s t} hd := by
    rcases Total.handle_eq.mp hd with ⟨e, t, -, he⟩ | ⟨a, t, -, hrest⟩
    · exact elemError_ne_eol (by nofun) he
    · exact hf.ne_eol (Total.map_error.mp hrest)

theorem makeStructDecoder_decodes (hf : DecodesFields fields S) (typ : String) :
    Decodes (makeStructDecoder typ fields) fun x v => ∃ xs, x = .list xs ∧ S xs v where
  complete {x v s} hx hfit hs hhas := by
    obtain ⟨xs, rfl, hxs⟩ := hx
    obtain ⟨t, hopen, hready, hbody, -, hclose⟩ := openList_complete hs hfit hhas typ
    obtain ⟨u, hd, hr⟩ := hf.complete hxs hfit hready hbody
    have hk := (hr.ready hready.bounded).kind
    obtain ⟨s', hc, hreads⟩ := hclose u (wrapStreamError · typ) v (rearm_of_kind hk ▸ hr)
    exact ⟨s', Total.andThen_ok.mpr ⟨_, t, hopen, Total.andThen_ok.mpr ⟨v, u, hd, hc⟩⟩, hreads⟩
  sound {v s s'} hs hd := by
    obtain ⟨n, t, hopen, hrest⟩ := Total.andThen_ok.mp hd
    obtain ⟨w, u, hw, hclose⟩ := Total.andThen_ok.mp hrest
    obtain ⟨xs, hxs, hr⟩ := hf.sound (openList_ready hs hopen) hw
    obtain ⟨rfl, hfit, hreads⟩ := closeList_sound hs hopen hr hclose
    exact ⟨.list xs, ⟨xs, rfl, hxs⟩, hfit, hreads⟩
  eol := inList_eol fun _ _ => andThen_close_ne_eol (fun _ => hf.ne_eol) fun _ => wrapStreamError_eol

end Lists

structure TypeInfo (α : Type) where
  writer : α → Emit
  decoder : Decoder α

/-- What the values of a type stand for: their items, which of them can be encoded, and what a
value is after a round trip. -/
structure Meaning (α : Type) where
  item : α → Item
  ok : α → Prop
  norm : α → α

def Meaning.Of (m : Meaning α) (x : Item) (v : α) : Prop := x = m.item v ∧ m.ok v ∧ m.norm v = v

structure Implements {α : Type} (t : TypeInfo α) (m : Meaning α) : Prop where
  emits : ∀ v, m.ok v → (m.item v).Fits → Emits (t.writer v) [m.item v]
  /-- The decoder starts by asking for the kind of the value ahead. -/
  peek : ∀ s : Stream, t.decoder s.nextKind.2 = t.decoder s
  decodes : Decodes t.decoder m.Of
  norm : ∀ v, m.ok v → m.Of (m.item v) (m.norm v)

variable {T : TypeInfo α} {m : Meaning α}

theorem Implements.sound (h : Implements T m) (hs : s.Ready) (hd : T.decoder s = (.ok v, s')) :
    m.ok v ∧ (m.item v).Fits ∧ Reads s (m.item v).encode s' := by
  obtain ⟨x, ⟨rfl, hok, -⟩, hfit, hr⟩ := h.decodes.sound hs hd
  exact ⟨hok, hfit, hr⟩

section Peek

theorem bytes_peek (s : Stream) : s.nextKind.2.bytes = s.bytes := by
  unfold bytes
  rw [nextKind_nextKind]

theorem uint_peek (bits : ℕ) (s : Stream) : s.nextKind.2.uint bits = s.uint bits := by
  unfold uint
  rw [nextKind_nextKind]

theorem list_peek (s : Stream) : s.nextKind.2.list = s.list := by
  unfold list
  rw [nextKind_nextKind]

theorem wrapped_peek (op : Stream → Except StreamError α × Stream) {f : α → Except DecodeError β}
    (h : op s = op t) : wrapped typ op f s = wrapped typ op f t := by
  unfold wrapped
  rw [h]

theorem emptyAhead_peek (typ : String) (nilKind : Kind) (s : Stream) :
    emptyAhead typ nilKind s.nextKind.2 = emptyAhead typ nilKind s := by
  unfold emptyAhead
  rw [nextKind_nextKind]

theorem openList_peek (typ : String) (s : Stream) : openList typ s.nextKind.2 = openList typ s :=
  wrapped_peek _ (list_peek s)

theorem decodeByteArray_peek (typ : String) (n : ℕ) (s : Stream) :
    decodeByteArray typ n s.nextKind.2 = decodeByteArray typ n s := by
  unfold decodeByteArray
  rw [nextKind_nextKind]

end Peek

def uint64Info : TypeInfo UInt64 := ⟨writeUint, decodeUint64⟩

def uint64Meaning : Meaning UInt64 := ⟨fun v => .str (minBytes v.toNat), fun _ => True, id⟩

theorem uint64_implements : Implements uint64Info uint64Meaning where
  emits v _ _ := writeUint_emits v
  peek s := wrapped_peek (·.uint 64) (uint_peek 64 s)
  decodes := (decodeUintAs_decodes "uint64").congr fun _ _ =>
    ⟨fun hx => ⟨hx, trivial, rfl⟩, fun hx => hx.1⟩
  norm _ _ := ⟨rfl, trivial, rfl⟩

def bigIntInfo : TypeInfo (Option ℤ) := ⟨writeBigIntPtr, decodeBigInt⟩

def bigIntMeaning : Meaning (Option ℤ) :=
  ⟨fun v => .str (minBytes (v.getD 0).natAbs), fun v => 0 ≤ v.getD 0, fun v => some (v.getD 0)⟩

theorem bigInt_implements : Implements bigIntInfo bigIntMeaning where
  emits v hok hfit := by
    refine writeBigIntPtr_emits v hok ?_
    have h : (minBytes (v.getD 0).natAbs).length < 2 ^ 64 := hfit
    rwa [minBytes_length] at h
  peek s := wrapped_peek _ (bytes_peek s)
  decodes := by
    refine decodeBigInt_decodes.congr fun x v => ⟨?_, ?_⟩
    · rintro ⟨n, rfl, rfl⟩
      exact ⟨rfl, Int.natCast_nonneg n, rfl⟩
    · rintro ⟨rfl, hok, hnorm⟩
      have hpos : ((v.getD 0).natAbs : ℤ) = v.getD 0 := Int.natAbs_of_nonneg hok
      exact ⟨_, rfl, by rw [hpos]; exact hnorm.symm⟩
  norm _ hok := ⟨rfl, hok, rfl⟩

def byteSliceInfo : TypeInfo (Option Bytes) := ⟨fun v => writeBytes (v.getD []), decodeByteSlice⟩

def byteSliceMeaning : Meaning (Option Bytes) :=
  ⟨fun v => .str (v.getD []), fun _ => True, fun v => some (v.getD [])⟩

theorem byteSlice_implements : Implements byteSliceInfo byteSliceMeaning where
  emits _ _ hfit := writeBytes_emits _ hfit
  peek s := Total.handle_congr (wrapped_peek _ (bytes_peek s))
  decodes := by
    refine ((decodeContents_decodes "[]uint8").map some).congr fun x v => ⟨?_, ?_⟩
    · rintro ⟨b, rfl, rfl⟩
      exact ⟨rfl, trivial, rfl⟩
    · rintro ⟨rfl, -, hnorm⟩
      exact ⟨_, rfl, hnorm.symm⟩
  norm _ _ := ⟨rfl, trivial, rfl⟩

def byteArrayInfo (typ : String) (n : ℕ) : TypeInfo (ByteArray n) :=
  ⟨fun v => writeByteArray v.val, decodeByteArray typ n⟩

def byteArrayMeaning (n : ℕ) : Meaning (ByteArray n) := ⟨fun v => .str v.val, fun _ => True, id⟩

theorem byteArray_implements (typ : String) (hn : 2 ≤ n) :
    Implements (byteArrayInfo typ n) (byteArrayMeaning n) where
  emits _ _ hfit := writeByteArray_emits _ hfit
  peek := decodeByteArray_peek typ n
  decodes := (decodeByteArray_decodes typ hn).congr fun _ _ =>
    ⟨fun hx => ⟨hx, trivial, rfl⟩, fun hx => hx.1⟩
  norm _ _ := ⟨rfl, trivial, rfl⟩

def nilPtrInfo {α : Type} (typ : String) (nilKind : Kind) (t : TypeInfo α) : TypeInfo (Option α) :=
  ⟨makePtrWriter nilKind t.writer, makeNilPtrDecoder typ nilKind t.decoder⟩

def nilPtrMeaning {α : Type} (m : Meaning α) : Meaning (Option α) where
  item
    | none => .str []
    | some v => m.item v
  ok
    | none => True
    | some v => m.ok v
  norm := Option.map m.norm

theorem nilPtr_implements (ht : Implements T m) (hne : ∀ v, m.ok v → (m.item v).payload ≠ 0) :
    Implements (nilPtrInfo typ .string T) (nilPtrMeaning m) where
  emits v hok hfit := by
    cases v with
    | none => exact .of_append (fun w => rfl) rfl
    | some v => exact ht.emits v hok hfit
  peek s := Total.handle_congr (emptyAhead_peek typ .string s)
  decodes := by
    have hfull : ∀ x v, m.Of x v → x.payload ≠ 0 := by
      rintro x v ⟨rfl, hok, -⟩
      exact hne v hok
    refine (makeNilPtrDecoder_decodes ht.decodes ht.peek hfull typ).congr fun x p => ⟨?_, ?_⟩
    · rintro (⟨rfl, rfl⟩ | ⟨v, ⟨rfl, hok, hnorm⟩, rfl⟩)
      · exact ⟨rfl, trivial, rfl⟩
      · exact ⟨rfl, hok, congrArg some hnorm⟩
    · rintro ⟨rfl, hok, hnorm⟩
      cases p with
      | none => exact .inl ⟨rfl, rfl⟩
      | some v => exact .inr ⟨v, ⟨rfl, hok, Option.some.inj hnorm⟩, rfl⟩
  norm v hok := by
    cases v with
    | none => exact ⟨rfl, trivial, rfl⟩
    | some v =>
      obtain ⟨hitem, hok', hnorm⟩ := ht.norm v hok
      exact ⟨hitem, hok', congrArg some hnorm⟩

structure FieldsInfo (β : Type) where
  writers : β → List Emit
  decoder : (typ : String) → Decoder β

def noFields : FieldsInfo Unit := ⟨fun _ => [], fun _ => decodeNoFields⟩

def FieldsInfo.field {α β : Type} (name : String) (t : TypeInfo α) (f : FieldsInfo β) :
    FieldsInfo (α × β) :=
  ⟨fun v => t.writer v.1 :: f.writers v.2, fun typ => decodeField typ name t.decoder (f.decoder typ)⟩

structure FieldsMeaning (β : Type) where
  items : β → List Item
  ok : β → Prop
  norm : β → β

def FieldsMeaning.Of (m : FieldsMeaning β) (xs : List Item) (v : β) : Prop :=
  xs = m.items v ∧ m.ok v ∧ m.norm v = v

def noFieldsMeaning : FieldsMeaning Unit := ⟨fun _ => [], fun _ => True, id⟩

def FieldsMeaning.field {α β : Type} (m : Meaning α) (f : FieldsMeaning β) :
    FieldsMeaning (α × β) :=
  ⟨fun v => m.item v.1 :: f.items v.2, fun v => m.ok v.1 ∧ f.ok v.2,
    fun v => (m.norm v.1, f.norm v.2)⟩

structure ImplementsFields {β : Type} (f : FieldsInfo β) (m : FieldsMeaning β) : Prop where
  emits : ∀ v, m.ok v → (encodeAll (m.items v)).length < 2 ^ 64 →
    Emits (writeElems (f.writers v)) (m.items v)
  decodes : ∀ typ, DecodesFields (f.decoder typ) m.Of
  norm : ∀ v, m.ok v → m.Of (m.items v) (m.norm v)

theorem noFields_implements : ImplementsFields noFields noFieldsMeaning where
  emits _ _ _ := writeElems_nil_emits
  decodes _ := decodeNoFields_decodes.congr fun _ _ =>
    ⟨fun hx => ⟨hx, trivial, rfl⟩, fun hx => hx.1⟩
  norm _ _ := ⟨rfl, trivial, rfl⟩

theorem field_implements {name : String} {f : FieldsInfo β} {fm : FieldsMeaning β}
    (ht : Implements T m) (hf : ImplementsFields f fm) :
    ImplementsFields (f.field name T) (fm.field m) where
  emits v hok hlen := by
    have hp := (m.item v.1).payload_le
    simp only [FieldsMeaning.field, encodeAll, List.length_append] at hlen
    exact (ht.emits v.1 hok.1 (by unfold Item.Fits; omega)).cons (hf.emits v.2 hok.2 (by omega))
  decodes typ := by
    refine (decodeField_decodes ht.decodes (hf.decodes typ) typ name).congr fun xs v => ⟨?_, ?_⟩
    · rintro ⟨x, ys, rfl, ⟨rfl, hok, hnorm⟩, rfl, hoks, hnorms⟩
      exact ⟨rfl, ⟨hok, hoks⟩, Prod.ext hnorm hnorms⟩
    · rintro ⟨rfl, ⟨hok, hoks⟩, hnorm⟩
      exact ⟨_, _, rfl, ⟨rfl, hok, congrArg Prod.fst hnorm⟩, rfl, hoks, congrArg Prod.snd hnorm⟩
  norm v hok := by
    obtain ⟨hitem, hok', hnorm⟩ := ht.norm v.1 hok.1
    obtain ⟨hitems, hoks, hnorms⟩ := hf.norm v.2 hok.2
    exact ⟨congrArg₂ List.cons hitem hitems, ⟨hok', hoks⟩, Prod.ext hnorm hnorms⟩

def structInfo {β : Type} (typ : String) (f : FieldsInfo β) : TypeInfo β :=
  ⟨fun v => makeStructWriter (f.writers v), makeStructDecoder typ (f.decoder typ)⟩

def structMeaning {β : Type} (m : FieldsMeaning β) : Meaning β :=
  ⟨fun v => .list (m.items v), m.ok, m.norm⟩

theorem struct_implements {f : FieldsInfo β} {m : FieldsMeaning β}
    (hf : ImplementsFields f m) : Implements (structInfo typ f) (structMeaning m) where
  emits v hok hfit := writeList_emits (hf.emits v hok hfit) hfit
  peek s := Total.handle_congr (openList_peek typ s)
  decodes := by
    refine (makeStructDecoder_decodes (hf.decodes typ) typ).congr fun x v => ⟨?_, ?_⟩
    · rintro ⟨xs, rfl, rfl, hok, hnorm⟩
      exact ⟨rfl, hok, hnorm⟩
    · rintro ⟨rfl, hok, hnorm⟩
      exact ⟨_, rfl, rfl, hok, hnorm⟩
  norm v hok := by
    obtain ⟨hitems, hok', hnorm⟩ := hf.norm v hok
    exact ⟨congrArg Item.list hitems, hok', hnorm⟩

end Fiscobcos.Rlp
