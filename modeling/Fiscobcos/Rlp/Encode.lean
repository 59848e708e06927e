import Fiscobcos.Lib.RlpFormat

/-! # RLP encoder (rlp/encode.go)

String data is collected in one buffer and the list headers in another; `toBytes` and `toWriter`
merge them. `EncBuf.push` describes a buffer as pieces, and `Emits` says that a writer appends
pieces which render to the encoding of given items. -/

namespace Fiscobcos.Rlp
open List

open Fiscobcos.Numerals Fiscobcos.RlpFormat

/-- Kinds of encoded values (decode.go); `Byte` is a string of one byte below 128. -/
inductive Kind where
  | byte
  | string
  | list
deriving DecidableEq, Repr

def Kind.toString : Kind → String
  | .byte => "Byte"
  | .string => "String"
  | .list => "List"

/-- The least number of big-endian bytes; the source writes out the eight cases. -/
def putint (i : ℕ) : Bytes :=
  if i < 1 <<< 8 then beBytes 1 i
  else if i < 1 <<< 16 then beBytes 2 i
  else if i < 1 <<< 24 then beBytes 3 i
  else if i < 1 <<< 32 then beBytes 4 i
  else if i < 1 <<< 40 then beBytes 5 i
  else if i < 1 <<< 48 then beBytes 6 i
  else if i < 1 <<< 56 then beBytes 7 i
  else beBytes 8 i

def intsizeLoop : ℕ → ℕ → ℕ → ℕ
  | 0, size, _ => size
  | fuel + 1, size, i => if i >>> 8 = 0 then size else intsizeLoop fuel (size + 1) (i >>> 8)

/-- A `uint64` is zero after eight shifts, so the loop returns by its eighth round. -/
def intsize (i : ℕ) : ℕ := intsizeLoop 7 1 i

def headsize (size : ℕ) : ℕ := if size < 56 then 1 else 1 + intsize size

def puthead (smalltag largetag size : ℕ) : Bytes :=
  if size < 56 then [lowByte (smalltag + size)]
  else lowByte (largetag + (putint size).length) :: putint size

theorem intsizeLoop_eq (k fuel size i : ℕ) (hk : k ≤ fuel) (hlo : k = 0 ∨ 256 ^ k ≤ i)
    (hhi : k = fuel ∨ i < 256 ^ (k + 1)) : intsizeLoop fuel size i = size + k := by
  induction k generalizing fuel size i with
  | zero =>
    cases fuel with
    | zero => rfl
    | succ fuel =>
      have hz : i >>> 8 = 0 := by
        rw [Nat.shiftRight_eq_div_pow]
        omega
      rw [intsizeLoop, if_pos hz]
      rfl
  | succ k ih =>
    obtain ⟨fuel, rfl⟩ : ∃ f, fuel = f + 1 := ⟨fuel - 1, by omega⟩
    have hpow : 256 ^ (k + 1) = 256 ^ k * 256 := pow_succ 256 k
    have hpow' : 256 ^ (k + 1 + 1) = 256 ^ (k + 1) * 256 := pow_succ 256 (k + 1)
    have hone : 0 < 256 ^ k := by positivity
    have hdiv : i >>> 8 = i / 256 := Nat.shiftRight_eq_div_pow i 8
    have hnz : ¬ i / 256 = 0 := by omega
    rw [intsizeLoop, hdiv, if_neg hnz, ih fuel (size + 1) (i / 256) (by omega) (by omega) (by omega)]
    omega

theorem intsize_eq_length (i : ℕ) : intsize i = (putint i).length := by
  have key := fun k => intsizeLoop_eq k 7 1 i
  simp only [intsize, putint, Nat.shiftLeft_eq, one_mul]
  split_ifs <;> rw [beBytes_length]
  · exact key 0 (by omega) (by omega) (by omega)
  · exact key 1 (by omega) (by omega) (by omega)
  · exact key 2 (by omega) (by omega) (by omega)
  · exact key 3 (by omega) (by omega) (by omega)
  · exact key 4 (by omega) (by omega) (by omega)
  · exact key 5 (by omega) (by omega) (by omega)
  · exact key 6 (by omega) (by omega) (by omega)
  · exact key 7 (by omega) (by omega) (by omega)

theorem headsize_eq_length (smalltag largetag size : ℕ) :
    headsize size = (puthead smalltag largetag size).length := by
  unfold headsize puthead
  split_ifs
  · rfl
  · rw [intsize_eq_length, length_cons]
    omega

variable {i : ℕ}

theorem byteLen_eq {k : ℕ} (hlo : 256 ^ k ≤ i) (hhi : i < 256 ^ (k + 1)) : byteLen i = k + 1 := by
  have h1 := (byteLen_le i (k + 1)).mpr hhi
  have h2 := (byteLen_le i k).not.mpr (by omega)
  omega

theorem putint_eq_minBytes (hpos : 0 < i) (hlt : i < 2 ^ 64) : putint i = minBytes i := by
  have key : ∀ k, 256 ^ k ≤ i → i < 256 ^ (k + 1) → beBytes (k + 1) i = minBytes i := by
    intro k hlo hhi
    rw [minBytes, byteLen_eq hlo hhi]
  simp only [putint, Nat.shiftLeft_eq, one_mul]
  split_ifs
  · exact key 0 (by omega) (by omega)
  · exact key 1 (by omega) (by omega)
  · exact key 2 (by omega) (by omega)
  · exact key 3 (by omega) (by omega)
  · exact key 4 (by omega) (by omega)
  · exact key 5 (by omega) (by omega)
  · exact key 6 (by omega) (by omega)
  · exact key 7 (by omega) (by omega)

theorem puthead_eq_header (smalltag largetag : ℕ) {size : ℕ} (h : size < 2 ^ 64) :
    puthead smalltag largetag size = header smalltag largetag size := by
  unfold puthead header
  split_ifs with hs
  · rfl
  · rw [putint_eq_minBytes (by omega) h, minBytes_length]

structure ListHead where
  offset : ℕ
  size : ℕ
deriving DecidableEq, Repr

def ListHead.encode (head : ListHead) : Bytes := puthead 0xC0 0xF7 head.size

structure EncBuf where
  str : Bytes
  lheads : List ListHead
  lhsize : ℕ
deriving DecidableEq, Repr

def EncBuf.reset : EncBuf := ⟨[], [], 0⟩

namespace EncBuf

def size (w : EncBuf) : ℕ := w.str.length + w.lhsize

def append (w : EncBuf) (b : Bytes) : EncBuf := { w with str := w.str ++ b }

def encodeStringHeader (w : EncBuf) (size : ℕ) : EncBuf := w.append (puthead 0x80 0xB7 size)

def encodeString (w : EncBuf) : Bytes → EncBuf
  | [b] => if b.val ≤ 0x7F then w.append [b] else (w.encodeStringHeader 1).append [b]
  | b => (w.encodeStringHeader b.length).append b

/-- Opens a list; the result is the index of its header. Until `listEnd` the header's `size`
holds the sum of the header sizes before it. -/
def list (w : EncBuf) : ℕ × EncBuf :=
  (w.lheads.length, { w with lheads := w.lheads ++ [⟨w.str.length, w.lhsize⟩] })

def listEnd (w : EncBuf) (lh : ℕ) : EncBuf :=
  match w.lheads[lh]? with
  | none => w
  | some head =>
    let size := w.size - head.offset - head.size
    { w with
      lheads := w.lheads.set lh { head with size := size }
      lhsize := if size < 56 then w.lhsize + 1 else w.lhsize + (1 + intsize size) }

/-- The loop of `toBytes`; `out` is what has been copied, at most `w.size` bytes of it data. -/
def fill (w : EncBuf) : List ListHead → ℕ → Bytes → Bytes
  | [], strpos, out => out ++ (w.str.drop strpos).take (w.size - out.length)
  | head :: heads, strpos, out =>
    let data := ((w.str.take head.offset).drop strpos).take (w.size - out.length)
    w.fill heads (strpos + data.length) (out ++ data ++ head.encode)

def toBytes (w : EncBuf) : Bytes :=
  let out := w.fill w.lheads 0 []
  out ++ List.replicate (w.size - out.length) 0

def writes (w : EncBuf) : List ListHead → ℕ → List Bytes
  | [], strpos => if strpos < w.str.length then [w.str.drop strpos] else []
  | head :: heads, strpos =>
    if 0 < head.offset - strpos then
      (w.str.take head.offset).drop strpos :: head.encode :: w.writes heads head.offset
    else head.encode :: w.writes heads strpos

def toWriter (w : EncBuf) : List Bytes := w.writes w.lheads 0

end EncBuf

inductive EncodeError where
  | negativeBigInt
deriving DecidableEq, Repr

def EncodeError.message : EncodeError → String
  | .negativeBigInt => "rlp: cannot encode negative *big.Int"

abbrev Emit := EncBuf → Except EncodeError EncBuf

def writeUint (i : UInt64) : Emit := fun w =>
  if i.toNat = 0 then .ok (w.append [0x80])
  else if i.toNat < 128 then .ok (w.append [lowByte i.toNat])
  else .ok (w.append (lowByte (0x80 + (putint i.toNat).length) :: putint i.toNat))

def writeBigInt (i : ℤ) : Emit := fun w =>
  if i < 0 then .error .negativeBigInt
  else if i = 0 then .ok (w.append [0x80])
  else .ok (w.encodeString (minBytes i.natAbs))

def writeBigIntPtr : Option ℤ → Emit
  | none => fun w => .ok (w.append [0x80])
  | some i => writeBigInt i

def writeBytes (b : Bytes) : Emit := fun w => .ok (w.encodeString b)

def writeByteArray (b : Bytes) : Emit := fun w => .ok (w.encodeString b)

def writeElems : List Emit → Emit
  | [] => fun w => .ok w
  | e :: es => fun w =>
    match e w with
    | .error err => .error err
    | .ok w => writeElems es w

def writeList (body : Emit) : Emit := fun w =>
  let (lh, w) := w.list
  match body w with
  | .error err => .error err
  | .ok w => .ok (w.listEnd lh)

def makeSliceWriter {α : Type} (writer : α → Emit) (val : List α) : Emit :=
  writeList (writeElems (val.map writer))

def makeStructWriter (fields : List Emit) : Emit := writeList (writeElems fields)

def makePtrWriter {α : Type} (nilKind : Kind) (writer : α → Emit) : Option α → Emit
  | none => fun w =>
    if nilKind = .string then .ok (w.append [0x80])
    else
      let (lh, w) := w.list
      .ok (w.listEnd lh)
  | some v => writer v

def encodeToBytes (e : Emit) : Except EncodeError Bytes :=
  match e .reset with
  | .error err => .error err
  | .ok w => .ok w.toBytes

/-- `Encode` to a writer that is not itself an encode buffer: what it writes. -/
def encode (e : Emit) : Except EncodeError (List Bytes) :=
  match e .reset with
  | .error err => .error err
  | .ok w => .ok w.toWriter

inductive Piece where
  | data (bs : Bytes)
  | head (size : ℕ)

def Piece.bytes : Piece → Bytes
  | .data bs => bs
  | .head size => puthead 0xC0 0xF7 size

def rendered (ps : List Piece) : Bytes := ps.flatMap Piece.bytes

def dataOf : List Piece → Bytes
  | [] => []
  | .data bs :: ps => bs ++ dataOf ps
  | .head _ :: ps => dataOf ps

def headsOf : ℕ → List Piece → List ListHead
  | _, [] => []
  | offset, .data bs :: ps => headsOf (offset + bs.length) ps
  | offset, .head size :: ps => ⟨offset, size⟩ :: headsOf offset ps

def headBytes : List Piece → ℕ
  | [] => 0
  | .data _ :: ps => headBytes ps
  | .head size :: ps => headsize size + headBytes ps

def EncBuf.push (w : EncBuf) (ps : List Piece) : EncBuf :=
  ⟨w.str ++ dataOf ps, w.lheads ++ headsOf w.str.length ps, w.lhsize + headBytes ps⟩

theorem dataOf_append (ps qs : List Piece) : dataOf (ps ++ qs) = dataOf ps ++ dataOf qs := by
  induction ps with
  | nil => rfl
  | cons p ps ih => cases p <;> simp [dataOf, ih]

theorem headsOf_append (offset : ℕ) (ps qs : List Piece) :
    headsOf offset (ps ++ qs) = headsOf offset ps ++ headsOf (offset + (dataOf ps).length) qs := by
  induction ps generalizing offset with
  | nil => rfl
  | cons p ps ih => cases p <;> simp [dataOf, headsOf, ih, Nat.add_assoc]

theorem headBytes_append (ps qs : List Piece) :
    headBytes (ps ++ qs) = headBytes ps + headBytes qs := by
  induction ps with
  | nil => simp [headBytes]
  | cons p ps ih => cases p <;> simp [headBytes, ih, Nat.add_assoc]

theorem rendered_length (ps : List Piece) :
    (rendered ps).length = (dataOf ps).length + headBytes ps := by
  induction ps with
  | nil => rfl
  | cons p ps ih =>
    have h : (rendered (p :: ps)).length = p.bytes.length + (rendered ps).length := by
      simp [rendered]
    cases p with
    | data bs =>
      rw [h, ih, dataOf, headBytes, length_append, Piece.bytes]
      omega
    | head size =>
      rw [h, ih, dataOf, headBytes, Piece.bytes, ← headsize_eq_length]
      omega

namespace EncBuf

theorem push_nil (w : EncBuf) : w.push [] = w := by
  simp [push, dataOf, headsOf, headBytes]

theorem push_push (w : EncBuf) (ps qs : List Piece) : (w.push ps).push qs = w.push (ps ++ qs) := by
  simp [push, dataOf_append, headsOf_append, headBytes_append, Nat.add_assoc]

theorem push_data (w : EncBuf) (bs : Bytes) : w.push [.data bs] = w.append bs := by
  simp [push, append, dataOf, headsOf, headBytes]

theorem push_size (w : EncBuf) (ps : List Piece) :
    (w.push ps).size = w.size + (rendered ps).length := by
  rw [rendered_length]
  simp only [size, push, length_append]
  omega

theorem listEnd_push (w : EncBuf) (ps : List Piece) :
    (w.list.2.push ps).listEnd w.list.1 = w.push (.head (rendered ps).length :: ps) := by
  have hget : (w.list.2.push ps).lheads[w.list.1]? = some ⟨w.str.length, w.lhsize⟩ := by
    simp [list, push]
  have hsize : (w.list.2.push ps).size - w.str.length - w.lhsize = (rendered ps).length := by
    rw [push_size]
    simp only [size, list]
    omega
  have hhead : (if (rendered ps).length < 56 then (w.list.2.push ps).lhsize + 1
      else (w.list.2.push ps).lhsize + (1 + intsize (rendered ps).length)) =
      (w.list.2.push ps).lhsize + headsize (rendered ps).length := by
    unfold headsize
    split_ifs <;> rfl
  simp only [listEnd, hget, hsize, hhead]
  simp only [list, push, dataOf, headsOf, headBytes, append_assoc, cons_append,
    nil_append, set_append_right _ _ le_rfl, Nat.sub_self, set_cons_zero]
  congr 1
  omega

theorem fill_push (w : EncBuf) (ps : List Piece) (pre cur out : Bytes)
    (hstr : w.str = pre ++ cur ++ dataOf ps)
    (hsize : out.length + cur.length + (rendered ps).length ≤ w.size) :
    w.fill (headsOf (pre.length + cur.length) ps) pre.length out = out ++ cur ++ rendered ps := by
  induction ps generalizing pre cur out with
  | nil =>
    simp only [headsOf, fill, hstr, dataOf, append_nil, append_assoc]
    rw [drop_left, take_of_length_le (by omega)]
    simp [rendered]
  | cons p ps ih =>
    cases p with
    | data bs =>
      have hlen : pre.length + cur.length + bs.length = pre.length + (cur ++ bs).length := by
        rw [length_append, Nat.add_assoc]
      have hr : rendered (.data bs :: ps) = bs ++ rendered ps := rfl
      rw [hr, length_append] at hsize
      rw [headsOf, hlen, ih pre (cur ++ bs) out (by rw [hstr, dataOf]; simp) (by
        rw [length_append]; omega), hr]
      simp
    | head n =>
      have hr : rendered (.head n :: ps) = puthead 0xC0 0xF7 n ++ rendered ps := rfl
      rw [hr, length_append] at hsize
      have hdata : ((w.str.take (pre.length + cur.length)).drop pre.length).take
          (w.size - out.length) = cur := by
        rw [hstr, take_left' (by simp), drop_left, take_of_length_le (by omega)]
      simp only [headsOf, fill, hdata]
      have h := ih (pre ++ cur) [] (out ++ cur ++ puthead 0xC0 0xF7 n)
        (by rw [hstr, dataOf]; simp) (by simp only [length_append, length_nil]; omega)
      simp only [length_append, length_nil, Nat.add_zero, append_nil] at h
      rw [ListHead.encode, h, hr]
      simp

theorem toBytes_push (ps : List Piece) : (reset.push ps).toBytes = rendered ps := by
  have hsize : (reset.push ps).size = (rendered ps).length := by
    rw [push_size]
    simp [size, reset]
  have hfill := fill_push (reset.push ps) ps [] [] [] (by simp [push, reset])
    (by rw [hsize]; simp)
  have hheads : (reset.push ps).lheads = headsOf 0 ps := by simp [push, reset]
  simp only [length_nil, Nat.add_zero, nil_append] at hfill
  simp only [toBytes, hheads, hfill, hsize, Nat.sub_self, replicate_zero, append_nil]

theorem writes_push (w : EncBuf) (ps : List Piece) (pre cur : Bytes)
    (hstr : w.str = pre ++ cur ++ dataOf ps) :
    (w.writes (headsOf (pre.length + cur.length) ps) pre.length).flatten = cur ++ rendered ps := by
  induction ps generalizing pre cur with
  | nil =>
    simp only [headsOf, writes, hstr, dataOf, append_nil, length_append]
    split_ifs with h
    · simp [rendered]
    · have hcur : cur = [] := eq_nil_of_length_eq_zero (by omega)
      simp [hcur, rendered]
  | cons p ps ih =>
    cases p with
    | data bs =>
      have hlen : pre.length + cur.length + bs.length = pre.length + (cur ++ bs).length := by
        rw [length_append, Nat.add_assoc]
      have hr : rendered (.data bs :: ps) = bs ++ rendered ps := rfl
      rw [headsOf, hlen, ih pre (cur ++ bs) (by rw [hstr, dataOf]; simp), hr]
      simp
    | head n =>
      have hr : rendered (.head n :: ps) = puthead 0xC0 0xF7 n ++ rendered ps := rfl
      have h := ih (pre ++ cur) [] (by rw [hstr, dataOf]; simp)
      simp only [length_append, length_nil, Nat.add_zero, nil_append] at h
      simp only [headsOf, writes, Nat.add_sub_cancel_left, ListHead.encode]
      split_ifs with hpos
      · have hdata : (w.str.take (pre.length + cur.length)).drop pre.length = cur := by
          rw [hstr, take_left' (by simp), drop_left]
        rw [flatten_cons, flatten_cons, hdata, h, hr]
      · have hcur : cur = [] := eq_nil_of_length_eq_zero (by omega)
        subst hcur
        simp only [length_nil, Nat.add_zero] at h ⊢
        rw [flatten_cons, h, hr]
        rfl

theorem toWriter_push (ps : List Piece) : (reset.push ps).toWriter.flatten = rendered ps := by
  have h := writes_push (reset.push ps) ps [] [] (by simp [push, reset])
  have hheads : (reset.push ps).lheads = headsOf 0 ps := by simp [push, reset]
  simpa [toWriter, hheads] using h

end EncBuf

def Emits (e : Emit) (xs : List Item) : Prop :=
  ∃ ps, (∀ w, e w = .ok (w.push ps)) ∧ rendered ps = encodeAll xs

def Fails (e : Emit) : Prop := ∃ err, ∀ w, e w = .error err

def Succeeds (e : Emit) : Prop := ∀ w, ∃ w', e w = .ok w'

theorem encodeAll_singleton (x : Item) : encodeAll [x] = x.encode := by
  simp [encodeAll]

variable {e : Emit} {x : Item}

theorem Emits.of_append {b : Bytes} (h : ∀ w, e w = .ok (w.append b))
    (hb : b = x.encode) : Emits e [x] := by
  refine ⟨[.data b], fun w => ?_, ?_⟩
  · rw [h, EncBuf.push_data]
  · rw [encodeAll_singleton, ← hb]
    simp [rendered, Piece.bytes]

theorem encodeStr_nil : encodeStr [] = [0x80] := rfl

theorem encodeString_eq (w : EncBuf) (b : Bytes) (h : b.length < 2 ^ 64) :
    w.encodeString b = w.append (encodeStr b) := by
  have happ : ∀ c d : Bytes, (w.append c).append d = w.append (c ++ d) := by
    intro c d
    simp [EncBuf.append]
  match b with
  | [] => simp [EncBuf.encodeString, EncBuf.encodeStringHeader, happ, puthead, encodeStr_nil, lowByte]
  | [b] =>
    by_cases hb : b.val ≤ 0x7F
    · rw [encodeStr_own b (by omega), EncBuf.encodeString, if_pos hb]
    · rw [EncBuf.encodeString, if_neg hb, EncBuf.encodeStringHeader, happ,
        puthead_eq_header _ _ (by norm_num), encodeStr_of_not_own [b] (by simp [isOwnCode]; omega)]
      rfl
  | b :: c :: bs =>
    rw [EncBuf.encodeString, EncBuf.encodeStringHeader, happ, puthead_eq_header _ _ h,
      encodeStr_of_not_own (b :: c :: bs) rfl]
    · rfl
    · simp

theorem writeBytes_emits (b : Bytes) (h : b.length < 2 ^ 64) : Emits (writeBytes b) [.str b] :=
  .of_append (b := encodeStr b) (fun w => by rw [writeBytes, encodeString_eq w b h]) rfl

theorem writeByteArray_emits (b : Bytes) (h : b.length < 2 ^ 64) :
    Emits (writeByteArray b) [.str b] :=
  .of_append (b := encodeStr b) (fun w => by rw [writeByteArray, encodeString_eq w b h]) rfl

theorem isOwnCode_minBytes (i : ℕ) : isOwnCode (minBytes i) = true ↔ 0 < i ∧ i < 128 := by
  constructor
  · intro h
    obtain ⟨b, hb, hm⟩ := (isOwnCode_iff _).mp h
    have hv := congrArg beVal hm
    rw [beVal_minBytes, beVal_cons] at hv
    simp only [length_nil, pow_zero, mul_one, beVal_nil, add_zero] at hv
    have hne := (minBytes_eq_nil i).not.mp (by simp [hm])
    omega
  · intro ⟨hpos, hlt⟩
    have hv : (lowByte i).val = i := lowByte_val_of_lt (by omega)
    have hne : lowByte i ≠ 0 := by
      intro h0
      rw [h0, Fin.val_zero] at hv
      omega
    have hm := minBytes_of_byte _ hne
    rw [hv] at hm
    rw [hm]
    exact decide_eq_true (hv.symm ▸ hlt)

theorem encodeStr_minBytes_small (hpos : 0 < i) (h : i < 128) :
    encodeStr (minBytes i) = [lowByte i] := by
  obtain ⟨b, hb, hm⟩ := (isOwnCode_iff _).mp ((isOwnCode_minBytes i).mpr ⟨hpos, h⟩)
  have hv := congrArg beVal hm
  rw [beVal_minBytes, beVal_cons] at hv
  simp only [length_nil, pow_zero, mul_one, beVal_nil, add_zero] at hv
  rw [hm, encodeStr_own b hb, hv, lowByte_of_byte]

theorem encodeStr_minBytes_large (h : 128 ≤ i) (hlt : i < 2 ^ 64) :
    encodeStr (minBytes i) = lowByte (0x80 + byteLen i) :: minBytes i := by
  have hown : isOwnCode (minBytes i) = false := by
    have hiff := (isOwnCode_minBytes i).not.mpr (by omega)
    simpa using hiff
  have h8 := byteLen_le_eight hlt
  rw [encodeStr_of_not_own _ hown, strHeader, minBytes_length, header_short _ (by omega)]
  rfl

theorem writeUint_emits (i : UInt64) : Emits (writeUint i) [.str (minBytes i.toNat)] := by
  have hlt : i.toNat < 2 ^ 64 := i.toNat_lt
  unfold writeUint
  by_cases h0 : i.toNat = 0
  · refine .of_append (fun w => if_pos h0) ?_
    rw [h0]
    rfl
  by_cases h1 : i.toNat < 128
  · refine .of_append (fun w => by rw [if_neg h0, if_pos h1]) ?_
    exact (encodeStr_minBytes_small (by omega) h1).symm
  · refine .of_append (fun w => by rw [if_neg h0, if_neg h1]) ?_
    rw [putint_eq_minBytes (by omega) hlt, minBytes_length]
    exact (encodeStr_minBytes_large (by omega) hlt).symm

theorem writeBigIntPtr_emits (i : Option ℤ) (hpos : 0 ≤ i.getD 0)
    (hlen : byteLen (i.getD 0).natAbs < 2 ^ 64) :
    Emits (writeBigIntPtr i) [.str (minBytes (i.getD 0).natAbs)] := by
  cases i with
  | none => exact .of_append (fun w => rfl) rfl
  | some i =>
    simp only [Option.getD_some] at hpos hlen ⊢
    have hneg : ¬ i < 0 := by omega
    by_cases h0 : i = 0
    · subst h0
      exact .of_append (fun w => rfl) rfl
    · refine .of_append (b := encodeStr (minBytes i.natAbs)) (fun w => ?_) rfl
      rw [writeBigIntPtr, writeBigInt, if_neg hneg, if_neg h0,
        encodeString_eq w _ (by simpa using hlen)]

theorem writeBigIntPtr_succeeds (i : Option ℤ) (hpos : 0 ≤ i.getD 0) :
    Succeeds (writeBigIntPtr i) := by
  intro w
  cases i with
  | none => exact ⟨_, rfl⟩
  | some i =>
    have hneg : ¬ i < 0 := by simpa using hpos
    by_cases h0 : i = 0
    · exact ⟨w.append [0x80], by rw [writeBigIntPtr, writeBigInt, if_neg hneg, if_pos h0]⟩
    · exact ⟨_, by rw [writeBigIntPtr, writeBigInt, if_neg hneg, if_neg h0]⟩

theorem writeBigIntPtr_fails (i : Option ℤ) (hneg : i.getD 0 < 0) : Fails (writeBigIntPtr i) := by
  cases i with
  | none => simp at hneg
  | some i => exact ⟨.negativeBigInt, fun w => if_pos hneg⟩

theorem writeElems_nil_emits : Emits (writeElems []) [] :=
  ⟨[], fun w => by rw [EncBuf.push_nil]; rfl, rfl⟩

variable {es : List Emit} {xs : List Item}

theorem Emits.cons {ys : List Item} (he : Emits e xs)
    (hes : Emits (writeElems es) ys) : Emits (writeElems (e :: es)) (xs ++ ys) := by
  obtain ⟨ps, hps, hxs⟩ := he
  obtain ⟨qs, hqs, hys⟩ := hes
  refine ⟨ps ++ qs, fun w => ?_, ?_⟩
  · simp only [writeElems, hps, hqs, EncBuf.push_push]
  · rw [encodeAll_append, ← hxs, ← hys]
    simp [rendered]

theorem writeElems_emits (h : Forall₂ (fun e x => x.Fits → Emits e [x]) es xs)
    (hlen : (encodeAll xs).length < 2 ^ 64) : Emits (writeElems es) xs := by
  induction h with
  | nil => exact writeElems_nil_emits
  | @cons e x es xs he _ ih =>
    have hp := x.payload_le
    simp only [encodeAll, length_append] at hlen
    exact (he (by unfold Item.Fits; omega)).cons (ih (by omega))

theorem writeElems_fails (hes : ∀ e ∈ es, Succeeds e ∨ Fails e)
    (h : ∃ e ∈ es, Fails e) : Fails (writeElems es) := by
  induction es with
  | nil =>
    obtain ⟨e, he, -⟩ := h
    cases he
  | cons d es ih =>
    -- the first element that fails decides the error
    by_cases hd : Fails d
    · obtain ⟨err, herr⟩ := hd
      exact ⟨err, fun w => by simp only [writeElems, herr]⟩
    · have hsucc := (hes d (by simp)).resolve_right hd
      obtain ⟨e, he, hfail⟩ := h
      have hmem : e ∈ es := by
        rcases mem_cons.mp he with rfl | hmem
        · exact absurd hfail hd
        · exact hmem
      obtain ⟨err, herr⟩ := ih (fun f hf => hes f (by simp [hf])) ⟨e, hmem, hfail⟩
      refine ⟨err, fun w => ?_⟩
      obtain ⟨w', hw'⟩ := hsucc w
      simp only [writeElems, hw', herr]

theorem writeList_emits {body : Emit} (h : Emits body xs)
    (hlen : (encodeAll xs).length < 2 ^ 64) : Emits (writeList body) [.list xs] := by
  obtain ⟨ps, hps, hxs⟩ := h
  refine ⟨.head (rendered ps).length :: ps, fun w => ?_, ?_⟩
  · simp only [writeList, hps]
    rw [EncBuf.listEnd_push]
  · rw [encodeAll_singleton, Item.encode, ← hxs, listHeader,
      ← puthead_eq_header _ _ (by rw [hxs]; exact hlen)]
    simp [rendered, Piece.bytes]

theorem writeList_fails {body : Emit} (h : Fails body) : Fails (writeList body) := by
  obtain ⟨err, herr⟩ := h
  exact ⟨err, fun w => by simp only [writeList, herr]⟩

theorem encodeToBytes_of_emits (h : Emits e [x]) : encodeToBytes e = .ok x.encode := by
  obtain ⟨ps, hps, hx⟩ := h
  simp only [encodeToBytes, hps]
  rw [EncBuf.toBytes_push, hx, encodeAll_singleton]

theorem encode_of_emits (h : Emits e [x]) : ∃ ws, encode e = .ok ws ∧ ws.flatten = x.encode := by
  obtain ⟨ps, hps, hx⟩ := h
  refine ⟨(EncBuf.reset.push ps).toWriter, by simp only [encode, hps], ?_⟩
  rw [EncBuf.toWriter_push, hx, encodeAll_singleton]

theorem encode_of_fails (h : Fails e) : ∃ err, encode e = .error err := by
  obtain ⟨err, herr⟩ := h
  exact ⟨err, by simp only [encode, herr]⟩

end Fiscobcos.Rlp
