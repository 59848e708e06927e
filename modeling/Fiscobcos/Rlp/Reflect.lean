import Fiscobcos.Rlp.Shapes
import Fiscobcos.Rlp.Types

/-! # Writers and decoders of every type (rlp/encode.go, rlp/decode.go)

The element loop of a slice has no bound of its own, so `decode` takes fuel; `none` is a run that
has not ended, and more fuel never changes an answer (`decode_chain`). The typed pairs are instances
(`Builds`). -/

namespace Fiscobcos.Rlp.Reflect

open Fiscobcos.Numerals Fiscobcos.RlpFormat Fiscobcos.Runs

/-- Go values. Strings, byte slices and byte arrays are `bytes`; slices, arrays and structs are
`seq`, a struct with its encoded fields only. Nil and empty slices are the same value. -/
inductive Val where
  | uint (n : ℕ)
  | bool (b : Bool)
  | big (z : ℤ)
  | bytes (bs : Bytes)
  | seq (vs : List Val)
  | nil
  | ref (v : Val)
  | dyn (typ : GoType) (v : Val)

theorem Val.induction {P : Val → Prop} (uint : ∀ n, P (.uint n)) (bool : ∀ b, P (.bool b))
    (big : ∀ z, P (.big z)) (bytes : ∀ bs, P (.bytes bs))
    (seq : ∀ vs, (∀ v ∈ vs, P v) → P (.seq vs)) (nil : P .nil) (ref : ∀ v, P v → P (.ref v))
    (dyn : ∀ typ v, P v → P (.dyn typ v)) (v : Val) : P v :=
  @Val.rec P (fun vs => ∀ v ∈ vs, P v) uint bool big bytes seq nil ref dyn (List.forall_mem_nil P)
    (fun _ _ hv hvs => List.forall_mem_cons.mpr ⟨hv, hvs⟩) v

def writeBool (b : Bool) : Emit := fun w =>
  if b then .ok (w.append [0x01]) else .ok (w.append [0x80])

def writeString (s : Bytes) : Emit := fun w =>
  match s with
  | [c] => if c.val ≤ 0x7F then .ok (w.append [c]) else .ok ((w.encodeStringHeader 1).append [c])
  | s => .ok ((w.encodeStringHeader s.length).append s)

def writeNilInterface : Emit := fun w => .ok (w.append [0xC0])

def makeSliceWriter (tags : FieldTags) (elems : List Emit) : Emit :=
  if tags.tail then writeElems elems else writeList (writeElems elems)

def ptrNilKind (tags : FieldTags) (elem : GoType) : Kind :=
  if tags.nilOK then tags.nilKind else defaultNilKind elem

mutual

/-- `makeWriter`, applied to a value of the type; other values do not reach it. -/
def write (D : Decls) (typ : GoType) (tags : FieldTags) (v : Val) : Emit :=
  match typ.case, v with
  | .bigIntPtr, .nil => writeBigIntPtr none
  | .bigIntPtr, .ref (.big z) => writeBigIntPtr (some z)
  | .bigInt, .big z => writeBigInt z
  | .ptr e, .nil => makePtrWriter (ptrNilKind tags e) id none
  | .ptr e, .ref v => makePtrWriter (ptrNilKind tags e) id (some (write D e noTags v))
  | .uint _, .uint n => writeUint (.ofNat n)
  | .bool, .bool b => writeBool b
  | .string, .bytes s => writeString s
  | .byteSlice, .bytes b => writeBytes b
  | .byteArray _, .bytes b => writeByteArray b
  | .slice e, .seq vs => makeSliceWriter tags (writeAll D e vs)
  | .array _ e, .seq vs => makeSliceWriter tags (writeAll D e vs)
  | .struct name, .seq vs => makeStructWriter (writeFields D (D.fields name) vs)
  | .iface, .nil => writeNilInterface
  | .iface, .dyn elem v => write D elem noTags v
  | _, _ => fun w => .ok w

def writeAll (D : Decls) (elem : GoType) : List Val → List Emit
  | [] => []
  | v :: vs => write D elem noTags v :: writeAll D elem vs

def writeFields (D : Decls) : List FieldInfo → List Val → List Emit
  | f :: fs, v :: vs => write D f.typ f.tags v :: writeFields D fs vs
  | _, _ => []

end

def encodeToBytes (D : Decls) (typ : GoType) (v : Val) : Except EncodeError Bytes :=
  Rlp.encodeToBytes (write D typ noTags v)

abbrev Dec (α : Type) := Run Stream DecodeError α

def decodeUint (u : UintType) : Dec Val :=
  .lift (wrapped u.toString (·.uint u.bits) fun num => .ok (.uint (num % 2 ^ u.bits)))

def decodeBool : Dec Val := .lift (wrapped "bool" Stream.bool fun b => .ok (.bool b))

def decodeString : Dec Val := .map .bytes (.lift (decodeContents "string"))

def decodeBigIntNoPtr : Dec Val := .map (fun z => .big (z.getD 0)) (.lift Rlp.decodeBigInt)

def decodeBigInt : Dec Val :=
  .map (fun z => (z.map fun z => Val.ref (.big z)).getD .nil) (.lift Rlp.decodeBigInt)

def decodeByteSlice : Dec Val := .map .bytes (.lift (decodeContents "[]uint8"))

def decodeByteArray (typ : String) (vlen : ℕ) : Dec Val :=
  .map (fun b => .bytes b.val) (.lift (Rlp.decodeByteArray typ vlen))

def closing {α : Type} (wrap : StreamError → DecodeError) (v : α) : Dec α := .lift (closeList wrap v)

/-- The loop has no bound in the source; here it ends with the fuel. -/
def decodeSliceElems (elemdec : Dec Val) : ℕ → ℕ → Dec (List Val)
  | 0, _ => fun _ => none
  | fuel + 1, i =>
    .handle elemdec (elemError (.ok []) (indexContext i)) fun v =>
      .map (v :: ·) (decodeSliceElems elemdec fuel (i + 1))

def decodeListSlice (typ : String) (elemdec : Dec Val) (fuel : ℕ) : Dec (List Val) :=
  .andThen (.lift (openList typ)) fun size =>
    if size = 0 then closing .stream []
    else .andThen (decodeSliceElems elemdec fuel 0) (closing .stream)

/-- The elements of an array or the fields of a struct; `few` is what a list that ends early is
reported with. -/
def decodeEach (few typ : String) (context : FieldInfo → String)
    (dec : GoType → FieldTags → Dec Val) : List FieldInfo → Dec (List Val)
  | [] => .lift fun s => (.ok [], s)
  | f :: fs =>
    .handle (dec f.typ f.tags) (elemError (.error (.decode few typ [])) (context f)) fun v =>
      .map (v :: ·) (decodeEach few typ context dec fs)

def decodeFixed (few typ : String) (context : FieldInfo → String)
    (dec : GoType → FieldTags → Dec Val) (fields : List FieldInfo) : Dec (List Val) :=
  .andThen (.lift (openList typ)) fun _ =>
    .andThen (decodeEach few typ context dec fields) (closing (wrapStreamError · typ))

def elements (elem : GoType) (vlen : ℕ) : List FieldInfo :=
  (List.range vlen).map fun i => ⟨indexContext i, elem, noTags⟩

def decodeListArray (typ : String) (dec : GoType → FieldTags → Dec Val) (elem : GoType)
    (vlen : ℕ) : Dec (List Val) :=
  decodeFixed "input list has too few elements" typ (·.name) dec (elements elem vlen)

def makeStructDecoder (typ : String) (dec : GoType → FieldTags → Dec Val) (fields : List FieldInfo) :
    Dec (List Val) :=
  decodeFixed "too few elements" typ ("." ++ ·.name) dec fields

def makeSimplePtrDecoder (elemdec : Dec Val) : Dec Val := .map .ref elemdec

def makeNilPtrDecoder (typ : String) (nilKind : Kind) (elemdec : Dec Val) : Dec Val :=
  .andThen (.lift (emptyAhead typ nilKind)) fun empty =>
    if empty then .lift fun s => (.ok .nil, s) else .map .ref elemdec

def makePtrDecoder (elem : GoType) (tags : FieldTags) (elemdec : Dec Val) : Dec Val :=
  if tags.nilOK then makeNilPtrDecoder (GoType.ptr elem).toString tags.nilKind elemdec
  else makeSimplePtrDecoder elemdec

def kindAhead : Decoder Kind := fun s =>
  match s.nextKind with
  | ((_, _, some e), s) => (.error (.stream e), s)
  | ((kind, _, none), s) => (.ok kind, s)

/-- `elemdec` decodes into an empty interface, the element type of the lists. -/
def decodeInterface (elemdec : Dec Val) (fuel : ℕ) : Dec Val :=
  .andThen (.lift kindAhead) fun kind =>
    if kind = .list then
      .map (fun vs => .dyn (.slice .iface) (.seq vs))
        (decodeListSlice (GoType.slice .iface).toString elemdec fuel)
    else .lift fun s =>
      match s.bytes with
      | (.error e, s) => (.error (.stream e), s)
      | (.ok b, s) => (.ok (.dyn (.slice .byte) (.bytes b)), s)

/-- `dec` is the decoder of the types that the type refers to. -/
def makeDecoder (D : Decls) (dec : GoType → FieldTags → Dec Val) (fuel : ℕ) (typ : GoType)
    (tags : FieldTags) : Dec Val :=
  match typ.case with
  | .bigIntPtr => decodeBigInt
  | .bigInt => decodeBigIntNoPtr
  | .ptr e => makePtrDecoder e tags (dec e noTags)
  | .uint u => decodeUint u
  | .bool => decodeBool
  | .string => decodeString
  | .byteSlice => decodeByteSlice
  | .byteArray n => decodeByteArray typ.toString n
  | .slice e =>
    .map .seq (if tags.tail then decodeSliceElems (dec e noTags) fuel 0
      else decodeListSlice typ.toString (dec e noTags) fuel)
  | .array n e => .map .seq (decodeListArray typ.toString dec e n)
  | .struct name => .map .seq (makeStructDecoder typ.toString dec (D.fields name))
  | .iface => decodeInterface (dec .iface noTags) fuel

def decode (D : Decls) : ℕ → GoType → FieldTags → Dec Val
  | 0, _, _ => fun _ => none
  | fuel + 1, typ, tags => makeDecoder D (decode D fuel) fuel typ tags

def decodeBytes (D : Decls) (fuel : ℕ) (typ : GoType) (b : Bytes) :
    Option (Except DecodeError Val) :=
  (decode D fuel typ noTags (.reset b b.length)).map fun r =>
    Rlp.decodeBytes typ.toString (fun _ => r) b

def Ends (D : Decls) (typ : GoType) (b : Bytes) : Prop := ∃ fuel, (decodeBytes D fuel typ b).isSome

def Returns (D : Decls) (typ : GoType) (b : Bytes) (r : Except DecodeError Val) : Prop :=
  ∃ fuel, decodeBytes D fuel typ b = some r

section Cases

variable {D : Decls} {fuel : ℕ} {e : GoType} {tags : FieldTags}

theorem decode_ptr (h : e ≠ .bigInt) : decode D (fuel + 1) (.ptr e) tags =
    makePtrDecoder e tags (decode D fuel e noTags) := by
  rw [decode, makeDecoder, case_ptr h]

theorem decode_slice (h : e ≠ .byte) : decode D (fuel + 1) (.slice e) tags =
    .map .seq (if tags.tail then decodeSliceElems (decode D fuel e noTags) fuel 0
      else decodeListSlice (GoType.slice e).toString (decode D fuel e noTags) fuel) := by
  rw [decode, makeDecoder, case_slice h]

theorem decode_array (h : e ≠ .byte) (n : ℕ) : decode D (fuel + 1) (.array n e) tags =
    .map .seq (decodeListArray (GoType.array n e).toString (decode D fuel) e n) := by
  rw [decode, makeDecoder, case_array n h]

end Cases

section Fuel

open Run

variable {dec dec' : Dec Val} {m n : ℕ}

theorem decodeSliceElems_le (h : Le dec dec') (hmn : m ≤ n) (i : ℕ) :
    Le (decodeSliceElems dec m i) (decodeSliceElems dec' n i) := by
  induction m generalizing n i with
  | zero =>
    intro s x hx
    cases hx
  | succ m ih =>
    obtain ⟨n, rfl⟩ : ∃ k, n = k + 1 := ⟨n - 1, by omega⟩
    exact handle_le h fun v => map_le (ih (by omega) (i + 1))

theorem decodeListSlice_le (typ : String) (h : Le dec dec')
    (hmn : m ≤ n) : Le (decodeListSlice typ dec m) (decodeListSlice typ dec' n) := by
  refine handle_le (.refl _) fun size => ?_
  split_ifs
  · exact .refl _
  · exact handle_le (decodeSliceElems_le h hmn 0) fun _ => .refl _

theorem decodeEach_le (few typ : String) (context : FieldInfo → String)
    {dec dec' : GoType → FieldTags → Dec Val} (h : ∀ τ tags, Le (dec τ tags) (dec' τ tags))
    (fs : List FieldInfo) : Le (decodeEach few typ context dec fs) (decodeEach few typ context dec' fs) := by
  induction fs with
  | nil => exact .refl _
  | cons f fs ih => exact handle_le (h f.typ f.tags) fun v => map_le ih

theorem makePtrDecoder_le (e : GoType) (tags : FieldTags) (h : Le dec dec') :
    Le (makePtrDecoder e tags dec) (makePtrDecoder e tags dec') := by
  unfold makePtrDecoder
  split_ifs
  · refine handle_le (.refl _) fun empty => ?_
    split_ifs
    · exact .refl _
    · exact map_le h
  · exact map_le h

theorem decodeInterface_le (h : Le dec dec') (hmn : m ≤ n) :
    Le (decodeInterface dec m) (decodeInterface dec' n) := by
  refine handle_le (.refl _) fun kind => ?_
  split_ifs
  · exact map_le (decodeListSlice_le _ h hmn)
  · exact .refl _

theorem makeDecoder_le (D : Decls) {dec dec' : GoType → FieldTags → Dec Val}
    (h : ∀ τ tags, Le (dec τ tags) (dec' τ tags)) (hmn : m ≤ n) (typ : GoType)
    (tags : FieldTags) : Le (makeDecoder D dec m typ tags) (makeDecoder D dec' n typ tags) := by
  unfold makeDecoder
  cases typ.case with
  | ptr e => exact makePtrDecoder_le e tags (h e noTags)
  | slice e =>
    dsimp only
    split_ifs
    · exact map_le (decodeSliceElems_le (h e noTags) hmn 0)
    · exact map_le (decodeListSlice_le _ (h e noTags) hmn)
  | array k e => exact map_le (handle_le (.refl _) fun _ =>
      handle_le (decodeEach_le _ _ _ h (elements e k)) fun _ => .refl _)
  | struct name => exact map_le (handle_le (.refl _) fun _ =>
      handle_le (decodeEach_le _ _ _ h (D.fields name)) fun _ => .refl _)
  | iface => exact decodeInterface_le (h .iface noTags) hmn
  | _ => exact .refl _

theorem decode_chain (D : Decls) (typ : GoType) (tags : FieldTags) :
    Chain fun n => decode D n typ tags := by
  intro n
  induction n generalizing typ tags with
  | zero =>
    intro s x hx
    cases hx
  | succ n ih => exact makeDecoder_le D ih (by omega) typ tags

theorem decode_le (D : Decls) (hmn : m ≤ n) (typ : GoType) (tags : FieldTags) :
    Le (decode D m typ tags) (decode D n typ tags) := (decode_chain D typ tags).le hmn

theorem Returns.unique {D : Decls} {typ : GoType} {b : Bytes} {r r' : Except DecodeError Val}
    (h : Returns D typ b r) (h' : Returns D typ b r') : r = r' := by
  obtain ⟨m, hm⟩ := h
  obtain ⟨n, hn⟩ := h'
  obtain ⟨x, hx, rfl⟩ := Option.map_eq_some_iff.mp hm
  obtain ⟨y, hy, rfl⟩ := Option.map_eq_some_iff.mp hn
  rw [(decode_chain D typ noTags).unique hx hy]

end Fuel

section Peek

open Run

theorem lift_peek {α : Type} {op : Decoder α} (h : ∀ s : Stream, op s.nextKind.2 = op s)
    (s : Stream) : lift op s.nextKind.2 = lift op s := congrArg some (h s)

theorem bool_peek (s : Stream) : s.nextKind.2.bool = s.bool := by
  unfold Stream.bool
  rw [uint_peek]

theorem kindAhead_peek (s : Stream) : kindAhead s.nextKind.2 = kindAhead s := by
  unfold kindAhead
  rw [Stream.nextKind_nextKind]

theorem decode_peek (D : Decls) (n : ℕ) (typ : GoType) (tags : FieldTags) (s : Stream) :
    decode D n typ tags s.nextKind.2 = decode D n typ tags s := by
  have hbytes : ∀ {β : Type} (name : String) (f : Bytes → Except DecodeError β) (s : Stream),
      wrapped name (·.bytes) f s.nextKind.2 = wrapped name (·.bytes) f s :=
    fun name f s => wrapped_peek _ (bytes_peek s)
  have hopen := fun name => lift_peek (openList_peek name) s
  induction n generalizing typ tags with
  | zero => rfl
  | succ n ih =>
    unfold decode makeDecoder
    cases typ.case with
    | bigIntPtr => exact handle_congr (lift_peek (hbytes _ _) s)
    | bigInt => exact handle_congr (lift_peek (hbytes _ _) s)
    | ptr e =>
      dsimp only
      unfold makePtrDecoder
      split_ifs
      · exact handle_congr (lift_peek (emptyAhead_peek _ _) s)
      · exact handle_congr (ih e noTags)
    | uint u => exact congrArg some (wrapped_peek (·.uint u.bits) (uint_peek _ s))
    | bool => exact congrArg some (wrapped_peek _ (bool_peek s))
    | string => exact handle_congr (lift_peek (hbytes _ _) s)
    | byteSlice => exact handle_congr (lift_peek (hbytes _ _) s)
    | byteArray k => exact handle_congr (lift_peek (decodeByteArray_peek _ k) s)
    | slice e =>
      dsimp only
      split_ifs
      · refine handle_congr ?_
        cases n with
        | zero => rfl
        | succ n => exact handle_congr (ih e noTags)
      · exact handle_congr (handle_congr (hopen _))
    | array k e => exact handle_congr (handle_congr (hopen _))
    | struct name => exact handle_congr (handle_congr (hopen _))
    | iface => exact handle_congr (lift_peek kindAhead_peek s)

end Peek

section Typed

variable {α β : Type} {D : Decls} {depth : ℕ}

/-- `T` is the pair that is built for a type; `val` gives its values as values of that type. -/
structure Builds (D : Decls) (depth : ℕ) (typ : GoType) (tags : FieldTags) (T : TypeInfo α)
    (val : α → Val) : Prop where
  write : ∀ v, write D typ tags (val v) = T.writer v
  decode : ∀ fuel, depth < fuel → ∀ s, Follows val (decode D fuel typ tags) T.decoder s

structure BuildsFields (D : Decls) (depth : ℕ) (fs : List FieldInfo) (F : FieldsInfo β)
    (vals : β → List Val) : Prop where
  write : ∀ v, writeFields D fs (vals v) = F.writers v
  decode : ∀ typ fuel, depth < fuel → ∀ s, Follows vals
    (decodeEach "too few elements" typ ("." ++ ·.name) (decode D fuel) fs) (F.decoder typ) s

def ptrVal (val : α → Val) : Option α → Val
  | none => .nil
  | some v => .ref (val v)

theorem elemError_map (f : α → β) (eol : Except DecodeError α) (context : String) (e : DecodeError)
    (s : Stream) : elemError (eol.map f) context e s =
      ((elemError eol context e s).1.map f, (elemError eol context e s).2) := by
  unfold elemError
  split_ifs <;> rfl

theorem closing_follows (f : α → β) (wrap : StreamError → DecodeError) (v : α) (s : Stream) :
    Follows f (closing wrap (f v)) (closeList wrap v) s := by
  unfold Follows closing Run.lift closeList
  rcases s.listEnd with ⟨e | _, t⟩ <;> rfl

theorem uint64_builds : Builds D 0 (.uint .uint64) noTags uint64Info fun v => .uint v.toNat where
  write _ := congrArg writeUint UInt64.ofNat_toNat
  decode fuel hfuel s := by
    obtain ⟨fuel, rfl⟩ : ∃ n, fuel = n + 1 := ⟨fuel - 1, by omega⟩
    show some (wrapped "uint64" (·.uint 64) _ s) = some (_, _)
    simp only [uint64Info, decodeUint64, decodeUintAs, wrapped]
    rcases s.uint 64 with ⟨e | num, t⟩ <;> rfl

theorem bigInt_builds : Builds D 0 (.ptr .bigInt) noTags bigIntInfo (ptrVal .big) where
  write v := by cases v <;> rfl
  decode fuel hfuel s := by
    obtain ⟨fuel, rfl⟩ : ∃ n, fuel = n + 1 := ⟨fuel - 1, by omega⟩
    have hval : (fun z : Option ℤ => (z.map fun z => Val.ref (.big z)).getD .nil) = ptrVal .big := by
      funext z
      cases z <;> rfl
    exact hval ▸ (Follows.lift Rlp.decodeBigInt s).map_left

theorem byteSlice_builds :
    Builds D 0 (.slice .byte) noTags byteSliceInfo fun v => .bytes (v.getD []) where
  write _ := rfl
  decode fuel hfuel s := by
    obtain ⟨fuel, rfl⟩ : ∃ n, fuel = n + 1 := ⟨fuel - 1, by omega⟩
    exact (Follows.lift (decodeContents "[]uint8") s).map fun _ => rfl

/-- A named array type differs in the name that its errors have. -/
theorem byteArray_builds (n : ℕ) : Builds D 0 (.array n .byte) noTags
    (byteArrayInfo (GoType.array n .byte).toString n) fun v => .bytes v.val where
  write _ := rfl
  decode fuel hfuel s := by
    obtain ⟨fuel, rfl⟩ : ∃ n, fuel = n + 1 := ⟨fuel - 1, by omega⟩
    exact (Follows.lift (Rlp.decodeByteArray _ n) s).map_left

theorem nilPtr_builds {typ : GoType} {T : TypeInfo α} {val : α → Val} (nilKind : Kind)
    (htyp : typ ≠ .bigInt) (h : Builds D depth typ noTags T val) :
    Builds D (depth + 1) (.ptr typ) ⟨true, nilKind, false, false⟩
      (nilPtrInfo (GoType.ptr typ).toString nilKind T) (ptrVal val) where
  write v := by
    rw [write.eq_def, case_ptr htyp]
    cases v with
    | none => rfl
    | some v =>
      simp only [ptrVal, h.write]
      rfl
  decode fuel hfuel s := by
    obtain ⟨fuel, rfl⟩ : ∃ n, fuel = n + 1 := ⟨fuel - 1, by omega⟩
    rw [decode_ptr htyp]
    refine (Follows.lift (emptyAhead (GoType.ptr typ).toString nilKind) s).andThen fun empty t _ => ?_
    cases empty with
    | true => rfl
    | false => exact (h.decode fuel (by omega) t).map fun _ => rfl

theorem simplePtr_follows {dec : Dec Val} {T : TypeInfo α} {val : α → Val} {s : Stream}
    (h : Follows val dec T.decoder s) :
    Follows (ptrVal val) (makeSimplePtrDecoder dec) (Rlp.makeSimplePtrDecoder T.decoder) s :=
  h.map fun _ => rfl

theorem noFields_builds : BuildsFields D depth [] noFields fun _ => [] where
  write _ := rfl
  decode _ _ _ _ := rfl

theorem field_builds {f : FieldInfo} {fs : List FieldInfo} {T : TypeInfo α} {val : α → Val}
    {F : FieldsInfo β} {vals : β → List Val} (h : Builds D depth f.typ f.tags T val)
    (hf : BuildsFields D depth fs F vals) :
    BuildsFields D depth (f :: fs) (F.field f.name T) fun v => val v.1 :: vals v.2 where
  write v := congrArg₂ List.cons (h.write v.1) (hf.write v.2)
  decode typ fuel hfuel s :=
    (h.decode fuel hfuel s).handle (elemError_map _ (.error _) _) fun _ t _ =>
      (hf.decode typ fuel hfuel t).map fun _ => rfl

theorem struct_builds {name : String} {F : FieldsInfo β} {vals : β → List Val}
    (h : BuildsFields D depth (D.fields name) F vals) :
    Builds D (depth + 1) (.struct name) noTags (structInfo name F) fun v => .seq (vals v) where
  write v := congrArg makeStructWriter (h.write v)
  decode fuel hfuel s := by
    obtain ⟨fuel, rfl⟩ : ∃ n, fuel = n + 1 := ⟨fuel - 1, by omega⟩
    exact ((Follows.lift (openList name) s).andThen fun _ t _ =>
      (h.decode name fuel (by omega) t).andThen fun v u _ =>
        closing_follows vals (wrapStreamError · name) v u).map_left

variable {elemdec : Dec Val} {dec : Decoder α} {R : Item → α → Prop} {val : α → Val} {s : Stream}

/-- With more fuel than bytes the loops agree, since each element that is read has a byte. -/
theorem decodeSliceElems_follows (h : Decodes dec R) (helem : ∀ s, Follows val elemdec dec s)
    {m n : ℕ} (i : ℕ) (hs : s.Ready) (hm : s.input.length < m) (hn : s.input.length < n) :
    Follows (List.map val) (decodeSliceElems elemdec m i) (Rlp.decodeSliceElems dec n i) s := by
  induction m generalizing n i s with
  | zero => omega
  | succ m ih =>
    obtain ⟨n, rfl⟩ : ∃ k, n = k + 1 := ⟨n - 1, by omega⟩
    refine (helem s).handle (elemError_map (List.map val) (.ok []) _) fun a t hd => ?_
    obtain ⟨x, -, -, hr⟩ := h.sound hs hd
    have hlt := hr.shorter
    exact (ih (i + 1) (hr.ready hs.bounded) (by omega) (by omega)).map fun _ => rfl

theorem decodeListSlice_follows (h : Decodes dec R) (helem : ∀ s, Follows val elemdec dec s)
    (typ : String) {fuel : ℕ} (hs : s.Ready) (hfuel : s.input.length < fuel) :
    Follows (List.map val) (decodeListSlice typ elemdec fuel) (Rlp.decodeListSlice typ dec) s := by
  refine (Follows.lift (openList typ) s).andThen fun size t hopen => ?_
  have hlist := (Stream.list_outcome s).past (wrapped_ok hopen).choose_spec.1
  have hlt := hlist.input
  rw [Stream.pending_of_none hs.kind] at hlt
  dsimp only [id]
  split_ifs
  · exact closing_follows (List.map val) .stream [] t
  · have hloop := decodeSliceElems_follows h helem 0 (openList_ready hs hopen)
      (show t.input.length < fuel by omega) (Nat.lt_succ_self _)
    exact Follows.andThen hloop fun vs u _ => closing_follows (List.map val) .stream vs u

end Typed

end Fiscobcos.Rlp.Reflect
