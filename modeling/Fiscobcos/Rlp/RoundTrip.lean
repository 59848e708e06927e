import Fiscobcos.Rlp.Reflect

/-! # Round trips of typed values

`Storable` says which values come back from their encoding. The decoder of `[1]byte` does not move
past a zero byte: it drops the error of the stream with the header still cached. `ZeroByte` marks
those values; they are last in their list. -/

namespace Fiscobcos.Rlp
open GoType List
open Rlp.Stream

open Fiscobcos.Numerals Fiscobcos.RlpFormat Fiscobcos.Runs

namespace Stream

variable {s : Stream}

theorem bool_complete (hs : s.Ready) {b : Bool} (h : s.Has (encodeStr (minBytes b.toNat))) :
    ∃ s', s.bool = (.ok b, s') ∧ Reads s (encodeStr (minBytes b.toNat)) s' := by
  have hlen : byteLen b.toNat ≤ 8 / 8 := (byteLen_le _ 1).mpr (by cases b <;> decide)
  obtain ⟨s', hu, hr⟩ := uint_complete hs hlen (by norm_num) h
  refine ⟨s', ?_, hr⟩
  cases b <;> simp [bool, hu]

end Stream

namespace Reflect

mutual

def items (D : Decls) (typ : GoType) (tags : FieldTags) (v : Val) : List Item :=
  match typ.case, v with
  | .bigIntPtr, .nil => [.str []]
  | .bigIntPtr, .ref (.big z) => [.str (minBytes z.natAbs)]
  | .bigInt, .big z => [.str (minBytes z.natAbs)]
  | .ptr e, .nil => if ptrNilKind tags e = .string then [.str []] else [.list []]
  | .ptr e, .ref v => items D e noTags v
  | .uint _, .uint n => [.str (minBytes n)]
  | .bool, .bool b => [.str (minBytes b.toNat)]
  | .string, .bytes bs => [.str bs]
  | .byteSlice, .bytes bs => [.str bs]
  | .byteArray _, .bytes bs => [.str bs]
  | .slice e, .seq vs => if tags.tail then itemsAll D e vs else [.list (itemsAll D e vs)]
  | .array _ e, .seq vs => [.list (itemsAll D e vs)]
  | .struct name, .seq vs => [.list (itemsFields D (D.fields name) vs)]
  | .iface, .nil => [.list []]
  | .iface, .dyn elem v => items D elem noTags v
  | _, _ => []

def itemsAll (D : Decls) (elem : GoType) : List Val → List Item
  | [] => []
  | v :: vs => items D elem noTags v ++ itemsAll D elem vs

def itemsFields (D : Decls) : List FieldInfo → List Val → List Item
  | f :: fs, v :: vs => items D f.typ f.tags v ++ itemsFields D fs vs
  | _, _ => []

end

def encoding (D : Decls) (typ : GoType) (tags : FieldTags) (v : Val) : Bytes :=
  encodeAll (items D typ tags v)

def ZeroByte (typ : GoType) : Val → Prop
  | .bytes bs => typ = .array 1 .byte ∧ bs = [0]
  | .ref v => match typ with
    | .ptr e => ZeroByte e v
    | _ => False
  | _ => False

inductive Storable (D : Decls) : GoType → FieldTags → Val → Prop
  | bigIntPtr {tags : FieldTags} {z : ℤ} (nonneg : 0 ≤ z) :
      Storable D (.ptr .bigInt) tags (.ref (.big z))
  | bigInt {tags : FieldTags} {z : ℤ} (nonneg : 0 ≤ z) : Storable D .bigInt tags (.big z)
  -- only a pointer field with one of the nil tags may be nil
  | nilPtr {e : GoType} {tags : FieldTags} (big : e ≠ .bigInt) (tagged : tags.nilOK = true) :
      Storable D (.ptr e) tags .nil
  -- and such a field does not point at a value that is encoded as an empty string or list
  | ptr {e : GoType} {tags : FieldTags} {v : Val} (big : e ≠ .bigInt) (elem : Storable D e noTags v)
      (full : tags.nilOK = true → items D e noTags v ≠ [.str []] ∧ items D e noTags v ≠ [.list []]) :
      Storable D (.ptr e) tags (.ref v)
  | uint {u : UintType} {tags : FieldTags} {n : ℕ} (range : n < 2 ^ u.bits) :
      Storable D (.uint u) tags (.uint n)
  | bool {tags : FieldTags} {b : Bool} : Storable D .bool tags (.bool b)
  | string {tags : FieldTags} {bs : Bytes} : Storable D .string tags (.bytes bs)
  | byteSlice {tags : FieldTags} {bs : Bytes} : Storable D (.slice .byte) tags (.bytes bs)
  | byteArray {tags : FieldTags} {bs : Bytes} : Storable D (.array bs.length .byte) tags (.bytes bs)
  | slice {e : GoType} {tags : FieldTags} {vs : List Val} (elem : e ≠ .byte)
      (all : ∀ v ∈ vs, Storable D e noTags v) (zero : ∀ v ∈ vs, ¬ ZeroByte e v) :
      Storable D (.slice e) tags (.seq vs)
  | array {e : GoType} {tags : FieldTags} {vs : List Val} (elem : e ≠ .byte)
      (all : ∀ v ∈ vs, Storable D e noTags v) (zero : ∀ v ∈ vs.dropLast, ¬ ZeroByte e v) :
      Storable D (.array vs.length e) tags (.seq vs)
  | struct {name : String} {tags : FieldTags} {vs : List Val}
      (all : List.Forall₂ (fun f v => Storable D f.typ f.tags v) (D.fields name) vs)
      (zero : ∀ p ∈ ((D.fields name).zip vs).dropLast, ¬ ZeroByte p.1.typ p.2) :
      Storable D (.struct name) tags (.seq vs)
  -- an interface holds what the decoder puts into one
  | bytesIface {tags : FieldTags} {bs : Bytes} :
      Storable D .iface tags (.dyn (.slice .byte) (.bytes bs))
  | listIface {tags : FieldTags} {vs : List Val} (all : ∀ v ∈ vs, Storable D .iface noTags v) :
      Storable D .iface tags (.dyn (.slice .iface) (.seq vs))

variable {D : Decls}

section Items

variable {e : GoType} {tags : FieldTags}

theorem items_ptr (h : e ≠ .bigInt) (v : Val) :
    items D (.ptr e) tags (.ref v) = items D e noTags v := by
  rw [items.eq_def, case_ptr h]

theorem items_nilPtr (h : e ≠ .bigInt) : items D (.ptr e) tags .nil =
    if ptrNilKind tags e = .string then [.str []] else [.list []] := by
  unfold items
  rw [case_ptr h]

theorem items_slice (h : e ≠ .byte) (vs : List Val) : items D (.slice e) tags (.seq vs) =
    if tags.tail then itemsAll D e vs else [.list (itemsAll D e vs)] := by
  unfold items
  rw [case_slice h]

theorem items_array (h : e ≠ .byte) (n : ℕ) (vs : List Val) :
    items D (.array n e) tags (.seq vs) = [.list (itemsAll D e vs)] := by
  unfold items
  rw [case_array n h]

theorem write_slice (h : e ≠ .byte) (vs : List Val) :
    write D (.slice e) tags (.seq vs) = makeSliceWriter tags (writeAll D e vs) := by
  rw [write.eq_def, case_slice h]

theorem write_array (h : e ≠ .byte) (n : ℕ) (vs : List Val) :
    write D (.array n e) tags (.seq vs) = makeSliceWriter tags (writeAll D e vs) := by
  rw [write.eq_def, case_array n h]

end Items

variable {v : Val} {typ : GoType} {vs : List Val} {fs : List FieldInfo}

variable {tags : FieldTags}

theorem items_single (h : Storable D typ tags v)
    (ht : tags.tail = false) : ∃ x, items D typ tags v = [x] := by
  induction v using Val.induction generalizing typ tags with
  | ref v ih =>
    cases h with
    | bigIntPtr _ => exact ⟨_, rfl⟩
    | ptr big elem _ =>
      rw [items_ptr big]
      exact ih elem rfl
  | nil =>
    cases h with
    | nilPtr big _ =>
      rw [items_nilPtr big]
      split_ifs
      · exact ⟨_, rfl⟩
      · exact ⟨_, rfl⟩
  | seq vs _ =>
    cases h with
    | slice elem _ _ => exact ⟨_, by rw [items_slice elem, ht]; rfl⟩
    | array elem _ _ => exact ⟨_, items_array elem _ _⟩
    | struct _ _ => exact ⟨_, rfl⟩
  | _ =>
    cases h
    all_goals exact ⟨_, rfl⟩

theorem writeBool_emits (b : Bool) : Emits (writeBool b) [.str (minBytes b.toNat)] := by
  cases b with
  | false => exact .of_append (fun w => rfl) rfl
  | true => exact .of_append (fun w => rfl) (encodeStr_minBytes_small one_pos (by norm_num)).symm

theorem writeString_emits (s : Bytes) (h : s.length < 2 ^ 64) : Emits (writeString s) [.str s] := by
  have heq : writeString s = writeBytes s := by
    funext w
    match s with
    | [] => rfl
    | [c] =>
      simp only [writeString, writeBytes, EncBuf.encodeString]
      split_ifs <;> rfl
    | a :: b :: s => rfl
  rw [heq]
  exact writeBytes_emits s h

theorem writeNilPtr_emits (k : Kind) : Emits (makePtrWriter k id none)
    (if k = .string then [.str []] else [.list []]) := by
  by_cases hk : k = .string
  · rw [if_pos hk]
    exact .of_append (fun w => if_pos hk) rfl
  · have heq : makePtrWriter k id none = writeList (writeElems []) := by
      funext w
      simp only [makePtrWriter, if_neg hk]
      rfl
    rw [if_neg hk, heq]
    exact writeList_emits writeElems_nil_emits (by norm_num [encodeAll])

def Writes (D : Decls) (typ : GoType) (tags : FieldTags) (v : Val) : Prop :=
  (encoding D typ tags v).length < 2 ^ 64 → Emits (write D typ tags v) (items D typ tags v)

variable {e : GoType}

theorem writeAll_emits (h : ∀ v ∈ vs, Writes D e noTags v)
    (hlen : (encodeAll (itemsAll D e vs)).length < 2 ^ 64) :
    Emits (writeElems (writeAll D e vs)) (itemsAll D e vs) := by
  induction vs with
  | nil => exact writeElems_nil_emits
  | cons v vs ih =>
    simp only [itemsAll, encodeAll_append, length_append] at hlen
    exact (h v (by simp) (by unfold encoding; omega)).cons
      (ih (fun w hw => h w (by simp [hw])) (by omega))

theorem writeFields_emits (h : Forall₂ (fun f v => Writes D f.typ f.tags v) fs vs)
    (hlen : (encodeAll (itemsFields D fs vs)).length < 2 ^ 64) :
    Emits (writeElems (writeFields D fs vs)) (itemsFields D fs vs) := by
  induction h with
  | nil => exact writeElems_nil_emits
  | @cons f v fs vs hv _ ih =>
    simp only [itemsFields, encodeAll_append, length_append] at hlen
    exact (hv (by unfold encoding; omega)).cons (ih (by omega))

theorem list_payload_lt {xs : List Item} (h : (encodeAll [Item.list xs]).length < 2 ^ 64) :
    (encodeAll xs).length < 2 ^ 64 := by
  have hp := (Item.list xs).payload_le
  rw [encodeAll_singleton] at h
  exact lt_of_le_of_lt hp h

variable {bs : Bytes}

theorem str_length_lt (h : (encodeAll [Item.str bs]).length < 2 ^ 64) : bs.length < 2 ^ 64 := by
  rw [encodeAll_singleton] at h
  exact lt_of_le_of_lt (length_le_encodeStr bs) h

theorem encoding_le_all (hv : v ∈ vs) :
    (encoding D e noTags v).length ≤ (encodeAll (itemsAll D e vs)).length := by
  induction vs with
  | nil => cases hv
  | cons w vs ih =>
    rw [itemsAll, encodeAll_append, length_append]
    rcases mem_cons.mp hv with rfl | hv
    · exact Nat.le_add_right _ _
    · exact (ih hv).trans (Nat.le_add_left _ _)

theorem fields_forall {P Q : FieldInfo → Val → Prop}
    (h : Forall₂ P fs vs) (hlen : (encodeAll (itemsFields D fs vs)).length < 2 ^ 64)
    (hq : ∀ f ∈ fs, ∀ v ∈ vs, P f v → (encoding D f.typ f.tags v).length < 2 ^ 64 → Q f v) :
    Forall₂ Q fs vs := by
  induction h with
  | nil => exact .nil
  | @cons f v fs vs hp _ ih =>
    simp only [itemsFields, encodeAll_append, length_append] at hlen
    exact .cons (hq f (by simp) v (by simp) hp (by unfold encoding; omega))
      (ih (by omega) fun g hg w hw => hq g (by simp [hg]) w (by simp [hw]))

theorem listIface_slice
    (all : ∀ v ∈ vs, Storable D .iface noTags v) : Storable D (.slice .iface) tags (.seq vs) := by
  refine .slice (by decide) all fun v hv => ?_
  cases all v hv <;> exact id

theorem writes_of_storable (h : Storable D typ tags v)
    (hfit : tags.Fit typ) : Writes D typ tags v := by
  induction v using Val.induction generalizing typ tags with
  | uint n =>
    intro hlen
    cases h with
    | @uint u _ _ range =>
      have hn : n < UInt64.size := lt_of_lt_of_le range (by cases u <;> decide)
      have hw := writeUint_emits (.ofNat n)
      rw [UInt64.toNat_ofNat_of_lt' hn] at hw
      exact hw
  | bool b =>
    intro hlen
    cases h
    exact writeBool_emits b
  | big z =>
    intro hlen
    cases h with
    | bigInt nonneg =>
      have hb := str_length_lt hlen
      rw [minBytes_length] at hb
      exact writeBigIntPtr_emits (some z) nonneg hb
  | bytes bs =>
    intro hlen
    cases h with
    | string => exact writeString_emits bs (str_length_lt hlen)
    | byteSlice => exact writeBytes_emits bs (str_length_lt hlen)
    | byteArray => exact writeByteArray_emits bs (str_length_lt hlen)
  | nil =>
    intro hlen
    cases h with
    | @nilPtr e _ big tagged =>
      rw [write.eq_def, case_ptr big, items_nilPtr big]
      exact writeNilPtr_emits _
  | ref v ih =>
    intro hlen
    cases h with
    | @bigIntPtr _ z nonneg =>
      have hb := str_length_lt hlen
      rw [minBytes_length] at hb
      exact writeBigIntPtr_emits (some z) nonneg hb
    | @ptr e _ _ big elem full =>
      rw [encoding, items_ptr big] at hlen
      rw [items_ptr big, write.eq_def, case_ptr big]
      exact ih elem (noTags_fit e) hlen
  | seq vs ih =>
    intro hlen
    cases h with
    | @slice e _ _ elem all zero =>
      have hw := fun hl => writeAll_emits (fun v hv => ih v hv (all v hv) (noTags_fit e)) hl
      rw [encoding, items_slice elem] at hlen
      rw [items_slice elem, write_slice elem]
      unfold makeSliceWriter
      split_ifs at hlen ⊢ with ht
      · exact hw hlen
      · exact writeList_emits (hw (list_payload_lt hlen)) (list_payload_lt hlen)
    | @array e _ _ elem all zero =>
      have ht : ¬ tags.tail = true := fun ht => by
        obtain ⟨_, he⟩ := hfit.tailSlice ht
        cases he
      rw [encoding, items_array elem] at hlen
      rw [items_array elem, write_array elem, makeSliceWriter, if_neg ht]
      exact writeList_emits (writeAll_emits (fun v hv => ih v hv (all v hv) (noTags_fit e))
        (list_payload_lt hlen)) (list_payload_lt hlen)
    | @struct name _ _ all zero =>
      have hf := fields_forall all (list_payload_lt hlen) fun f hf v hv hs _ =>
        ih v hv hs (D.fields_fit hf)
      exact writeList_emits (writeFields_emits hf (list_payload_lt hlen)) (list_payload_lt hlen)
  | dyn elem v ih =>
    intro hlen
    cases h with
    | bytesIface => exact ih .byteSlice (noTags_fit _) hlen
    | listIface all => exact ih (listIface_slice all) (noTags_fit _) hlen

def Accepts (D : Decls) (typ : GoType) (tags : FieldTags) (v : Val) : Prop :=
  ∃ n, ∀ s : Stream, s.Ready → s.Has (encoding D typ tags v) →
    (tags.tail = true → s.EndsAfter (encoding D typ tags v).length) →
    ∃ s', decode D n typ tags s = some (.ok v, s') ∧
      Stream.Reads s (encoding D typ tags v) s'.rearm ∧ (¬ ZeroByte typ v → s'.kind = none)

theorem accepts_of_reads (n : ℕ) (h : ∀ s : Stream, s.Ready → s.Has (encoding D typ tags v) →
      ∃ s', decode D n typ tags s = some (.ok v, s') ∧
        Reads s (encoding D typ tags v) s') : Accepts D typ tags v := by
  refine ⟨n, fun s hs hhas _ => ?_⟩
  obtain ⟨s', hd, hr⟩ := h s hs hhas
  have hk := (hr.ready hs.bounded).kind
  exact ⟨s', hd, (rearm_of_kind hk).symm ▸ hr, fun _ => hk⟩

section Leaves

variable {tags : FieldTags}

theorem encoding_str (bs : Bytes) : encodeAll [Item.str bs] = encodeStr bs :=
  encodeAll_singleton _

theorem uint_accepts {u : UintType} (h : n < 2 ^ u.bits) : Accepts D (.uint u) tags (.uint n) := by
  refine accepts_of_reads 1 fun s hs hhas => ?_
  have henc : encoding D (.uint u) tags (.uint n) = encodeStr (minBytes n) := encoding_str _
  rw [henc] at hhas ⊢
  have hlen : byteLen n ≤ u.bits / 8 := (byteLen_le _ _).mpr (by cases u <;> exact h)
  obtain ⟨s', hu, hr⟩ := uint_complete hs hlen (by cases u <;> decide) hhas
  refine ⟨s', congrArg some ?_, hr⟩
  simp only [wrapped, hu, Nat.mod_eq_of_lt h]

theorem bool_accepts (b : Bool) : Accepts D .bool tags (.bool b) := by
  refine accepts_of_reads 1 fun s hs hhas => ?_
  have henc : encoding D .bool tags (.bool b) = encodeStr (minBytes b.toNat) := encoding_str _
  rw [henc] at hhas ⊢
  obtain ⟨s', hu, hr⟩ := bool_complete hs hhas
  refine ⟨s', congrArg some ?_, hr⟩
  simp only [wrapped, hu]

theorem accepts_of_decodes {α : Type} {dec : Decoder α} {R : Item → α → Prop} {f : α → Val} {a : α}
    (h : Decodes dec R) (hdec : decode D 1 typ tags = .map f (.lift dec))
    (hitems : items D typ tags (f a) = [.str bs]) (hR : R (.str bs) a)
    (hlen : (encoding D typ tags (f a)).length < 2 ^ 64) : Accepts D typ tags (f a) := by
  refine accepts_of_reads 1 fun s hs hhas => ?_
  rw [encoding, hitems] at hhas hlen ⊢
  rw [encodeAll_singleton] at hhas ⊢
  obtain ⟨s', hd, hr⟩ := h.complete hR (str_length_lt hlen) hs hhas
  exact ⟨s', by rw [hdec]; exact Run.map_ok.mpr ⟨a, congrArg some hd, rfl⟩, hr⟩

theorem bigInt_accepts {z : ℤ} (f : Option ℤ → Val) (nonneg : 0 ≤ z)
    (hdec : decode D 1 typ tags = .map f (.lift Rlp.decodeBigInt))
    (hitems : items D typ tags (f (some z)) = [.str (minBytes z.natAbs)])
    (hlen : (encoding D typ tags (f (some z))).length < 2 ^ 64) : Accepts D typ tags (f (some z)) :=
  accepts_of_decodes decodeBigInt_decodes hdec hitems
    ⟨z.natAbs, rfl, by rw [Int.natAbs_of_nonneg nonneg]⟩ hlen

theorem ownByte_decodes (hs : s.Ready) {b : Byte} (hb : b.val < 128) (hhas : s.Has [b])
    (typ : String) : ∃ s', Rlp.decodeByteArray typ 1 s = (.ok ⟨[b], rfl⟩, s') ∧
      Stream.Reads s [b] s'.rearm ∧ (b ≠ 0 → s'.kind = none) := by
  have hk := Stream.nextKind_byte hs hb hhas
  have hpeek := Stream.nextKind_nextKind s
  rw [hk] at hpeek
  by_cases h0 : b = 0
  · subst h0
    refine ⟨(s.advance 1).found .byte 0 0, ?_, ⟨hhas, rfl⟩, fun h => absurd rfl h⟩
    simp only [Rlp.decodeByteArray, hk, Stream.uint, hpeek]
    rfl
  · refine ⟨{ (s.advance 1).found .byte 0 b with kind := none }, ?_, ⟨hhas, rfl⟩, fun _ => rfl⟩
    have hbv : ((s.advance 1).found .byte 0 b).byteval = b := rfl
    simp only [Rlp.decodeByteArray, hk, Stream.uint, hpeek, hbv, if_neg h0, lowByte_of_byte]
    rfl

theorem byteArray_accepts
    (hlen : (encoding D (.array bs.length .byte) tags (.bytes bs)).length < 2 ^ 64) :
    Accepts D (.array bs.length .byte) tags (.bytes bs) := by
  refine ⟨1, fun s hs hhas _ => ?_⟩
  have henc : encoding D (.array bs.length .byte) tags (.bytes bs) = encodeStr bs := encoding_str _
  rw [henc] at hhas ⊢
  rcases strHeader_cases bs (str_length_lt hlen) with ⟨b, hb, rfl, hown⟩ | ⟨hown, -, hstr⟩
  · rw [hown] at hhas ⊢
    obtain ⟨s', hd, hr, hk⟩ := ownByte_decodes hs hb hhas (array 1 .byte).toString
    refine ⟨s', Run.map_ok.mpr ⟨_, congrArg some hd, rfl⟩, hr, fun hz => hk fun h0 => hz ?_⟩
    exact ⟨rfl, by rw [h0]⟩
  · rw [hstr] at hhas ⊢
    obtain ⟨t, u, hk, hfull, hr⟩ := string_complete hs (str_length_lt hlen) hhas
    have hku := (hr.ready hs.bounded).kind
    refine ⟨u, Run.map_ok.mpr ⟨fillArray bs.length bs, congrArg some ?_, ?_⟩,
      (rearm_of_kind hku).symm ▸ hr, fun _ => hku⟩
    · simp only [Rlp.decodeByteArray, hk, lt_irrefl, if_false, hfull, hown, Bool.false_eq_true]
    · rw [fillArray_val rfl]

end Leaves

section Pointers

variable {e : GoType} {tags : FieldTags}

theorem emptyAhead_list (hs : s.Ready) (h : s.Has (Item.list []).encode) (name : String) :
    ∃ t, emptyAhead name .list s = (.ok true, t) ∧ Reads s (Item.list []).encode t := by
  have hempty : s.Has (listHeader ([] : Bytes).length ++ []) := h
  have hk := nextKind_list hs (by norm_num) hempty
  exact ⟨_, emptyAhead_ok.mpr ⟨_, _, _, hk, .inl ⟨rfl, rfl, by decide, rfl, rfl⟩⟩, h, rfl⟩

theorem nilPtr_accepts (big : e ≠ .bigInt) (hfit : tags.Fit (.ptr e)) (tagged : tags.nilOK = true) :
    Accepts D (.ptr e) tags .nil := by
  refine accepts_of_reads 1 fun s hs hhas => ?_
  have hkind : ptrNilKind tags e = tags.nilKind := if_pos tagged
  rw [decode_ptr big, makePtrDecoder, if_pos tagged]
  rw [encoding, items_nilPtr big, hkind] at hhas ⊢
  have hnil : ∃ t, emptyAhead (ptr e).toString tags.nilKind s = (.ok true, t) ∧
      Reads s (encodeAll (if tags.nilKind = .string then [.str []] else [.list []])) t := by
    rcases (hfit.nilPtr tagged).2 with hstr | hlist
    · rw [if_pos hstr, encodeAll_singleton] at hhas ⊢
      exact hstr ▸ emptyAhead_string _ hs hhas
    · rw [if_neg (by rw [hlist]; decide), encodeAll_singleton] at hhas ⊢
      exact hlist ▸ emptyAhead_list hs hhas _
  obtain ⟨t, he, hr⟩ := hnil
  exact ⟨t, Run.andThen_ok.mpr ⟨true, t, congrArg some he, rfl⟩, hr⟩

theorem payload_eq_zero {x : Item} (h : x.payload = 0) : x = .str [] ∨ x = .list [] := by
  cases x with
  | str bs => exact .inl (congrArg Item.str (eq_nil_of_length_eq_zero h))
  | list xs => exact .inr (congrArg Item.list (encodeAll_eq_nil h))

theorem ptr_accepts {v : Val} (big : e ≠ .bigInt) (hv : Storable D e noTags v)
    (full : tags.nilOK = true → items D e noTags v ≠ [.str []] ∧ items D e noTags v ≠ [.list []])
    (hlen : (encoding D (.ptr e) tags (.ref v)).length < 2 ^ 64) (h : Accepts D e noTags v) :
    Accepts D (.ptr e) tags (.ref v) := by
  have henc : encoding D (.ptr e) tags (.ref v) = encoding D e noTags v := by
    rw [encoding, items_ptr big, encoding]
  obtain ⟨n, h⟩ := h
  refine ⟨n + 1, fun s hs hhas _ => ?_⟩
  rw [henc] at hhas hlen ⊢
  obtain ⟨s', hd, hr, hk⟩ := h s hs hhas (by simp [noTags])
  refine ⟨s', ?_, hr, hk⟩
  rw [decode_ptr big, makePtrDecoder]
  split_ifs with tagged
  · -- the kind ahead is not empty, so the element decoder runs
    obtain ⟨x, hx⟩ := items_single hv rfl
    rw [encoding, hx, encodeAll_singleton] at hhas hlen
    have hpay : x.payload ≠ 0 := fun h0 => by
      rcases payload_eq_zero h0 with rfl | rfl
      · exact (full tagged).1 hx
      · exact (full tagged).2 hx
    have he : emptyAhead (ptr e).toString tags.nilKind s = _ := emptyAhead_full hs
      (lt_of_le_of_lt x.payload_le hlen) hhas hpay
    exact Run.andThen_ok.mpr ⟨false, _, congrArg some he,
      Run.map_ok.mpr ⟨v, (decode_peek D n e noTags s).trans hd, rfl⟩⟩
  · exact Run.map_ok.mpr ⟨v, hd, rfl⟩

end Pointers

theorem decode_eol (D : Decls) (typ : GoType) : ∃ n, ∀ {s t : Stream}, s.AtEol t →
    decode D n typ noTags s = some (.error (.stream .eol), t) := by
  have hopen : ∀ {α : Type} (name : String) (k : ℕ → Dec α) {s t : Stream}, s.AtEol t →
      Run.andThen (.lift (openList name)) k s = some (.error (.stream .eol), t) :=
    fun name k s t h => Run.handle_some.mpr (.inl ⟨_, _, congrArg some (openList_eol.mpr h), rfl⟩)
  induction typ with
  | uint u =>
    exact ⟨1, fun h => congrArg some
      ((wrapped_eol_iff (by simp) (uint_outcome · u.bits) (·.uint u.bits)).mpr h)⟩
  | bool =>
    refine ⟨1, fun h => congrArg some ?_⟩
    simp only [wrapped, Stream.bool, h.uint 8, wrapStreamError]
  | bigInt =>
    exact ⟨1, fun h => Run.map_error.mpr (congrArg some (decodeBigInt_decodes.eol.mpr h))⟩
  | string =>
    exact ⟨1, fun h => Run.map_error.mpr (congrArg some ((decodeContents_decodes _).eol.mpr h))⟩
  | slice e _ =>
    refine ⟨1, fun {s t} h => ?_⟩
    by_cases hb : e = .byte
    · subst hb
      exact Run.map_error.mpr (congrArg some ((decodeContents_decodes _).eol.mpr h))
    · rw [decode_slice hb]
      exact Run.map_error.mpr (hopen _ _ h)
  | array k e _ =>
    refine ⟨1, fun {s t} h => ?_⟩
    by_cases hb : e = .byte
    · subst hb
      exact Run.map_error.mpr (congrArg some (decodeByteArray_eol.mpr h))
    · rw [decode_array hb]
      exact Run.map_error.mpr (hopen _ _ h)
  | ptr e ih =>
    by_cases hb : e = .bigInt
    · subst hb
      exact ⟨1, fun h => Run.map_error.mpr (congrArg some (decodeBigInt_decodes.eol.mpr h))⟩
    · obtain ⟨n, ih⟩ := ih
      refine ⟨n + 1, fun {s t} h => ?_⟩
      rw [decode_ptr hb]
      exact Run.map_error.mpr (ih h)
  | struct name => exact ⟨1, fun h => Run.map_error.mpr (hopen _ _ h)⟩
  | iface =>
    refine ⟨1, fun {s t} h => Run.handle_some.mpr (.inl ⟨_, t, congrArg some ?_, rfl⟩)⟩
    obtain ⟨k, n, hk⟩ := h
    simp only [kindAhead, hk]

theorem sliceElems_accepts (h : ∀ v ∈ vs, Accepts D e noTags v)
    (hz : ∀ v ∈ vs, ¬ ZeroByte e v) : ∃ n, ∀ (s : Stream) (i : ℕ), s.Ready →
      s.Has (encodeAll (itemsAll D e vs)) → s.EndsAfter (encodeAll (itemsAll D e vs)).length →
      ∃ s', decodeSliceElems (decode D n e noTags) n i s = some (.ok vs, s') ∧
        Reads s (encodeAll (itemsAll D e vs)) s' := by
  induction vs with
  | nil =>
    obtain ⟨n, hn⟩ := decode_eol D e
    refine ⟨n + 1, fun s i hs hhas hend => ?_⟩
    have hat := EndsAfter.atEol hs hend
    have hd := decode_le D (Nat.le_succ n) e noTags s _ (hn hat)
    exact ⟨s.noError, Run.handle_some.mpr (.inl ⟨_, _, hd, rfl⟩), hat.reads hs⟩
  | cons v vs ih =>
    obtain ⟨n₁, h₁⟩ := h v (by simp)
    obtain ⟨n₂, h₂⟩ := ih (fun w hw => h w (by simp [hw])) fun w hw => hz w (by simp [hw])
    refine ⟨max n₁ n₂ + 1, fun s i hs hhas hend => ?_⟩
    simp only [itemsAll, encodeAll_append, length_append] at hhas hend ⊢
    obtain ⟨t, hd, hr, hk⟩ := h₁ s hs ((Has.append_iff s _ _).mp hhas).1 (by simp [noTags])
    rw [rearm_of_kind (hk (hz v (by simp)))] at hr
    obtain ⟨s', hds, hrs⟩ := h₂ t (i + 1) (hr.ready hs.bounded) (hr.has_rest hhas)
      (hr.endsAfter hend)
    refine ⟨s', Run.handle_some.mpr (.inr ⟨v, t, ?_, ?_⟩), hr.trans hrs⟩
    · exact decode_le D (by omega) e noTags s _ hd
    · refine Run.map_ok.mpr ⟨vs, ?_, rfl⟩
      exact decodeSliceElems_le (decode_le D (by omega) e noTags) (by omega) _ t _ hds

theorem slice_accepts (elem : e ≠ .byte)
    (hlen : (encoding D (.slice e) tags (.seq vs)).length < 2 ^ 64)
    (h : ∀ v ∈ vs, Accepts D e noTags v) (hz : ∀ v ∈ vs, ¬ ZeroByte e v)
    (hs : ∀ v ∈ vs, Storable D e noTags v) : Accepts D (.slice e) tags (.seq vs) := by
  obtain ⟨n, hn⟩ := sliceElems_accepts h hz
  rw [encoding, items_slice elem] at hlen
  refine ⟨n + 1, fun s hready hhas hend => ?_⟩
  rw [encoding, items_slice elem] at hhas hend ⊢
  rw [decode_slice elem]
  by_cases ht : tags.tail = true
  · rw [if_pos ht] at hhas hend ⊢
    rw [if_pos ht]
    obtain ⟨s', hd, hr⟩ := hn s 0 hready hhas (hend ht)
    have hk := (hr.ready hready.bounded).kind
    exact ⟨s', Run.map_ok.mpr ⟨vs, hd, rfl⟩, (rearm_of_kind hk).symm ▸ hr, fun _ => hk⟩
  · rw [if_neg ht] at hlen hhas ⊢
    rw [if_neg ht]
    rw [encodeAll_singleton] at hhas ⊢
    obtain ⟨t, hopen, htr, hth, hte, hclose⟩ := openList_complete hready (list_payload_lt hlen) hhas
      (slice e).toString
    have hrun : ∃ u, (if (encodeAll (itemsAll D e vs)).length = 0 then closing .stream []
        else .andThen (decodeSliceElems (decode D n e noTags) n 0) (closing .stream)) t =
          some (.ok vs, u) ∧
        Reads s (listHeader (encodeAll (itemsAll D e vs)).length ++
          encodeAll (itemsAll D e vs)) u := by
      split_ifs with hzero
      · -- an empty list is closed at once
        have hnil : vs = [] := by
          cases vs with
          | nil => rfl
          | cons v vs =>
            obtain ⟨x, hx⟩ := items_single (hs v (by simp)) rfl
            have := encodeAll_eq_nil hzero
            simp [itemsAll, hx] at this
        subst hnil
        obtain ⟨s', hc, hrs⟩ := hclose t .stream ([] : List Val)
          ((rearm_of_kind htr.kind).symm ▸ .nil t htr)
        exact ⟨s', congrArg some hc, hrs⟩
      · obtain ⟨u, hd, hr⟩ := hn t 0 htr hth hte
        have hk := (hr.ready htr.bounded).kind
        obtain ⟨s', hc, hrs⟩ := hclose u .stream vs ((rearm_of_kind hk).symm ▸ hr)
        exact ⟨s', Run.andThen_ok.mpr ⟨vs, u, hd, congrArg some hc⟩, hrs⟩
    obtain ⟨s', hd, hr⟩ := hrun
    have hk := (hr.ready hready.bounded).kind
    exact ⟨s', Run.map_ok.mpr ⟨vs, Run.andThen_ok.mpr ⟨_, t, congrArg some hopen, hd⟩, rfl⟩,
      (rearm_of_kind hk).symm ▸ hr, fun _ => hk⟩

theorem each_accepts (few name : String) (context : FieldInfo → String)
    (h : Forall₂ (fun f v => Accepts D f.typ f.tags v) fs vs)
    (htail : fs.Pairwise fun f _ => f.tags.tail = false)
    (hz : ∀ p ∈ (fs.zip vs).dropLast, ¬ ZeroByte p.1.typ p.2) :
    ∃ n, ∀ s : Stream, s.Ready → s.Has (encodeAll (itemsFields D fs vs)) →
      s.EndsAfter (encodeAll (itemsFields D fs vs)).length →
      ∃ s', decodeEach few name context (decode D n) fs s = some (.ok vs, s') ∧
        Reads s (encodeAll (itemsFields D fs vs)) s'.rearm := by
  induction h with
  | nil =>
    refine ⟨0, fun s hs hhas _ => ⟨s, rfl, ?_⟩⟩
    exact (rearm_of_kind hs.kind).symm ▸ .nil s hs
  | @cons f v fs vs hv hvs ih =>
    obtain ⟨n₁, h₁⟩ := hv
    rw [pairwise_cons] at htail
    obtain ⟨n₂, h₂⟩ := ih htail.2 fun p hp => hz p (by
      rw [zip_cons_cons]
      cases hfs : fs.zip vs with
      | nil => simp [hfs] at hp
      | cons => exact mem_cons_of_mem _ (hfs ▸ hp))
    refine ⟨max n₁ n₂, fun s hs hhas hend => ?_⟩
    simp only [itemsFields, encodeAll_append, length_append] at hhas hend ⊢
    have hhas₁ := ((Has.append_iff s _ _).mp hhas).1
    cases hvs with
    | nil =>
      -- the last one: it may have the tail tag, and may leave its header cached
      rw [show itemsFields D [] [] = [] from rfl, encodeAll, append_nil]
      obtain ⟨t, hd, hr, -⟩ := h₁ s hs hhas₁ fun _ => hend
      have hd' := decode_le D (le_max_left n₁ n₂) f.typ f.tags s _ hd
      exact ⟨t, Run.handle_some.mpr (.inr ⟨v, t, hd', rfl⟩), hr⟩
    | @cons g w fs vs hw hvs =>
      have hnt := htail.1 g (by simp)
      obtain ⟨t, hd, hr, hk⟩ := h₁ s hs hhas₁ fun ht => by simp [hnt] at ht
      have hd' := decode_le D (le_max_left n₁ n₂) f.typ f.tags s _ hd
      rw [rearm_of_kind (hk (hz (f, v) (by simp)))] at hr
      obtain ⟨s', hds, hrs⟩ := h₂ t (hr.ready hs.bounded) (hr.has_rest hhas) (hr.endsAfter hend)
      refine ⟨s', Run.handle_some.mpr (.inr ⟨v, t, hd', Run.map_ok.mpr ⟨w :: vs, ?_, rfl⟩⟩),
        hr.trans hrs⟩
      exact decodeEach_le _ _ _ (fun τ tags => decode_le D (le_max_right n₁ n₂) τ tags) _ t _ hds

theorem fixed_accepts (few name : String) (context : FieldInfo → String)
    (hlen : (encodeAll [.list (itemsFields D fs vs)]).length < 2 ^ 64)
    (h : Forall₂ (fun f v => Accepts D f.typ f.tags v) fs vs)
    (htail : fs.Pairwise fun f _ => f.tags.tail = false)
    (hz : ∀ p ∈ (fs.zip vs).dropLast, ¬ ZeroByte p.1.typ p.2) :
    ∃ n, ∀ s : Stream, s.Ready → s.Has (encodeAll [.list (itemsFields D fs vs)]) →
      ∃ s', decodeFixed few name context (decode D n) fs s = some (.ok vs, s') ∧
        Reads s (encodeAll [.list (itemsFields D fs vs)]) s' := by
  obtain ⟨n, hn⟩ := each_accepts few name context h htail hz
  refine ⟨n, fun s hready hhas => ?_⟩
  rw [encodeAll_singleton] at hhas ⊢
  obtain ⟨t, hopen, htr, hth, hte, hclose⟩ := openList_complete hready (list_payload_lt hlen) hhas
    name
  obtain ⟨u, hd, hr⟩ := hn t htr hth hte
  obtain ⟨s', hc, hrs⟩ := hclose u (wrapStreamError · name) vs hr
  exact ⟨s', Run.andThen_ok.mpr ⟨_, t, congrArg some hopen,
    Run.andThen_ok.mpr ⟨vs, u, hd, congrArg some hc⟩⟩, hrs⟩

theorem elements_eq {k : ℕ} {f : FieldInfo} (h : f ∈ elements e k) : f.typ = e ∧ f.tags = noTags := by
  obtain ⟨i, -, rfl⟩ := mem_map.mp h
  exact ⟨rfl, rfl⟩

theorem elements_length (e : GoType) (k : ℕ) : (elements e k).length = k := by simp [elements]

theorem itemsFields_elements (hfs : ∀ f ∈ fs, f.typ = e ∧ f.tags = noTags)
    (hlen : fs.length = vs.length) : itemsFields D fs vs = itemsAll D e vs := by
  induction fs generalizing vs with
  | nil =>
    obtain rfl := eq_nil_of_length_eq_zero hlen.symm
    rfl
  | cons f fs ih =>
    obtain ⟨v, vs, rfl⟩ := exists_cons_of_length_eq_add_one hlen.symm
    obtain ⟨htyp, htags⟩ := hfs f (by simp)
    rw [itemsFields, itemsAll, htyp, htags, ih (fun g hg => hfs g (by simp [hg])) (by simpa using hlen)]

theorem array_accepts (elem : e ≠ .byte)
    (hlen : (encoding D (.array vs.length e) tags (.seq vs)).length < 2 ^ 64)
    (h : ∀ v ∈ vs, Accepts D e noTags v) (hz : ∀ v ∈ vs.dropLast, ¬ ZeroByte e v) :
    Accepts D (.array vs.length e) tags (.seq vs) := by
  have hel := elements_length e vs.length
  have hfs : ∀ f ∈ elements e vs.length, f.typ = e ∧ f.tags = noTags := fun f hf => elements_eq hf
  have hitems : items D (.array vs.length e) tags (.seq vs) =
      [.list (itemsFields D (elements e vs.length) vs)] := by
    rw [items_array elem, itemsFields_elements hfs hel]
  rw [encoding, hitems] at hlen
  have hall : Forall₂ (fun f v => Accepts D f.typ f.tags v) (elements e vs.length) vs := by
    refine forall₂_iff_zip.mpr ⟨hel, fun {f v} hfv => ?_⟩
    obtain ⟨hf, hv⟩ := of_mem_zip hfv
    rw [(hfs f hf).1, (hfs f hf).2]
    exact h v hv
  have htail : (elements e vs.length).Pairwise fun f _ => f.tags.tail = false :=
    pairwise_of_forall_mem_list fun f hf _ _ => by rw [(hfs f hf).2]; rfl
  have hzero : ∀ p ∈ ((elements e vs.length).zip vs).dropLast, ¬ ZeroByte p.1.typ p.2 := by
    intro p hp
    have hmem : p.2 ∈ (map Prod.snd ((elements e vs.length).zip vs)).dropLast := by
      rw [← map_dropLast]
      exact mem_map_of_mem hp
    rw [map_snd_zip hel.ge] at hmem
    rw [(hfs p.1 (of_mem_zip (mem_of_mem_dropLast hp)).1).1]
    exact hz p.2 hmem
  obtain ⟨n, hn⟩ := fixed_accepts "input list has too few elements" (array vs.length e).toString
    (·.name) hlen hall htail hzero
  refine accepts_of_reads (n + 1) fun s hready hhas => ?_
  rw [encoding, hitems] at hhas ⊢
  obtain ⟨s', hd, hr⟩ := hn s hready hhas
  rw [decode_array elem]
  exact ⟨s', Run.map_ok.mpr ⟨vs, hd, rfl⟩, hr⟩

theorem struct_accepts {name : String}
    (hlen : (encoding D (.struct name) tags (.seq vs)).length < 2 ^ 64)
    (h : Forall₂ (fun f v => Accepts D f.typ f.tags v) (D.fields name) vs)
    (hz : ∀ p ∈ ((D.fields name).zip vs).dropLast, ¬ ZeroByte p.1.typ p.2) :
    Accepts D (.struct name) tags (.seq vs) := by
  obtain ⟨n, hn⟩ := fixed_accepts "too few elements" (struct name).toString ("." ++ ·.name) hlen h
    (D.fields_tail name) hz
  refine accepts_of_reads (n + 1) fun s hready hhas => ?_
  obtain ⟨s', hd, hr⟩ := hn s hready hhas
  exact ⟨s', Run.map_ok.mpr ⟨vs, hd, rfl⟩, hr⟩

theorem kindAhead_ok {k : Kind} {t : Stream} :
    kindAhead s = (.ok k, t) ↔ ∃ n, s.nextKind = ((k, n, none), t) := by
  unfold kindAhead
  rcases s.nextKind with ⟨⟨k', n', _ | e⟩, u⟩ <;> simp

theorem bytesIface_accepts
    (hlen : (encoding D .iface tags (.dyn (.slice .byte) (.bytes bs))).length < 2 ^ 64) :
    Accepts D .iface tags (.dyn (.slice .byte) (.bytes bs)) := by
  refine accepts_of_reads 1 fun s hs hhas => ?_
  have hstr : encoding D .iface tags (.dyn (.slice .byte) (.bytes bs)) = encodeStr bs :=
    encoding_str _
  rw [hstr] at hhas ⊢
  obtain ⟨s', hb, hr⟩ := bytes_complete hs (str_length_lt hlen) hhas
  obtain ⟨k, n, t, hk, hne⟩ : ∃ k n t, s.nextKind = ((k, n, none), t) ∧ k ≠ .list := by
    rcases strHeader_cases bs (str_length_lt hlen) with ⟨b, hb', rfl, hown⟩ | ⟨-, -, hsh⟩
    · exact ⟨_, _, _, nextKind_byte hs hb' (hown ▸ hhas), nofun⟩
    · exact ⟨_, _, _, nextKind_string hs (str_length_lt hlen) (hsh ▸ hhas), nofun⟩
  have hpeek := bytes_peek s
  rw [hk, hb] at hpeek
  refine ⟨s', Run.andThen_ok.mpr ⟨k, t, congrArg some (kindAhead_ok.mpr ⟨n, hk⟩), ?_⟩, hr⟩
  rw [if_neg hne, Run.lift, hpeek]

theorem listIface_accepts
    (hlen : (encoding D .iface tags (.dyn (.slice .iface) (.seq vs))).length < 2 ^ 64)
    (h : Accepts D (.slice .iface) noTags (.seq vs)) :
    Accepts D .iface tags (.dyn (.slice .iface) (.seq vs)) := by
  obtain ⟨n, hn⟩ := h
  refine ⟨n, fun s hs hhas _ => ?_⟩
  have hlist : encoding D .iface tags (.dyn (.slice .iface) (.seq vs)) =
      listHeader (encodeAll (itemsAll D .iface vs)).length ++ encodeAll (itemsAll D .iface vs) :=
    encodeAll_singleton _
  obtain ⟨s', hd, hr, hkind⟩ := hn s hs hhas (by simp [noTags])
  refine ⟨s', ?_, hr, fun _ => hkind id⟩
  have hk := nextKind_list hs (list_payload_lt hlen) (hlist ▸ hhas)
  have hpeek := decode_peek D n (.slice .iface) noTags s
  rw [hk, hd] at hpeek
  cases n with
  | zero => cases hd
  | succ m =>
    rw [decode_slice (by decide)] at hpeek
    obtain ⟨_, hds, heq⟩ := Run.map_ok.mp hpeek
    cases heq
    exact Run.andThen_ok.mpr ⟨.list, _, congrArg some (kindAhead_ok.mpr ⟨_, hk⟩),
      Run.map_ok.mpr ⟨vs, hds, rfl⟩⟩

theorem accepts_of_storable (h : Storable D typ tags v) (hfit : tags.Fit typ)
    (hlen : (encoding D typ tags v).length < 2 ^ 64) : Accepts D typ tags v := by
  induction v using Val.induction generalizing typ tags with
  | uint n =>
    cases h with
    | uint range => exact uint_accepts range
  | bool b =>
    cases h
    exact bool_accepts b
  | big z =>
    cases h with
    | bigInt nonneg => exact bigInt_accepts (fun z => .big (z.getD 0)) nonneg rfl rfl hlen
  | bytes bs =>
    cases h with
    | string => exact accepts_of_decodes (decodeContents_decodes _) rfl rfl rfl hlen
    | byteSlice => exact accepts_of_decodes (decodeContents_decodes _) rfl rfl rfl hlen
    | byteArray => exact byteArray_accepts hlen
  | nil =>
    cases h with
    | nilPtr big tagged => exact nilPtr_accepts big hfit tagged
  | ref v ih =>
    cases h with
    | bigIntPtr nonneg =>
      exact bigInt_accepts (fun z => (z.map fun z => Val.ref (.big z)).getD .nil) nonneg rfl rfl hlen
    | @ptr e _ _ big elem full =>
      have hlen' := hlen
      rw [encoding, items_ptr big] at hlen'
      exact ptr_accepts big elem full hlen (ih elem (noTags_fit e) hlen')
  | seq vs ih =>
    cases h with
    | @slice e _ _ elem all zero =>
      have hbody : (encodeAll (itemsAll D e vs)).length < 2 ^ 64 := by
        rw [encoding, items_slice elem] at hlen
        split_ifs at hlen
        · exact hlen
        · exact list_payload_lt hlen
      exact slice_accepts elem hlen (fun v hv => ih v hv (all v hv) (noTags_fit e)
        (lt_of_le_of_lt (encoding_le_all hv) hbody)) zero all
    | @array e _ _ elem all zero =>
      have hbody : (encodeAll (itemsAll D e vs)).length < 2 ^ 64 := by
        rw [encoding, items_array elem] at hlen
        exact list_payload_lt hlen
      exact array_accepts elem hlen (fun v hv => ih v hv (all v hv) (noTags_fit e)
        (lt_of_le_of_lt (encoding_le_all hv) hbody)) zero
    | @struct name _ _ all zero =>
      have hbody : (encodeAll (itemsFields D (D.fields name) vs)).length < 2 ^ 64 :=
        list_payload_lt hlen
      exact struct_accepts hlen (fields_forall all hbody fun f hf v hv hs hl =>
        ih v hv hs (D.fields_fit hf) hl) zero
  | dyn elem v ih =>
    cases h with
    | bytesIface => exact bytesIface_accepts hlen
    | listIface all =>
      exact listIface_accepts hlen (ih (listIface_slice all) (noTags_fit _) hlen)

theorem decodeBytes_of_reads {b : Bytes} {s' : Stream}
    (hd : decode D n typ noTags (.reset b b.length) = some (.ok v, s'))
    (hr : Reads (.reset b b.length) b s'.rearm) : decodeBytes D n typ b = some (.ok v) := by
  have hrest : s'.input = [] := by
    have hin : b = b ++ s'.input := hr.input
    simpa using hin
  simp [decodeBytes, hd, Rlp.decodeBytes, decodeValue, hrest]

theorem encodes_of_storable (h : Storable D typ noTags v)
    (hlen : (encoding D typ noTags v).length < 2 ^ 64) :
    encodeToBytes D typ v = .ok (encoding D typ noTags v) := by
  obtain ⟨x, hx⟩ := items_single h rfl
  have hw := writes_of_storable h (noTags_fit typ) hlen
  rw [hx] at hw
  rw [encoding, hx, encodeAll_singleton]
  exact encodeToBytes_of_emits hw

theorem returns_of_storable (h : Storable D typ noTags v)
    (hlen : (encoding D typ noTags v).length < 2 ^ 64) :
    Returns D typ (encoding D typ noTags v) (.ok v) := by
  obtain ⟨n, hn⟩ := accepts_of_storable h (noTags_fit typ) hlen
  obtain ⟨s', hd, hr, -⟩ := hn _ (reset_ready _ _) (reset_has _) (by simp [noTags])
  exact ⟨n, decodeBytes_of_reads hd hr⟩

theorem storable_round_trip (D : Decls) (typ : GoType) (v : Val) (h : Storable D typ noTags v)
    (hlen : (encoding D typ noTags v).length < 2 ^ 64) :
    ∃ b, encodeToBytes D typ v = .ok b ∧ Returns D typ b (.ok v) :=
  ⟨_, encodes_of_storable h hlen, returns_of_storable h hlen⟩

def noDecls : Decls := ⟨fun _ => [], fun _ => [], fun _ => rfl⟩

theorem negative_bigInt_refused : ¬ ∃ b, encodeToBytes noDecls .bigInt (.big (-1)) = .ok b ∧
    Returns noDecls .bigInt b (.ok (.big (-1))) := by
  rintro ⟨b, hb, -⟩
  cases hb

/-- Every struct type is a list node: a value, a pointer to the next node and further strings. -/
def nodeDecls : Decls where
  decl _ := [⟨"Value", true, .uint .uint8, [.empty]⟩, ⟨"mark", false, .bool, [.empty]⟩,
    ⟨"Next", true, .ptr (.struct "Node"), [.nil]⟩, ⟨"Cache", true, .string, [.ignore]⟩,
    ⟨"Rest", true, .slice .string, [.tail]⟩]
  fields _ := [⟨"Value", .uint .uint8, noTags⟩,
    ⟨"Next", .ptr (.struct "Node"), { noTags with nilOK := true, nilKind := .list }⟩,
    ⟨"Rest", .slice .string, { noTags with tail := true }⟩]
  generated _ := rfl

theorem storable_round_trip_node : ∃ b, encodeToBytes nodeDecls (.struct "Node")
        (.seq [.uint 7, .ref (.seq [.uint 0, .nil, .seq []]), .seq [.bytes [1, 2]]]) = .ok b ∧
      Returns nodeDecls (.struct "Node") b
        (.ok (.seq [.uint 7, .ref (.seq [.uint 0, .nil, .seq []]), .seq [.bytes [1, 2]]])) := by
  have hnode : ∀ (n : ℕ) (next : Val) (rest : List Bytes), n < 2 ^ 8 →
      Storable nodeDecls (.ptr (.struct "Node")) { noTags with nilOK := true, nilKind := .list } next →
      Storable nodeDecls (.struct "Node") noTags (.seq [.uint n, next, .seq (rest.map .bytes)]) := by
    intro n next rest hn hnext
    refine .struct (.cons (.uint hn) (.cons hnext (.cons (.slice (by decide) ?_ ?_) .nil))) ?_
    · intro v hv
      obtain ⟨bs, -, rfl⟩ := mem_map.mp hv
      exact .string
    · intro v hv
      obtain ⟨bs, -, rfl⟩ := mem_map.mp hv
      rintro ⟨h, -⟩
      cases h
    · rintro p (_ | ⟨_, _ | ⟨_, hp⟩⟩)
      · exact id
      · cases hnext with
        | nilPtr _ _ => exact id
        | ptr _ elem _ =>
          cases elem
          exact id
      · cases hp
  have hlast : Storable nodeDecls (.struct "Node") noTags (.seq [.uint 0, .nil, .seq []]) :=
    hnode 0 .nil [] (by norm_num) (.nilPtr (by decide) rfl)
  exact storable_round_trip _ _ _ (hnode 7 _ [[1, 2]] (by norm_num)
    (.ptr (by decide) hlast fun _ => ⟨nofun, nofun⟩)) (by decide)

end Reflect

end Fiscobcos.Rlp
