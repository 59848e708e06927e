import Fiscobcos.Abi.Types

/-! # Packing (accounts/abi/argument.go, type.go, pack.go, error.go)

`pack` as the code computes it, and `encoding`, the layout it is meant to produce. They are the same
where the sizes agree and no slice of arrays is empty (`pack_eq_encoding`). -/

namespace Fiscobcos.Abi
open Checked.Outcome

open Fiscobcos.Numerals Fiscobcos.Checked Fiscobcos.HeadTail
open AbiType (throughout throughout_self throughout_slice throughout_array throughout_tuple isSlice
  isArray isAtom)

/-- `U256`: the low 256 bits, two's complement. -/
def packNum (z : ℤ) : Bytes := word (z % 2 ^ 256).toNat

def rightPadBytes (bs : Bytes) (l : ℕ) : Bytes := bs ++ List.replicate (l - bs.length) 0

def leftPadBytes (bs : Bytes) (l : ℕ) : Bytes := List.replicate (l - bs.length) 0 ++ bs

def packBytesSlice (bs : Bytes) : Bytes :=
  packNum bs.length ++ rightPadBytes bs ((bs.length + 31) / 32 * 32)

/-- Values that do not fit their type have been refused by `typeCheck`. -/
def packElement : AbiType → Value → Bytes
  | .int _, .num z | .uint _, .num z => packNum z
  | .string, .bytes bs | .bytes, .bytes bs => packBytesSlice bs
  | .address, .bytes bs => leftPadBytes bs 32
  | .bool, .bool b => word (if b then 1 else 0)
  | .fixedBytes _, .bytes bs | .function, .bytes bs => rightPadBytes bs 32
  | _, _ => []

theorem packNum_natCast (n : ℕ) : packNum n = word n := by
  apply beVal_inj
  · exact (word_length _).trans (word_length _).symm
  · rw [packNum, word, word, beVal_beBytes, beVal_beBytes]
    norm_num
    omega

/-- `sliceTypeCheck` on the elements: an element that is a slice is looked at if there is one, an
element that is an array without asking. -/
def elemTypeCheck (elem : AbiType) (vs : List Value) (check : Value → Outcome AbiError Unit) :
    Outcome AbiError Unit :=
  if elem.isSlice then
    match vs with
    | [] => .ok ()
    | v :: _ => check v
  else if elem.isArray then
    match vs with
    | [] => .fault .bounds
    | v :: _ => check v
  else .ok ()

def sliceTypeCheck : AbiType → Value → Outcome AbiError Unit
  | .slice e, .seq vs => elemTypeCheck e vs (sliceTypeCheck e)
  | .array k e, .seq vs =>
    if vs.length ≠ k then .err (.typeErr (.array k e)) else elemTypeCheck e vs (sliceTypeCheck e)
  | t, _ => .err (.typeErr t)

def typeCheck : AbiType → Value → Outcome AbiError Unit
  | .int _, .num _ | .uint _, .num _ | .bool, .bool _ => .ok ()
  | .string, .bytes _ | .bytes, .bytes _ | .address, .bytes _ | .function, .bytes _ => .ok ()
  | .fixedBytes n, .bytes bs => if bs.length = n then .ok () else .err (.typeErr (.fixedBytes n))
  | t, _ => .err (.typeErr t)

/-- The loop over elements, fields or arguments: static ones are appended, dynamic ones leave
their offset and go to the tail. -/
def assemble : List (Bool × Outcome AbiError Bytes) → Bytes → ℕ → Bytes → Outcome AbiError Bytes
  | [], ret, _, tail => .ok (ret ++ tail)
  | (dynamic, packed) :: rest, ret, offset, tail => do
    let val ← packed
    if dynamic then
      let next ← int64 (offset + val.length)
      assemble rest (ret ++ packNum offset) next (tail ++ val)
    else assemble rest (ret ++ val) offset tail

def elemOffset (elem : AbiType) (count : ℕ) : Outcome AbiError ℕ :=
  if isDynamicType elem then int64 (getTypeSize elem * count) else .ok 0

mutual

def pack : AbiType → Value → Outcome AbiError Bytes
  | .slice e, .seq vs => do
    sliceTypeCheck (.slice e) (.seq vs)
    let offset ← elemOffset e vs.length
    assemble (vs.map fun v => (isDynamicType e, pack e v)) (packNum vs.length) offset []
  | .array k e, .seq vs => do
    sliceTypeCheck (.array k e) (.seq vs)
    let offset ← elemOffset e vs.length
    assemble (vs.map fun v => (isDynamicType e, pack e v)) [] offset []
  | .tuple ts, .seq vs => do
    let offset ← int64 (totalSize ts)
    assemble (packFields ts vs) [] offset []
  | t, v => do
    typeCheck t v
    .ok (packElement t v)

def packFields : List AbiType → List Value → List (Bool × Outcome AbiError Bytes)
  | [], _ => []
  | _ :: _, [] => [(false, .err .fieldNotFound)]
  | t :: ts, v :: vs => (isDynamicType t, pack t v) :: packFields ts vs

end

structure Argument where
  type : AbiType
  indexed : Bool

def Arguments.pack (args : List Argument) (vs : List Value) : Outcome AbiError Bytes :=
  if vs.length ≠ args.length then .err (.countMismatch vs.length args.length)
  else do
    let inputOffset ← int64 (totalSize (args.map Argument.type))
    assemble (packFields (args.map Argument.type) vs) [] inputOffset []

mutual

def hasType : AbiType → Value → Bool
  | .int n, .num z => -2 ^ (n - 1) ≤ z && z < 2 ^ (n - 1)
  | .uint n, .num z => 0 ≤ z && z < 2 ^ n
  | .bool, .bool _ => true
  | .string, .bytes _ | .bytes, .bytes _ => true
  | .address, .bytes bs => bs.length = 20
  | .fixedBytes n, .bytes bs => bs.length = n
  | .function, .bytes bs => bs.length = 24
  | .slice e, .seq vs => vs.all fun v => hasType e v
  | .array k e, .seq vs => vs.length = k && vs.all fun v => hasType e v
  | .tuple ts, .seq vs => hasTypes ts vs
  | _, _ => false

def hasTypes : List AbiType → List Value → Bool
  | [], [] => true
  | t :: ts, v :: vs => hasType t v && hasTypes ts vs
  | _, _ => false

end

/-- `pack` looks at the first element of a slice of arrays. -/
def packableAt : AbiType → Value → Bool
  | .slice e, .seq vs => !e.isArray || !vs.isEmpty
  | _, _ => true

def partOf (dynamic : Bool) (bs : Bytes) : Part := if dynamic then .remote bs else .inline bs

mutual

def encoding : AbiType → Value → Bytes
  | .slice e, .seq vs =>
    word vs.length ++ layout (vs.map fun v => partOf (isDynamicType e) (encoding e v))
  | .array _ e, .seq vs => layout (vs.map fun v => partOf (isDynamicType e) (encoding e v))
  | .tuple ts, .seq vs => layout (parts ts vs)
  | t, v => packElement t v

def parts : List AbiType → List Value → List Part
  | t :: ts, v :: vs => partOf (isDynamicType t) (encoding t v) :: parts ts vs
  | _, _ => []

end

variable {t e : AbiType} {v : Value} {ts : List AbiType} {vs : List Value} {bs : Bytes}
  {xs : List (Bool × Outcome AbiError Bytes)} {ps : List Part}

theorem encoding_atom (h : t.isAtom) (v : Value) : encoding t v = packElement t v := by
  cases t <;> first | simp [encoding] | exact absurd h (by simp [isAtom])

theorem pack_atom (h : t.isAtom) (v : Value) :
    pack t v = (do typeCheck t v; .ok (packElement t v)) := by
  cases t <;> first | simp [pack] | exact absurd h (by simp [isAtom])

theorem hasType_slice (h : hasType (.slice e) v) : ∃ vs, v = .seq vs ∧ ∀ v ∈ vs, hasType e v := by
  cases v <;> simp_all [hasType]

theorem hasType_array {k : ℕ} (h : hasType (.array k e) v) :
    ∃ vs, v = .seq vs ∧ vs.length = k ∧ ∀ v ∈ vs, hasType e v := by
  cases v <;> simp_all [hasType]

theorem hasType_tuple (h : hasType (.tuple ts) v) : ∃ vs, v = .seq vs ∧ hasTypes ts vs := by
  cases v <;> simp_all [hasType]

theorem hasTypes_cons
    (h : hasTypes (t :: ts) vs) : ∃ w ws, vs = w :: ws ∧ hasType t w ∧ hasTypes ts ws := by
  cases vs <;> simp_all [hasTypes]

theorem hasTypes_nil (h : hasTypes [] vs) : vs = [] := by
  cases vs <;> simp_all [hasTypes]

theorem hasTypes_length (h : hasTypes ts vs) : vs.length = ts.length := by
  induction ts generalizing vs with
  | nil => rw [hasTypes_nil h]; rfl
  | cons t ts ih =>
    obtain ⟨w, ws, rfl, -, hws⟩ := hasTypes_cons h
    rw [List.length_cons, ih hws, List.length_cons]

theorem hasTypes_mem (h : hasTypes ts vs) : ∀ x ∈ ts.zip vs, hasType x.1 x.2 := by
  induction ts generalizing vs with
  | nil => simp
  | cons t ts ih =>
    obtain ⟨w, ws, rfl, hw, hws⟩ := hasTypes_cons h
    rw [List.zip_cons_cons]
    exact List.forall_mem_cons.mpr ⟨hw, ih hws⟩

theorem rightPadBytes_length {l : ℕ} (h : bs.length ≤ l) : (rightPadBytes bs l).length = l := by
  simp only [rightPadBytes, List.length_append, List.length_replicate]
  omega

theorem leftPadBytes_length {l : ℕ} (h : bs.length ≤ l) : (leftPadBytes bs l).length = l := by
  simp only [leftPadBytes, List.length_append, List.length_replicate]
  omega

@[simp] theorem packNum_length (z : ℤ) : (packNum z).length = 32 := word_length _

theorem packElement_length (ha : t.isAtom)
    (hd : isDynamicType t = false) (hf : formed t) (hv : hasType t v) :
    (packElement t v).length = 32 := by
  cases t <;> cases v <;> simp [isAtom, isDynamicType, hasType] at ha hd hv
  case int.num => exact packNum_length _
  case uint.num => exact packNum_length _
  case bool.bool => exact word_length _
  case address.bytes => exact leftPadBytes_length (by omega)
  case fixedBytes.bytes =>
    simp [formed] at hf
    exact rightPadBytes_length (by omega)
  case function.bytes => exact rightPadBytes_length (by omega)

theorem headLen_partOf (h : isDynamicType t = false → bs.length = headSize t) :
    (partOf (isDynamicType t) bs).headLen = headSize t := by
  cases hd : isDynamicType t with
  | true => rw [headSize_dynamic hd]; rfl
  | false => exact h hd

theorem headsLen_parts (h : ∀ t ∈ ts, ∀ v, hasType t v →
      (partOf (isDynamicType t) (encoding t v)).headLen = headSize t)
    (hv : hasTypes ts vs) : headsLen (parts ts vs) = totalHeadSize ts := by
  induction ts generalizing vs with
  | nil => simp [parts, totalHeadSize]
  | cons t ts ih =>
    obtain ⟨ht, hts⟩ := List.forall_mem_cons.mp h
    obtain ⟨w, ws, rfl, hw, hws⟩ := hasTypes_cons hv
    rw [parts, headsLen_cons, ht w hw, ih hts hws, totalHeadSize]

theorem parts_inline (h : anyDynamic ts = false) (vs : List Value) : Inline (parts ts vs) := by
  induction ts generalizing vs with
  | nil => exact inline_nil
  | cons t ts ih =>
    rw [anyDynamic, Bool.or_eq_false_iff] at h
    cases vs with
    | nil => exact inline_nil
    | cons v vs =>
      rw [parts, h.1]
      exact inline_cons _ (ih h.2 vs)

theorem map_inline {d : Bool} (h : d = false) (f : Value → Bytes) (vs : List Value) :
    Inline (vs.map fun v => partOf d (f v)) := by
  intro p hp
  obtain ⟨v, -, rfl⟩ := List.mem_map.mp hp
  exact ⟨f v, by rw [h]; rfl⟩

theorem encoding_length (hf : throughout formed t) (hv : hasType t v)
    (hd : isDynamicType t = false) : (encoding t v).length = headSize t := by
  induction t using AbiType.induction generalizing v with
  | atom t ha =>
    rw [encoding_atom ha, headSize_atom ha]
    exact packElement_length ha hd (throughout_self hf) hv
  | slice e _ => exact absurd hd (by simp [isDynamicType])
  | array k e ih =>
    obtain ⟨vs, rfl, rfl, hvs⟩ := hasType_array hv
    have he : isDynamicType e = false := hd
    rw [encoding, (map_inline he _ vs).layout_length, headSize, he, headsLen_map]
    · rfl
    · intro v hmem
      exact ih (throughout_array hf) (hvs v hmem) he
  | tuple ts ih =>
    obtain ⟨vs, rfl, hvs⟩ := hasType_tuple hv
    have hts : anyDynamic ts = false := hd
    rw [encoding, (parts_inline hts vs).layout_length, headSize, hts, headsLen_parts _ hvs]
    · rfl
    · intro t ht v hv
      exact headLen_partOf (ih t ht (throughout_tuple hf t ht) hv)

theorem headLen_encoding (hf : throughout formed t) (hv : hasType t v) :
    (partOf (isDynamicType t) (encoding t v)).headLen = headSize t :=
  headLen_partOf (encoding_length hf hv)

def Packs (x : Bool × Outcome AbiError Bytes) (p : Part) : Prop :=
  ∃ bs, x.2 = .ok bs ∧ p = partOf x.1 bs

theorem assemble_eq (h : List.Forall₂ Packs xs ps) (ret tail : Bytes) (o : ℕ)
    (ho : o + (tails ps).length < 2 ^ 63) :
    assemble xs ret o tail = .ok (ret ++ heads o ps ++ (tail ++ tails ps)) := by
  induction h generalizing ret tail o with
  | nil => simp [assemble, heads, tails]
  | @cons x p xs ps hx _ ih =>
    obtain ⟨dynamic, packed⟩ := x
    obtain ⟨bs, hbs, rfl⟩ := hx
    rw [assemble, show packed = .ok bs from hbs, ok_bind]
    cases dynamic with
    | false =>
      have hrest := ih (ret ++ bs) tail o ho
      simpa [partOf, heads, tails] using hrest
    | true =>
      simp only [partOf, if_true, tails, List.length_append] at ho
      rw [if_pos rfl, int64_of_lt (by omega), ok_bind, packNum_natCast,
        ih _ _ _ (by omega)]
      simp [partOf, heads, tails]

theorem assemble_layout
    (h : List.Forall₂ Packs xs ps) (ret : Bytes) (o : ℕ) (hlen : (layout ps).length < 2 ^ 63)
    (ho : Inline ps ∧ o < 2 ^ 63 ∨ o = headsLen ps) :
    assemble xs ret o [] = .ok (ret ++ layout ps) := by
  rw [layout_length] at hlen
  rcases ho with ⟨hin, ho⟩ | rfl
  · rw [assemble_eq h ret [] o (by rw [hin.tails]; exact ho), layout, hin.heads o (headsLen ps)]
    simp
  · rw [assemble_eq h ret [] _ hlen]
    simp [layout]

theorem elemTypeCheck_ok {check : Value → Outcome AbiError Unit}
    (hne : e.isArray → vs ≠ []) (hcheck : e.isSlice ∨ e.isArray → ∀ v ∈ vs, check v = .ok ()) :
    elemTypeCheck e vs check = .ok () := by
  rw [elemTypeCheck.eq_def]
  split_ifs with hs ha
  · cases vs with
    | nil => rfl
    | cons v vs => exact hcheck (.inl hs) v List.mem_cons_self
  · cases vs with
    | nil => exact absurd rfl (hne ha)
    | cons v vs => exact hcheck (.inr ha) v List.mem_cons_self
  · rfl

theorem sliceTypeCheck_ok (ht : t.isSlice ∨ t.isArray)
    (hf : throughout formed t) (hv : hasType t v) (hp : along packableAt t v) :
    sliceTypeCheck t v = .ok () := by
  induction t using AbiType.induction generalizing v with
  | atom t ha => cases t <;> simp_all [isSlice, isArray, isAtom]
  | tuple ts _ => simp [isSlice, isArray] at ht
  | slice e ih =>
    obtain ⟨vs, rfl, hvs⟩ := hasType_slice hv
    obtain ⟨hne, hps⟩ := along_slice.mp hp
    rw [sliceTypeCheck]
    apply elemTypeCheck_ok
    · intro ha hnil
      simp [packableAt, ha, hnil] at hne
    · intro he v hmem
      exact ih he (throughout_slice hf) (hvs v hmem) (hps v hmem)
  | array k e ih =>
    obtain ⟨vs, rfl, rfl, hvs⟩ := hasType_array hv
    have hk : 0 < vs.length := by simpa [formed] using throughout_self hf
    have hps := (along_array.mp hp).2
    rw [sliceTypeCheck, if_neg (by simp)]
    apply elemTypeCheck_ok
    · exact fun _ => List.ne_nil_of_length_pos hk
    · intro he v hmem
      exact ih he (throughout_array hf) (hvs v hmem) (hps v hmem)

theorem typeCheck_ok (ha : t.isAtom) (hv : hasType t v) : typeCheck t v = .ok () := by
  cases t <;> cases v <;> simp_all [isAtom, hasType, typeCheck]

theorem assemble_elems (hf : throughout formed e)
    (hvs : ∀ v ∈ vs, hasType e v) (hpack : ∀ v ∈ vs, pack e v = .ok (encoding e v)) (ret : Bytes)
    (hlen : (layout (vs.map fun v => partOf (isDynamicType e) (encoding e v))).length < 2 ^ 63) :
    (do
      let offset ← elemOffset e vs.length
      assemble (vs.map fun v => (isDynamicType e, pack e v)) ret offset []) =
      .ok (ret ++ layout (vs.map fun v => partOf (isDynamicType e) (encoding e v))) := by
  have hpacks : List.Forall₂ Packs (vs.map fun v => (isDynamicType e, pack e v))
      (vs.map fun v => partOf (isDynamicType e) (encoding e v)) := by
    rw [List.forall₂_map_left_iff, List.forall₂_map_right_iff, List.forall₂_same]
    exact fun v hmem => ⟨_, hpack v hmem, rfl⟩
  have hheads : headsLen (vs.map fun v => partOf (isDynamicType e) (encoding e v)) =
      vs.length * headSize e := headsLen_map fun v hmem => headLen_encoding hf (hvs v hmem)
  rw [elemOffset]
  cases hd : isDynamicType e with
  | false =>
    rw [hd] at hpacks hlen
    exact assemble_layout hpacks ret 0 hlen (.inl ⟨map_inline rfl _ vs, by norm_num⟩)
  | true =>
    rw [hd] at hpacks hlen hheads
    have ho : getTypeSize e * vs.length = vs.length * headSize e := by
      rw [getTypeSize_dynamic hd, headSize_dynamic hd, Nat.mul_comm]
    rw [if_pos rfl, ho, ← hheads, int64_of_lt (by rw [layout_length] at hlen; omega)]
    exact assemble_layout hpacks ret _ hlen (.inr rfl)

theorem packs_fields (hv : hasTypes ts vs)
    (hpack : ∀ x ∈ ts.zip vs, pack x.1 x.2 = .ok (encoding x.1 x.2)) :
    List.Forall₂ Packs (packFields ts vs) (parts ts vs) := by
  induction ts generalizing vs with
  | nil => simp [packFields, parts]
  | cons t ts ih =>
    obtain ⟨w, ws, rfl, -, hws⟩ := hasTypes_cons hv
    rw [List.zip_cons_cons] at hpack
    obtain ⟨hw, hrest⟩ := List.forall_mem_cons.mp hpack
    rw [packFields, parts]
    exact .cons ⟨_, hw, rfl⟩ (ih hws hrest)

theorem mem_parts {x : AbiType × Value} (h : x ∈ ts.zip vs) :
    partOf (isDynamicType x.1) (encoding x.1 x.2) ∈ parts ts vs := by
  induction ts generalizing vs with
  | nil => simp at h
  | cons t ts ih =>
    cases vs with
    | nil => simp at h
    | cons v vs =>
      rw [parts]
      rcases List.mem_cons.mp h with rfl | h
      · exact List.mem_cons_self
      · exact List.mem_cons_of_mem _ (ih h)

theorem assemble_fields (hf : ∀ t ∈ ts, throughout formed t)
    (hoff : trueOffsets (.tuple ts)) (hsm : small (.tuple ts)) (hvs : hasTypes ts vs)
    (hpacks : List.Forall₂ Packs (packFields ts vs) (parts ts vs))
    (hlen : (layout (parts ts vs)).length < 2 ^ 63) :
    (do let offset ← int64 (totalSize ts); assemble (packFields ts vs) [] offset []) =
      .ok (layout (parts ts vs)) := by
  have hheads : headsLen (parts ts vs) = totalHeadSize ts :=
    headsLen_parts (fun t ht v hv => headLen_encoding (hf t ht) hv) hvs
  cases hd : anyDynamic ts with
  | false =>
    have hts : totalSize ts < 2 ^ 63 := by simpa [getTypeSize, hd] using small_lt hsm
    rw [int64_of_lt hts]
    exact assemble_layout hpacks [] _ hlen (.inl ⟨parts_inline hd vs, hts⟩)
  | true =>
    rw [trueOffsets, hd, Bool.not_true, Bool.false_or, List.all_eq_true] at hoff
    rw [totalSize_eq hoff, ← hheads, int64_of_lt (by rw [layout_length] at hlen; omega)]
    exact assemble_layout hpacks [] _ hlen (.inr rfl)

theorem encoding_le_layout {dynamic : Bool}
    (h : partOf dynamic bs ∈ ps) : bs.length ≤ (layout ps).length := by
  have hle := bytes_le_layout h
  cases dynamic <;> exact hle

theorem mem_elems (e : AbiType) (h : v ∈ vs) : partOf (isDynamicType e) (encoding e v) ∈
      vs.map fun v => partOf (isDynamicType e) (encoding e v) :=
  List.mem_map_of_mem h

theorem pack_eq_encoding (hf : throughout formed t)
    (hoff : along (fun t _ => trueOffsets t) t v) (hsm : throughout small t) (hv : hasType t v)
    (hp : along packableAt t v) (hlen : (encoding t v).length < 2 ^ 63) :
    pack t v = .ok (encoding t v) := by
  induction t using AbiType.induction generalizing v with
  | atom t ha => rw [pack_atom ha, typeCheck_ok ha hv, encoding_atom ha]; rfl
  | slice e ih =>
    have hcheck := sliceTypeCheck_ok (.inl rfl) hf hv hp
    obtain ⟨vs, rfl, hvs⟩ := hasType_slice hv
    rw [encoding, List.length_append, word_length] at hlen
    have hpack : ∀ v ∈ vs, pack e v = .ok (encoding e v) := by
      intro v hmem
      have hle := encoding_le_layout (mem_elems e hmem)
      exact ih (throughout_slice hf) ((along_slice.mp hoff).2 v hmem) (throughout_slice hsm)
        (hvs v hmem) ((along_slice.mp hp).2 v hmem) (by omega)
    rw [pack, hcheck, ok_bind, encoding, packNum_natCast]
    exact assemble_elems (throughout_slice hf) hvs hpack _ (by omega)
  | array k e ih =>
    have hcheck := sliceTypeCheck_ok (.inr rfl) hf hv hp
    obtain ⟨vs, rfl, -, hvs⟩ := hasType_array hv
    rw [encoding] at hlen
    have hpack : ∀ v ∈ vs, pack e v = .ok (encoding e v) := by
      intro v hmem
      have hle := encoding_le_layout (mem_elems e hmem)
      exact ih (throughout_array hf) ((along_array.mp hoff).2 v hmem) (throughout_array hsm)
        (hvs v hmem) ((along_array.mp hp).2 v hmem) (by omega)
    rw [pack, hcheck, ok_bind, encoding]
    exact assemble_elems (throughout_array hf) hvs hpack [] hlen
  | tuple ts ih =>
    obtain ⟨vs, rfl, hvs⟩ := hasType_tuple hv
    rw [encoding] at hlen
    rw [pack, encoding]
    refine assemble_fields (throughout_tuple hf) (along_self hoff) (throughout_self hsm) hvs
      (packs_fields hvs fun x hx => ?_) hlen
    have ht := (List.of_mem_zip hx).1
    exact ih x.1 ht (throughout_tuple hf x.1 ht) ((along_tuple.mp hoff).2 x hx)
      (throughout_tuple hsm x.1 ht) (hasTypes_mem hvs x hx) ((along_tuple.mp hp).2 x hx)
      (lt_of_le_of_lt (encoding_le_layout (mem_parts hx)) hlen)

theorem Arguments.pack_eq {args : List Argument}
    (hf : ∀ t ∈ args.map Argument.type, throughout formed t)
    (hoff : along (fun t _ => trueOffsets t) (.tuple (args.map Argument.type)) (.seq vs))
    (hsm : throughout small (.tuple (args.map Argument.type)))
    (hvs : hasTypes (args.map Argument.type) vs)
    (hp : along packableAt (.tuple (args.map Argument.type)) (.seq vs))
    (hlen : (layout (parts (args.map Argument.type) vs)).length < 2 ^ 63) :
    Arguments.pack args vs = .ok (layout (parts (args.map Argument.type) vs)) := by
  have hcount : vs.length = args.length := by rw [hasTypes_length hvs, List.length_map]
  rw [Arguments.pack, if_neg (by simp [hcount])]
  refine assemble_fields hf (along_self hoff) (throughout_self hsm) hvs
    (packs_fields hvs fun x hx => ?_) hlen
  have ht := (List.of_mem_zip hx).1
  exact pack_eq_encoding (hf x.1 ht) ((along_tuple.mp hoff).2 x hx) (throughout_tuple hsm x.1 ht)
    (hasTypes_mem hvs x hx) ((along_tuple.mp hp).2 x hx)
    (lt_of_le_of_lt (encoding_le_layout (mem_parts hx)) hlen)

theorem assemble_ok_inv {ret tail b : Bytes} {o : ℕ}
    (h : assemble xs ret o tail = .ok b) : ∀ x ∈ xs, ∃ bs, x.2 = .ok bs := by
  induction xs generalizing ret o tail with
  | nil => exact List.forall_mem_nil _
  | cons x xs ih =>
    obtain ⟨dynamic, packed⟩ := x
    rw [assemble] at h
    obtain ⟨bs, hbs, h⟩ := bind_eq_ok.mp h
    refine List.forall_mem_cons.mpr ⟨⟨bs, hbs⟩, ?_⟩
    split at h
    · obtain ⟨_, -, h⟩ := bind_eq_ok.mp h
      exact ih h
    · exact ih h

theorem nonempty_of_elemTypeCheck
    {check : Value → Outcome AbiError Unit} (h : elemTypeCheck e vs check = .ok ())
    (ha : e.isArray) : vs ≠ [] := by
  rintro rfl
  cases e <;> simp_all [elemTypeCheck.eq_def, isSlice, isArray]

theorem packed_elems {ret b : Bytes} {o : ℕ}
    (h : assemble (vs.map fun v => (isDynamicType e, pack e v)) ret o [] = .ok b) :
    ∀ v ∈ vs, ∃ b, pack e v = .ok b := by
  intro v hmem
  exact assemble_ok_inv h _ (List.mem_map_of_mem hmem)

theorem packed_fields {ret b : Bytes} {o : ℕ} (h : assemble (packFields ts vs) ret o [] = .ok b) :
    ∀ x ∈ ts.zip vs, ∃ b, pack x.1 x.2 = .ok b := by
  have hmem := assemble_ok_inv h
  clear h
  induction ts generalizing vs with
  | nil => simp
  | cons t ts ih =>
    cases vs with
    | nil => simp
    | cons v vs =>
      rw [packFields] at hmem
      obtain ⟨hv, hrest⟩ := List.forall_mem_cons.mp hmem
      rw [List.zip_cons_cons]
      exact List.forall_mem_cons.mpr ⟨hv, ih hrest⟩

theorem packableAt_of_pack {b : Bytes} (h : pack t v = .ok b) : packableAt t v := by
  cases t with
  | slice e =>
    cases v with
    | seq vs =>
      rw [pack] at h
      obtain ⟨_, hcheck, -⟩ := bind_eq_ok.mp h
      rw [sliceTypeCheck] at hcheck
      have hne := nonempty_of_elemTypeCheck hcheck
      cases ha : e.isArray <;> simp_all [packableAt]
    | _ => rfl
  | _ => rfl

theorem along_packableAt_of_pack (h : ∃ b, pack t v = .ok b) : along packableAt t v := by
  refine along_of (P := fun t v => ∃ b, pack t v = .ok b) ?_ ?_ ?_ ?_ h
  · exact fun t v ⟨b, hb⟩ => packableAt_of_pack hb
  · rintro e vs ⟨b, hb⟩
    rw [pack] at hb
    obtain ⟨_, -, hb⟩ := bind_eq_ok.mp hb
    obtain ⟨_, -, hb⟩ := bind_eq_ok.mp hb
    exact packed_elems hb
  · rintro k e vs ⟨b, hb⟩
    rw [pack] at hb
    obtain ⟨_, -, hb⟩ := bind_eq_ok.mp hb
    obtain ⟨_, -, hb⟩ := bind_eq_ok.mp hb
    exact packed_elems hb
  · rintro ts vs ⟨b, hb⟩
    rw [pack] at hb
    obtain ⟨_, -, hb⟩ := bind_eq_ok.mp hb
    exact packed_fields hb

-- an empty `uint256[2][]`
example : Arguments.pack [⟨.slice (.array 2 (.uint 256)), false⟩] [.seq []] = .fault .bounds := rfl

end Fiscobcos.Abi
