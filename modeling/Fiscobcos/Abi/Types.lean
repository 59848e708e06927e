import Fiscobcos.Lib.HeadTail

/-! # ABI types and values (accounts/abi/type.go)

Every offset of the coder comes from `isDynamicType` and `getTypeSize`. `headSize` is the size a
static type really takes; the two differ for arrays of tuples (`sized`). -/

namespace Fiscobcos.Abi
open List

open Fiscobcos.Numerals Fiscobcos.Checked

/-- Tuples are left without their field names: the struct of a tuple has one field for each
element, in order. -/
inductive AbiType where
  | int (size : ℕ)
  | uint (size : ℕ)
  | bool
  | string
  | slice (elem : AbiType)
  | array (size : ℕ) (elem : AbiType)
  | tuple (elems : List AbiType)
  | address
  | fixedBytes (size : ℕ)
  | bytes
  | function

/-- Go values of these types. Strings, byte slices and byte arrays are `bytes`; slices, arrays and
structs are `seq`. -/
inductive Value where
  | num (z : ℤ)
  | bool (b : Bool)
  | bytes (bs : Bytes)
  | seq (vs : List Value)

inductive AbiError where
  | typeErr (expected : AbiType)
  | fieldNotFound
  | countMismatch (args params : ℕ)
  | badBool
  | badFunction (word : Bytes)
  | arrayOver (len stop : ℕ)
  | lengthInsufficient (len stop : ℕ)
  | offsetOver (offset len : ℕ)
  | offsetLarge (offset : ℕ)
  | lengthLarge (total : ℕ)

namespace AbiType

def isSlice : AbiType → Bool
  | .slice _ => true
  | _ => false

def isArray : AbiType → Bool
  | .array _ _ => true
  | _ => false

def isAtom : AbiType → Bool
  | .slice _ | .array _ _ | .tuple _ => false
  | _ => true

theorem induction {P : AbiType → Prop} (atom : ∀ t, t.isAtom → P t)
    (slice : ∀ e, P e → P (.slice e)) (array : ∀ k e, P e → P (.array k e))
    (tuple : ∀ ts, (∀ t ∈ ts, P t) → P (.tuple ts)) (t : AbiType) : P t :=
  @AbiType.rec P (fun ts => ∀ t ∈ ts, P t) (fun _ => atom _ rfl) (fun _ => atom _ rfl) (atom _ rfl)
    (atom _ rfl) slice array tuple (atom _ rfl) (fun _ => atom _ rfl) (atom _ rfl) (atom _ rfl)
    (forall_mem_nil P) (fun _ _ ht hts => forall_mem_cons.mpr ⟨ht, hts⟩) t

mutual

def throughout (p : AbiType → Bool) : AbiType → Bool
  | .slice e => p (.slice e) && throughout p e
  | .array k e => p (.array k e) && throughout p e
  | .tuple ts => p (.tuple ts) && throughoutAll p ts
  | t => p t

def throughoutAll (p : AbiType → Bool) : List AbiType → Bool
  | [] => true
  | t :: ts => throughout p t && throughoutAll p ts

end

variable {p : AbiType → Bool}

theorem throughoutAll_iff {ts : List AbiType} : throughoutAll p ts ↔ ∀ t ∈ ts, throughout p t := by
  induction ts with
  | nil => simp [throughoutAll]
  | cons t ts ih => simp [throughoutAll, ih]

theorem throughout_mono {p q : AbiType → Bool} {t : AbiType} (hpq : ∀ t, p t → q t)
    (h : throughout p t) : throughout q t := by
  induction t using AbiType.induction with
  | atom t ha => cases t <;> simp_all [throughout, isAtom]
  | slice e ih => simp_all [throughout]
  | array k e ih => simp_all [throughout]
  | tuple ts ih =>
    rw [throughout, Bool.and_eq_true, throughoutAll_iff] at h ⊢
    exact ⟨hpq _ h.1, fun t ht => ih t ht (h.2 t ht)⟩

theorem throughout_self {t : AbiType} (h : throughout p t) : p t := by
  cases t <;> simp_all [throughout]

theorem throughout_slice {e : AbiType} (h : throughout p (.slice e)) : throughout p e := by
  simp_all [throughout]

theorem throughout_array {k : ℕ} {e : AbiType}
    (h : throughout p (.array k e)) : throughout p e := by
  simp_all [throughout]

theorem throughout_tuple {ts : List AbiType} (h : throughout p (.tuple ts)) :
    ∀ t ∈ ts, throughout p t := by
  rw [throughout, Bool.and_eq_true] at h
  exact throughoutAll_iff.mp h.2

end AbiType

open AbiType (throughout throughout_self throughout_slice throughout_array throughout_tuple isSlice
  isArray isAtom)

mutual

/-- `p` at a value and at the values inside it, each with its type. -/
def along (p : AbiType → Value → Bool) : AbiType → Value → Bool
  | .slice e, .seq vs => p (.slice e) (.seq vs) && vs.all fun v => along p e v
  | .array k e, .seq vs => p (.array k e) (.seq vs) && vs.all fun v => along p e v
  | .tuple ts, .seq vs => p (.tuple ts) (.seq vs) && alongAll p ts vs
  | t, v => p t v

def alongAll (p : AbiType → Value → Bool) : List AbiType → List Value → Bool
  | t :: ts, v :: vs => along p t v && alongAll p ts vs
  | _, _ => true

end

section Along
variable {p q : AbiType → Value → Bool} {e t : AbiType} {v : Value} {k : ℕ} {ts : List AbiType}
  {vs : List Value}

theorem along_atom (h : t.isAtom) (v : Value) : along p t v = p t v := by
  cases t <;> simp_all [along, isAtom]

theorem along_slice : along p (.slice e) (.seq vs) ↔
    p (.slice e) (.seq vs) ∧ ∀ v ∈ vs, along p e v := by
  simp [along]

theorem along_array : along p (.array k e) (.seq vs) ↔
    p (.array k e) (.seq vs) ∧ ∀ v ∈ vs, along p e v := by
  simp [along]

theorem alongAll_iff : alongAll p ts vs ↔ ∀ x ∈ ts.zip vs, along p x.1 x.2 := by
  induction ts generalizing vs with
  | nil => simp [alongAll]
  | cons t ts ih => cases vs <;> simp [alongAll, ih]

theorem along_tuple : along p (.tuple ts) (.seq vs) ↔
    p (.tuple ts) (.seq vs) ∧ ∀ x ∈ ts.zip vs, along p x.1 x.2 := by
  rw [along, Bool.and_eq_true, alongAll_iff]

theorem along_self (h : along p t v) : p t v := by
  cases t <;> cases v <;> simp_all [along]

/-- A property that goes from a value to the values inside it and implies `p`. -/
theorem along_of {P : AbiType → Value → Prop} (hp : ∀ t v, P t v → p t v)
    (slice : ∀ {e vs}, P (.slice e) (.seq vs) → ∀ v ∈ vs, P e v)
    (array : ∀ {k e vs}, P (.array k e) (.seq vs) → ∀ v ∈ vs, P e v)
    (tuple : ∀ {ts vs}, P (.tuple ts) (.seq vs) → ∀ x ∈ ts.zip vs, P x.1 x.2) (h : P t v) :
    along p t v := by
  induction t using AbiType.induction generalizing v with
  | atom t ha =>
    rw [along_atom ha]
    exact hp t v h
  | slice e ih =>
    cases v with
    | seq vs => exact along_slice.mpr ⟨hp _ _ h, fun v hv => ih (slice h v hv)⟩
    | _ => exact hp _ _ h
  | array k e ih =>
    cases v with
    | seq vs => exact along_array.mpr ⟨hp _ _ h, fun v hv => ih (array h v hv)⟩
    | _ => exact hp _ _ h
  | tuple ts ih =>
    cases v with
    | seq vs =>
      exact along_tuple.mpr ⟨hp _ _ h, fun x hx => ih x.1 (of_mem_zip hx).1 (tuple h x hx)⟩
    | _ => exact hp _ _ h

theorem along_mono (hpq : ∀ t v, p t v → q t v) (h : along p t v) : along q t v :=
  along_of (P := fun t v => along p t v) (fun t v h => hpq t v (along_self h))
    (fun h => (along_slice.mp h).2) (fun h => (along_array.mp h).2) (fun h => (along_tuple.mp h).2) h

theorem along_of_throughout {r : AbiType → Bool} (hr : ∀ t v, r t → p t v) (h : throughout r t)
    (v : Value) : along p t v :=
  along_of (P := fun t _ => throughout r t) (fun t v h => hr t v (throughout_self h))
    (fun h _ _ => throughout_slice h) (fun h _ _ => throughout_array h)
    (fun h x hx => throughout_tuple h x.1 (of_mem_zip hx).1) h

end Along

mutual

def isDynamicType : AbiType → Bool
  | .tuple ts => anyDynamic ts
  | .string | .bytes | .slice _ => true
  | .array _ e => isDynamicType e
  | _ => false

def anyDynamic : List AbiType → Bool
  | [] => false
  | t :: ts => isDynamicType t || anyDynamic ts

end

mutual

/-- Only an array of arrays asks for the size of its element. -/
def getTypeSize : AbiType → ℕ
  | .array k e =>
    if isDynamicType e then 32 else if e.isArray then k * getTypeSize e else k * 32
  | .tuple ts => if anyDynamic ts then 32 else totalSize ts
  | _ => 32

def totalSize : List AbiType → ℕ
  | [] => 0
  | t :: ts => getTypeSize t + totalSize ts

end

mutual

def headSize : AbiType → ℕ
  | .array k e => if isDynamicType e then 32 else k * headSize e
  | .tuple ts => if anyDynamic ts then 32 else totalHeadSize ts
  | _ => 32

def totalHeadSize : List AbiType → ℕ
  | [] => 0
  | t :: ts => headSize t + totalHeadSize ts

end

variable {ts : List AbiType} {t : AbiType}

theorem anyDynamic_eq_false : anyDynamic ts = false ↔ ∀ t ∈ ts, isDynamicType t = false := by
  induction ts with
  | nil => simp [anyDynamic]
  | cons t ts ih => simp [anyDynamic, ih]

theorem isDynamicType_atom (h : t.isAtom) (hd : isDynamicType t) : t = .string ∨ t = .bytes := by
  cases t <;> simp_all [isAtom, isDynamicType]

theorem getTypeSize_atom (h : t.isAtom) : getTypeSize t = 32 := by
  cases t <;> simp_all [isAtom, getTypeSize]

theorem headSize_atom (h : t.isAtom) : headSize t = 32 := by
  cases t <;> simp_all [isAtom, headSize]

theorem getTypeSize_dynamic (h : isDynamicType t) : getTypeSize t = 32 := by
  cases t <;> simp_all [isDynamicType, getTypeSize]

theorem headSize_dynamic (h : isDynamicType t) : headSize t = 32 := by
  cases t <;> simp_all [isDynamicType, headSize]

theorem totalSize_dvd (h : ∀ t ∈ ts, 32 ∣ getTypeSize t) : 32 ∣ totalSize ts := by
  induction ts with
  | nil => exact dvd_zero 32
  | cons t ts ih =>
    obtain ⟨ht, hts⟩ := forall_mem_cons.mp h
    exact dvd_add ht (ih hts)

theorem getTypeSize_dvd (t : AbiType) : 32 ∣ getTypeSize t := by
  induction t using AbiType.induction with
  | atom t h => rw [getTypeSize_atom h]
  | slice e _ => exact dvd_refl 32
  | array k e ih =>
    rw [getTypeSize]
    split_ifs
    · exact dvd_refl 32
    · exact Dvd.dvd.mul_left ih k
    · exact dvd_mul_left 32 k
  | tuple ts ih =>
    rw [getTypeSize]
    split_ifs
    · exact dvd_refl 32
    · exact totalSize_dvd ih

/-! What the Go values take in memory on a 64-bit machine; big integers are pointers. -/

def padded (size align : ℕ) : ℕ := (size + align - 1) / align * align

def integerBytes (size : ℕ) : ℕ := if size = 8 ∨ size = 16 ∨ size = 32 then size / 8 else 8

mutual

def goAlign : AbiType → ℕ
  | .int n | .uint n => integerBytes n
  | .bool | .address | .fixedBytes _ | .function => 1
  | .string | .bytes | .slice _ => 8
  | .array _ e => goAlign e
  | .tuple ts => goAlignAll ts

def goAlignAll : List AbiType → ℕ
  | [] => 1
  | t :: ts => max (goAlign t) (goAlignAll ts)

end

mutual

def goSize : AbiType → ℕ
  | .int n | .uint n => integerBytes n
  | .bool => 1
  | .string => 16
  | .bytes | .slice _ | .function => 24
  | .address => 20
  | .fixedBytes n => n
  | .array k e => k * goSize e
  | .tuple ts => padded (fieldsEnd ts 0) (goAlignAll ts)

/-- A struct whose last field has no size gets one byte more. -/
def fieldsEnd : List AbiType → ℕ → ℕ
  | [], offset => offset
  | t :: ts, offset =>
    let stop := padded offset (goAlign t) + goSize t
    if ts.isEmpty && goSize t = 0 && 0 < stop then stop + 1 else fieldsEnd ts stop

end

/-- `maxAlloc` of the runtime: a larger allocation panics. -/
def maxAlloc : ℕ := 2 ^ 48

/-- An integer type of at least one bit, `bytesN` of at most a word, arrays of at least one
element, tuples of at least one field. -/
def formed : AbiType → Bool
  | .int n | .uint n => 0 < n
  | .fixedBytes n => 0 < n && n ≤ 32
  | .array k _ => 0 < k
  | .tuple ts => !ts.isEmpty
  | _ => true

def small : AbiType → Bool
  | .array k e =>
    32 * k < 2 ^ 63 && getTypeSize (.array k e) < 2 ^ 63 && goSize (.array k e) ≤ maxAlloc
  | .tuple ts => getTypeSize (.tuple ts) < 2 ^ 63 && goSize (.tuple ts) ≤ maxAlloc
  | _ => true

def sized (t : AbiType) : Bool := getTypeSize t = headSize t

/-- Every place that is computed from a size of a type is the true one. After the last member of a
static tuple no place is computed. -/
def aligned : AbiType → Bool
  | .slice e => sized e
  | .array k e => k = 1 || sized e
  | .tuple ts => if anyDynamic ts then ts.all sized else ts.dropLast.all sized
  | _ => true

/-- The same where a value is given: in a slice with one element no place is computed. -/
def alignedAt : AbiType → Value → Bool
  | .slice e, .seq vs => vs.length ≤ 1 || sized e
  | t, _ => aligned t

theorem alignedAt_of_aligned (v : Value) (h : aligned t) : alignedAt t v := by
  cases t <;> cases v <;> simp_all [alignedAt, aligned]

/-- The offsets written into a tuple are the true ones. -/
def trueOffsets : AbiType → Bool
  | .tuple ts => !anyDynamic ts || ts.all sized
  | _ => true

theorem trueOffsets_of_aligned (v : Value) (h : alignedAt t v) : trueOffsets t := by
  cases t with
  | tuple ts =>
    rw [trueOffsets, Bool.or_eq_true]
    rw [alignedAt, aligned] at h
    split at h
    · exact .inr h
    · simp_all
    · nofun
  | _ => rfl

theorem throughout_of_static {r : AbiType → Bool} (hr : ∀ t, isDynamicType t = false → r t)
    (h : isDynamicType t = false) : throughout r t := by
  induction t using AbiType.induction with
  | atom t ha => cases t <;> simp_all [throughout, isAtom]
  | slice e _ => simp [isDynamicType] at h
  | array k e ih =>
    rw [throughout, Bool.and_eq_true]
    exact ⟨hr _ h, ih h⟩
  | tuple ts ih =>
    rw [throughout, Bool.and_eq_true, AbiType.throughoutAll_iff]
    exact ⟨hr _ h, fun t ht => ih t ht (anyDynamic_eq_false.mp h t ht)⟩

theorem trueOffsets_of_static (t : AbiType) (h : isDynamicType t = false) : trueOffsets t := by
  cases t <;> simp_all [trueOffsets, isDynamicType]

theorem small_lt (h : small t) : getTypeSize t < 2 ^ 63 := by
  cases t with
  | array k e => simp_all [small]
  | tuple ts => simp_all [small]
  | _ => norm_num [getTypeSize]

theorem goSize_le (hf : formed t) (h : small t) : goSize t ≤ maxAlloc := by
  cases t with
  | array k e => simp_all [small]
  | tuple ts => simp_all [small]
  | fixedBytes n =>
    simp only [formed, Bool.and_eq_true, decide_eq_true_eq] at hf
    rw [goSize, maxAlloc]
    omega
  | int n | uint n =>
    rw [goSize, integerBytes, maxAlloc]
    split <;> omega
  | _ => simp [goSize, maxAlloc]

theorem sized_dropLast (h : aligned (.tuple ts)) : ∀ t ∈ ts.dropLast, sized t := by
  intro t ht
  rw [aligned] at h
  split at h
  · exact all_eq_true.mp h t (mem_of_mem_dropLast ht)
  · exact all_eq_true.mp h t ht

theorem totalHeadSize_ge (h : ∀ t ∈ ts, 32 ≤ headSize t) (hne : ts ≠ []) :
    32 ≤ totalHeadSize ts := by
  cases ts with
  | nil => exact absurd rfl hne
  | cons t ts => exact le_trans (h t mem_cons_self) (Nat.le_add_right _ _)

theorem headSize_ge (h : throughout formed t) : 32 ≤ headSize t := by
  induction t using AbiType.induction with
  | atom t ha => rw [headSize_atom ha]
  | slice e _ => exact le_refl 32
  | array k e ih =>
    have hk : 0 < k := by simpa [formed] using throughout_self h
    rw [headSize]
    split_ifs
    · exact le_refl 32
    · exact le_trans (ih (throughout_array h)) (Nat.le_mul_of_pos_left _ hk)
  | tuple ts ih =>
    have hne : ts ≠ [] := by simpa [formed] using throughout_self h
    rw [headSize]
    split_ifs
    · exact le_refl 32
    · exact totalHeadSize_ge (fun t ht => ih t ht (throughout_tuple h t ht)) hne

theorem totalSize_le (h : ∀ t ∈ ts, getTypeSize t ≤ headSize t) :
    totalSize ts ≤ totalHeadSize ts := by
  induction ts with
  | nil => exact le_refl 0
  | cons t ts ih =>
    obtain ⟨ht, hts⟩ := forall_mem_cons.mp h
    exact Nat.add_le_add ht (ih hts)

theorem totalSize_eq (h : ∀ t ∈ ts, sized t) : totalSize ts = totalHeadSize ts := by
  induction ts with
  | nil => rfl
  | cons t ts ih =>
    obtain ⟨ht, hts⟩ := forall_mem_cons.mp h
    rw [totalSize, totalHeadSize, ih hts, show getTypeSize t = headSize t by simpa [sized] using ht]

theorem getTypeSize_le (h : throughout formed t) : getTypeSize t ≤ headSize t := by
  induction t using AbiType.induction with
  | atom t ha => rw [getTypeSize_atom ha, headSize_atom ha]
  | slice e _ => exact le_refl 32
  | array k e ih =>
    rw [getTypeSize, headSize]
    split_ifs
    · exact le_refl 32
    · exact Nat.mul_le_mul_left k (ih (throughout_array h))
    · exact Nat.mul_le_mul_left k (headSize_ge (throughout_array h))
  | tuple ts ih =>
    rw [getTypeSize, headSize]
    split_ifs
    · exact le_refl 32
    · exact totalSize_le fun t ht => ih t ht (throughout_tuple h t ht)

end Fiscobcos.Abi
