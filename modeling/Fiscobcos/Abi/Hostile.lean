import Fiscobcos.Abi.Alignment

/-! # Unpacking hostile data

Every dynamic case checks the offset and the length it reads, except one: the offset of an array
with dynamic elements. Without such an array no data that leaves room for the slices faults. -/

namespace Fiscobcos.Abi
open AbiType List
open Checked.Outcome

open Fiscobcos.Numerals Fiscobcos.Checked Fiscobcos.HeadTail
open AbiType (throughout throughout_self throughout_slice throughout_array
  throughout_tuple isSlice isArray isAtom)

def wordBytes : AbiType → Bool
  | .fixedBytes n => n ≤ 32
  | _ => true

def staticElems : AbiType → Bool
  | .array _ e => !isDynamicType e
  | _ => true

/-- The elements of a slice in `n` bytes can be allocated. -/
def roomy (n : ℕ) : AbiType → Bool
  | .slice e => n / 32 * goSize e ≤ maxAlloc
  | _ => true

variable {output : Bytes} {index : ℕ}

theorem roomy_le {t : AbiType} {m n : ℕ} (h : roomy n t) (hm : m ≤ n) : roomy m t := by
  cases t with
  | slice e =>
    have hmul := Nat.mul_le_mul_right (goSize e) (Nat.div_le_div_right (c := 32) hm)
    exact decide_eq_true (hmul.trans (of_decide_eq_true h))
  | _ => rfl

variable {element : ℕ → Outcome AbiError Value} {e t : AbiType} {ts : List AbiType} {pos : ℕ}

theorem unpackElems_extent {step count len i : ℕ}
    {vs : List Value} (hel : ∀ j v, element j = .ok v → j + step ≤ len)
    (h : unpackElems element step count i = .ok vs) (hi : i ≤ len) : i + count * step ≤ len := by
  induction count generalizing i vs with
  | zero => omega
  | succ count ih =>
    rw [unpackElems] at h
    obtain ⟨v, hv, h⟩ := bind_eq_ok.mp h
    obtain ⟨next, hnext, h⟩ := bind_eq_ok.mp h
    obtain ⟨ws, hws, -⟩ := bind_eq_ok.mp h
    obtain ⟨-, rfl⟩ := int64_eq_ok.mp hnext
    have hrest := ih hws (hel i v hv)
    rw [Nat.succ_mul]
    omega

theorem forEachUnpack_extent {size : ℕ}
    {v : Value} (hel : ∀ j v, element j = .ok v → j + getTypeSize e ≤ output.length)
    (h : forEachUnpack e element output 0 size = .ok v) :
    32 * size ≤ output.length ∧ size * getTypeSize e ≤ output.length := by
  rw [forEachUnpack] at h
  obtain ⟨span, hspan, h⟩ := bind_eq_ok.mp h
  obtain ⟨stop, hstop, h⟩ := bind_eq_ok.mp h
  obtain ⟨-, rfl⟩ := int64_eq_ok.mp hspan
  obtain ⟨-, rfl⟩ := int64_eq_ok.mp hstop
  split at h
  · cases h
  obtain ⟨_, -, h⟩ := bind_eq_ok.mp h
  obtain ⟨step, hstep, h⟩ := bind_eq_ok.mp h
  obtain ⟨-, rfl⟩ := int64_eq_ok.mp hstep
  obtain ⟨vs, hvs, -⟩ := bind_eq_ok.mp h
  have hextent := unpackElems_extent hel hvs (Nat.zero_le _)
  omega

theorem unpackAll_extent {vs : List Value}
    (ih : ∀ t ∈ ts, ∀ i v, toGoType t i output = .ok v → i + getTypeSize t ≤ output.length)
    (h : unpackAll ts pos output = .ok vs) (hpos : pos * 32 ≤ output.length) :
    pos * 32 + totalSize ts ≤ output.length := by
  induction ts generalizing pos vs with
  | nil => exact hpos
  | cons t ts iht =>
    obtain ⟨iht', ihts⟩ := forall_mem_cons.mp ih
    obtain ⟨v, ws, next, -, hv, hnext, hws⟩ := unpackAll_ok_inv h
    have hfirst := iht' _ v hv
    have hnext32 := nextHead_ok hnext
    have hrest := iht ihts hws (by omega)
    rw [totalSize]
    omega

theorem toGoType_extent {v : Value} (h : toGoType t index output = .ok v) :
    index + getTypeSize t ≤ output.length := by
  induction t using induction generalizing index output v with
  | atom t ha =>
    rw [getTypeSize_atom ha]
    cases t <;> simp only [isAtom, Bool.false_eq_true] at ha <;> rw [toGoType] at h <;>
      obtain ⟨w, hw, -⟩ := bind_eq_ok.mp h
    all_goals first | exact (readWord_ok hw).2 | exact (checkWord_ok hw).2
  | slice e _ =>
    rw [toGoType] at h
    obtain ⟨stop, hstop, -⟩ := bind_eq_ok.mp h
    exact (checkWord_ok hstop).2
  | array k e ih =>
    rw [toGoType] at h
    obtain ⟨w, hw, h⟩ := bind_eq_ok.mp h
    obtain ⟨rest, hrest, h⟩ := bind_eq_ok.mp h
    have hword := (readWord_ok hw).2
    have hextent := forEachUnpack_extent (fun j v hv => ih hv) h
    rw [arraySource] at hrest
    rw [getTypeSize]
    split_ifs at hrest ⊢ with hd ha
    · exact hword
    all_goals
      obtain ⟨hle, rfl⟩ := sliceFrom_eq_ok hrest
      rw [length_drop] at hextent
      omega
  | tuple ts ih =>
    rw [toGoType] at h
    obtain ⟨w, hw, h⟩ := bind_eq_ok.mp h
    obtain ⟨start, hstart, h⟩ := bind_eq_ok.mp h
    obtain ⟨rest, hrest, h⟩ := bind_eq_ok.mp h
    obtain ⟨_, -, h⟩ := bind_eq_ok.mp h
    obtain ⟨vs, hvs, -⟩ := bind_eq_ok.mp h
    have hword := (readWord_ok hw).2
    rw [tupleStart] at hstart
    rw [getTypeSize]
    split_ifs at hstart ⊢ with hd
    · exact hword
    · cases hstart
      obtain ⟨hle, rfl⟩ := sliceFrom_eq_ok hrest
      have hextent := unpackAll_extent (fun t ht i v hv => ih t ht hv) hvs (by omega)
      rw [length_drop] at hextent
      omega

theorem checkWord_safe (h : index + 32 < 2 ^ 63) : (checkWord index output).Safe := by
  rw [checkWord, int64_of_lt h, ok_bind]
  split
  · trivial
  · trivial

theorem readWord_safe (h : index + 32 < 2 ^ 63) : (readWord index output).Safe := by
  rw [readWord]
  refine (checkWord_safe h).bind ?_
  intro stop hstop
  obtain ⟨rfl, hle⟩ := checkWord_ok hstop
  rw [slice_of_le (by omega) hle]
  trivial

theorem lengthPrefixPointsTo_safe (h : index + 32 ≤ output.length) :
    (lengthPrefixPointsTo index output).Safe := by
  rw [lengthPrefixPointsTo, slice_of_le (by omega) h, ok_bind]
  refine safe_unless fun hend => safe_unless fun _ => ?_
  rw [slice_of_le (by omega) (by omega), ok_bind]
  exact safe_unless fun _ => safe_unless fun _ => trivial

theorem tupleStart_safe (ts : List AbiType) (h : index + 32 ≤ output.length) :
    (tupleStart ts index output).Safe := by
  rw [tupleStart]
  split
  · rw [tuplePointsTo, slice_of_le (by omega) h, ok_bind]
    exact safe_unless fun _ => safe_unless fun _ => trivial
  · trivial

theorem tupleStart_ok {start : ℕ} (h : tupleStart ts index output = .ok start)
    (hindex : index ≤ output.length) : start ≤ output.length := by
  rw [tupleStart] at h
  split at h
  · rw [tuplePointsTo] at h
    obtain ⟨offset, -, h⟩ := bind_eq_ok.mp h
    split at h
    · cases h
    split at h
    · cases h
    · cases h
      omega
  · cases h
    exact hindex

theorem unpackElems_safe {step count len i : ℕ}
    (hsafe : ∀ j ≤ len, (element j).Safe) (hel : ∀ j v, element j = .ok v → j + step ≤ len)
    (hlen : len < 2 ^ 63) (hi : i ≤ len) : (unpackElems element step count i).Safe := by
  induction count generalizing i with
  | zero => trivial
  | succ count ih =>
    rw [unpackElems]
    refine (hsafe i hi).bind ?_
    intro v hv
    have hnext := hel i v hv
    rw [int64_of_lt (by omega), ok_bind]
    exact (ih hnext).bind fun _ _ => trivial

theorem forEachUnpack_safe {size : ℕ}
    (hsm : small e) (hsafe : ∀ j ≤ output.length, (element j).Safe)
    (hel : ∀ j v, element j = .ok v → j + getTypeSize e ≤ output.length)
    (hroom : 32 * size ≤ output.length → size * goSize e ≤ maxAlloc)
    (hsize : 32 * size < 2 ^ 63) (hlen : output.length < 2 ^ 63) :
    (forEachUnpack e element output 0 size).Safe := by
  rw [forEachUnpack, int64_of_lt hsize, ok_bind, int64_of_lt (by omega), ok_bind]
  refine safe_unless fun hstop => ?_
  rw [allocate_of_le (hroom (by omega)), ok_bind, int64_of_lt (small_lt hsm), ok_bind]
  exact (unpackElems_safe hsafe hel hlen (Nat.zero_le _)).bind fun _ _ => trivial

theorem unpackAll_safe (hsm : ∀ t ∈ ts, small t)
    (ih : ∀ t ∈ ts, ∀ i ≤ output.length, (toGoType t i output).Safe)
    (hlen : 32 * output.length < 2 ^ 63) (hpos : pos * 32 ≤ output.length) :
    (unpackAll ts pos output).Safe := by
  induction ts generalizing pos with
  | nil => rw [unpackAll]; trivial
  | cons t ts iht =>
    obtain ⟨st, sts⟩ := forall_mem_cons.mp hsm
    obtain ⟨iht', ihts⟩ := forall_mem_cons.mp ih
    have hsize := small_lt st
    -- the size of a field that was not read is still a size, so this sum does not overflow
    have hnext : nextHead t pos = .ok (pos + getTypeSize t / 32) := by
      rw [nextHead_eq hsize, int64_of_lt (by omega)]
    rw [unpackAll, int64_of_lt (by omega), ok_bind, hnext]
    refine (iht' _ hpos).attempt.bind ?_
    intro marshalled hm
    rw [ok_bind]
    refine (safe_ofExcept marshalled).bind ?_
    intro v hv
    have hextent := toGoType_extent ((attempt_eq_ok.mp hm).trans hv)
    have hnext32 := headWord_mul t pos
    exact (iht sts ihts (by omega)).bind fun _ _ => trivial

theorem readBool_safe (word : Bytes) : (readBool word).Safe := by
  rw [readBool.eq_def]
  refine safe_unless fun _ => ?_
  split
  · trivial
  · trivial
  · trivial

theorem readFunctionType_safe (word : Bytes) : (readFunctionType word).Safe := by
  rw [readFunctionType]
  exact safe_unless fun _ => trivial

theorem readBytes_safe (h : index + 32 ≤ output.length) (hlen : output.length < 2 ^ 63) :
    (do
      let place ← lengthPrefixPointsTo index output
      let stop ← int64 (place.1 + place.2)
      let bs ← slice output place.1 stop
      .ok (.bytes bs) : Outcome AbiError Value).Safe := by
  refine (lengthPrefixPointsTo_safe h).bind fun place hplace => ?_
  obtain ⟨-, -, -, hfit⟩ := lengthPrefixPointsTo_ok hplace
  rw [int64_of_lt (by omega), ok_bind, slice_of_le (by omega) hfit]
  trivial

theorem atom_safe (ha : t.isAtom) (hw : wordBytes t)
    (hlen : 32 * output.length < 2 ^ 63) (hindex : index ≤ output.length) :
    (toGoType t index output).Safe := by
  have hword : (readWord index output).Safe := readWord_safe (by omega)
  have hcheck : (checkWord index output).Safe := checkWord_safe (by omega)
  cases t with
  | int n | uint n | address => rw [toGoType]; exact hword.bind fun _ _ => trivial
  | bool =>
    rw [toGoType]
    exact hword.bind fun w _ => (readBool_safe w).bind fun _ _ => trivial
  | fixedBytes n =>
    rw [toGoType]
    refine hword.bind fun w hw' => ?_
    have hn : n ≤ 32 := of_decide_eq_true hw
    rw [readFixedBytes, slice_of_le (Nat.zero_le n) (by rw [(readWord_ok hw').1]; exact hn)]
    trivial
  | function =>
    rw [toGoType]
    exact hword.bind fun w _ => (readFunctionType_safe w).bind fun _ _ => trivial
  | string | bytes =>
    rw [toGoType]
    exact hcheck.bind fun stop hstop => readBytes_safe (checkWord_ok hstop).2 (by omega)
  | slice e | array k e | tuple ts => simp [isAtom] at ha

theorem toGoType_safe (hw : throughout wordBytes t) (hsm : throughout small t)
    (hst : throughout staticElems t) (hroom : throughout (roomy output.length) t) (hlen : 32 * output.length < 2 ^ 63)
    (hindex : index ≤ output.length) : (toGoType t index output).Safe := by
  induction t using induction generalizing index output with
  | atom t ha => exact atom_safe ha (throughout_self hw) hlen hindex
  | slice e ih =>
    rw [toGoType]
    refine (checkWord_safe (by omega)).bind fun stop hstop => ?_
    obtain ⟨rfl, hle⟩ := checkWord_ok hstop
    refine (lengthPrefixPointsTo_safe hle).bind fun place hplace => ?_
    obtain ⟨-, -, -, hfit⟩ := lengthPrefixPointsTo_ok hplace
    rw [sliceFrom_of_le (by omega), ok_bind]
    have hrest : (output.drop place.1).length ≤ output.length := by simp
    have hroom' := throughout_mono (fun _ h => roomy_le h hrest) hroom
    apply forEachUnpack_safe (throughout_self (throughout_slice hsm))
    · intro j hj
      exact ih (throughout_slice hw) (throughout_slice hsm) (throughout_slice hst)
        (throughout_slice hroom') (by omega) hj
    · exact fun j v => toGoType_extent
    · intro hle
      have hall : (output.drop place.1).length / 32 * goSize e ≤ maxAlloc :=
        of_decide_eq_true (throughout_self hroom')
      exact (Nat.mul_le_mul_right _ (by omega)).trans hall
    · omega
    · omega
  | array k e ih =>
    have he : isDynamicType e = false := by simpa [staticElems] using throughout_self hst
    have hk := throughout_self hsm
    simp only [small, Bool.and_eq_true, decide_eq_true_eq] at hk
    rw [toGoType]
    refine (readWord_safe (by omega)).bind fun w _ => ?_
    rw [arraySource, he, if_neg (by simp), sliceFrom_of_le hindex, ok_bind]
    have hrest : (output.drop index).length ≤ output.length := by simp
    have hroom' := throughout_mono (fun _ h => roomy_le h hrest) hroom
    apply forEachUnpack_safe (throughout_self (throughout_array hsm))
    · intro j hj
      exact ih (throughout_array hw) (throughout_array hsm) (throughout_array hst)
        (throughout_array hroom') (by omega) hj
    · exact fun j v => toGoType_extent
    · exact fun _ => hk.2
    · exact hk.1.1
    · omega
  | tuple ts ih =>
    have hsize := throughout_self hsm
    simp only [small, Bool.and_eq_true, decide_eq_true_eq] at hsize
    rw [toGoType]
    refine (readWord_safe (by omega)).bind fun w hw' => ?_
    refine (tupleStart_safe ts (readWord_ok hw').2).bind fun start hstart => ?_
    have hle := tupleStart_ok hstart hindex
    rw [sliceFrom_of_le hle, ok_bind, allocate_of_le hsize.2, ok_bind]
    have hrest : (output.drop start).length ≤ output.length := by simp
    have hroom' := throughout_mono (fun _ h => roomy_le h hrest) hroom
    refine Safe.bind (unpackAll_safe ?_ ?_ (by omega) (by omega)) fun _ _ => trivial
    · exact fun t ht => throughout_self (throughout_tuple hsm t ht)
    · intro t ht i hi
      exact ih t ht (throughout_tuple hw t ht) (throughout_tuple hsm t ht)
        (throughout_tuple hst t ht) (throughout_tuple hroom' t ht) (by omega) hi

mutual

def zero : AbiType → Value
  | .int _ | .uint _ => .num 0
  | .bool => .bool false
  | .string | .bytes => .bytes []
  | .address => .bytes (List.replicate 20 0)
  | .fixedBytes n => .bytes (List.replicate n 0)
  | .function => .bytes (List.replicate 24 0)
  | .slice _ => .seq []
  | .array k e => .seq (List.replicate k (zero e))
  | .tuple ts => .seq (zeros ts)

def zeros : List AbiType → List Value
  | [] => []
  | t :: ts => zero t :: zeros ts

end

mutual

/-- A part that makes the decoder fault: an array with dynamic elements gets an offset of all
ones, a slice or a tuple leads to one. -/
def attack : AbiType → Part
  | .slice e => .remote (word 1 ++ layout [attack e])
  | .tuple ts => .remote (layout (attackAll ts))
  | _ => .inline (List.replicate 32 255)

def attackAll : List AbiType → List Part
  | [] => []
  | t :: ts =>
    if throughout staticElems t then
      partOf (isDynamicType t) (encoding t (zero t)) :: attackAll ts
    else [attack t]

end

theorem hasTypes_zeros (h : ∀ t ∈ ts, hasType t (zero t)) : hasTypes ts (zeros ts) := by
  induction ts with
  | nil => rfl
  | cons t ts ih =>
    obtain ⟨ht, hts⟩ := forall_mem_cons.mp h
    simp [zeros, hasTypes, ht, ih hts]

theorem hasType_zero (t : AbiType) : hasType t (zero t) := by
  induction t using induction with
  | atom t ha => cases t <;> simp_all [isAtom, zero, hasType]
  | slice e _ => simp [zero, hasType]
  | array k e ih => simp [zero, hasType, ih]
  | tuple ts ih =>
    rw [zero, hasType]
    exact hasTypes_zeros ih

theorem mem_zip_zeros {x : AbiType × Value} (h : x ∈ ts.zip (zeros ts)) : x.2 = zero x.1 := by
  induction ts with
  | nil => simp at h
  | cons t ts ih =>
    rcases mem_cons.mp h with rfl | h
    · rfl
    · exact ih h

theorem readable_zero (t : AbiType) : along readableAt t (zero t) := by
  refine along_of (P := fun t v => v = zero t) ?_ ?_ ?_ ?_ rfl
  · rintro t v rfl
    cases t <;> simp [zero, readableAt]
  · rintro e vs h
    simp_all [zero]
  · rintro k e vs h
    simp_all [zero]
  · rintro ts vs h x hx
    cases h
    exact mem_zip_zeros hx

theorem staticElems_of_static (h : isDynamicType t = false) : throughout staticElems t := by
  refine throughout_of_static (fun t h => ?_) h
  cases t <;> simp_all [staticElems, isDynamicType]

theorem attack_headLen (t : AbiType) : (attack t).headLen = 32 := by
  cases t <;> simp [attack, Part.headLen]

def Faults (t : AbiType) : Prop :=
  ∀ buf i, buf.length < 2 ^ 63 → At buf i (attack t) → toGoType t i buf = .fault .bounds

theorem faults_array {k : ℕ} (he : isDynamicType e) : Faults (.array k e) := by
  intro buf i hlen hat
  have hword : readWord i buf = .ok (replicate 32 255) := readWord_of_sits hlen hat rfl
  have hoffset : arrayPointsTo (replicate 32 255) buf = .fault .bounds :=
    if_neg (by decide)
  rw [toGoType, hword, ok_bind, arraySource, if_pos he, hoffset, fault_bind]

theorem faults_slice (hf : formed e) (hsm : small e) (ih : Faults e) : Faults (.slice e) := by
  intro buf i hlen hat
  obtain ⟨o, hword, hsits⟩ := hat
  have hheads : headsLen [attack e] = 32 := by simp [attack_headLen]
  have hcount : 1 ≤ (layout [attack e]).length := by rw [layout_length, hheads]; omega
  have hplace := lengthPrefixPointsTo_of_sits hlen hword hsits hcount
  have hle := hsits.le
  have hwordle := hword.le
  simp only [length_append, word_length] at hle hwordle
  have hrest := (sits_append.mp hsits).2
  rw [word_length] at hrest
  have hdrop := hrest.drop
  have hat : At (buf.drop (o + 32)) 0 (attack e) := (placed_of_layout hdrop).1
  have hspan := hdrop.le
  rw [layout_length, hheads] at hspan
  have hlen' : (buf.drop (o + 32)).length < 2 ^ 63 := by rw [length_drop]; omega
  rw [toGoType, checkWord_of_le hlen hwordle, ok_bind, hplace, ok_bind]
  dsimp only
  rw [sliceFrom_of_le (by omega), ok_bind, forEachUnpack, int64_of_lt (by omega),
    ok_bind, int64_of_lt (by omega), ok_bind, if_neg (by omega),
    allocate_of_le (by rw [Nat.one_mul]; exact goSize_le hf hsm), ok_bind,
    int64_of_lt (small_lt hsm), ok_bind, unpackElems, ih _ _ hlen' hat]
  rfl

theorem unpackAll_faults {buf : Bytes}
    (hf : ∀ t ∈ ts, throughout formed t) (hsized : ∀ t ∈ ts, sized t)
    (hal : ∀ t ∈ ts, throughout aligned t) (hsm : ∀ t ∈ ts, throughout small t)
    (ih : ∀ t ∈ ts, ¬ throughout staticElems t → Faults t)
    (hbad : ∃ t ∈ ts, ¬ throughout staticElems t) (hlen : buf.length < 2 ^ 63)
    (hplaced : Placed buf (pos * 32) (attackAll ts)) : unpackAll ts pos buf = .fault .bounds := by
  induction ts generalizing pos with
  | nil => simp at hbad
  | cons t ts iht =>
    obtain ⟨ft, fts⟩ := forall_mem_cons.mp hf
    obtain ⟨zt, zts⟩ := forall_mem_cons.mp hsized
    obtain ⟨at', ats⟩ := forall_mem_cons.mp hal
    obtain ⟨st, sts⟩ := forall_mem_cons.mp hsm
    obtain ⟨iht', ihts⟩ := forall_mem_cons.mp ih
    rw [attackAll] at hplaced
    by_cases hgood : throughout staticElems t
    · rw [if_pos hgood] at hplaced
      obtain ⟨hat, hrest⟩ := hplaced
      have hle := hat.le
      rw [headLen_encoding ft (hasType_zero t)] at hle hrest
      have htrue : getTypeSize t = headSize t := by simpa [sized] using zt
      have hnext : nextHead t pos = .ok (pos + getTypeSize t / 32) := by
        rw [nextHead_eq (small_lt (throughout_self st)), int64_of_lt (by omega)]
      have hal' := along_of_throughout (fun _ => alignedAt_of_aligned) at' (zero t)
      have hread := reads_of_hasType ft hal' st (hasType_zero t) (readable_zero t) buf _ hlen hat
      have hnext32 : (pos + getTypeSize t / 32) * 32 = pos * 32 + headSize t := by
        rw [headWord_mul, htrue]
      have hbad' : ∃ t ∈ ts, ¬ throughout staticElems t := by
        obtain ⟨s, hs, hsbad⟩ := hbad
        rcases mem_cons.mp hs with rfl | hs
        · exact absurd hgood hsbad
        · exact ⟨s, hs, hsbad⟩
      rw [unpackAll_cons (by omega) hread hnext,
        iht fts zts ats sts ihts hbad' (by rw [hnext32]; exact hrest), fault_bind]
    · rw [if_neg hgood] at hplaced
      obtain ⟨hat, -⟩ := hplaced
      have hle := hat.le
      rw [attack_headLen] at hle
      rw [unpackAll, int64_of_lt (by omega), ok_bind, iht' hgood buf _ hlen hat,
        attempt_fault, fault_bind]

theorem sized_of_bad (hal : aligned (.tuple ts))
    (hbad : ∃ t ∈ ts, ¬ throughout staticElems t) : anyDynamic ts ∧ ∀ t ∈ ts, sized t := by
  have hd : anyDynamic ts := by
    obtain ⟨t, ht, hbad⟩ := hbad
    by_contra hstatic
    rw [Bool.not_eq_true] at hstatic
    exact hbad (staticElems_of_static (anyDynamic_eq_false.mp hstatic t ht))
  rw [aligned, if_pos hd, all_eq_true] at hal
  exact ⟨hd, hal⟩

theorem faults_of_bad (hf : throughout formed t) (hal : throughout aligned t)
    (hsm : throughout small t) (hbad : ¬ throughout staticElems t) : Faults t := by
  induction t using induction with
  | atom t ha => cases t <;> simp_all [isAtom, throughout, staticElems]
  | slice e ih =>
    refine faults_slice (throughout_self (throughout_slice hf))
      (throughout_self (throughout_slice hsm)) (ih (throughout_slice hf) (throughout_slice hal)
      (throughout_slice hsm) ?_)
    simpa [throughout, staticElems] using hbad
  | array k e ih =>
    apply faults_array
    by_contra hstatic
    rw [Bool.not_eq_true] at hstatic
    exact hbad (staticElems_of_static (t := .array k e) hstatic)
  | tuple ts ih =>
    have hbad' : ∃ t ∈ ts, ¬ throughout staticElems t := by
      by_contra hnone
      apply hbad
      rw [throughout, Bool.and_eq_true, throughoutAll_iff]
      exact ⟨rfl, fun t ht => by_contra fun h => hnone ⟨t, ht, h⟩⟩
    obtain ⟨hd, hsized⟩ := sized_of_bad (throughout_self hal) hbad'
    intro buf i hlen hat
    obtain ⟨o, hword, hsits⟩ := hat
    have hle := hsits.le
    have hfields : unpackAll ts 0 (buf.drop o) = .fault .bounds := by
      apply unpackAll_faults (throughout_tuple hf) hsized (throughout_tuple hal)
        (throughout_tuple hsm) (fun t ht => ih t ht (throughout_tuple hf t ht)
        (throughout_tuple hal t ht) (throughout_tuple hsm t ht)) hbad'
      · rw [length_drop]
        omega
      · rw [Nat.zero_mul]
        exact placed_of_layout hsits.drop
    rw [toGoType, readWord_of_sits hlen hword (word_length o), ok_bind, tupleStart,
      if_pos hd, tuplePointsTo_of_sits hlen hword (by omega), ok_bind, sliceFrom_of_le (by omega),
      ok_bind, allocate_of_le (goSize_le (throughout_self hf) (throughout_self hsm)), ok_bind,
      hfields, fault_bind]

def Arguments.types (args : List Argument) : List AbiType :=
  (Arguments.nonIndexed args).map Argument.type

/-- `n` bytes fit a machine, with the slices that can be read from them. -/
def Arguments.Fits (args : List Argument) (n : ℕ) : Prop :=
  32 * n < 2 ^ 63 ∧ ∀ t ∈ Arguments.types args, throughout (roomy n) t

theorem unpackValues_safe {args : List Argument} {data : Bytes}
    (hw : ∀ t ∈ Arguments.types args, throughout wordBytes t)
    (hsm : ∀ t ∈ Arguments.types args, throughout small t)
    (hst : ∀ t ∈ Arguments.types args, throughout staticElems t)
    (hfits : Arguments.Fits args data.length) : (Arguments.unpackValues args data).Safe := by
  obtain ⟨hlen, hroom⟩ := hfits
  apply unpackAll_safe (fun t ht => throughout_self (hsm t ht))
  · exact fun t ht i hi => toGoType_safe (hw t ht) (hsm t ht) (hst t ht) (hroom t ht) hlen hi
  · exact hlen
  · omega

theorem unpackValues_faults {args : List Argument}
    (hf : ∀ t ∈ Arguments.types args, throughout formed t)
    (hal : throughout aligned (.tuple (Arguments.types args)))
    (hsm : ∀ t ∈ Arguments.types args, throughout small t)
    (hbad : ∃ t ∈ Arguments.types args, ¬ throughout staticElems t)
    (hlen : (layout (attackAll (Arguments.types args))).length < 2 ^ 63) :
    Arguments.unpackValues args (layout (attackAll (Arguments.types args))) = .fault .bounds := by
  have hsized := (sized_of_bad (throughout_self hal) hbad).2
  apply unpackAll_faults hf hsized (throughout_tuple hal) hsm
  · exact fun t ht => faults_of_bad (hf t ht) (throughout_tuple hal t ht) (hsm t ht)
  · exact hbad
  · exact hlen
  · rw [Nat.zero_mul]
    exact placed_of_layout (sits_self _)

/-- Types without an array of dynamic elements are unpacked without a fault from any data that
fits. Where the sizes of the types are right, they are the only ones. -/
theorem unpackValues_total_iff (args : List Argument)
    (hw : ∀ t ∈ Arguments.types args, throughout wordBytes t)
    (hsm : ∀ t ∈ Arguments.types args, throughout small t) :
    ((∀ t ∈ Arguments.types args, throughout staticElems t) →
      ∀ data : Bytes, Arguments.Fits args data.length → (Arguments.unpackValues args data).Safe) ∧
    ((∀ t ∈ Arguments.types args, throughout formed t) →
      throughout aligned (.tuple (Arguments.types args)) →
      Arguments.Fits args (layout (attackAll (Arguments.types args))).length →
      ((∀ data : Bytes, Arguments.Fits args data.length → (Arguments.unpackValues args data).Safe) ↔
        ∀ t ∈ Arguments.types args, throughout staticElems t)) := by
  refine ⟨fun hst data => unpackValues_safe hw hsm hst, fun hf hal hfits => ⟨?_, ?_⟩⟩
  · intro hsafe t ht
    by_contra hbad
    have h := hsafe _ hfits
    have hlen := hfits.1
    rw [unpackValues_faults hf hal hsm ⟨t, ht, hbad⟩ (by omega)] at h
    exact h
  · exact fun hst data => unpackValues_safe hw hsm hst

/-- Two to the thirty bytes are a gigabyte. -/
theorem unpackValues_total_pairs : (∀ data : Bytes, data.length ≤ 2 ^ 30 →
      (Arguments.unpackValues [⟨.slice (.tuple [.uint 256, .bytes]), false⟩] data).Safe) ∧
    ¬ ∀ data : Bytes,
      Arguments.Fits [⟨.bool, false⟩, ⟨.slice (.array 2 .string), false⟩] data.length →
      (Arguments.unpackValues [⟨.bool, false⟩, ⟨.slice (.array 2 .string), false⟩] data).Safe := by
  constructor
  · intro data hlen
    apply (unpackValues_total_iff [⟨.slice (.tuple [.uint 256, .bytes]), false⟩] (by decide)
      (by decide)).1 (by decide)
    refine ⟨by omega, forall_mem_singleton.mpr ?_⟩
    have hpair : goSize (.tuple [.uint 256, .bytes]) = 32 := by decide
    simp [throughout, throughoutAll, roomy, hpair, maxAlloc]
    omega
  · rw [((unpackValues_total_iff [⟨.bool, false⟩, ⟨.slice (.array 2 .string), false⟩] (by decide)
      (by decide)).2 (by decide) (by decide) (by unfold Arguments.Fits; decide +kernel))]
    decide

-- a `uint8[2 ^ 50][]` of one element
set_option maxRecDepth 20000 in
example : Arguments.unpackValues [⟨.slice (.array (2 ^ 50) (.uint 8)), false⟩]
    (word 32 ++ word 1 ++ List.replicate 64 0) = .fault .memory := rfl

/-- An offset of all ones for a `string[2]`. -/
theorem string_array_offset_faults :
    Arguments.unpackValues [⟨.array 2 .string, false⟩] (List.replicate 32 255) =
      .fault .bounds := rfl

end Fiscobcos.Abi
