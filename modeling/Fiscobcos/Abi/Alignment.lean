import Fiscobcos.Abi.RoundTrip

/-! # Where the round trip needs alignment

For static types the decoder reads a prefix whose length depends on the types alone (`reach`). If a
size it uses is too small, that prefix ends before the last word. -/

namespace Fiscobcos.Abi
open Arguments
open Checked.Outcome

open Fiscobcos.Numerals Fiscobcos.Checked Fiscobcos.HeadTail
open AbiType (throughout throughout_self throughout_slice throughout_array
  throughout_tuple isSlice isArray isAtom)

mutual

def reach : AbiType → ℕ
  | .array k e => (k - 1) * getTypeSize e + reach e
  | .tuple ts => reachAll ts
  | _ => 32

def reachAll : List AbiType → ℕ
  | [] => 0
  | t :: ts => max (reach t) (getTypeSize t + reachAll ts)

end

def Agree (n : ℕ) (a b : Bytes) : Prop := a.length = b.length ∧ a.take n = b.take n

variable {a b : Bytes} {i n : ℕ}

theorem Agree.mono {m : ℕ} (h : Agree n a b) (hm : m ≤ n) : Agree m a b := by
  refine ⟨h.1, ?_⟩
  have htake := congrArg (List.take m) h.2
  rwa [List.take_take, List.take_take, Nat.min_eq_left hm] at htake

theorem Agree.drop (h : Agree (i + n) a b) : Agree n (a.drop i) (b.drop i) := by
  refine ⟨by rw [List.length_drop, List.length_drop, h.1], ?_⟩
  rw [List.take_drop, List.take_drop, h.2]

theorem Agree.readWord (h : Agree (i + 32) a b) : readWord i a = readWord i b := by
  have hcheck : checkWord i a = checkWord i b := by rw [checkWord, checkWord, h.1]
  rw [Abi.readWord, Abi.readWord, hcheck]
  cases hstop : checkWord i b with
  | ok stop =>
    rw [ok_bind, ok_bind, slice, slice, (checkWord_ok hstop).1, h.1, h.2]
  | err e | fault f => rfl

theorem unpackElems_congr {f g : ℕ → Outcome AbiError Value} {step count : ℕ}
    (h : ∀ m < count, f (i + m * step) = g (i + m * step)) :
    unpackElems f step count i = unpackElems g step count i := by
  induction count generalizing i with
  | zero => rfl
  | succ count ih =>
    have hfirst := h 0 (by omega)
    rw [Nat.zero_mul, Nat.add_zero] at hfirst
    have hrest : unpackElems f step count (i + step) = unpackElems g step count (i + step) := by
      apply ih
      intro m hm
      have hnext := h (m + 1) (by omega)
      rwa [show i + (m + 1) * step = i + step + m * step by ring] at hnext
    rw [unpackElems, unpackElems, hfirst]
    congr 1
    funext v
    unfold int64
    split
    · rw [ok_bind, ok_bind, hrest]
    · rfl

variable {e t : AbiType} {ts : List AbiType} {vs : List Value}

theorem forEachUnpack_congr {f g : ℕ → Outcome AbiError Value} {size : ℕ}
    (hlen : a.length = b.length) (h : ∀ m < size, f (m * getTypeSize e) = g (m * getTypeSize e)) :
    forEachUnpack e f a 0 size = forEachUnpack e g b 0 size := by
  have hloop : unpackElems f (getTypeSize e) size 0 = unpackElems g (getTypeSize e) size 0 :=
    unpackElems_congr fun m hm => by rw [Nat.zero_add]; exact h m hm
  rw [forEachUnpack, forEachUnpack, hlen]
  congr 1
  funext span
  congr 1
  funext stop
  split
  · rfl
  · congr 1
    funext _
    unfold int64
    split
    · rw [ok_bind, ok_bind, hloop]
    · rfl

theorem reachAll_ge (h : ∀ t ∈ ts, 32 ≤ reach t) (hne : ts ≠ []) : 32 ≤ reachAll ts := by
  cases ts with
  | nil => exact absurd rfl hne
  | cons t ts => exact le_max_of_le_left (h t List.mem_cons_self)

theorem reach_ge (h : throughout formed t) : 32 ≤ reach t := by
  induction t using AbiType.induction with
  | atom t ha => cases t <;> simp_all [isAtom, reach]
  | slice e _ => exact le_refl 32
  | array k e ih => exact le_add_of_le_right (ih (throughout_array h))
  | tuple ts ih =>
    have hne : ts ≠ [] := by simpa [formed] using throughout_self h
    exact reachAll_ge (fun t ht => ih t ht (throughout_tuple h t ht)) hne

theorem unpackAll_congr {pos : ℕ}
    (ih : ∀ t ∈ ts, ∀ i, Agree (i + reach t) a b → toGoType t i a = toGoType t i b)
    (h : Agree (pos * 32 + reachAll ts) a b) : unpackAll ts pos a = unpackAll ts pos b := by
  induction ts generalizing pos with
  | nil => rw [unpackAll, unpackAll]
  | cons t ts iht =>
    obtain ⟨iht', ihts⟩ := List.forall_mem_cons.mp ih
    rw [reachAll] at h
    have hfirst : toGoType t (pos * 32) a = toGoType t (pos * 32) b :=
      iht' _ (h.mono (by omega))
    rw [unpackAll, unpackAll]
    unfold int64
    split
    · rw [ok_bind, ok_bind, hfirst]
      congr 1
      funext marshalled
      cases hnext : nextHead t pos with
      | ok next =>
        have hpos := nextHead_ok hnext
        rw [ok_bind, ok_bind, iht ihts (h.mono (by omega))]
      | err e => rfl
      | fault f => rfl
    · rfl

theorem toGoType_congr (hf : throughout formed t) (hd : isDynamicType t = false)
    (h : Agree (i + reach t) a b) : toGoType t i a = toGoType t i b := by
  have hword := (h.mono (Nat.add_le_add_left (reach_ge hf) i)).readWord
  have hdrop := h.drop
  induction t using AbiType.induction generalizing i a b with
  | atom t ha => cases t <;> simp_all [isAtom, isDynamicType, toGoType]
  | slice e _ => simp [isDynamicType] at hd
  | array k e ih =>
    have he : isDynamicType e = false := hd
    rw [toGoType, toGoType, hword]
    congr 1
    funext w
    rw [arraySource, arraySource, he, if_neg (by simp), if_neg (by simp)]
    rcases Nat.lt_or_ge a.length i with hlt | hle
    · rw [sliceFrom_of_lt hlt, sliceFrom_of_lt (h.1 ▸ hlt)]
    · rw [sliceFrom_of_le hle, sliceFrom_of_le (h.1 ▸ hle), ok_bind, ok_bind]
      apply forEachUnpack_congr hdrop.1
      intro m hm
      have hmul : m * getTypeSize e ≤ (k - 1) * getTypeSize e := Nat.mul_le_mul_right _ (by omega)
      rw [reach] at hdrop
      have hat : Agree (m * getTypeSize e + reach e) (a.drop i) (b.drop i) := hdrop.mono (by omega)
      exact ih (throughout_array hf) he hat
        (hat.mono (Nat.add_le_add_left (reach_ge (throughout_array hf)) _)).readWord hat.drop
  | tuple ts ih =>
    have hts : anyDynamic ts = false := hd
    rw [toGoType, toGoType, hword]
    congr 1
    funext w
    rw [tupleStart, tupleStart, hts, if_neg (by simp), if_neg (by simp), ok_bind,
      ok_bind]
    rcases Nat.lt_or_ge a.length i with hlt | hle
    · rw [sliceFrom_of_lt hlt, sliceFrom_of_lt (h.1 ▸ hlt)]
    · rw [sliceFrom_of_le hle, sliceFrom_of_le (h.1 ▸ hle), ok_bind, ok_bind]
      have hall : unpackAll ts 0 (a.drop i) = unpackAll ts 0 (b.drop i) := by
        apply unpackAll_congr
        · intro t ht j hat
          have hft := throughout_tuple hf t ht
          exact ih t ht hft (anyDynamic_eq_false.mp hts t ht) hat
            (hat.mono (Nat.add_le_add_left (reach_ge hft) j)).readWord hat.drop
        · rw [Nat.zero_mul, Nat.zero_add]
          exact hdrop
      rw [hall]

theorem getTypeSize_ge (h : throughout formed t) : 32 ≤ getTypeSize t := by
  induction t using AbiType.induction with
  | atom t ha => rw [getTypeSize_atom ha]
  | slice e _ => exact le_refl 32
  | array k e ih =>
    have hk : 0 < k := by simpa [formed] using throughout_self h
    rw [getTypeSize]
    split_ifs
    · exact le_refl 32
    · exact le_trans (ih (throughout_array h)) (Nat.le_mul_of_pos_left _ hk)
    · exact Nat.le_mul_of_pos_left 32 hk
  | tuple ts ih =>
    have hne : ts ≠ [] := by simpa [formed] using throughout_self h
    rw [getTypeSize]
    split_ifs
    · exact le_refl 32
    · cases ts with
      | nil => exact absurd rfl hne
      | cons t ts => exact le_add_right (ih t (by simp) (throughout_tuple h t (by simp)))

theorem array_succ {k : ℕ} (h : throughout formed (.array k e)) : ∃ m, k = m + 1 := by
  have hk : 0 < k := by simpa [formed] using throughout_self h
  exact ⟨k - 1, by omega⟩

theorem totalSize_le_reachAll (h : ∀ t ∈ ts, getTypeSize t ≤ reach t) :
    totalSize ts ≤ reachAll ts := by
  induction ts with
  | nil => exact le_refl 0
  | cons t ts ih =>
    obtain ⟨-, hts⟩ := List.forall_mem_cons.mp h
    exact le_max_of_le_right (Nat.add_le_add_left (ih hts) _)

theorem getTypeSize_le_reach (hf : throughout formed t)
    (hd : isDynamicType t = false) : getTypeSize t ≤ reach t := by
  induction t using AbiType.induction with
  | atom t ha => rw [getTypeSize_atom ha]; exact reach_ge hf
  | slice e _ => simp [isDynamicType] at hd
  | array k e ih =>
    have he : isDynamicType e = false := hd
    obtain ⟨m, rfl⟩ := array_succ hf
    have hreach := ih (throughout_array hf) he
    have hge := getTypeSize_ge (throughout_array hf)
    have hmul := Nat.mul_le_mul_left m hge
    rw [getTypeSize, reach, he, if_neg (by simp), Nat.add_sub_cancel, Nat.succ_mul, Nat.succ_mul]
    split <;> omega
  | tuple ts ih =>
    have hts : anyDynamic ts = false := hd
    rw [getTypeSize, hts, if_neg (by simp)]
    exact totalSize_le_reachAll fun t ht =>
      ih t ht (throughout_tuple hf t ht) (anyDynamic_eq_false.mp hts t ht)

theorem reachAll_le (hf : ∀ t ∈ ts, throughout formed t)
    (h : ∀ t ∈ ts, reach t ≤ headSize t) : reachAll ts ≤ totalHeadSize ts := by
  induction ts with
  | nil => exact le_refl 0
  | cons t ts ih =>
    obtain ⟨ft, fts⟩ := List.forall_mem_cons.mp hf
    obtain ⟨ht, hts⟩ := List.forall_mem_cons.mp h
    have hsize := getTypeSize_le ft
    have hrest := ih fts hts
    rw [reachAll, totalHeadSize]
    omega

theorem reach_le (hf : throughout formed t) (hd : isDynamicType t = false) :
    reach t ≤ headSize t := by
  induction t using AbiType.induction with
  | atom t ha => cases t <;> simp_all [isAtom, reach, headSize]
  | slice e _ => simp [isDynamicType] at hd
  | array k e ih =>
    have he : isDynamicType e = false := hd
    obtain ⟨m, rfl⟩ := array_succ hf
    have hreach := ih (throughout_array hf) he
    have hmul := Nat.mul_le_mul_left m (getTypeSize_le (throughout_array hf))
    rw [headSize, reach, he, if_neg (by simp), Nat.add_sub_cancel, Nat.succ_mul]
    omega
  | tuple ts ih =>
    have hts : anyDynamic ts = false := hd
    rw [headSize, reach, hts, if_neg (by simp)]
    exact reachAll_le (throughout_tuple hf) fun t ht =>
      ih t ht (throughout_tuple hf t ht) (anyDynamic_eq_false.mp hts t ht)

theorem sized_of_totalSize (hf : ∀ t ∈ ts, throughout formed t)
    (h : totalHeadSize ts ≤ totalSize ts) : ∀ t ∈ ts, sized t := by
  induction ts with
  | nil => exact List.forall_mem_nil _
  | cons t ts ih =>
    obtain ⟨ft, fts⟩ := List.forall_mem_cons.mp hf
    have hsize := getTypeSize_le ft
    have hrest := totalSize_le fun s hs => getTypeSize_le (fts s hs)
    rw [totalHeadSize, totalSize] at h
    refine List.forall_mem_cons.mpr ⟨?_, ih fts (by omega)⟩
    rw [sized, decide_eq_true_eq]
    omega

theorem aligned_of_sized (hf : throughout formed t) (hd : isDynamicType t = false)
    (h : sized t) : throughout aligned t := by
  induction t using AbiType.induction with
  | atom t ha => cases t <;> simp_all [isAtom, throughout, aligned]
  | slice e _ => simp [isDynamicType] at hd
  | array k e ih =>
    have he : isDynamicType e = false := hd
    obtain ⟨m, rfl⟩ := array_succ hf
    have hle := getTypeSize_le (throughout_array hf)
    have hge := getTypeSize_ge (throughout_array hf)
    have hsized : sized e := by
      simp only [sized, decide_eq_true_eq, getTypeSize, headSize, he, Bool.false_eq_true,
        if_false] at h ⊢
      split at h
      · exact Nat.eq_of_mul_eq_mul_left (Nat.succ_pos m) h
      · have hword := Nat.eq_of_mul_eq_mul_left (Nat.succ_pos m) h
        omega
    rw [throughout, Bool.and_eq_true]
    exact ⟨by simp [aligned, hsized], ih (throughout_array hf) he hsized⟩
  | tuple ts ih =>
    have hts : anyDynamic ts = false := hd
    rw [sized, decide_eq_true_eq, getTypeSize, headSize, hts, if_neg (by simp),
      if_neg (by simp)] at h
    have hsized := sized_of_totalSize (throughout_tuple hf) h.ge
    rw [throughout, Bool.and_eq_true, AbiType.throughoutAll_iff, aligned, hts, if_neg (by simp),
      List.all_eq_true]
    exact ⟨fun t ht => hsized t (List.mem_of_mem_dropLast ht), fun t ht =>
      ih t ht (throughout_tuple hf t ht) (anyDynamic_eq_false.mp hts t ht) (hsized t ht)⟩

theorem alignedAll_of_reachAll (hf : ∀ t ∈ ts, throughout formed t)
    (hd : ∀ t ∈ ts, isDynamicType t = false)
    (ih : ∀ t ∈ ts, headSize t ≤ reach t → throughout aligned t)
    (h : totalHeadSize ts ≤ reachAll ts) :
    (∀ t ∈ ts, throughout aligned t) ∧ ∀ t ∈ ts.dropLast, sized t := by
  induction ts with
  | nil => exact ⟨List.forall_mem_nil _, List.forall_mem_nil _⟩
  | cons t ts iht =>
    obtain ⟨ft, fts⟩ := List.forall_mem_cons.mp hf
    obtain ⟨dt, dts⟩ := List.forall_mem_cons.mp hd
    obtain ⟨iht', ihts⟩ := List.forall_mem_cons.mp ih
    rw [totalHeadSize, reachAll] at h
    have hsize := getTypeSize_le ft
    have hreach := reach_le ft dt
    cases ts with
    | nil =>
      have hself := getTypeSize_le_reach ft dt
      rw [totalHeadSize, reachAll] at h
      exact ⟨List.forall_mem_singleton.mpr (iht' (by omega)), List.forall_mem_nil _⟩
    | cons t' ts =>
      have hmore := totalHeadSize_ge (fun s hs => headSize_ge (fts s hs)) (List.cons_ne_nil t' ts)
      have hrest := reachAll_le fts fun s hs => reach_le (fts s hs) (dts s hs)
      -- another field follows, so the first one alone does not reach the end
      have hsized : sized t := by
        rw [sized, decide_eq_true_eq]
        omega
      obtain ⟨hal, hdrop⟩ := iht fts dts ihts (by omega)
      rw [List.dropLast_cons_cons]
      exact ⟨List.forall_mem_cons.mpr ⟨aligned_of_sized ft dt hsized, hal⟩,
        List.forall_mem_cons.mpr ⟨hsized, hdrop⟩⟩

theorem aligned_of_reach (hf : throughout formed t) (hd : isDynamicType t = false)
    (h : headSize t ≤ reach t) : throughout aligned t := by
  induction t using AbiType.induction with
  | atom t ha => cases t <;> simp_all [isAtom, throughout, aligned]
  | slice e _ => simp [isDynamicType] at hd
  | array k e ih =>
    have he : isDynamicType e = false := hd
    obtain ⟨m, rfl⟩ := array_succ hf
    have hsize := getTypeSize_le (throughout_array hf)
    have hreach := reach_le (throughout_array hf) he
    have hmul := Nat.mul_le_mul_left m hsize
    rw [headSize, reach, he, if_neg (by simp), Nat.add_sub_cancel, Nat.succ_mul] at h
    rw [throughout, Bool.and_eq_true, aligned, Bool.or_eq_true, decide_eq_true_eq]
    refine ⟨?_, ih (throughout_array hf) he (by omega)⟩
    cases m with
    | zero => exact .inl rfl
    | succ m =>
      have heq : getTypeSize e = headSize e :=
        Nat.eq_of_mul_eq_mul_left (show 0 < m + 1 by omega) (by omega)
      exact .inr (by rw [sized, decide_eq_true_eq]; exact heq)
  | tuple ts ih =>
    have hts : anyDynamic ts = false := hd
    rw [headSize, reach, hts, if_neg (by simp)] at h
    obtain ⟨hal, hdrop⟩ := alignedAll_of_reachAll (throughout_tuple hf) (anyDynamic_eq_false.mp hts)
      (fun t ht => ih t ht (throughout_tuple hf t ht) (anyDynamic_eq_false.mp hts t ht)) h
    rw [throughout, Bool.and_eq_true, AbiType.throughoutAll_iff, aligned, hts, if_neg (by simp),
      List.all_eq_true]
    exact ⟨hdrop, hal⟩

theorem reachAll_dvd (h : ∀ t ∈ ts, 32 ∣ reach t) : 32 ∣ reachAll ts := by
  induction ts with
  | nil => exact dvd_zero 32
  | cons t ts ih =>
    obtain ⟨ht, hts⟩ := List.forall_mem_cons.mp h
    have hsum := dvd_add (getTypeSize_dvd t) (ih hts)
    rw [reachAll]
    rcases max_choice (reach t) (getTypeSize t + reachAll ts) with hm | hm
    · rwa [hm]
    · rwa [hm]

theorem reach_dvd (t : AbiType) : 32 ∣ reach t := by
  induction t using AbiType.induction with
  | atom t ha => cases t <;> simp_all [isAtom, reach]
  | slice e _ => exact dvd_refl 32
  | array k e ih => exact dvd_add (Dvd.dvd.mul_left (getTypeSize_dvd e) _) ih
  | tuple ts ih => exact reachAll_dvd ih

theorem totalHeadSize_dvd (h : ∀ t ∈ ts, 32 ∣ headSize t) : 32 ∣ totalHeadSize ts := by
  induction ts with
  | nil => exact dvd_zero 32
  | cons t ts ih =>
    obtain ⟨ht, hts⟩ := List.forall_mem_cons.mp h
    exact dvd_add ht (ih hts)

theorem headSize_dvd (t : AbiType) : 32 ∣ headSize t := by
  induction t using AbiType.induction with
  | atom t ha => rw [headSize_atom ha]
  | slice e _ => exact dvd_refl 32
  | array k e ih =>
    rw [headSize]
    split
    · exact dvd_refl 32
    · exact Dvd.dvd.mul_left ih k
  | tuple ts ih =>
    rw [headSize]
    split
    · exact dvd_refl 32
    · exact totalHeadSize_dvd ih

def LastWord (a b : Bytes) : Prop :=
  ∃ common w w', a = common ++ w ∧ b = common ++ w' ∧ w.length = 32 ∧ w'.length = 32

theorem LastWord.append {x y : Bytes} (h : LastWord x y) (bs : Bytes) :
    LastWord (bs ++ x) (bs ++ y) := by
  obtain ⟨common, w, w', rfl, rfl, hw, hw'⟩ := h
  exact ⟨bs ++ common, w, w', by simp, by simp, hw, hw'⟩

theorem lastWord_words {w w' : Bytes} (hw : w.length = 32) (hw' : w'.length = 32) : LastWord w w' :=
  ⟨[], w, w', rfl, rfl, hw, hw'⟩

theorem LastWord.agree (h : LastWord a b) (hn : n + 32 ≤ a.length) : Agree n a b := by
  obtain ⟨common, w, w', rfl, rfl, hw, hw'⟩ := h
  rw [List.length_append] at hn
  refine ⟨by rw [List.length_append, List.length_append, hw, hw'], ?_⟩
  rw [List.take_append_of_le_length (by omega), List.take_append_of_le_length (by omega)]

structure Twins (t : AbiType) (v v' : Value) : Prop where
  left : hasType t v ∧ along readableAt t v
  right : hasType t v' ∧ along readableAt t v'
  ne : v ≠ v'
  last : LastWord (encoding t v) (encoding t v')

theorem twins_atom (ha : t.isAtom) (hf : formed t) (hd : isDynamicType t = false) :
    ∃ v v', Twins t v v' := by
  obtain ⟨v, v', hv, hv', hr, hr', hne⟩ : ∃ v v', hasType t v ∧ hasType t v' ∧ readableAt t v ∧
      readableAt t v' ∧ v ≠ v' := by
    cases t with
    | int n =>
      have hpow : (1 : ℤ) ≤ 2 ^ (n - 1) := one_le_pow₀ (by norm_num)
      refine ⟨.num 0, .num (-1), ?_, ?_, by simp [readableAt], by simp [readableAt], by simp⟩
      · simp [hasType]
      · simp only [hasType, Bool.and_eq_true, decide_eq_true_eq]
        omega
    | uint n =>
      have hpow : (1 : ℤ) < 2 ^ n := one_lt_pow₀ (by norm_num) (by simp [formed] at hf; omega)
      refine ⟨.num 0, .num 1, ?_, ?_, by simp [readableAt], by simp [readableAt], by simp⟩
      · simp [hasType]
      · simpa [hasType] using hpow
    | bool => exact ⟨.bool false, .bool true, rfl, rfl, rfl, rfl, by simp⟩
    | address =>
      exact ⟨.bytes (List.replicate 20 0), .bytes (List.replicate 20 1), rfl, rfl, rfl, rfl,
        by simp⟩
    | fixedBytes n =>
      have hn : n ≠ 0 := by simp [formed] at hf; omega
      exact ⟨.bytes (List.replicate n 0), .bytes (List.replicate n 1), by simp [hasType],
        by simp [hasType], rfl, rfl, by simp [hn]⟩
    | function =>
      exact ⟨.bytes (List.replicate 24 0), .bytes (List.replicate 24 1), rfl, rfl, rfl, rfl,
        by simp⟩
    | string | bytes => simp [isDynamicType] at hd
    | slice e | array k e | tuple ts => simp [isAtom] at ha
  refine ⟨v, v', ⟨hv, (along_atom ha v).trans hr⟩, ⟨hv', (along_atom ha v').trans hr'⟩, hne, ?_⟩
  rw [encoding_atom ha, encoding_atom ha]
  exact lastWord_words (packElement_length ha hd hf hv) (packElement_length ha hd hf hv')

theorem encoding_array {k : ℕ} (he : isDynamicType e = false) (vs : List Value) :
    encoding (.array k e) (.seq vs) = vs.flatMap (encoding e) := by
  rw [encoding, (map_inline he _ vs).layout, List.flatMap_map]
  simp only [he]
  rfl

theorem twins_fields (hts : anyDynamic ts = false) (hne : ts ≠ [])
    (ih : ∀ t ∈ ts, ∃ v v', Twins t v v') : ∃ vs vs', (hasTypes ts vs ∧ alongAll readableAt ts vs) ∧
      (hasTypes ts vs' ∧ alongAll readableAt ts vs') ∧ vs ≠ vs' ∧
      LastWord (layout (parts ts vs)) (layout (parts ts vs')) := by
  induction ts with
  | nil => exact absurd rfl hne
  | cons t ts iht =>
    obtain ⟨⟨v, v', htw⟩, ihts⟩ := List.forall_mem_cons.mp ih
    rw [anyDynamic, Bool.or_eq_false_iff] at hts
    have hcons : ∀ v vs,
        layout (parts (t :: ts) (v :: vs)) = encoding t v ++ layout (parts ts vs) := by
      intro v vs
      have hd : anyDynamic (t :: ts) = false := by rw [anyDynamic, hts.1, hts.2]; rfl
      rw [(parts_inline hd _).layout, (parts_inline hts.2 _).layout, parts, List.flatMap_cons,
        hts.1]
      rfl
    rcases eq_or_ne ts [] with rfl | hmore
    · refine ⟨[v], [v'], ?_, ?_, by simpa using htw.ne, ?_⟩
      · simp [hasTypes, alongAll, htw.left]
      · simp [hasTypes, alongAll, htw.right]
      · rw [hcons, hcons]
        simpa [parts, layout, heads, tails] using htw.last
    · obtain ⟨vs, vs', hvs, hvs', hne, hlast⟩ := iht hts.2 hmore ihts
      refine ⟨v :: vs, v :: vs', ?_, ?_, by simpa using hne, ?_⟩
      · simp [hasTypes, alongAll, htw.left, hvs]
      · simp [hasTypes, alongAll, htw.left, hvs']
      · rw [hcons, hcons]
        exact hlast.append _

theorem twins (hf : throughout formed t) (hd : isDynamicType t = false) : ∃ v v', Twins t v v' := by
  induction t using AbiType.induction with
  | atom t ha => exact twins_atom ha (throughout_self hf) hd
  | slice e _ => simp [isDynamicType] at hd
  | array k e ih =>
    have he : isDynamicType e = false := hd
    obtain ⟨m, rfl⟩ := array_succ hf
    obtain ⟨v, v', htw⟩ := ih (throughout_array hf) he
    refine ⟨.seq (List.replicate m v ++ [v]), .seq (List.replicate m v ++ [v']), ?_, ?_, ?_, ?_⟩
    · simp [hasType, along, readableAt, htw.left]
    · simp [hasType, along, readableAt, htw.left, htw.right]
    · simpa using htw.ne
    · rw [encoding_array he, encoding_array he, List.flatMap_append, List.flatMap_append]
      simpa using htw.last.append _
  | tuple ts ih =>
    have hts : anyDynamic ts = false := hd
    have hne : ts ≠ [] := by simpa [formed] using throughout_self hf
    obtain ⟨vs, vs', hvs, hvs', hne, hlast⟩ := twins_fields hts hne fun t ht =>
      ih t ht (throughout_tuple hf t ht) (anyDynamic_eq_false.mp hts t ht)
    refine ⟨.seq vs, .seq vs', by simpa [hasType, along, readableAt] using hvs,
      by simpa [hasType, along, readableAt] using hvs', by simpa using hne, ?_⟩
    rw [encoding, encoding]
    exact hlast

theorem packable_of_static (hd : isDynamicType t = false) (v : Value) : along packableAt t v := by
  refine along_of_throughout (r := fun t => !isDynamicType t) ?_ ?_ v
  · intro t v h
    cases t <;> simp_all [packableAt, isDynamicType]
  · exact throughout_of_static (fun t h => by simp [h]) hd

theorem offsets_of_static (hd : isDynamicType t = false) (v : Value) :
    along (fun t _ => trueOffsets t) t v :=
  along_of_throughout (fun _ _ h => h) (throughout_of_static trueOffsets_of_static hd) v

def Arguments.ofTypes (ts : List AbiType) : List Argument := ts.map fun t => ⟨t, false⟩

def RoundTrips (ts : List AbiType) (vs : List Value) : Prop :=
  ∃ data, Arguments.pack (Arguments.ofTypes ts) vs = .ok data ∧
    Arguments.unpackValues (Arguments.ofTypes ts) data = .ok vs

@[simp] theorem Arguments.map_type_ofTypes (ts : List AbiType) :
    (ofTypes ts).map Argument.type = ts := by
  simp [ofTypes, Function.comp_def]

theorem Arguments.unpackValues_ofTypes (ts : List AbiType) (data : Bytes) :
    unpackValues (ofTypes ts) data = unpackAll ts 0 data := by
  have hall : nonIndexed (ofTypes ts) = ofTypes ts := by
    simp [nonIndexed, ofTypes]
  rw [unpackValues, hall, map_type_ofTypes]

theorem Arguments.pack_ofTypes (hf : ∀ t ∈ ts, throughout formed t)
    (hoff : along (fun t _ => trueOffsets t) (.tuple ts) (.seq vs))
    (hsm : throughout small (.tuple ts)) (hvs : hasTypes ts vs)
    (hp : along packableAt (.tuple ts) (.seq vs)) (hlen : (layout (parts ts vs)).length < 2 ^ 63) :
    pack (ofTypes ts) vs = .ok (layout (parts ts vs)) := by
  have h := @Arguments.pack_eq vs (ofTypes ts)
  rw [map_type_ofTypes] at h
  exact h hf hoff hsm hvs hp hlen

theorem Arguments.packable_of_pack {data : Bytes} (h : pack (ofTypes ts) vs = .ok data) :
    along packableAt (.tuple ts) (.seq vs) := by
  rw [pack, map_type_ofTypes] at h
  split at h
  · cases h
  · exact along_packableAt_of_pack ⟨data, by rw [Abi.pack]; exact h⟩

theorem layout_parts_le (hf : ∀ t ∈ ts, throughout formed t)
    (hvs : hasTypes ts vs) : totalHeadSize ts ≤ (layout (parts ts vs)).length := by
  rw [layout_length, headsLen_parts (fun t ht v hv => headLen_encoding (hf t ht) hv) hvs]
  omega

theorem roundTrips_of_aligned
    (hf : ∀ t ∈ ts, throughout formed t) (hsm : throughout small (.tuple ts))
    (hal : along alignedAt (.tuple ts) (.seq vs)) (hvs : hasTypes ts vs)
    (hlen : (layout (parts ts vs)).length < 2 ^ 63) (hp : along packableAt (.tuple ts) (.seq vs))
    (hr : along readableAt (.tuple ts) (.seq vs)) : RoundTrips ts vs := by
  have hoff := along_mono (fun _ => trueOffsets_of_aligned) hal
  refine ⟨_, pack_ofTypes hf hoff hsm hvs hp hlen, ?_⟩
  rw [unpackValues_ofTypes]
  refine unpackAll_eq hf (fun t ht => throughout_self (throughout_tuple hsm t ht))
    (sized_dropLast (along_self hal)) (fun x hx => ?_) hvs hlen ?_ ?_
  · have ht := (List.of_mem_zip hx).1
    exact reads_of_hasType (hf x.1 ht) ((along_tuple.mp hal).2 x hx) (throughout_tuple hsm x.1 ht)
      (hasTypes_mem hvs x hx) ((along_tuple.mp hr).2 x hx)
  · rw [Nat.zero_mul]
    exact placed_of_layout (sits_self _)
  · have hle := layout_parts_le hf hvs
    omega

theorem packable_of_roundTrips (h : RoundTrips ts vs) :
    along packableAt (.tuple ts) (.seq vs) ∧ along readableAt (.tuple ts) (.seq vs) := by
  obtain ⟨data, hpack, hunpack⟩ := h
  rw [unpackValues_ofTypes] at hunpack
  refine ⟨packable_of_pack hpack, along_tuple.mpr ⟨rfl, fun x hx => ?_⟩⟩
  obtain ⟨i, hi⟩ := unpackAll_mem hunpack x hx
  exact Read.along ⟨i, data, hi⟩

theorem aligned_of_roundTrips (hf : ∀ t ∈ ts, throughout formed t)
    (hsm : throughout small (.tuple ts)) (hd : anyDynamic ts = false)
    (hlen : totalHeadSize ts < 2 ^ 63)
    (h : ∀ vs, hasTypes ts vs → along readableAt (.tuple ts) (.seq vs) → RoundTrips ts vs) :
    throughout aligned (.tuple ts) := by
  have hstatic := anyDynamic_eq_false.mp hd
  have hlength : ∀ vs, hasTypes ts vs → (layout (parts ts vs)).length = totalHeadSize ts := by
    intro vs hvs
    rw [(parts_inline hd vs).layout_length,
      headsLen_parts (fun t ht v hv => headLen_encoding (hf t ht) hv) hvs]
  have hback : ∀ vs, hasTypes ts vs → along readableAt (.tuple ts) (.seq vs) →
      unpackAll ts 0 (layout (parts ts vs)) = .ok vs := by
    intro vs hvs hr
    have hpack := pack_ofTypes hf (offsets_of_static (t := .tuple ts) hd _) hsm hvs
      (packable_of_static (t := .tuple ts) hd _)
      (by rw [hlength vs hvs]; exact hlen)
    obtain ⟨data, hdata, hunpack⟩ := h vs hvs hr
    rw [hpack] at hdata
    cases hdata
    rwa [unpackValues_ofTypes] at hunpack
  suffices hreach : totalHeadSize ts ≤ reachAll ts by
    obtain ⟨hal, hdrop⟩ := alignedAll_of_reachAll hf hstatic
      (fun t ht => aligned_of_reach (hf t ht) (hstatic t ht)) hreach
    rw [throughout, Bool.and_eq_true, AbiType.throughoutAll_iff, aligned, hd, if_neg (by simp),
      List.all_eq_true]
    exact ⟨hdrop, hal⟩
  by_contra hlt
  rcases eq_or_ne ts [] with rfl | hne
  · exact hlt (le_refl 0)
  obtain ⟨vs, vs', ⟨hvs, hr⟩, ⟨hvs', hr'⟩, hdiff, hlast⟩ := twins_fields hd hne fun t ht =>
    twins (hf t ht) (hstatic t ht)
  -- the last word is not looked at, so both lists are read the same
  have hdvd : 32 ∣ totalHeadSize ts := totalHeadSize_dvd fun t _ => headSize_dvd t
  have hdvd' : 32 ∣ reachAll ts := reachAll_dvd fun t _ => reach_dvd t
  have hagree : Agree (0 * 32 + reachAll ts) (layout (parts ts vs)) (layout (parts ts vs')) :=
    hlast.agree (by rw [hlength vs hvs]; omega)
  have hsame := unpackAll_congr (fun t ht i => toGoType_congr (hf t ht) (hstatic t ht)) hagree
  rw [hback vs hvs (along_tuple.mpr ⟨rfl, alongAll_iff.mp hr⟩),
    hback vs' hvs' (along_tuple.mpr ⟨rfl, alongAll_iff.mp hr'⟩)] at hsame
  exact hdiff (ok.inj hsame)

/-- A value for which the sizes that are taken are right comes back if and only if it has no empty
slice of arrays, its integers have at most 256 bits and there is memory for its slices. Of static
types all values come back exactly where the types are aligned. -/
theorem abi_round_trip_iff (ts : List AbiType) (hf : ∀ t ∈ ts, throughout formed t)
    (hsm : throughout small (.tuple ts)) :
    (∀ vs, along alignedAt (.tuple ts) (.seq vs) → hasTypes ts vs →
      (layout (parts ts vs)).length < 2 ^ 63 → (RoundTrips ts vs ↔
        along packableAt (.tuple ts) (.seq vs) ∧ along readableAt (.tuple ts) (.seq vs))) ∧
    (anyDynamic ts = false → totalHeadSize ts < 2 ^ 63 →
      ((∀ vs, hasTypes ts vs → along readableAt (.tuple ts) (.seq vs) → RoundTrips ts vs) ↔
        throughout aligned (.tuple ts))) := by
  constructor
  · intro vs hal hvs hlen
    exact ⟨packable_of_roundTrips, fun h => roundTrips_of_aligned hf hsm hal hvs hlen h.1 h.2⟩
  · intro hd hlen
    refine ⟨aligned_of_roundTrips hf hsm hd hlen, ?_⟩
    intro hal vs hvs hr
    refine roundTrips_of_aligned hf hsm ?_ hvs ?_ (packable_of_static (t := .tuple ts) hd _) hr
    · exact along_of_throughout (fun _ => alignedAt_of_aligned) hal _
    · rw [(parts_inline hd vs).layout_length,
        headsLen_parts (fun t ht v hv => headLen_encoding (hf t ht) hv) hvs]
      exact hlen

/-- The second value is an empty `tuple(uint256,uint256)[2][][]`. -/
theorem abi_round_trip_orders :
    RoundTrips [.slice (.tuple [.uint 8, .string]), .array 2 (.int 64), .address]
      [.seq [.seq [.num 7, .bytes [0x61, 0x62]]], .seq [.num (-1), .num 3],
        .bytes (List.replicate 20 5)] ∧
      RoundTrips [.slice (.slice (.array 2 (.tuple [.uint 256, .uint 256])))] [.seq []] ∧
      ∀ vs, hasTypes [.array 2 (.tuple [.bool]), .fixedBytes 4] vs →
        along readableAt (.tuple [.array 2 (.tuple [.bool]), .fixedBytes 4]) (.seq vs) →
        RoundTrips [.array 2 (.tuple [.bool]), .fixedBytes 4] vs :=
  ⟨((abi_round_trip_iff _ (by simp [throughout, AbiType.throughoutAll, formed]) rfl).1 _ rfl rfl
      (by decide +kernel)).mpr ⟨rfl, rfl⟩,
    ((abi_round_trip_iff _ (by simp [throughout, AbiType.throughoutAll, formed]) rfl).1 _ rfl rfl
      (by decide +kernel)).mpr ⟨rfl, rfl⟩,
    ((abi_round_trip_iff _ (by simp [throughout, AbiType.throughoutAll, formed]) rfl).2 rfl
      (by decide)).mpr rfl⟩

def pairsThenNumber : List AbiType := [.array 2 (.tuple [.uint 256, .uint 256]), .uint 256]

def pairsThenFive : List Value := [.seq [.seq [.num 1, .num 2], .seq [.num 3, .num 4]], .num 5]

set_option maxRecDepth 20000 in
/-- After an array of pairs the next argument is read inside the array. -/
theorem pairs_then_number_misread :
    (∀ t ∈ pairsThenNumber, throughout formed t) ∧ hasTypes pairsThenNumber pairsThenFive ∧
      ¬ RoundTrips pairsThenNumber pairsThenFive := by
  refine ⟨by simp [pairsThenNumber, throughout, AbiType.throughoutAll, formed], by decide, ?_⟩
  rintro ⟨data, hpack, hunpack⟩
  have hrun : (do
      let data ← Arguments.pack (Arguments.ofTypes pairsThenNumber) pairsThenFive
      Arguments.unpackValues (Arguments.ofTypes pairsThenNumber) data) =
        .ok [.seq [.seq [.num 1, .num 2], .seq [.num 3, .num 4]], .num 3] := rfl
  rw [hpack, ok_bind, hunpack] at hrun
  simp [pairsThenFive] at hrun

end Fiscobcos.Abi
