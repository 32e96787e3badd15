import Doormat.Library.Runs
import Doormat.Http.StructuredData

/-! The mutators of `http_structured_data` and the framing that a message declares:
when the flag, the length and the two framing headers stay in step. -/
namespace Doormat.Http

open Bytes Runs

/-- A call of one of the mutators. -/
inductive Mutation
  | header (key value : ByteString)
  | chunked (val : Bool)
  | contentLen (val : UInt64)
  | keepalive (val : Bool)
  | protocol (val : ProtoVersion)
deriving DecidableEq

namespace StructuredData

/-- There is no message after a `header` that throws and after a `content_len`
whose assertion fails. -/
def mutate (d : StructuredData) : Mutation → Option StructuredData
  | .header key value => (d.header key value).toOption
  | .chunked val => some (d.setChunked val)
  | .contentLen val => d.setContentLen val
  | .keepalive val => some (d.setKeepalive val)
  | .protocol val => some (d.setProtocol val)

/-- The codings under which a `transfer-encoding` stands for a chunked body. -/
def isChunkedCoding (value : ByteString) : Bool := icompare value (ofString "chunked")

/-- The flag, the length and the headers declare one and the same framing. -/
structure Framed (d : StructuredData) : Prop where
  exclusive : d.getHeaders hfContentLen = [] ∨
    ∀ value ∈ d.getHeaders hfTransferEncoding, isChunkedCoding value = false
  flagged : d.chunked = true ↔
    ∃ value ∈ d.getHeaders hfTransferEncoding, isChunkedCoding value = true
  measured : d.chunked = false →
    ∃ value, d.getHeaders hfContentLen = [value] ∧ stoull value = .ok d.contentLen

/-- The calls that leave the framing in step: on a chunked message neither a length is
declared nor the flag taken back. -/
def KeepsFraming (d : StructuredData) : Mutation → Prop
  | .header key _ => d.chunked = true → lower key ≠ hfContentLen
  | .chunked val => d.chunked = true → val = true
  | .contentLen _ => d.chunked = false
  | .keepalive _ => True
  | .protocol _ => True

/-- The calls that return: a `content-length` is one that `std::stoull` reads, and the assertion of
`content_len` holds. -/
def Takes (d : StructuredData) : Mutation → Prop
  | .header key value => lower key = hfContentLen → ∃ n, stoull value = .ok n
  | .chunked _ => True
  | .contentLen val => d.chunked = true → val = 0
  | .keepalive _ => True
  | .protocol _ => True

section Access

variable (d : StructuredData) {key other : ByteString} (value : ByteString)

@[simp] theorem chunked_removeHeader : (d.removeHeader key).chunked = d.chunked := rfl

@[simp] theorem chunked_insertHeader : (d.insertHeader key value).chunked = d.chunked := rfl

@[simp] theorem contentLen_removeHeader : (d.removeHeader key).contentLen = d.contentLen := rfl

@[simp] theorem contentLen_insertHeader :
    (d.insertHeader key value).contentLen = d.contentLen := rfl

@[simp] theorem getHeaders_removeHeader_self : (d.removeHeader key).getHeaders key = [] :=
  d.headers.values_erase_self key

@[simp] theorem getHeaders_removeHeader_of_ne (h : key ≠ other) :
    (d.removeHeader key).getHeaders other = d.getHeaders other :=
  d.headers.values_erase_of_ne h

@[simp] theorem getHeaders_insertHeader_self :
    (d.insertHeader key value).getHeaders key = d.getHeaders key ++ [value] :=
  d.headers.values_insert_self key value

@[simp] theorem getHeaders_insertHeader_of_ne (h : key ≠ other) :
    (d.insertHeader key value).getHeaders other = d.getHeaders other :=
  d.headers.values_insert_of_ne value h

end Access

/-- Two messages that declare the same framing. -/
structure SameFraming (d d' : StructuredData) : Prop where
  chunked : d'.chunked = d.chunked
  contentLen : d'.contentLen = d.contentLen
  lengths : d'.getHeaders hfContentLen = d.getHeaders hfContentLen
  codings : d'.getHeaders hfTransferEncoding = d.getHeaders hfTransferEncoding

theorem Framed.of_same {d d' : StructuredData} (h : Framed d) (hSame : SameFraming d d') :
    Framed d' := by
  constructor
  · rw [hSame.lengths, hSame.codings]
    exact h.exclusive
  · rw [hSame.chunked, hSame.codings]
    exact h.flagged
  · rw [hSame.chunked, hSame.lengths, hSame.contentLen]
    exact h.measured

theorem SameFraming.trans {d d' d'' : StructuredData} (h : SameFraming d d')
    (h' : SameFraming d' d'') : SameFraming d d'' :=
  ⟨h'.chunked.trans h.chunked, h'.contentLen.trans h.contentLen, h'.lengths.trans h.lengths,
    h'.codings.trans h.codings⟩

variable {d d' : StructuredData} {key value : ByteString}

theorem removeHeader_same (hLength : key ≠ hfContentLen) (hCoding : key ≠ hfTransferEncoding) :
    SameFraming d (d.removeHeader key) :=
  ⟨rfl, rfl, d.getHeaders_removeHeader_of_ne hLength, d.getHeaders_removeHeader_of_ne hCoding⟩

theorem insertHeader_same (hLength : key ≠ hfContentLen) (hCoding : key ≠ hfTransferEncoding) :
    SameFraming d (d.insertHeader key value) :=
  ⟨rfl, rfl, d.getHeaders_insertHeader_of_ne value hLength,
    d.getHeaders_insertHeader_of_ne value hCoding⟩

/-- A header that declares no framing leaves it as it was. -/
theorem storeHeader_same (hLength : key ≠ hfContentLen) (hCoding : key ≠ hfTransferEncoding) :
    SameFraming d (d.storeHeader key value) := by
  by_cases hSingle : key ∈ singleValued
  · rw [storeHeader, if_pos hSingle]
    exact (removeHeader_same hLength hCoding).trans (insertHeader_same hLength hCoding)
  · rw [storeHeader, if_neg hSingle, if_neg (fun h => hCoding h.1)]
    exact insertHeader_same hLength hCoding

theorem hfTransferEncoding_ne : hfTransferEncoding ≠ hfContentLen := by decide

theorem setKeepalive_same (val : Bool) : SameFraming d (d.setKeepalive val) := by
  have hSame : SameFraming d { d with keepalive := val, defaultKeepalive := false } :=
    ⟨rfl, rfl, rfl, rfl⟩
  exact hSame.trans (storeHeader_same (by decide) (by decide))

theorem setProtocol_same (val : ProtoVersion) : SameFraming d (d.setProtocol val) := by
  have hVersion : SameFraming d { d with protocolVersion := val } := ⟨rfl, rfl, rfl, rfl⟩
  have hRemoved : SameFraming d ({ d with protocolVersion := val }.removeHeader hfConnection) :=
    hVersion.trans (removeHeader_same (by decide) (by decide))
  rw [setProtocol]
  split
  · exact ⟨rfl, rfl, rfl, rfl⟩
  · dsimp only
    split
    · cases val with
      | HTTP10 =>
          have hStored : SameFraming d (({ d with protocolVersion := .HTTP10 }.removeHeader
              hfConnection).storeHeader hfConnection hvConnectionClose) :=
            hRemoved.trans (storeHeader_same (by decide) (by decide))
          exact hStored.trans ⟨rfl, rfl, rfl, rfl⟩
      | HTTP11 => exact hRemoved.trans ⟨rfl, rfl, rfl, rfl⟩
      | HTTP20 => exact hRemoved
      | UNSET => exact hRemoved
    · exact hVersion

theorem storeHeader_transferEncoding :
    d.storeHeader hfTransferEncoding value =
      if isChunkedCoding value then
        (({ d with chunked := true }.removeHeader hfTransferEncoding).removeHeader
          hfContentLen).insertHeader hfTransferEncoding value
      else d.insertHeader hfTransferEncoding value := by
  have hMany : hfTransferEncoding ∉ singleValued := by decide
  rw [storeHeader, if_neg hMany, isChunkedCoding]
  by_cases hCoding : icompare value (ofString "chunked") = true
  · rw [if_pos hCoding, if_pos ⟨rfl, hCoding⟩]
  · rw [if_neg hCoding, if_neg (fun h => hCoding h.2)]

/-- The chunked coding takes the place of whatever framing there was. -/
theorem framed_of_chunked_coding (hCoding : isChunkedCoding value = true) :
    Framed (d.storeHeader hfTransferEncoding value) := by
  have hNe := hfTransferEncoding_ne
  rw [storeHeader_transferEncoding, if_pos hCoding]
  constructor
  · left
    rw [getHeaders_insertHeader_of_ne _ _ hNe, getHeaders_removeHeader_self]
  · have hFlag : ∃ v ∈ [value], isChunkedCoding v = true := ⟨value, List.mem_singleton_self _, hCoding⟩
    simpa [getHeaders_removeHeader_of_ne _ hNe.symm] using hFlag
  · intro hChunked
    exact absurd hChunked (by simp)

/-- Any other coding leaves the framing in step. -/
theorem framed_of_other_coding (h : Framed d) (hCoding : isChunkedCoding value = false) :
    Framed (d.storeHeader hfTransferEncoding value) := by
  have hNe := hfTransferEncoding_ne
  rw [storeHeader_transferEncoding, if_neg (by simp [hCoding])]
  constructor
  · rw [getHeaders_insertHeader_of_ne _ _ hNe, getHeaders_insertHeader_self]
    cases h.exclusive with
    | inl hNone => exact Or.inl hNone
    | inr hOther =>
        right
        intro v hv
        cases List.mem_append.mp hv with
        | inl hOld => exact hOther v hOld
        | inr hNew => exact List.mem_singleton.mp hNew ▸ hCoding
  · rw [getHeaders_insertHeader_self, chunked_insertHeader, h.flagged]
    simp [List.mem_append, or_and_right, exists_or, hCoding]
  · rw [getHeaders_insertHeader_of_ne _ _ hNe]
    exact h.measured

/-- The message after a length has been read from `value`. -/
def declareLength (d : StructuredData) (length : Nat) (value : ByteString) : StructuredData :=
  ({ d with contentLen := length }.removeHeader hfContentLen).insertHeader hfContentLen value

theorem getHeaders_declareLength (length : Nat) :
    (d.declareLength length value).getHeaders hfContentLen = [value] := by
  rw [declareLength, getHeaders_insertHeader_self, getHeaders_removeHeader_self]
  rfl

theorem codings_declareLength (length : Nat) :
    (d.declareLength length value).getHeaders hfTransferEncoding =
      d.getHeaders hfTransferEncoding := by
  have hNe := hfTransferEncoding_ne.symm
  rw [declareLength, getHeaders_insertHeader_of_ne _ _ hNe, getHeaders_removeHeader_of_ne _ hNe]
  rfl

/-- A declared length is in step with the rest exactly on a message that is not chunked. -/
theorem framed_declareLength_iff {length : Nat}
    (hFlag : d.chunked = true ↔
      ∃ v ∈ d.getHeaders hfTransferEncoding, isChunkedCoding v = true)
    (hValue : stoull value = .ok length) :
    Framed (d.declareLength length value) ↔ d.chunked = false := by
  constructor
  · intro h
    cases h.exclusive with
    | inl hNone =>
        rw [getHeaders_declareLength] at hNone
        exact absurd hNone (by simp)
    | inr hOther =>
        rw [codings_declareLength] at hOther
        by_contra hChunked
        obtain ⟨v, hv, hCoding⟩ := hFlag.mp (by simpa using hChunked)
        exact absurd (hCoding.symm.trans (hOther v hv)) (by decide)
  · intro hChunked
    constructor
    · right
      intro v hv
      rw [codings_declareLength] at hv
      by_contra hCoding
      have hSet := hFlag.mpr ⟨v, hv, by simpa using hCoding⟩
      exact absurd (hSet.symm.trans hChunked) (by decide)
    · rw [codings_declareLength]
      exact hFlag
    · intro _
      exact ⟨value, getHeaders_declareLength length, hValue⟩

theorem header_contentLen (hKey : lower key = hfContentLen) :
    (d.header key value).toOption = some d' ↔
      ∃ length, stoull value = .ok length ∧ d' = d.declareLength length value := by
  cases hValue : stoull value with
  | error e => simp [header, hKey, hValue, Except.toOption, bind, Except.bind]
  | ok length =>
      simp only [header, hKey, hValue, Except.toOption, bind, Except.bind, if_true,
        Option.some.injEq, Except.ok.injEq, exists_eq_left']
      exact eq_comm

theorem header_other (hKey : lower key ≠ hfContentLen) :
    (d.header key value).toOption = some (d.storeHeader (lower key) value) := by
  simp [header, hKey, Except.toOption]

/-- `header` on a message whose framing is in step. -/
theorem framed_header_iff (h : Framed d) (hStep : (d.header key value).toOption = some d') :
    Framed d' ↔ (d.chunked = true → lower key ≠ hfContentLen) := by
  by_cases hLength : lower key = hfContentLen
  · obtain ⟨length, hValue, hEq⟩ := (header_contentLen hLength).mp hStep
    rw [hEq, framed_declareLength_iff h.flagged hValue]
    simp [hLength]
  · rw [header_other hLength, Option.some.injEq] at hStep
    rw [← hStep]
    apply iff_of_true _ (fun _ => hLength)
    by_cases hCoding : lower key = hfTransferEncoding
    · rw [hCoding]
      cases hChunked : isChunkedCoding value with
      | true => exact framed_of_chunked_coding hChunked
      | false => exact framed_of_other_coding h hChunked
    · exact h.of_same (storeHeader_same hLength hCoding)

/-- `chunked(val)` on a message whose framing is in step. -/
theorem framed_setChunked_iff (h : Framed d) (val : Bool) :
    Framed (d.setChunked val) ↔ (d.chunked = true → val = true) := by
  by_cases hSame : val = d.chunked
  · rw [setChunked, if_pos hSame]
    exact iff_of_true h (fun hChunked => hSame.trans hChunked)
  · rw [setChunked, if_neg hSame]
    cases val with
    | true =>
        have hFlag : (d.storeHeader hfTransferEncoding hvChunked).chunked = true := by
          rw [storeHeader_transferEncoding, if_pos (by decide)]
          rfl
        have hFramed : Framed (d.storeHeader hfTransferEncoding hvChunked) :=
          framed_of_chunked_coding (by decide)
        have hSet : SameFraming (d.storeHeader hfTransferEncoding hvChunked)
            { d.storeHeader hfTransferEncoding hvChunked with chunked := true } :=
          ⟨hFlag.symm, rfl, rfl, rfl⟩
        exact iff_of_true (hFramed.of_same hSet) (by simp)
    | false =>
        have hChunked : d.chunked = true := by simpa using hSame
        apply iff_of_false _ (by simp [hChunked])
        intro h'
        -- The length went when the message became chunked, and nothing brings it back.
        obtain ⟨v, hv, -⟩ := h'.measured rfl
        obtain ⟨w, hw, hCoding⟩ := h.flagged.mp hChunked
        have hLengths : d.getHeaders hfContentLen = [v] :=
          (d.getHeaders_removeHeader_of_ne hfTransferEncoding_ne).symm.trans hv
        cases h.exclusive with
        | inl hNone => exact absurd (hNone.symm.trans hLengths) (by simp)
        | inr hOther => exact absurd (hCoding.symm.trans (hOther w hw)) (by decide)

/-- `content_len(val)` on a message whose framing is in step. -/
theorem framed_setContentLen_iff (h : Framed d) {val : UInt64} (hStep : d.setContentLen val = some d') :
    Framed d' ↔ d.chunked = false := by
  rw [setContentLen] at hStep
  split at hStep
  · exact absurd hStep (by simp)
  · have hKey : lower hfContentLen = hfContentLen := by decide
    obtain ⟨length, hValue, hEq⟩ := (header_contentLen hKey).mp hStep
    -- The entry was taken out before `header` takes it out; the codings are untouched.
    have hCodings : (({ d with contentLen := val.toNat } : StructuredData).removeHeader
        hfContentLen).getHeaders hfTransferEncoding = d.getHeaders hfTransferEncoding :=
      getHeaders_removeHeader_of_ne _ hfTransferEncoding_ne.symm
    rw [hEq]
    apply framed_declareLength_iff _ hValue
    rw [hCodings]
    exact h.flagged

/-- One call keeps the framing in step exactly when it is one of those that do. -/
theorem framed_mutate_iff (h : Framed d) {m : Mutation} (hStep : d.mutate m = some d') :
    Framed d' ↔ d.KeepsFraming m := by
  cases m with
  | header key value => exact framed_header_iff h hStep
  | chunked val =>
      rw [mutate, Option.some.injEq] at hStep
      rw [← hStep]
      exact framed_setChunked_iff h val
  | contentLen val => exact framed_setContentLen_iff h hStep
  | keepalive val =>
      rw [mutate, Option.some.injEq] at hStep
      rw [← hStep]
      exact iff_of_true (h.of_same (setKeepalive_same val)) trivial
  | protocol val =>
      rw [mutate, Option.some.injEq] at hStep
      rw [← hStep]
      exact iff_of_true (h.of_same (setProtocol_same val)) trivial

/-- A length that the assertion lets pass is written and read back. -/
theorem setContentLen_isSome_iff (d : StructuredData) (val : UInt64) :
    (d.setContentLen val).isSome = true ↔ (d.chunked = true → val = 0) := by
  rw [setContentLen]
  split
  case isTrue hNot => exact iff_of_false (by simp) fun h => hNot.2 (h hNot.1)
  case isFalse hAsserted =>
    have hNumeral : stoull (numeral val.toNat) = .ok val.toNat := stoull_numeral val.toNat_lt
    apply iff_of_true
    · rw [header_isSome_iff]
      exact fun _ => ⟨_, hNumeral⟩
    · intro hChunked
      by_contra hVal
      exact hAsserted ⟨hChunked, hVal⟩

theorem mutate_iff_takes (d : StructuredData) (m : Mutation) :
    (∃ d', d.mutate m = some d') ↔ d.Takes m := by
  rw [← Option.isSome_iff_exists]
  cases m with
  | header key value => exact d.header_isSome_iff key value
  | contentLen val => exact d.setContentLen_isSome_iff val
  | chunked val => exact iff_of_true rfl trivial
  | keepalive val => exact iff_of_true rfl trivial
  | protocol val => exact iff_of_true rfl trivial

theorem framed_fresh : Framed fresh where
  exclusive := by decide
  flagged := by decide
  measured := fun _ => ⟨ofString "0", by decide, by decide⟩

/-- The framing stays in step through a run of calls on a new message if and only if no call
declares a length on a chunked message or takes its flag back. The run comes to its end if and only
if each length is read and each assertion holds. -/
theorem framing_kept_iff (ms : List Mutation) :
    (Throughout mutate Framed fresh ms ↔ Heeds mutate KeepsFraming fresh ms) ∧
      ((∃ d, run mutate fresh ms = some d) ↔ Admits mutate Takes fresh ms) := by
  have hKeeps : ∀ {d m d'}, True → Framed d → mutate d m = some d' → Framed d' → True :=
    fun _ _ _ _ => trivial
  refine ⟨?_, run_iff_admits mutate_iff_takes fresh ms⟩
  apply throughout_iff_heeds hKeeps
  · intro d m d' _ h hStep
    exact framed_mutate_iff h hStep
  · trivial
  · exact framed_fresh

/-- A message made chunked and given a length after that declares both. -/
theorem framing_contradicts_itself :
    ¬ ∀ ms : List Mutation, Throughout mutate Framed fresh ms := by
  intro h
  have hRun := h [.chunked true, .contentLen 0]
  have hChunked := hRun.2 (fresh.setChunked true) rfl
  obtain ⟨d, hStep⟩ : ∃ d, (fresh.setChunked true).mutate (.contentLen 0) = some d :=
    Option.isSome_iff_exists.mp (by decide)
  have hLength : (fresh.setChunked true).chunked = false :=
    (framed_mutate_iff hChunked.1 hStep).mp (hChunked.2 d hStep)
  exact absurd hLength (by decide)

end StructuredData

end Doormat.Http
